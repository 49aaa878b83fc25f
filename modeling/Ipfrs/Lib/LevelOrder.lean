import Mathlib.Algebra.GroupWithZero.Nat
import Mathlib.Data.List.Basic
import Mathlib.Data.List.Flatten
import Mathlib.Data.List.TakeWhile
import Ipfrs.Lib.WhileLoop

/-!
# Depth-first and level order

A forest whose leaves carry pieces of a text, and the two orders in which it can be read. A piece is
labelled with the number of nodes above it.

* `pieces` — depth-first order, from left to right;
* `levelOrder` — the pieces without a node above them first, then those under one node, and so on;
* `returns_levelOrder` — a queue of forests, in which a forest gives its own pieces and leaves the
  forests of its nodes to the end of the queue, is read in level order;
* `levelOrder_filter_of_sorted` — the two orders agree on pieces of which none is followed by one
  with a smaller label.
-/

/-- A forest in the form first child, next sibling. -/
inductive Forest (β : Type) where
  | nil
  | piece (b : β) (rest : Forest β)
  | node (children rest : Forest β)
  deriving DecidableEq, Repr

namespace Forest

variable {β : Type}

/-- The trees of one forest, and then those of another. -/
def append : Forest β → Forest β → Forest β
  | nil, g => g
  | piece b rest, g => piece b (rest.append g)
  | node children rest, g => node children (rest.append g)

/-- The number of pieces and nodes. -/
def size : Forest β → ℕ
  | nil => 0
  | piece _ rest => rest.size + 1
  | node children rest => children.size + rest.size + 1

/-- The pieces in depth-first order, each with the number of nodes above it plus `d`. -/
def labelled (d : ℕ) : Forest β → List (ℕ × β)
  | nil => []
  | piece b rest => (d, b) :: rest.labelled d
  | node children rest => children.labelled (d + 1) ++ rest.labelled d

/-- The pieces in depth-first order. -/
def pieces : Forest β → List β
  | nil => []
  | piece b rest => b :: rest.pieces
  | node children rest => children.pieces ++ rest.pieces

variable (f : Forest β)

/-- The pieces with `k` nodes above them. -/
def level (k : ℕ) : List β :=
  ((f.labelled 0).filter (·.1 = k)).map Prod.snd

/-- A bound on the labels. -/
def height : Forest β → ℕ
  | nil => 0
  | piece _ rest => max 1 rest.height
  | node children rest => max (children.height + 1) rest.height

/-- The pieces level by level. -/
def levelOrder : List β :=
  (List.range f.height).flatMap f.level

/-- The pieces of a forest without a node above them. -/
def top : Forest β → List β
  | nil => []
  | piece b rest => b :: rest.top
  | node _ rest => rest.top

/-- The forests under the nodes that have no node above them. -/
def inner : Forest β → List (Forest β)
  | nil => []
  | piece _ rest => rest.inner
  | node children rest => children :: rest.inner

/-! ### Labels -/

@[simp] theorem size_append (g : Forest β) : (f.append g).size = f.size + g.size := by
  induction f with
  | nil => simp [append, size]
  | piece b rest ih =>
    simp only [append, size, ih]
    omega
  | node children rest _ ih =>
    simp only [append, size, ih]
    omega

@[simp] theorem pieces_append (g : Forest β) : (f.append g).pieces = f.pieces ++ g.pieces := by
  induction f with
  | nil => rfl
  | piece b rest ih => rw [append, pieces, ih, pieces, List.cons_append]
  | node children rest _ ih => rw [append, pieces, ih, pieces, List.append_assoc]

theorem labelled_map_snd (d : ℕ) : (f.labelled d).map Prod.snd = f.pieces := by
  induction f generalizing d with
  | nil => rfl
  | piece b rest ih => rw [labelled, List.map_cons, ih, pieces]
  | node children rest ihc ih => rw [labelled, List.map_append, ihc, ih, pieces]

theorem labelled_succ (d : ℕ) :
    f.labelled (d + 1) = (f.labelled d).map fun p => (p.1 + 1, p.2) := by
  induction f generalizing d with
  | nil => rfl
  | piece b rest ih => rw [labelled, labelled, ih, List.map_cons]
  | node children rest ihc ih => rw [labelled, labelled, ihc, ih, List.map_append]

theorem lt_of_mem_labelled {f : Forest β} {d : ℕ} {p : ℕ × β} (hp : p ∈ f.labelled d) :
    p.1 < d + f.height := by
  induction f generalizing d with
  | nil => exact absurd hp List.not_mem_nil
  | piece b rest ih =>
    rw [height]
    rcases List.mem_cons.mp hp with rfl | hp
    · change d < d + max 1 rest.height
      omega
    · have h := ih hp
      omega
  | node children rest ihc ih =>
    rw [height]
    rcases List.mem_append.mp hp with hp | hp
    · have h := ihc hp
      omega
    · have h := ih hp
      omega

/-! ### Levels -/

@[simp] theorem level_nil (k : ℕ) : (nil : Forest β).level k = [] := rfl

@[simp] theorem level_piece_zero (b : β) (rest : Forest β) :
    (piece b rest).level 0 = b :: rest.level 0 := rfl

@[simp] theorem level_piece_succ (b : β) (rest : Forest β) (k : ℕ) :
    (piece b rest).level (k + 1) = rest.level (k + 1) := rfl

@[simp] theorem level_node_zero (children rest : Forest β) :
    (node children rest).level 0 = rest.level 0 := by
  have hnone : (children.labelled 1).filter (·.1 = 0) = [] := by
    rw [labelled_succ, List.filter_map, List.map_eq_nil_iff, List.filter_eq_nil_iff]
    intro p _
    simp
  rw [level, labelled, List.filter_append, hnone, List.nil_append, level]

@[simp] theorem level_node_succ (children rest : Forest β) (k : ℕ) :
    (node children rest).level (k + 1) = children.level k ++ rest.level (k + 1) := by
  have hshift : ((children.labelled 1).filter (·.1 = k + 1)).map Prod.snd = children.level k := by
    rw [labelled_succ, List.filter_map, List.map_map, level]
    congr 1
    refine List.filter_congr fun p _ => ?_
    simp
  rw [level, labelled, List.filter_append, List.map_append, hshift, level, level]

theorem level_eq_nil {f : Forest β} {k : ℕ} (h : f.height ≤ k) : f.level k = [] := by
  rw [level, List.map_eq_nil_iff, List.filter_eq_nil_iff]
  intro p hp
  have hlt := lt_of_mem_labelled hp
  rw [decide_eq_true_iff]
  omega

theorem level_zero : f.level 0 = f.top := by
  induction f with
  | nil => rfl
  | piece b rest ih => rw [level_piece_zero, ih, top]
  | node children rest _ ih => rw [level_node_zero, ih, top]

theorem level_succ (k : ℕ) : f.level (k + 1) = f.inner.flatMap (·.level k) := by
  induction f with
  | nil => rfl
  | piece b rest ih => rw [level_piece_succ, ih, inner]
  | node children rest _ ih => rw [level_node_succ, ih, inner, List.flatMap_cons]

theorem levelOrder_node_nil : (node f nil).levelOrder = f.levelOrder := by
  have hheight : (node f nil).height = f.height + 1 := by
    rw [height, height]
    exact max_eq_left (Nat.zero_le _)
  rw [levelOrder, hheight, List.range_succ_eq_map, List.flatMap_cons, level_node_zero, level_nil,
    List.nil_append, List.flatMap_map]
  simp only [level_node_succ, level_nil, List.append_nil]
  rfl

/-! ### Reading a queue of forests -/

/-- One round: the first forest of the queue gives its own pieces, and the forests under its nodes
go to the end of the queue. -/
def step : List β × List (Forest β) → (List β × List (Forest β)) ⊕ List β
  | (out, []) => .inr out
  | (out, f :: queue) => .inl (out ++ f.top, queue ++ f.inner)

theorem flatMap_range_shift (a b : ℕ → List β) (n : ℕ) :
    (List.range n).flatMap (fun k => a k ++ b k) ++ a n
      = a 0 ++ (List.range n).flatMap fun k => b k ++ a (k + 1) := by
  induction n with
  | zero => simp
  | succ n ih =>
    rw [List.range_succ, List.flatMap_append, List.flatMap_append, List.flatMap_singleton,
      List.flatMap_singleton, ← List.append_assoc (a 0), ← ih]
    simp only [List.append_assoc]

theorem inner_size : (f.inner.map fun g => g.size + 1).sum ≤ f.size := by
  induction f with
  | nil => exact le_rfl
  | piece b rest ih => exact Nat.le_succ_of_le ih
  | node children rest _ ih =>
    rw [inner, List.map_cons, List.sum_cons, size]
    omega

theorem height_of_mem_inner {f g : Forest β} (hg : g ∈ f.inner) : g.height ≤ f.height := by
  induction f with
  | nil => exact absurd hg List.not_mem_nil
  | piece b rest ih => exact le_trans (ih hg) (le_max_right _ _)
  | node children rest _ ih =>
    rw [height]
    rcases List.mem_cons.mp hg with rfl | hg
    · omega
    · have h := ih hg
      omega

/-- The pieces of a queue level by level. In a round the first forest is replaced by the forests
under its nodes, whose levels count one less, so they come after those of the rest of the queue. -/
theorem returns_queue {n : ℕ} (queue : List (Forest β)) (hn : ∀ f ∈ queue, f.height ≤ n)
    (out : List β) :
    WhileLoop.Returns step (out, queue)
      (out ++ (List.range n).flatMap fun k => queue.flatMap (·.level k)) := by
  generalize hm : (queue.map fun f => f.size + 1).sum = m
  induction m using Nat.strong_induction_on generalizing queue out with
  | _ m ih =>
    cases queue with
    | nil => exact .of_done (by simp [step])
    | cons f queue =>
      have hf := hn f List.mem_cons_self
      refine .of_next rfl ?_
      have hsmall : ((queue ++ f.inner).map fun g => g.size + 1).sum < m := by
        have hinner := inner_size f
        rw [← hm, List.map_append, List.sum_append, List.map_cons, List.sum_cons]
        omega
      have hheight : ∀ g ∈ queue ++ f.inner, g.height ≤ n := by
        intro g hg
        rcases List.mem_append.mp hg with hg | hg
        · exact hn g (List.mem_cons_of_mem _ hg)
        · exact le_trans (height_of_mem_inner hg) hf
      have hrest := ih _ hsmall (queue ++ f.inner) hheight (out ++ f.top) rfl
      have hshift := flatMap_range_shift f.level (fun k => queue.flatMap (·.level k)) n
      rw [level_eq_nil hf, List.append_nil, level_zero] at hshift
      simp only [List.flatMap_cons, hshift]
      simpa only [List.flatMap_append, level_succ, List.append_assoc] using hrest

/-- **A queue reads a forest in level order.** -/
theorem returns_levelOrder : WhileLoop.Returns step ([], [f]) f.levelOrder := by
  have h := returns_queue (n := f.height) [f] (fun g hg => by rw [List.mem_singleton.mp hg]) []
  simp only [List.flatMap_singleton, List.nil_append] at h
  exact h

/-! ### When the two orders agree -/

/-- A list that is sorted by its labels is not changed by taking it apart by labels. -/
theorem flatMap_filter_of_sorted {l : List (ℕ × β)} (h : l.Pairwise fun p q => p.1 ≤ q.1) (n : ℕ) :
    (List.range n).flatMap (fun k => l.filter (·.1 = k)) = l.filter (·.1 < n) := by
  induction n with
  | zero => simp
  | succ n ih =>
    rw [List.range_succ, List.flatMap_append, ih, List.flatMap_singleton]
    clear ih
    induction l with
    | nil => rfl
    | cons p l ih =>
      obtain ⟨hp, h⟩ := List.pairwise_cons.mp h
      have ih := ih h
      rcases lt_trichotomy p.1 n with hlt | heq | hgt
      · rw [List.filter_cons_of_pos (by simpa using hlt),
          List.filter_cons_of_neg (by simpa using hlt.ne),
          List.filter_cons_of_pos (by simpa using Nat.lt_succ_of_lt hlt), List.cons_append, ih]
      · -- nothing after a label `n` is below `n`
        have hnone : l.filter (·.1 < n) = [] := by
          rw [List.filter_eq_nil_iff]
          intro q hq
          have hle := hp q hq
          rw [decide_eq_true_iff]
          omega
        rw [hnone, List.nil_append] at ih
        rw [List.filter_cons_of_neg (by simp [heq]), hnone, List.nil_append,
          List.filter_cons_of_pos (by simpa using heq),
          List.filter_cons_of_pos (by simp [heq]), ih]
      · rw [List.filter_cons_of_neg (by simpa using hgt.le),
          List.filter_cons_of_neg (by simpa using hgt.ne'),
          List.filter_cons_of_neg (by simpa using Nat.succ_le_of_lt hgt), ih]

/-- **Level order is depth-first order** when the labels never go down, wherever they are those of
pieces that count. What does not count, such as an empty piece of a text, may lie anywhere. -/
theorem levelOrder_filter_of_sorted (counts : β → Bool)
    (h : ((f.labelled 0).filter (counts ·.2)).Pairwise fun p q => p.1 ≤ q.1) :
    f.levelOrder.filter counts = f.pieces.filter counts := by
  have hall : ((f.labelled 0).filter (counts ·.2)).filter (·.1 < f.height)
      = (f.labelled 0).filter (counts ·.2) := by
    refine List.filter_eq_self.mpr fun p hp => ?_
    have hlt := lt_of_mem_labelled (List.mem_filter.mp hp).1
    rw [decide_eq_true_iff]
    omega
  have hsort := flatMap_filter_of_sorted h f.height
  rw [hall] at hsort
  rw [← labelled_map_snd f 0, List.filter_map]
  change _ = List.map Prod.snd ((f.labelled 0).filter (counts ·.2))
  rw [← hsort, levelOrder, List.filter_flatMap, List.map_flatMap]
  congr 1
  ext1 k
  rw [level, List.filter_map, List.filter_filter, List.filter_filter]
  congr 1
  refine List.filter_congr fun p _ => ?_
  simp [Bool.and_comm]

end Forest
