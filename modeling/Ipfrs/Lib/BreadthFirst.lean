import Mathlib.Data.Finset.Card
import Ipfrs.Lib.WhileLoop

/-!
# Breadth-first search

A graph is given by a function `succ` from nodes to the list of their successors, which may fail.
The search keeps a queue of nodes with depth labels and a set of visited nodes; a node is visited
when it enters the queue, and its label never changes afterwards. With a limit on the depth, nodes
at the limit or beyond are dropped when their turn comes.

What is said about the search is said in terms of a relation `R` that `succ` computes where it does
not fail (`Computes`), and of the distance in that relation (`Dist`).

* `Inv` — the labels are distances, the queue is sorted by them and spans at most two, and every
  visited node was returned, waits, or is too far away;
* `Inv.of_run_ok` — a search that succeeds returns the nodes within the limit, each once, in order
  of their distance;
* `exists_run` — the search ends on every finite graph;
* `run_error` — a search that fails has met a node within the limit that has no list of successors.
-/

namespace BreadthFirst

variable {α ε : Type}

/-! ### Distance in a graph -/

section Distance

variable {R : α → α → Prop}

/-- A walk of `k` edges from `x`. -/
inductive Walk (R : α → α → Prop) (x : α) : ℕ → α → Prop
  | nil : Walk R x 0 x
  | snoc {k : ℕ} {y z : α} (h : Walk R x k y) (e : R y z) : Walk R x (k + 1) z

/-- The distance from `x` to `y` is `k`: there is a walk of `k` edges, and no shorter one. -/
def Dist (R : α → α → Prop) (x : α) (k : ℕ) (y : α) : Prop :=
  Walk R x k y ∧ ∀ j, Walk R x j y → k ≤ j

theorem Dist.unique {x y : α} {j k : ℕ} (hj : Dist R x j y) (hk : Dist R x k y) : j = k := by
  apply Nat.le_antisymm
  · exact hj.2 k hk.1
  · exact hk.2 j hj.1

theorem Dist.self (x : α) : Dist R x 0 x :=
  ⟨Walk.nil, fun j _ => Nat.zero_le j⟩

end Distance

/-- The depth `k` is below the limit, if there is one. -/
def Within (limit : Option ℕ) (k : ℕ) : Prop :=
  ∀ m, limit = some m → k < m

instance (limit : Option ℕ) (k : ℕ) : Decidable (Within limit k) :=
  match limit with
  | none => isTrue fun _ h => absurd h (by simp)
  | some m => decidable_of_iff (k < m)
      ⟨fun h m' hm' => Option.some.inj hm' ▸ h, fun h => h m rfl⟩

theorem Within.mono {limit : Option ℕ} {j k : ℕ} (h : Within limit k) (hle : j ≤ k) :
    Within limit j :=
  fun m hm => lt_of_le_of_lt hle (h m hm)

/-! ### The search -/

/-- What the search keeps: the queue with its labels, the visited nodes, and the nodes it has
returned so far. -/
structure State (α : Type) where
  queue : List (α × ℕ)
  visited : Finset α
  result : List α

variable [DecidableEq α]

/-- Visit the nodes of a list that are not visited yet, with the label `depth`. -/
def visitNew (depth : ℕ) : List α → List (α × ℕ) × Finset α → List (α × ℕ) × Finset α
  | [], st => st
  | y :: ys, (queue, visited) =>
    if y ∈ visited then visitNew depth ys (queue, visited)
    else visitNew depth ys (queue ++ [(y, depth)], insert y visited)

/-- Take the first node of the queue, return it and visit its successors, unless it is too deep. -/
def step (succ : α → Except ε (List α)) (limit : Option ℕ) (s : State α) :
    State α ⊕ Except ε (List α) :=
  match s.queue with
  | [] => .inr (.ok s.result)
  | (x, depth) :: queue =>
    if Within limit depth then
      match succ x with
      | .ok ys =>
        let (queue, visited) := visitNew (depth + 1) ys (queue, s.visited)
        .inl ⟨queue, visited, s.result ++ [x]⟩
      | .error e => .inr (.error e)
    else .inl { s with queue }

/-- The search from one node. -/
def start (x : α) : State α := ⟨[(x, 0)], {x}, []⟩

/-- `succ` lists the neighbours in `R` of every node on which it does not fail. -/
def Computes (succ : α → Except ε (List α)) (R : α → α → Prop) : Prop :=
  ∀ x ys, succ x = .ok ys → ∀ y, y ∈ ys ↔ R x y

/-! ### Visiting the successors of one node -/

/-- The new nodes go to the end of the queue, each once, and they are visited. -/
theorem visitNew_eq (depth : ℕ) (ys : List α) (queue : List (α × ℕ)) (visited : Finset α) :
    ∃ new : List α, new.Nodup ∧ (∀ y, y ∈ new ↔ y ∈ ys ∧ y ∉ visited) ∧
      visitNew depth ys (queue, visited)
        = (queue ++ new.map (·, depth), visited ∪ new.toFinset) := by
  induction ys generalizing queue visited with
  | nil => exact ⟨[], by simp [visitNew]⟩
  | cons y ys ih =>
    unfold visitNew
    split
    · -- visited before: nothing happens
      next hy =>
      obtain ⟨new, hnodup, hmem, heq⟩ := ih queue visited
      refine ⟨new, hnodup, fun z => ?_, heq⟩
      rw [hmem z, List.mem_cons]
      refine and_congr_left fun hz => (or_iff_right ?_).symm
      rintro rfl
      exact hz hy
    · -- a new node, in front of those of the rest of the list
      next hy =>
      obtain ⟨new, hnodup, hmem, heq⟩ := ih (queue ++ [(y, depth)]) (insert y visited)
      have hnew : y ∉ new := fun h => ((hmem y).mp h).2 (Finset.mem_insert_self _ _)
      refine ⟨y :: new, List.nodup_cons.mpr ⟨hnew, hnodup⟩, fun z => ?_, ?_⟩
      · rw [List.mem_cons, hmem z, List.mem_cons, Finset.mem_insert]
        by_cases hzy : z = y
        · subst hzy
          simp [hy]
        · simp [hzy]
      · rw [heq, List.map_cons, List.append_assoc, List.singleton_append, List.toFinset_cons,
          Finset.insert_union, Finset.union_insert]

/-- **What an iteration does.** It ends when the queue is empty; it drops a node that is too deep;
it fails on a node without a list of successors; otherwise it returns the node and queues the new
successors. -/
theorem step_cases {succ : α → Except ε (List α)} {limit : Option ℕ} {s s' : State α}
    (h : step succ limit s = .inl s') :
    ∃ x k queue, s.queue = (x, k) :: queue ∧
      ((¬ Within limit k ∧ s' = { s with queue }) ∨
        ∃ ys new : List α, Within limit k ∧ succ x = .ok ys ∧ new.Nodup ∧
          (∀ y, y ∈ new ↔ y ∈ ys ∧ y ∉ s.visited) ∧
          s' = ⟨queue ++ new.map (·, k + 1), s.visited ∪ new.toFinset, s.result ++ [x]⟩) := by
  unfold step at h
  split at h
  · exact absurd h (by simp)
  next x k queue hq =>
    refine ⟨x, k, queue, hq, ?_⟩
    split at h
    · next hk =>
      split at h
      · next ys hys =>
        obtain ⟨new, hnodup, hmem, heq⟩ := visitNew_eq (k + 1) ys queue s.visited
        rw [heq] at h
        exact Or.inr ⟨ys, new, hk, hys, hnodup, hmem, (Sum.inl.inj h).symm⟩
      · exact absurd h (by simp)
    · next hk => exact Or.inl ⟨hk, (Sum.inl.inj h).symm⟩

/-! ### The invariant -/

/-- What the search knows at the head of its loop. -/
structure Inv (succ : α → Except ε (List α)) (R : α → α → Prop) (limit : Option ℕ) (root : α)
    (s : State α) : Prop where
  root_visited : root ∈ s.visited
  /-- Nothing is returned or queued twice. -/
  nodup : (s.result ++ s.queue.map Prod.fst).Nodup
  seen : ∀ x ∈ s.result ++ s.queue.map Prod.fst, x ∈ s.visited
  /-- A label is the distance from the root. -/
  label : ∀ p ∈ s.queue, Dist R root p.2 p.1
  /-- The queue is sorted by the labels, which differ by one at most. -/
  spread : s.queue.Pairwise fun p q => p.2 ≤ q.2 ∧ q.2 ≤ p.2 + 1
  /-- What was returned is within the limit, and no farther away than what waits. -/
  returned : ∀ x ∈ s.result, ∃ k, Dist R root k x ∧ Within limit k ∧ ∀ p ∈ s.queue, k ≤ p.2
  sorted : s.result.Pairwise fun x y => ∀ j k, Dist R root j x → Dist R root k y → j ≤ k
  /-- What was returned has been expanded. -/
  expanded : ∀ x ∈ s.result, (∃ ys, succ x = .ok ys) ∧ ∀ y, R x y → y ∈ s.visited
  /-- A visited node was returned, waits, or is too far away. -/
  visited_cases : ∀ x ∈ s.visited, x ∈ s.result ∨ x ∈ s.queue.map Prod.fst ∨
    ∃ k, Dist R root k x ∧ ¬ Within limit k

variable {succ : α → Except ε (List α)} {R : α → α → Prop} {limit : Option ℕ} {root : α}

omit [DecidableEq α] in
theorem Inv.initial : Inv succ R limit root (start root) where
  root_visited := Finset.mem_singleton_self _
  nodup := List.nodup_singleton _
  seen x hx := by
    obtain rfl : x = root := by simpa [start] using hx
    exact Finset.mem_singleton_self _
  label p hp := by
    obtain rfl : p = (root, 0) := by simpa [start] using hp
    exact Dist.self root
  spread := List.pairwise_singleton _ _
  returned x hx := absurd hx List.not_mem_nil
  sorted := List.Pairwise.nil
  expanded x hx := absurd hx List.not_mem_nil
  visited_cases x hx := by
    obtain rfl := Finset.mem_singleton.mp hx
    exact Or.inr (Or.inl List.mem_cons_self)

omit [DecidableEq α] in
/-- A walk that is no longer than the first label of the queue leads to a visited node. -/
theorem Inv.visited_of_walk {s : State α} (hI : Inv succ R limit root s) {k : ℕ}
    (hk : Within limit k) (hfirst : ∀ p ∈ s.queue, k ≤ p.2) {j : ℕ} {y : α}
    (hw : Walk R root j y) (hj : j ≤ k) : y ∈ s.visited := by
  induction hw with
  | nil => exact hI.root_visited
  | @snoc j y z hw e ih =>
    rcases hI.visited_cases y (ih (by omega)) with hres | hqueue | ⟨d, hd, hfar⟩
    · exact (hI.expanded y hres).2 z e
    · -- what waits is at distance `k` or more, but `y` is nearer
      obtain ⟨p, hp, rfl⟩ := List.mem_map.mp hqueue
      have h₁ := hfirst p hp
      have h₂ := (hI.label p hp).2 j hw
      omega
    · -- `y` is nearer than a depth within the limit
      have hdj := hd.2 j hw
      exact absurd (hk.mono (by omega)) hfar

omit [DecidableEq α] in
theorem Inv.drop {s : State α} (hI : Inv succ R limit root s) {x : α} {k : ℕ}
    {queue : List (α × ℕ)} (hq : s.queue = (x, k) :: queue) (hk : ¬ Within limit k) :
    Inv succ R limit root { s with queue } := by
  have hsub : ∀ p ∈ queue, p ∈ s.queue := fun p hp => by
    rw [hq]
    exact List.mem_cons_of_mem _ hp
  have hfst : s.queue.map Prod.fst = x :: queue.map Prod.fst := by rw [hq, List.map_cons]
  have hnodup := hI.nodup
  have hspread := hI.spread
  rw [hfst] at hnodup
  rw [hq, List.pairwise_cons] at hspread
  refine ⟨hI.root_visited, ?_, fun z hz => ?_, fun p hp => hI.label p (hsub p hp), hspread.2,
    fun z hz => ?_, hI.sorted, hI.expanded, fun z hz => ?_⟩
  · exact hnodup.sublist ((List.sublist_cons_self _ _).append_left _)
  · refine hI.seen z ?_
    rw [hfst]
    rcases List.mem_append.mp hz with hz | hz
    · exact List.mem_append_left _ hz
    · exact List.mem_append_right _ (List.mem_cons_of_mem _ hz)
  · obtain ⟨j, hj, hjl, hle⟩ := hI.returned z hz
    exact ⟨j, hj, hjl, fun p hp => hle p (hsub p hp)⟩
  · rcases hI.visited_cases z hz with hres | hqueue | hfar
    · exact Or.inl hres
    · -- the dropped node is the one that is too far away
      rw [hfst] at hqueue
      rcases List.mem_cons.mp hqueue with rfl | hqueue
      · exact Or.inr (Or.inr ⟨k, hI.label (z, k) (by rw [hq]; exact List.mem_cons_self), hk⟩)
      · exact Or.inr (Or.inl hqueue)
    · exact Or.inr (Or.inr hfar)

omit [DecidableEq α] in
theorem map_fst_append_map (queue : List (α × ℕ)) (new : List α) (depth : ℕ) :
    (queue ++ new.map (·, depth)).map Prod.fst = queue.map Prod.fst ++ new := by
  rw [List.map_append, List.map_map]
  congr 1
  exact List.map_id new

section Visit

variable {s : State α} {x : α} {k : ℕ} {queue : List (α × ℕ)}

omit [DecidableEq α] in
theorem Inv.first_le (hI : Inv succ R limit root s) (hq : s.queue = (x, k) :: queue) :
    ∀ p ∈ s.queue, k ≤ p.2 := by
  intro p hp
  have hspread := hI.spread
  rw [hq, List.pairwise_cons] at hspread
  rw [hq] at hp
  rcases List.mem_cons.mp hp with rfl | hp
  · exact le_rfl
  · exact (hspread.1 p hp).1

omit [DecidableEq α] in
/-- A successor of the first node that has not been visited is one farther away. -/
theorem Inv.dist_new (hR : Computes succ R) (hI : Inv succ R limit root s)
    (hq : s.queue = (x, k) :: queue) (hk : Within limit k) {ys : List α} (hys : succ x = .ok ys)
    {y : α} (hy : y ∈ ys) (hvisited : y ∉ s.visited) : Dist R root (k + 1) y := by
  have hxk : Dist R root k x := hI.label (x, k) (by rw [hq]; exact List.mem_cons_self)
  refine ⟨hxk.1.snoc ((hR x ys hys y).mp hy), fun j hj => ?_⟩
  by_contra hlt
  exact hvisited (hI.visited_of_walk hk (hI.first_le hq) hj (by omega))

omit [DecidableEq α] in
/-- The labels of the new nodes are one more than the first label, so they are the largest. -/
theorem Inv.spread_new (hI : Inv succ R limit root s) (hq : s.queue = (x, k) :: queue)
    (new : List α) :
    (queue ++ new.map (·, k + 1)).Pairwise fun p q => p.2 ≤ q.2 ∧ q.2 ≤ p.2 + 1 := by
  have hspread := hI.spread
  rw [hq, List.pairwise_cons] at hspread
  refine List.pairwise_append.mpr ⟨hspread.2, ?_, fun p hp q hq' => ?_⟩
  · exact List.pairwise_map.mpr (List.pairwise_of_forall fun a b => ⟨le_rfl, Nat.le_succ _⟩)
  · obtain ⟨y, -, rfl⟩ := List.mem_map.mp hq'
    have hpk := hspread.1 p hp
    exact ⟨hpk.2, Nat.succ_le_succ hpk.1⟩

/-- Returning a node and queueing its new successors keeps the invariant. -/
theorem Inv.visit (hR : Computes succ R) (hI : Inv succ R limit root s) {ys new : List α}
    (hq : s.queue = (x, k) :: queue) (hk : Within limit k) (hys : succ x = .ok ys)
    (hnew : new.Nodup) (hmem : ∀ y, y ∈ new ↔ y ∈ ys ∧ y ∉ s.visited) :
    Inv succ R limit root
      ⟨queue ++ new.map (·, k + 1), s.visited ∪ new.toFinset, s.result ++ [x]⟩ := by
  have hx : (x, k) ∈ s.queue := by
    rw [hq]
    exact List.mem_cons_self
  have hxk : Dist R root k x := hI.label (x, k) hx
  have hlast : ∀ p ∈ queue ++ new.map (·, k + 1), k ≤ p.2 := by
    intro p hp
    rcases List.mem_append.mp hp with hp | hp
    · exact hI.first_le hq p (by rw [hq]; exact List.mem_cons_of_mem _ hp)
    · obtain ⟨y, -, rfl⟩ := List.mem_map.mp hp
      exact Nat.le_succ k
  -- the nodes returned and queued after the iteration are those before it, and the new ones
  have hplaced : (s.result ++ [x]) ++ (queue ++ new.map (·, k + 1)).map Prod.fst
      = (s.result ++ s.queue.map Prod.fst) ++ new := by
    rw [map_fst_append_map, hq, List.map_cons, List.append_assoc, List.singleton_append,
      List.append_assoc, List.cons_append]
  refine ⟨Finset.mem_union_left _ hI.root_visited, ?_, fun z hz => ?_, fun p hp => ?_,
    hI.spread_new hq new, fun z hz => ?_, ?_, fun z hz => ?_, fun z hz => ?_⟩
  · rw [hplaced, List.nodup_append]
    refine ⟨hI.nodup, hnew, ?_⟩
    rintro z hz y hy rfl
    exact ((hmem z).mp hy).2 (hI.seen z hz)
  · rw [hplaced] at hz
    rcases List.mem_append.mp hz with hz | hz
    · exact Finset.mem_union_left _ (hI.seen z hz)
    · exact Finset.mem_union_right _ (List.mem_toFinset.mpr hz)
  · rcases List.mem_append.mp hp with hp | hp
    · exact hI.label p (by rw [hq]; exact List.mem_cons_of_mem _ hp)
    · obtain ⟨y, hy, rfl⟩ := List.mem_map.mp hp
      obtain ⟨hyys, hyv⟩ := (hmem y).mp hy
      exact hI.dist_new hR hq hk hys hyys hyv
  · rcases List.mem_append.mp hz with hz | hz
    · obtain ⟨j, hj, hjl, hle⟩ := hI.returned z hz
      exact ⟨j, hj, hjl, fun p hp => le_trans (hle (x, k) hx) (hlast p hp)⟩
    · obtain rfl := List.mem_singleton.mp hz
      exact ⟨k, hxk, hk, hlast⟩
  · -- what was returned earlier is no farther away than the first of the queue
    refine List.pairwise_append.mpr ⟨hI.sorted, List.pairwise_singleton _ _, ?_⟩
    intro y hy z hz i j hi hj
    obtain rfl := List.mem_singleton.mp hz
    obtain ⟨i', hi', -, hle⟩ := hI.returned y hy
    rw [hi.unique hi', hj.unique hxk]
    exact hle (z, k) hx
  · rcases List.mem_append.mp hz with hz | hz
    · obtain ⟨hok, hall⟩ := hI.expanded z hz
      exact ⟨hok, fun y e => Finset.mem_union_left _ (hall y e)⟩
    · -- a neighbour that had not been visited is among the new ones
      obtain rfl := List.mem_singleton.mp hz
      refine ⟨⟨ys, hys⟩, fun y e => ?_⟩
      by_cases hy : y ∈ s.visited
      · exact Finset.mem_union_left _ hy
      · refine Finset.mem_union_right _ (List.mem_toFinset.mpr ((hmem y).mpr ⟨?_, hy⟩))
        exact (hR z ys hys y).mpr e
  · rw [map_fst_append_map]
    rcases Finset.mem_union.mp hz with hz | hz
    · rcases hI.visited_cases z hz with hres | hqueue | hfar
      · exact Or.inl (List.mem_append_left _ hres)
      · rw [hq, List.map_cons] at hqueue
        rcases List.mem_cons.mp hqueue with rfl | hqueue
        · exact Or.inl (List.mem_append_right _ (List.mem_singleton_self _))
        · exact Or.inr (Or.inl (List.mem_append_left _ hqueue))
      · exact Or.inr (Or.inr hfar)
    · exact Or.inr (Or.inl (List.mem_append_right _ (List.mem_toFinset.mp hz)))

end Visit

theorem Inv.next {s s' : State α} (hR : Computes succ R) (hI : Inv succ R limit root s)
    (hstep : step succ limit s = .inl s') : Inv succ R limit root s' := by
  obtain ⟨x, k, queue, hq, ⟨hk, rfl⟩ | ⟨ys, new, hk, hys, hnew, hmem, rfl⟩⟩ := step_cases hstep
  · exact hI.drop hq hk
  · exact hI.visit hR hq hk hys hnew hmem

/-! ### Whole searches -/

/-- What a search that succeeds returns. -/
structure Traversal (R : α → α → Prop) (limit : Option ℕ) (root : α) (result : List α) :
    Prop where
  nodup : result.Nodup
  /-- The nodes at a distance within the limit, and no others. -/
  mem_iff : ∀ x, x ∈ result ↔ ∃ k, Dist R root k x ∧ Within limit k
  /-- Nearer nodes come first. -/
  sorted : result.Pairwise fun x y => ∀ j k, Dist R root j x → Dist R root k y → j ≤ k

omit [DecidableEq α] in
/-- With nothing left in the queue, everything within the limit has been returned. -/
theorem Inv.traversal_of_nil {s : State α} (hI : Inv succ R limit root s) (hq : s.queue = []) :
    Traversal R limit root s.result := by
  have hcases : ∀ {k x}, Walk R root k x → Within limit k → x ∈ s.visited → x ∈ s.result := by
    intro k x hw hk hx
    rcases hI.visited_cases x hx with hres | hqueue | ⟨d, hd, hfar⟩
    · exact hres
    · exact absurd hqueue (by rw [hq]; exact List.not_mem_nil)
    · exact absurd (hk.mono (hd.2 k hw)) hfar
  refine ⟨hI.nodup.of_append_left, fun x => ⟨fun hx => ?_, ?_⟩, hI.sorted⟩
  · obtain ⟨k, hk, hkl, -⟩ := hI.returned x hx
    exact ⟨k, hk, hkl⟩
  · rintro ⟨k, hk, hkl⟩
    have hw := hk.1
    clear hk
    induction hw with
    | nil => exact hcases Walk.nil hkl hI.root_visited
    | snoc hw e ih =>
      exact hcases (hw.snoc e) hkl ((hI.expanded _ (ih (hkl.mono (Nat.le_succ _)))).2 _ e)

/-- **A search that succeeds** returns the nodes within the limit, and could expand all of them. -/
theorem Inv.of_run_ok (hR : Computes succ R) {fuel : ℕ} {result : List α}
    (h : WhileLoop.run (step succ limit) fuel (start root) = some (.ok result)) :
    Traversal R limit root result ∧ ∀ x ∈ result, ∃ ys, succ x = .ok ys := by
  refine WhileLoop.run_inv (Inv succ R limit root)
    (fun r => ∀ l, r = .ok l → Traversal R limit root l ∧ ∀ x ∈ l, ∃ ys, succ x = .ok ys)
    (fun s s' hI hstep => hI.next hR hstep) (fun s r hI hstep l hl => ?_) Inv.initial h result rfl
  subst hl
  unfold step at hstep
  split at hstep
  · next hq =>
    obtain rfl := Except.ok.inj (Sum.inr.inj hstep)
    exact ⟨hI.traversal_of_nil hq, fun x hx => (hI.expanded x hx).1⟩
  · -- leaving with a node in the queue means that it could not be expanded
    split at hstep
    · split at hstep <;> exact absurd hstep (by simp)
    · exact absurd hstep (by simp)

/-- **A search that fails** has met a node within the limit that has no list of successors. -/
theorem run_error (hR : Computes succ R) {fuel : ℕ} {e : ε}
    (h : WhileLoop.run (step succ limit) fuel (start root) = some (.error e)) :
    ∃ x k, Dist R root k x ∧ Within limit k ∧ succ x = .error e := by
  refine WhileLoop.run_inv (Inv succ R limit root)
    (fun r => ∀ e, r = .error e → ∃ x k, Dist R root k x ∧ Within limit k ∧ succ x = .error e)
    (fun s s' hI hstep => hI.next hR hstep) (fun s r hI hstep e' he => ?_) Inv.initial h e rfl
  subst he
  unfold step at hstep
  split at hstep
  · exact absurd hstep (by simp)
  next x k queue hq =>
    split at hstep
    · next hk =>
      split at hstep
      · exact absurd hstep (by simp)
      · next e hx =>
        obtain rfl := Except.error.inj (Sum.inr.inj hstep)
        exact ⟨x, k, hI.label (x, k) (by rw [hq]; exact List.mem_cons_self), hk, hx⟩
    · exact absurd hstep (by simp)

/-- **The search ends on every finite graph.** `U` is a finite set of nodes that the search cannot
leave; every iteration takes one node out of the queue, and puts in as many as it visits. -/
theorem exists_run (limit : Option ℕ) (U : Finset α) (hroot : root ∈ U)
    (hU : ∀ x ∈ U, ∀ ys, succ x = .ok ys → ∀ y ∈ ys, y ∈ U) :
    ∃ fuel r, WhileLoop.run (step succ limit) fuel (start root) = some r := by
  suffices hdown : ∀ s s' : State α, (s.visited ⊆ U ∧ ∀ p ∈ s.queue, p.1 ∈ U) →
      step succ limit s = .inl s' → (s'.visited ⊆ U ∧ ∀ p ∈ s'.queue, p.1 ∈ U) ∧
        (U.card - s'.visited.card) + s'.queue.length
          < (U.card - s.visited.card) + s.queue.length by
    -- a node enters the queue when it is visited first, so both together get fewer
    obtain ⟨r, hr⟩ := WhileLoop.run_of_measure
      (fun s : State α => s.visited ⊆ U ∧ ∀ p ∈ s.queue, p.1 ∈ U)
      (fun s : State α => (U.card - s.visited.card) + s.queue.length) hdown (s := start root)
      ⟨Finset.singleton_subset_iff.mpr hroot, fun p hp => by
        obtain rfl : p = (root, 0) := by simpa [start] using hp
        exact hroot⟩
    exact ⟨_, r, hr⟩
  rintro s s' ⟨hsub, hqueue⟩ hstep
  obtain ⟨x, k, queue, hq, ⟨-, rfl⟩ | ⟨ys, new, -, hys, hnew, hmem, rfl⟩⟩ := step_cases hstep
  · refine ⟨⟨hsub, fun p hp => hqueue p (by rw [hq]; exact List.mem_cons_of_mem _ hp)⟩, ?_⟩
    rw [hq, List.length_cons]
    exact Nat.lt_succ_self _
  · have hxU : x ∈ U := hqueue (x, k) (by rw [hq]; exact List.mem_cons_self)
    have hnewU : ∀ y ∈ new, y ∈ U := fun y hy => hU x hxU ys hys y ((hmem y).mp hy).1
    have hsub' : s.visited ∪ new.toFinset ⊆ U :=
      Finset.union_subset hsub fun y hy => hnewU y (List.mem_toFinset.mp hy)
    refine ⟨⟨hsub', fun p hp => ?_⟩, ?_⟩
    · rcases List.mem_append.mp hp with hp | hp
      · exact hqueue p (by rw [hq]; exact List.mem_cons_of_mem _ hp)
      · obtain ⟨y, hy, rfl⟩ := List.mem_map.mp hp
        exact hnewU y hy
    · -- each node that comes in is visited for the first time
      have hdisj : Disjoint s.visited new.toFinset := by
        rw [Finset.disjoint_right]
        intro y hy
        exact ((hmem y).mp (List.mem_toFinset.mp hy)).2
      have hcard : (s.visited ∪ new.toFinset).card = s.visited.card + new.length := by
        rw [Finset.card_union_of_disjoint hdisj, List.toFinset_card_of_nodup hnew]
      have hle := Finset.card_le_card hsub'
      rw [hcard] at hle
      change (U.card - (s.visited ∪ new.toFinset).card) + (queue ++ new.map (·, k + 1)).length < _
      rw [hcard, hq, List.length_append, List.length_map, List.length_cons]
      omega

/-- **When a search succeeds.** On a finite graph it does so exactly if every node within the limit
has a list of successors, and then it returns these nodes. -/
theorem returns_traversal_iff (limit : Option ℕ) (hR : Computes succ R) (U : Finset α)
    (hroot : root ∈ U)
    (hU : ∀ x ∈ U, ∀ ys, succ x = .ok ys → ∀ y ∈ ys, y ∈ U) :
    (∃ result, WhileLoop.Returns (step succ limit) (start root) (.ok result) ∧
        Traversal R limit root result) ↔
      ∀ x k, Dist R root k x → Within limit k → ∃ ys, succ x = .ok ys := by
  constructor
  · rintro ⟨result, ⟨fuel, hrun⟩, -⟩ x k hx hk
    obtain ⟨htrav, hall⟩ := Inv.of_run_ok hR hrun
    exact hall x ((htrav.mem_iff x).mpr ⟨k, hx, hk⟩)
  · intro hall
    obtain ⟨fuel, r, hrun⟩ := exists_run limit U hroot hU
    cases r with
    | ok result => exact ⟨result, ⟨fuel, hrun⟩, (Inv.of_run_ok hR hrun).1⟩
    | error e =>
      obtain ⟨x, k, hx, hk, herr⟩ := run_error hR hrun
      obtain ⟨ys, hys⟩ := hall x k hx hk
      exact absurd (herr.symm.trans hys) (by simp)

end BreadthFirst
