import Ipfrs.Lib.AssocMap
import Ipfrs.Lib.CycleSearch

/-!
# Sorting a graph topologically

Kahn's algorithm with a table of in-degrees and a table of adjacency lists. A graph is a list of
entries, a node with its inputs; inputs that are not nodes do not count. The order in which the
nodes without inputs are put into the queue is left open.

* `Topological` — every node once, after its inputs;
* `sort_sound` — a result is such an order;
* `sort_complete` — there is a result if the graph has no cycle;
* `Topological.acyclic` — and only then.
-/

namespace Kahn

variable {α : Type*}

/-- One node is an input of the other, and both are nodes of the graph. -/
def Edge (entries : List (α × List α)) (a b : α) : Prop :=
  ∃ ins, (b, ins) ∈ entries ∧ a ∈ ins ∧ a ∈ entries.map Prod.fst

/-- There is no cycle. -/
def Acyclic (entries : List (α × List α)) : Prop :=
  ∀ a, ¬ Relation.TransGen (Edge entries) a a

variable [DecidableEq α]

/-- An order of the nodes in which each comes after its inputs. -/
structure Topological (entries : List (α × List α)) (order : List α) : Prop where
  perm : order.Perm (entries.map Prod.fst)
  before : ∀ a b, Edge entries a b → order.idxOf a < order.idxOf b

/-- **A graph with such an order** has no cycle. -/
theorem Topological.acyclic {entries : List (α × List α)} {order : List α}
    (h : Topological entries order) : Acyclic entries := by
  intro a hcycle
  have hlt : ∀ b, Relation.TransGen (Edge entries) a b → order.idxOf a < order.idxOf b := by
    intro b hpath
    induction hpath with
    | single hedge => exact h.before _ _ hedge
    | tail _ hedge ih => exact ih.trans (h.before _ _ hedge)
  exact absurd (hlt a hcycle) (lt_irrefl _)

/-! ### The algorithm -/

/-- The in-degrees, and for each node the nodes that it is an input of. -/
structure Tables (α : Type*) where
  degree : AList fun _ : α => ℕ
  adjacent : AList fun _ : α => List α

/-- A value for a key that has none. -/
def orInsert {β : Type*} (m : AList fun _ : α => β) (a : α) (b : β) : AList fun _ : α => β :=
  if a ∈ m then m else m.insert a b

/-- An input of a node is counted. -/
def addEdge (node : α) (t : Tables α) (input : α) : Tables α where
  degree := t.degree.insert node ((t.degree.lookup node).getD 0 + 1)
  adjacent := t.adjacent.insert input ((t.adjacent.lookup input).getD [] ++ [node])

/-- A node is entered with those of its inputs that are nodes. -/
def addNode (nodes : List α) (t : Tables α) (entry : α × List α) : Tables α :=
  (entry.2.filter (· ∈ nodes)).foldl (addEdge entry.1)
    ⟨orInsert t.degree entry.1 0, orInsert t.adjacent entry.1 []⟩

/-- Both tables. -/
def build (entries : List (α × List α)) : Tables α :=
  entries.foldl (addNode (entries.map Prod.fst)) ⟨∅, ∅⟩

/-- The nodes that have lost an input: those without inputs now come to the end of the queue. -/
def relax : List α → (AList fun _ : α => ℕ) × List α → (AList fun _ : α => ℕ) × List α
  | [], s => s
  | b :: bs, (degree, queue) =>
    match degree.lookup b with
    | none => relax bs (degree, queue)
    | some d => relax bs (degree.insert b (d - 1), if d - 1 = 0 then queue ++ [b] else queue)

/-- Take nodes from the queue, as many as the first number allows. -/
def drain (adjacent : AList fun _ : α => List α) :
    ℕ → (AList fun _ : α => ℕ) × List α → List α → List α
  | 0, _, result => result
  | _ + 1, (_, []), result => result
  | fuel + 1, (degree, a :: queue), result =>
    drain adjacent fuel (relax ((adjacent.lookup a).getD []) (degree, queue)) (result ++ [a])

/-- The nodes without inputs. -/
def sources (t : Tables α) : List α :=
  (t.degree.entries.filter fun e => e.2 = 0).map Sigma.fst

/-- Kahn's algorithm. The first argument is the order in which the nodes without inputs come. -/
def sort (shuffle : List α → List α) (entries : List (α × List α)) : Option (List α) :=
  let t := build entries
  let result := drain t.adjacent entries.length (t.degree, shuffle (sources t)) []
  if result.length ≠ entries.length then none else some result

/-! ### The tables -/

/-- The adjacency list of a node. -/
def Tables.adj (t : Tables α) (a : α) : List α := (t.adjacent.lookup a).getD []

variable {t : Tables α} {node a b : α} {ins : List α} {entries l : List (α × List α)}
  {degree : AList fun _ : α => ℕ} {queue result : List α}

theorem lookup_orInsert {β : Type*} (m : AList fun _ : α => β) (a a' : α) (b : β) :
    (orInsert m a b).lookup a' = if a' = a then some ((m.lookup a).getD b) else m.lookup a' := by
  unfold orInsert
  by_cases hmem : a ∈ m
  · obtain ⟨b', hb'⟩ := Option.isSome_iff_exists.mp (AList.lookup_isSome.mpr hmem)
    rw [if_pos hmem]
    by_cases ha : a' = a
    · rw [if_pos ha, ha, hb', Option.getD_some]
    · rw [if_neg ha]
  · rw [if_neg hmem, AList.lookup_eq_none.mpr hmem, Option.getD_none]
    by_cases ha : a' = a
    · rw [if_pos ha, ha, AList.lookup_insert]
    · rw [if_neg ha, AList.lookup_insert_ne ha]

theorem adj_addEdge (node : α) (t : Tables α) (input a : α) :
    (addEdge node t input).adj a = t.adj a ++ if a = input then [node] else [] := by
  unfold Tables.adj addEdge
  by_cases ha : a = input
  · rw [if_pos ha, ha, AList.lookup_insert, Option.getD_some]
  · rw [if_neg ha, AList.lookup_insert_ne ha, List.append_nil]

theorem lookup_foldl_addEdge (ins : List α) {d : ℕ} (h : t.degree.lookup node = some d) :
    (ins.foldl (addEdge node) t).degree.lookup node = some (d + ins.length) ∧
      ∀ b, b ≠ node → (ins.foldl (addEdge node) t).degree.lookup b = t.degree.lookup b := by
  induction ins generalizing t d with
  | nil => exact ⟨h, fun _ _ => rfl⟩
  | cons i ins ih =>
    have hone : (addEdge node t i).degree.lookup node = some (d + 1) := by
      rw [addEdge, AList.lookup_insert, h, Option.getD_some]
    obtain ⟨hnode, hother⟩ := ih hone
    refine ⟨?_, fun b hb => ?_⟩
    · rw [List.foldl_cons, hnode, List.length_cons, Nat.add_assoc, Nat.add_comm 1]
    · rw [List.foldl_cons, hother b hb, addEdge, AList.lookup_insert_ne hb]

theorem adj_foldl_addEdge (ins : List α) (t : Tables α) (a : α) :
    (ins.foldl (addEdge node) t).adj a = t.adj a ++ List.replicate (ins.count a) node := by
  induction ins generalizing t with
  | nil => exact (List.append_nil _).symm
  | cons i ins ih =>
    rw [List.foldl_cons, ih, adj_addEdge, List.append_assoc, List.count_cons]
    by_cases ha : a = i
    · subst ha
      rw [if_pos rfl, beq_self_eq_true, if_pos rfl, List.singleton_append, List.replicate_succ]
    · have hne : (i == a) = false := beq_eq_false_iff_ne.mpr (Ne.symm ha)
      rw [if_neg ha, hne, List.nil_append]
      rfl

/-- **The table of in-degrees** has all nodes. -/
theorem lookup_foldl_addNode (nodes : List α) (h : (l.map Prod.fst).Nodup) (t : Tables α)
    (hnew : ∀ b ∈ l.map Prod.fst, t.degree.lookup b = none) :
    (∀ b ins, (b, ins) ∈ l → (l.foldl (addNode nodes) t).degree.lookup b =
        some (ins.countP (· ∈ nodes))) ∧
      ∀ b ∉ l.map Prod.fst, (l.foldl (addNode nodes) t).degree.lookup b = t.degree.lookup b := by
  induction l generalizing t with
  | nil => exact ⟨fun _ _ hmem => absurd hmem List.not_mem_nil, fun _ _ => rfl⟩
  | cons entry l ih =>
    obtain ⟨node, ins⟩ := entry
    rw [List.map_cons, List.nodup_cons] at h
    have hnone : t.degree.lookup node = none := hnew node List.mem_cons_self
    have hzero : (orInsert t.degree node 0).lookup node = some 0 := by
      rw [lookup_orInsert, if_pos rfl, hnone]
      rfl
    obtain ⟨hnode, hother⟩ := lookup_foldl_addEdge
      (t := ⟨orInsert t.degree node 0, orInsert t.adjacent node []⟩)
      (ins.filter (· ∈ nodes)) hzero
    -- an entry changes the degree of its own node only
    have hkeep : ∀ b, b ≠ node →
        (addNode nodes t (node, ins)).degree.lookup b = t.degree.lookup b := by
      intro b hb
      rw [addNode, hother b hb, lookup_orInsert, if_neg hb]
    have hrest : ∀ b ∈ l.map Prod.fst,
        (addNode nodes t (node, ins)).degree.lookup b = none := by
      intro b hb
      rw [hkeep b fun heq => h.1 (heq ▸ hb)]
      exact hnew b (List.mem_cons_of_mem _ hb)
    obtain ⟨hin, hout⟩ := ih h.2 (addNode nodes t (node, ins)) hrest
    refine ⟨fun b ins' hmem => ?_, fun b hb => ?_⟩
    · rw [List.foldl_cons]
      rcases List.mem_cons.mp hmem with heq | hmem
      · obtain ⟨rfl, rfl⟩ := Prod.mk.inj heq
        rw [hout b h.1, addNode, hnode, Nat.zero_add, List.countP_eq_length_filter]
      · exact hin b ins' hmem
    · rw [List.map_cons, List.mem_cons, not_or] at hb
      rw [List.foldl_cons, hout b hb.2, hkeep b hb.1]

/-- **The adjacency lists.** -/
theorem adj_foldl_addNode (nodes : List α) (l : List (α × List α)) (t : Tables α) (a : α) :
    (l.foldl (addNode nodes) t).adj a = t.adj a ++ l.flatMap fun entry =>
      List.replicate ((entry.2.filter (· ∈ nodes)).count a) entry.1 := by
  induction l generalizing t with
  | nil => exact (List.append_nil _).symm
  | cons entry l ih =>
    have hempty : Tables.adj ⟨orInsert t.degree entry.1 0, orInsert t.adjacent entry.1 []⟩ a =
        t.adj a := by
      unfold Tables.adj
      dsimp only
      rw [lookup_orInsert]
      by_cases ha : a = entry.1
      · rw [if_pos ha, ha, Option.getD_some]
      · rw [if_neg ha]
    rw [List.foldl_cons, ih, addNode, adj_foldl_addEdge, hempty, List.flatMap_cons,
      List.append_assoc]

theorem count_adj {f : α × List α → ℕ} (h : (l.map Prod.fst).Nodup) :
    (∀ entry ∈ l, (l.flatMap fun e => List.replicate (f e) e.1).count entry.1 = f entry) ∧
      ∀ b ∉ l.map Prod.fst, (l.flatMap fun e => List.replicate (f e) e.1).count b = 0 := by
  induction l with
  | nil => exact ⟨fun _ hmem => absurd hmem List.not_mem_nil, fun _ _ => rfl⟩
  | cons e l ih =>
    rw [List.map_cons, List.nodup_cons] at h
    obtain ⟨hin, hout⟩ := ih h.2
    refine ⟨fun entry hmem => ?_, fun b hb => ?_⟩
    · rw [List.flatMap_cons, List.count_append]
      rcases List.mem_cons.mp hmem with rfl | hmem
      · rw [hout _ h.1, List.count_replicate_self, Nat.add_zero]
      · have hne : e.1 ≠ entry.1 := fun heq => h.1 (heq ▸ List.mem_map_of_mem hmem)
        rw [hin entry hmem, List.count_replicate, if_neg (by simpa using hne), Nat.zero_add]
    · rw [List.map_cons, List.mem_cons, not_or] at hb
      rw [List.flatMap_cons, List.count_append, hout b hb.2, List.count_replicate,
        if_neg (by simpa using Ne.symm hb.1)]

/-! ### One round -/

/-- **The nodes that have lost an input.** The others keep theirs, and those that have no input left
are new in the queue. -/
theorem relax_spec (bs : List α) (degree : AList fun _ : α => ℕ) (queue : List α)
    (h : ∀ b ∈ bs, ∃ d, degree.lookup b = some d ∧ bs.count b ≤ d) :
    (∀ b d, degree.lookup b = some d →
        (relax bs (degree, queue)).1.lookup b = some (d - bs.count b)) ∧
      ∃ new, (relax bs (degree, queue)).2 = queue ++ new ∧ new.Nodup ∧
        ∀ b, b ∈ new ↔ b ∈ bs ∧ degree.lookup b = some (bs.count b) := by
  induction bs generalizing degree queue with
  | nil =>
    exact ⟨fun b d hb => hb, [], (List.append_nil _).symm, List.nodup_nil, by simp⟩
  | cons x bs ih =>
    obtain ⟨d, hd, hle⟩ := h x List.mem_cons_self
    rw [List.count_cons_self] at hle
    -- `x` loses one input now, and the rest of the list finds the smaller number
    have hrest : ∀ b ∈ bs, ∃ d', (degree.insert x (d - 1)).lookup b = some d' ∧
        bs.count b ≤ d' := by
      intro b hb
      by_cases hbx : b = x
      · subst hbx
        exact ⟨d - 1, AList.lookup_insert _, by omega⟩
      · obtain ⟨d', hd', hle'⟩ := h b (List.mem_cons_of_mem x hb)
        rw [List.count_cons_of_ne (Ne.symm hbx)] at hle'
        exact ⟨d', (AList.lookup_insert_ne hbx).trans hd', hle'⟩
    obtain ⟨hdegree, new, hqueue, hnodup, hnew⟩ :=
      ih (degree.insert x (d - 1)) (if d - 1 = 0 then queue ++ [x] else queue) hrest
    rw [relax, hd]
    dsimp only
    refine ⟨fun b d' hb => ?_, ?_⟩
    · by_cases hbx : b = x
      · subst hbx
        rw [hd, Option.some.injEq] at hb
        rw [hdegree b (d - 1) (AList.lookup_insert _), List.count_cons_self]
        congr 1
        omega
      · rw [hdegree b d' ((AList.lookup_insert_ne hbx).trans hb),
          List.count_cons_of_ne (Ne.symm hbx)]
    · -- whether another node is new does not depend on `x`
      have hother : ∀ b, b ≠ x → (b ∈ new ↔ b ∈ x :: bs ∧
          degree.lookup b = some ((x :: bs).count b)) := by
        intro b hbx
        rw [hnew, AList.lookup_insert_ne hbx, List.mem_cons, or_iff_right hbx,
          List.count_cons_of_ne (Ne.symm hbx)]
      by_cases hzero : d - 1 = 0
      · -- the node has lost its last input, so it does not come again
        have hcount : bs.count x = 0 := by omega
        have hnot : x ∉ new := fun hmem =>
          List.count_eq_zero.mp hcount ((hnew x).mp hmem).1
        rw [if_pos hzero] at hqueue ⊢
        refine ⟨x :: new, by rw [hqueue, List.append_assoc, List.singleton_append],
          List.nodup_cons.mpr ⟨hnot, hnodup⟩, fun b => ?_⟩
        by_cases hbx : b = x
        · subst hbx
          rw [List.count_cons_self, hcount, hd, Option.some.injEq]
          exact iff_of_true List.mem_cons_self ⟨List.mem_cons_self, by omega⟩
        · rw [List.mem_cons, or_iff_right hbx, hother b hbx]
      · rw [if_neg hzero] at hqueue ⊢
        refine ⟨new, hqueue, hnodup, fun b => ?_⟩
        by_cases hbx : b = x
        · subst hbx
          rw [hnew, AList.lookup_insert, List.count_cons_self, hd, Option.some.injEq,
            Option.some.injEq]
          constructor
          · rintro ⟨-, hcount⟩
            exact ⟨List.mem_cons_self, by omega⟩
          · rintro ⟨-, hcount⟩
            exact ⟨List.count_pos_iff.mp (by omega), by omega⟩
        · exact hother b hbx

/-! ### The loop -/

/-- The number of inputs that are not in the result yet. -/
def waiting (entries : List (α × List α)) (result ins : List α) : ℕ :=
  ins.countP fun a => a ∈ entries.map Prod.fst ∧ a ∉ result

/-- What the loop knows: the in-degrees count the inputs that are not in the result, the nodes
without such inputs are in the queue or in the result, and the result is in order. -/
structure Inv (entries : List (α × List α)) (degree : AList fun _ : α => ℕ)
    (queue result : List α) : Prop where
  nodup : (result ++ queue).Nodup
  mem : ∀ b ∈ result ++ queue, b ∈ entries.map Prod.fst
  degree : ∀ b ins, (b, ins) ∈ entries → degree.lookup b = some (waiting entries result ins)
  ready : ∀ b ins, (b, ins) ∈ entries → (b ∈ result ++ queue ↔ waiting entries result ins = 0)
  ordered : ∀ a b, Edge entries a b → b ∈ result →
    a ∈ result ∧ result.idxOf a < result.idxOf b

theorem waiting_concat (hmem : a ∈ entries.map Prod.fst) (hnot : a ∉ result) (ins : List α) :
    waiting entries result ins = waiting entries (result ++ [a]) ins + ins.count a := by
  unfold waiting
  induction ins with
  | nil => rfl
  | cons i ins ih =>
    rw [List.countP_cons, List.countP_cons, List.count_cons, ih]
    simp only [decide_eq_true_eq, beq_iff_eq]
    by_cases hi : i = a
    · subst hi
      rw [if_pos ⟨hmem, hnot⟩, if_pos rfl, if_neg fun h => h.2 (List.mem_append_right _
        List.mem_cons_self)]
      omega
    · have hsame : i ∉ result ++ [a] ↔ i ∉ result := by simp [hi]
      rw [if_congr (and_congr_right fun _ => hsame) rfl rfl, if_neg hi]
      omega

/-- An input that is waited for is neither in the result nor the other way round. -/
theorem waiting_eq_zero {ins : List α} :
    waiting entries result ins = 0 ↔ ∀ a ∈ ins, a ∈ entries.map Prod.fst → a ∈ result := by
  rw [waiting, List.countP_eq_zero]
  simp only [decide_eq_true_eq, not_and, not_not]

/-- **One round** keeps what the loop knows. -/
theorem Inv.next {bs : List α} (h : Inv entries degree (a :: queue) result)
    (hmem : ∀ b ∈ bs, b ∈ entries.map Prod.fst)
    (hcount : ∀ b ins, (b, ins) ∈ entries → bs.count b = ins.count a) :
    Inv entries (relax bs (degree, queue)).1 (relax bs (degree, queue)).2 (result ++ [a]) := by
  have ha : a ∈ entries.map Prod.fst := h.mem a (List.mem_append_right _ List.mem_cons_self)
  have hnot : a ∉ result := fun hmem =>
    List.disjoint_of_nodup_append h.nodup hmem List.mem_cons_self
  have hwaiting : ∀ b ins, (b, ins) ∈ entries →
      waiting entries result ins = waiting entries (result ++ [a]) ins + bs.count b := by
    intro b ins hb
    rw [hcount b ins hb, waiting_concat ha hnot]
  have henough : ∀ b ∈ bs, ∃ d, degree.lookup b = some d ∧ bs.count b ≤ d := by
    intro b hb
    obtain ⟨⟨b, ins⟩, hentry, rfl⟩ := List.mem_map.mp (hmem b hb)
    exact ⟨_, h.degree b ins hentry, by rw [hwaiting b ins hentry]; exact Nat.le_add_left _ _⟩
  obtain ⟨hdegree, new, hqueue, hnodup, hnew⟩ := relax_spec bs degree queue henough
  -- a node that is new in the queue has waited for this input only
  have hnew' : ∀ b ins, (b, ins) ∈ entries →
      (b ∈ new ↔ b ∈ bs ∧ waiting entries (result ++ [a]) ins = 0) := by
    intro b ins hb
    rw [hnew, h.degree b ins hb, Option.some.injEq, hwaiting b ins hb]
    exact and_congr_right fun _ => by omega
  have hsplit : result ++ [a] ++ (queue ++ new) = result ++ a :: queue ++ new := by simp
  rw [hqueue]
  refine ⟨?_, fun b hb => ?_, fun b ins hb => ?_, fun b ins hb => ?_, fun x b hedge hb => ?_⟩
  · rw [hsplit]
    refine h.nodup.append hnodup fun b hold hb => ?_
    obtain ⟨⟨b, ins⟩, hentry, rfl⟩ := List.mem_map.mp (h.mem b hold)
    have hzero := (h.ready b ins hentry).mp hold
    have hpos := List.count_pos_iff.mpr ((hnew' b ins hentry).mp hb).1
    rw [hwaiting b ins hentry] at hzero
    omega
  · rw [hsplit] at hb
    rcases List.mem_append.mp hb with hold | hb
    · exact h.mem b hold
    · exact hmem b ((hnew b).mp hb).1
  · rw [hdegree b _ (h.degree b ins hb), hwaiting b ins hb, Nat.add_sub_cancel]
  · rw [hsplit, List.mem_append, h.ready b ins hb, hnew' b ins hb, hwaiting b ins hb]
    constructor
    · rintro (hzero | ⟨-, hzero⟩)
      · omega
      · exact hzero
    · intro hzero
      rcases Nat.eq_zero_or_pos (bs.count b) with hnone | hpos
      · exact Or.inl (by omega)
      · exact Or.inr ⟨List.count_pos_iff.mp hpos, hzero⟩
  · rcases List.mem_append.mp hb with hold | hb
    · obtain ⟨hx, hlt⟩ := h.ordered x b hedge hold
      rw [List.idxOf_append_of_mem hx, List.idxOf_append_of_mem hold]
      exact ⟨List.mem_append_left _ hx, hlt⟩
    · obtain rfl := List.mem_singleton.mp hb
      obtain ⟨ins, hentry, hx, hknown⟩ := hedge
      have hready := (h.ready b ins hentry).mp (List.mem_append_right _ List.mem_cons_self)
      have hxmem := waiting_eq_zero.mp hready x hx hknown
      rw [List.idxOf_append_of_mem hxmem, List.idxOf_append_of_notMem hnot, List.idxOf_cons_self]
      exact ⟨List.mem_append_left _ hxmem, List.idxOf_lt_length_of_mem hxmem⟩

/-- **The loop** ends with an empty queue. -/
theorem Inv.drain {adjacent : AList fun _ : α => List α} {fuel : ℕ}
    (hmem : ∀ a, ∀ b ∈ (adjacent.lookup a).getD [], b ∈ entries.map Prod.fst)
    (hcount : ∀ a ∈ entries.map Prod.fst, ∀ b ins, (b, ins) ∈ entries →
      ((adjacent.lookup a).getD []).count b = ins.count a)
    (h : Inv entries degree queue result) (hfuel : entries.length ≤ fuel + result.length) :
    ∃ degree', Inv entries degree' [] (Kahn.drain adjacent fuel (degree, queue) result) := by
  induction fuel generalizing degree queue result with
  | zero =>
    -- the result has all nodes already
    have hle := (List.subperm_of_subset h.nodup h.mem).length_le
    rw [List.length_append, List.length_map] at hle
    have hnil : queue = [] := List.length_eq_zero_iff.mp (by omega)
    subst hnil
    exact ⟨degree, h⟩
  | succ fuel ih =>
    cases queue with
    | nil => exact ⟨degree, h⟩
    | cons a queue =>
      have ha : a ∈ entries.map Prod.fst := h.mem a (List.mem_append_right _ List.mem_cons_self)
      refine ih (h.next (hmem a) (hcount a ha)) ?_
      rw [List.length_append, List.length_singleton]
      omega

/-! ### The result -/

variable {shuffle : List α → List α}

theorem Inv.initial (hkeys : (entries.map Prod.fst).Nodup) (hshuffle : ∀ l, (shuffle l).Perm l) :
    Inv entries (build entries).degree (shuffle (sources (build entries))) [] := by
  obtain ⟨hin, hout⟩ := lookup_foldl_addNode (entries.map Prod.fst) hkeys ⟨∅, ∅⟩ fun _ _ => rfl
  have hdegree : ∀ b ins, (b, ins) ∈ entries →
      (build entries).degree.lookup b = some (waiting entries [] ins) := by
    intro b ins hb
    rw [build, hin b ins hb, waiting]
    simp
  -- the queue has the nodes of degree zero
  have hsource : ∀ b, b ∈ shuffle (sources (build entries)) ↔
      (build entries).degree.lookup b = some 0 := by
    intro b
    rw [(hshuffle _).mem_iff, sources, List.mem_map]
    constructor
    · rintro ⟨⟨b, d⟩, hmem, rfl⟩
      obtain ⟨hentry, hzero⟩ := List.mem_filter.mp hmem
      obtain rfl : d = 0 := of_decide_eq_true hzero
      exact AList.mem_lookup_iff.mpr hentry
    · intro hlookup
      exact ⟨⟨b, 0⟩, List.mem_filter.mpr ⟨AList.mem_lookup_iff.mp hlookup, rfl⟩, rfl⟩
  refine ⟨?_, fun b hb => ?_, hdegree, fun b ins hb => ?_, fun _ _ _ hb =>
    absurd hb List.not_mem_nil⟩
  · rw [List.nil_append, (hshuffle _).nodup_iff]
    exact List.Nodup.sublist (List.filter_sublist.map _) (build entries).degree.nodupKeys
  · by_contra hnot
    -- only the nodes of entries have a degree
    have hnone := hout b hnot
    have hsome := (hsource b).mp hb
    rw [build, hnone] at hsome
    cases hsome
  · rw [List.nil_append, hsource, hdegree b ins hb, Option.some.injEq]

theorem exists_inv (hkeys : (entries.map Prod.fst).Nodup) (hshuffle : ∀ l, (shuffle l).Perm l) :
    ∃ degree, Inv entries degree [] (drain (build entries).adjacent entries.length
      ((build entries).degree, shuffle (sources (build entries))) []) := by
  have hadj : ∀ a, ((build entries).adjacent.lookup a).getD [] = entries.flatMap fun entry =>
      List.replicate ((entry.2.filter (· ∈ entries.map Prod.fst)).count a) entry.1 :=
    adj_foldl_addNode (entries.map Prod.fst) entries ⟨∅, ∅⟩
  refine (Inv.initial hkeys hshuffle).drain (fun a b hb => ?_) (fun a ha b ins hb => ?_)
    (Nat.le_add_right _ _)
  · rw [hadj a] at hb
    obtain ⟨entry, hentry, hrep⟩ := List.mem_flatMap.mp hb
    rw [List.eq_of_mem_replicate hrep]
    exact List.mem_map_of_mem hentry
  · have hkeep := List.count_filter (p := fun a => decide (a ∈ entries.map Prod.fst)) (l := ins)
      (decide_eq_true ha)
    rw [hadj a, (count_adj hkeys).1 (b, ins) hb]
    exact hkeep

/-- **A result is a topological order.** -/
theorem sort_sound {order : List α} (hkeys : (entries.map Prod.fst).Nodup)
    (hshuffle : ∀ l, (shuffle l).Perm l) (h : sort shuffle entries = some order) :
    Topological entries order := by
  obtain ⟨degree, hinv⟩ := exists_inv hkeys hshuffle
  rw [sort] at h
  split at h
  · cases h
  · next hlength =>
    rw [← Option.some.inj h]
    have hnodup := hinv.nodup
    have hmem := hinv.mem
    rw [List.append_nil] at hnodup hmem
    have hperm := (List.subperm_of_subset hnodup hmem).perm_of_length_le (by
      rw [List.length_map]
      exact (not_not.mp hlength).ge)
    refine ⟨hperm, fun a b hedge => (hinv.ordered a b hedge ?_).2⟩
    obtain ⟨ins, hentry, -⟩ := hedge
    exact hperm.mem_iff.mpr (List.mem_map_of_mem hentry)

/-- **A graph without a cycle** is sorted. -/
theorem sort_complete (hkeys : (entries.map Prod.fst).Nodup)
    (hshuffle : ∀ l, (shuffle l).Perm l) (hacyclic : Acyclic entries) :
    ∃ order, sort shuffle entries = some order := by
  obtain ⟨degree, hinv⟩ := exists_inv hkeys hshuffle
  have hwf : WellFounded fun a b : { a // a ∈ entries.map Prod.fst } =>
      Relation.TransGen (Edge entries) a.1 b.1 :=
    CycleSearch.wellFounded_of_acyclic fun a _ => hacyclic a
  -- by induction along the edges, every node is in the result
  have hall : ∀ b : { a // a ∈ entries.map Prod.fst },
      b.1 ∈ drain (build entries).adjacent entries.length
        ((build entries).degree, shuffle (sources (build entries))) [] := by
    intro b
    induction b using hwf.induction with
    | _ b ih =>
      obtain ⟨b, hb⟩ := b
      obtain ⟨⟨b, ins⟩, hentry, rfl⟩ := List.mem_map.mp hb
      have hzero : waiting entries _ ins = 0 := waiting_eq_zero.mpr fun a ha hknown =>
        ih ⟨a, hknown⟩ (.single ⟨ins, hentry, ha, hknown⟩)
      have hready := (hinv.ready b ins hentry).mpr hzero
      rwa [List.append_nil] at hready
  refine ⟨_, if_neg (not_not.mpr ?_)⟩
  have hnodup := hinv.nodup
  rw [List.append_nil] at hnodup
  have hle := (List.subperm_of_subset hnodup fun b hb =>
    hinv.mem b (List.mem_append_left _ hb)).length_le
  have hge := (List.subperm_of_subset hkeys fun b hb => hall ⟨b, hb⟩).length_le
  rw [List.length_map] at hle hge
  exact le_antisymm hle hge

end Kahn
