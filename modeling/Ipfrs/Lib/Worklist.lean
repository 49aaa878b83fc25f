import Mathlib.Data.Finset.Card
import Ipfrs.Lib.WhileLoop

/-!
# Graph search with a worklist

A graph is given by a function `succ` from nodes to their successors, which may fail. The search
keeps a stack of nodes to expand and a set of marked nodes, and marks a node when it is pushed, so
no node is pushed twice.

* `run_ok_iff_reachable` — the marked nodes at the end are those reachable from the start. The
  invariant is `Inv`: a marked node is still on the stack, or all its successors are marked.
* `exists_run` — the search ends on every finite graph, whatever its shape. Every iteration moves
  one node from "unmarked or on the stack" to "expanded".
-/

namespace Worklist

variable {α ε : Type} [DecidableEq α]

/-- `y` is a successor of `x`. -/
def Edge (succ : α → Except ε (List α)) (x y : α) : Prop :=
  ∃ ys, succ x = .ok ys ∧ y ∈ ys

/-- `y` can be reached from a node of `roots`. -/
def Reachable (succ : α → Except ε (List α)) (roots : Finset α) (y : α) : Prop :=
  ∃ x ∈ roots, Relation.ReflTransGen (Edge succ) x y

/-- Mark the nodes of a list that are not marked yet, and push them. -/
def pushNew : List α → List α × Finset α → List α × Finset α
  | [], st => st
  | y :: ys, (stack, marked) =>
    if y ∈ marked then pushNew ys (stack, marked)
    else pushNew ys (y :: stack, insert y marked)

/-- Pop a node and push its unmarked successors. The search ends when the stack is empty, or when a
node cannot be expanded. -/
def step (succ : α → Except ε (List α)) :
    List α × Finset α → (List α × Finset α) ⊕ Except ε (Finset α)
  | ([], marked) => .inr (.ok marked)
  | (x :: stack, marked) =>
    match succ x with
    | .ok ys => .inl (pushNew ys (stack, marked))
    | .error e => .inr (.error e)

/-! ### Pushing the successors of one node -/

theorem pushNew_marked (ys stack : List α) (marked : Finset α) :
    (pushNew ys (stack, marked)).2 = marked ∪ ys.toFinset := by
  induction ys generalizing stack marked with
  | nil => simp [pushNew]
  | cons y ys ih =>
    unfold pushNew
    split
    · next h =>
      rw [ih, List.toFinset_cons, Finset.union_insert, Finset.insert_eq_of_mem]
      exact Finset.mem_union_left _ h
    · -- marked first, and then the rest of the list
      rw [ih, List.toFinset_cons, Finset.union_insert, Finset.insert_union]

theorem mem_pushNew_stack (ys stack : List α) (marked : Finset α) (z : α) :
    z ∈ (pushNew ys (stack, marked)).1 ↔ z ∈ stack ∨ z ∈ ys ∧ z ∉ marked := by
  induction ys generalizing stack marked with
  | nil => simp [pushNew]
  | cons y ys ih =>
    unfold pushNew
    split
    · next h =>
      rw [ih]
      refine or_congr_right ⟨fun hz => ⟨List.mem_cons_of_mem _ hz.1, hz.2⟩, fun hz => ⟨?_, hz.2⟩⟩
      rcases List.mem_cons.mp hz.1 with rfl | hz'
      · exact absurd h hz.2
      · exact hz'
    · next h =>
      rw [ih, List.mem_cons, List.mem_cons, Finset.mem_insert]
      by_cases hzy : z = y
      · subst hzy
        simp [h]
      · simp [hzy]

theorem pushNew_length (ys stack : List α) (marked : Finset α) :
    (pushNew ys (stack, marked)).1.length + marked.card
      = stack.length + (pushNew ys (stack, marked)).2.card := by
  induction ys generalizing stack marked with
  | nil => rfl
  | cons y ys ih =>
    unfold pushNew
    split
    · exact ih stack marked
    · -- one push and one mark
      next h =>
      have hih := ih (y :: stack) (insert y marked)
      rw [Finset.card_insert_of_notMem h, List.length_cons] at hih
      omega

/-! ### The invariant -/

/-- What the search knows at the head of its loop. -/
structure Inv (succ : α → Except ε (List α)) (roots : Finset α) (st : List α × Finset α) :
    Prop where
  roots_subset : roots ⊆ st.2
  /-- Only reachable nodes are marked. -/
  sound : ∀ y ∈ st.2, Reachable succ roots y
  /-- What is on the stack is marked. -/
  stack_marked : ∀ x ∈ st.1, x ∈ st.2
  /-- A marked node waits on the stack, or has been expanded. -/
  expanded : ∀ x ∈ st.2, x ∈ st.1 ∨ ∃ ys, succ x = .ok ys ∧ ∀ y ∈ ys, y ∈ st.2

variable {succ : α → Except ε (List α)} {roots : Finset α}
variable {stack : List α} {marked : Finset α} {fuel : ℕ}

omit [DecidableEq α] in
theorem Inv.initial (h : ∀ x, x ∈ stack ↔ x ∈ roots) :
    Inv succ roots (stack, roots) where
  roots_subset := Finset.Subset.refl _
  sound y hy := ⟨y, hy, Relation.ReflTransGen.refl⟩
  stack_marked x hx := (h x).mp hx
  expanded x hx := Or.inl ((h x).mpr hx)

/-- One iteration keeps the invariant: the popped node is expanded now, the new nodes wait. -/
theorem Inv.next {st st' : List α × Finset α} (hI : Inv succ roots st)
    (hstep : step succ st = .inl st') : Inv succ roots st' := by
  obtain ⟨_ | ⟨x, stack⟩, marked⟩ := st
  · exact absurd hstep (by simp [step])
  cases hx : succ x with
  | error e => exact absurd hstep (by simp [step, hx])
  | ok ys =>
    obtain rfl : pushNew ys (stack, marked) = st' := by simpa [step, hx] using hstep
    have hmem : ∀ z, z ∈ (pushNew ys (stack, marked)).2 ↔ z ∈ marked ∨ z ∈ ys := by
      intro z
      rw [pushNew_marked, Finset.mem_union, List.mem_toFinset]
    have hxm : x ∈ marked := hI.stack_marked x List.mem_cons_self
    refine ⟨fun z hz => (hmem z).mpr (Or.inl (hI.roots_subset hz)), fun z hz => ?_,
      fun z hz => ?_, fun z hz => ?_⟩
    · -- a new mark is one step from the popped node
      rcases (hmem z).mp hz with hz | hz
      · exact hI.sound z hz
      · obtain ⟨r, hr, hpath⟩ := hI.sound x hxm
        exact ⟨r, hr, hpath.tail ⟨ys, hx, hz⟩⟩
    · rcases (mem_pushNew_stack ys stack marked z).mp hz with hz | ⟨hz, -⟩
      · exact (hmem z).mpr (Or.inl (hI.stack_marked z (List.mem_cons_of_mem _ hz)))
      · exact (hmem z).mpr (Or.inr hz)
    · by_cases hzm : z ∈ marked
      · -- marked before: it was waiting, perhaps on top, or it had been expanded
        rcases hI.expanded z hzm with hzs | ⟨zs, hzs, hall⟩
        · rcases List.mem_cons.mp hzs with rfl | hzs
          · exact Or.inr ⟨ys, hx, fun y hy => (hmem y).mpr (Or.inr hy)⟩
          · exact Or.inl ((mem_pushNew_stack ys stack marked z).mpr (Or.inl hzs))
        · exact Or.inr ⟨zs, hzs, fun y hy => (hmem y).mpr (Or.inl (hall y hy))⟩
      · -- marked now: it waits
        have hzy := ((hmem z).mp hz).resolve_left hzm
        exact Or.inl ((mem_pushNew_stack ys stack marked z).mpr (Or.inr ⟨hzy, hzm⟩))

omit [DecidableEq α] in
/-- With nothing left to expand, the marked nodes are closed under successors. -/
theorem Inv.mem_iff_of_nil (hI : Inv succ roots ([], marked)) (y : α) :
    y ∈ marked ↔ Reachable succ roots y := by
  refine ⟨hI.sound y, ?_⟩
  rintro ⟨x, hx, hpath⟩
  induction hpath with
  | refl => exact hI.roots_subset hx
  | tail _ hedge ih =>
    obtain ⟨ys, hys, hmem⟩ := hedge
    -- nothing waits, so the node has been expanded
    rcases hI.expanded _ ih with hnil | ⟨zs, hzs, hall⟩
    · exact absurd hnil List.not_mem_nil
    · obtain rfl := Except.ok.inj (hys.symm.trans hzs)
      exact hall _ hmem

/-- A search that succeeds ends with the invariant and nothing left to expand. -/
theorem Inv.of_run_ok (hstack : ∀ x, x ∈ stack ↔ x ∈ roots)
    (h : WhileLoop.run (step succ) fuel (stack, roots) = some (.ok marked)) :
    Inv succ roots ([], marked) := by
  refine WhileLoop.run_inv (Inv succ roots) (fun r => ∀ m, r = .ok m → Inv succ roots ([], m))
    (fun st st' hI hstep => hI.next hstep) (fun st r hI hstep m hm => ?_)
    (Inv.initial hstack) h marked rfl
  obtain ⟨_ | ⟨x, stack⟩, marked⟩ := st
  · obtain rfl : Except.ok marked = r := by simpa [step] using hstep
    obtain rfl := Except.ok.inj hm
    exact hI
  · -- leaving with a node on the stack means that it could not be expanded
    subst hm
    cases hx : succ x <;> simp [step, hx] at hstep

/-- **The search finds the reachable nodes, and no others.** -/
theorem run_ok_iff_reachable (hstack : ∀ x, x ∈ stack ↔ x ∈ roots)
    (h : WhileLoop.run (step succ) fuel (stack, roots) = some (.ok marked)) (y : α) :
    y ∈ marked ↔ Reachable succ roots y :=
  (Inv.of_run_ok hstack h).mem_iff_of_nil y

/-- In a search that succeeds, every node that was found could be expanded. -/
theorem succ_ok_of_run_ok (hstack : ∀ x, x ∈ stack ↔ x ∈ roots)
    (h : WhileLoop.run (step succ) fuel (stack, roots) = some (.ok marked)) {x : α}
    (hx : x ∈ marked) : ∃ ys, succ x = .ok ys := by
  rcases (Inv.of_run_ok hstack h).expanded x hx with hnil | ⟨ys, hys, -⟩
  · exact absurd hnil List.not_mem_nil
  · exact ⟨ys, hys⟩

/-- A search that fails has come to a node that cannot be expanded. -/
theorem exists_error_of_run_error {e : ε} (hstack : ∀ x, x ∈ stack ↔ x ∈ roots)
    (h : WhileLoop.run (step succ) fuel (stack, roots) = some (.error e)) :
    ∃ x, Reachable succ roots x ∧ succ x = .error e := by
  refine WhileLoop.run_inv (Inv succ roots)
    (fun r => ∀ e, r = .error e → ∃ x, Reachable succ roots x ∧ succ x = .error e)
    (fun st st' hI hstep => hI.next hstep) (fun st r hI hstep e he => ?_)
    (Inv.initial hstack) h e rfl
  obtain ⟨_ | ⟨x, stack⟩, marked⟩ := st
  · exact absurd hstep (by simp [step, he])
  · -- what is on top is marked, so it was reached
    refine ⟨x, hI.sound x (hI.stack_marked x List.mem_cons_self), ?_⟩
    subst he
    cases hx : succ x with
    | ok ys => simp [step, hx] at hstep
    | error e' => simpa [step, hx] using hstep

/-- **The search ends on every finite graph.** `U` is a finite set of nodes that the search cannot
leave; the number of unmarked nodes plus the height of the stack goes down by one every time. -/
theorem exists_run (U : Finset α) (hroots : roots ⊆ U)
    (hU : ∀ x ∈ U, ∀ ys, succ x = .ok ys → ∀ y ∈ ys, y ∈ U) (hstack : ∀ x ∈ stack, x ∈ U) :
    ∃ fuel r, WhileLoop.run (step succ) fuel (stack, roots) = some r := by
  suffices hdown : ∀ st st', (st.2 ⊆ U ∧ ∀ x ∈ st.1, x ∈ U) → step succ st = .inl st' →
      (st'.2 ⊆ U ∧ ∀ x ∈ st'.1, x ∈ U) ∧
        (U.card - st'.2.card) + st'.1.length < (U.card - st.2.card) + st.1.length by
    obtain ⟨r, hr⟩ := WhileLoop.run_of_measure
      (fun st : List α × Finset α => st.2 ⊆ U ∧ ∀ x ∈ st.1, x ∈ U)
      (fun st : List α × Finset α => (U.card - st.2.card) + st.1.length) hdown
      (s := (stack, roots)) ⟨hroots, hstack⟩
    exact ⟨_, r, hr⟩
  intro st st' hI hstep
  obtain ⟨_ | ⟨x, stack⟩, marked⟩ := st
  · exact absurd hstep (by simp [step])
  cases hx : succ x with
  | error e => exact absurd hstep (by simp [step, hx])
  | ok ys =>
    obtain rfl : pushNew ys (stack, marked) = st' := by simpa [step, hx] using hstep
    obtain ⟨hsub, hst⟩ := hI
    have hys := hU x (hst x List.mem_cons_self) ys hx
    -- the search stays in `U`
    have hsub' : (pushNew ys (stack, marked)).2 ⊆ U := by
      rw [pushNew_marked]
      exact Finset.union_subset hsub fun y hy => hys y (List.mem_toFinset.mp hy)
    have hst' : ∀ z ∈ (pushNew ys (stack, marked)).1, z ∈ U := by
      intro z hz
      rcases (mem_pushNew_stack ys stack marked z).mp hz with hz | hz
      · exact hst z (List.mem_cons_of_mem _ hz)
      · exact hys z hz.1
    refine ⟨⟨hsub', hst'⟩, ?_⟩
    -- one node is popped, and each push goes with a mark
    have hlen := pushNew_length ys stack marked
    have hcard := Finset.card_le_card hsub'
    have hgrow : marked.card ≤ (pushNew ys (stack, marked)).2.card := by
      rw [pushNew_marked]
      exact Finset.card_le_card Finset.subset_union_left
    simp only [List.length_cons]
    omega

end Worklist
