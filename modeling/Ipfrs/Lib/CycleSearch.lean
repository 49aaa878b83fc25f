import Mathlib.Data.Fintype.EquivFin
import Mathlib.Order.WellFounded

/-!
# Search for a cycle

The depth-first search for a cycle with two sets of nodes: those that have been visited, and those
that are on the stack of the recursion. A node on the stack is a cycle; a node that was visited
before is not searched again. The sets are kept from one start node to the next.

* `searchAll_true` — if a cycle is found, there is one;
* `searchAll_false` — if none is found, there is none that can be reached from the start nodes;
* `exists_searchAll` — the search ends over a finite graph;
* `wellFounded_of_acyclic` — where there is no cycle, there is induction along the edges.

The nodes that have been visited and are not on the stack are *finished*: all their successors are
finished, and none of them is on a cycle (`Finished`).
-/

namespace CycleSearch

open Relation

variable {α : Type*}

/-- **Induction along the edges** between finitely many nodes that are on no cycle. -/
theorem wellFounded_of_acyclic {r : α → α → Prop} {nodes : List α}
    (h : ∀ a ∈ nodes, ¬ TransGen r a a) :
    WellFounded fun a b : {a // a ∈ nodes} => TransGen r a.1 b.1 := by
  classical
  have : Std.Irrefl fun a b : {a // a ∈ nodes} => TransGen r a.1 b.1 := ⟨fun a => h a.1 a.2⟩
  have : IsTrans {a // a ∈ nodes} fun a b => TransGen r a.1 b.1 := ⟨fun _ _ _ => TransGen.trans⟩
  exact Finite.wellFounded_of_trans_of_irrefl _

/-- The visited nodes, and those on the stack of the recursion. -/
structure Marks (α : Type*) where
  visited : Finset α
  recStack : Finset α

/-- No node is marked. -/
def Marks.empty : Marks α := ⟨∅, ∅⟩

/-- Search from one node after the other, until a cycle is found. -/
def searchList (visit : α → Marks α → Option (Bool × Marks α)) :
    List α → Marks α → Option (Bool × Marks α)
  | [], marks => some (false, marks)
  | x :: xs, marks => do
    let (found, marks) ← visit x marks
    if found then return (true, marks) else searchList visit xs marks

variable [DecidableEq α]

/-- Search from one node. `none` says that the recursion went deeper than `fuel`. -/
def search (succ : α → List α) : ℕ → α → Marks α → Option (Bool × Marks α)
  | 0, _, _ => none
  | fuel + 1, x, marks =>
    if x ∈ marks.recStack then some (true, marks)
    else if x ∈ marks.visited then some (false, marks)
    else do
      let (found, marks) ← searchList (search succ fuel) (succ x)
        { visited := insert x marks.visited, recStack := insert x marks.recStack }
      if found then return (true, marks)
      else return (false, { marks with recStack := marks.recStack.erase x })

variable {succ : α → List α}

/-- `y` is a successor of `x`. -/
def Edge (succ : α → List α) (x y : α) : Prop := y ∈ succ x

/-- A set of nodes that the search is done with. -/
structure Finished (succ : α → List α) (done : Finset α) : Prop where
  closed : ∀ x ∈ done, ∀ y ∈ succ x, y ∈ done
  acyclic : ∀ x ∈ done, ¬ TransGen (Edge succ) x x

namespace Finished

variable {done : Finset α} {x y : α}

omit [DecidableEq α] in
theorem empty : Finished succ (∅ : Finset α) :=
  ⟨fun x hx => absurd hx (Finset.notMem_empty x), fun x hx => absurd hx (Finset.notMem_empty x)⟩

omit [DecidableEq α] in
theorem mem_of_reflTransGen (h : Finished succ done) (hx : x ∈ done)
    (hpath : ReflTransGen (Edge succ) x y) : y ∈ done := by
  induction hpath with
  | refl => exact hx
  | tail _ hedge ih => exact h.closed _ ih _ hedge

theorem insert (h : Finished succ done) (hx : x ∉ done) (hsucc : ∀ y ∈ succ x, y ∈ done) :
    Finished succ (insert x done) where
  closed z hz y hy := by
    rcases Finset.mem_insert.mp hz with rfl | hz
    · exact Finset.mem_insert_of_mem (hsucc y hy)
    · exact Finset.mem_insert_of_mem (h.closed z hz y hy)
  acyclic z hz hcycle := by
    rcases Finset.mem_insert.mp hz with rfl | hz
    · -- a cycle through the node goes on from a successor, and does not come back from there
      obtain ⟨y, hedge, hpath⟩ := TransGen.head'_iff.mp hcycle
      exact hx (h.mem_of_reflTransGen (hsucc y hedge) hpath)
    · exact h.acyclic z hz hcycle

end Finished

/-! ### What a search finds -/

/-- What the search knows between two nodes. -/
structure Marks.Inv (succ : α → List α) (marks : Marks α) : Prop where
  recStack_subset : marks.recStack ⊆ marks.visited
  finished : Finished succ (marks.visited \ marks.recStack)

/-- How a search that finds nothing changes the marks. -/
structure Marks.Grows (succ : α → List α) (xs : List α) (marks marks' : Marks α) : Prop where
  recStack : marks'.recStack = marks.recStack
  visited : marks.visited ⊆ marks'.visited
  mem : ∀ x ∈ xs, x ∈ marks'.visited \ marks'.recStack
  inv : marks'.Inv succ

/-- What is said of a search from `x`: a cycle that is found is one, and otherwise `x` is finished.
Every node on the stack leads to `x`. -/
def Correct (succ : α → List α) (visit : α → Marks α → Option (Bool × Marks α)) : Prop :=
  ∀ x marks found marks', visit x marks = some (found, marks') →
    (∀ a ∈ marks.recStack, TransGen (Edge succ) a x) → marks.Inv succ →
    (found = true → ∃ a, TransGen (Edge succ) a a) ∧
      (found = false → marks.Grows succ [x] marks')

variable {xs : List α} {found : Bool} {fuel : ℕ}

theorem searchList_correct {visit : α → Marks α → Option (Bool × Marks α)}
    (hvisit : Correct succ visit) {marks marks' : Marks α}
    (h : searchList visit xs marks = some (found, marks'))
    (hstack : ∀ x ∈ xs, ∀ a ∈ marks.recStack, TransGen (Edge succ) a x) (hI : marks.Inv succ) :
    (found = true → ∃ a, TransGen (Edge succ) a a) ∧
      (found = false → marks.Grows succ xs marks') := by
  induction xs generalizing marks with
  | nil =>
    obtain ⟨rfl, rfl⟩ := Prod.mk.inj (Option.some.inj h)
    refine ⟨nofun, fun _ => ⟨rfl, Finset.Subset.refl _, ?_, hI⟩⟩
    exact fun x hx => absurd hx List.not_mem_nil
  | cons x xs ih =>
    obtain ⟨⟨found₁, marks₁⟩, hx, h⟩ := Option.bind_eq_some_iff.mp h
    obtain ⟨htrue, hfalse⟩ := hvisit x marks found₁ marks₁ hx (hstack x List.mem_cons_self) hI
    cases found₁ with
    | true =>
      obtain ⟨rfl, rfl⟩ := Prod.mk.inj (Option.some.inj h)
      exact ⟨htrue, nofun⟩
    | false =>
      have hgrows := hfalse rfl
      have hstack' : ∀ y ∈ xs, ∀ a ∈ marks₁.recStack, TransGen (Edge succ) a y :=
        fun y hy a ha => hstack y (List.mem_cons_of_mem _ hy) a (hgrows.recStack ▸ ha)
      obtain ⟨htrue', hfalse'⟩ := ih h hstack' hgrows.inv
      refine ⟨htrue', fun hfound => ?_⟩
      have hrest := hfalse' hfound
      refine ⟨hrest.recStack.trans hgrows.recStack, hgrows.visited.trans hrest.visited, ?_,
        hrest.inv⟩
      refine List.forall_mem_cons.mpr ⟨?_, hrest.mem⟩
      -- a finished node stays finished
      have hdone := Finset.mem_sdiff.mp (hgrows.mem x List.mem_cons_self)
      exact Finset.mem_sdiff.mpr ⟨hrest.visited hdone.1, hrest.recStack ▸ hdone.2⟩

theorem search_correct (fuel : ℕ) : Correct succ (search succ fuel) := by
  induction fuel with
  | zero => exact fun x marks found marks' h => by cases h
  | succ fuel ih =>
    intro x marks found marks' h hstack hI
    unfold search at h
    split at h
    · next hx =>
      -- the node is on the stack, and the stack leads to it
      obtain ⟨rfl, rfl⟩ := Prod.mk.inj (Option.some.inj h)
      exact ⟨fun _ => ⟨x, hstack x hx⟩, nofun⟩
    split at h
    · next hx hvisited =>
      obtain ⟨rfl, rfl⟩ := Prod.mk.inj (Option.some.inj h)
      refine ⟨nofun, fun _ => ⟨rfl, Finset.Subset.refl _, ?_, hI⟩⟩
      exact List.forall_mem_singleton.mpr (Finset.mem_sdiff.mpr ⟨hvisited, hx⟩)
    next hx hvisited =>
    obtain ⟨⟨found₁, marks₁⟩, hlist, h⟩ := Option.bind_eq_some_iff.mp h
    -- with the node marked and on the stack, what is finished is the same
    have hentered : Marks.Inv succ
        ⟨insert x marks.visited, insert x marks.recStack⟩ := by
      refine ⟨Finset.insert_subset_insert x hI.recStack_subset, ?_⟩
      have hsame : insert x marks.visited \ insert x marks.recStack =
          marks.visited \ marks.recStack := by
        rw [Finset.insert_sdiff_insert, Finset.sdiff_insert, Finset.erase_eq_of_notMem]
        exact fun hmem => hvisited (Finset.mem_sdiff.mp hmem).1
      dsimp only
      rw [hsame]
      exact hI.finished
    have hstack' : ∀ y ∈ succ x, ∀ a ∈ insert x marks.recStack, TransGen (Edge succ) a y := by
      intro y hy a ha
      rcases Finset.mem_insert.mp ha with rfl | ha
      · exact .single hy
      · exact (hstack a ha).tail hy
    obtain ⟨htrue, hfalse⟩ := searchList_correct ih hlist hstack' hentered
    cases found₁ with
    | true =>
      obtain ⟨rfl, rfl⟩ := Prod.mk.inj (Option.some.inj h)
      exact ⟨htrue, nofun⟩
    | false =>
      obtain ⟨rfl, rfl⟩ := Prod.mk.inj (Option.some.inj h)
      have hgrows := hfalse rfl
      refine ⟨nofun, fun _ => ?_⟩
      have hmem : x ∈ marks₁.visited := hgrows.visited (Finset.mem_insert_self x _)
      have hon : x ∈ marks₁.recStack := hgrows.recStack ▸ Finset.mem_insert_self x _
      have hdone : marks₁.visited \ marks₁.recStack.erase x =
          insert x (marks₁.visited \ marks₁.recStack) := Finset.sdiff_erase hmem
      refine ⟨?_, (Finset.subset_insert x _).trans hgrows.visited, ?_, ?_, ?_⟩
      · dsimp only
        rw [hgrows.recStack]
        exact Finset.erase_insert hx
      · refine List.forall_mem_singleton.mpr ?_
        dsimp only
        rw [hdone]
        exact Finset.mem_insert_self x _
      · exact (Finset.erase_subset x _).trans hgrows.inv.recStack_subset
      · dsimp only
        rw [hdone]
        exact hgrows.inv.finished.insert (fun h => (Finset.mem_sdiff.mp h).2 hon) hgrows.mem

/-! ### The search over all nodes -/

/-- Search from every node of a list, with nothing marked at first. -/
def searchAll (succ : α → List α) (fuel : ℕ) (xs : List α) : Option Bool :=
  (searchList (search succ fuel) xs .empty).map Prod.fst

theorem inv_empty : (Marks.empty : Marks α).Inv succ := ⟨Finset.Subset.refl _, .empty⟩

theorem searchAll_correct (h : searchAll succ fuel xs = some found) :
    (found = true → ∃ a, TransGen (Edge succ) a a) ∧
      (found = false → ∃ marks', Marks.Grows succ xs .empty marks') := by
  obtain ⟨⟨found', marks'⟩, hlist, rfl⟩ := Option.map_eq_some_iff.mp h
  obtain ⟨htrue, hfalse⟩ := searchList_correct (search_correct fuel) hlist
    (fun _ _ a ha => absurd ha (Finset.notMem_empty a)) inv_empty
  exact ⟨htrue, fun hfound => ⟨marks', hfalse hfound⟩⟩

/-- **A cycle is found only if there is one.** -/
theorem searchAll_true (h : searchAll succ fuel xs = some true) : ∃ a, TransGen (Edge succ) a a :=
  (searchAll_correct h).1 rfl

/-- **If no cycle is found**, there is none that can be reached from a start node. -/
theorem searchAll_false (h : searchAll succ fuel xs = some false) {x y : α} (hx : x ∈ xs)
    (hpath : ReflTransGen (Edge succ) x y) : ¬ TransGen (Edge succ) y y := by
  obtain ⟨marks', hgrows⟩ := (searchAll_correct h).2 rfl
  exact hgrows.inv.finished.acyclic y
    (hgrows.inv.finished.mem_of_reflTransGen (hgrows.mem x hx) hpath)

/-! ### The search ends -/

section Ends

variable {U : Finset α}

/-- The search ends within `U` when it may go as deep as there are nodes left, and it visits only
nodes of `U`. -/
def Ends (U : Finset α) (visit : α → Marks α → Option (Bool × Marks α)) (left : ℕ) : Prop :=
  ∀ x marks, x ∈ U → marks.visited ⊆ U → (U \ marks.visited).card ≤ left →
    ∃ found marks', visit x marks = some (found, marks') ∧ marks.visited ⊆ marks'.visited ∧
      marks'.visited ⊆ U

variable {xs : List α}

theorem searchList_ends {visit : α → Marks α → Option (Bool × Marks α)} {left : ℕ}
    (hvisit : Ends U visit left) (hxs : ∀ x ∈ xs, x ∈ U) (marks : Marks α) (hU : marks.visited ⊆ U)
    (hleft : (U \ marks.visited).card ≤ left) :
    ∃ found marks', searchList visit xs marks = some (found, marks') ∧
      marks.visited ⊆ marks'.visited ∧ marks'.visited ⊆ U := by
  induction xs generalizing marks with
  | nil => exact ⟨false, marks, rfl, Finset.Subset.refl _, hU⟩
  | cons x xs ih =>
    obtain ⟨found, marks₁, hx, hsub, hU₁⟩ := hvisit x marks (hxs x List.mem_cons_self) hU hleft
    rw [searchList, hx]
    cases found with
    | true => exact ⟨true, marks₁, rfl, hsub, hU₁⟩
    | false =>
      have hleft₁ : (U \ marks₁.visited).card ≤ left :=
        (Finset.card_le_card (Finset.sdiff_subset_sdiff (Finset.Subset.refl U) hsub)).trans hleft
      obtain ⟨found', marks', hrest, hsub', hU'⟩ :=
        ih (fun y hy => hxs y (List.mem_cons_of_mem _ hy)) marks₁ hU₁ hleft₁
      exact ⟨found', marks', hrest, hsub.trans hsub', hU'⟩

theorem search_ends (hclosed : ∀ x ∈ U, ∀ y ∈ succ x, y ∈ U) (fuel : ℕ) :
    Ends U (search succ (fuel + 1)) fuel := by
  induction fuel with
  | zero =>
    intro x marks hx hU hleft
    -- everything has been visited
    have hmem : x ∈ marks.visited := by
      by_contra hnot
      have hpos := Finset.card_pos.mpr ⟨x, Finset.mem_sdiff.mpr ⟨hx, hnot⟩⟩
      exact absurd hleft (Nat.not_le.mpr hpos)
    unfold search
    split
    · exact ⟨true, marks, rfl, Finset.Subset.refl _, hU⟩
    · exact ⟨false, marks, rfl, Finset.Subset.refl _, hU⟩
  | succ fuel ih =>
    intro x marks hx hU hleft
    unfold search
    split
    · exact ⟨true, marks, rfl, Finset.Subset.refl _, hU⟩
    split
    · exact ⟨false, marks, rfl, Finset.Subset.refl _, hU⟩
    next hstack hvisited =>
    have hless : (U \ insert x marks.visited).card ≤ fuel := by
      have hlt : (U \ insert x marks.visited).card < (U \ marks.visited).card := by
        refine Finset.card_lt_card (Finset.ssubset_iff_subset_ne.mpr ⟨?_, fun heq => ?_⟩)
        · exact Finset.sdiff_subset_sdiff (Finset.Subset.refl U) (Finset.subset_insert x _)
        · have hmem : x ∈ U \ marks.visited := Finset.mem_sdiff.mpr ⟨hx, hvisited⟩
          rw [← heq] at hmem
          exact (Finset.mem_sdiff.mp hmem).2 (Finset.mem_insert_self x _)
      omega
    obtain ⟨found, marks', hlist, hsub, hU'⟩ := searchList_ends ih (hclosed x hx)
      ⟨insert x marks.visited, insert x marks.recStack⟩
      (Finset.insert_subset hx hU) hless
    rw [hlist]
    have hsub' := (Finset.subset_insert x _).trans hsub
    cases found with
    | true => exact ⟨true, marks', rfl, hsub', hU'⟩
    | false => exact ⟨false, _, rfl, hsub', hU'⟩

/-- **The search ends** over a finite graph, once it may go as deep as there are nodes. -/
theorem exists_searchAll (hclosed : ∀ x ∈ U, ∀ y ∈ succ x, y ∈ U) (hxs : ∀ x ∈ xs, x ∈ U) {fuel : ℕ}
    (hfuel : U.card < fuel) : ∃ found, searchAll succ fuel xs = some found := by
  obtain ⟨k, rfl⟩ : ∃ k, fuel = k + 1 := ⟨fuel - 1, by omega⟩
  obtain ⟨found, marks', hlist, -⟩ := searchList_ends (search_ends hclosed k) hxs
    .empty (Finset.empty_subset U)
    ((Finset.card_le_card Finset.sdiff_subset).trans (Nat.le_of_lt_succ hfuel))
  exact ⟨found, by rw [searchAll, hlist]; rfl⟩

end Ends

end CycleSearch
