import Mathlib.Data.Finset.Card

/-!
# Depth-first walks with a limit

A depth-first walk over the graph of a successor function, as a recursive program does it: to enter
a node is to go through its successors, to mark those that are not marked yet, and to enter each of
them at once. With a limit, a node is not entered any more once that many nodes are marked; the
nodes that have been entered still mark the rest of their successors. A walk returns the marked
nodes, and the nodes that were entered, each with the number of marks at that moment.

* `walk_marks` — what is marked at the end are the successors of the entered nodes.
* `walk_limited` — with a limit, the entered nodes are those that the walk without a limit enters
  before it has reached that number of marks.
* `exists_walk` — a walk over a finite graph ends, whatever its shape.
-/

namespace DepthFirst

variable {α : Type} [DecidableEq α]

/-- The marked nodes, and the entered nodes with the number of marks at their entry. -/
abbrev Result (α : Type) := Finset α × List (α × ℕ)

/-- The limit on the number of marks is reached. -/
def LimitReached (limit : Option ℕ) (marked : Finset α) : Prop :=
  ∃ max ∈ limit, max ≤ marked.card

instance (limit : Option ℕ) (marked : Finset α) : Decidable (LimitReached limit marked) :=
  match limit with
  | none => isFalse fun ⟨_, h, _⟩ => absurd h (by simp)
  | some max => decidable_of_iff (max ≤ marked.card) (by simp [LimitReached])

/-- Go through a list of nodes; mark and enter those that are not marked. -/
def visitList (visit : α → Finset α → Option (Result α)) :
    List α → Finset α → Option (Result α)
  | [], marked => some (marked, [])
  | y :: ys, marked =>
    if y ∈ marked then visitList visit ys marked
    else do
      let (marked, t) ← visit y (insert y marked)
      let (marked, t') ← visitList visit ys marked
      return (marked, t ++ t')

/-- Enter a node, unless the limit is reached. `none` says that the recursion went deeper than
`fuel`. -/
def visit (succ : α → List α) (limit : Option ℕ) : ℕ → α → Finset α → Option (Result α)
  | 0, _, marked => if LimitReached limit marked then some (marked, []) else none
  | fuel + 1, x, marked =>
    if LimitReached limit marked then some (marked, [])
    else do
      let (marked', t) ← visitList (visit succ limit fuel) (succ x) marked
      return (marked', (x, marked.card) :: t)

/-- Enter the nodes of a list one after the other. -/
def walk (succ : α → List α) (limit : Option ℕ) (fuel : ℕ) :
    List α → Finset α → Option (Result α)
  | [], marked => some (marked, [])
  | x :: xs, marked => do
    let (marked, t) ← visit succ limit fuel x marked
    let (marked, t') ← walk succ limit fuel xs marked
    return (marked, t ++ t')

variable {succ : α → List α} {limit : Option ℕ}
variable {marked marked' V : Finset α} {fuel max fuel' : ℕ} {x : α}
  {v : α → Finset α → Option (Result α)} {ys xs : List α} {t' : List (α × ℕ)}

theorem visit_of_limitReached (fuel : ℕ) (x : α) (h : LimitReached limit marked) :
    visit succ limit fuel x marked = some (marked, []) := by
  cases fuel <;> rw [visit, if_pos h]

omit [DecidableEq α] in
theorem not_limitReached_none (marked : Finset α) : ¬ LimitReached none marked := by
  rintro ⟨max, h, -⟩
  exact absurd h (by simp)

theorem visit_eq_some {t : List (α × ℕ)} (hlim : ¬ LimitReached limit marked)
    (h : visit succ limit fuel x marked = some (marked', t)) :
    ∃ fuel' t', fuel = fuel' + 1 ∧
      visitList (visit succ limit fuel') (succ x) marked = some (marked', t') ∧
        t = (x, marked.card) :: t' := by
  cases fuel with
  | zero =>
    -- out of fuel, there is no result
    rw [visit, if_neg hlim] at h
    exact absurd h (by simp)
  | succ fuel =>
    rw [visit, if_neg hlim] at h
    obtain ⟨⟨m, t'⟩, hl, h⟩ := Option.bind_eq_some_iff.mp h
    obtain ⟨rfl, rfl⟩ := Prod.mk.inj (Option.some.inj h)
    exact ⟨fuel, t', rfl, hl, rfl⟩

theorem visitList_cons_eq_some {y : α} {t : List (α × ℕ)}
    (h : visitList v (y :: ys) marked = some (marked', t)) :
    (y ∈ marked ∧ visitList v ys marked = some (marked', t)) ∨
      y ∉ marked ∧ ∃ m t₁ t₂, v y (insert y marked) = some (m, t₁) ∧
        visitList v ys m = some (marked', t₂) ∧ t = t₁ ++ t₂ := by
  unfold visitList at h
  split at h
  · next hy => exact Or.inl ⟨hy, h⟩
  · next hy =>
    obtain ⟨⟨m, t₁⟩, hv, h⟩ := Option.bind_eq_some_iff.mp h
    obtain ⟨⟨m', t₂⟩, hl, h⟩ := Option.bind_eq_some_iff.mp h
    obtain ⟨rfl, rfl⟩ := Prod.mk.inj (Option.some.inj h)
    exact Or.inr ⟨hy, m, t₁, t₂, hv, hl, rfl⟩

theorem visitList_cons_of_mem {y : α} (hy : y ∈ marked) (ys : List α) :
    visitList v (y :: ys) marked = visitList v ys marked := by
  rw [visitList, if_pos hy]

theorem visitList_cons_of_notMem {y : α} {m m' : Finset α} {t : List (α × ℕ)} (hy : y ∉ marked)
    (hv : v y (insert y marked) = some (m, t)) (hl : visitList v ys m = some (m', t')) :
    visitList v (y :: ys) marked = some (m', t ++ t') := by
  rw [visitList, if_neg hy, hv]
  change (visitList v ys m).bind _ = _
  rw [hl]
  rfl

theorem walk_cons {m m' : Finset α} {t : List (α × ℕ)}
    (hv : visit succ limit fuel x marked = some (m, t))
    (hw : walk succ limit fuel xs m = some (m', t')) :
    walk succ limit fuel (x :: xs) marked = some (m', t ++ t') := by
  rw [walk, hv]
  change (walk succ limit fuel xs m).bind _ = _
  rw [hw]
  rfl

/-! ### What is marked -/

/-- How the marks grow from `m` to `m'` when the nodes `ys` are gone through and the nodes of `t`
are entered. -/
structure Marks (succ : α → List α) (ys : List α) (m m' : Finset α) (t : List (α × ℕ)) : Prop where
  subset : m ⊆ m'
  mem_of_mem : ∀ y ∈ ys, y ∈ m'
  succ_mem : ∀ e ∈ t, ∀ c ∈ succ e.1, c ∈ m'
  /-- What is new is one of `ys`, or was marked by an entered node, and there was room for it. -/
  first : ∀ c ∈ m', c ∉ m → c ∈ ys ∨ ∃ e ∈ t, c ∈ succ e.1 ∧ e.2 < m'.card
  card_le : ∀ e ∈ t, m.card ≤ e.2

namespace Marks

variable {ys ys₁ ys₂ : List α} {m m₁ m₂ m' : Finset α} {t t₁ t₂ : List (α × ℕ)}

omit [DecidableEq α] in
theorem of_subset (h : ∀ y ∈ ys, y ∈ m) : Marks succ ys m m [] :=
  ⟨Finset.Subset.refl m, h, by simp, fun c hc hn => absurd hc hn, by simp⟩

theorem insert (y : α) (m : Finset α) : Marks succ [y] m (insert y m) [] := by
  refine ⟨Finset.subset_insert y m, by simp, by simp, fun c hc hn => ?_, by simp⟩
  exact Or.inl (List.mem_singleton.mpr ((Finset.mem_insert.mp hc).resolve_right hn))

omit [DecidableEq α] in
theorem trans (h₁ : Marks succ ys₁ m m₁ t₁) (h₂ : Marks succ ys₂ m₁ m₂ t₂) :
    Marks succ (ys₁ ++ ys₂) m m₂ (t₁ ++ t₂) where
  subset := h₁.subset.trans h₂.subset
  mem_of_mem y hy := by
    rcases List.mem_append.mp hy with hy | hy
    · exact h₂.subset (h₁.mem_of_mem y hy)
    · exact h₂.mem_of_mem y hy
  succ_mem e he c hc := by
    rcases List.mem_append.mp he with he | he
    · exact h₂.subset (h₁.succ_mem e he c hc)
    · exact h₂.succ_mem e he c hc
  first c hc hn := by
    -- marked by the first walk or by the second
    by_cases hc₁ : c ∈ m₁
    · rcases h₁.first c hc₁ hn with hy | ⟨e, he, hce, hlt⟩
      · exact Or.inl (List.mem_append_left _ hy)
      · exact Or.inr ⟨e, List.mem_append_left _ he, hce,
          lt_of_lt_of_le hlt (Finset.card_le_card h₂.subset)⟩
    · rcases h₂.first c hc hc₁ with hy | ⟨e, he, hce, hlt⟩
      · exact Or.inl (List.mem_append_right _ hy)
      · exact Or.inr ⟨e, List.mem_append_right _ he, hce, hlt⟩
  card_le e he := by
    rcases List.mem_append.mp he with he | he
    · exact h₁.card_le e he
    · exact (Finset.card_le_card h₁.subset).trans (h₂.card_le e he)

omit [DecidableEq α] in
theorem enter {x : α} (h : Marks succ (succ x) m m' t) :
    Marks succ [] m m' ((x, m.card) :: t) where
  subset := h.subset
  mem_of_mem y hy := absurd hy List.not_mem_nil
  succ_mem := List.forall_mem_cons.mpr ⟨h.mem_of_mem, h.succ_mem⟩
  first c hc hn := by
    rcases h.first c hc hn with hy | ⟨e, he, hce, hlt⟩
    · -- a new mark makes the set larger
      have hgrow : m.card < m'.card :=
        Finset.card_lt_card ⟨h.subset, fun hsub => hn (hsub hc)⟩
      exact Or.inr ⟨_, List.mem_cons_self, hy, hgrow⟩
    · exact Or.inr ⟨e, List.mem_cons_of_mem _ he, hce, hlt⟩
  card_le := List.forall_mem_cons.mpr ⟨Nat.le_refl _, h.card_le⟩

omit [DecidableEq α] in
/-- From no marks, what is marked at the end are the successors of the entered nodes. -/
theorem mem_iff (h : Marks succ [] ∅ m' t) (c : α) : c ∈ m' ↔ ∃ e ∈ t, c ∈ succ e.1 := by
  constructor
  · intro hc
    obtain hnil | ⟨e, he, hce, -⟩ := h.first c hc (Finset.notMem_empty c)
    · exact absurd hnil List.not_mem_nil
    · exact ⟨e, he, hce⟩
  · rintro ⟨e, he, hce⟩
    exact h.succ_mem e he c hce

end Marks

theorem visitList_marks (hv : ∀ {y m m' t}, v y m = some (m', t) → Marks succ [] m m' t)
    {m m' : Finset α} {t : List (α × ℕ)} (h : visitList v ys m = some (m', t)) :
    Marks succ ys m m' t := by
  induction ys generalizing m t with
  | nil =>
    obtain ⟨rfl, rfl⟩ := Prod.mk.inj (Option.some.inj h)
    exact Marks.of_subset (by simp)
  | cons y ys ih =>
    obtain ⟨hy, hl⟩ | ⟨hy, m₁, t₁, t₂, hv₁, hl, rfl⟩ := visitList_cons_eq_some h
    · -- seen before: it is among the marks already
      have hseen : Marks succ [y] m m [] := Marks.of_subset (by simpa using hy)
      exact hseen.trans (ih hl)
    · -- marked, entered, and then the rest
      exact ((Marks.insert y m).trans (hv hv₁)).trans (ih hl)

theorem visit_marks {m m' : Finset α} {t : List (α × ℕ)}
    (h : visit succ limit fuel x m = some (m', t)) : Marks succ [] m m' t := by
  induction fuel generalizing x m m' t with
  | zero =>
    by_cases hlim : LimitReached limit m
    · rw [visit_of_limitReached _ _ hlim] at h
      obtain ⟨rfl, rfl⟩ := Prod.mk.inj (Option.some.inj h)
      exact Marks.of_subset (by simp)
    · obtain ⟨_, _, hfuel, -⟩ := visit_eq_some hlim h
      exact absurd hfuel (by omega)
  | succ fuel ih =>
    by_cases hlim : LimitReached limit m
    · -- at the limit nothing is marked
      rw [visit_of_limitReached _ _ hlim] at h
      obtain ⟨rfl, rfl⟩ := Prod.mk.inj (Option.some.inj h)
      exact Marks.of_subset (by simp)
    · obtain ⟨fuel', t', hfuel, hl, rfl⟩ := visit_eq_some hlim h
      obtain rfl : fuel = fuel' := by omega
      exact (visitList_marks ih hl).enter

theorem visit_of_succ_nil (hx : succ x = []) {m m' : Finset α} {t : List (α × ℕ)}
    (h : visit succ limit fuel x m = some (m', t)) : m' = m := by
  by_cases hlim : LimitReached limit m
  · rw [visit_of_limitReached _ _ hlim] at h
    exact (Prod.mk.inj (Option.some.inj h)).1.symm
  · obtain ⟨_, _, -, hl, -⟩ := visit_eq_some hlim h
    rw [hx] at hl
    exact (Prod.mk.inj (Option.some.inj hl)).1.symm

theorem walk_cons_eq_some {m m' : Finset α} {t : List (α × ℕ)}
    (h : walk succ limit fuel (x :: xs) m = some (m', t)) :
    ∃ m₁ t₁ t₂, visit succ limit fuel x m = some (m₁, t₁) ∧
      walk succ limit fuel xs m₁ = some (m', t₂) ∧ t = t₁ ++ t₂ := by
  obtain ⟨⟨m₁, t₁⟩, hv, h⟩ := Option.bind_eq_some_iff.mp h
  obtain ⟨⟨m₂, t₂⟩, hw, h⟩ := Option.bind_eq_some_iff.mp h
  obtain ⟨rfl, rfl⟩ := Prod.mk.inj (Option.some.inj h)
  exact ⟨m₁, t₁, t₂, hv, hw, rfl⟩

/-- **What a walk marks** are the successors of the nodes it enters. -/
theorem walk_marks {m m' : Finset α} {t : List (α × ℕ)}
    (h : walk succ limit fuel xs m = some (m', t)) : Marks succ [] m m' t := by
  induction xs generalizing m t with
  | nil =>
    obtain ⟨rfl, rfl⟩ := Prod.mk.inj (Option.some.inj h)
    exact Marks.of_subset (by simp)
  | cons x xs ih =>
    obtain ⟨m₁, t₁, t₂, hv, hw, rfl⟩ := walk_cons_eq_some h
    exact (visit_marks hv).trans (ih hw)

theorem walk_enters {m m' : Finset α} {t : List (α × ℕ)}
    (h : walk succ none fuel xs m = some (m', t)) (hx : x ∈ xs) : ∃ k, (x, k) ∈ t := by
  induction xs generalizing m t with
  | nil => exact absurd hx List.not_mem_nil
  | cons x' xs ih =>
    obtain ⟨m₁, t₁, t₂, hv, hw, rfl⟩ := walk_cons_eq_some h
    rcases List.mem_cons.mp hx with rfl | hx
    · obtain ⟨_, t', -, -, rfl⟩ := visit_eq_some (not_limitReached_none m) hv
      exact ⟨m.card, List.mem_append_left _ List.mem_cons_self⟩
    · obtain ⟨k, hk⟩ := ih hw hx
      exact ⟨k, List.mem_append_right _ hk⟩

/-! ### The limit -/

/-- How the marks of a walk with limit `max` compare with those of the walk without: they are the
same, until the limit is reached. -/
def Agree (max : ℕ) (mL mU : Finset α) : Prop := mL = mU ∨ max ≤ mL.card ∧ mL ⊆ mU

theorem visitList_limited {vL vU : α → Finset α → Option (Result α)}
    (hfull : ∀ y m, max ≤ m.card → vL y m = some (m, []))
    (hv : ∀ {y mL mU mU' t}, Agree max mL mU → vU y mU = some (mU', t) →
      ∃ mL', vL y mL = some (mL', t.filter (·.2 < max)) ∧ Agree max mL' mU') {mL mU mU' : Finset α}
    {t : List (α × ℕ)} (hagree : Agree max mL mU) (h : visitList vU ys mU = some (mU', t)) :
    ∃ mL', visitList vL ys mL = some (mL', t.filter (·.2 < max)) ∧ Agree max mL' mU' := by
  induction ys generalizing mL mU t with
  | nil =>
    obtain ⟨rfl, rfl⟩ := Prod.mk.inj (Option.some.inj h)
    exact ⟨mL, rfl, hagree⟩
  | cons y ys ih =>
    obtain ⟨hy, hl⟩ | ⟨hy, m₁, t₁, t₂, hv₁, hl, rfl⟩ := visitList_cons_eq_some h
    · by_cases hyL : y ∈ mL
      · obtain ⟨mL', hL, hagree'⟩ := ih hagree hl
        exact ⟨mL', by rw [visitList_cons_of_mem hyL, hL], hagree'⟩
      · -- marked by a node that the limited walk did not enter: marked now, and not entered
        obtain rfl | ⟨hmax, hsub⟩ := hagree
        · exact absurd hy hyL
        have hmax' : max ≤ (insert y mL).card :=
          hmax.trans (Finset.card_le_card (Finset.subset_insert y mL))
        obtain ⟨mL', hL, hagree'⟩ :=
          ih (Or.inr ⟨hmax', Finset.insert_subset hy hsub⟩) hl
        exact ⟨mL', visitList_cons_of_notMem hyL (hfull y _ hmax') hL, hagree'⟩
    · -- not marked in the walk without a limit, so in neither
      have hyL : y ∉ mL := by
        obtain rfl | ⟨-, hsub⟩ := hagree
        · exact hy
        · exact fun hyL => hy (hsub hyL)
      have hins : Agree max (insert y mL) (insert y mU) := by
        obtain rfl | ⟨hmax, hsub⟩ := hagree
        · exact Or.inl rfl
        · exact Or.inr ⟨hmax.trans (Finset.card_le_card (Finset.subset_insert y mL)),
            Finset.insert_subset_insert y hsub⟩
      obtain ⟨mL₁, hL₁, hagree₁⟩ := hv hins hv₁
      obtain ⟨mL', hL, hagree'⟩ := ih hagree₁ hl
      refine ⟨mL', ?_, hagree'⟩
      rw [List.filter_append]
      exact visitList_cons_of_notMem hyL hL₁ hL

theorem visit_limited {mL mU mU' : Finset α} {t : List (α × ℕ)} (hagree : Agree max mL mU)
    (h : visit succ none fuel x mU = some (mU', t)) :
    ∃ mL', visit succ (some max) fuel x mL = some (mL', t.filter (·.2 < max)) ∧
      Agree max mL' mU' := by
  have hfull : ∀ fuel (y : α) m, max ≤ m.card → visit succ (some max) fuel y m = some (m, []) :=
    fun fuel y m hmax => visit_of_limitReached fuel y ⟨max, rfl, hmax⟩
  induction fuel generalizing x mL mU mU' t with
  | zero =>
    -- without a limit, and without fuel, there is no answer
    obtain ⟨_, _, hfuel, -⟩ := visit_eq_some (not_limitReached_none mU) h
    exact absurd hfuel (by omega)
  | succ fuel ih =>
    have hmarks := visit_marks h
    obtain ⟨fuel', t', hfuel, hl, rfl⟩ := visit_eq_some (not_limitReached_none mU) h
    obtain rfl : fuel = fuel' := by omega
    by_cases hmax : max ≤ mL.card
    · -- nothing is entered any more, and the walk without a limit is past it too
      have hsub : mL ⊆ mU := by
        obtain rfl | ⟨-, hsub⟩ := hagree
        exacts [Finset.Subset.refl _, hsub]
      have hempty : ((x, mU.card) :: t').filter (·.2 < max) = [] := by
        rw [List.filter_eq_nil_iff]
        intro e he
        have hle := hmarks.card_le e he
        have hcard := Finset.card_le_card hsub
        simp only [decide_eq_true_eq]
        omega
      exact ⟨mL, by rw [hfull _ _ _ hmax, hempty], Or.inr ⟨hmax, hsub.trans hmarks.subset⟩⟩
    · -- below the limit the two walks are the same so far
      obtain rfl : mL = mU := by
        obtain heq | ⟨hmax', -⟩ := hagree
        exacts [heq, absurd hmax' hmax]
      have hlim : ¬ LimitReached (some max) mL := by
        rintro ⟨max', hmem, hle⟩
        obtain rfl := Option.some.inj hmem
        exact hmax hle
      obtain ⟨mL', hL, hagree'⟩ := visitList_limited (hfull fuel) ih (Or.inl rfl) hl
      refine ⟨mL', ?_, hagree'⟩
      rw [visit, if_neg hlim, hL, List.filter_cons_of_pos (by simpa using hmax)]
      rfl

/-- **A limited walk** enters what the walk without a limit enters before it has made that many
marks. -/
theorem walk_limited {mL mU mU' : Finset α} {t : List (α × ℕ)} (hagree : Agree max mL mU)
    (h : walk succ none fuel xs mU = some (mU', t)) :
    ∃ mL', walk succ (some max) fuel xs mL = some (mL', t.filter (·.2 < max)) := by
  induction xs generalizing mL mU t with
  | nil =>
    obtain ⟨rfl, rfl⟩ := Prod.mk.inj (Option.some.inj h)
    exact ⟨mL, rfl⟩
  | cons x xs ih =>
    obtain ⟨m₁, t₁, t₂, hv, hw, rfl⟩ := walk_cons_eq_some h
    obtain ⟨mL₁, hL₁, hagree₁⟩ := visit_limited hagree hv
    obtain ⟨mL', hL⟩ := ih hagree₁ hw
    rw [List.filter_append]
    exact ⟨mL', walk_cons hL₁ hL⟩

/-! ### Enough fuel -/

theorem visitList_mono {v' : α → Finset α → Option (Result α)}
    (hv : ∀ {y m r}, v y m = some r → v' y m = some r) {m : Finset α} {r : Result α}
    (h : visitList v ys m = some r) : visitList v' ys m = some r := by
  induction ys generalizing m r with
  | nil => exact h
  | cons y ys ih =>
    obtain ⟨m', t⟩ := r
    obtain ⟨hy, hl⟩ | ⟨hy, m₁, t₁, t₂, hv₁, hl, rfl⟩ := visitList_cons_eq_some h
    · rw [visitList_cons_of_mem hy, ih hl]
    · exact visitList_cons_of_notMem hy (hv hv₁) (ih hl)

theorem visit_mono (hle : fuel ≤ fuel') {m : Finset α} {r : Result α}
    (h : visit succ limit fuel x m = some r) : visit succ limit fuel' x m = some r := by
  induction fuel generalizing fuel' x m r with
  | zero =>
    by_cases hlim : LimitReached limit m
    · rw [visit_of_limitReached _ _ hlim] at h ⊢
      exact h
    · obtain ⟨m', t⟩ := r
      obtain ⟨_, _, hfuel, -⟩ := visit_eq_some hlim h
      exact absurd hfuel (by omega)
  | succ fuel ih =>
    by_cases hlim : LimitReached limit m
    · rw [visit_of_limitReached _ _ hlim] at h ⊢
      exact h
    · obtain ⟨m', t⟩ := r
      obtain ⟨k, t', hfuel, hl, rfl⟩ := visit_eq_some hlim h
      obtain rfl : fuel = k := by omega
      -- both walks have one level less below
      obtain ⟨k', rfl⟩ : ∃ k', fuel' = k' + 1 := ⟨fuel' - 1, by omega⟩
      rw [visit, if_neg hlim, visitList_mono (fun hv => ih (by omega) hv) hl]
      rfl

theorem walk_mono (hle : fuel ≤ fuel') {m : Finset α} {r : Result α}
    (h : walk succ limit fuel xs m = some r) : walk succ limit fuel' xs m = some r := by
  induction xs generalizing m r with
  | nil => exact h
  | cons x xs ih =>
    obtain ⟨m', t⟩ := r
    obtain ⟨m₁, t₁, t₂, hv, hw, rfl⟩ := walk_cons_eq_some h
    exact walk_cons (visit_mono hle hv) (ih hw)

/-- A list of nodes can be gone through when each of them can, with fewer nodes left to mark. -/
theorem exists_visitList (hv : ∀ y m, (V \ m).card < fuel → ∃ r, v y m = some r)
    (hsub : ∀ {y m m' t}, v y m = some (m', t) → m ⊆ m') (hys : ∀ y ∈ ys, y ∈ V) {m : Finset α}
    (hm : (V \ m).card ≤ fuel) : ∃ r, visitList v ys m = some r := by
  induction ys generalizing m with
  | nil => exact ⟨_, rfl⟩
  | cons y ys ih =>
    have hys' : ∀ z ∈ ys, z ∈ V := fun z hz => hys z (List.mem_cons_of_mem _ hz)
    by_cases hy : y ∈ m
    · obtain ⟨r, hr⟩ := ih hys' hm
      exact ⟨r, by rw [visitList_cons_of_mem hy, hr]⟩
    · -- marking `y` leaves fewer nodes to mark
      have hlt : (V \ insert y m).card < (V \ m).card := by
        refine Finset.card_lt_card
          ⟨Finset.sdiff_subset_sdiff le_rfl (Finset.subset_insert y m), fun hle => ?_⟩
        have hmem := hle (Finset.mem_sdiff.mpr ⟨hys y List.mem_cons_self, hy⟩)
        exact (Finset.mem_sdiff.mp hmem).2 (Finset.mem_insert_self y m)
      obtain ⟨⟨m₁, t₁⟩, hr₁⟩ := hv y (insert y m) (lt_of_lt_of_le hlt hm)
      -- and marks are never taken back
      have hle : (V \ m₁).card ≤ (V \ insert y m).card :=
        Finset.card_le_card (Finset.sdiff_subset_sdiff le_rfl (hsub hr₁))
      obtain ⟨⟨m₂, t₂⟩, hr₂⟩ := ih hys' (m := m₁) (by omega)
      exact ⟨_, visitList_cons_of_notMem hy hr₁ hr₂⟩

/-- The depth of the recursion is bounded by the nodes that are not marked yet. -/
theorem exists_visit (hV : ∀ x, ∀ y ∈ succ x, y ∈ V) (x : α) (m : Finset α)
    (hfuel : (V \ m).card < fuel) : ∃ r, visit succ limit fuel x m = some r := by
  induction fuel generalizing x m with
  | zero => exact absurd hfuel (Nat.not_lt_zero _)
  | succ fuel ih =>
    by_cases hlim : LimitReached limit m
    · exact ⟨_, visit_of_limitReached _ _ hlim⟩
    obtain ⟨r, hr⟩ : ∃ r, visitList (visit succ limit fuel) (succ x) m = some r :=
      exists_visitList ih (fun h => (visit_marks h).subset) (hV x) (by omega)
    exact ⟨_, by rw [visit, if_neg hlim, hr]; rfl⟩

/-- **A walk over a finite graph ends.** -/
theorem exists_walk (hV : ∀ x, ∀ y ∈ succ x, y ∈ V) (hfuel : V.card < fuel) (xs : List α)
    (m : Finset α) : ∃ r, walk succ limit fuel xs m = some r := by
  induction xs generalizing m with
  | nil => exact ⟨_, rfl⟩
  | cons x xs ih =>
    have hcard : (V \ m).card ≤ V.card := Finset.card_le_card Finset.sdiff_subset
    obtain ⟨⟨m₁, t₁⟩, hv⟩ : ∃ r, visit succ limit fuel x m = some r :=
      exists_visit hV x m (by omega)
    obtain ⟨r, hr⟩ := ih m₁
    exact ⟨_, walk_cons hv hr⟩

end DepthFirst
