import Mathlib.Data.List.MinMax
import Mathlib.Data.List.Nodup

/-!
# Knockout

Candidates arrive one by one, and each is compared with the one held so far; a function
`f : α → α → α` says which of the two stays. The one that is held in the end may depend on the order
of arrival, since nothing is asked of `f` but that it returns one of its arguments (`Selective`).

`orderIndependent_iff` says exactly when it does not: some candidate beats every other, from either
side (`Beats`). Such a candidate stays once it is held, whatever came before it; conversely, a
candidate that is held under every order is held when any other one arrives last or first.

For a choice by a linear order there always is such a candidate (`exists_beats_of_key`).
-/

namespace Knockout

variable {α : Type*} {f : α → α → α} {l l' : List α} {a b w v : α} {acc : Option α}

/-- The choice returns one of the two. -/
def Selective (f : α → α → α) : Prop := ∀ a b, f a b = a ∨ f a b = b

/-- `w` stays, whether it is held or it arrives. -/
def Beats (f : α → α → α) (w v : α) : Prop := f w v = w ∧ f v w = w

/-- What is held after `v` has arrived. -/
def absorb (f : α → α → α) : Option α → α → α
  | none, v => v
  | some held, v => f held v

/-- What is held in the end. -/
def knockout (f : α → α → α) (acc : Option α) (l : List α) : Option α :=
  l.foldl (fun acc v => some (absorb f acc v)) acc

@[simp] theorem knockout_cons (f : α → α → α) (acc : Option α) (v : α) (l : List α) :
    knockout f acc (v :: l) = knockout f (some (absorb f acc v)) l := rfl

theorem knockout_append (f : α → α → α) (acc : Option α) (l l' : List α) :
    knockout f acc (l ++ l') = knockout f (knockout f acc l) l' :=
  List.foldl_append

theorem knockout_concat (f : α → α → α) (acc : Option α) (l : List α) (v : α) :
    knockout f acc (l ++ [v]) = some (absorb f (knockout f acc l) v) :=
  knockout_append f acc l [v]

theorem mem_of_knockout_eq_some (hf : Selective f) (h : knockout f acc l = some w) :
    acc = some w ∨ w ∈ l := by
  induction l generalizing acc with
  | nil => exact Or.inl h
  | cons v l ih =>
    obtain hheld | hmem := ih h
    · -- it was chosen when `v` arrived
      have habsorb : absorb f acc v = w := Option.some.inj hheld
      cases acc with
      | none => exact Or.inr (habsorb ▸ List.mem_cons_self)
      | some held =>
        obtain hstay | hgo := hf held v
        · exact Or.inl (by rw [← habsorb, absorb, hstay])
        · right
          rw [absorb, hgo] at habsorb
          rw [habsorb]
          exact List.mem_cons_self
    · exact Or.inr (List.mem_cons_of_mem v hmem)

/-! ### A candidate that beats every other -/

theorem knockout_some_of_beats (hf : Selective f) (h : ∀ v ∈ l, v ≠ w → Beats f w v) :
    knockout f (some w) l = some w := by
  induction l with
  | nil => rfl
  | cons v l ih =>
    obtain ⟨hv, hl⟩ := List.forall_mem_cons.mp h
    have hstay : f w v = w := by
      by_cases hne : v = w
      · subst hne
        exact (hf v v).elim id id
      · exact (hv hne).1
    rw [knockout_cons, absorb, hstay]
    exact ih hl

/-- **A candidate that beats every other is held in the end.** -/
theorem knockout_eq_of_beats (hf : Selective f) (hw : w ∈ l)
    (hacc : ∀ v, acc = some v → v ≠ w → Beats f w v) (h : ∀ v ∈ l, v ≠ w → Beats f w v) :
    knockout f acc l = some w := by
  induction l generalizing acc with
  | nil => exact absurd hw List.not_mem_nil
  | cons v l ih =>
    obtain ⟨hv, hl⟩ := List.forall_mem_cons.mp h
    rw [knockout_cons]
    by_cases hne : v = w
    · -- its own arrival
      subst hne
      have hwins : absorb f acc v = v := by
        cases acc with
        | none => rfl
        | some held =>
          by_cases heq : held = v
          · rw [heq]
            exact (hf v v).elim id id
          · exact (hacc held rfl heq).2
      rw [hwins]
      exact knockout_some_of_beats hf hl
    · refine ih ((List.mem_cons.mp hw).resolve_left (Ne.symm hne)) (fun u hu huw => ?_) hl
      obtain rfl := Option.some.inj hu
      cases acc with
      | none => exact hv hne
      | some held =>
        obtain hstay | hgo := hf held v
        · rw [absorb, hstay] at huw ⊢
          exact hacc held rfl huw
        · rw [absorb, hgo]
          exact hv hne

/-- One that is held when `v` arrives last beats `v` from its side. -/
theorem choice_eq_of_last (hf : Selective f) (hne : v ≠ w)
    (h : knockout f none (l ++ [v]) = some w) : f w v = w := by
  rw [knockout_concat] at h
  have habsorb := Option.some.inj h
  cases hheld : knockout f none l with
  | none =>
    rw [hheld] at habsorb
    exact absurd habsorb hne
  | some held =>
    -- `v` is not held, so the one before has stayed
    rw [hheld, absorb] at habsorb
    obtain hstay | hgo := hf held v
    · rw [hstay] at habsorb
      rw [← habsorb]
      exact hstay
    · rw [hgo] at habsorb
      exact absurd habsorb hne

/-- One that is held in the end although it arrives second beats the first. -/
theorem choice_eq_of_second (hf : Selective f) (hfresh : w ∉ l)
    (h : knockout f none (v :: w :: l) = some w) : f v w = w := by
  rw [knockout_cons, knockout_cons, absorb, absorb] at h
  obtain hheld | hmem := mem_of_knockout_eq_some hf h
  · exact Option.some.inj hheld
  · exact absurd hmem hfresh

/-- **When the order of arrival does not matter.** -/
theorem orderIndependent_iff (hf : Selective f) (hnodup : l.Nodup) :
    (∀ l₁ l₂, l₁.Perm l → l₂.Perm l → knockout f none l₁ = knockout f none l₂) ↔
      l = [] ∨ ∃ w ∈ l, ∀ v ∈ l, v ≠ w → Beats f w v := by
  classical
  constructor
  · intro h
    cases hheld : knockout f none l with
    | none =>
      cases l with
      | nil => exact Or.inl rfl
      | cons v l =>
        have hmem : knockout f none (l ++ [v]) = none := by
          rw [h _ _ (List.perm_append_singleton v l) (List.Perm.refl _), hheld]
        rw [knockout_concat] at hmem
        exact absurd hmem (Option.some_ne_none _)
    | some w =>
      obtain hnone | hw := mem_of_knockout_eq_some hf hheld
      · exact absurd hnone (by simp)
      refine Or.inr ⟨w, hw, fun v hv hne => ⟨?_, ?_⟩⟩
      · -- `v` last
        refine choice_eq_of_last (l := l.erase v) hf hne ?_
        rw [← hheld]
        refine h _ _ ?_ (List.Perm.refl _)
        exact (List.perm_append_singleton v _).trans (List.perm_cons_erase hv).symm
      · -- `v` first and `w` second
        have hwerase : w ∈ l.erase v := (List.mem_erase_of_ne (Ne.symm hne)).mpr hw
        refine choice_eq_of_second (l := (l.erase v).erase w) hf ?_ ?_
        · exact (hnodup.erase v).not_mem_erase
        · rw [← hheld]
          refine h _ _ ?_ (List.Perm.refl _)
          exact ((List.perm_cons_erase hwerase).symm.cons v).trans (List.perm_cons_erase hv).symm
  · rintro (rfl | ⟨w, hw, hbeats⟩) l₁ l₂ h₁ h₂
    · rw [h₁.eq_nil, h₂.eq_nil]
    · have hheld : ∀ l', l'.Perm l → knockout f none l' = some w := by
        intro l' hl'
        refine knockout_eq_of_beats hf (hl'.mem_iff.mpr hw) (fun v hv => ?_) fun v hv => ?_
        · exact absurd hv (by simp)
        · exact hbeats v (hl'.mem_iff.mp hv)
      rw [hheld l₁ h₁, hheld l₂ h₂]

/-! ### A choice by a linear order -/

/-- A choice by a key that no two candidates share has a candidate that beats every other. -/
theorem exists_beats_of_key {κ : Type*} [LinearOrder κ] (key : α → κ)
    (hinj : ∀ a ∈ l, ∀ b ∈ l, key a = key b → a = b)
    (hf : ∀ a b, key b < key a → Beats f a b) (hl : l ≠ []) :
    ∃ w ∈ l, ∀ v ∈ l, v ≠ w → Beats f w v := by
  have hne : List.argmax key l ≠ none := mt List.argmax_eq_none.mp hl
  obtain ⟨w, hw⟩ := Option.ne_none_iff_exists'.mp hne
  have hmem : w ∈ l := List.argmax_mem hw
  refine ⟨w, hmem, fun v hv hne => hf w v ?_⟩
  refine lt_of_le_of_ne (List.le_of_mem_argmax hv hw) fun heq => ?_
  exact hne (hinj v hv w hmem heq)

end Knockout
