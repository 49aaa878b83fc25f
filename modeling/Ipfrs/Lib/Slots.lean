import Mathlib.Data.List.Basic

/-!
# Slots that are filled one by one

A list of options, each of which is filled at most once, and the number of those that are filled.

* `filled_set` — filling an empty slot adds one to the number;
* `filled_eq_length_iff` — the number reaches the length when no slot is empty;
* `eq_map_some` — slots that are filled with the elements of a list then hold that list.
-/

namespace Slots

variable {α : Type*} {l : List (Option α)} {l' : List α} {i : ℕ} {a : α}

/-- The number of slots that are filled. -/
def filled (l : List (Option α)) : ℕ := l.countP Option.isSome

@[simp] theorem filled_replicate_none (n : ℕ) :
    filled (List.replicate n (none : Option α)) = 0 := by
  rw [filled, List.countP_replicate]
  rfl

theorem filled_set (h : l[i]? = some none) : filled (l.set i (some a)) = filled l + 1 := by
  induction l generalizing i with
  | nil => cases h
  | cons x l ih =>
    cases i with
    -- the slot is the first one
    | zero =>
      obtain rfl : x = none := Option.some.inj h
      rw [List.set_cons_zero, filled, filled, List.countP_cons_of_pos rfl,
        List.countP_cons_of_neg Bool.false_ne_true]
    | succ i =>
      have hrest := ih (i := i) h
      rw [filled, filled] at hrest
      rw [List.set_cons_succ, filled, filled, List.countP_cons, List.countP_cons, hrest]
      exact Nat.add_right_comm ..

/-- All slots are filled when there are as many filled ones as slots. -/
theorem filled_eq_length_iff : filled l = l.length ↔ ∀ i < l.length, l[i]? ≠ some none := by
  rw [filled, List.countP_eq_length]
  constructor
  · intro h i _ hnone
    exact Bool.false_ne_true (h none (List.mem_of_getElem? hnone))
  · intro h x hx
    obtain ⟨i, hi, hxi⟩ := List.getElem_of_mem hx
    cases x with
    | some a => rfl
    | none =>
      refine absurd ?_ (h i hi)
      rw [List.getElem?_eq_getElem hi, hxi]

/-- **Slots that hold the elements of a list**, all of them filled. -/
theorem eq_map_some (hlength : l.length = l'.length)
    (hslots : ∀ (i : ℕ) (a : α), l[i]? = some (some a) → l'[i]? = some a)
    (hfull : ∀ i < l.length, l[i]? ≠ some none) : l = l'.map some := by
  refine List.ext_getElem? fun i => ?_
  rw [List.getElem?_map]
  obtain hi | hi := Nat.lt_or_ge i l.length
  · cases hslot : l[i]? with
    | none => exact absurd (List.getElem?_eq_none_iff.mp hslot) (Nat.not_le_of_lt hi)
    | some x =>
      cases x with
      -- no slot is empty
      | none => exact absurd hslot (hfull i hi)
      | some a => rw [hslots i a hslot, Option.map_some]
  · rw [List.getElem?_eq_none hi, List.getElem?_eq_none (hlength ▸ hi), Option.map_none]

end Slots
