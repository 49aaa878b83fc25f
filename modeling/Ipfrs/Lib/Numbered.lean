import Mathlib.Data.List.Nodup
import Mathlib.Data.List.Range

/-!
# Lists with consecutive numbers

A list whose elements carry the numbers `k`, `k + 1` and so on (`Numbered`): an element is found by
its number with the index arithmetic that such lists are for, a suffix of the list is numbered as
well, and cutting the list at an index is the same as cutting it at a number.
-/

namespace Ipfrs

variable {α : Type*} {num : α → ℕ} {k n : ℕ} {l l' : List α} {a : α}

/-- The elements have the numbers from `k` on, in order. -/
def Numbered (num : α → ℕ) (k : ℕ) (l : List α) : Prop :=
  l.map num = List.range' k l.length

theorem numbered_cons : Numbered num k (a :: l) ↔ num a = k ∧ Numbered num (k + 1) l := by
  unfold Numbered
  rw [List.map_cons, List.length_cons, List.range'_succ, List.cons.injEq]

theorem Numbered.concat (h : Numbered num k l) (ha : num a = k + l.length) :
    Numbered num k (l ++ [a]) := by
  unfold Numbered at h ⊢
  rw [List.map_append, h, List.length_append, ← List.range'_append_1, List.map_singleton, ha]
  rfl

theorem Numbered.of_append (h : Numbered num k (l' ++ l)) : Numbered num (k + l'.length) l := by
  induction l' generalizing k with
  | nil => exact h
  | cons b l' ih =>
    have htail := ih (numbered_cons.mp h).2
    rw [Nat.add_assoc, Nat.add_comm 1] at htail
    exact htail

theorem Numbered.mem (h : Numbered num k l) (ha : a ∈ l) :
    k ≤ num a ∧ num a < k + l.length := by
  have hmem : num a ∈ List.range' k l.length := h ▸ List.mem_map_of_mem ha
  exact List.mem_range'_1.mp hmem

theorem Numbered.getElem? {i : ℕ} (h : Numbered num k l) (ha : l[i]? = some a) : num a = k + i := by
  have hi : i < l.length := (List.getElem?_eq_some_iff.mp ha).1
  have hnum : (l.map num)[i]? = some (num a) := by
    rw [List.getElem?_map, ha]
    rfl
  rw [h, List.getElem?_range' hi, Nat.one_mul] at hnum
  exact (Option.some.inj hnum).symm

/-- **An element is at the index that its number gives.** -/
theorem Numbered.getElem?_iff (h : Numbered num k l) (hn : k ≤ n) :
    l[n - k]? = some a ↔ a ∈ l ∧ num a = n := by
  constructor
  · intro ha
    have hnum := h.getElem? ha
    exact ⟨List.mem_of_getElem? ha, by omega⟩
  · rintro ⟨ha, rfl⟩
    obtain ⟨i, hi⟩ := List.mem_iff_getElem?.mp ha
    have hnum := h.getElem? hi
    rw [hnum, Nat.add_sub_cancel_left]
    exact hi

theorem Numbered.nodup (h : Numbered num k l) : l.Nodup := by
  have hnodup : (l.map num).Nodup := by
    rw [h]
    exact List.nodup_range'
  exact hnodup.of_map

/-- **To leave out the first `n` elements** is to keep the numbers from `k + n` on. -/
theorem Numbered.drop_eq_filter (h : Numbered num k l) (n : ℕ) :
    l.drop n = l.filter fun a => k + n ≤ num a := by
  induction l generalizing k n with
  | nil => rw [List.drop_nil, List.filter_nil]
  | cons a l ih =>
    obtain ⟨ha, htail⟩ := numbered_cons.mp h
    cases n with
    | zero =>
      refine (List.filter_eq_self.mpr fun b hb => ?_).symm
      exact decide_eq_true (h.mem hb).1
    | succ n =>
      have hfail : ¬ k + (n + 1) ≤ num a := by omega
      rw [List.drop_succ_cons, ih htail, List.filter_cons_of_neg (by simpa using hfail)]
      congr 1
      funext b
      rw [Nat.add_assoc, Nat.add_comm 1]

/-- What is in a suffix of a numbered list is not in front of it. -/
theorem Numbered.filter_suffix [DecidableEq α] (h : Numbered num k (l' ++ l)) :
    (l' ++ l).filter (· ∈ l) = l := by
  have hdisjoint := List.disjoint_of_nodup_append h.nodup
  rw [List.filter_append, List.filter_eq_nil_iff.mpr fun a ha => ?_, List.nil_append,
    List.filter_eq_self.mpr fun a ha => decide_eq_true ha]
  rw [decide_eq_true_eq]
  exact hdisjoint ha

end Ipfrs
