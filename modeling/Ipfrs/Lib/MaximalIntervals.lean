import Mathlib.Data.List.Basic
import Mathlib.Data.Set.Basic

/-!
# Maximal intervals

The maximal intervals of `{0, …, n - 1}` on which a predicate holds, and the scan that finds them
from left to right with one interval open at most.

* `Scanned` — what the scan knows after the first `k` positions;
* `Scanned.enter`, `Scanned.stay`, `Scanned.leave`, `Scanned.skip` — what the next position adds;
* `Scanned.finish` — at the end, the intervals found are the maximal ones, in order.
-/

/-- The numbers from `start` to before `stop`. -/
@[ext]
structure IndexRange where
  start : ℕ
  stop : ℕ
  deriving DecidableEq, Repr

namespace IndexRange

instance : Membership ℕ IndexRange where
  mem I i := I.start ≤ i ∧ i < I.stop

theorem mem_def {I : IndexRange} {i : ℕ} : i ∈ I ↔ I.start ≤ i ∧ i < I.stop := Iff.rfl

instance (I : IndexRange) (i : ℕ) : Decidable (i ∈ I) := inferInstanceAs (Decidable (_ ∧ _))

/-- A nonempty interval below `n` on which `P` holds, and which no neighbour extends. -/
structure IsMaximal (P : ℕ → Prop) (n : ℕ) (I : IndexRange) : Prop where
  nonempty : I.start < I.stop
  le : I.stop ≤ n
  holds : ∀ i ∈ I, P i
  left : ∀ i, i + 1 = I.start → ¬ P i
  right : I.stop < n → ¬ P I.stop

/-- The scan after `k` positions: the maximal intervals that end before `k`, in order, and the start
of the one that reaches `k`. -/
structure Scanned (P : ℕ → Prop) (k : ℕ) (closed : List IndexRange) (opened : Option ℕ) : Prop where
  closed_iff : ∀ I, I ∈ closed ↔ IsMaximal P k I ∧ I.stop < k
  opened_iff : ∀ s, opened = some s ↔ IsMaximal P k ⟨s, k⟩
  ordered : closed.Pairwise fun I J => I.stop < J.start
  covered : ∀ i < k, P i → (∃ I ∈ closed, i ∈ I) ∨ ∃ s, opened = some s ∧ s ≤ i

/-- The intervals found, with the one that is open at the end. -/
def found (closed : List IndexRange) (opened : Option ℕ) (n : ℕ) : List IndexRange :=
  match opened with
  | some s => closed ++ [⟨s, n⟩]
  | none => closed

variable {P : ℕ → Prop} {k n s : ℕ} {closed : List IndexRange} {opened : Option ℕ} {I : IndexRange}

theorem Scanned.zero : Scanned P 0 [] none where
  closed_iff I := by simp
  opened_iff s := by
    refine ⟨fun h => (by cases h), fun h => ?_⟩
    exact absurd h.nonempty (Nat.not_lt_zero s)
  ordered := List.Pairwise.nil
  covered i hi := absurd hi (Nat.not_lt_zero i)

/-- An interval that ends before `k` is maximal for one more position as well. -/
theorem isMaximal_succ_iff (hlt : I.stop < k) : IsMaximal P (k + 1) I ↔ IsMaximal P k I :=
  ⟨fun h => ⟨h.nonempty, hlt.le, h.holds, h.left, fun hk => h.right (Nat.lt_succ_of_lt hk)⟩,
    fun h => ⟨h.nonempty, h.le.trans k.le_succ, h.holds, h.left, fun _ => h.right hlt⟩⟩

theorem mem_succ {i : ℕ} (h : i ∈ (⟨s, k + 1⟩ : IndexRange)) :
    i ∈ (⟨s, k⟩ : IndexRange) ∨ i = k := by
  obtain ⟨hs, hk⟩ := h
  obtain hlt | heq := Nat.lt_succ_iff_lt_or_eq.mp hk
  · exact .inl ⟨hs, hlt⟩
  · exact .inr heq

/-- No interval that is maximal so far and ends at `k` goes beyond a position where `P` holds. -/
theorem closed_iff_of_holds (h : Scanned P k closed opened) (hk : P k) (I : IndexRange) :
    I ∈ closed ↔ IsMaximal P (k + 1) I ∧ I.stop < k + 1 := by
  rw [h.closed_iff]
  constructor
  · rintro ⟨hmax, hlt⟩
    exact ⟨(isMaximal_succ_iff hlt).mpr hmax, Nat.lt_succ_of_lt hlt⟩
  · rintro ⟨hmax, hlt⟩
    have hne : I.stop ≠ k := by
      rintro rfl
      exact hmax.right hlt hk
    have hlt' : I.stop < k := lt_of_le_of_ne (Nat.lt_succ_iff.mp hlt) hne
    exact ⟨(isMaximal_succ_iff hlt').mp hmax, hlt'⟩

/-- **An interval begins** where `P` holds and none is open. -/
theorem Scanned.enter (h : Scanned P k closed none) (hk : P k) :
    Scanned P (k + 1) closed (some k) where
  closed_iff := closed_iff_of_holds h hk
  opened_iff s := by
    constructor
    · rintro ⟨⟩
      refine ⟨k.lt_succ_self, le_rfl, fun i hi => ?_, fun i hi hPi => ?_, fun hlt => ?_⟩
      · obtain rfl : i = k := le_antisymm (Nat.lt_succ_iff.mp hi.2) hi.1
        exact hk
      · -- the position before `k` would be in an interval that reaches `k`
        have hik : i + 1 = k := hi
        obtain ⟨J, hJ, hmem⟩ | ⟨s, hs, -⟩ := h.covered i (by omega) hPi
        · obtain ⟨hmax, hlt⟩ := (h.closed_iff J).mp hJ
          have hstop : i < J.stop := hmem.2
          omega
        · cases hs
      · exact absurd hlt (lt_irrefl _)
    · intro hmax
      congr 1
      by_contra hne
      have hlt : s < k := lt_of_le_of_ne (Nat.lt_succ_iff.mp hmax.nonempty) fun e => hne e.symm
      have hopen : IsMaximal P k ⟨s, k⟩ :=
        ⟨hlt, le_rfl, fun i hi => hmax.holds i ⟨hi.1, hi.2.trans k.lt_succ_self⟩, hmax.left,
          fun h => absurd h (lt_irrefl _)⟩
      exact absurd ((h.opened_iff s).mpr hopen) (by simp)
  ordered := h.ordered
  covered i hi hPi := by
    obtain hlt | rfl := Nat.lt_succ_iff_lt_or_eq.mp hi
    · obtain hclosed | ⟨s, hs, -⟩ := h.covered i hlt hPi
      · exact .inl hclosed
      · cases hs
    · exact .inr ⟨i, rfl, le_rfl⟩

/-- **The open interval goes on** where `P` holds. -/
theorem Scanned.stay (h : Scanned P k closed (some s)) (hk : P k) :
    Scanned P (k + 1) closed (some s) where
  closed_iff := closed_iff_of_holds h hk
  opened_iff t := by
    have hopen := (h.opened_iff s).mp rfl
    constructor
    · rintro ⟨⟩
      refine ⟨hopen.nonempty.trans k.lt_succ_self, le_rfl, fun i hi => ?_, hopen.left,
        fun h => absurd h (lt_irrefl _)⟩
      obtain hi | rfl := mem_succ hi
      · exact hopen.holds i hi
      · exact hk
    · intro hmax
      -- neither of two intervals that reach `k + 1` can begin inside the other one
      have hs : s < k := hopen.nonempty
      obtain hlt | heq | hgt := lt_trichotomy s t
      · obtain ⟨i, rfl⟩ : ∃ i, t = i + 1 := ⟨t - 1, by omega⟩
        have ht : i + 1 < k + 1 := hmax.nonempty
        exact absurd (hopen.holds i ⟨by show s ≤ i; omega, by show i < k; omega⟩) (hmax.left i rfl)
      · rw [heq]
      · obtain ⟨i, rfl⟩ : ∃ i, s = i + 1 := ⟨s - 1, by omega⟩
        exact absurd (hmax.holds i ⟨by show t ≤ i; omega, by show i < k + 1; omega⟩)
          (hopen.left i rfl)
  ordered := h.ordered
  covered i hi hPi := by
    obtain hlt | rfl := Nat.lt_succ_iff_lt_or_eq.mp hi
    · exact h.covered i hlt hPi
    · exact .inr ⟨s, rfl, ((h.opened_iff s).mp rfl).nonempty.le⟩

/-- The open interval comes after the closed ones: `P` fails where one of them stops. -/
theorem Scanned.ordered_open (h : Scanned P k closed (some s)) :
    (closed ++ [⟨s, k⟩] : List IndexRange).Pairwise fun I J => I.stop < J.start := by
  have hopen := (h.opened_iff s).mp rfl
  rw [List.pairwise_append]
  refine ⟨h.ordered, List.pairwise_singleton _ _, fun I hI J hJ => ?_⟩
  obtain rfl := List.mem_singleton.mp hJ
  obtain ⟨hmax, hlt⟩ := (h.closed_iff I).mp hI
  by_contra hle
  exact hmax.right hlt (hopen.holds I.stop ⟨not_lt.mp hle, hlt⟩)

/-- Nothing that is open reaches beyond a position where `P` fails. -/
theorem not_isMaximal_of_not (hk : ¬ P k) : ¬ IsMaximal P (k + 1) ⟨s, k + 1⟩ := fun hmax =>
  hk (hmax.holds k ⟨Nat.lt_succ_iff.mp hmax.nonempty, k.lt_succ_self⟩)

/-- **The open interval ends** where `P` fails. -/
theorem Scanned.leave (h : Scanned P k closed (some s)) (hk : ¬ P k) :
    Scanned P (k + 1) (closed ++ [⟨s, k⟩]) none where
  closed_iff I := by
    have hopen := (h.opened_iff s).mp rfl
    rw [List.mem_append, List.mem_singleton, h.closed_iff]
    constructor
    · rintro (⟨hmax, hlt⟩ | rfl)
      · exact ⟨(isMaximal_succ_iff hlt).mpr hmax, Nat.lt_succ_of_lt hlt⟩
      · exact ⟨⟨hopen.nonempty, k.le_succ, hopen.holds, hopen.left, fun _ => hk⟩, k.lt_succ_self⟩
    · rintro ⟨hmax, hlt⟩
      obtain hlt' | heq := Nat.lt_succ_iff_lt_or_eq.mp hlt
      · exact .inl ⟨(isMaximal_succ_iff hlt').mp hmax, hlt'⟩
      · obtain ⟨t, stop⟩ := I
        obtain rfl : stop = k := heq
        have hmax' : IsMaximal P stop ⟨t, stop⟩ :=
          ⟨hmax.nonempty, le_rfl, hmax.holds, hmax.left, fun h => absurd h (lt_irrefl _)⟩
        obtain rfl : s = t := Option.some.inj ((h.opened_iff t).mpr hmax')
        exact .inr rfl
  opened_iff t := ⟨fun h => (by cases h), fun hmax => absurd hmax (not_isMaximal_of_not hk)⟩
  ordered := h.ordered_open
  covered i hi hPi := by
    refine .inl ?_
    obtain hlt | rfl := Nat.lt_succ_iff_lt_or_eq.mp hi
    · obtain ⟨I, hI, hmem⟩ | ⟨t, ht, hle⟩ := h.covered i hlt hPi
      · exact ⟨I, List.mem_append_left _ hI, hmem⟩
      · obtain rfl := Option.some.inj ht
        exact ⟨⟨s, k⟩, List.mem_append_right _ List.mem_cons_self, hle, hlt⟩
    · exact absurd hPi hk

theorem Scanned.skip (h : Scanned P k closed none) (hk : ¬ P k) :
    Scanned P (k + 1) closed none where
  closed_iff I := by
    rw [h.closed_iff]
    constructor
    · rintro ⟨hmax, hlt⟩
      exact ⟨(isMaximal_succ_iff hlt).mpr hmax, Nat.lt_succ_of_lt hlt⟩
    · rintro ⟨hmax, hlt⟩
      obtain hlt' | heq := Nat.lt_succ_iff_lt_or_eq.mp hlt
      · exact ⟨(isMaximal_succ_iff hlt').mp hmax, hlt'⟩
      · -- it would be open
        obtain ⟨t, stop⟩ := I
        obtain rfl : stop = k := heq
        have hmax' : IsMaximal P stop ⟨t, stop⟩ :=
          ⟨hmax.nonempty, le_rfl, hmax.holds, hmax.left, fun h => absurd h (lt_irrefl _)⟩
        exact absurd ((h.opened_iff t).mpr hmax') (by simp)
  opened_iff t := ⟨fun h => (by cases h), fun hmax => absurd hmax (not_isMaximal_of_not hk)⟩
  ordered := h.ordered
  covered i hi hPi := by
    obtain hlt | rfl := Nat.lt_succ_iff_lt_or_eq.mp hi
    · exact h.covered i hlt hPi
    · exact absurd hPi hk

theorem mem_found : I ∈ found closed opened n ↔ I ∈ closed ∨ ∃ s, opened = some s ∧ I = ⟨s, n⟩ := by
  cases opened with
  | none => simp [found]
  | some s => simp [found]

/-- **The intervals found** are the maximal ones, in order, and cover where `P` holds. -/
theorem Scanned.finish (h : Scanned P n closed opened) :
    (∀ I, I ∈ found closed opened n ↔ IsMaximal P n I) ∧
      (found closed opened n).Pairwise (fun I J => I.stop < J.start) ∧
      ∀ i < n, P i → ∃ I ∈ found closed opened n, i ∈ I := by
  refine ⟨fun I => ?_, ?_, fun i hi hPi => ?_⟩
  · rw [mem_found, h.closed_iff]
    constructor
    · rintro (⟨hmax, -⟩ | ⟨s, hs, rfl⟩)
      · exact hmax
      · exact (h.opened_iff s).mp hs
    · intro hmax
      obtain hlt | heq := hmax.le.lt_or_eq
      · exact .inl ⟨hmax, hlt⟩
      · obtain ⟨s, stop⟩ := I
        obtain rfl : stop = n := heq
        exact .inr ⟨s, (h.opened_iff s).mpr hmax, rfl⟩
  · cases opened with
    | none => exact h.ordered
    | some s => exact h.ordered_open
  · obtain ⟨I, hI, hmem⟩ | ⟨s, hs, hle⟩ := h.covered i hi hPi
    · exact ⟨I, mem_found.mpr (.inl hI), hmem⟩
    · exact ⟨⟨s, n⟩, mem_found.mpr (.inr ⟨s, hs, rfl⟩), hle, hi⟩

end IndexRange
