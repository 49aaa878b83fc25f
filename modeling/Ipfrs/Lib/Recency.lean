import Mathlib.Data.List.Basic
import Mathlib.Order.Basic

/-!
# Recency

A log of accesses, the last access first, and stamps on some of the things accessed. Stamps *agree*
with the log (`Recency.Agrees`) when, of two things that have stamps, the one accessed later has the
larger stamp.

* `Agrees.touch` — an access agrees when its stamp is above every other stamp;
* `Agrees.skip`, `Agrees.mono` — accesses to things without a stamp, and stamps that are taken away;
* `Agrees.oldest` — a thing with a least stamp is one that has not been accessed for longest.
-/

namespace Recency

variable {α ι : Type*} [DecidableEq α] [Preorder ι] {log : List α} {stamp stamp' : α → Option ι}

/-- The stamps agree with a log of accesses. -/
structure Agrees (log : List α) (stamp : α → Option ι) : Prop where
  mem : ∀ a i, stamp a = some i → a ∈ log
  lt : ∀ a b i j, stamp a = some i → stamp b = some j → log.idxOf a < log.idxOf b → j < i

theorem Agrees.empty (h : ∀ a, stamp a = none) : Agrees log stamp where
  mem a i ha := absurd ha (by rw [h a]; simp)
  lt a b i j ha := absurd ha (by rw [h a]; simp)

theorem Agrees.mono (h : Agrees log stamp) (hle : ∀ a i, stamp' a = some i → stamp a = some i) :
    Agrees log stamp' where
  mem a i ha := h.mem a i (hle a i ha)
  lt a b i j ha hb hlt := h.lt a b i j (hle a i ha) (hle b j hb) hlt

theorem idxOf_cons_of_ne {a b : α} (h : b ≠ a) : (a :: log).idxOf b = log.idxOf b + 1 :=
  List.idxOf_cons_ne log (Ne.symm h)

theorem Agrees.skip (h : Agrees log stamp) {a : α} (ha : stamp a = none) :
    Agrees (a :: log) stamp := by
  have hne : ∀ b i, stamp b = some i → b ≠ a := by
    rintro b i hb rfl
    rw [ha] at hb
    exact absurd hb (by simp)
  refine ⟨fun b i hb => List.mem_cons_of_mem _ (h.mem b i hb), fun b c i j hb hc hlt => ?_⟩
  rw [idxOf_cons_of_ne (hne b i hb), idxOf_cons_of_ne (hne c j hc)] at hlt
  exact h.lt b c i j hb hc (Nat.lt_of_succ_lt_succ hlt)

/-- **An access with a stamp above all the others.** -/
theorem Agrees.touch (h : Agrees log stamp) {a : α} {i : ι} (ha : stamp' a = some i)
    (hother : ∀ b, b ≠ a → stamp' b = stamp b)
    (hfresh : ∀ b j, b ≠ a → stamp b = some j → j < i) : Agrees (a :: log) stamp' := by
  refine ⟨fun b j hb => ?_, fun b c j k hb hc hlt => ?_⟩
  · by_cases hba : b = a
    · rw [hba]
      exact List.mem_cons_self
    · rw [hother b hba] at hb
      exact List.mem_cons_of_mem _ (h.mem b j hb)
  · -- `c` was accessed before `b`, so it is not the thing accessed now
    have hca : c ≠ a := by
      rintro rfl
      rw [List.idxOf_cons_self] at hlt
      exact absurd hlt (Nat.not_lt_zero _)
    rw [hother c hca] at hc
    by_cases hba : b = a
    · rw [hba, ha] at hb
      obtain rfl := Option.some.inj hb
      exact hfresh c k hca hc
    · rw [hother b hba] at hb
      rw [idxOf_cons_of_ne hba, idxOf_cons_of_ne hca] at hlt
      exact h.lt b c j k hb hc (Nat.lt_of_succ_lt_succ hlt)

/-- **A least stamp is on a thing that has not been accessed for longest.** -/
theorem Agrees.oldest (h : Agrees log stamp) {a b : α} {i j : ι} (ha : stamp a = some i)
    (hb : stamp b = some j) (hle : i ≤ j) : log.idxOf b ≤ log.idxOf a := by
  by_contra hlt
  have hji := h.lt a b i j ha hb (Nat.lt_of_not_le hlt)
  exact absurd hle (not_le_of_gt hji)

end Recency
