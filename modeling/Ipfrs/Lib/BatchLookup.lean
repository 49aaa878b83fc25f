import Mathlib.Data.List.Enum

/-!
# Batch lookups

Many questions asked of a fast source first, and the ones it cannot answer asked of a slow source
together. The answers of the slow source are put at the indices of their questions
(`foldl_misses`), so the result has one answer a question, in order, however often a question is
repeated.
-/

namespace Ipfrs.BatchLookup

variable {α γ : Type*}

/-- The questions that the fast source cannot answer, with their indices from `k` on. -/
def misses (hit : α → Option γ) (k : ℕ) (questions : List α) : List (α × ℕ) :=
  (questions.zipIdx k).filter fun q => (hit q.1).isNone

variable {hit : α → Option γ} {k : ℕ} {a : α} {questions : List α}

theorem misses_cons_hit {c : γ} (h : hit a = some c) :
    misses hit k (a :: questions) = misses hit (k + 1) questions := by
  unfold misses
  rw [List.zipIdx_cons, List.filter_cons_of_neg (by simp [h])]

theorem misses_cons_miss (h : hit a = none) :
    misses hit k (a :: questions) = (a, k) :: misses hit (k + 1) questions := by
  unfold misses
  rw [List.zipIdx_cons, List.filter_cons_of_pos (by simp [h])]

theorem misses_cons (hit : α → Option γ) (k : ℕ) (a : α) (questions : List α) :
    misses hit k (a :: questions) = misses hit k [a] ++ misses hit (k + 1) questions := by
  unfold misses
  rw [← List.filter_append]
  rfl

/-- **The answers, put in place.** `default` stands where an answer is missing, and `fill` puts one
there. -/
theorem foldl_misses (hit : α → Option γ) (default : γ) (answer : α → γ)
    (fill : List γ → ℕ × γ → List γ)
    (hfill : ∀ before after c, fill (before ++ default :: after) (before.length, c) =
      before ++ c :: after) (questions : List α) (before : List γ) :
    ((misses hit before.length questions).map fun q => (q.2, answer q.1)).foldl fill
        (before ++ questions.map fun a => (hit a).getD default) =
      before ++ questions.map fun a => (hit a).getD (answer a) := by
  induction questions generalizing before with
  | nil => rfl
  | cons a questions ih =>
    -- the first answer is in place, and belongs to what comes before
    have hshift : ∀ (c : γ) (rest : List γ), before ++ c :: rest = (before ++ [c]) ++ rest :=
      fun c rest => by rw [List.append_assoc, List.singleton_append]
    have hlength : ∀ c : γ, before.length + 1 = (before ++ [c]).length :=
      fun c => by rw [List.length_append, List.length_singleton]
    rw [List.map_cons, List.map_cons]
    cases h : hit a with
    | some c =>
      rw [misses_cons_hit h, Option.getD_some, Option.getD_some, hshift, hlength c, ih,
        ← hshift]
    | none =>
      rw [misses_cons_miss h, Option.getD_none, Option.getD_none, List.map_cons, List.foldl_cons,
        hfill, hshift, hlength (answer a), ih, ← hshift]

end Ipfrs.BatchLookup
