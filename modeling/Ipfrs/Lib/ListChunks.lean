import Mathlib.Data.List.Flatten
import Mathlib.Data.Nat.Notation

/-!
# Splitting a list into pieces of one length

`chunks n l` is what `slice::chunks` yields for a positive `n`: pieces of length `n`, with a shorter
one at the end when `n` does not divide the length.

* `flatten_chunks` — nothing is lost and nothing is reordered.
* `mul_length_chunks_lt` — there are no more pieces than the length calls for.
* `length_chunks_lt` — pieces of two or more make a shorter list of a list of two or more.
-/

namespace ListChunks

variable {α : Type*}

/-- The list cut after every `n` elements (for `n = 0`, as for `n = 1`). -/
def chunks (n : ℕ) : List α → List (List α)
  | [] => []
  | x :: xs => (x :: xs.take (n - 1)) :: chunks n (xs.drop (n - 1))
termination_by l => l.length
decreasing_by simp only [List.length_drop, List.length_cons]; omega

theorem chunks_nil (n : ℕ) : chunks n ([] : List α) = [] := by
  rw [chunks]

theorem chunks_cons (n : ℕ) (x : α) (xs : List α) :
    chunks n (x :: xs) = (x :: xs.take (n - 1)) :: chunks n (xs.drop (n - 1)) := by
  rw [chunks]

theorem flatten_chunks (n : ℕ) (l : List α) : (chunks n l).flatten = l := by
  induction l using chunks.induct n with
  | case1 => rw [chunks_nil, List.flatten_nil]
  | case2 x xs ih =>
    rw [chunks_cons, List.flatten_cons, ih, List.cons_append, List.take_append_drop]

variable {l g : List α} {n : ℕ}

theorem chunks_ne_nil (n : ℕ) (hl : l ≠ []) : chunks n l ≠ [] := by
  intro hnil
  have hflat := flatten_chunks n l
  rw [hnil, List.flatten_nil] at hflat
  exact hl hflat.symm

theorem length_chunks_le (n : ℕ) (l : List α) : (chunks n l).length ≤ l.length := by
  induction l using chunks.induct n with
  | case1 => simp [chunks_nil]
  | case2 x xs ih =>
    rw [chunks_cons, List.length_cons, List.length_cons]
    rw [List.length_drop] at ih
    omega

theorem chunks_eq (hn : 0 < n) (hl : l ≠ []) : chunks n l = l.take n :: chunks n (l.drop n) := by
  obtain _ | ⟨x, xs⟩ := l
  · exact absurd rfl hl
  obtain ⟨m, rfl⟩ : ∃ m, n = m + 1 := ⟨n - 1, by omega⟩
  rw [chunks_cons, List.take_succ_cons, List.drop_succ_cons, Nat.add_sub_cancel]

theorem chunks_of_length_le (hl : l ≠ []) (hle : l.length ≤ n) : chunks n l = [l] := by
  have hpos := List.length_pos_iff.mpr hl
  rw [chunks_eq (by omega) hl, List.take_of_length_le hle, List.drop_of_length_le hle, chunks_nil]

theorem chunks_append (hn : 0 < n) (hl : l.length = n) (rest : List α) :
    chunks n (l ++ rest) = l :: chunks n rest := by
  have hne : l ++ rest ≠ [] := List.append_ne_nil_of_left_ne_nil
    (List.ne_nil_of_length_pos (by omega)) rest
  rw [chunks_eq hn hne, List.take_left' hl, List.drop_left' hl]

theorem ne_nil_of_mem_chunks (h : g ∈ chunks n l) : g ≠ [] := by
  induction l using chunks.induct n with
  | case1 =>
    rw [chunks_nil] at h
    exact absurd h List.not_mem_nil
  | case2 x xs ih =>
    rw [chunks_cons] at h
    rcases List.mem_cons.mp h with rfl | h
    · exact List.cons_ne_nil _ _
    · exact ih h

theorem length_piece_le (hn : 0 < n) (h : g ∈ chunks n l) : g.length ≤ n := by
  induction l using chunks.induct n with
  | case1 =>
    rw [chunks_nil] at h
    exact absurd h List.not_mem_nil
  | case2 x xs ih =>
    rw [chunks_cons] at h
    rcases List.mem_cons.mp h with rfl | h
    · rw [List.length_cons, List.length_take]
      omega
    · exact ih h

theorem mul_length_chunks_lt (hn : 0 < n) (l : List α) :
    n * (chunks n l).length < l.length + n := by
  induction l using chunks.induct n with
  | case1 =>
    rw [chunks_nil, List.length_nil]
    omega
  | case2 x xs ih =>
    rw [List.length_drop] at ih
    rw [chunks_cons, List.length_cons, List.length_cons, Nat.mul_succ]
    by_cases hle : n - 1 ≤ xs.length
    · omega
    · -- the first piece is the last one
      have hnil : chunks n (xs.drop (n - 1)) = [] := by
        rw [List.drop_of_length_le (by omega), chunks_nil]
      rw [hnil, List.length_nil]
      omega

theorem length_le_mul_chunks (hn : 0 < n) (l : List α) : l.length ≤ n * (chunks n l).length := by
  induction l using chunks.induct n with
  | case1 => exact Nat.zero_le _
  | case2 x xs ih =>
    rw [List.length_drop] at ih
    rw [chunks_cons, List.length_cons, List.length_cons, Nat.mul_succ]
    omega

theorem chunks_map {β : Type*} (f : α → β) (n : ℕ) (l : List α) :
    chunks n (l.map f) = (chunks n l).map (List.map f) := by
  induction l using chunks.induct n with
  | case1 => rw [List.map_nil, chunks_nil, chunks_nil, List.map_nil]
  | case2 x xs ih =>
    rw [List.map_cons, chunks_cons, chunks_cons, List.map_cons, List.map_cons, ← ih,
      List.map_take, List.map_drop]

theorem length_chunks_lt (hn : 2 ≤ n) (hl : 1 < l.length) : (chunks n l).length < l.length := by
  obtain _ | ⟨x, xs⟩ := l
  · exact absurd hl (by simp)
  have hle := length_chunks_le n (xs.drop (n - 1))
  rw [List.length_drop] at hle
  rw [List.length_cons] at hl
  rw [chunks_cons, List.length_cons, List.length_cons]
  omega

end ListChunks
