import Mathlib.Data.List.TakeDrop

/-!
# Log matching

Replicated logs whose entries carry a term. Two logs *match* when an entry at one position with one
term determines everything before it (`Matching`). A leader sends a slice of its log, and a follower
goes through the slice entry by entry: it appends past its own end, cuts its log where the terms
differ, and otherwise keeps what it has (`appendFrom`).

* `appendFrom_slice` — against a log that it matches, the follower ends with its own log, when that
  has the slice already, or with the prefix of the leader's log that the slice ends;
* `Matching.take_eq_iff` — matching logs agree up to a position when the terms there agree.
-/

namespace LogMatching

variable {α τ : Type*} {term : α → τ}

/-- **Log matching**: equal terms at one position mean equal logs up to there. -/
def Matching (term : α → τ) (F L : List α) : Prop :=
  ∀ k x y, F[k]? = some x → L[k]? = some y → term x = term y → F.take (k + 1) = L.take (k + 1)

variable {F L : List α} {k : ℕ}

/-- Logs that agree up to a position have the same entries before it. -/
theorem getElem?_eq_of_take_eq {n : ℕ} (h : F.take n = L.take n) (hk : k < n) : F[k]? = L[k]? := by
  have hget : (F.take n)[k]? = (L.take n)[k]? := by rw [h]
  rwa [List.getElem?_take_of_lt hk, List.getElem?_take_of_lt hk] at hget

namespace Matching

variable {F L : List α}

theorem refl (term : α → τ) (L : List α) : Matching term L L :=
  fun _ _ _ _ _ _ => rfl

theorem take (h : Matching term F L) (n : ℕ) : Matching term (F.take n) L := by
  intro k x y hx hy hterm
  obtain ⟨hk, hx⟩ : k < n ∧ F[k]? = some x := by
    rw [List.getElem?_take] at hx
    split at hx
    · next hk => exact ⟨hk, hx⟩
    · exact absurd hx (by simp)
  calc (F.take n).take (k + 1)
      = F.take (k + 1) := by rw [List.take_take, Nat.min_eq_left hk]
    _ = L.take (k + 1) := h k x y hx hy hterm

/-- **Agreement up to a position is agreement of the terms there.** -/
theorem take_eq_iff (h : Matching term F L) {k : ℕ} (hF : k < F.length) (hL : k < L.length) :
    F.take (k + 1) = L.take (k + 1) ↔ term F[k] = term L[k] := by
  constructor
  · intro heq
    have hget := getElem?_eq_of_take_eq heq (Nat.lt_succ_self k)
    rw [List.getElem?_eq_getElem hF, List.getElem?_eq_getElem hL] at hget
    rw [Option.some.inj hget]
  · intro hterm
    exact h k F[k] L[k] (List.getElem?_eq_getElem hF) (List.getElem?_eq_getElem hL) hterm

end Matching

/-! ### Going through a slice -/

variable [DecidableEq τ]

/-- One entry of a slice, for the position `k`. -/
def appendAt (term : α → τ) (log : List α) (k : ℕ) (e : α) : List α :=
  match log[k]? with
  | none => log ++ [e]
  | some x => if term x = term e then log else log.take k ++ [e]

/-- The entries of a slice, for the positions from `k` on. -/
def appendFrom (term : α → τ) : List α → ℕ → List α → List α
  | log, _, [] => log
  | log, k, e :: entries => appendFrom term (appendAt term log k e) (k + 1) entries

/-- What the follower does with the entry after the prefix of length `k` that it shares with the
leader: it keeps its log, which then shares the entry as well, or it ends with that entry. -/
theorem appendAt_next (h : Matching term F L) (hagree : F.take k = L.take k) (hL : k < L.length) :
    appendAt term F k L[k] = F ∧ k < F.length ∧ F.take (k + 1) = L.take (k + 1) ∨
      appendAt term F k L[k] = L.take (k + 1) ∧
        ¬ (k < F.length ∧ F.take (k + 1) = L.take (k + 1)) := by
  have hnext : F.take k ++ [L[k]] = L.take (k + 1) := by
    rw [hagree]
    exact List.take_append_getElem hL
  by_cases hk : k < F.length
  · have hget : F[k]? = some F[k] := List.getElem?_eq_getElem hk
    by_cases hterm : term F[k] = term L[k]
    · -- the same term: nothing to do, and the prefixes agree by matching
      refine Or.inl ⟨?_, hk, (h.take_eq_iff hk hL).mpr hterm⟩
      rw [appendAt, hget]
      exact if_pos hterm
    · -- another term: the log is cut here
      refine Or.inr ⟨?_, fun heq => hterm ((h.take_eq_iff hk hL).mp heq.2)⟩
      rw [appendAt, hget, ← hnext]
      exact if_neg hterm
  · -- past the end
    refine Or.inr ⟨?_, fun heq => hk heq.1⟩
    have hlen : F.take k = F := List.take_of_length_le (Nat.le_of_not_lt hk)
    rw [appendAt, List.getElem?_eq_none (Nat.le_of_not_lt hk), ← hnext, hlen]

/-- **The outcome of a slice.** The follower's log, if it had the whole slice already, and otherwise
the leader's log up to the end of the slice. -/
theorem appendFrom_slice (h : Matching term F L) {m : ℕ} (hF : k ≤ F.length)
    (hagree : F.take k = L.take k) (hL : k + m ≤ L.length) :
    appendFrom term F k ((L.drop k).take m) = F ∧ k + m ≤ F.length ∧
        F.take (k + m) = L.take (k + m) ∨
      appendFrom term F k ((L.drop k).take m) = L.take (k + m) ∧
        ¬ (k + m ≤ F.length ∧ F.take (k + m) = L.take (k + m)) := by
  induction m generalizing F k with
  | zero => exact Or.inl ⟨rfl, hF, hagree⟩
  | succ m ih =>
    have hlt : k < L.length := by omega
    have hsucc : k + 1 + m = k + (m + 1) := by omega
    have hslice : (L.drop k).take (m + 1) = L[k] :: (L.drop (k + 1)).take m := by
      rw [List.drop_eq_getElem_cons hlt, List.take_succ_cons]
    rw [hslice, appendFrom]
    obtain ⟨happend, hk, hnext⟩ | ⟨happend, hdiffer⟩ := appendAt_next h hagree hlt
    · rw [happend]
      have hrest := ih h hk hnext (by omega)
      rwa [hsucc] at hrest
    · -- from here on the log is a prefix of the leader's
      rw [happend]
      have hlen : (L.take (k + 1)).length = k + 1 := List.length_take_of_le hlt
      have hrest := ih ((Matching.refl term L).take (k + 1)) (Nat.le_of_eq hlen.symm)
        (by rw [List.take_take, Nat.min_self]) (by omega)
      rw [hsucc, hlen] at hrest
      refine Or.inr ⟨?_, ?_⟩
      · obtain ⟨hkeep, hle, -⟩ | ⟨hend, -⟩ := hrest
        · obtain rfl : m = 0 := by omega
          exact hkeep
        · exact hend
      · rintro ⟨hle, heq⟩
        -- agreement up to the end of the slice is agreement up to its first entry
        refine hdiffer ⟨by omega, ?_⟩
        have hmin : min (k + 1) (k + (m + 1)) = k + 1 := by omega
        calc F.take (k + 1)
            = (F.take (k + (m + 1))).take (k + 1) := by rw [List.take_take, hmin]
          _ = (L.take (k + (m + 1))).take (k + 1) := by rw [heq]
          _ = L.take (k + 1) := by rw [List.take_take, hmin]

end LogMatching
