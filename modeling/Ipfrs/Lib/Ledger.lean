import Ipfrs.Lib.LogMatching

/-!
# Ledgers

When every term has at most one writer, what the writer of a term has in its log is the *ledger* of
the term: it is empty until there is a writer, and from then on it only grows. A log *follows* the
ledgers when, up to each of its entries, it is the ledger of the term of that entry (`Follows`).

This is the invariant behind log matching: logs that follow the same ledgers match
(`Follows.matching`), and whatever replication does keeps it. A log may be cut (`Follows.take`), a
writer may extend its ledger and its log by one entry (`Follows.append`), and a ledger that grows is
still followed by all (`Follows.mono`).
-/

namespace LogMatching

variable {α τ : Type*} {term : α → τ}

/-- Up to each of its entries, `log` is the ledger of the term of that entry. -/
def Follows (term : α → τ) (ledger : τ → List α) (log : List α) : Prop :=
  ∀ k e, log[k]? = some e → log.take (k + 1) = (ledger (term e)).take (k + 1)

/-- **A ledger that goes on**, and the others as they are. -/
theorem prefix_update [DecidableEq τ] {ledger : τ → List α} {t : τ} {log : List α}
    (h : ledger t <+: log) (t' : τ) : ledger t' <+: Function.update ledger t log t' := by
  by_cases ht : t' = t
  · rw [ht, Function.update_self]
    exact h
  · simp only [Function.update_of_ne ht, List.prefix_rfl]

namespace Follows

variable {ledger ledger' : τ → List α} {F L : List α}

theorem nil : Follows term ledger [] := by
  intro k e he
  exact absurd he (by simp)

theorem take (h : Follows term ledger F) (n : ℕ) : Follows term ledger (F.take n) := by
  intro k e he
  obtain ⟨hk, he⟩ : k < n ∧ F[k]? = some e := by
    rw [List.getElem?_take] at he
    split at he
    · next hk => exact ⟨hk, he⟩
    · exact absurd he (by simp)
  calc (F.take n).take (k + 1)
      = F.take (k + 1) := by rw [List.take_take, Nat.min_eq_left hk]
    _ = (ledger (term e)).take (k + 1) := h k e he

/-- **Logs that follow the same ledgers match.** -/
theorem matching (hF : Follows term ledger F) (hL : Follows term ledger L) : Matching term F L := by
  intro k x y hx hy hterm
  calc F.take (k + 1)
      = (ledger (term x)).take (k + 1) := hF k x hx
    _ = (ledger (term y)).take (k + 1) := by rw [hterm]
    _ = L.take (k + 1) := (hL k y hy).symm

/-- The ledger of the term of an entry reaches at least as far as the entry. -/
theorem lt_length (h : Follows term ledger F) {k : ℕ} {e : α} (he : F[k]? = some e) :
    k < (ledger (term e)).length := by
  have hk : k < F.length := (List.getElem?_eq_some_iff.mp he).1
  have hlen := congrArg List.length (h k e he)
  rw [List.length_take, List.length_take] at hlen
  omega

/-- **Ledgers may grow.** -/
theorem mono (hgrow : ∀ t, ledger t <+: ledger' t) (h : Follows term ledger F) :
    Follows term ledger' F := by
  intro k e he
  obtain ⟨rest, hrest⟩ := hgrow (term e)
  rw [h k e he, ← hrest, List.take_append_of_le_length (h.lt_length he)]

/-- **A writer extends its log with its ledger.** -/
theorem append (h : Follows term ledger F) {e : α} (hledger : ledger (term e) = F ++ [e]) :
    Follows term ledger (F ++ [e]) := by
  intro k x hx
  by_cases hk : k < F.length
  · rw [List.getElem?_append_left hk] at hx
    rw [List.take_append_of_le_length hk]
    exact h k x hx
  · -- the new entry
    rw [List.getElem?_append_right (Nat.le_of_not_lt hk)] at hx
    obtain rfl : e = x := by
      have hmem := List.mem_of_getElem? hx
      exact (List.mem_singleton.mp hmem).symm
    rw [hledger]

end Follows

end LogMatching
