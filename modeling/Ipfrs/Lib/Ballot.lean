import Mathlib.Data.Finset.Card

/-!
# Ballots

A voter in an election by terms holds a *ballot*: the term it is in, and the candidate it has voted
for in that term. A ballot may move to a later term, where the vote is free again, and within a term
a free vote may be given away; a vote that was given is not taken back before the term is over.

This order on ballots (`Ballot.instPartialOrder`) is all that the safety of an election needs:

* `Ballot.vote_unique` — two ballots of one term that both name a candidate and can be compared name
  the same one;
* `HasMajority.unique` — when every voter has voted for at most one candidate, at most one candidate
  has the votes of a strict majority.
-/

/-- The term a voter is in and its vote in that term. -/
@[ext]
structure Ballot (τ κ : Type*) where
  term : τ
  vote : Option κ
  deriving DecidableEq

namespace Ballot

variable {τ κ : Type*}

section Order

variable [PartialOrder τ]

/-- Later in the term, or in the same term with the vote kept. -/
instance instPartialOrder : PartialOrder (Ballot τ κ) where
  le a b := a.term < b.term ∨ a.term = b.term ∧ (a.vote = none ∨ a.vote = b.vote)
  le_refl a := Or.inr ⟨rfl, Or.inr rfl⟩
  le_trans a b c hab hbc := by
    rcases hab with hab | ⟨hab, hvote⟩
    · rcases hbc with hbc | ⟨hbc, -⟩
      · exact Or.inl (hab.trans hbc)
      · exact Or.inl (hbc ▸ hab)
    · rcases hbc with hbc | ⟨hbc, hvote'⟩
      · exact Or.inl (hab ▸ hbc)
      · refine Or.inr ⟨hab.trans hbc, ?_⟩
        rcases hvote with hvote | hvote
        · exact Or.inl hvote
        · rw [hvote]
          exact hvote'
  le_antisymm a b hab hba := by
    rcases hab with hab | ⟨hterm, hab⟩
    · rcases hba with hba | ⟨hterm, -⟩
      · exact absurd (hab.trans hba) (lt_irrefl _)
      · exact absurd (hterm ▸ hab) (lt_irrefl _)
    · rcases hba with hba | ⟨-, hba⟩
      · exact absurd (hterm ▸ hba) (lt_irrefl _)
      · -- one vote is free, or they are the same
        refine Ballot.ext hterm ?_
        rcases hab with hab | hab
        · rcases hba with hba | hba
          · rw [hab, hba]
          · exact hba.symm
        · exact hab

variable {a b : Ballot τ κ} {t : τ} {c c' : κ}

theorem le_def : a ≤ b ↔ a.term < b.term ∨ a.term = b.term ∧ (a.vote = none ∨ a.vote = b.vote) :=
  Iff.rfl

theorem term_le_of_le (h : a ≤ b) : a.term ≤ b.term := by
  rcases h with h | ⟨h, -⟩
  · exact h.le
  · exact h.le

theorem le_of_term_lt (h : a.term < b.term) : a ≤ b :=
  Or.inl h

/-- **One vote per term.** Of two ballots of the same term that name a candidate, the later one
names the same one. -/
theorem vote_unique_of_le (h : (⟨t, some c⟩ : Ballot τ κ) ≤ ⟨t, some c'⟩) : c = c' := by
  rcases h with h | ⟨-, h | h⟩
  · exact absurd h (lt_irrefl _)
  · exact absurd h (Option.some_ne_none c)
  · exact Option.some.inj h

/-- The order in which the two ballots were held does not matter. -/
theorem vote_unique
    (h : (⟨t, some c⟩ : Ballot τ κ) ≤ ⟨t, some c'⟩ ∨ (⟨t, some c'⟩ : Ballot τ κ) ≤ ⟨t, some c⟩) :
    c = c' := by
  rcases h with h | h
  · exact vote_unique_of_le h
  · exact (vote_unique_of_le h).symm

end Order

end Ballot

/-- `c` has the votes of a strict majority of the electorate. -/
def HasMajority {ν κ : Type*} (electorate : Finset ν) (votedFor : ν → κ → Prop) (c : κ) : Prop :=
  ∃ voters ⊆ electorate, electorate.card < 2 * voters.card ∧ ∀ v ∈ voters, votedFor v c

/-- **Two strict majorities have a voter in common**, who has voted for one candidate only. -/
theorem HasMajority.unique {ν κ : Type*} [DecidableEq ν] {electorate : Finset ν}
    {votedFor : ν → κ → Prop} (hone : ∀ v c c', votedFor v c → votedFor v c' → c = c') {c c' : κ}
    (h : HasMajority electorate votedFor c) (h' : HasMajority electorate votedFor c') : c = c' := by
  obtain ⟨voters, hsub, hcard, hvoted⟩ := h
  obtain ⟨voters', hsub', hcard', hvoted'⟩ := h'
  obtain ⟨v, hv⟩ : (voters ∩ voters').Nonempty :=
    Finset.inter_nonempty_of_card_lt_card_add_card hsub hsub' (by omega)
  rw [Finset.mem_inter] at hv
  exact hone v c c' (hvoted v hv.1) (hvoted' v hv.2)
