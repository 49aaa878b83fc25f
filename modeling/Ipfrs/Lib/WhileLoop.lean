import Mathlib.Data.Nat.Basic
import Mathlib.Tactic.Common

/-!
# Loops that run until they return

A `while` loop is given by its body `step : σ → σ ⊕ ρ`: `Sum.inl s'` goes round once more with the
state `s'`, `Sum.inr r` leaves the loop with `r`. Nothing says that such a loop ends, so
`WhileLoop.run` takes the number of iterations it may spend and answers `none` when they are used
up; `WhileLoop.Returns` is the statement without the bound.

* `run_mono`, `Returns.unique` — the answer does not depend on the number of iterations;
* `run_inv` — the invariant rule (partial correctness);
* `run_of_measure` — the variant rule (termination, with the bound);
* `Returns.of_next`, `Returns.of_done` — running a loop forwards, one iteration at a time, and
  `Returns.iff_of_next`, `Returns.iff_of_done`, backwards too;
* `Returns.simulate` — a loop that follows another one, iteration by iteration.
-/

namespace WhileLoop

variable {σ ρ : Type*} {step : σ → σ ⊕ ρ}

/-- At most `fuel` iterations of `step` from `s`. `none` says that the loop has not left yet. -/
def run (step : σ → σ ⊕ ρ) : ℕ → σ → Option ρ
  | 0, _ => none
  | fuel + 1, s =>
    match step s with
    | .inl s' => run step fuel s'
    | .inr r => some r

/-- The loop leaves, and with `r`. -/
def Returns (step : σ → σ ⊕ ρ) (s : σ) (r : ρ) : Prop :=
  ∃ fuel, run step fuel s = some r

variable {s s' : σ} {r r' : ρ} {fuel : ℕ}

theorem run_succ_of_next (h : step s = .inl s') (fuel : ℕ) :
    run step (fuel + 1) s = run step fuel s' := by
  rw [run, h]

theorem run_succ_of_done (h : step s = .inr r) (fuel : ℕ) : run step (fuel + 1) s = some r := by
  rw [run, h]

theorem run_mono {fuel' : ℕ} (hle : fuel ≤ fuel') (h : run step fuel s = some r) :
    run step fuel' s = some r := by
  induction fuel generalizing fuel' s with
  | zero => exact absurd h (by simp [run])
  | succ fuel ih =>
    obtain ⟨k, rfl⟩ : ∃ k, fuel' = k + 1 := ⟨fuel' - 1, by omega⟩
    cases hs : step s with
    | inl s' =>
      rw [run_succ_of_next hs] at h ⊢
      exact ih (by omega) h
    | inr r' =>
      rw [run_succ_of_done hs] at h ⊢
      exact h

theorem Returns.unique (h : Returns step s r) (h' : Returns step s r') : r = r' := by
  obtain ⟨n, hn⟩ := h
  obtain ⟨m, hm⟩ := h'
  have h₁ := run_mono (le_max_left n m) hn
  have h₂ := run_mono (le_max_right n m) hm
  exact Option.some.inj (h₁.symm.trans h₂)

theorem Returns.of_next (h : step s = .inl s') (h' : Returns step s' r) : Returns step s r := by
  obtain ⟨n, hn⟩ := h'
  exact ⟨n + 1, by rw [run_succ_of_next h, hn]⟩

theorem Returns.of_done (h : step s = .inr r) : Returns step s r :=
  ⟨1, run_succ_of_done h 0⟩

/-- A loop that goes round once more leaves the way it leaves from there. -/
theorem Returns.iff_of_next (h : step s = .inl s') : Returns step s r ↔ Returns step s' r := by
  refine ⟨fun ⟨n, hn⟩ => ?_, .of_next h⟩
  cases n with
  | zero => exact absurd hn (by simp [run])
  | succ n => exact ⟨n, by rw [← hn, run_succ_of_next h]⟩

theorem Returns.iff_of_done (h : step s = .inr r) : Returns step s r' ↔ r = r' :=
  ⟨fun h' => (Returns.of_done h).unique h', fun heq => heq ▸ .of_done h⟩

/-- **The simulation rule.** A loop that follows another one step by step leaves when that one does,
and with a result that corresponds. -/
theorem Returns.simulate {σ' ρ' : Type*} {step' : σ' → σ' ⊕ ρ'} (R : σ → σ' → Prop)
    (Q : ρ → ρ' → Prop)
    (hnext : ∀ s t s', R s t → step s = .inl s' → ∃ t', step' t = .inl t' ∧ R s' t')
    (hdone : ∀ s t r, R s t → step s = .inr r → ∃ r', step' t = .inr r' ∧ Q r r') {t : σ'}
    (hR : R s t) (h : Returns step s r) : ∃ r', Returns step' t r' ∧ Q r r' := by
  obtain ⟨fuel, h⟩ := h
  induction fuel generalizing s t with
  | zero => exact absurd h (by simp [run])
  | succ fuel ih =>
    cases hs : step s with
    | inl s' =>
      rw [run_succ_of_next hs] at h
      obtain ⟨t', ht, hR'⟩ := hnext s t s' hR hs
      obtain ⟨r', hr', hQ⟩ := ih hR' h
      exact ⟨r', .of_next ht hr', hQ⟩
    | inr r₀ =>
      rw [run_succ_of_done hs] at h
      obtain rfl := Option.some.inj h
      obtain ⟨r', ht, hQ⟩ := hdone s t r₀ hR hs
      exact ⟨r', .of_done ht, hQ⟩

/-- **The invariant rule.** What holds at the start and is kept by every iteration holds when the
loop leaves, whatever the number of iterations. -/
theorem run_inv (I : σ → Prop) (Q : ρ → Prop) (hnext : ∀ s s', I s → step s = .inl s' → I s')
    (hdone : ∀ s r, I s → step s = .inr r → Q r) (hI : I s) (h : run step fuel s = some r) :
    Q r := by
  induction fuel generalizing s with
  | zero => exact absurd h (by simp [run])
  | succ fuel ih =>
    cases hs : step s with
    | inl s' =>
      rw [run_succ_of_next hs] at h
      exact ih (hnext s s' hI hs) h
    | inr r' =>
      rw [run_succ_of_done hs] at h
      obtain rfl := Option.some.inj h
      exact hdone s r' hI hs

/-- The invariant rule where the cases of an iteration are told once, those that go on and those
that leave. -/
theorem run_elim (I : σ → Prop) (Q : ρ → Prop) (hstep : ∀ s, I s → Sum.elim I Q (step s)) (hI : I s)
    (h : run step fuel s = some r) : Q r := by
  refine run_inv I Q (fun s s' hI hs => ?_) (fun s r hI hs => ?_) hI h
  · have hnext := hstep s hI
    rwa [hs] at hnext
  · have hdone := hstep s hI
    rwa [hs] at hdone

/-- **The variant rule.** A measure that every iteration decreases bounds the number of
iterations. -/
theorem run_of_measure (I : σ → Prop) (m : σ → ℕ)
    (hnext : ∀ s s', I s → step s = .inl s' → I s' ∧ m s' < m s) (hI : I s) :
    ∃ r, run step (m s + 1) s = some r := by
  suffices h : ∀ n s, I s → m s < n → ∃ r, run step n s = some r from
    h (m s + 1) s hI (Nat.lt_succ_self _)
  intro n
  induction n with
  | zero => intro s _ hm; exact absurd hm (Nat.not_lt_zero _)
  | succ n ih =>
    intro s hI hm
    cases hs : step s with
    | inl s' =>
      obtain ⟨hI', hlt⟩ := hnext s s' hI hs
      obtain ⟨r, hr⟩ := ih s' hI' (by omega)
      exact ⟨r, by rw [run_succ_of_next hs, hr]⟩
    | inr r => exact ⟨r, run_succ_of_done hs n⟩

end WhileLoop
