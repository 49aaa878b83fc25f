import Mathlib.Logic.Relation
import Ipfrs.Lib.Fallible

/-!
# Computations that ask for resources

A `Metered ρ ε α` makes requests on its way to a result. A request that is refused ends the
computation, like any other error, and the requests up to there are known.

`Follows` compares such a computation with one that asks for nothing: the two have the same result
unless a request is refused, and a condition says when all requests are granted and also within
bounds. The rules of `Follows` give the condition of a sequence from those of its parts.

`SafeWhen` does the same where some errors are as bad as a refused request: it says when a
computation meets neither and asks for nothing beyond its bounds.
-/

/-- A result, and the requests that were made before it. -/
structure Metered (ρ ε α : Type) where
  requests : List ρ
  result : Except ε α

namespace Metered

variable {ρ ε ε' α β : Type}

/-- What can be had without a request. -/
def ofExcept (inj : ε → ε') (x : Except ε α) : Metered ρ ε' α := ⟨[], x.mapError inj⟩

/-- A request, which is refused unless `granted` holds. -/
def request (r : ρ) (granted : Prop) [Decidable granted] (refused : ε) : Metered ρ ε Unit :=
  ⟨[r], if granted then .ok () else .error refused⟩

/-- One computation after the other. -/
def andThen (t : Metered ρ ε α) (f : α → Metered ρ ε β) : Metered ρ ε β :=
  match t.result with
  | .ok a => ⟨t.requests ++ (f a).requests, (f a).result⟩
  | .error e => ⟨t.requests, .error e⟩

instance : Monad (Metered ρ ε) where
  pure a := ⟨[], .ok a⟩
  bind := andThen

variable {t : Metered ρ ε α} {a : α}

theorem bind_of_ok (h : t.result = .ok a) (f : α → Metered ρ ε β) :
    t >>= f = ⟨t.requests ++ (f a).requests, (f a).result⟩ := by
  change t.andThen f = _
  rw [andThen, h]

theorem bind_of_error {e : ε} (h : t.result = .error e) (f : α → Metered ρ ε β) :
    t >>= f = ⟨t.requests, .error e⟩ := by
  change t.andThen f = _
  rw [andThen, h]

theorem andThen_pure (t : Metered ρ ε α) : t >>= pure = t := by
  obtain ⟨requests, result⟩ := t
  cases result with
  | error e => rw [bind_of_error rfl]
  | ok a =>
    rw [bind_of_ok rfl]
    change (⟨requests ++ [], .ok a⟩ : Metered ρ ε α) = _
    rw [List.append_nil]

theorem andThen_assoc {γ : Type} (t : Metered ρ ε α) (f : α → Metered ρ ε β)
    (g : β → Metered ρ ε γ) : t >>= f >>= g = t >>= fun a => f a >>= g := by
  cases ht : t.result with
  | error e =>
    rw [bind_of_error ht f, bind_of_error ht fun a => f a >>= g]
    exact bind_of_error rfl g
  | ok a =>
    rw [bind_of_ok ht f, bind_of_ok ht fun a => f a >>= g]
    cases hf : (f a).result with
    | error e =>
      rw [bind_of_error hf]
      exact bind_of_error rfl g
    | ok b =>
      rw [bind_of_ok hf, ← List.append_assoc]
      exact bind_of_ok rfl g

instance : LawfulMonad (Metered ρ ε) :=
  LawfulMonad.mk' _ andThen_pure (fun a f => bind_of_ok rfl f) andThen_assoc

/-! ### Requests within bounds -/

variable (Granted Within : ρ → Prop) (refused : ε') (inj : ε → ε')

/-- `t` ends as `x` does, unless a request is refused, and `C` says when every request is granted
and within bounds. -/
structure Follows (t : Metered ρ ε' α) (x : Except ε α) (C : Prop) : Prop where
  result : (t.result = .error refused ∧ ∃ r ∈ t.requests, ¬ Granted r) ∨
    (t.result = x.mapError inj ∧ ∀ r ∈ t.requests, Granted r)
  within : (∀ r ∈ t.requests, Granted r ∧ Within r) ↔ C

variable {Granted Within refused inj} {t : Metered ρ ε' α} {x : Except ε α} {C : Prop}

theorem Follows.congr {D : Prop} (h : Follows Granted Within refused inj t x C) (hCD : C ↔ D) :
    Follows Granted Within refused inj t x D :=
  ⟨h.result, h.within.trans hCD⟩

theorem Follows.safe_iff (h : Follows Granted Within refused inj t x C)
    (hinj : ∀ e, inj e ≠ refused) :
    (t.result ≠ .error refused ∧ ∀ r ∈ t.requests, Within r) ↔ C := by
  rw [← h.within]
  rcases h.result with ⟨hrefused, r, hr, hno⟩ | ⟨hresult, hgranted⟩
  · exact ⟨fun hsafe => absurd hrefused hsafe.1, fun hgood => absurd (hgood r hr).1 hno⟩
  · constructor
    · exact fun hsafe r hr => ⟨hgranted r hr, hsafe.2 r hr⟩
    · refine fun hgood => ⟨fun hrefused => ?_, fun r hr => (hgood r hr).2⟩
      rw [hresult] at hrefused
      cases x with
      | ok a => exact absurd hrefused (by simp [Except.mapError])
      | error e => exact hinj e (Except.error.inj hrefused)

theorem follows_ofExcept (x : Except ε α) :
    Follows Granted Within refused inj (ofExcept inj x) x True :=
  ⟨Or.inr ⟨rfl, fun _ hr => absurd hr List.not_mem_nil⟩,
    iff_true_intro fun _ hr => absurd hr List.not_mem_nil⟩

theorem follows_pure (a : α) : Follows Granted Within refused inj (pure a) (.ok a) True :=
  follows_ofExcept (.ok a)

theorem follows_request (r : ρ) [Decidable (Granted r)] :
    Follows Granted Within refused inj (request r (Granted r) refused) (.ok ())
      (Granted r ∧ Within r) := by
  refine ⟨?_, by simp [request]⟩
  by_cases h : Granted r
  · exact Or.inr ⟨if_pos h, fun r' hr' => List.mem_singleton.mp hr' ▸ h⟩
  · exact Or.inl ⟨if_neg h, r, List.mem_singleton_self r, h⟩

/-- **The rule of sequence.** The second half counts only if it is reached. -/
theorem Follows.bind {f : α → Metered ρ ε' β} {g : α → Except ε β} {D : α → Prop}
    (h : Follows Granted Within refused inj t x C)
    (hf : ∀ a, x = .ok a → Follows Granted Within refused inj (f a) (g a) (D a)) :
    Follows Granted Within refused inj (t >>= f) (x >>= g) (C ∧ ∀ a, x = .ok a → D a) := by
  have hwithin := h.within
  rcases h.result with ⟨hrefused, r, hr, hno⟩ | ⟨hresult, hgranted⟩
  · -- the second half is not reached
    rw [bind_of_error hrefused]
    refine ⟨Or.inl ⟨rfl, r, hr, hno⟩, ?_⟩
    have hC : ¬ C := fun hC => hno (hwithin.mpr hC r hr).1
    exact iff_of_false (fun hgood => hno (hgood r hr).1) fun hCD => hC hCD.1
  · cases hx : x with
    | error e =>
      rw [hx] at hresult
      rw [bind_of_error hresult]
      refine ⟨Or.inr ⟨rfl, hgranted⟩, hwithin.trans ?_⟩
      exact ⟨fun hC => ⟨hC, fun a ha => absurd ha (by simp)⟩, fun hCD => hCD.1⟩
    | ok a =>
      rw [hx] at hresult
      rw [bind_of_ok hresult]
      obtain ⟨hresult', hwithin'⟩ := hf a hx
      constructor
      · rcases hresult' with ⟨hrefused, r, hr, hno⟩ | ⟨hresult', hgranted'⟩
        · exact Or.inl ⟨hrefused, r, List.mem_append_right _ hr, hno⟩
        · refine Or.inr ⟨hresult', fun r hr => ?_⟩
          exact (List.mem_append.mp hr).elim (hgranted r) (hgranted' r)
      · rw [List.forall_mem_append, hwithin, hwithin']
        exact ⟨fun hCD => ⟨hCD.1, fun a' ha' => Except.ok.inj ha' ▸ hCD.2⟩,
          fun hCD => ⟨hCD.1, hCD.2 a rfl⟩⟩

/-! ### Runs that do not go wrong -/

section Safe

variable (Within : ρ → Prop) (Bad : ε' → Prop) (inj : ε → ε')

/-- The computation ends with no bad error, and all its requests are within bounds. -/
structure Safe (t : Metered ρ ε' α) : Prop where
  result : ∀ e, t.result = .error e → ¬ Bad e
  within : ∀ r ∈ t.requests, Within r

/-- `C` says when `t` is safe, and then it ends as `x` does. -/
structure SafeWhen (t : Metered ρ ε' α) (x : Except ε α) (C : Prop) : Prop where
  safe_iff : t.Safe Within Bad ↔ C
  result : C → t.result = x.mapError inj

variable {Within Bad inj} {t : Metered ρ ε' α} {x : Except ε α} {C D : Prop}

theorem SafeWhen.congr (h : SafeWhen Within Bad inj t x C) (hCD : C ↔ D) :
    SafeWhen Within Bad inj t x D :=
  ⟨h.safe_iff.trans hCD, fun hD => h.result (hCD.mpr hD)⟩

variable {f : α → Metered ρ ε' β}

theorem safe_bind_iff : (t >>= f).Safe Within Bad ↔
    t.Safe Within Bad ∧ ∀ a, t.result = .ok a → (f a).Safe Within Bad := by
  cases hresult : t.result with
  | error e =>
    rw [bind_of_error hresult]
    constructor
    · intro h
      refine ⟨⟨fun e' he' => ?_, h.within⟩, fun a ha => absurd ha (by simp)⟩
      obtain rfl := Except.error.inj (hresult.symm.trans he')
      exact h.result e rfl
    · rintro ⟨h, -⟩
      refine ⟨fun e' he' => ?_, h.within⟩
      obtain rfl := Except.error.inj he'
      exact h.result e hresult
  | ok a =>
    rw [bind_of_ok hresult]
    constructor
    · intro h
      have hwithin := List.forall_mem_append.mp h.within
      refine ⟨⟨fun e he => absurd (hresult.symm.trans he) (by simp), hwithin.1⟩, ?_⟩
      rintro a' ⟨⟩
      exact ⟨h.result, hwithin.2⟩
    · rintro ⟨h, hf⟩
      obtain ⟨hresult', hwithin'⟩ := hf a rfl
      exact ⟨hresult', List.forall_mem_append.mpr ⟨h.within, hwithin'⟩⟩

/-- A first half, and what remains to be shown of the second one. -/
theorem SafeWhen.safe_bind_iff (h : SafeWhen Within Bad inj t x C) :
    (t >>= f).Safe Within Bad ↔ C ∧ ∀ a, x = .ok a → (f a).Safe Within Bad := by
  rw [Metered.safe_bind_iff, h.safe_iff]
  refine and_congr_right fun hC => forall_congr' fun a => ?_
  rw [h.result hC, Except.mapError_eq_ok_iff]

/-- **The rule of sequence.** -/
theorem SafeWhen.bind {g : α → Except ε β} {D : α → Prop} (h : SafeWhen Within Bad inj t x C)
    (hf : ∀ a, x = .ok a → SafeWhen Within Bad inj (f a) (g a) (D a)) :
    SafeWhen Within Bad inj (t >>= f) (x >>= g) (C ∧ ∀ a, x = .ok a → D a) := by
  constructor
  · rw [h.safe_bind_iff]
    exact and_congr_right fun _ => forall_congr' fun a => forall_congr' fun ha => (hf a ha).safe_iff
  · rintro ⟨hC, hD⟩
    have hresult := h.result hC
    cases hx : x with
    | error e =>
      rw [hx] at hresult
      rw [bind_of_error hresult]
      rfl
    | ok a =>
      rw [hx] at hresult
      rw [bind_of_ok hresult]
      exact (hf a hx).result (hD a hx)

theorem safeWhen_ofExcept (x : Except ε α) : SafeWhen Within Bad inj (ofExcept inj x) x
    (∀ e, x = .error e → ¬ Bad (inj e)) := by
  refine ⟨⟨fun h e he => h.result (inj e) ?_, fun h => ⟨fun e' he' => ?_, ?_⟩⟩, fun _ => rfl⟩
  · rw [he]
    rfl
  · cases x with
    | ok a => exact absurd he' (by simp [ofExcept, Except.mapError])
    | error e =>
      obtain rfl := Except.error.inj he'
      exact h e rfl
  · exact fun r hr => absurd hr List.not_mem_nil

theorem safeWhen_pure (a : α) : SafeWhen Within Bad inj (pure a) (.ok a) True :=
  (safeWhen_ofExcept (.ok a)).congr (iff_true_intro fun _ he => absurd he (by simp))

theorem safeWhen_request (r : ρ) {granted : Prop} [Decidable granted] {refused : ε'}
    (hbad : Bad refused) : SafeWhen Within Bad inj (request r granted refused) (.ok ())
      (granted ∧ Within r) := by
  by_cases hgranted : granted
  · refine ⟨⟨fun h => ⟨hgranted, h.within r (List.mem_singleton_self r)⟩, fun h => ⟨?_, ?_⟩⟩, ?_⟩
    · exact fun e he => absurd (((if_pos hgranted).symm.trans he) : Except.ok () = _) (by simp)
    · exact fun r' hr' => List.mem_singleton.mp hr' ▸ h.2
    · exact fun _ => if_pos hgranted
  · refine ⟨iff_of_false (fun h => ?_) fun h => hgranted h.1, fun h => absurd h.1 hgranted⟩
    exact h.result refused (if_neg hgranted) hbad

end Safe

/-! ### Everywhere on the way -/

/-- `P` holds wherever the steps lead. -/
def Everywhere (step : α → α → Prop) (P : α → Prop) (a : α) : Prop :=
  ∀ b, Relation.ReflTransGen step a b → P b

theorem everywhere_iff {step : α → α → Prop} {P : α → Prop} :
    Everywhere step P a ↔ P a ∧ ∀ b, step a b → Everywhere step P b := by
  constructor
  · intro h
    exact ⟨h a .refl, fun b hb c hc => h c (.head hb hc)⟩
  · rintro ⟨ha, hnext⟩ b hb
    rcases Relation.ReflTransGen.cases_head hb with rfl | ⟨c, hc, hb⟩
    · exact ha
    · exact hnext c hc b hb

end Metered
