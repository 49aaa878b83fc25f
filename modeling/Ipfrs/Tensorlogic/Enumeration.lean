import Ipfrs.Tensorlogic.Resolution

/-!
# The search without its limits

Without limits, the search is an enumeration: the answers of a goal are one for each fact that
unifies with it, and then, rule by rule, the answers of the body. In a knowledge base without
function symbols every call of `unify` comes to an end, and as long as no list of answers gets as
long as the limit allows, what the search returns is what is enumerated.

* `allAnswers`, `mostAnswers` — the enumeration, and the longest list that is made on the way;
* `flat_of_mem_allAnswers` — without function symbols there are none in an answer;
* `solveGoal_eq` — below the limits, the search returns all answers.
-/

namespace Ipfrs.Tensorlogic

/-! ### Without function symbols -/

/-- Not a function. -/
def Term.Flat : Term → Prop
  | .func _ _ => False
  | .var _ => True
  | .const _ => True
  | .ref _ => True

instance : DecidablePred Term.Flat
  | .func _ _ => isFalse id
  | .var _ => isTrue trivial
  | .const _ => isTrue trivial
  | .ref _ => isTrue trivial

/-- No argument is a function. -/
def Predicate.Flat (p : Predicate) : Prop := ∀ t ∈ p.args, t.Flat

instance (p : Predicate) : Decidable p.Flat := inferInstanceAs (Decidable (∀ t ∈ p.args, t.Flat))

/-- No variable is bound to a function. -/
def Substitution.Flat (σ : Substitution) : Prop := ∀ x t, σ.lookup x = some t → t.Flat

/-- There are no function symbols in a knowledge base. -/
structure KnowledgeBase.FunctionFree (kb : KnowledgeBase) : Prop where
  facts : ∀ p ∈ kb.facts, p.Flat
  heads : ∀ r ∈ kb.rules, r.head.Flat
  bodies : ∀ r ∈ kb.rules, ∀ p ∈ r.body, p.Flat

theorem Substitution.Flat.empty : Substitution.Flat ∅ := by
  intro x t h
  rw [Finmap.lookup_empty] at h
  cases h

variable {σ : Substitution} {v : String} {t t1 t2 : Term} {r : Rule}

theorem Substitution.Flat.insert (h : σ.Flat) (ht : t.Flat) : Substitution.Flat (σ.insert v t) :=
  forall_lookup_insert (P := fun _ (t : Term) => t.Flat) h ht

theorem Term.Flat.apply (hσ : σ.Flat) (ht : t.Flat) : (applySubstTerm σ t).Flat := by
  cases t with
  | var v =>
    rw [applySubstTerm]
    cases h : σ.lookup v with
    | none => exact trivial
    | some u => exact hσ v u h
  | const c => exact trivial
  | func f args => exact ht.elim
  | ref r => exact trivial

theorem Predicate.Flat.apply (hσ : σ.Flat) {p : Predicate} (hp : p.Flat) :
    (applySubstPredicate σ p).Flat := by
  intro t ht
  obtain ⟨u, hu, rfl⟩ := List.mem_map.mp ht
  exact (hp u hu).apply hσ

theorem flat_renameSubst (r : Rule) (d : ℕ) : (renameSubst r d).Flat := by
  intro x t h
  rw [lookup_renameSubst] at h
  split at h
  · obtain rfl := Option.some.inj h
    exact trivial
  · cases h

theorem flat_renamedHead (h : r.head.Flat) (d : ℕ) : (renameRuleVars r d).head.Flat :=
  h.apply (flat_renameSubst r d)

theorem flat_renamedBody (h : ∀ p ∈ r.body, p.Flat) (d : ℕ) :
    ∀ p ∈ (renameRuleVars r d).body, p.Flat := by
  intro p hp
  obtain ⟨q, hq, rfl⟩ := List.mem_map.mp hp
  exact (h q hq).apply (flat_renameSubst r d)

theorem BindsNow.flat (h : BindsNow t1 t2 σ v t) (h1 : t1.Flat) (h2 : t2.Flat) (hσ : σ.Flat) :
    t.Flat := by
  rcases h.1 with ⟨-, rfl⟩ | ⟨-, -, rfl⟩
  · exact h2.apply hσ
  · exact h1.apply hσ

/-- A call of `unify` without functions comes to an end, and makes none. -/
theorem exists_unify_of_flat (h1 : t1.Flat) (h2 : t2.Flat) (hσ : σ.Flat) (fuel : ℕ) :
    ∃ r, unify (fuel + 1) t1 t2 σ = some r ∧ ∀ σ' ∈ r, Substitution.Flat σ' := by
  cases unifyCase t1 t2 σ with
  | same same eq => exact ⟨_, eq fuel, by simpa using hσ⟩
  | bind v t now eq =>
    refine ⟨_, eq fuel, ?_⟩
    rintro σ' ⟨⟩
    exact hσ.insert (now.flat h1 h2 hσ)
  | func f as bs left right length eq =>
    have hflat := h1.apply hσ
    rw [left] at hflat
    exact hflat.elim
  | clash ne eq => exact ⟨_, eq fuel, by simp⟩

theorem exists_unifyArgs_of_flat {pairs : List (Term × Term)}
    (hpairs : ∀ p ∈ pairs, p.1.Flat ∧ p.2.Flat) (hσ : σ.Flat) (fuel : ℕ) :
    ∃ r, unifyArgs (unify (fuel + 1)) pairs σ = some r ∧ ∀ σ' ∈ r, Substitution.Flat σ' := by
  induction pairs generalizing σ with
  | nil => exact ⟨some σ, rfl, by simpa using hσ⟩
  | cons p rest ih =>
    obtain ⟨hp, hrest⟩ := List.forall_mem_cons.mp hpairs
    obtain ⟨r, hr, hflat⟩ := exists_unify_of_flat hp.1 hp.2 hσ fuel
    cases r with
    | none =>
      refine ⟨none, ?_, by simp⟩
      rw [unifyArgs, hr]
      rfl
    | some σ₁ =>
      obtain ⟨r, hr₁, hflat₁⟩ := ih hrest (hflat σ₁ rfl)
      refine ⟨r, ?_, hflat₁⟩
      rw [unifyArgs, hr]
      exact hr₁

/-! ### The enumeration -/

/-- What `unify_predicates` returns, where it comes to an end. -/
def attempt (fuel : ℕ) (goal head : Predicate) (σ : Substitution) : Option Substitution :=
  (unifyPredicates fuel goal head σ).join

theorem attempt_spec (fuel : ℕ) {goal head : Predicate} (hgoal : goal.Flat) (hhead : head.Flat)
    (hσ : σ.Flat) :
    unifyPredicates (fuel + 1) goal head σ = some (attempt (fuel + 1) goal head σ) ∧
      ∀ σ' ∈ attempt (fuel + 1) goal head σ, Substitution.Flat σ' := by
  have hrun : ∃ r, unifyPredicates (fuel + 1) goal head σ = some r ∧
      ∀ σ' ∈ r, Substitution.Flat σ' := by
    rw [unifyPredicates]
    split
    · exact ⟨none, rfl, by simp⟩
    · refine exists_unifyArgs_of_flat (fun p hp => ?_) hσ fuel
      exact ⟨hgoal _ (List.of_mem_zip hp).1, hhead _ (List.of_mem_zip hp).2⟩
  obtain ⟨r, hr, hflat⟩ := hrun
  rw [attempt, hr]
  exact ⟨rfl, hflat⟩

/-- All answers of a conjunction, with those of a single goal. -/
def allConjunction (answers : Predicate → Substitution → List Substitution) :
    List Predicate → Substitution → List Substitution
  | [], σ => [σ]
  | goal :: rest, σ => (answers goal σ).flatMap (allConjunction answers rest)

/-- All answers of the rules, with those of a conjunction. -/
def allRules (fuel : ℕ) (answers : List Predicate → Substitution → List Substitution)
    (goal : Predicate) (σ : Substitution) (depth : ℕ) (rules : List Rule) : List Substitution :=
  rules.flatMap fun rule =>
    (attempt fuel goal (renameRuleVars rule depth).head σ).elim []
      (answers (renameRuleVars rule depth).body)

/-- **All answers of a goal**, down to a number of levels. -/
def allAnswers (fuel : ℕ) (kb : KnowledgeBase) :
    (levels depth : ℕ) → Predicate → Substitution → List Substitution
  | 0, _, _, _ => []
  | levels + 1, depth, goal, σ =>
    let goal := applySubstPredicate σ goal
    (kb.getPredicates goal.name).filterMap (fun fact => attempt fuel goal fact σ) ++
      allRules fuel (allConjunction (allAnswers fuel kb levels (depth + 1))) goal σ depth
        (kb.getRules goal.name)

/-- The longest list of answers that is made for a conjunction: for its first goal, or with an
answer of that for the rest. -/
def mostConjunction (answers : Predicate → Substitution → List Substitution)
    (most : Predicate → Substitution → ℕ) : List Predicate → Substitution → ℕ
  | [], _ => 0
  | goal :: rest, σ =>
    max (most goal σ) (((answers goal σ).map (mostConjunction answers most rest)).foldr max 0)

/-- **The longest list of answers** that is made: for the goal itself, or for a goal on the way. -/
def mostAnswers (fuel : ℕ) (kb : KnowledgeBase) :
    (levels depth : ℕ) → Predicate → Substitution → ℕ
  | 0, _, _, _ => 0
  | levels + 1, depth, goal, σ =>
    max (allAnswers fuel kb (levels + 1) depth goal σ).length
      (((kb.getRules goal.name).map fun rule =>
        (attempt fuel (applySubstPredicate σ goal) (renameRuleVars rule depth).head σ).elim 0
          (mostConjunction (allAnswers fuel kb levels (depth + 1))
            (mostAnswers fuel kb levels (depth + 1)) (renameRuleVars rule depth).body)).foldr max 0)

theorem flat_of_mem_allConjunction {answers : Predicate → Substitution → List Substitution}
    {goals : List Predicate}
    (hanswers : ∀ g ∈ goals, ∀ σ : Substitution, σ.Flat → ∀ s ∈ answers g σ, Substitution.Flat s)
    (hσ : σ.Flat) : ∀ s ∈ allConjunction answers goals σ, s.Flat := by
  induction goals generalizing σ with
  | nil =>
    intro s hs
    obtain rfl := List.mem_singleton.mp hs
    exact hσ
  | cons g rest ih =>
    intro s hs
    obtain ⟨σ₁, hσ₁, hs⟩ := List.mem_flatMap.mp hs
    obtain ⟨hg, hrest⟩ := List.forall_mem_cons.mp hanswers
    exact ih hrest (hg σ hσ σ₁ hσ₁) s hs

section Enumeration

variable {engine : InferenceEngine} {fuel : ℕ} {kb : KnowledgeBase}
variable {levels depth : ℕ} {goal : Predicate} {σ : Substitution} {sols : List Substitution}

theorem flat_of_mem_allAnswers (hkb : kb.FunctionFree) (hgoal : goal.Flat) (hσ : σ.Flat) :
    ∀ s ∈ allAnswers (fuel + 1) kb levels depth goal σ, s.Flat := by
  induction levels generalizing depth goal σ with
  | zero =>
    intro s hs
    cases hs
  | succ levels ih =>
    intro s hs
    have hgoal' := hgoal.apply hσ
    rcases List.mem_append.mp hs with hs | hs
    · obtain ⟨f, hf, hs⟩ := List.mem_filterMap.mp hs
      have hflat := hkb.facts f (KnowledgeBase.mem_getPredicates.mp hf).1
      exact (attempt_spec fuel hgoal' hflat hσ).2 s hs
    · obtain ⟨r, hr, hs⟩ := List.mem_flatMap.mp hs
      have hr := (KnowledgeBase.mem_getRules.mp hr).1
      have hspec := attempt_spec fuel hgoal' (flat_renamedHead (hkb.heads r hr) depth) hσ
      cases h : attempt (fuel + 1) (applySubstPredicate σ goal) (renameRuleVars r depth).head σ with
      | none =>
        rw [h] at hs
        cases hs
      | some σ₁ =>
        rw [h] at hs
        have hbody := flat_renamedBody (hkb.bodies r hr) depth
        exact flat_of_mem_allConjunction (fun g hg σ hσ => ih (hbody g hg) hσ)
          (hspec.2 σ₁ h) s hs

/-! ### Below the limits -/

theorem solveFacts_eq (hgoal : goal.Flat) (hσ : σ.Flat) {facts : List Predicate}
    (hfacts : ∀ f ∈ facts, f.Flat)
    (hlimit : (sols ++ facts.filterMap fun f => attempt (fuel + 1) goal f σ).length <
      engine.maxSolutions) :
    engine.solveFacts (fuel + 1) goal σ facts sols =
      some (sols ++ facts.filterMap (fun f => attempt (fuel + 1) goal f σ), false) := by
  induction facts generalizing sols with
  | nil => rw [InferenceEngine.solveFacts, List.filterMap_nil, List.append_nil]; rfl
  | cons f facts ih =>
    obtain ⟨hf, hfacts⟩ := List.forall_mem_cons.mp hfacts
    have hcall := (attempt_spec fuel hgoal hf hσ).1
    rw [InferenceEngine.solveFacts, hcall]
    cases h : attempt (fuel + 1) goal f σ with
    | none =>
      have hskip : (f :: facts).filterMap (fun f => attempt (fuel + 1) goal f σ) =
          facts.filterMap fun f => attempt (fuel + 1) goal f σ := List.filterMap_cons_none h
      rw [hskip] at hlimit ⊢
      exact ih hfacts hlimit
    | some σ₁ =>
      have hpush : (f :: facts).filterMap (fun f => attempt (fuel + 1) goal f σ) =
          σ₁ :: facts.filterMap fun f => attempt (fuel + 1) goal f σ := List.filterMap_cons_some h
      rw [hpush, List.append_cons] at hlimit ⊢
      have hroom : ¬ (sols ++ [σ₁]).length ≥ engine.maxSolutions := by
        rw [List.length_append] at hlimit
        omega
      show (if (sols ++ [σ₁]).length ≥ engine.maxSolutions then _ else _) = _
      rw [if_neg hroom]
      exact ih hfacts hlimit

theorem solveConjunction_eq
    {solveGoal : Predicate → Substitution → List Substitution → Option (List Substitution)}
    {answers : Predicate → Substitution → List Substitution} {most : Predicate → Substitution → ℕ}
    {goals : List Predicate}
    (hsolve : ∀ g ∈ goals, ∀ σ : Substitution, σ.Flat → most g σ < engine.maxSolutions →
      solveGoal g σ [] = some (answers g σ))
    (hflat : ∀ g ∈ goals, ∀ σ : Substitution, σ.Flat → ∀ s ∈ answers g σ, Substitution.Flat s)
    (hσ : σ.Flat) (hmost : mostConjunction answers most goals σ < engine.maxSolutions)
    (hlimit : (sols ++ allConjunction answers goals σ).length < engine.maxSolutions) :
    engine.solveConjunction solveGoal goals σ sols =
      some (sols ++ allConjunction answers goals σ) := by
  induction goals generalizing σ sols with
  | nil => rfl
  | cons g rest ih =>
    obtain ⟨hsolve, hsolves⟩ := List.forall_mem_cons.mp hsolve
    obtain ⟨hflat, hflats⟩ := List.forall_mem_cons.mp hflat
    rw [mostConjunction, max_lt_iff] at hmost
    rw [InferenceEngine.solveConjunction, hsolve σ hσ hmost.1]
    -- the answers of the first goal, one after the other
    have hloop : ∀ intermediate : List Substitution, (∀ s ∈ intermediate, s ∈ answers g σ) →
        ∀ sols : List Substitution,
        (sols ++ intermediate.flatMap (allConjunction answers rest)).length < engine.maxSolutions →
        intermediate.foldlM (fun sols s =>
            if sols.length ≥ engine.maxSolutions then return sols
            else engine.solveConjunction solveGoal rest s sols) sols =
          some (sols ++ intermediate.flatMap (allConjunction answers rest)) := by
      intro intermediate
      induction intermediate with
      | nil =>
        intro _ sols _
        rw [List.foldlM_nil, List.flatMap_nil, List.append_nil]
        rfl
      | cons s intermediate ihloop =>
        intro hsub sols hlimit
        obtain ⟨hs, hsub⟩ := List.forall_mem_cons.mp hsub
        rw [List.flatMap_cons, ← List.append_assoc] at hlimit ⊢
        have hfirst : (sols ++ allConjunction answers rest s).length < engine.maxSolutions := by
          rw [List.length_append] at hlimit
          omega
        have hroom : ¬ sols.length ≥ engine.maxSolutions := by
          rw [List.length_append] at hfirst
          omega
        have hmost : mostConjunction answers most rest s < engine.maxSolutions :=
          (List.le_max_of_le (List.mem_map_of_mem hs) le_rfl).trans_lt hmost.2
        rw [List.foldlM_cons, if_neg hroom, ih hsolves hflats (hflat σ hσ s hs) hmost hfirst]
        exact ihloop hsub _ hlimit
    exact hloop _ (fun s hs => hs) sols hlimit

theorem solveRules_eq (hkb : kb.FunctionFree)
    {solveConjunction : List Predicate → Substitution → List Substitution →
      Option (List Substitution)} {answers : List Predicate → Substitution → List Substitution}
    (hgoal : goal.Flat) (hσ : σ.Flat) {rules : List Rule} (hrules : ∀ r ∈ rules, r ∈ kb.rules)
    (hsolve : ∀ r ∈ rules, ∀ σ₁ ∈ attempt (fuel + 1) goal (renameRuleVars r depth).head σ,
      ∀ sols : List Substitution,
        (sols ++ answers (renameRuleVars r depth).body σ₁).length < engine.maxSolutions →
          solveConjunction (renameRuleVars r depth).body σ₁ sols =
            some (sols ++ answers (renameRuleVars r depth).body σ₁))
    (hlimit : (sols ++ allRules (fuel + 1) answers goal σ depth rules).length <
      engine.maxSolutions) :
    InferenceEngine.solveRules (fuel + 1) solveConjunction goal σ depth rules sols =
      some (sols ++ allRules (fuel + 1) answers goal σ depth rules) := by
  induction rules generalizing sols with
  | nil => rw [InferenceEngine.solveRules, allRules, List.flatMap_nil, List.append_nil]; rfl
  | cons r rules ih =>
    obtain ⟨hr, hrules⟩ := List.forall_mem_cons.mp hrules
    obtain ⟨hsolve, hsolves⟩ := List.forall_mem_cons.mp hsolve
    have hcall := (attempt_spec fuel hgoal (flat_renamedHead (hkb.heads r hr) depth) hσ).1
    rw [allRules, List.flatMap_cons, ← allRules] at hlimit ⊢
    rw [InferenceEngine.solveRules, hcall]
    cases h : attempt (fuel + 1) goal (renameRuleVars r depth).head σ with
    | none =>
      rw [h] at hlimit
      exact ih hrules hsolves hlimit
    | some σ₁ =>
      rw [h, Option.elim_some, ← List.append_assoc] at hlimit
      -- the limit is not reached by the answers of this rule either
      have hfirst : (sols ++ answers (renameRuleVars r depth).body σ₁).length <
          engine.maxSolutions := by
        rw [List.length_append] at hlimit
        omega
      show (solveConjunction (renameRuleVars r depth).body σ₁ sols >>= fun sols => _) = _
      rw [hsolve σ₁ h sols hfirst, Option.elim_some, ← List.append_assoc]
      exact ih hrules hsolves hlimit

/-- **Below the limit** the search for a goal returns all its answers. -/
theorem solveGoal_eq (hkb : kb.FunctionFree) (hgoal : goal.Flat) (hσ : σ.Flat)
    (hmost : mostAnswers (fuel + 1) kb levels depth goal σ < engine.maxSolutions) :
    engine.solveGoal (fuel + 1) kb levels depth goal σ [] =
      some (allAnswers (fuel + 1) kb levels depth goal σ) := by
  induction levels generalizing depth goal σ with
  | zero => rfl
  | succ levels ih =>
    rw [mostAnswers, max_lt_iff] at hmost
    obtain ⟨hlength, hmost⟩ := hmost
    have hroom : ¬ ([] : List Substitution).length ≥ engine.maxSolutions := by
      rw [List.length_nil]
      omega
    have hgoal' := hgoal.apply hσ
    rw [allAnswers] at hlength ⊢
    have hfacts : ∀ f ∈ kb.getPredicates (applySubstPredicate σ goal).name, f.Flat :=
      fun f hf => hkb.facts f (KnowledgeBase.mem_getPredicates.mp hf).1
    -- the answers from the facts are among all answers
    have hfew : ([] ++ (kb.getPredicates (applySubstPredicate σ goal).name).filterMap fun f =>
        attempt (fuel + 1) (applySubstPredicate σ goal) f σ).length < engine.maxSolutions := by
      rw [List.nil_append]
      rw [List.length_append] at hlength
      omega
    have hsolved := solveFacts_eq hgoal' hσ hfacts hfew
    rw [List.nil_append] at hsolved
    rw [InferenceEngine.solveGoal, if_neg hroom]
    dsimp only
    rw [hsolved]
    refine solveRules_eq hkb hgoal' hσ (fun r hr => (KnowledgeBase.mem_getRules.mp hr).1)
      (fun r hr σ₁ hσ₁ sols hlimit => ?_) hlength
    have hrule := (KnowledgeBase.mem_getRules.mp hr).1
    have hbody := flat_renamedBody (hkb.bodies r hrule) depth
    have hhead := flat_renamedHead (hkb.heads r hrule) depth
    have hflat₁ := (attempt_spec fuel hgoal' hhead hσ).2 σ₁ hσ₁
    -- the most answers on the way through this rule are among those of the goal
    have hle := List.le_max_of_le (List.mem_map_of_mem (f := fun rule => (attempt (fuel + 1)
      (applySubstPredicate σ goal) (renameRuleVars rule depth).head σ).elim 0
        (mostConjunction (allAnswers (fuel + 1) kb levels (depth + 1))
          (mostAnswers (fuel + 1) kb levels (depth + 1)) (renameRuleVars rule depth).body)) hr)
      le_rfl
    rw [hσ₁, Option.elim_some] at hle
    exact solveConjunction_eq (fun g hg σ hσ hmost => ih (hbody g hg) hσ hmost)
      (fun g hg σ hσ => flat_of_mem_allAnswers hkb (hbody g hg) hσ) hflat₁
      (hle.trans_lt hmost) hlimit

end Enumeration

end Ipfrs.Tensorlogic
