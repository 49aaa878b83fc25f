import Ipfrs.Tensorlogic.Resolution

/-!
# What a proof proves

The search for a proof goes through the facts and rules like the search for answers, but it proves
every goal of a rule's body under the substitution of the head, and drops what the proof of one goal
binds before it turns to the next. So `Proved` is `Derivation` with one substitution for all goals
of a list, and a proof is a proof of each goal by itself.

Body goals that share no variable once the bindings are followed (`Apart`) have instances that do
not get in each other's way, and then one instance of the rule covers them.

* `proved_of_prove` — the search finds nothing else;
* `exists_common_instance` — instances of body goals that are apart are instances of one solution;
* `Proved.sound` — every goal has an instance that is a consequence;
* `prove_sound` — so a goal that is proved has one, and a ground goal is one.
-/

namespace Ipfrs.Tensorlogic

open Terms Horn

/-- A fact or rule that is used: the call for its head, and the body under the result. -/
structure ProofStep where
  call : UnifyCall
  body : List Predicate
  subst : Substitution

/-- No two goals of the list have a variable in common, with the bindings applied until nothing
changes. -/
def Apart (goals : List Predicate) (σ : Substitution) : Prop :=
  ∃ n, (∀ p ∈ goals, applySubstPredicate σ ((applySubstPredicate σ)^[n] p) =
      (applySubstPredicate σ)^[n] p) ∧
    goals.Pairwise fun p q => ∀ v, v ∈ ((applySubstPredicate σ)^[n] p).variables →
      v ∉ ((applySubstPredicate σ)^[n] q).variables

/-- The call keeps its bindings, and the goals of the body are apart. -/
def ProofStep.Independent (s : ProofStep) : Prop := s.call.Kept ∧ Apart s.body s.subst

/-- A path of the search for a proof of all goals, each under the same substitution. It lists the
facts and rules that it uses. -/
inductive Proved (fuel : ℕ) (kb : KnowledgeBase) :
    ℕ → List Predicate → Substitution → List ProofStep → Prop where
  | nil (d : ℕ) (σ : Substitution) : Proved fuel kb d [] σ []
  | fact {d : ℕ} {goal fact : Predicate} {rest : List Predicate} {σ σ₁ : Substitution}
    {steps : List ProofStep} (mem : fact ∈ kb.getPredicates goal.name)
    (unified : unifyPredicates fuel (applySubstPredicate σ goal) fact σ = some (some σ₁))
    (tail : Proved fuel kb d rest σ steps) :
    Proved fuel kb d (goal :: rest) σ (⟨⟨applySubstPredicate σ goal, fact, σ⟩, [], σ₁⟩ :: steps)
  | rule {d : ℕ} {g : Predicate} {r : Rule} {rest : List Predicate} {σ σ₁ : Substitution}
    {steps steps' : List ProofStep} (mem : r ∈ kb.getRules g.name)
    (unified : unifyPredicates fuel (applySubstPredicate σ g) (renameRuleVars r d).head σ =
      some (some σ₁))
    (body : Proved fuel kb (d + 1) (renameRuleVars r d).body σ₁ steps)
    (tail : Proved fuel kb d rest σ steps') :
    Proved fuel kb d (g :: rest) σ
      (⟨⟨applySubstPredicate σ g, (renameRuleVars r d).head, σ⟩, (renameRuleVars r d).body, σ₁⟩ ::
        (steps ++ steps'))

variable {fuel d : ℕ} {kb : KnowledgeBase} {goal : Predicate} {σ : Substitution}
  {steps : List ProofStep} {goals : List Predicate}

theorem Proved.cons {rest : List Predicate} {steps' : List ProofStep}
    (h : Proved fuel kb d [goal] σ steps) (h' : Proved fuel kb d rest σ steps') :
    Proved fuel kb d (goal :: rest) σ (steps ++ steps') := by
  cases h with
  | fact mem unified tail =>
    cases tail
    exact .fact mem unified h'
  | rule mem unified body tail =>
    cases tail
    rw [List.append_nil]
    exact .rule mem unified body h'

/-! ### The search -/

section Search

variable {engine : InferenceEngine} {fuel : ℕ} {kb : KnowledgeBase}
variable {d : ℕ} {σ : Substitution} {goal : Predicate} {proof : Proof}

theorem proved_of_proveConjunction {proveGoal : Predicate → Substitution → Option (Option Proof)}
    (hgoal : ∀ goal σ proof, proveGoal goal σ = some (some proof) →
      ∃ steps, Proved fuel kb d [goal] σ steps) {goals : List Predicate} {proofs : List Proof}
    (h : InferenceEngine.proveConjunction proveGoal goals σ = some (some proofs)) :
    ∃ steps, Proved fuel kb d goals σ steps := by
  induction goals generalizing proofs with
  | nil => exact ⟨[], .nil d σ⟩
  | cons goal rest ih =>
    rw [InferenceEngine.proveConjunction, Option.bind_eq_bind, Option.bind_eq_some_iff] at h
    obtain ⟨r, hfirst, h⟩ := h
    cases r with
    | none => cases h
    | some proof =>
      obtain ⟨r, hrest, h⟩ := Option.bind_eq_some_iff.mp h
      cases r with
      | none => cases h
      | some proofs =>
        obtain ⟨steps, hsteps⟩ := hgoal goal σ proof hfirst
        obtain ⟨steps', hsteps'⟩ := ih hrest
        exact ⟨_, hsteps.cons hsteps'⟩

theorem proved_of_proveRules
    {proveConjunction : List Predicate → Substitution → Option (Option (List Proof))}
    (hconj : ∀ goals σ proofs, proveConjunction goals σ = some (some proofs) →
      ∃ steps, Proved fuel kb (d + 1) goals σ steps) {rules : List Rule}
    (hrules : ∀ r ∈ rules, r ∈ kb.getRules goal.name)
    (h : InferenceEngine.proveRules fuel proveConjunction (applySubstPredicate σ goal) σ d rules =
      some (some proof)) : ∃ steps, Proved fuel kb d [goal] σ steps := by
  induction rules with
  | nil => cases Option.some.inj h
  | cons rule rules ih =>
    have hrest := fun r hr => hrules r (List.mem_cons_of_mem _ hr)
    rw [InferenceEngine.proveRules, Option.bind_eq_bind, Option.bind_eq_some_iff] at h
    obtain ⟨r, hr, h⟩ := h
    cases r with
    | none => exact ih hrest h
    | some σ₁ =>
      obtain ⟨r, hbody, h⟩ := Option.bind_eq_some_iff.mp h
      cases r with
      | none => exact ih hrest h
      | some proofs =>
        obtain ⟨steps, hsteps⟩ := hconj _ _ _ hbody
        exact ⟨_, .rule (hrules _ List.mem_cons_self) hr hsteps (.nil d σ)⟩

theorem proved_of_proveGoal {levels : ℕ}
    (h : InferenceEngine.proveGoal fuel kb levels d goal σ = some (some proof)) :
    ∃ steps, Proved fuel kb d [goal] σ steps := by
  induction levels generalizing d goal σ proof with
  | zero => cases Option.some.inj h
  | succ levels ih =>
    rw [InferenceEngine.proveGoal, Option.bind_eq_bind, Option.bind_eq_some_iff] at h
    obtain ⟨found, hfound, h⟩ := h
    cases found with
    | true =>
      obtain ⟨fact, hmem, σ₁, hunified⟩ := exists_of_anyUnifies hfound
      exact ⟨_, .fact hmem hunified (.nil d σ)⟩
    | false =>
      refine proved_of_proveRules (fun goals σ proofs hconj => ?_) (fun r hr => hr) h
      exact proved_of_proveConjunction (fun goal σ proof hgoal => ih hgoal) hconj

/-- **The search for a proof** goes along a path of this kind. -/
theorem proved_of_prove (h : engine.prove fuel kb goal = some (some proof)) :
    ∃ steps, Proved fuel kb 0 [goal] ∅ steps :=
  proved_of_proveGoal h

end Search

/-! ### Instances of goals that are apart -/

theorem atom_iterate_of_fixed (h : Acyclic (bindings σ)) {p : Predicate} {n : ℕ}
    (hfix : applySubstPredicate σ ((applySubstPredicate σ)^[n] p) = (applySubstPredicate σ)^[n] p) :
    ((applySubstPredicate σ)^[n] p).atom = p.atom.subst (settled h) := by
  obtain ⟨k, hk⟩ := exists_iterate_applySubstPredicate h p
  have hstay : (applySubstPredicate σ)^[k + n] p = (applySubstPredicate σ)^[n] p := by
    rw [Function.iterate_add_apply, Function.iterate_fixed hfix]
  rw [← hstay]
  exact (hk (k + n) (Nat.le_add_right k n)).1

/-- An instance by a solution is an instance of what the bindings give in the end. -/
theorem subst_eq_subst_settled (h : Acyclic (bindings σ)) {θ : String → Tm Leaf String String}
    (hθ : Solves (free Leaf String String) θ (bindings σ)) (a : Atom String Leaf String String) :
    a.subst θ = (a.subst (settled h)).subst θ := by
  rw [Atom.subst_subst]
  refine Atom.subst_congr fun x _ => ?_
  have hclose : θ = close (h.wellFounded (finite_bindings σ)) (free Leaf String String) θ :=
    eq_close _ _ _ hθ fun _ _ => rfl
  calc θ x = close (h.wellFounded (finite_bindings σ)) (free Leaf String String) θ x :=
        congrFun hclose x
    _ = subst θ (settled h x) :=
        (eval_resolved (h.wellFounded (finite_bindings σ)) (free Leaf String String) θ
          (.var x)).symm

/-- **Instances of goals that are apart** are instances of one solution of the bindings. -/
theorem exists_common_instance (h : Acyclic (bindings σ)) (hapart : Apart goals σ)
    {P : Atom String Leaf String String → Prop}
    (hgoals : ∀ p ∈ goals, ∃ θ, Solves (free Leaf String String) θ (bindings σ) ∧
      P (p.atom.subst θ)) :
    ∃ θ, Solves (free Leaf String String) θ (bindings σ) ∧ ∀ p ∈ goals, P (p.atom.subst θ) := by
  classical
  obtain ⟨n, hfix, hpairwise⟩ := hapart
  have : Nonempty (String → Tm Leaf String String) := ⟨Tm.var⟩
  choose! θ hθ using hgoals
  let wf := h.wellFounded (finite_bindings σ)
  -- a variable takes its value from the goal that it is left in
  let values : String → Tm Leaf String String := fun x =>
    if hx : ∃ p ∈ goals, x ∈ ((applySubstPredicate σ)^[n] p).variables then θ hx.choose x
    else .var x
  have hvalues : ∀ p ∈ goals, ∀ x ∈ ((applySubstPredicate σ)^[n] p).variables,
      values x = θ p x := by
    intro p hp x hx
    have hex : ∃ p ∈ goals, x ∈ ((applySubstPredicate σ)^[n] p).variables := ⟨p, hp, hx⟩
    show (if hx : ∃ p ∈ goals, _ then _ else _) = _
    rw [dif_pos hex]
    obtain ⟨hmem, hxmem⟩ := hex.choose_spec
    by_contra hne
    have : Std.Symm fun p q => ∀ v, v ∈ ((applySubstPredicate σ)^[n] p).variables →
        v ∉ ((applySubstPredicate σ)^[n] q).variables :=
      ⟨fun p q hpq v hv hv' => hpq v hv' hv⟩
    refine hpairwise.forall hmem hp (fun e => hne ?_) x hxmem hx
    rw [e]
  refine ⟨close wf (free Leaf String String) values, solves_close wf _ _, fun p hp => ?_⟩
  have hsame : p.atom.subst (close wf (free Leaf String String) values) = p.atom.subst (θ p) := by
    rw [subst_eq_subst_settled h (solves_close wf _ _), subst_eq_subst_settled h (hθ p hp).1,
      ← atom_iterate_of_fixed h (hfix p hp)]
    refine Atom.subst_congr fun x hx => ?_
    have hunbound : bindings σ x = none := by
      rw [atom_iterate_of_fixed h (hfix p hp)] at hx
      obtain ⟨t, ht, hx⟩ := hx
      obtain ⟨u, -, rfl⟩ := List.mem_map.mp ht
      exact unbound_of_occurs_subst_resolved wf hx
    rw [close_of_unbound wf _ _ hunbound]
    exact hvalues p hp x (Predicate.mem_variables_iff.mpr hx)
  rw [hsame]
  exact (hθ p hp).2

/-! ### Soundness -/

/-- **Each goal of a proof has an instance that is a consequence**, where the goals of every body
that is used are apart. -/
theorem Proved.sound (h : Proved fuel kb d goals σ steps) (hsteps : ∀ s ∈ steps, s.Independent)
    (hacyclic : Acyclic (bindings σ)) :
    ∀ p ∈ goals, ∃ θ, Solves (free Leaf String String) θ (bindings σ) ∧
      Entails (μ := String) kb.program (p.atom.subst θ) := by
  induction h with
  | nil d σ => exact fun p hp => absurd hp List.not_mem_nil
  | @fact d goal fact rest σ σ₁ steps mem unified tail ih =>
    obtain ⟨hstep, hrest⟩ := List.forall_mem_cons.mp hsteps
    refine List.forall_mem_cons.mpr ⟨?_, ih hrest hacyclic⟩
    obtain ⟨hacyclic₁, -, -⟩ := unifyPredicates_sound unified hstep.1 hacyclic
    obtain ⟨hσ, heq⟩ := subst_eq_of_unified unified hstep.1 hacyclic (solves_settled hacyclic₁)
    refine ⟨settled hacyclic₁, hσ, ?_⟩
    rw [heq]
    exact Entails.of_clause (fact_mem_program mem) fun b hb => absurd hb List.not_mem_nil
  | @rule d goal r rest σ σ₁ steps steps' mem unified body tail ihbody ihtail =>
    obtain ⟨hstep, hrest⟩ := List.forall_mem_cons.mp hsteps
    refine List.forall_mem_cons.mpr
      ⟨?_, ihtail (fun s hs => hrest s (List.mem_append_right _ hs)) hacyclic⟩
    obtain ⟨hacyclic₁, -, -⟩ := unifyPredicates_sound unified hstep.1 hacyclic
    have hbody := ihbody (fun s hs => hrest s (List.mem_append_left _ hs)) hacyclic₁
    obtain ⟨θ, hθ, hall⟩ := exists_common_instance hacyclic₁ hstep.2 hbody
    obtain ⟨hσ, heq⟩ := subst_eq_of_unified unified hstep.1 hacyclic hθ
    refine ⟨θ, hσ, ?_⟩
    rw [heq]
    -- the renamed rule is an instance of the rule, so this is one too
    rw [atom_renamedHead, Atom.subst_subst]
    refine Entails.of_clause (c := r.clause) (rule_mem_program mem) fun b hb => ?_
    obtain ⟨q, hq, rfl⟩ := List.mem_map.mp hb
    obtain ⟨p, hp, heq⟩ := mem_renamedBody d hq
    have hp' := hall p hp
    rw [heq, Atom.subst_subst] at hp'
    exact hp'

/-- **A proof proves**, where the calls on its path keep their bindings and the goals of every body
that it uses are apart: some instance of the goal is a consequence of the knowledge base, and if the
goal is ground it is one itself. -/
theorem prove_sound {engine : InferenceEngine} {proof : Proof}
    (h : engine.prove fuel kb goal = some (some proof)) :
    (∃ steps, Proved fuel kb 0 [goal] ∅ steps) ∧
      ∀ steps, Proved fuel kb 0 [goal] ∅ steps → (∀ s ∈ steps, s.Independent) →
        (∃ θ : String → Tm Leaf String String, Entails kb.program (goal.atom.subst θ)) ∧
          (goal.isGround → Entails kb.program goal.atom) := by
  refine ⟨proved_of_prove h, fun steps hproved hsteps => ?_⟩
  obtain ⟨θ, -, hθ⟩ := hproved.sound hsteps acyclic_empty goal (List.mem_singleton.mpr rfl)
  refine ⟨⟨θ, hθ⟩, fun hground => ?_⟩
  obtain ⟨a, ha⟩ := Predicate.exists_lift hground
  rw [ha, Atom.lift, Atom.subst_subst] at hθ
  rw [ha, Atom.lift]
  have hsame : a.subst (fun x : Empty => subst θ x.elim) =
      a.subst (Empty.elim : Empty → Tm Leaf String String) := Atom.subst_congr fun x _ => x.elim
  rwa [hsame] at hθ

/-- A proof that proves: `g` from `g :- p(X), q(Y)` and the facts `p("a")` and `q("b")`. -/
theorem prove_sound_two :
    Entails (KnowledgeBase.program ⟨[⟨"p", [.const (.string "a")]⟩, ⟨"q", [.const (.string "b")]⟩],
      [⟨⟨"g", []⟩, [⟨"p", [.var "X"]⟩, ⟨"q", [.var "Y"]⟩]⟩]⟩) (Predicate.atom ⟨"g", []⟩) := by
  -- a goal with one variable and a ground fact
  have hcall : ∀ name v c, UnifyCall.Kept ⟨⟨name, [.var v]⟩, ⟨name, [.const c]⟩, ∅⟩ := by
    intro name v c
    refine kept_singleton (fun f as h => by cases h) fun w t hnow => ?_
    rcases hnow.1 with ⟨h1, h2⟩ | ⟨h1, -⟩
    · obtain rfl : v = w := Term.var.inj h1
      rw [← h2]
      exact keeps_of_ground acyclic_empty Finmap.notMem_empty rfl
    · exact absurd rfl (h1 v)
  have happart : Apart [⟨"p", [.var "X_0"]⟩, ⟨"q", [.var "Y_0"]⟩] ∅ := by
    refine ⟨0, fun p _ => Predicate.toTerm_injective ?_, ?_⟩
    · rw [toTerm_applySubstPredicate, applySubstTerm_empty]
    · refine List.pairwise_pair.mpr fun v hv hv' => ?_
      obtain rfl : v = "X_0" := List.mem_singleton.mp hv
      exact absurd hv' (by decide)
  have hq : Proved 1 ⟨[⟨"p", [.const (.string "a")]⟩, ⟨"q", [.const (.string "b")]⟩],
      [⟨⟨"g", []⟩, [⟨"p", [.var "X"]⟩, ⟨"q", [.var "Y"]⟩]⟩]⟩ 1 [⟨"q", [.var "Y_0"]⟩] ∅
      [⟨⟨⟨"q", [.var "Y_0"]⟩, ⟨"q", [.const (.string "b")]⟩, ∅⟩, [],
        Finmap.insert "Y_0" (.const (.string "b")) ∅⟩] :=
    .fact
      (KnowledgeBase.mem_getPredicates.mpr ⟨List.mem_cons_of_mem _ List.mem_cons_self, rfl⟩)
      (by rfl) (.nil _ _)
  have hbody : Proved 1 ⟨[⟨"p", [.const (.string "a")]⟩, ⟨"q", [.const (.string "b")]⟩],
      [⟨⟨"g", []⟩, [⟨"p", [.var "X"]⟩, ⟨"q", [.var "Y"]⟩]⟩]⟩ 1
      [⟨"p", [.var "X_0"]⟩, ⟨"q", [.var "Y_0"]⟩] ∅
      [⟨⟨⟨"p", [.var "X_0"]⟩, ⟨"p", [.const (.string "a")]⟩, ∅⟩, [],
        Finmap.insert "X_0" (.const (.string "a")) ∅⟩,
        ⟨⟨⟨"q", [.var "Y_0"]⟩, ⟨"q", [.const (.string "b")]⟩, ∅⟩, [],
          Finmap.insert "Y_0" (.const (.string "b")) ∅⟩] :=
    .fact
      (KnowledgeBase.mem_getPredicates.mpr ⟨List.mem_cons_self, rfl⟩) (by rfl) hq
  have hpath : Proved 1 ⟨[⟨"p", [.const (.string "a")]⟩, ⟨"q", [.const (.string "b")]⟩],
      [⟨⟨"g", []⟩, [⟨"p", [.var "X"]⟩, ⟨"q", [.var "Y"]⟩]⟩]⟩ 0 [⟨"g", []⟩] ∅
      (⟨⟨⟨"g", []⟩, ⟨"g", []⟩, ∅⟩, [⟨"p", [.var "X_0"]⟩, ⟨"q", [.var "Y_0"]⟩], ∅⟩ ::
        ([⟨⟨⟨"p", [.var "X_0"]⟩, ⟨"p", [.const (.string "a")]⟩, ∅⟩, [],
          Finmap.insert "X_0" (.const (.string "a")) ∅⟩,
          ⟨⟨⟨"q", [.var "Y_0"]⟩, ⟨"q", [.const (.string "b")]⟩, ∅⟩, [],
            Finmap.insert "Y_0" (.const (.string "b")) ∅⟩] ++ [])) :=
    .rule (g := ⟨"g", []⟩) (r := ⟨⟨"g", []⟩, [⟨"p", [.var "X"]⟩, ⟨"q", [.var "Y"]⟩]⟩)
      (KnowledgeBase.mem_getRules.mpr ⟨List.mem_singleton.mpr rfl, rfl⟩) (by rfl) hbody (.nil _ _)
  have hprove : ∃ proof, InferenceEngine.prove ⟨100, 100⟩ 1
      ⟨[⟨"p", [.const (.string "a")]⟩, ⟨"q", [.const (.string "b")]⟩],
        [⟨⟨"g", []⟩, [⟨"p", [.var "X"]⟩, ⟨"q", [.var "Y"]⟩]⟩]⟩ ⟨"g", []⟩ = some (some proof) :=
    ⟨_, by rfl⟩
  obtain ⟨proof, hprove⟩ := hprove
  refine ((prove_sound hprove).2 _ hpath ?_).2 rfl
  refine List.forall_mem_cons.mpr ⟨⟨fun v t σ' h => (by cases h), happart⟩, ?_⟩
  refine List.forall_mem_cons.mpr ⟨⟨hcall _ _ _, ⟨0, by simp, by simp⟩⟩, ?_⟩
  exact List.forall_mem_cons.mpr ⟨⟨hcall _ _ _, ⟨0, by simp, by simp⟩⟩, by simp⟩

/-- The two goals of a body are proved for two values of their variable: from `p("a")` and `q("b")`,
the rule `g :- p(X), q(X)` proves `g`, which is no consequence. -/
theorem prove_two_values :
    (∃ proof, InferenceEngine.prove ⟨100, 100⟩ 1
        ⟨[⟨"p", [.const (.string "a")]⟩, ⟨"q", [.const (.string "b")]⟩],
          [⟨⟨"g", []⟩, [⟨"p", [.var "X"]⟩, ⟨"q", [.var "X"]⟩]⟩]⟩ ⟨"g", []⟩ = some (some proof)) ∧
      ∀ θ : String → Tm Leaf String String,
        ¬ Entails (KnowledgeBase.program
          ⟨[⟨"p", [.const (.string "a")]⟩, ⟨"q", [.const (.string "b")]⟩],
            [⟨⟨"g", []⟩, [⟨"p", [.var "X"]⟩, ⟨"q", [.var "X"]⟩]⟩]⟩)
          ((Predicate.atom ⟨"g", []⟩).subst θ) := by
  refine ⟨⟨_, by rfl⟩, fun θ h => ?_⟩
  -- a model in which `p` holds of "a" only, `q` of "b" only, and `g` does not hold
  let M : Interp String Leaf String (Tm Leaf String Empty) :=
    { toAlgebra := free Leaf String Empty
      holds := fun name args =>
        name = "p" ∧ args = [.const (.const (.string "a"))] ∨
          name = "q" ∧ args = [.const (.const (.string "b"))] }
  have hM : Models M (KnowledgeBase.program
      ⟨[⟨"p", [.const (.string "a")]⟩, ⟨"q", [.const (.string "b")]⟩],
        [⟨⟨"g", []⟩, [⟨"p", [.var "X"]⟩, ⟨"q", [.var "X"]⟩]⟩]⟩) := by
    rintro c (⟨p, hp, rfl⟩ | ⟨r, hr, rfl⟩) ρ hbody
    · rcases List.mem_cons.mp hp with rfl | hp
      · exact Or.inl ⟨rfl, rfl⟩
      · obtain rfl := List.mem_singleton.mp hp
        exact Or.inr ⟨rfl, rfl⟩
    · obtain rfl := List.mem_singleton.mp hr
      have hp := hbody _ List.mem_cons_self
      have hq := hbody _ (List.mem_cons_of_mem _ List.mem_cons_self)
      simp [Atom.Holds, Predicate.atom, M] at hp hq
      rw [hp] at hq
      simp at hq
  have hg := h _ M hM fun _ => .const (.const (.int 0))
  simp [Atom.Holds, Atom.subst, Predicate.atom, M] at hg

end Ipfrs.Tensorlogic
