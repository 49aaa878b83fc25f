import Ipfrs.Lib.Fallible
import Ipfrs.Tensorlogic.Unifiability

/-!
# Answers are consequences

A path of the search through the facts and rules, from a list of goals to an answer, is a
`Derivation`, and it lists the calls of `unify_predicates` that it makes. The search adds nothing
but the answers of such paths, whatever the limits are.

Where the calls on a path keep their bindings, the last substitution says all that the earlier ones
said, so an interpretation of its variables makes every goal on the path true, one after the other.
That the variables of a rule are renamed plays no part in this, only that renaming keeps a clause
valid.

* `mem_query` — every answer has a derivation;
* `Derivation.sound` — a derivation with calls that keep their bindings makes its goals true;
* `query_sound` — such an answer, followed to the end, is a consequence of the knowledge base.
-/

namespace Ipfrs.Tensorlogic

open Terms Horn

/-! ### Renaming -/

theorem lookup_renameSubst (r : Rule) (d : ℕ) (v : String) :
    (renameSubst r d).lookup v = if v ∈ r.variables then some (.var (renamed d v)) else none := by
  have hfold : ∀ (vars : List String) (σ : Substitution),
      (vars.foldl (fun subst v => Finmap.insert v (.var (renamed d v)) subst) σ).lookup v =
        if v ∈ vars then some (.var (renamed d v)) else σ.lookup v := by
    intro vars
    induction vars with
    | nil => simp
    | cons w vars ih =>
      intro σ
      rw [List.foldl_cons, ih]
      by_cases hv : v ∈ vars
      · simp [hv]
      · by_cases hw : v = w
        · subst hw
          simp [hv, Finmap.lookup_insert]
        · simp [hv, hw, Finmap.lookup_insert_of_ne]
  rw [renameSubst, hfold, Finmap.lookup_empty]

/-- What `apply_subst_predicate` does to the atom that is meant. -/
theorem atom_applySubstPredicate (σ : Substitution) (p : Predicate) :
    (applySubstPredicate σ p).atom = p.atom.subst fun x => (bindings σ x).getD (.var x) := by
  ext1
  · rfl
  · show (p.args.map (applySubstTerm σ)).map Term.tm = (p.args.map Term.tm).map _
    rw [List.map_map, List.map_map]
    exact List.map_congr_left fun t _ => tm_applySubstTerm σ t

variable {r : Rule} {p p1 p2 goal : Predicate} {d fuel : ℕ} {σ σ' : Substitution} {μ : Type}
  {kb : KnowledgeBase} {name : String}

theorem atom_rename (d : ℕ) (h : ∀ v, p.atom.Mentions v → v ∈ r.variables) :
    (applySubstPredicate (renameSubst r d) p).atom = p.atom.subst fun v => .var (renamed d v) := by
  rw [atom_applySubstPredicate]
  refine Atom.subst_congr fun v hv => ?_
  rw [bindings, lookup_renameSubst, if_pos (h v hv)]
  rfl

theorem atom_renamedHead (r : Rule) (d : ℕ) :
    (renameRuleVars r d).head.atom = r.head.atom.subst fun v => .var (renamed d v) :=
  atom_rename d fun _ hv => Rule.mem_variables_iff.mpr (Or.inl hv)

theorem map_atom_renamedBody (r : Rule) (d : ℕ) :
    (renameRuleVars r d).body.map Predicate.atom =
      (r.body.map Predicate.atom).map (Atom.subst fun v => .var (renamed d v)) := by
  rw [renameRuleVars, List.map_map, List.map_map]
  exact List.map_congr_left fun p hp =>
    atom_rename d fun v hv => Rule.mem_variables_iff.mpr (Or.inr ⟨p, hp, hv⟩)

/-- **Renaming** takes an instance of the clause. -/
theorem clause_renameRuleVars (r : Rule) (d : ℕ) :
    (renameRuleVars r d).clause = r.clause.subst fun v => .var (renamed d v) := by
  rw [Rule.clause, atom_renamedHead, map_atom_renamedBody]
  rfl

/-- The goals of a renamed body come from those of the body, -/
theorem exists_of_mem_renamedBody (hp : p ∈ (renameRuleVars r d).body) :
    ∃ q ∈ r.body, p.atom = q.atom.subst fun v => .var (renamed d v) := by
  have hmem := List.mem_map_of_mem (f := Predicate.atom) hp
  rw [map_atom_renamedBody, List.map_map] at hmem
  obtain ⟨q, hq, heq⟩ := List.mem_map.mp hmem
  exact ⟨q, hq, heq.symm⟩

/-- and each of those is among them. -/
theorem mem_renamedBody {q : Predicate} (d : ℕ) (hq : q ∈ r.body) :
    ∃ p ∈ (renameRuleVars r d).body, p.atom = q.atom.subst fun v => .var (renamed d v) := by
  have hmem : q.atom.subst (fun v => .var (renamed d v)) ∈
      (renameRuleVars r d).body.map Predicate.atom := by
    rw [map_atom_renamedBody]
    exact List.mem_map_of_mem (List.mem_map_of_mem hq)
  exact List.mem_map.mp hmem

/-! ### One call -/

/-- A call of `unify_predicates`. -/
structure UnifyCall where
  goal : Predicate
  head : Predicate
  subst : Substitution

/-- Every binding that the call makes loses nothing. -/
def UnifyCall.Kept (c : UnifyCall) : Prop := Tensorlogic.Kept (c.goal.args.zip c.head.args) c.subst

variable {calls : List UnifyCall}

theorem unifyPredicates_eq_some_some :
    unifyPredicates fuel p1 p2 σ = some (some σ') ↔
      (p1.name = p2.name ∧ p1.args.length = p2.args.length) ∧
        unifyArgs (unify fuel) (p1.args.zip p2.args) σ = some (some σ') := by
  rw [unifyPredicates]
  by_cases h : p1.name ≠ p2.name ∨ p1.args.length ≠ p2.args.length
  · rw [if_pos h]
    refine ⟨fun e => (by cases Option.some.inj e), fun e => ?_⟩
    rcases h with h | h
    · exact absurd e.1.1 h
    · exact absurd e.1.2 h
  · rw [if_neg h]
    rw [not_or, not_not, not_not] at h
    exact ⟨fun e => ⟨h, e⟩, fun e => e.2⟩

theorem exists_of_anyUnifies {facts : List Predicate}
    (h : anyUnifies fuel goal σ facts = some true) :
    ∃ fact ∈ facts, ∃ σ₁, unifyPredicates fuel goal fact σ = some (some σ₁) := by
  induction facts with
  | nil => cases h
  | cons fact facts ih =>
    rw [anyUnifies, Option.bind_eq_bind, Option.bind_eq_some_iff] at h
    obtain ⟨r, hr, h⟩ := h
    cases r with
    | some σ₁ => exact ⟨fact, List.mem_cons_self, σ₁, hr⟩
    | none =>
      obtain ⟨fact', hmem, hunified⟩ := ih h
      exact ⟨fact', List.mem_cons_of_mem _ hmem, hunified⟩

/-- **A call that keeps its bindings** only adds to what they say, and the goal and the head are
true for the same solutions of the result. -/
theorem unifyPredicates_sound (h : unifyPredicates fuel p1 p2 σ = some (some σ'))
    (hkept : UnifyCall.Kept ⟨p1, p2, σ⟩) (hacyclic : Acyclic (bindings σ)) :
    Acyclic (bindings σ') ∧ Extends σ σ' ∧
      ∀ (D : Type) (A : Algebra Leaf String D) (ρ : String → D), Solves A ρ (bindings σ') →
        p1.atom.name = p2.atom.name ∧
          p1.atom.args.map (eval A ρ) = p2.atom.args.map (eval A ρ) := by
  obtain ⟨⟨hname, hlength⟩, hargs⟩ := unifyPredicates_eq_some_some.mp h
  obtain ⟨hacyclic', hext, heq⟩ := (unified_of_eq hargs).sound hkept hacyclic
  refine ⟨hacyclic', hext, fun D A ρ hρ => ⟨hname, ?_⟩⟩
  show (p1.args.map Term.tm).map _ = (p2.args.map Term.tm).map _
  rw [List.map_map, List.map_map]
  exact map_eq_map_of_zip hlength (heq D A ρ hρ)

/-- Terms that solve the bindings see no difference when those are followed. -/
theorem subst_atom_apply {θ : String → Tm Leaf String μ}
    (hθ : Solves (free Leaf String μ) θ (bindings σ)) (p : Predicate) :
    (applySubstPredicate σ p).atom.subst θ = p.atom.subst θ := by
  rw [atom_applySubstPredicate, Atom.subst_subst]
  exact Atom.subst_congr fun x _ => hθ.eval_step (.var x)

/-- A goal and a head that a call has made equal have the same instances by solutions. -/
theorem subst_eq_of_unified {head : Predicate}
    (h : unifyPredicates fuel (applySubstPredicate σ goal) head σ = some (some σ'))
    (hkept : UnifyCall.Kept ⟨applySubstPredicate σ goal, head, σ⟩) (hacyclic : Acyclic (bindings σ))
    {θ : String → Tm Leaf String μ} (hθ : Solves (free Leaf String μ) θ (bindings σ')) :
    Solves (free Leaf String μ) θ (bindings σ) ∧ goal.atom.subst θ = head.atom.subst θ := by
  obtain ⟨-, hext, hargs⟩ := unifyPredicates_sound h hkept hacyclic
  have hσ := hext.solves _ _ _ hθ
  refine ⟨hσ, ?_⟩
  obtain ⟨hname, heq⟩ := hargs _ _ _ hθ
  rw [← subst_atom_apply hσ goal]
  exact Atom.ext hname heq

theorem holds_applySubstPredicate {D : Type} {M : Interp String Leaf String D} {ρ : String → D}
    (h : Solves M.toAlgebra ρ (bindings σ)) (p : Predicate) :
    (applySubstPredicate σ p).atom.Holds M ρ ↔ p.atom.Holds M ρ := by
  rw [atom_applySubstPredicate, Atom.holds_subst]
  have hfollow : (fun x => eval M.toAlgebra ρ ((bindings σ x).getD (.var x))) = ρ := by
    funext x
    exact h.eval_step (.var x)
  rw [hfollow]

/-! ### Derivations -/

/-- A path of the search, from goals and a substitution to a substitution that answers all of them.
It lists the calls of `unify_predicates` that it makes. -/
inductive Derivation (fuel : ℕ) (kb : KnowledgeBase) :
    ℕ → List Predicate → Substitution → List UnifyCall → Substitution → Prop where
  | nil (d : ℕ) (σ : Substitution) : Derivation fuel kb d [] σ [] σ
  | fact {d : ℕ} {goal fact : Predicate} {rest : List Predicate} {σ σ₁ σ' : Substitution}
    {calls : List UnifyCall} (mem : fact ∈ kb.getPredicates goal.name)
    (unified : unifyPredicates fuel (applySubstPredicate σ goal) fact σ = some (some σ₁))
    (tail : Derivation fuel kb d rest σ₁ calls σ') :
    Derivation fuel kb d (goal :: rest) σ (⟨applySubstPredicate σ goal, fact, σ⟩ :: calls) σ'
  | rule {d : ℕ} {g : Predicate} {r : Rule} {rest : List Predicate} {σ σ₁ σ₂ σ' : Substitution}
    {calls calls' : List UnifyCall} (mem : r ∈ kb.getRules g.name)
    (unified : unifyPredicates fuel (applySubstPredicate σ g) (renameRuleVars r d).head σ =
      some (some σ₁))
    (body : Derivation fuel kb (d + 1) (renameRuleVars r d).body σ₁ calls σ₂)
    (tail : Derivation fuel kb d rest σ₂ calls' σ') :
    Derivation fuel kb d (g :: rest) σ
      (⟨applySubstPredicate σ g, (renameRuleVars r d).head, σ⟩ :: (calls ++ calls')) σ'

theorem Derivation.cons {rest : List Predicate} {σ₁ : Substitution} {calls' : List UnifyCall}
    (h : Derivation fuel kb d [goal] σ calls σ₁) (h' : Derivation fuel kb d rest σ₁ calls' σ') :
    Derivation fuel kb d (goal :: rest) σ (calls ++ calls') σ' := by
  cases h with
  | fact mem unified tail =>
    cases tail
    exact .fact mem unified h'
  | rule mem unified body tail =>
    cases tail
    rw [List.append_nil]
    exact .rule mem unified body h'

section Search

variable {engine : InferenceEngine} {fuel : ℕ} {kb : KnowledgeBase}

/-- The substitutions are answers of paths, or were there before. -/
def Answers (fuel : ℕ) (kb : KnowledgeBase) (d : ℕ) (goals : List Predicate) (σ : Substitution)
    (old sols : List Substitution) : Prop :=
  ∀ s ∈ sols, s ∈ old ∨ ∃ calls, Derivation fuel kb d goals σ calls s

variable {d : ℕ} {goal : Predicate} {σ : Substitution} {old sols sols' : List Substitution}

theorem answers_solveFacts {facts : List Predicate} {full : Bool}
    (hfacts : ∀ f ∈ facts, f ∈ kb.getPredicates goal.name)
    (h : engine.solveFacts fuel (applySubstPredicate σ goal) σ facts sols = some (sols', full))
    (hsols : Answers fuel kb d [goal] σ old sols) : Answers fuel kb d [goal] σ old sols' := by
  induction facts generalizing sols with
  | nil =>
    obtain ⟨rfl, -⟩ := Prod.mk.inj (Option.some.inj h)
    exact hsols
  | cons fact facts ih =>
    have hrest := fun f hf => hfacts f (List.mem_cons_of_mem _ hf)
    rw [InferenceEngine.solveFacts, Option.bind_eq_bind, Option.bind_eq_some_iff] at h
    obtain ⟨r, hr, h⟩ := h
    cases r with
    | none => exact ih hrest h hsols
    | some σ₁ =>
      have hpush : Answers fuel kb d [goal] σ old (sols ++ [σ₁]) := by
        intro s hs
        rcases List.mem_append.mp hs with hs | hs
        · exact hsols s hs
        · obtain rfl := List.mem_singleton.mp hs
          exact Or.inr ⟨_, .fact (hfacts _ List.mem_cons_self) hr (.nil d s)⟩
      dsimp only at h
      split at h
      · obtain ⟨rfl, -⟩ := Prod.mk.inj (Option.some.inj h)
        exact hpush
      · exact ih hrest h hpush

theorem answers_solveConjunction
    {solveGoal : Predicate → Substitution → List Substitution → Option (List Substitution)}
    (hgoal : ∀ goal σ sols, solveGoal goal σ [] = some sols → Answers fuel kb d [goal] σ [] sols)
    {goals : List Predicate} (h : engine.solveConjunction solveGoal goals σ sols = some sols') :
    Answers fuel kb d goals σ sols sols' := by
  induction goals generalizing σ sols sols' with
  | nil =>
    obtain rfl := Option.some.inj h
    intro s hs
    rcases List.mem_append.mp hs with hs | hs
    · exact Or.inl hs
    · obtain rfl := List.mem_singleton.mp hs
      exact Or.inr ⟨_, .nil d s⟩
  | cons goal rest ih =>
    rw [InferenceEngine.solveConjunction, Option.bind_eq_bind, Option.bind_eq_some_iff] at h
    obtain ⟨intermediate, hfirst, h⟩ := h
    refine Option.foldlM_induct (P := Answers fuel kb d (goal :: rest) σ sols) h
      (fun s hs => Or.inl hs) fun σ₁ hσ₁ acc acc' hacc hstep => ?_
    split at hstep
    · obtain rfl := Option.some.inj hstep
      exact hacc
    · intro s hs
      rcases ih hstep s hs with hs | ⟨calls', h'⟩
      · exact hacc s hs
      · obtain ⟨calls, hcalls⟩ :=
          (hgoal goal σ intermediate hfirst σ₁ hσ₁).resolve_left List.not_mem_nil
        exact Or.inr ⟨_, hcalls.cons h'⟩

theorem answers_solveRules {solveConjunction : List Predicate → Substitution → List Substitution →
      Option (List Substitution)}
    (hconj : ∀ goals σ sols sols', solveConjunction goals σ sols = some sols' →
      Answers fuel kb (d + 1) goals σ sols sols') {rules : List Rule}
    (hrules : ∀ r ∈ rules, r ∈ kb.getRules goal.name)
    (h : InferenceEngine.solveRules fuel solveConjunction (applySubstPredicate σ goal) σ d rules
      sols = some sols') (hsols : Answers fuel kb d [goal] σ old sols) :
    Answers fuel kb d [goal] σ old sols' := by
  induction rules generalizing sols with
  | nil =>
    obtain rfl := Option.some.inj h
    exact hsols
  | cons rule rules ih =>
    have hrest := fun r hr => hrules r (List.mem_cons_of_mem _ hr)
    rw [InferenceEngine.solveRules, Option.bind_eq_bind, Option.bind_eq_some_iff] at h
    obtain ⟨r, hr, h⟩ := h
    cases r with
    | none => exact ih hrest h hsols
    | some σ₁ =>
      obtain ⟨sols₁, hbody, h⟩ := Option.bind_eq_some_iff.mp h
      refine ih hrest h fun s hs => ?_
      rcases hconj _ _ _ _ hbody s hs with hs | ⟨calls, hcalls⟩
      · exact hsols s hs
      · exact Or.inr ⟨_, .rule (hrules _ List.mem_cons_self) hr hcalls (.nil d s)⟩

theorem answers_solveGoal {levels : ℕ}
    (h : engine.solveGoal fuel kb levels d goal σ sols = some sols') :
    Answers fuel kb d [goal] σ sols sols' := by
  induction levels generalizing d goal σ sols sols' with
  | zero =>
    obtain rfl := Option.some.inj h
    exact fun s hs => Or.inl hs
  | succ levels ih =>
    rw [InferenceEngine.solveGoal] at h
    split at h
    · obtain rfl := Option.some.inj h
      exact fun s hs => Or.inl hs
    rw [Option.bind_eq_bind, Option.bind_eq_some_iff] at h
    obtain ⟨⟨sols₁, full⟩, hfacts, h⟩ := h
    have hsols₁ : Answers fuel kb d [goal] σ sols sols₁ :=
      answers_solveFacts (fun f hf => hf) hfacts fun s hs => Or.inl hs
    cases full with
    | true =>
      obtain rfl := Option.some.inj h
      exact hsols₁
    | false =>
      refine answers_solveRules (fun goals σ sols sols' hconj => ?_) (fun r hr => hr) h hsols₁
      exact answers_solveConjunction (fun goal σ sols hgoal => ih hgoal) hconj

/-- **Every answer has a derivation.** -/
theorem mem_query {s : Substitution} (h : engine.query fuel kb goal = some sols) (hs : s ∈ sols) :
    ∃ calls, Derivation fuel kb 0 [goal] ∅ calls s :=
  (answers_solveGoal h s hs).resolve_left List.not_mem_nil

end Search

/-! ### Soundness -/

theorem fact_mem_program (h : p ∈ kb.getPredicates name) : ⟨p.atom, []⟩ ∈ kb.program :=
  Or.inl ⟨p, (KnowledgeBase.mem_getPredicates.mp h).1, rfl⟩

theorem rule_mem_program (h : r ∈ kb.getRules name) : r.clause ∈ kb.program :=
  Or.inr ⟨r, (KnowledgeBase.mem_getRules.mp h).1, rfl⟩

/-- **A derivation makes its goals true**, in every model, for every solution of its answer. -/
theorem Derivation.sound {goals : List Predicate} (h : Derivation fuel kb d goals σ calls σ')
    (hkept : ∀ c ∈ calls, c.Kept) (hacyclic : Acyclic (bindings σ)) :
    Acyclic (bindings σ') ∧ Extends σ σ' ∧
      ∀ (D : Type) (M : Interp String Leaf String D), Models M kb.program →
        ∀ ρ, Solves M.toAlgebra ρ (bindings σ') → ∀ p ∈ goals, p.atom.Holds M ρ := by
  induction h with
  | nil d σ => exact ⟨hacyclic, .refl σ, fun _ _ _ _ _ p hp => absurd hp List.not_mem_nil⟩
  | @fact d goal fact rest σ σ₁ σ' calls mem unified tail ih =>
    obtain ⟨hcall, hcalls⟩ := List.forall_mem_cons.mp hkept
    obtain ⟨hacyclic₁, hext₁, hargs⟩ := unifyPredicates_sound unified hcall hacyclic
    obtain ⟨hacyclic', hext, hgoals⟩ := ih hcalls hacyclic₁
    refine ⟨hacyclic', hext₁.trans hext, fun D M hM ρ hρ =>
      List.forall_mem_cons.mpr ⟨?_, hgoals D M hM ρ hρ⟩⟩
    have hρ₁ := hext.solves _ _ _ hρ
    obtain ⟨hname, heq⟩ := hargs _ _ _ hρ₁
    -- the goal is the fact, in every solution
    have hfact : fact.atom.Holds M ρ :=
      hM _ (fact_mem_program mem) ρ fun b hb => absurd hb List.not_mem_nil
    apply (holds_applySubstPredicate (hext₁.solves _ _ _ hρ₁) goal).mp
    rw [Atom.Holds, hname, heq]
    exact hfact
  | @rule d goal r rest σ σ₁ σ₂ σ' calls calls' mem unified body tail ihbody ihtail =>
    obtain ⟨hcall, hcalls⟩ := List.forall_mem_cons.mp hkept
    obtain ⟨hacyclic₁, hext₁, hargs⟩ := unifyPredicates_sound unified hcall hacyclic
    obtain ⟨hacyclic₂, hext₂, hbody⟩ :=
      ihbody (fun c hc => hcalls c (List.mem_append_left _ hc)) hacyclic₁
    obtain ⟨hacyclic', hext, hgoals⟩ :=
      ihtail (fun c hc => hcalls c (List.mem_append_right _ hc)) hacyclic₂
    refine ⟨hacyclic', hext₁.trans (hext₂.trans hext), fun D M hM ρ hρ =>
      List.forall_mem_cons.mpr ⟨?_, hgoals D M hM ρ hρ⟩⟩
    have hρ₂ := hext.solves _ _ _ hρ
    have hρ₁ := hext₂.solves _ _ _ hρ₂
    obtain ⟨hname, heq⟩ := hargs _ _ _ hρ₁
    have hvalid : (renameRuleVars r d).clause.Valid M := by
      rw [clause_renameRuleVars]
      exact (hM _ (rule_mem_program mem)).subst _
    -- the body holds, so the head does
    have hhead : (renameRuleVars r d).head.atom.Holds M ρ := by
      refine hvalid ρ fun b hb => ?_
      obtain ⟨p, hp, rfl⟩ := List.mem_map.mp hb
      exact hbody D M hM ρ hρ₂ p hp
    apply (holds_applySubstPredicate (hext₁.solves _ _ _ hρ₁) goal).mp
    rw [Atom.Holds, hname, heq]
    exact hhead

/-- After enough rounds a predicate is what the bindings give for it in the end, and stays so. -/
theorem exists_iterate_applySubstPredicate (h : Acyclic (bindings σ)) (p : Predicate) :
    ∃ n, ∀ m ≥ n, ((applySubstPredicate σ)^[m] p).atom = p.atom.subst (settled h) ∧
      applySubstPredicate σ ((applySubstPredicate σ)^[m] p) = (applySubstPredicate σ)^[m] p := by
  obtain ⟨n, hn⟩ := exists_iterate_applySubstTerm h p.toTerm
  refine ⟨n, fun m hm => ?_⟩
  obtain ⟨htm, hfix⟩ := hn m hm
  rw [← toTerm_iterate_applySubstPredicate] at htm hfix
  rw [← toTerm_applySubstPredicate] at hfix
  refine ⟨?_, Predicate.toTerm_injective hfix⟩
  rw [Predicate.toTerm, Term.tm_func, Predicate.toTerm, Term.tm_func, subst_app,
    Tm.app.injEq] at htm
  exact Atom.ext htm.1 htm.2

/-- **Answers are consequences**, where the calls on their paths keep their bindings: the goal, with
the answer applied until nothing changes, holds in every model of the knowledge base, whatever its
remaining variables stand for. -/
theorem query_sound {engine : InferenceEngine} {sols : List Substitution} {s : Substitution}
    (h : engine.query fuel kb goal = some sols) (hs : s ∈ sols) :
    (∃ calls, Derivation fuel kb 0 [goal] ∅ calls s) ∧
      ∀ calls, Derivation fuel kb 0 [goal] ∅ calls s → (∀ c ∈ calls, c.Kept) →
        ∃ n, applySubstPredicate s ((applySubstPredicate s)^[n] goal) =
            (applySubstPredicate s)^[n] goal ∧
          Entails kb.program ((applySubstPredicate s)^[n] goal).atom := by
  refine ⟨mem_query h hs, fun calls hcalls hkept => ?_⟩
  obtain ⟨hacyclic, -, hgoals⟩ := hcalls.sound hkept acyclic_empty
  obtain ⟨n, hn⟩ := exists_iterate_applySubstPredicate hacyclic goal
  obtain ⟨hatom, hfix⟩ := hn n (Nat.le_refl n)
  refine ⟨n, hfix, fun D M hM ρ => ?_⟩
  rw [hatom, Atom.holds_subst]
  refine hgoals D M hM _ ?_ goal (List.mem_singleton.mpr rfl)
  -- values of the settled variables give a solution of the answer
  intro x t hx
  show eval M.toAlgebra ρ (settled hacyclic x) = _
  rw [solves_settled hacyclic x t hx]
  exact eval_subst M.toAlgebra ρ (settled hacyclic) t

/-- A rule that is used as it should be: `q(Z)` from `q(X) :- p(X)` and the fact `p("a")`. -/
theorem query_sound_rule :
    ∃ n, Entails (KnowledgeBase.program ⟨[⟨"p", [.const (.string "a")]⟩],
        [⟨⟨"q", [.var "X"]⟩, [⟨"p", [.var "X"]⟩]⟩]⟩)
      ((applySubstPredicate ((Finmap.insert "Z" (.var "X_0") ∅).insert "X_0"
        (.const (.string "a"))))^[n] ⟨"q", [.var "Z"]⟩).atom := by
  have hZ : Keeps "Z" (.var "X_0") ∅ := by
    refine keeps_of_unbound acyclic_empty Finmap.notMem_empty fun y hy => ?_
    obtain rfl := occurs_var.mp hy
    exact ⟨by decide, Finmap.notMem_empty⟩
  -- the two calls of the derivation
  have hhead : UnifyCall.Kept ⟨⟨"q", [.var "Z"]⟩, ⟨"q", [.var "X_0"]⟩, ∅⟩ := by
    refine kept_singleton (fun f as h => by cases h) fun v t hnow => ?_
    rcases hnow.1 with ⟨h1, h2⟩ | ⟨h1, -⟩
    · obtain rfl : "Z" = v := Term.var.inj h1
      rw [← h2]
      exact hZ
    · exact absurd rfl (h1 "Z")
  have hbody : UnifyCall.Kept ⟨⟨"p", [.var "X_0"]⟩, ⟨"p", [.const (.string "a")]⟩,
      Finmap.insert "Z" (.var "X_0") ∅⟩ := by
    refine kept_singleton (fun f as h => by cases h) fun v t hnow => ?_
    rcases hnow.1 with ⟨h1, h2⟩ | ⟨h1, -⟩
    · obtain rfl : "X_0" = v := Term.var.inj h1
      rw [← h2]
      exact keeps_of_ground hZ.1 (by decide) rfl
    · exact absurd rfl (h1 "X_0")
  -- the derivation, from its end
  have hfact : Derivation 1 ⟨[⟨"p", [.const (.string "a")]⟩],
      [⟨⟨"q", [.var "X"]⟩, [⟨"p", [.var "X"]⟩]⟩]⟩ 1 [⟨"p", [.var "X_0"]⟩]
      (Finmap.insert "Z" (.var "X_0") ∅) [⟨⟨"p", [.var "X_0"]⟩, ⟨"p", [.const (.string "a")]⟩,
        Finmap.insert "Z" (.var "X_0") ∅⟩]
      ((Finmap.insert "Z" (.var "X_0") ∅).insert "X_0" (.const (.string "a"))) :=
    .fact
      (KnowledgeBase.mem_getPredicates.mpr ⟨List.mem_singleton.mpr rfl, rfl⟩) (by rfl) (.nil _ _)
  have hpath : Derivation 1 ⟨[⟨"p", [.const (.string "a")]⟩],
      [⟨⟨"q", [.var "X"]⟩, [⟨"p", [.var "X"]⟩]⟩]⟩ 0 [⟨"q", [.var "Z"]⟩] ∅
      [⟨⟨"q", [.var "Z"]⟩, ⟨"q", [.var "X_0"]⟩, ∅⟩, ⟨⟨"p", [.var "X_0"]⟩,
        ⟨"p", [.const (.string "a")]⟩, Finmap.insert "Z" (.var "X_0") ∅⟩]
      ((Finmap.insert "Z" (.var "X_0") ∅).insert "X_0" (.const (.string "a"))) :=
    .rule (g := ⟨"q", [.var "Z"]⟩) (r := ⟨⟨"q", [.var "X"]⟩, [⟨"p", [.var "X"]⟩]⟩)
      (KnowledgeBase.mem_getRules.mpr ⟨List.mem_singleton.mpr rfl, rfl⟩) (by rfl) hfact (.nil _ _)
  have hquery : InferenceEngine.query ⟨100, 100⟩ 1 ⟨[⟨"p", [.const (.string "a")]⟩],
      [⟨⟨"q", [.var "X"]⟩, [⟨"p", [.var "X"]⟩]⟩]⟩ ⟨"q", [.var "Z"]⟩ =
        some [(Finmap.insert "Z" (.var "X_0") ∅).insert "X_0" (.const (.string "a"))] := by rfl
  obtain ⟨n, -, h⟩ := (query_sound hquery (List.mem_singleton.mpr rfl)).2 _
    hpath (List.forall_mem_cons.mpr ⟨hhead, List.forall_mem_cons.mpr ⟨hbody, by simp⟩⟩)
  exact ⟨n, h⟩

/-- The second argument binds the rule's variable and the third overwrites that: from the fact
`q("b")` and the rule `p(X, X, "b") :- q(X)`, the goal `p(Z, "a", Z)` gets an answer that makes it
`p("b", "a", "b")`, which is no consequence. -/
theorem query_overwritten :
    InferenceEngine.query ⟨100, 100⟩ 1
        ⟨[⟨"q", [.const (.string "b")]⟩],
          [⟨⟨"p", [.var "X", .var "X", .const (.string "b")]⟩, [⟨"q", [.var "X"]⟩]⟩]⟩
        ⟨"p", [.var "Z", .const (.string "a"), .var "Z"]⟩ =
      some [(Finmap.insert "Z" (.var "X_0") ∅).insert "X_0" (.const (.string "b"))] ∧
    ∀ n ≥ 2, ¬ Entails (KnowledgeBase.program ⟨[⟨"q", [.const (.string "b")]⟩],
        [⟨⟨"p", [.var "X", .var "X", .const (.string "b")]⟩, [⟨"q", [.var "X"]⟩]⟩]⟩)
      ((applySubstPredicate ((Finmap.insert "Z" (.var "X_0") ∅).insert "X_0"
        (.const (.string "b"))))^[n] ⟨"p", [.var "Z", .const (.string "a"), .var "Z"]⟩).atom := by
  refine ⟨by rfl, fun n hn h => ?_⟩
  have hfix : ∀ n ≥ 2, (applySubstPredicate ((Finmap.insert "Z" (.var "X_0") ∅).insert "X_0"
      (.const (.string "b"))))^[n] ⟨"p", [.var "Z", .const (.string "a"), .var "Z"]⟩ =
        ⟨"p", [.const (.string "b"), .const (.string "a"), .const (.string "b")]⟩ := by
    intro n hn
    induction n, hn using Nat.le_induction with
    | base => rfl
    | succ n _ ih =>
      rw [Function.iterate_succ_apply', ih]
      rfl
  rw [hfix n hn] at h
  -- a model in which `p` holds where its first two arguments are the same, and `q` everywhere
  let M : Interp String Leaf String (Tm Leaf String Empty) :=
    { toAlgebra := free Leaf String Empty
      holds := fun name args => name = "p" → args[0]? = args[1]? }
  have hM : Models M (KnowledgeBase.program ⟨[⟨"q", [.const (.string "b")]⟩],
      [⟨⟨"p", [.var "X", .var "X", .const (.string "b")]⟩, [⟨"q", [.var "X"]⟩]⟩]⟩) := by
    rintro c (⟨p, hp, rfl⟩ | ⟨r, hr, rfl⟩) ρ -
    · obtain rfl := List.mem_singleton.mp hp
      intro hname
      simp [Predicate.atom] at hname
    · obtain rfl := List.mem_singleton.mp hr
      intro _
      rfl
  have heq := h _ M hM (fun _ => .const (.const (.int 0))) rfl
  simp [Predicate.atom, M, free] at heq

end Ipfrs.Tensorlogic
