import Ipfrs.Tensorlogic.Resolution

/-!
# What the check of a proof checks

The check compares the rule of a node with the knowledge base by names and numbers of arguments
only, and the subproofs with the rule's body by names only. So which nodes are accepted is a matter
of predicate names: `usable n` are the names of the goals of trees of at most `n` levels that the
check accepts, and above the leaves the arguments of a goal are free.

* `unifyArgs_ground` — on ground terms unification is comparison;
* `usable_of_verify`, `exists_verify_of_usable` — the accepted trees, by their names;
* `verify_fact_sound` — a proof by a fact is checked as it should be;
* `verify_sound_iff` — the check is sound exactly when no rule can be used at all, because some goal
  of its body has a name for which no subproof can be accepted.
-/

namespace Ipfrs.Tensorlogic

open Terms Horn

/-! ### Ground terms -/

theorem isGround_arg {f : String} {args : List Term} {t : Term} (h : (Term.func f args).isGround)
    (ht : t ∈ args) : t.isGround := by
  rw [Term.isGround, Term.allGround_eq, List.all_eq_true] at h
  exact h t ht

variable {fuel : ℕ} {σ : Substitution} {kb : KnowledgeBase}

/-- **On ground terms unification is comparison**: it binds nothing, and it comes to an end. -/
theorem unifyArgs_ground {pairs : List (Term × Term)}
    (hground : ∀ p ∈ pairs, p.1.isGround ∧ p.2.isGround) (hsize : ∀ p ∈ pairs, size p.1.tm ≤ fuel) :
    ∃ r, unifyArgs (unify fuel) pairs σ = some r ∧
      (r = some σ ∧ (∀ p ∈ pairs, p.1.tm = p.2.tm) ∨ r = none ∧ ∃ p ∈ pairs, p.1.tm ≠ p.2.tm) := by
  induction fuel generalizing pairs with
  | zero =>
    cases pairs with
    | nil => exact ⟨_, rfl, Or.inl ⟨rfl, by simp⟩⟩
    | cons p rest =>
      have hpos : 0 < size p.1.tm := by
        cases h : p.1.tm with
        | var x => exact Nat.one_pos
        | const c => exact Nat.one_pos
        | app f ts => rw [size, eval_app]; exact Nat.succ_pos _
      exact absurd (hsize p List.mem_cons_self) (Nat.not_le.mpr hpos)
  | succ fuel ihfuel =>
    induction pairs with
    | nil => exact ⟨_, rfl, Or.inl ⟨rfl, by simp⟩⟩
    | cons p rest ih =>
      obtain ⟨t1, t2⟩ := p
      obtain ⟨⟨h1, h2⟩, hrest⟩ := List.forall_mem_cons.mp hground
      obtain ⟨hsize1, hsizes⟩ := List.forall_mem_cons.mp hsize
      have hfirst : ∃ r, unify (fuel + 1) t1 t2 σ = some r ∧
          (r = some σ ∧ t1.tm = t2.tm ∨ r = none ∧ t1.tm ≠ t2.tm) := by
        cases unifyCase t1 t2 σ with
        | same same eq =>
          rw [applySubstTerm_of_ground h1, applySubstTerm_of_ground h2] at same
          exact ⟨_, eq fuel, Or.inl ⟨rfl, same⟩⟩
        | bind v t now eq =>
          -- a ground term is no variable
          rw [BindsNow, applySubstTerm_of_ground h1, applySubstTerm_of_ground h2] at now
          rcases now.1 with ⟨rfl, -⟩ | ⟨-, rfl, -⟩
          · cases h1
          · cases h2
        | func f as bs left right length eq =>
          rw [applySubstTerm_of_ground h1] at left
          rw [applySubstTerm_of_ground h2] at right
          subst left right
          have hzip : ∀ p ∈ as.zip bs, p.1.isGround ∧ p.2.isGround := fun p hp =>
            ⟨isGround_arg h1 (List.of_mem_zip hp).1, isGround_arg h2 (List.of_mem_zip hp).2⟩
          obtain ⟨r, hr, hcase⟩ := ihfuel hzip fun p hp => by
            refine Nat.le_of_lt_succ (lt_of_lt_of_le ?_ hsize1)
            rw [Term.tm_func]
            exact size_lt_of_mem (List.mem_map_of_mem (List.of_mem_zip hp).1)
          refine ⟨r, (eq fuel).trans hr, hcase.imp (And.imp_right fun heq => ?_)
            (And.imp_right fun hne heq => ?_)⟩
          · rw [Term.tm_func, Term.tm_func, map_eq_map_of_zip length heq]
          · obtain ⟨p, hp, hne⟩ := hne
            refine hne ?_
            have hsubst := eval_zip (θ := Tm.var) (congrArg (subst Tm.var) heq) p hp
            rwa [subst_id, subst_id] at hsubst
        | clash ne eq =>
          refine ⟨_, eq fuel, Or.inr ⟨rfl, fun heq => ?_⟩⟩
          rw [applySubstTerm_of_ground h1, applySubstTerm_of_ground h2] at ne
          exact ne String Tm.var (congrArg _ heq)
      obtain ⟨r, hr, hcase⟩ := hfirst
      rcases hcase with ⟨rfl, heq⟩ | ⟨rfl, hne⟩
      · obtain ⟨r, hr', hcase⟩ := ih hrest hsizes
        refine ⟨r, ?_, ?_⟩
        · rw [unifyArgs, hr]
          exact hr'
        · refine hcase.imp (And.imp_right fun h => List.forall_mem_cons.mpr ⟨heq, h⟩)
            (And.imp_right ?_)
          rintro ⟨p, hp, hne⟩
          exact ⟨p, List.mem_cons_of_mem _ hp, hne⟩
      · refine ⟨none, ?_, Or.inr ⟨rfl, _, List.mem_cons_self, hne⟩⟩
        rw [unifyArgs, hr]
        rfl

theorem atom_eq_of_unified {p1 p2 : Predicate} {σ' : Substitution} (h1 : p1.isGround)
    (h2 : p2.isGround) (h : unifyPredicates fuel p1 p2 σ = some (some σ')) : p1.atom = p2.atom := by
  obtain ⟨⟨hname, hlength⟩, hargs⟩ := unifyPredicates_eq_some_some.mp h
  rw [Predicate.isGround, List.all_eq_true] at h1 h2
  -- with fuel for every argument, the run gives the same
  let enough := fuel + ((p1.args.map fun t => size t.tm).sum)
  have hmore : ∀ t1 t2 σ r, unify fuel t1 t2 σ = some r → unify enough t1 t2 σ = some r :=
    fun _ _ _ _ => unify_mono (Nat.le_add_right _ _)
  have hsame := unifyArgs_mono hmore hargs
  have hsize : ∀ p ∈ p1.args.zip p2.args, size p.1.tm ≤ enough :=
    fun p hp => le_trans (List.single_le_sum (fun _ _ => Nat.zero_le _) _
      (List.mem_map_of_mem (f := fun t => size t.tm) (List.of_mem_zip hp).1)) (Nat.le_add_left _ _)
  obtain ⟨r, hr, hcase⟩ := unifyArgs_ground
    (fun p hp => ⟨h1 _ (List.of_mem_zip hp).1, h2 _ (List.of_mem_zip hp).2⟩) hsize
  rw [hsame, Option.some.injEq] at hr
  subst hr
  rcases hcase with ⟨-, heq⟩ | ⟨hnone, -⟩
  · exact Atom.ext hname (map_eq_map_of_zip hlength heq)
  · cases hnone

/-! ### The accepted trees -/

/-- Some tree of at most `levels` levels with a goal of this name is accepted. -/
def usable (kb : KnowledgeBase) : ℕ → String → Bool
  | 0, _ => false
  | levels + 1, name =>
    kb.facts.any (·.name = name) ||
      kb.rules.any fun r => r.head.name = name && r.body.all fun b => usable kb levels b.name

theorem usable_succ {levels : ℕ} {name : String} :
    usable kb (levels + 1) name ↔ (∃ f ∈ kb.facts, f.name = name) ∨
      ∃ r ∈ kb.rules, r.head.name = name ∧ ∀ b ∈ r.body, usable kb levels b.name := by
  simp [usable]

/-- The loop over the subproofs accepts when all of them are accepted, and their goals have the
names of the body's. -/
theorem verifySubproofs_eq_true {verify : Proof → Option Bool} {subproofs : List Proof}
    {body : List Predicate} (hlength : subproofs.length = body.length) :
    InferenceEngine.verifySubproofs verify subproofs body = some true ↔
      subproofs.map (·.goal.name) = body.map (·.name) ∧ ∀ p ∈ subproofs, verify p = some true := by
  induction subproofs generalizing body with
  | nil =>
    obtain rfl := List.length_eq_zero_iff.mp hlength.symm
    exact iff_of_true rfl ⟨rfl, by simp⟩
  | cons p subproofs ih =>
    obtain ⟨b, body, rfl⟩ := List.exists_cons_of_length_eq_add_one hlength.symm
    rw [List.map_cons, List.map_cons, List.cons.injEq, List.forall_mem_cons, and_and_and_comm,
      ← ih (Nat.succ.inj hlength), InferenceEngine.verifySubproofs]
    by_cases hname : p.goal.name = b.name
    · rw [if_neg (not_not.mpr hname), Option.bind_eq_bind, Option.bind_eq_some_iff]
      constructor
      · rintro ⟨ok, hok, hrest⟩
        cases ok with
        | true => exact ⟨⟨hname, hok⟩, hrest⟩
        | false => cases Option.some.inj hrest
      · rintro ⟨⟨-, hok⟩, hrest⟩
        exact ⟨true, hok, hrest⟩
    · rw [if_pos hname]
      exact iff_of_false (fun e => by cases Option.some.inj e) fun e => hname e.1.1

theorem sameShape_names {r : Rule} {rule : ProofRule}
    (h : InferenceEngine.sameShape r rule) : r.body.map (·.name) = rule.body.map (·.name) := by
  simp only [InferenceEngine.sameShape, Bool.and_eq_true, decide_eq_true_eq, List.all_eq_true] at h
  obtain ⟨⟨-, hlength⟩, hall⟩ := h
  exact map_eq_map_of_zip hlength fun p hp => (hall p hp).1

section Check

variable {engine : InferenceEngine} {fuel : ℕ} {kb : KnowledgeBase}
variable {levels : ℕ} {proof : Proof} {rule : ProofRule}

/-- The rule at an accepted node can be used with the levels that are left. -/
theorem exists_rule_of_verify (hrule : proof.rule = some rule) (hfact : ¬ rule.isFact)
    (h : InferenceEngine.verifyProofRecursive fuel kb (levels + 1) proof = some true)
    (ih : ∀ p, InferenceEngine.verifyProofRecursive fuel kb levels p = some true →
      usable kb levels p.goal.name) :
    ∃ r ∈ kb.rules, r.head.name = proof.goal.name ∧ ∀ b ∈ r.body, usable kb levels b.name := by
  rw [InferenceEngine.verifyProofRecursive, hrule] at h
  dsimp only at h
  rw [if_neg hfact] at h
  split at h
  · cases Option.some.inj h
  next hany =>
  split at h
  · cases Option.some.inj h
  next hlength =>
  rw [Bool.not_eq_true', Bool.not_eq_false, List.any_eq_true] at hany
  obtain ⟨r, hr, hshape⟩ := hany
  obtain ⟨hmem, hname⟩ := KnowledgeBase.mem_getRules.mp hr
  refine ⟨r, hmem, hname, fun b hb => ?_⟩
  -- the name of the body goal is that of a subproof
  have hnames : b.name ∈ rule.body.map (·.name) := by
    rw [← sameShape_names hshape]
    exact List.mem_map_of_mem hb
  obtain ⟨hgoals, hverified⟩ := (verifySubproofs_eq_true (not_not.mp hlength)).mp h
  rw [← hgoals] at hnames
  obtain ⟨p, hp, hpname⟩ := List.mem_map.mp hnames
  rw [← hpname]
  exact ih p (hverified p hp)

theorem exists_fact_of_verify (hrule : proof.rule = some rule) (hfact : rule.isFact)
    (h : InferenceEngine.verifyProofRecursive fuel kb (levels + 1) proof = some true) :
    ∃ fact ∈ kb.getPredicates proof.goal.name, ∃ σ,
      unifyPredicates fuel proof.goal fact ∅ = some (some σ) := by
  rw [InferenceEngine.verifyProofRecursive, hrule] at h
  dsimp only at h
  rw [if_pos hfact] at h
  exact exists_of_anyUnifies h

/-- **The goal of an accepted tree** has a name that is usable. -/
theorem usable_of_verify
    (h : InferenceEngine.verifyProofRecursive fuel kb levels proof = some true) :
    usable kb levels proof.goal.name := by
  induction levels generalizing proof with
  | zero => cases Option.some.inj h
  | succ levels ih =>
    cases hrule : proof.rule with
    | none =>
      rw [InferenceEngine.verifyProofRecursive, hrule] at h
      cases Option.some.inj h
    | some rule =>
      by_cases hfact : rule.isFact
      · obtain ⟨fact, hmem, -⟩ := exists_fact_of_verify hrule hfact h
        obtain ⟨hmem, hname⟩ := KnowledgeBase.mem_getPredicates.mp hmem
        exact usable_succ.mpr (Or.inl ⟨fact, hmem, hname⟩)
      · exact usable_succ.mpr (Or.inr (exists_rule_of_verify hrule hfact h fun p => ih))

/-- **A proof by a fact** is checked as it should be. -/
theorem verify_fact_sound (hfacts : ∀ f ∈ kb.facts, f.isGround) (hground : proof.goal.isGround)
    (hrule : proof.rule = some rule) (hfact : rule.isFact)
    (h : InferenceEngine.verifyProofRecursive fuel kb (levels + 1) proof = some true) :
    Entails (μ := String) kb.program proof.goal.atom := by
  obtain ⟨fact, hmem, σ, hunified⟩ := exists_fact_of_verify hrule hfact h
  have hmem' := (KnowledgeBase.mem_getPredicates.mp hmem).1
  rw [atom_eq_of_unified hground (hfacts fact hmem') hunified]
  intro D M hM ρ
  exact hM _ (fact_mem_program hmem) ρ fun b hb => absurd hb List.not_mem_nil

end Check

/-! ### Building accepted trees -/

section Build

variable {fuel : ℕ} {kb : KnowledgeBase}
variable {levels : ℕ} {f : Predicate}

/-- A tree above a rule is accepted, whatever the arguments of its goal are. -/
theorem verify_of_rule {r : Rule} (hr : r ∈ kb.rules)
    (hbody : ∀ b ∈ r.body, ∃ p : Proof, p.goal.name = b.name ∧
      InferenceEngine.verifyProofRecursive fuel kb levels p = some true) (goal : Predicate)
    (hgoal : goal.name = r.head.name) :
    ∃ p : Proof, p.goal = goal ∧
      InferenceEngine.verifyProofRecursive fuel kb (levels + 1) p = some true := by
  -- the proofs of the body, in its order
  have hsubproofs : ∀ body : List Predicate, (∀ b ∈ body, ∃ p : Proof, p.goal.name = b.name ∧
      InferenceEngine.verifyProofRecursive fuel kb levels p = some true) →
      ∃ subproofs : List Proof, subproofs.map (·.goal.name) = body.map (·.name) ∧
        ∀ p ∈ subproofs, InferenceEngine.verifyProofRecursive fuel kb levels p = some true := by
    intro body
    induction body with
    | nil => exact fun _ => ⟨[], rfl, by simp⟩
    | cons b body ih =>
      intro h
      obtain ⟨⟨p, hname, hp⟩, hrest⟩ := List.forall_mem_cons.mp h
      obtain ⟨ps, hnames, hps⟩ := ih hrest
      exact ⟨p :: ps, by rw [List.map_cons, hname, hnames, List.map_cons],
        List.forall_mem_cons.mpr ⟨hp, hps⟩⟩
  obtain ⟨subproofs, hnames, hverified⟩ := hsubproofs r.body hbody
  have hlength : subproofs.length = r.body.length := by
    simpa using congrArg List.length hnames
  -- the rule has the shape of itself
  have hshape : InferenceEngine.sameShape r ⟨r.head, r.body, false⟩ := by
    have hzip : ∀ p ∈ r.body.zip r.body, p.1 = p.2 := by
      intro p hp
      obtain ⟨i, hi, rfl⟩ := List.mem_iff_getElem.mp hp
      rw [List.getElem_zip]
    simp only [InferenceEngine.sameShape, decide_true, Bool.true_and, List.all_eq_true]
    intro p hp
    rw [hzip p hp]
    simp
  have hany : (kb.getRules goal.name).any (InferenceEngine.sameShape · ⟨r.head, r.body, false⟩) :=
    List.any_eq_true.mpr ⟨r, KnowledgeBase.mem_getRules.mpr ⟨hr, hgoal.symm⟩, hshape⟩
  refine ⟨.fromRule goal r subproofs, rfl, ?_⟩
  rw [InferenceEngine.verifyProofRecursive]
  show (if !(kb.getRules goal.name).any (InferenceEngine.sameShape · ⟨r.head, r.body, false⟩)
    then _ else if subproofs.length ≠ r.body.length then _ else _) = _
  rw [hany, if_neg (by simp), if_neg (not_not.mpr hlength)]
  exact (verifySubproofs_eq_true hlength).mpr ⟨hnames, hverified⟩

/-- Fuel that is enough to compare any two facts. -/
def factFuel (kb : KnowledgeBase) : ℕ :=
  (kb.facts.map fun f => (f.args.map fun t => size t.tm).sum).sum

theorem size_le_factFuel (hf : f ∈ kb.facts) {t : Term} (ht : t ∈ f.args) :
    size t.tm ≤ factFuel kb :=
  calc size t.tm ≤ (f.args.map fun t => size t.tm).sum :=
        List.single_le_sum (fun _ _ => Nat.zero_le _) _
          (List.mem_map_of_mem (f := fun t => size t.tm) ht)
    _ ≤ factFuel kb :=
        List.single_le_sum (fun _ _ => Nat.zero_le _) _
          (List.mem_map_of_mem (f := fun f : Predicate => (f.args.map fun t => size t.tm).sum) hf)

theorem verify_of_fact (hfacts : ∀ f ∈ kb.facts, f.isGround) (hf : f ∈ kb.facts) (levels : ℕ) :
    InferenceEngine.verifyProofRecursive (factFuel kb) kb (levels + 1) (.fact f) = some true := by
  have hargs := hfacts f hf
  rw [Predicate.isGround, List.all_eq_true] at hargs
  -- ground facts unify with equal ones only, within these levels
  have hcall : ∀ g ∈ kb.facts, ∃ r, unifyPredicates (factFuel kb) f g ∅ = some r ∧
      (g = f → r.isSome) := by
    intro g hg
    have hgargs := hfacts g hg
    rw [Predicate.isGround, List.all_eq_true] at hgargs
    have hzip : ∀ p ∈ f.args.zip g.args, p.1.isGround ∧ p.2.isGround :=
      fun p hp => ⟨hargs _ (List.of_mem_zip hp).1, hgargs _ (List.of_mem_zip hp).2⟩
    obtain ⟨r, hr, hcase⟩ := unifyArgs_ground (σ := ∅) hzip
      fun p hp => size_le_factFuel hf (List.of_mem_zip hp).1
    rw [unifyPredicates]
    split
    · next hne =>
      refine ⟨none, rfl, ?_⟩
      rintro rfl
      simp at hne
    · refine ⟨r, hr, ?_⟩
      rintro rfl
      rcases hcase with ⟨rfl, -⟩ | ⟨-, p, hp, hne⟩
      · rfl
      · obtain ⟨i, hi, rfl⟩ := List.mem_iff_getElem.mp hp
        rw [List.getElem_zip] at hne
        exact absurd rfl hne
  -- the fact is found among those before and behind it
  have hany : ∀ facts, (∀ g ∈ facts, g ∈ kb.facts) → f ∈ facts →
      anyUnifies (factFuel kb) f ∅ facts = some true := by
    intro facts
    induction facts with
    | nil => exact fun _ h => absurd h List.not_mem_nil
    | cons g facts ih =>
      intro hsub hmem
      obtain ⟨r, hr, hsome⟩ := hcall g (hsub g List.mem_cons_self)
      rw [anyUnifies, hr]
      cases r with
      | some σ => rfl
      | none =>
        refine ih (fun g hg => hsub g (List.mem_cons_of_mem _ hg)) ?_
        rcases List.mem_cons.mp hmem with rfl | hmem
        · exact absurd (hsome rfl) (by simp)
        · exact hmem
  exact hany _ (fun g hg => (KnowledgeBase.mem_getPredicates.mp hg).1)
    (KnowledgeBase.mem_getPredicates.mpr ⟨hf, rfl⟩)

/-- **For a usable name** there is an accepted tree. -/
theorem exists_verify_of_usable (hfacts : ∀ f ∈ kb.facts, f.isGround) {name : String}
    (h : usable kb levels name) :
    ∃ p : Proof, p.goal.name = name ∧
      InferenceEngine.verifyProofRecursive (factFuel kb) kb levels p = some true := by
  induction levels generalizing name with
  | zero => cases h
  | succ levels ih =>
    rcases usable_succ.mp h with ⟨f, hf, hname⟩ | ⟨r, hr, hname, hbody⟩
    · exact ⟨.fact f, hname, verify_of_fact hfacts hf levels⟩
    · obtain ⟨p, hgoal, hp⟩ := verify_of_rule hr (fun b hb => ih (hbody b hb)) r.head rfl
      exact ⟨p, by rw [hgoal, hname], hp⟩

end Build

/-! ### When the check is sound -/

/-- Every predicate holds of everything, but for one name with one number of arguments. -/
def allBut (name : String) (arity : ℕ) : Interp String Leaf String (Tm Leaf String Empty) where
  toAlgebra := free Leaf String Empty
  holds := fun n args => ¬ (n = name ∧ args.length = arity)

/-- No consequence has a number of arguments that the knowledge base does not mention. -/
theorem not_entails_of_arity {goal : Predicate}
    (hfacts : ∀ f ∈ kb.facts, f.args.length ≠ goal.args.length)
    (hrules : ∀ r ∈ kb.rules, r.head.args.length ≠ goal.args.length) :
    ¬ Entails (μ := String) kb.program goal.atom := by
  intro h
  have hM : Models (allBut goal.name goal.args.length) kb.program := by
    rintro c (⟨f, hf, rfl⟩ | ⟨r, hr, rfl⟩) ρ -
    · rintro ⟨-, hlength⟩
      rw [List.length_map, Predicate.atom, List.length_map] at hlength
      exact hfacts f hf hlength
    · rintro ⟨-, hlength⟩
      rw [List.length_map] at hlength
      exact hrules r hr (by simpa [Rule.clause, Predicate.atom] using hlength)
  refine h _ _ hM (fun _ => .const (.const (.int 0))) ⟨rfl, ?_⟩
  rw [List.length_map, Predicate.atom, List.length_map]

/-- **When the check is sound**: a proof of a ground goal that is accepted proves a consequence,
whatever the proof is, if and only if every rule has a body goal with a name for which no subproof
can be accepted. -/
theorem verify_sound_iff {engine : InferenceEngine} (hfacts : ∀ f ∈ kb.facts, f.isGround) :
    (∀ fuel proof, proof.goal.isGround → engine.verify fuel kb proof = some true →
        Entails (μ := String) kb.program proof.goal.atom) ↔
      ∀ r ∈ kb.rules, ∃ b ∈ r.body, ¬ usable kb engine.maxDepth b.name := by
  constructor
  · intro hsound r hr
    by_contra hall
    rw [not_exists] at hall
    -- a goal of the rule's name with a number of arguments that nothing has
    let arity := ((kb.facts.map (·.args.length)).sum + (kb.rules.map (·.head.args.length)).sum) + 1
    let goal : Predicate := ⟨r.head.name, List.replicate arity (.const (.int 0))⟩
    have hground : goal.isGround := by
      rw [Predicate.isGround, List.all_eq_true]
      intro t ht
      rw [List.eq_of_mem_replicate ht]
      rfl
    have hbody : ∀ b ∈ r.body, ∃ p : Proof, p.goal.name = b.name ∧
        InferenceEngine.verifyProofRecursive (factFuel kb) kb engine.maxDepth p = some true :=
      fun b hb => exists_verify_of_usable hfacts (by simpa [hb] using hall b)
    obtain ⟨p, hgoal, hp⟩ := verify_of_rule hr hbody goal rfl
    have hentails := hsound _ p (hgoal ▸ hground) hp
    rw [hgoal] at hentails
    refine not_entails_of_arity ?_ ?_ hentails
    · intro f hf hlength
      have hle : f.args.length ≤ (kb.facts.map (·.args.length)).sum :=
        List.single_le_sum (fun _ _ => Nat.zero_le _) _
          (List.mem_map_of_mem (f := fun f : Predicate => f.args.length) hf)
      rw [hlength, List.length_replicate] at hle
      omega
    · intro r' hr' hlength
      have hle : r'.head.args.length ≤ (kb.rules.map (·.head.args.length)).sum :=
        List.single_le_sum (fun _ _ => Nat.zero_le _) _
          (List.mem_map_of_mem (f := fun r : Rule => r.head.args.length) hr')
      rw [hlength, List.length_replicate] at hle
      omega
  · intro hrules fuel proof hground h
    cases hrule : proof.rule with
    | none =>
      rw [InferenceEngine.verify, InferenceEngine.verifyProofRecursive, hrule] at h
      cases Option.some.inj h
    | some rule =>
      by_cases hfact : rule.isFact
      · exact verify_fact_sound hfacts hground hrule hfact h
      · obtain ⟨r, hr, -, hbody⟩ := exists_rule_of_verify hrule hfact h fun p => usable_of_verify
        obtain ⟨b, hb, hnot⟩ := hrules r hr
        exact absurd (hbody b hb) hnot

theorem verify_sound_iff_two :
    (∀ fuel proof, proof.goal.isGround →
        InferenceEngine.verify ⟨100, 100⟩ fuel ⟨[⟨"q", [.const (.string "a")]⟩],
          [⟨⟨"p", [.var "X"]⟩, [⟨"r", [.var "X"]⟩]⟩]⟩ proof = some true →
        Entails (μ := String) (KnowledgeBase.program ⟨[⟨"q", [.const (.string "a")]⟩],
          [⟨⟨"p", [.var "X"]⟩, [⟨"r", [.var "X"]⟩]⟩]⟩) proof.goal.atom) ↔
      ∀ r ∈ [(⟨⟨"p", [.var "X"]⟩, [⟨"r", [.var "X"]⟩]⟩ : Rule)],
        ∃ b ∈ r.body, ¬ usable ⟨[⟨"q", [.const (.string "a")]⟩],
          [⟨⟨"p", [.var "X"]⟩, [⟨"r", [.var "X"]⟩]⟩]⟩ 100 b.name := by
  refine verify_sound_iff fun f hf => ?_
  obtain rfl := List.mem_singleton.mp hf
  rfl

/-- The goal is not compared with the head of the rule: from the fact `q("a")` and the rule
`p(X) :- q(X)`, a tree with the goal `p("b")` and the fact `q("a")` below it is accepted. -/
theorem verify_other_goal :
    InferenceEngine.verify ⟨100, 100⟩ 1
        ⟨[⟨"q", [.const (.string "a")]⟩], [⟨⟨"p", [.var "X"]⟩, [⟨"q", [.var "X"]⟩]⟩]⟩
        (.fromRule ⟨"p", [.const (.string "b")]⟩ ⟨⟨"p", [.var "X"]⟩, [⟨"q", [.var "X"]⟩]⟩
          [.fact ⟨"q", [.const (.string "a")]⟩]) = some true ∧
      ¬ Entails (μ := String) (KnowledgeBase.program
          ⟨[⟨"q", [.const (.string "a")]⟩], [⟨⟨"p", [.var "X"]⟩, [⟨"q", [.var "X"]⟩]⟩]⟩)
        (Predicate.atom ⟨"p", [.const (.string "b")]⟩) := by
  refine ⟨by rfl, fun h => ?_⟩
  -- a model in which both predicates hold of "a" only
  let M : Interp String Leaf String (Tm Leaf String Empty) :=
    { toAlgebra := free Leaf String Empty
      holds := fun _ args => args = [.const (.const (.string "a"))] }
  have hM : Models M (KnowledgeBase.program
      ⟨[⟨"q", [.const (.string "a")]⟩], [⟨⟨"p", [.var "X"]⟩, [⟨"q", [.var "X"]⟩]⟩]⟩) := by
    rintro c (⟨f, hf, rfl⟩ | ⟨r, hr, rfl⟩) ρ hbody
    · obtain rfl := List.mem_singleton.mp hf
      rfl
    · obtain rfl := List.mem_singleton.mp hr
      exact hbody (Predicate.atom ⟨"q", [.var "X"]⟩) (List.mem_singleton.mpr rfl)
  have hp := h _ M hM fun _ => .const (.const (.int 0))
  simp [Atom.Holds, Predicate.atom, M, free] at hp

end Ipfrs.Tensorlogic
