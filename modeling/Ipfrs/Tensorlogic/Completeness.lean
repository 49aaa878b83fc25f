import Ipfrs.Tensorlogic.Enumeration

/-!
# Which answers are found

The variables of a rule are renamed with the depth at which it is used. Two goals of one body are
solved at the same depth, so when the same rule is used for both, its variables have the same names,
and the second use finds them bound by the first. What the search finds is therefore what can be
proved with *one* value for every name, `ProvedUnder`, and not everything that is in the least
model.

A knowledge base without recursion needs no more levels than it has predicates with rules. So every
goal that can be proved in this way is answered: the value of every name solves the bindings from
call to call, and with such a solution no call can fail.

* `ProvedUnder.answered` — the search finds what is proved with one value for every name;
* `Derivation.proved` — and where the calls keep their bindings, it finds nothing else;
* `query_complete_iff` — when every instance in the least model is found.
-/

namespace Ipfrs.Tensorlogic

open Terms Horn

/-- The ground terms that variables stand for. -/
abbrev Valuation := String → Tm Leaf String Empty

/-- The valuation solves the bindings. -/
def Substitution.SolvedBy (σ : Substitution) (θ : Valuation) : Prop :=
  Solves (free Leaf String Empty) θ (bindings σ)

/-- **Proved with one value for every name**: from the facts, and from the rules as they are renamed
at a depth, where every name has the same value in the whole proof. -/
inductive ProvedUnder (kb : KnowledgeBase) (θ : Valuation) :
    ℕ → Atom String Leaf String Empty → Prop
  | fact {d : ℕ} {f : Predicate} (mem : f ∈ kb.facts) : ProvedUnder kb θ d (f.atom.subst θ)
  | rule {d : ℕ} {r : Rule} (mem : r ∈ kb.rules)
    (body : ∀ p ∈ (renameRuleVars r d).body, ProvedUnder kb θ (d + 1) (p.atom.subst θ)) :
    ProvedUnder kb θ d ((renameRuleVars r d).head.atom.subst θ)

/-- The names and the numbers of arguments of the predicates with rules. -/
def KnowledgeBase.rulePredicates (kb : KnowledgeBase) : Finset (String × ℕ) :=
  (kb.rules.map fun r => (r.head.name, r.head.args.length)).toFinset

/-- The ground instance of the goal is an instance of an answer. -/
def Answered (sols : List Substitution) (goal : Predicate) (a : Atom String Leaf String Empty) :
    Prop :=
  ∃ s ∈ sols, ∃ θ, s.SolvedBy θ ∧ goal.atom.subst θ = a

/-- Every instance of the goal in the least model is an instance of an answer. -/
def FindsAll (kb : KnowledgeBase) (sols : List Substitution) (goal : Predicate) : Prop :=
  ∀ a, Least kb.program a → (∃ θ, goal.atom.subst θ = a) → Answered sols goal a

/-- Every instance of the goal in the least model is proved with one value for every name. -/
def OneValued (kb : KnowledgeBase) (goal : Predicate) : Prop :=
  ∀ a, Least kb.program a → (∃ θ, goal.atom.subst θ = a) →
    ∃ θ, goal.atom.subst θ = a ∧ ProvedUnder kb θ 0 a

section

variable {fuel : ℕ} {kb : KnowledgeBase} {θ : Valuation}

theorem least_of_fact {f : Predicate} (hf : f ∈ kb.facts) (θ : Valuation) :
    Least kb.program (f.atom.subst θ) :=
  .intro ⟨f.atom, []⟩ (Or.inl ⟨f, hf, rfl⟩) θ fun _ hb => absurd hb List.not_mem_nil

variable {r : Rule} {goal head : Predicate} {σ : Substitution} {goals : List Predicate} {d : ℕ}

theorem least_of_rule (hr : r ∈ kb.rules) (θ : Valuation)
    (hbody : ∀ p ∈ r.body, Least kb.program (p.atom.subst θ)) :
    Least kb.program (r.head.atom.subst θ) := by
  refine .intro r.clause (Or.inr ⟨r, hr, rfl⟩) θ fun b hb => ?_
  obtain ⟨p, hp, rfl⟩ := List.mem_map.mp hb
  exact hbody p hp

/-! ### What is proved is found -/

/-- A goal that is the head under a solution of the bindings unifies with it, and the solution
solves the new bindings. -/
theorem exists_of_unifyPredicates {fuel : ℕ} {r : Option Substitution}
    (hcall : unifyPredicates fuel goal head σ = some r) (hθ : σ.SolvedBy θ)
    (heq : goal.atom.subst θ = head.atom.subst θ) : ∃ σ', r = some σ' ∧ σ'.SolvedBy θ := by
  have hname : goal.name = head.name := congrArg Atom.name heq
  have hlength : goal.args.length = head.args.length := by
    have h := congrArg (fun a => a.args.length) heq
    simpa [Atom.subst, Predicate.atom] using h
  have hpairs : ∀ q ∈ goal.args.zip head.args, subst θ q.1.tm = subst θ q.2.tm := by
    have hterm := Predicate.subst_atom_eq_iff.mp heq
    rw [Predicate.toTerm, Predicate.toTerm, ← hname] at hterm
    exact eval_zip hterm
  rw [unifyPredicates, if_neg (by simp [hname, hlength])] at hcall
  exact unifyArgs_complete hθ hpairs hcall

theorem exists_attempt (fuel : ℕ) (hgoal : goal.Flat) (hhead : head.Flat) (hσ : σ.Flat)
    (hθ : σ.SolvedBy θ) (heq : goal.atom.subst θ = head.atom.subst θ) :
    ∃ σ', attempt (fuel + 1) (applySubstPredicate σ goal) head σ = some σ' ∧ σ'.SolvedBy θ := by
  rw [← subst_atom_apply hθ goal] at heq
  exact exists_of_unifyPredicates (attempt_spec fuel (hgoal.apply hσ) hhead hσ).1 hθ heq

theorem exists_mem_allConjunction {answers : Predicate → Substitution → List Substitution}
    (hanswers : ∀ g ∈ goals, ∀ σ : Substitution, σ.Flat → σ.SolvedBy θ →
      ∃ s ∈ answers g σ, s.Flat ∧ s.SolvedBy θ) (hσ : σ.Flat) (hθ : σ.SolvedBy θ) :
    ∃ s ∈ allConjunction answers goals σ, s.SolvedBy θ := by
  induction goals generalizing σ with
  | nil => exact ⟨σ, List.mem_singleton.mpr rfl, hθ⟩
  | cons g rest ih =>
    obtain ⟨hg, hrest⟩ := List.forall_mem_cons.mp hanswers
    obtain ⟨σ₁, hmem₁, hσ₁, hθ₁⟩ := hg σ hσ hθ
    obtain ⟨s, hmem, hs⟩ := ih hrest hσ₁ hθ₁
    exact ⟨s, List.mem_flatMap.mpr ⟨σ₁, hmem₁, hmem⟩, hs⟩

theorem key_mem_rulePredicates :
    ∀ c ∈ kb.program, c.body ≠ [] → c.head.key ∈ kb.rulePredicates := by
  rintro c (⟨f, hf, rfl⟩ | ⟨r, hr, rfl⟩) hbody
  · exact absurd rfl hbody
  · have hkey : r.clause.head.key = (r.head.name, r.head.args.length) := by
      show (r.head.name, (r.head.args.map Term.tm).length) = _
      rw [List.length_map]
    rw [hkey, KnowledgeBase.rulePredicates, List.mem_toFinset]
    exact List.mem_map_of_mem hr

theorem depends_renamed (hr : r ∈ kb.rules) {p : Predicate} (hp : p ∈ (renameRuleVars r d).body) :
    Depends kb.program (renameRuleVars r d).head.atom.key p.atom.key := by
  obtain ⟨q, hq, heq⟩ := exists_of_mem_renamedBody hp
  refine ⟨r.clause, Or.inr ⟨r, hr, rfl⟩, ?_, q.atom, List.mem_map_of_mem hq, ?_⟩
  · rw [atom_renamedHead, Atom.key_subst]
    rfl
  · rw [heq, Atom.key_subst]

/-- **What is proved with one value for every name is found**, with a level for every predicate that
the goal's predicate rests on. -/
theorem ProvedUnder.answered (hkb : kb.FunctionFree) (hrec : NonRecursive kb.program)
    {a : Atom String Leaf String Empty} (h : ProvedUnder kb θ d a) {levels : ℕ}
    (hlevels : height kb.program a.key < levels) (hgoal : goal.Flat) (hσ : σ.Flat)
    (hθ : σ.SolvedBy θ) (heq : goal.atom.subst θ = a) :
    ∃ s ∈ allAnswers (fuel + 1) kb levels d goal σ, s.SolvedBy θ := by
  induction h generalizing levels goal σ with
  | @fact d f mem =>
    obtain ⟨n, rfl⟩ := Nat.exists_eq_add_of_lt hlevels
    obtain ⟨σ', hattempt, hσ'⟩ := exists_attempt fuel hgoal (hkb.facts f mem) hσ hθ heq
    refine ⟨σ', List.mem_append_left _ (List.mem_filterMap.mpr ⟨f, ?_, hattempt⟩), hσ'⟩
    exact KnowledgeBase.mem_getPredicates.mpr ⟨mem, (congrArg Atom.name heq).symm⟩
  | @rule d r mem body ih =>
    obtain ⟨n, hn⟩ : ∃ n, levels = n + 1 := ⟨levels - 1, by omega⟩
    subst hn
    have hhead := flat_renamedHead (hkb.heads r mem) d
    obtain ⟨σ₁, hattempt, hθ₁⟩ := exists_attempt fuel hgoal hhead hσ hθ heq
    have hσ₁ := (attempt_spec fuel (hgoal.apply hσ) hhead hσ).2 σ₁ hattempt
    have hbody := flat_renamedBody (hkb.bodies r mem) d
    -- the goals of the body are of lower height
    have hanswers : ∀ p ∈ (renameRuleVars r d).body, ∀ σ : Substitution, σ.Flat → σ.SolvedBy θ →
        ∃ s ∈ allAnswers (fuel + 1) kb n (d + 1) p σ, s.Flat ∧ s.SolvedBy θ := by
      intro p hp σ hσ hθ
      have hheight := height_lt hrec key_mem_rulePredicates (depends_renamed mem hp)
      have hn : height kb.program (p.atom.subst θ).key < n := by
        rw [Atom.key_subst] at hlevels ⊢
        omega
      obtain ⟨s, hs, hsθ⟩ := ih p hp hn (hbody p hp) hσ hθ rfl
      exact ⟨s, hs, flat_of_mem_allAnswers hkb (hbody p hp) hσ s hs, hsθ⟩
    obtain ⟨s, hs, hsθ⟩ := exists_mem_allConjunction hanswers hσ₁ hθ₁
    refine ⟨s, List.mem_append_right _ (List.mem_flatMap.mpr ⟨r, ?_, ?_⟩), hsθ⟩
    · refine KnowledgeBase.mem_getRules.mpr ⟨mem, (congrArg Atom.name heq).symm⟩
    · rw [hattempt]
      exact hs

/-! ### What is found is proved -/

/-- **Where the calls keep their bindings, a derivation is a proof** with the values of any solution
of its answer. -/
theorem Derivation.proved {σ' : Substitution} {calls : List UnifyCall}
    (h : Derivation fuel kb d goals σ calls σ') (hkept : ∀ c ∈ calls, c.Kept)
    (hacyclic : Acyclic (bindings σ)) (hθ : σ'.SolvedBy θ) :
    ∀ p ∈ goals, ProvedUnder kb θ d (p.atom.subst θ) := by
  induction h with
  | nil d σ => exact fun p hp => absurd hp List.not_mem_nil
  | @fact d goal fact rest σ σ₁ σ' calls mem unified tail ih =>
    obtain ⟨hcall, hcalls⟩ := List.forall_mem_cons.mp hkept
    obtain ⟨hacyclic₁, -, -⟩ := unifyPredicates_sound unified hcall hacyclic
    obtain ⟨-, hext, -⟩ := tail.sound hcalls hacyclic₁
    have hθ₁ : σ₁.SolvedBy θ := hext.solves _ _ _ hθ
    refine List.forall_mem_cons.mpr ⟨?_, ih hcalls hacyclic₁ hθ⟩
    rw [(subst_eq_of_unified unified hcall hacyclic hθ₁).2]
    exact .fact (KnowledgeBase.mem_getPredicates.mp mem).1
  | @rule d goal r rest σ σ₁ σ₂ σ' calls calls' mem unified body tail ihbody ihtail =>
    obtain ⟨hcall, hcalls⟩ := List.forall_mem_cons.mp hkept
    have hleft : ∀ c ∈ calls, c.Kept := fun c hc => hcalls c (List.mem_append_left _ hc)
    have hright : ∀ c ∈ calls', c.Kept := fun c hc => hcalls c (List.mem_append_right _ hc)
    obtain ⟨hacyclic₁, -, -⟩ := unifyPredicates_sound unified hcall hacyclic
    obtain ⟨hacyclic₂, hext₂, -⟩ := body.sound hleft hacyclic₁
    obtain ⟨-, hext, -⟩ := tail.sound hright hacyclic₂
    have hθ₂ : σ₂.SolvedBy θ := hext.solves _ _ _ hθ
    have hθ₁ : σ₁.SolvedBy θ := hext₂.solves _ _ _ hθ₂
    refine List.forall_mem_cons.mpr ⟨?_, ihtail hright hacyclic₂ hθ⟩
    rw [(subst_eq_of_unified unified hcall hacyclic hθ₁).2]
    exact .rule (KnowledgeBase.mem_getRules.mp mem).1 (ihbody hleft hacyclic₁ hθ₂)

/-- **When every answer is found.** Without function symbols and without recursion, with a
level for every predicate with rules, and with a limit that no list of answers reaches, the search
returns; it finds every instance of the goal in the least model if each of them is proved with one
value for every name, and, where the calls keep their bindings, only if. -/
theorem query_complete_iff {engine : InferenceEngine} (hkb : kb.FunctionFree)
    (hrec : NonRecursive kb.program) (hgoal : goal.Flat)
    (hdepth : kb.rulePredicates.card ≤ engine.maxDepth)
    (hlimit : mostAnswers (fuel + 1) kb (engine.maxDepth + 1) 0 goal ∅ < engine.maxSolutions) :
    ∃ sols, engine.query (fuel + 1) kb goal = some sols ∧
      (OneValued kb goal → FindsAll kb sols goal) ∧
      ((∀ s ∈ sols, ∀ calls, Derivation (fuel + 1) kb 0 [goal] ∅ calls s → ∀ c ∈ calls, c.Kept) →
        FindsAll kb sols goal → OneValued kb goal) := by
  have hquery : engine.query (fuel + 1) kb goal = _ :=
    solveGoal_eq hkb hgoal Substitution.Flat.empty hlimit
  refine ⟨_, hquery, fun hone a ha hinstance => ?_, fun hkept hall a ha hinstance => ?_⟩
  · obtain ⟨θ, heq, hproved⟩ := hone a ha hinstance
    have hlevels : height kb.program a.key < engine.maxDepth + 1 :=
      Nat.lt_succ_of_le ((height_le key_mem_rulePredicates _).trans hdepth)
    obtain ⟨s, hs, hθ⟩ := hproved.answered hkb hrec hlevels hgoal Substitution.Flat.empty
      (solves_empty _ _) heq
    exact ⟨s, hs, θ, hθ, heq⟩
  · obtain ⟨s, hs, θ, hθ, heq⟩ := hall a ha hinstance
    obtain ⟨calls, hcalls⟩ := mem_query hquery hs
    have hproved := hcalls.proved (hkept s hs calls hcalls) acyclic_empty hθ goal
      (List.mem_singleton.mpr rfl)
    exact ⟨θ, heq, heq ▸ hproved⟩

end

/-- One rule over one fact. -/
def oneUse : KnowledgeBase where
  facts := [⟨"f", [.const (.string "a")]⟩]
  rules := [⟨⟨"e", [.var "A"]⟩, [⟨"f", [.var "A"]⟩]⟩]

theorem oneValued_oneUse : OneValued oneUse ⟨"e", [.var "Z"]⟩ := by
  rintro a ha ⟨θ, hθ⟩
  let t : Tm Leaf String Empty := .const (.const (.string "a"))
  have hproved : ProvedUnder oneUse (fun _ => t) 0 ⟨"e", [t]⟩ := by
    refine .rule (r := ⟨⟨"e", [.var "A"]⟩, [⟨"f", [.var "A"]⟩]⟩) List.mem_cons_self fun p hp => ?_
    obtain rfl := List.mem_singleton.mp hp
    exact .fact (f := ⟨"f", [.const (.string "a")]⟩) List.mem_cons_self
  suffices h : a = ⟨"e", [t]⟩ from ⟨fun _ => t, h.symm, h ▸ hproved⟩
  cases ha with
  | intro c mem η body =>
    rcases mem with ⟨f, hf, rfl⟩ | ⟨r, hr, rfl⟩
    · obtain rfl := List.mem_singleton.mp hf
      have hname : "e" = "f" := congrArg Atom.name hθ
      exact absurd hname (by decide)
    · obtain rfl := List.mem_singleton.mp hr
      -- the body is the fact
      have hbody : Least oneUse.program ⟨"f", [η "A"]⟩ := body _ List.mem_cons_self
      generalize hf : (⟨"f", [η "A"]⟩ : Atom String Leaf String Empty) = b at hbody
      cases hbody with
      | intro c mem η' body =>
        rcases mem with ⟨f, hmem, rfl⟩ | ⟨r, hr, rfl⟩
        · obtain rfl := List.mem_singleton.mp hmem
          have hargs : [η "A"] = [t] := congrArg Atom.args hf
          show (⟨"e", [η "A"]⟩ : Atom String Leaf String Empty) = _
          rw [hargs]
        · obtain rfl := List.mem_singleton.mp hr
          have hname : "f" = "e" := congrArg Atom.name hf
          exact absurd hname (by decide)

theorem query_complete_iff_rule :
    ∃ sols, InferenceEngine.query ⟨100, 100⟩ 1 oneUse ⟨"e", [.var "Z"]⟩ = some sols ∧
      FindsAll oneUse sols ⟨"e", [.var "Z"]⟩ := by
  have hrec : NonRecursive oneUse.program := by
    refine NonRecursive.of_measure (fun k => if k.1 = "e" then 1 else 0) ?_
    rintro c (⟨f, -, rfl⟩ | ⟨r, hr, rfl⟩) b hb
    · cases hb
    · obtain rfl := List.mem_singleton.mp hr
      obtain rfl := List.mem_singleton.mp hb
      decide
  have hlimit : mostAnswers 1 oneUse 101 0 ⟨"e", [.var "Z"]⟩ ∅ < 100 := by decide
  obtain ⟨sols, hquery, hall, -⟩ : ∃ sols, InferenceEngine.query ⟨100, 100⟩ 1 oneUse _ = some sols ∧
      _ ∧ _ :=
    query_complete_iff ⟨by decide, by decide, by decide⟩ hrec (by decide) (by decide) hlimit
  exact ⟨sols, hquery, hall oneValued_oneUse⟩

/-- `e(A) :- f(A)` and `top(X, Y) :- e(X), e(Y)`, with the facts `f("a")` and `f("b")`. -/
def twoUses : KnowledgeBase where
  facts := [⟨"f", [.const (.string "a")]⟩, ⟨"f", [.const (.string "b")]⟩]
  rules := [⟨⟨"e", [.var "A"]⟩, [⟨"f", [.var "A"]⟩]⟩,
    ⟨⟨"top", [.var "X", .var "Y"]⟩, [⟨"e", [.var "X"]⟩, ⟨"e", [.var "Y"]⟩]⟩]

/-- Both goals of the body are solved by the same rule, at the same depth, so that its variable has
one name and one value: `top("a", "b")` is in the least model, and no answer has it as an
instance. -/
theorem not_findsAll_twoUses :
    (twoUses.FunctionFree ∧ (∀ f ∈ twoUses.facts, f.isGround) ∧ NonRecursive twoUses.program ∧
      twoUses.rulePredicates.card ≤ 100 ∧
      mostAnswers 1 twoUses 101 0 ⟨"top", [.var "U", .var "V"]⟩ ∅ < 100) ∧
    ∃ sols, InferenceEngine.query ⟨100, 100⟩ 1 twoUses ⟨"top", [.var "U", .var "V"]⟩ = some sols ∧
      ¬ FindsAll twoUses sols ⟨"top", [.var "U", .var "V"]⟩ := by
  refine ⟨⟨⟨by decide, by decide, by decide⟩, by decide, ?_, by decide, by decide⟩, _, by rfl, ?_⟩
  · refine NonRecursive.of_measure
      (fun k => if k.1 = "top" then 2 else if k.1 = "e" then 1 else 0) ?_
    rintro c (⟨f, -, rfl⟩ | ⟨r, hr, rfl⟩) b hb
    · cases hb
    · have hmeasure : ∀ r ∈ twoUses.rules, ∀ p ∈ r.body,
          (if p.name = "top" then 2 else if p.name = "e" then 1 else 0) <
            (if r.head.name = "top" then 2 else if r.head.name = "e" then 1 else 0) := by
        decide
      obtain ⟨p, hp, rfl⟩ := List.mem_map.mp hb
      exact hmeasure r hr p hp
  · intro hall
    let a : Tm Leaf String Empty := .const (.const (.string "a"))
    let b : Tm Leaf String Empty := .const (.const (.string "b"))
    have hfacts : ∀ f ∈ twoUses.facts, Least twoUses.program (f.atom.subst fun _ => a) :=
      fun f hf => least_of_fact hf _
    have hrules : ∀ r ∈ twoUses.rules, ∀ θ, (∀ p ∈ r.body, Least twoUses.program (p.atom.subst θ)) →
        Least twoUses.program (r.head.atom.subst θ) := fun r hr θ => least_of_rule hr θ
    have he : ∀ t, Least twoUses.program ⟨"f", [t]⟩ → Least twoUses.program ⟨"e", [t]⟩ :=
      fun t ht => hrules _ List.mem_cons_self (fun _ => t) (List.forall_mem_singleton.mpr ht)
    have hea : Least twoUses.program ⟨"e", [a]⟩ := he a (hfacts _ List.mem_cons_self)
    have heb : Least twoUses.program ⟨"e", [b]⟩ :=
      he b (hfacts _ (List.mem_cons_of_mem _ List.mem_cons_self))
    have htop : Least twoUses.program ⟨"top", [a, b]⟩ :=
      hrules _ (List.mem_cons_of_mem _ List.mem_cons_self) (fun v => if v = "X" then a else b)
        (List.forall_mem_cons.mpr ⟨hea, List.forall_mem_singleton.mpr heb⟩)
    obtain ⟨s, hs, θ, hθ, heq⟩ := hall _ htop ⟨fun v => if v = "U" then a else b, rfl⟩
    have hargs : [θ "U", θ "V"] = [a, b] := congrArg Atom.args heq
    obtain ⟨hU, hV⟩ : θ "U" = a ∧ θ "V" = b := by simpa using hargs
    -- an answer binds both variables to the value of `A_1`
    have hsame : θ "U" = θ "V" := by
      rcases List.mem_cons.mp hs with rfl | hs
      · have h₁ : θ "U" = θ "X_0" := hθ "U" (.var "X_0") rfl
        have h₂ : θ "V" = θ "Y_0" := hθ "V" (.var "Y_0") rfl
        have h₃ : θ "X_0" = θ "A_1" := hθ "X_0" (.var "A_1") rfl
        have h₄ : θ "A_1" = a := hθ "A_1" (.const (.const (.string "a"))) rfl
        have h₅ : θ "Y_0" = a := hθ "Y_0" (.const (.const (.string "a"))) rfl
        rw [h₁, h₂, h₃, h₄, h₅]
      · obtain rfl := List.mem_singleton.mp hs
        have h₁ : θ "U" = θ "X_0" := hθ "U" (.var "X_0") rfl
        have h₂ : θ "V" = θ "Y_0" := hθ "V" (.var "Y_0") rfl
        have h₃ : θ "X_0" = θ "A_1" := hθ "X_0" (.var "A_1") rfl
        have h₄ : θ "A_1" = b := hθ "A_1" (.const (.const (.string "b"))) rfl
        have h₅ : θ "Y_0" = b := hθ "Y_0" (.const (.const (.string "b"))) rfl
        rw [h₁, h₂, h₃, h₄, h₅]
    rw [hU, hV] at hsame
    simp [a, b] at hsame

end Ipfrs.Tensorlogic
