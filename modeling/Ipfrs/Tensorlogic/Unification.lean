import Ipfrs.Tensorlogic.Reasoning

/-!
# Unification

A substitution is read as a store of bindings, and one call of `unify` does one of four things
(`UnifyCase`): the terms are the same leaf, one of them is a variable and gets bound, they are
applications whose arguments are to unify, or they clash.

Bindings are followed for one level before two terms are compared, so the variable that gets bound
may be bound already, and its old binding is overwritten. `Binds` are the bindings that a run comes
to make, and `Keeps` says of one that nothing is lost by it: it closes no cycle, and a term that it
overwrites is made equal to the new one by the new bindings.

* `unifyCase` — the four things that a call does;
* `unifyArgs_complete` — a failure is always right: a solution of the bindings and of the equations
  is never excluded, whatever is overwritten;
* `Unified.sound` — a run that keeps its bindings only adds to what they say, and the result makes
  the two sides equal.
-/

namespace Ipfrs.Tensorlogic

open Terms

/-- The bindings of a substitution. -/
def bindings (σ : Substitution) : Bindings Leaf String String :=
  fun x => (σ.lookup x).map Term.tm

variable {σ σ' : Substitution} {x v f : String} {t t1 t2 : Term} {D μ : Type} {as bs : List Term}
  {fuel : ℕ} {pairs rest : List (Term × Term)}

theorem bindings_eq_none : bindings σ x = none ↔ x ∉ σ := by
  rw [bindings, Option.map_eq_none_iff, Finmap.lookup_eq_none]

theorem isSome_bindings : (bindings σ x).isSome ↔ x ∈ σ := by
  rw [bindings, Option.isSome_map, Finmap.lookup_isSome]

theorem bindings_insert (σ : Substitution) (v : String) (t : Term) :
    bindings (σ.insert v t) = bind (bindings σ) v t.tm := by
  funext x
  by_cases h : x = v
  · subst h
    rw [bind_self, bindings, Finmap.lookup_insert]
    rfl
  · rw [bind_of_ne h, bindings, bindings, Finmap.lookup_insert_of_ne _ h]

/-- What holds of the entries of a map and of a new one holds of all when that is put in. -/
theorem forall_lookup_insert {β : Type} {m : Finmap fun _ : String => β} {P : String → β → Prop}
    {a : String} {b : β} (h : ∀ x y, m.lookup x = some y → P x y) (hab : P a b) :
    ∀ x y, (m.insert a b).lookup x = some y → P x y := by
  intro x y hy
  by_cases hx : x = a
  · subst hx
    rw [Finmap.lookup_insert] at hy
    obtain rfl := Option.some.inj hy
    exact hab
  · rw [Finmap.lookup_insert_of_ne _ hx] at hy
    exact h x y hy

theorem forall_bindings_insert {P : String → Tm Leaf String String → Prop}
    (h : ∀ x u, bindings σ x = some u → P x u) (ht : P v t.tm) :
    ∀ x u, bindings (σ.insert v t) x = some u → P x u := by
  intro x u hu
  obtain ⟨s, hs, rfl⟩ := Option.map_eq_some_iff.mp hu
  have hold : ∀ y s, σ.lookup y = some s → P y s.tm :=
    fun y s hs => h y s.tm (Option.map_eq_some_iff.mpr ⟨s, hs, rfl⟩)
  exact forall_lookup_insert (P := fun x s => P x s.tm) hold ht x s hs

theorem finite_bindings (σ : Substitution) : {x | (bindings σ x).isSome}.Finite := by
  refine (Finset.finite_toSet σ.keys).subset fun x hx => ?_
  exact Finset.mem_coe.mpr (Finmap.mem_keys.mpr (isSome_bindings.mp hx))

theorem bindings_empty : bindings ∅ = fun _ => none := by
  funext x
  exact bindings_eq_none.mpr (Finmap.notMem_empty)

theorem acyclic_empty : Acyclic (bindings ∅) := by
  have hedge : ∀ x y, ¬ Edge (bindings ∅) x y := by
    rintro x y ⟨t, ht, -⟩
    rw [bindings_empty] at ht
    cases ht
  intro x h
  obtain ⟨y, hy, -⟩ := Relation.TransGen.head'_iff.mp h
  exact hedge x y hy

theorem solves_empty (A : Algebra Leaf String D) (ρ : String → D) : Solves A ρ (bindings ∅) := by
  intro x t h
  rw [bindings_empty] at h
  cases h

/-! ### Following bindings -/

theorem applySubstTerms_eq (σ : Substitution) (ts : List Term) :
    applySubstTerms σ ts = ts.map (applySubstTerm σ) := by
  induction ts with
  | nil => rfl
  | cons t ts ih => rw [applySubstTerms, ih, List.map_cons]

theorem applySubstTerm_func (σ : Substitution) (f : String) (args : List Term) :
    applySubstTerm σ (.func f args) = .func f (args.map (applySubstTerm σ)) := by
  rw [applySubstTerm, applySubstTerms_eq]

theorem tm_applySubstTerm (σ : Substitution) (t : Term) :
    (applySubstTerm σ t).tm = step (bindings σ) t.tm := by
  induction t with
  | var v =>
    rw [applySubstTerm, Term.tm_var, step, subst_var, bindings]
    cases σ.lookup v <;> rfl
  | const c => rfl
  | func f args ih =>
    rw [applySubstTerm_func, Term.tm_func, Term.tm_func, step, subst_app, List.map_map,
      List.map_map]
    congr 1
    exact List.map_congr_left ih
  | ref r => rfl

theorem tm_iterate_applySubstTerm (σ : Substitution) (n : ℕ) (t : Term) :
    ((applySubstTerm σ)^[n] t).tm = (step (bindings σ))^[n] t.tm := by
  induction n generalizing t with
  | zero => rfl
  | succ n ih =>
    rw [Function.iterate_succ_apply, ih, tm_applySubstTerm, Function.iterate_succ_apply]

theorem applySubstTerm_of_unbound (h : ∀ x, Occurs x t.tm → x ∉ σ) : applySubstTerm σ t = t := by
  induction t with
  | var v => rw [applySubstTerm, Finmap.lookup_eq_none.mpr (h v .var), Option.getD_none]
  | const c => rfl
  | func f args ih =>
    rw [applySubstTerm_func]
    congr 1
    refine (List.map_congr_left fun t ht => ih t ht fun x hx => h x ?_).trans (List.map_id args)
    rw [Term.tm_func]
    exact .app (List.mem_map_of_mem ht) hx
  | ref r => rfl

theorem applySubstTerm_of_ground (h : t.isGround) : applySubstTerm σ t = t :=
  applySubstTerm_of_unbound fun x hx => absurd hx (Term.isGround_iff.mp h x)

theorem applySubstTerm_empty (t : Term) : applySubstTerm ∅ t = t :=
  applySubstTerm_of_unbound fun _ _ => Finmap.notMem_empty

theorem occursInAny_eq (v : String) (ts : List Term) :
    occursInAny v ts = ts.any (occursIn v) := by
  induction ts with
  | nil => rfl
  | cons t ts ih => rw [occursInAny, ih, List.any_cons]

theorem occursIn_iff : occursIn v t ↔ Occurs v t.tm := by
  induction t with
  | var w => simp [occursIn, eq_comm]
  | const c => simp [occursIn]
  | func f args ih =>
    rw [occursIn, occursInAny_eq, List.any_eq_true, Term.tm_func, occurs_app]
    constructor
    · rintro ⟨t, ht, hv⟩
      exact ⟨_, List.mem_map_of_mem ht, (ih t ht).mp hv⟩
    · rintro ⟨u, hu, hv⟩
      obtain ⟨t, ht, rfl⟩ := List.mem_map.mp hu
      exact ⟨t, ht, (ih t ht).mpr hv⟩
  | ref r => simp [occursIn]

/-! ### One call -/

/-- With these two terms, `unify` binds `v` to `t`. -/
def BindsNow (t1 t2 : Term) (σ : Substitution) (v : String) (t : Term) : Prop :=
  ((applySubstTerm σ t1 = .var v ∧ applySubstTerm σ t2 = t) ∨
    ((∀ w, applySubstTerm σ t1 ≠ .var w) ∧ applySubstTerm σ t2 = .var v ∧
      applySubstTerm σ t1 = t)) ∧
    ¬ occursIn v t

/-- What a call of `unify` does. -/
inductive UnifyCase (t1 t2 : Term) (σ : Substitution) : Prop where
  | same (same : (applySubstTerm σ t1).tm = (applySubstTerm σ t2).tm)
    (eq : ∀ fuel, unify (fuel + 1) t1 t2 σ = some (some σ))
  | bind (v : String) (t : Term) (now : BindsNow t1 t2 σ v t)
    (eq : ∀ fuel, unify (fuel + 1) t1 t2 σ = some (some (σ.insert v t)))
  | func (f : String) (as bs : List Term) (left : applySubstTerm σ t1 = .func f as)
    (right : applySubstTerm σ t2 = .func f bs) (length : as.length = bs.length)
    (eq : ∀ fuel, unify (fuel + 1) t1 t2 σ = unifyArgs (unify fuel) (as.zip bs) σ)
  | clash (ne : ∀ (μ : Type) (θ : String → Tm Leaf String μ),
      subst θ (applySubstTerm σ t1).tm ≠ subst θ (applySubstTerm σ t2).tm)
    (eq : ∀ fuel, unify (fuel + 1) t1 t2 σ = some none)

theorem unifyVar_of_not_var (σ : Substitution) (h : ∀ w, t ≠ .var w) :
    unifyVar v t σ = if occursIn v t then none else some (σ.insert v t) := by
  cases t with
  | var w => exact absurd rfl (h w)
  | const c => rfl
  | func f args => rfl
  | ref r => rfl

theorem unifyVar_of_occurs (hne : t ≠ .var v) (h : occursIn v t) : unifyVar v t σ = none := by
  have hvar : ∀ w, t ≠ .var w := by
    rintro w rfl
    have hw : w = v := by simpa [occursIn] using h
    exact hne (congrArg Term.var hw)
  rw [unifyVar_of_not_var σ hvar, if_pos h]

theorem unifyVar_of_not_occurs (h : ¬ occursIn v t) : unifyVar v t σ = some (σ.insert v t) := by
  by_cases hvar : ∀ w, t ≠ .var w
  · rw [unifyVar_of_not_var σ hvar, if_neg h]
  · obtain ⟨w, hw⟩ := not_forall_not.mp hvar
    subst hw
    exact if_neg fun e => h (by simp [occursIn, e])

theorem tm_eq_var_iff : t.tm = .var v ↔ t = .var v := by
  cases t <;> simp

theorem unifyCase_of_var (hside : (applySubstTerm σ t1 = .var v ∧ applySubstTerm σ t2 = t) ∨
      ((∀ w, applySubstTerm σ t1 ≠ .var w) ∧ applySubstTerm σ t2 = .var v ∧
        applySubstTerm σ t1 = t)) (heq : ∀ fuel, unify (fuel + 1) t1 t2 σ = some (unifyVar v t σ)) :
    UnifyCase t1 t2 σ := by
  by_cases hvar : t = .var v
  · subst hvar
    refine .same ?_ fun fuel => (heq fuel).trans (congrArg some (if_pos rfl))
    rcases hside with ⟨h1, h2⟩ | ⟨-, h1, h2⟩
    · rw [h1, h2]
    · rw [h1, h2]
  by_cases hocc : occursIn v t
  · refine .clash ?_ fun fuel => (heq fuel).trans (congrArg some (unifyVar_of_occurs hvar hocc))
    -- the occurs check
    intro μ θ
    have hclash : θ v ≠ subst θ t.tm :=
      not_eval_eq_of_occurs (occursIn_iff.mp hocc) (mt tm_eq_var_iff.mp hvar)
    rcases hside with ⟨h1, h2⟩ | ⟨-, h1, h2⟩
    · rw [h1, h2]
      exact hclash
    · rw [h1, h2]
      exact hclash.symm
  · exact .bind v t ⟨hside, hocc⟩ fun fuel =>
      (heq fuel).trans (congrArg some (unifyVar_of_not_occurs hocc))

/-- **A call of `unify` does one of four things.** -/
theorem unifyCase (t1 t2 : Term) (σ : Substitution) : UnifyCase t1 t2 σ := by
  cases h1 : applySubstTerm σ t1 with
  | var v =>
    refine unifyCase_of_var (Or.inl ⟨h1, rfl⟩) fun fuel => ?_
    rw [unify, h1]
    cases applySubstTerm σ t2 <;> rfl
  | const c1 =>
    cases h2 : applySubstTerm σ t2 with
    | var v =>
      refine unifyCase_of_var (Or.inr ⟨by simp [h1], h2, h1⟩) fun fuel => ?_
      rw [unify, h1, h2]
      rfl
    | const c2 =>
      by_cases hc : c1 = c2
      · refine .same (by rw [h1, h2, hc]) fun fuel => ?_
        rw [unify, h1, h2]
        exact congrArg some (if_pos hc)
      · refine .clash (by simp [h1, h2, hc]) fun fuel => ?_
        rw [unify, h1, h2]
        exact congrArg some (if_neg hc)
    | func f2 args2 => exact .clash (by simp [h1, h2]) fun fuel => by rw [unify, h1, h2]; rfl
    | ref r2 => exact .clash (by simp [h1, h2]) fun fuel => by rw [unify, h1, h2]; rfl
  | func f1 args1 =>
    cases h2 : applySubstTerm σ t2 with
    | var v =>
      refine unifyCase_of_var (Or.inr ⟨by simp [h1], h2, h1⟩) fun fuel => ?_
      rw [unify, h1, h2]
      rfl
    | const c2 => exact .clash (by simp [h1, h2]) fun fuel => by rw [unify, h1, h2]; rfl
    | func f2 args2 =>
      -- functions with the same name and arity unify by their arguments
      by_cases hf : f1 = f2 ∧ args1.length = args2.length
      · obtain ⟨rfl, hlength⟩ := hf
        refine .func f1 args1 args2 h1 h2 hlength fun fuel => ?_
        rw [unify, h1, h2]
        exact if_pos ⟨rfl, hlength⟩
      · refine .clash (fun μ θ heq => hf ?_) fun fuel => ?_
        · rw [h1, h2, Term.tm_func, Term.tm_func, subst_app, subst_app] at heq
          injection heq with hname hargs
          exact ⟨hname, by simpa using congrArg List.length hargs⟩
        · rw [unify, h1, h2]
          exact if_neg hf
    | ref r2 => exact .clash (by simp [h1, h2]) fun fuel => by rw [unify, h1, h2]; rfl
  | ref r1 =>
    cases h2 : applySubstTerm σ t2 with
    | var v =>
      refine unifyCase_of_var (Or.inr ⟨by simp [h1], h2, h1⟩) fun fuel => ?_
      rw [unify, h1, h2]
      rfl
    | const c2 => exact .clash (by simp [h1, h2]) fun fuel => by rw [unify, h1, h2]; rfl
    | func f2 args2 => exact .clash (by simp [h1, h2]) fun fuel => by rw [unify, h1, h2]; rfl
    | ref r2 =>
      -- only the CIDs of references are compared
      by_cases hr : r1.cid = r2.cid
      · refine .same (by rw [h1, h2, Term.tm_ref, Term.tm_ref, hr]) fun fuel => ?_
        rw [unify, h1, h2]
        exact congrArg some (if_pos hr)
      · refine .clash (by simp [h1, h2, hr]) fun fuel => ?_
        rw [unify, h1, h2]
        exact congrArg some (if_neg hr)

/-! ### A failure is right -/

/-- A solution of the bindings and of an equation solves what `unify` makes of them. -/
theorem solves_insert {A : Algebra Leaf String D} {ρ : String → D}
    (hsolves : Solves A ρ (bindings σ)) (heq : eval A ρ t1.tm = eval A ρ t2.tm)
    (hnow : BindsNow t1 t2 σ v t) : Solves A ρ (bindings (σ.insert v t)) := by
  rw [bindings_insert]
  apply hsolves.bind
  rw [← hsolves.eval_step, ← hsolves.eval_step t2.tm, ← tm_applySubstTerm, ← tm_applySubstTerm]
    at heq
  rcases hnow.1 with ⟨h1, h2⟩ | ⟨-, h1, h2⟩
  · rw [h1, h2] at heq
    exact heq
  · rw [h1, h2] at heq
    exact heq.symm

/-- The pairs of arguments have equal values if the applications do. -/
theorem eval_zip {θ : String → Tm Leaf String μ}
    (heq : subst θ (Term.func f as).tm = subst θ (Term.func f bs).tm) :
    ∀ p ∈ as.zip bs, subst θ p.1.tm = subst θ p.2.tm := by
  rw [Term.tm_func, Term.tm_func, subst_app, subst_app] at heq
  injection heq with _ hargs
  intro p hp
  obtain ⟨i, hi, rfl⟩ := List.mem_iff_getElem.mp hp
  rw [List.length_zip, lt_min_iff] at hi
  have hget := congrArg (fun l => l[i]?) hargs
  simpa [hi.1, hi.2] using hget

/-- **A failure is right**: a solution of the bindings and of the equations is a solution of the
result, and there is a result. -/
theorem unifyArgs_complete {θ : String → Tm Leaf String μ} {r : Option Substitution}
    (hsolves : Solves (free Leaf String μ) θ (bindings σ))
    (heq : ∀ p ∈ pairs, subst θ p.1.tm = subst θ p.2.tm)
    (h : unifyArgs (unify fuel) pairs σ = some r) :
    ∃ σ', r = some σ' ∧ Solves (free Leaf String μ) θ (bindings σ') := by
  induction fuel generalizing pairs σ r with
  | zero =>
    cases pairs with
    | nil => exact ⟨σ, (Option.some.inj h).symm, hsolves⟩
    | cons p rest => cases h
  | succ fuel ihfuel =>
    induction pairs generalizing σ with
    | nil => exact ⟨σ, (Option.some.inj h).symm, hsolves⟩
    | cons p rest ih =>
      obtain ⟨t1, t2⟩ := p
      have hhead : subst θ t1.tm = subst θ t2.tm := heq _ List.mem_cons_self
      have hfollow : ∀ t : Term, subst θ (applySubstTerm σ t).tm = subst θ t.tm := fun t => by
        rw [tm_applySubstTerm]
        exact hsolves.eval_step t.tm
      -- it is enough that the first equation does not fail
      suffices hfirst : ∀ r₁, unify (fuel + 1) t1 t2 σ = some r₁ →
          ∃ σ₁, r₁ = some σ₁ ∧ Solves (free Leaf String μ) θ (bindings σ₁) by
        rw [unifyArgs, Option.bind_eq_bind, Option.bind_eq_some_iff] at h
        obtain ⟨r₁, h₁, h⟩ := h
        obtain ⟨σ₁, rfl, hσ₁⟩ := hfirst r₁ h₁
        exact ih hσ₁ (fun p hp => heq p (List.mem_cons_of_mem _ hp)) h
      intro r₁ h₁
      cases unifyCase t1 t2 σ with
      | same _ eq =>
        rw [eq] at h₁
        exact ⟨σ, (Option.some.inj h₁).symm, hsolves⟩
      | bind v t now eq =>
        rw [eq] at h₁
        exact ⟨_, (Option.some.inj h₁).symm, solves_insert hsolves hhead now⟩
      | func f as bs left right _ eq =>
        rw [eq] at h₁
        rw [← hfollow, ← hfollow t2, left, right] at hhead
        exact ihfuel hsolves (eval_zip hhead) h₁
      | clash ne eq => exact absurd ((hfollow t1).trans (hhead.trans (hfollow t2).symm)) (ne μ θ)

/-! ### The bindings that a run makes -/

/-- The run on these pairs comes to bind `v` to `t`, when its substitution is the last one. -/
inductive Binds : List (Term × Term) → Substitution → String → Term → Substitution → Prop where
  | now {t1 t2 : Term} {rest : List (Term × Term)} {σ : Substitution} {v : String} {t : Term}
    (now : BindsNow t1 t2 σ v t) : Binds ((t1, t2) :: rest) σ v t σ
  | args {t1 t2 : Term} {rest : List (Term × Term)} {σ σ' : Substitution} {v : String} {t : Term}
    {f : String} {as bs : List Term} (left : applySubstTerm σ t1 = .func f as)
    (right : applySubstTerm σ t2 = .func f bs) (length : as.length = bs.length)
    (binds : Binds (as.zip bs) σ v t σ') : Binds ((t1, t2) :: rest) σ v t σ'
  | later {t1 t2 : Term} {rest : List (Term × Term)} {σ σ₁ σ' : Substitution} {v : String}
    {t : Term} {fuel : ℕ} (first : unify fuel t1 t2 σ = some (some σ₁))
    (binds : Binds rest σ₁ v t σ') : Binds ((t1, t2) :: rest) σ v t σ'

/-- Binding `v` to `t` loses nothing: it closes no cycle, and if `v` was bound already, following
the new bindings makes the old term equal to the new one. -/
def Keeps (v : String) (t : Term) (σ : Substitution) : Prop :=
  Acyclic (bindings (σ.insert v t)) ∧
    ∀ old, σ.lookup v = some old → ∃ n,
      ((applySubstTerm (σ.insert v t))^[n] old).tm = ((applySubstTerm (σ.insert v t))^[n] t).tm

/-- Every binding that the run makes loses nothing. -/
def Kept (pairs : List (Term × Term)) (σ : Substitution) : Prop :=
  ∀ v t σ', Binds pairs σ v t σ' → Keeps v t σ'

theorem Kept.args (h : Kept ((t1, t2) :: rest) σ) (left : applySubstTerm σ t1 = .func f as)
    (right : applySubstTerm σ t2 = .func f bs) (length : as.length = bs.length) :
    Kept (as.zip bs) σ :=
  fun v t σ' hbinds => h v t σ' (.args left right length hbinds)

theorem Kept.later {σ₁ : Substitution} (h : Kept ((t1, t2) :: rest) σ)
    (first : unify fuel t1 t2 σ = some (some σ₁)) : Kept rest σ₁ :=
  fun v t σ' hbinds => h v t σ' (.later first hbinds)

/-- Nothing is lost when an unbound variable is bound to a term over other unbound variables. -/
theorem keeps_of_unbound (hacyclic : Acyclic (bindings σ)) (hv : v ∉ σ)
    (ht : ∀ y, Occurs y t.tm → y ≠ v ∧ y ∉ σ) : Keeps v t σ := by
  constructor
  · rw [bindings_insert]
    apply hacyclic.bind (bindings_eq_none.mpr hv)
    intro y hy hpath
    obtain ⟨hne, hunbound⟩ := ht y hy
    rcases hpath.cases_head with rfl | ⟨w, ⟨u, hu, -⟩, -⟩
    · exact hne rfl
    · rw [bindings_eq_none.mpr hunbound] at hu
      cases hu
  · intro old hold
    rw [Finmap.lookup_eq_none.mpr hv] at hold
    cases hold

theorem keeps_of_ground (hacyclic : Acyclic (bindings σ)) (hv : v ∉ σ) (ht : t.isGround) :
    Keeps v t σ :=
  keeps_of_unbound hacyclic hv fun y hy => absurd hy (Term.isGround_iff.mp ht y)

/-- A pair that is no pair of applications makes at most the one binding. -/
theorem kept_singleton (hflat : ∀ f as, applySubstTerm σ t1 ≠ .func f as)
    (h : ∀ v t, BindsNow t1 t2 σ v t → Keeps v t σ) : Kept [(t1, t2)] σ := by
  intro v t σ' hbinds
  cases hbinds with
  | now now => exact h v t now
  | args left => exact absurd left (hflat _ _)
  | later _ binds => cases binds

/-- `σ'` binds what `σ` binds, and says no less. -/
structure Extends (σ σ' : Substitution) : Prop where
  mem : ∀ x, x ∈ σ → x ∈ σ'
  solves : ∀ (D : Type) (A : Algebra Leaf String D) (ρ : String → D),
    Solves A ρ (bindings σ') → Solves A ρ (bindings σ)

theorem Extends.refl (σ : Substitution) : Extends σ σ := ⟨fun _ h => h, fun _ _ _ h => h⟩

theorem Extends.trans {σ'' : Substitution} (h : Extends σ σ') (h' : Extends σ' σ'') :
    Extends σ σ'' :=
  ⟨fun x hx => h'.mem x (h.mem x hx), fun D A ρ hρ => h.solves D A ρ (h'.solves D A ρ hρ)⟩

theorem Keeps.extends (h : Keeps v t σ) :
    Extends σ (σ.insert v t) where
  mem x hx := Finmap.mem_insert.mpr (Or.inr hx)
  solves D A ρ hρ := by
    have hbind := hρ
    rw [bindings_insert] at hbind
    refine hbind.of_bind fun u hu => ?_
    rw [bindings, Option.map_eq_some_iff] at hu
    obtain ⟨old, hold, rfl⟩ := hu
    obtain ⟨n, hn⟩ := h.2 old hold
    -- both the old and the new term have the value of what they come to
    calc ρ v = eval A ρ t.tm := hbind v t.tm bind_self
      _ = eval A ρ ((applySubstTerm (σ.insert v t))^[n] t).tm := by
          rw [tm_iterate_applySubstTerm, hρ.eval_iterate_step]
      _ = eval A ρ old.tm := by
          rw [← hn, tm_iterate_applySubstTerm, hρ.eval_iterate_step]

theorem eval_eq_of_bindsNow {A : Algebra Leaf String D} {ρ : String → D}
    (hnow : BindsNow t1 t2 σ v t) (hsolves : Solves A ρ (bindings σ))
    (hρ : Solves A ρ (bindings (σ.insert v t))) : eval A ρ t1.tm = eval A ρ t2.tm := by
  have hv : ρ v = eval A ρ t.tm := by
    rw [bindings_insert] at hρ
    exact hρ v t.tm bind_self
  rw [← hsolves.eval_step, ← hsolves.eval_step t2.tm, ← tm_applySubstTerm, ← tm_applySubstTerm]
  rcases hnow.1 with ⟨h1, h2⟩ | ⟨-, h1, h2⟩
  · rw [h1, h2]
    exact hv
  · rw [h1, h2]
    exact hv.symm

/-- Two lists of one length have the same image if the pairs of their members do. -/
theorem map_eq_map_of_zip {α β : Type*} {g : α → β} {as bs : List α}
    (hlength : as.length = bs.length) (h : ∀ p ∈ as.zip bs, g p.1 = g p.2) :
    as.map g = bs.map g := by
  refine List.ext_getElem (by simpa using hlength) fun i h₁ h₂ => ?_
  rw [List.length_map] at h₁ h₂
  rw [List.getElem_map, List.getElem_map]
  exact h (as[i], bs[i]) (List.mem_iff_getElem.mpr ⟨i, by simp [h₁, h₂], List.getElem_zip⟩)

/-- Applications have equal values if the pairs of arguments do. -/
theorem eval_func_of_zip {A : Algebra Leaf String D} {ρ : String → D}
    (hlength : as.length = bs.length) (h : ∀ p ∈ as.zip bs, eval A ρ p.1.tm = eval A ρ p.2.tm) :
    eval A ρ (Term.func f as).tm = eval A ρ (Term.func f bs).tm := by
  rw [Term.tm_func, Term.tm_func, eval_app, eval_app, List.map_map, List.map_map]
  congr 1
  exact map_eq_map_of_zip hlength h

/-- The steps of a run that succeeds. -/
inductive Unified : List (Term × Term) → Substitution → Substitution → Prop where
  | nil (σ : Substitution) : Unified [] σ σ
  | same {t1 t2 : Term} {rest : List (Term × Term)} {σ σ' : Substitution} {fuel : ℕ}
    (first : unify fuel t1 t2 σ = some (some σ))
    (same : (applySubstTerm σ t1).tm = (applySubstTerm σ t2).tm) (tail : Unified rest σ σ') :
    Unified ((t1, t2) :: rest) σ σ'
  | bind {t1 t2 : Term} {rest : List (Term × Term)} {σ σ' : Substitution} {v : String} {t : Term}
    {fuel : ℕ} (first : unify fuel t1 t2 σ = some (some (σ.insert v t)))
    (now : BindsNow t1 t2 σ v t) (tail : Unified rest (σ.insert v t) σ') :
    Unified ((t1, t2) :: rest) σ σ'
  | func {t1 t2 : Term} {rest : List (Term × Term)} {σ σ₁ σ' : Substitution} {f : String}
    {as bs : List Term} {fuel : ℕ} (first : unify fuel t1 t2 σ = some (some σ₁))
    (left : applySubstTerm σ t1 = .func f as) (right : applySubstTerm σ t2 = .func f bs)
    (length : as.length = bs.length) (args : Unified (as.zip bs) σ σ₁) (tail : Unified rest σ₁ σ') :
    Unified ((t1, t2) :: rest) σ σ'

theorem unified_of_eq (h : unifyArgs (unify fuel) pairs σ = some (some σ')) :
    Unified pairs σ σ' := by
  induction fuel generalizing pairs σ σ' with
  | zero =>
    cases pairs with
    | nil =>
      obtain rfl := Option.some.inj (Option.some.inj h)
      exact .nil σ
    | cons p rest => cases h
  | succ fuel ihfuel =>
    induction pairs generalizing σ with
    | nil =>
      obtain rfl := Option.some.inj (Option.some.inj h)
      exact .nil σ
    | cons p rest ih =>
      obtain ⟨t1, t2⟩ := p
      rw [unifyArgs, Option.bind_eq_bind, Option.bind_eq_some_iff] at h
      obtain ⟨r, first, h⟩ := h
      cases r with
      | none => cases h
      | some σ₁ =>
        -- the inner induction is on the pairs, the outer one on the levels of a term
        have tail : Unified rest σ₁ σ' := ih h
        cases unifyCase t1 t2 σ with
        | same same eq =>
          obtain rfl := Option.some.inj (Option.some.inj ((eq fuel).symm.trans first))
          exact .same first same tail
        | bind v t now eq =>
          obtain rfl := Option.some.inj (Option.some.inj ((eq fuel).symm.trans first))
          exact .bind first now tail
        | func f as bs left right length eq =>
          exact .func first left right length (ihfuel ((eq fuel).symm.trans first)) tail
        | clash _ eq => cases Option.some.inj ((eq fuel).symm.trans first)

/-- **A run that keeps its bindings** only adds to what they say, stays free of cycles, and its
result makes the two sides of every pair equal. -/
theorem Unified.sound (h : Unified pairs σ σ') (hkept : Kept pairs σ)
    (hacyclic : Acyclic (bindings σ)) :
    Acyclic (bindings σ') ∧ Extends σ σ' ∧
      ∀ (D : Type) (A : Algebra Leaf String D) (ρ : String → D), Solves A ρ (bindings σ') →
        ∀ p ∈ pairs, eval A ρ p.1.tm = eval A ρ p.2.tm := by
  induction h with
  | nil σ => exact ⟨hacyclic, .refl _, fun _ _ _ _ p hp => absurd hp List.not_mem_nil⟩
  | same first same _ ih =>
    obtain ⟨hacyclic', hext, heq⟩ := ih (hkept.later first) hacyclic
    refine ⟨hacyclic', hext, fun D A ρ hρ => List.forall_mem_cons.mpr ⟨?_, heq D A ρ hρ⟩⟩
    have hσ := hext.solves D A ρ hρ
    rw [tm_applySubstTerm, tm_applySubstTerm] at same
    rw [← hσ.eval_step, same, hσ.eval_step]
  | bind first now _ ih =>
    have hkeeps := hkept _ _ _ (.now now)
    obtain ⟨hacyclic', hext, heq⟩ := ih (hkept.later first) hkeeps.1
    refine ⟨hacyclic', hkeeps.extends.trans hext, fun D A ρ hρ =>
      List.forall_mem_cons.mpr ⟨?_, heq D A ρ hρ⟩⟩
    -- a solution of the last bindings is one of those before
    have hbind := hext.solves D A ρ hρ
    exact eval_eq_of_bindsNow now (hkeeps.extends.solves D A ρ hbind) hbind
  | func first left right length _ _ ihargs ihtail =>
    obtain ⟨hacyclic₁, hext₁, heq₁⟩ := ihargs (hkept.args left right length) hacyclic
    obtain ⟨hacyclic', hext', heq'⟩ := ihtail (hkept.later first) hacyclic₁
    refine ⟨hacyclic', hext₁.trans hext', fun D A ρ hρ =>
      List.forall_mem_cons.mpr ⟨?_, heq' D A ρ hρ⟩⟩
    -- the arguments are equal in every solution, so the terms are
    have hρ₁ := hext'.solves D A ρ hρ
    have hσ := hext₁.solves D A ρ hρ₁
    rw [← hσ.eval_step, ← hσ.eval_step (Term.tm _), ← tm_applySubstTerm, ← tm_applySubstTerm, left,
      right]
    exact eval_func_of_zip length (heq₁ D A ρ hρ₁)

end Ipfrs.Tensorlogic
