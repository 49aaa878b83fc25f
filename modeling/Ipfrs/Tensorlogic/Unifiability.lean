import Ipfrs.Tensorlogic.Unification

/-!
# Unification decides unifiability

A run that keeps its bindings comes to an end: with every call either a variable is bound that was
not, or the term on the left comes to something smaller when all bindings are followed. Its result
makes both sides equal, and a failure is always right, so from the empty substitution such a run
tells whether there is a unifier.

* `exists_unify_eq` — a run that keeps its bindings comes to an end;
* `exists_iterate_applySubstTerm` — bindings without a cycle can be applied until nothing changes;
* `unify_iff_unifiable` — unification decides unifiability;
* `unifyPredicates_overwritten` — a run that does not keep its bindings finds what is no unifier.
-/

namespace Ipfrs.Tensorlogic

open Terms

/-! ### Termination -/

variable {σ : Substitution} {r : Option Substitution} {t1 t2 : Term} {p q : Predicate}

theorem unifyArgs_mono {u u' : Term → Term → Substitution → Option (Option Substitution)}
    (hu : ∀ t1 t2 σ r, u t1 t2 σ = some r → u' t1 t2 σ = some r) {pairs : List (Term × Term)}
    (h : unifyArgs u pairs σ = some r) : unifyArgs u' pairs σ = some r := by
  induction pairs generalizing σ with
  | nil => exact h
  | cons p rest ih =>
    rw [unifyArgs, Option.bind_eq_bind, Option.bind_eq_some_iff] at h ⊢
    obtain ⟨r₁, h₁, h⟩ := h
    refine ⟨r₁, hu _ _ _ _ h₁, ?_⟩
    cases r₁ with
    | none => exact h
    | some σ₁ => exact ih h

theorem unify_mono {fuel fuel' : ℕ} (hle : fuel ≤ fuel') (h : unify fuel t1 t2 σ = some r) :
    unify fuel' t1 t2 σ = some r := by
  induction fuel generalizing fuel' t1 t2 σ r with
  | zero => cases h
  | succ fuel ih =>
    obtain ⟨fuel', rfl⟩ : ∃ n, fuel' = n + 1 := ⟨fuel' - 1, by omega⟩
    cases unifyCase t1 t2 σ with
    | same _ eq => rw [eq] at h ⊢; exact h
    | bind _ _ _ eq => rw [eq] at h ⊢; exact h
    | func _ _ _ _ _ _ eq =>
      rw [eq] at h ⊢
      exact unifyArgs_mono (fun _ _ _ _ => ih (Nat.le_of_succ_le_succ hle)) h
    | clash _ eq => rw [eq] at h ⊢; exact h

/-- What the bindings give for a variable in the end. -/
noncomputable def settled {σ : Substitution} (h : Acyclic (bindings σ)) :
    String → Tm Leaf String String :=
  resolved (h.wellFounded (finite_bindings σ))

theorem solves_settled (h : Acyclic (bindings σ)) :
    Solves (free Leaf String String) (settled h) (bindings σ) :=
  solves_close (h.wellFounded (finite_bindings σ)) _ _

/-- Bindings that say no less about the same variables come to the same terms. -/
theorem Extends.settled_eq {σ' : Substitution} (hext : Extends σ σ') (hmem : ∀ x, x ∈ σ' → x ∈ σ)
    (h : Acyclic (bindings σ)) (h' : Acyclic (bindings σ')) : settled h' = settled h := by
  refine eq_close (h.wellFounded (finite_bindings σ)) _ _
    (hext.solves _ _ _ (solves_settled h')) fun x hx => ?_
  refine close_of_unbound (h'.wellFounded (finite_bindings σ')) _ _ (bindings_eq_none.mpr ?_)
  exact mt (hmem x) (bindings_eq_none.mp hx)

section Termination

variable (W : Set String)

/-- Variables are bound to terms over `W`. -/
def ValuesWithin (σ : Substitution) : Prop :=
  ∀ x u, bindings σ x = some u → ∀ y, Occurs y u → y ∈ W

/-- Only variables of `W` are bound, and to terms over `W`. -/
def Within (σ : Substitution) : Prop :=
  ∀ x u, bindings σ x = some u → x ∈ W ∧ ∀ y, Occurs y u → y ∈ W

/-- The pairs are over the variables of `W`. -/
def PairsWithin (pairs : List (Term × Term)) : Prop :=
  ∀ p ∈ pairs, ∀ x, (Occurs x p.1.tm ∨ Occurs x p.2.tm) → x ∈ W

variable {W}
variable {σ σ' : Substitution} {t t1 t2 : Term} {f : String} {as : List Term}
  {pairs : List (Term × Term)}

theorem Within.values (hσ : Within W σ) : ValuesWithin W σ :=
  fun x u hx => (hσ x u hx).2

theorem ValuesWithin.of_occurs_apply (hσ : ValuesWithin W σ) (ht : ∀ x, Occurs x t.tm → x ∈ W)
    {y : String} (hy : Occurs y (applySubstTerm σ t).tm) : y ∈ W := by
  rw [tm_applySubstTerm, step, occurs_subst] at hy
  obtain ⟨x, hx, hy⟩ := hy
  cases hb : bindings σ x with
  | none =>
    rw [hb, Option.getD_none, occurs_var] at hy
    rw [hy]
    exact ht x hx
  | some u =>
    rw [hb, Option.getD_some] at hy
    exact hσ x u hb y hy

theorem Within.insert (hσ : Within W σ) {v : String}
    (ht : ∀ x, (Occurs x t1.tm ∨ Occurs x t2.tm) → x ∈ W) (hnow : BindsNow t1 t2 σ v t) :
    Within W (σ.insert v t) := by
  have h1 : ∀ y, Occurs y (applySubstTerm σ t1).tm → y ∈ W :=
    fun y => hσ.values.of_occurs_apply fun x hx => ht x (Or.inl hx)
  have h2 : ∀ y, Occurs y (applySubstTerm σ t2).tm → y ∈ W :=
    fun y => hσ.values.of_occurs_apply fun x hx => ht x (Or.inr hx)
  have hv : v ∈ W ∧ ∀ y, Occurs y t.tm → y ∈ W := by
    rcases hnow.1 with ⟨e1, e2⟩ | ⟨-, e1, e2⟩
    · rw [e1] at h1
      rw [e2] at h2
      exact ⟨h1 v .var, h2⟩
    · rw [e2] at h1
      rw [e1] at h2
      exact ⟨h2 v .var, h1⟩
  exact forall_bindings_insert hσ hv

theorem PairsWithin.zip (hσ : Within W σ) {bs : List Term}
    (ht : ∀ x, (Occurs x t1.tm ∨ Occurs x t2.tm) → x ∈ W) (left : applySubstTerm σ t1 = .func f as)
    (right : applySubstTerm σ t2 = .func f bs) : PairsWithin W (as.zip bs) := by
  have harg : ∀ {ts : List Term} {t u : Term}, applySubstTerm σ t = .func f ts → u ∈ ts →
      (∀ x, Occurs x t.tm → x ∈ W) → ∀ x, Occurs x u.tm → x ∈ W := by
    intro ts t u happly hu hvars x hx
    refine hσ.values.of_occurs_apply hvars ?_
    rw [happly, Term.tm_func]
    exact .app (List.mem_map_of_mem hu) hx
  rintro ⟨a, b⟩ hp x (hx | hx)
  · exact harg left (List.of_mem_zip hp).1 (fun y hy => ht y (Or.inl hy)) x hx
  · exact harg right (List.of_mem_zip hp).2 (fun y hy => ht y (Or.inr hy)) x hx

theorem Unified.within (h : Unified pairs σ σ') (hpairs : PairsWithin W pairs) (hσ : Within W σ) :
    Within W σ' := by
  induction h with
  | nil σ => exact hσ
  | same _ _ _ ih => exact ih (fun p hp => hpairs p (List.mem_cons_of_mem _ hp)) hσ
  | bind _ now _ ih =>
    refine ih (fun p hp => hpairs p (List.mem_cons_of_mem _ hp)) ?_
    exact hσ.insert (hpairs _ List.mem_cons_self) now
  | func _ left right _ _ _ ihargs ihtail =>
    refine ihtail (fun p hp => hpairs p (List.mem_cons_of_mem _ hp)) ?_
    exact ihargs (.zip hσ (hpairs _ List.mem_cons_self) left right) hσ

variable {V : Finset String}

variable (V) in
/-- What gets smaller: first the variables that are left to bind, then what the term comes to. -/
noncomputable def rank {σ : Substitution} (h : Acyclic (bindings σ)) (t : Term) : ℕ ×ₗ ℕ :=
  toLex ((V.filter (· ∉ σ)).card, size (subst (settled h) t.tm))

theorem Extends.rank_le (hext : Extends σ σ') (hσ' : Within ↑V σ') (h : Acyclic (bindings σ))
    (h' : Acyclic (bindings σ')) (t : Term) : rank V h' t ≤ rank V h t := by
  have hsub : V.filter (· ∉ σ') ⊆ V.filter (· ∉ σ) :=
    Finset.monotone_filter_right V fun x _ hx => mt (hext.mem x) hx
  rcases (Finset.card_le_card hsub).lt_or_eq with hlt | heq
  · exact (Prod.Lex.toLex_lt_toLex.mpr (Or.inl hlt)).le
  · -- nothing more is bound, so everything comes to the same terms
    have hmem : ∀ x, x ∈ σ' → x ∈ σ := by
      intro x hx
      obtain ⟨u, hu⟩ := Option.isSome_iff_exists.mp (isSome_bindings.mpr hx)
      by_contra hxσ
      have hfilter : x ∈ V.filter (· ∉ σ) := Finset.mem_filter.mpr ⟨(hσ' x u hu).1, hxσ⟩
      rw [← Finset.eq_of_subset_of_card_le hsub heq.ge] at hfilter
      exact (Finset.mem_filter.mp hfilter).2 hx
    rw [rank, rank, heq, hext.settled_eq hmem h h']

theorem rank_arg_lt (h : Acyclic (bindings σ)) {a : Term} (happly : applySubstTerm σ t = .func f as)
    (ha : a ∈ as) : rank V h a < rank V h t := by
  refine Prod.Lex.toLex_lt_toLex.mpr (Or.inr ⟨rfl, ?_⟩)
  have hfollow : subst (settled h) (applySubstTerm σ t).tm = subst (settled h) t.tm := by
    rw [tm_applySubstTerm]
    exact (solves_settled h).eval_step t.tm
  show size (subst (settled h) a.tm) < size (subst (settled h) t.tm)
  rw [← hfollow, happly, Term.tm_func, subst_app]
  exact size_lt_of_mem (List.mem_map_of_mem (List.mem_map_of_mem ha))

/-- The arguments come to an end if every call on smaller terms does. -/
theorem exists_unifyArgs_eq {m : ℕ ×ₗ ℕ}
    (hm : ∀ (σ : Substitution) (h : Acyclic (bindings σ)) (t1 t2 : Term), rank V h t1 < m →
      Kept [(t1, t2)] σ → Within ↑V σ → PairsWithin ↑V [(t1, t2)] →
      ∃ fuel r, unify fuel t1 t2 σ = some r) (h : Acyclic (bindings σ))
    (hlt : ∀ p ∈ pairs, rank V h p.1 < m) (hkept : Kept pairs σ) (hσ : Within ↑V σ)
    (hpairs : PairsWithin ↑V pairs) : ∃ fuel r, unifyArgs (unify fuel) pairs σ = some r := by
  induction pairs generalizing σ with
  | nil => exact ⟨0, some σ, rfl⟩
  | cons p rest ih =>
    obtain ⟨t1, t2⟩ := p
    -- what the pairs bind, the first one binds
    have hkept₁ : Kept [(t1, t2)] σ := by
      intro v t σ' hbinds
      refine hkept v t σ' ?_
      cases hbinds with
      | now now => exact .now now
      | args left right length binds => exact .args left right length binds
      | later _ binds => cases binds
    have hpair : PairsWithin ↑V [(t1, t2)] := by
      intro p hp
      exact hpairs p (List.mem_cons.mpr (Or.inl (List.mem_singleton.mp hp)))
    obtain ⟨fuel₁, r, hr⟩ := hm σ h t1 t2 (hlt _ List.mem_cons_self) hkept₁ hσ hpair
    cases r with
    | none =>
      refine ⟨fuel₁, none, ?_⟩
      rw [unifyArgs, hr]
      rfl
    | some σ₁ =>
      -- the first pair keeps the bindings acyclic and does not raise the ranks of the others
      have hunified : Unified [(t1, t2)] σ σ₁ := by
        have hrun : unifyArgs (unify fuel₁) [(t1, t2)] σ = some (some σ₁) := by
          rw [unifyArgs, hr]
          rfl
        exact unified_of_eq hrun
      obtain ⟨h₁, hext, -⟩ := hunified.sound hkept₁ h
      have hσ₁ : Within ↑V σ₁ := hunified.within hpair hσ
      obtain ⟨fuel₂, r, hr₂⟩ := ih h₁
        (fun p hp => (hext.rank_le hσ₁ h h₁ p.1).trans_lt (hlt p (List.mem_cons_of_mem _ hp)))
        (hkept.later hr) hσ₁ fun p hp => hpairs p (List.mem_cons_of_mem _ hp)
      refine ⟨max fuel₁ fuel₂, r, ?_⟩
      rw [unifyArgs, unify_mono (le_max_left _ _) hr]
      exact unifyArgs_mono (fun _ _ _ _ => unify_mono (le_max_right _ _)) hr₂

/-- **A run that keeps its bindings comes to an end.** -/
theorem exists_unify_eq (h : Acyclic (bindings σ)) (hkept : Kept [(t1, t2)] σ) (hσ : Within ↑V σ)
    (hpairs : PairsWithin ↑V [(t1, t2)]) : ∃ fuel r, unify fuel t1 t2 σ = some r := by
  induction hm : rank V h t1 using WellFoundedLT.induction generalizing σ t1 t2 with
  | ind m ih =>
    cases unifyCase t1 t2 σ with
    | same _ eq => exact ⟨1, _, eq 0⟩
    | bind _ _ _ eq => exact ⟨1, _, eq 0⟩
    | func f as bs left right length eq =>
      obtain ⟨fuel, r, hr⟩ := exists_unifyArgs_eq
        (fun σ h t1 t2 hlt hkept hσ hpairs => ih _ hlt h hkept hσ hpairs rfl) h
        (fun p hp => hm ▸ rank_arg_lt h left (List.of_mem_zip hp).1)
        (hkept.args left right length) hσ (.zip hσ (hpairs _ List.mem_cons_self) left right)
      exact ⟨fuel + 1, r, (eq fuel).trans hr⟩
    | clash _ eq => exact ⟨1, _, eq 0⟩

end Termination

/-! ### Deciding unifiability -/

/-- After enough rounds a term is what the bindings give for it in the end, and stays so. -/
theorem exists_iterate_applySubstTerm (h : Acyclic (bindings σ)) (t : Term) :
    ∃ n, ∀ m ≥ n, ((applySubstTerm σ)^[m] t).tm = subst (settled h) t.tm ∧
      applySubstTerm σ ((applySubstTerm σ)^[m] t) = (applySubstTerm σ)^[m] t := by
  obtain ⟨n, hn⟩ := exists_iterate_step (h.wellFounded (finite_bindings σ)) t.tm
  refine ⟨n, fun m hm => ?_⟩
  have htm : ((applySubstTerm σ)^[m] t).tm = subst (settled h) t.tm := by
    rw [tm_iterate_applySubstTerm]
    exact hn m hm
  refine ⟨htm, applySubstTerm_of_unbound fun x hx => ?_⟩
  rw [htm] at hx
  exact bindings_eq_none.mp (unbound_of_occurs_subst_resolved _ hx)

/-- The bindings are free of cycles, and applied until nothing changes they make the terms equal. -/
def Equates (s : Substitution) (t1 t2 : Term) : Prop :=
  Acyclic (bindings s) ∧ ∃ n,
    applySubstTerm s ((applySubstTerm s)^[n] t1) = (applySubstTerm s)^[n] t1 ∧
    applySubstTerm s ((applySubstTerm s)^[n] t2) = (applySubstTerm s)^[n] t2 ∧
    ((applySubstTerm s)^[n] t1).tm = ((applySubstTerm s)^[n] t2).tm

/-- `Equates` for predicates. -/
def EquatesPredicates (s : Substitution) (p1 p2 : Predicate) : Prop :=
  Acyclic (bindings s) ∧ ∃ n,
    applySubstPredicate s ((applySubstPredicate s)^[n] p1) = (applySubstPredicate s)^[n] p1 ∧
    applySubstPredicate s ((applySubstPredicate s)^[n] p2) = (applySubstPredicate s)^[n] p2 ∧
    ((applySubstPredicate s)^[n] p1).atom = ((applySubstPredicate s)^[n] p2).atom

/-- A run from the empty substitution that keeps its bindings decides unifiability. -/
theorem unify_of_kept (hkept : Kept [(t1, t2)] ∅) :
    ∃ r, (∃ n, ∀ fuel ≥ n, unify fuel t1 t2 ∅ = some r) ∧
      (r.isSome ↔ ∃ θ : String → Tm Leaf String String, subst θ t1.tm = subst θ t2.tm) ∧
      ∀ s, r = some s → Equates s t1 t2 := by
  -- the variables of the two terms are enough
  have hvars : PairsWithin (t1.collectVars ++ t2.collectVars).toFinset [(t1, t2)] := by
    intro p hp x hx
    obtain rfl := List.mem_singleton.mp hp
    rw [Finset.mem_coe, List.mem_toFinset, List.mem_append, Term.mem_collectVars,
      Term.mem_collectVars]
    exact hx
  have hempty : Within (t1.collectVars ++ t2.collectVars).toFinset ∅ := by
    intro x u hu
    rw [bindings_empty] at hu
    cases hu
  obtain ⟨fuel, r, hr⟩ := exists_unify_eq acyclic_empty hkept hempty hvars
  have hargs : unifyArgs (unify fuel) [(t1, t2)] ∅ = some r := by
    rw [unifyArgs, hr]
    cases r <;> rfl
  have hsound : ∀ s, r = some s → ∃ h : Acyclic (bindings s),
      subst (settled h) t1.tm = subst (settled h) t2.tm := by
    rintro s rfl
    obtain ⟨h, -, heq⟩ := (unified_of_eq hargs).sound hkept acyclic_empty
    exact ⟨h, heq _ _ _ (solves_settled h) _ (List.mem_singleton.mpr rfl)⟩
  refine ⟨r, ⟨fuel, fun fuel' hle => unify_mono hle hr⟩, ⟨fun hsome => ?_, ?_⟩, fun s hs => ?_⟩
  · obtain ⟨s, hs⟩ := Option.isSome_iff_exists.mp hsome
    obtain ⟨h, heq⟩ := hsound s hs
    exact ⟨_, heq⟩
  · rintro ⟨θ, hθ⟩
    -- a unifier solves every equation that is met
    obtain ⟨s, hs, -⟩ := unifyArgs_complete (solves_empty _ θ)
      (fun p hp => List.mem_singleton.mp hp ▸ hθ) hargs
    rw [hs]
    rfl
  · obtain ⟨h, heq⟩ := hsound s hs
    -- the substitution is applied until nothing changes
    obtain ⟨n₁, h₁⟩ := exists_iterate_applySubstTerm h t1
    obtain ⟨n₂, h₂⟩ := exists_iterate_applySubstTerm h t2
    obtain ⟨htm₁, hfix₁⟩ := h₁ (max n₁ n₂) (le_max_left _ _)
    obtain ⟨htm₂, hfix₂⟩ := h₂ (max n₁ n₂) (le_max_right _ _)
    exact ⟨h, max n₁ n₂, hfix₁, hfix₂, htm₁.trans (heq.trans htm₂.symm)⟩

/-- A predicate as an application of its name. -/
def Predicate.toTerm (p : Predicate) : Term := .func p.name p.args

theorem Predicate.atom_eq_iff : p.atom = q.atom ↔ p.toTerm.tm = q.toTerm.tm := by
  rw [toTerm, toTerm, Term.tm_func, Term.tm_func, Tm.app.injEq, atom, atom, Horn.Atom.mk.injEq]

theorem Predicate.subst_atom_eq_iff {μ : Type} {θ : String → Tm Leaf String μ} :
    p.atom.subst θ = q.atom.subst θ ↔ subst θ p.toTerm.tm = subst θ q.toTerm.tm := by
  rw [toTerm, toTerm, Term.tm_func, Term.tm_func, subst_app, subst_app, Tm.app.injEq, atom, atom,
    Horn.Atom.subst, Horn.Atom.subst, Horn.Atom.mk.injEq]

theorem toTerm_applySubstPredicate (σ : Substitution) (p : Predicate) :
    (applySubstPredicate σ p).toTerm = applySubstTerm σ p.toTerm :=
  (applySubstTerm_func σ p.name p.args).symm

theorem toTerm_iterate_applySubstPredicate (σ : Substitution) (n : ℕ) (p : Predicate) :
    ((applySubstPredicate σ)^[n] p).toTerm = (applySubstTerm σ)^[n] p.toTerm := by
  induction n generalizing p with
  | zero => rfl
  | succ n ih =>
    rw [Function.iterate_succ_apply, ih, toTerm_applySubstPredicate, Function.iterate_succ_apply]

theorem Predicate.toTerm_injective : Function.Injective Predicate.toTerm := by
  rintro ⟨n, as⟩ ⟨m, bs⟩ h
  injection h with hname hargs
  exact (Predicate.mk.injEq ..).mpr ⟨hname, hargs⟩

/-- From the empty substitution, two predicates unify like applications of their names. -/
theorem unify_toTerm (fuel : ℕ) (p1 p2 : Predicate) :
    unify (fuel + 1) p1.toTerm p2.toTerm ∅ = unifyPredicates fuel p1 p2 ∅ := by
  rw [unify, applySubstTerm_empty, applySubstTerm_empty, unifyPredicates]
  show (if p1.name = p2.name ∧ p1.args.length = p2.args.length then _ else _) = _
  by_cases h : p1.name = p2.name ∧ p1.args.length = p2.args.length
  · rw [if_pos h, if_neg (by simp [h.1, h.2])]
  · rw [if_neg h, if_pos (by rwa [not_and_or] at h)]

/-- **A run on two predicates** is one on applications of their names. -/
theorem unifyPredicates_of_kept {p1 p2 : Predicate}
    (hkept : p1.name = p2.name → p1.args.length = p2.args.length →
      Kept (p1.args.zip p2.args) ∅) :
    ∃ r, (∃ n, ∀ fuel ≥ n, unifyPredicates fuel p1 p2 ∅ = some r) ∧
      (r.isSome ↔ ∃ θ : String → Tm Leaf String String, p1.atom.subst θ = p2.atom.subst θ) ∧
      ∀ s, r = some s → EquatesPredicates s p1 p2 := by
  -- the run binds the same in the arguments
  have hterm : Kept [(p1.toTerm, p2.toTerm)] ∅ := by
    intro v t σ' hbinds
    cases hbinds with
    | now now =>
      rw [BindsNow, applySubstTerm_empty, applySubstTerm_empty] at now
      rcases now.1 with ⟨h, -⟩ | ⟨-, h, -⟩
      · cases h
      · cases h
    | args left right length binds =>
      rw [applySubstTerm_empty] at left right
      injection left with hname₁ hargs₁
      injection right with hname₂ hargs₂
      subst hargs₁ hargs₂
      exact hkept (hname₁.trans hname₂.symm) length v t σ' binds
    | later _ binds => cases binds
  obtain ⟨r, ⟨n, hn⟩, hiff, hresult⟩ := unify_of_kept hterm
  refine ⟨r, ⟨n, fun fuel hle => ?_⟩, ?_, fun s hs => ?_⟩
  · rw [← unify_toTerm]
    exact hn _ (hle.trans (Nat.le_succ _))
  · rw [hiff]
    exact exists_congr fun θ => Predicate.subst_atom_eq_iff.symm
  · obtain ⟨hacyclic, n, hfix₁, hfix₂, heq⟩ := hresult s hs
    refine ⟨hacyclic, n, Predicate.toTerm_injective ?_, Predicate.toTerm_injective ?_, ?_⟩
    · rw [toTerm_applySubstPredicate, toTerm_iterate_applySubstPredicate]
      exact hfix₁
    · rw [toTerm_applySubstPredicate, toTerm_iterate_applySubstPredicate]
      exact hfix₂
    · rw [Predicate.atom_eq_iff, toTerm_iterate_applySubstPredicate,
        toTerm_iterate_applySubstPredicate]
      exact heq

/-- **Unification decides unifiability, in every run that keeps its bindings**, and then the result
is free of cycles and makes both sides equal when it is applied until nothing changes. -/
theorem unify_iff_unifiable (t1 t2 : Term) (p1 p2 : Predicate) :
    (Kept [(t1, t2)] ∅ →
      ∃ r, (∃ n, ∀ fuel ≥ n, unify fuel t1 t2 ∅ = some r) ∧
        (r.isSome ↔ ∃ θ : String → Tm Leaf String String, subst θ t1.tm = subst θ t2.tm) ∧
        ∀ s, r = some s → Equates s t1 t2) ∧
    ((p1.name = p2.name → p1.args.length = p2.args.length → Kept (p1.args.zip p2.args) ∅) →
      ∃ r, (∃ n, ∀ fuel ≥ n, unifyPredicates fuel p1 p2 ∅ = some r) ∧
        (r.isSome ↔ ∃ θ : String → Tm Leaf String String, p1.atom.subst θ = p2.atom.subst θ) ∧
        ∀ s, r = some s → EquatesPredicates s p1 p2) :=
  ⟨unify_of_kept, unifyPredicates_of_kept⟩

/-- The second argument overwrites what the first made of `X`: `p(X, Y, X)` and `p(Y, a, b)` have
no unifier, and they unify. -/
theorem unifyPredicates_overwritten :
    (∃ s, unifyPredicates 1 ⟨"p", [.var "X", .var "Y", .var "X"]⟩
        ⟨"p", [.var "Y", .const (.string "a"), .const (.string "b")]⟩ ∅ = some (some s)) ∧
      ¬ ∃ θ : String → Tm Leaf String String,
        (Predicate.atom ⟨"p", [.var "X", .var "Y", .var "X"]⟩).subst θ =
          (Predicate.atom
            ⟨"p", [.var "Y", .const (.string "a"), .const (.string "b")]⟩).subst θ := by
  refine ⟨⟨(Finmap.insert "X" (.var "Y") ∅).insert "Y" (.const (.string "b")), by rfl⟩, ?_⟩
  rintro ⟨θ, h⟩
  rw [Horn.Atom.subst, Horn.Atom.subst, Horn.Atom.mk.injEq] at h
  simp only [Predicate.atom, List.map_cons, List.map_nil, Term.tm_var, Term.tm_const, subst_var,
    subst_const, List.cons.injEq] at h
  obtain ⟨-, hXY, hY, hX, -⟩ := h
  rw [hXY, hY] at hX
  simp at hX

theorem unify_iff_unifiable_two :
    ∃ r, (∃ n, ∀ fuel ≥ n, unifyPredicates fuel ⟨"p", [.var "X", .const (.int 1)]⟩
        ⟨"p", [.const (.string "a"), .var "Y"]⟩ ∅ = some r) ∧
      (r.isSome ↔ ∃ θ : String → Tm Leaf String String,
        (Predicate.atom ⟨"p", [.var "X", .const (.int 1)]⟩).subst θ =
          (Predicate.atom ⟨"p", [.const (.string "a"), .var "Y"]⟩).subst θ) ∧
      ∀ s, r = some s → EquatesPredicates s ⟨"p", [.var "X", .const (.int 1)]⟩
        ⟨"p", [.const (.string "a"), .var "Y"]⟩ := by
  refine (unify_iff_unifiable (.var "X") (.var "Y") _ _).2 fun _ _ v t σ' hbinds => ?_
  have hX : Keeps "X" (.const (.string "a")) ∅ :=
    keeps_of_ground acyclic_empty Finmap.notMem_empty rfl
  cases hbinds with
  | now now =>
    rcases now.1 with ⟨h1, h2⟩ | ⟨h1, -⟩
    · obtain rfl : "X" = v := Term.var.inj h1
      rw [← h2]
      exact hX
    · exact absurd rfl (h1 "X")
  | args left => cases left
  | @later _ _ _ _ σ₁ _ _ _ fuel first binds =>
    cases fuel with
    | zero => cases first
    | succ fuel =>
      obtain rfl : Finmap.insert "X" (.const (.string "a")) ∅ = σ₁ :=
        Option.some.inj (Option.some.inj first)
      cases binds with
      | now now =>
        rcases now.1 with ⟨h1, -⟩ | ⟨-, h1, h2⟩
        · cases h1
        · -- and the second one `Y`
          obtain rfl : "Y" = v := Term.var.inj h1
          rw [← h2]
          exact keeps_of_ground hX.1 (by decide) rfl
      | args left => cases left
      | later _ binds => cases binds

end Ipfrs.Tensorlogic
