import Mathlib.Algebra.Order.BigOperators.Group.List
import Mathlib.Algebra.GroupWithZero.Nat
import Mathlib.Algebra.Order.Group.Nat
import Mathlib.Order.WellFoundedSet

/-!
# First-order terms, and bindings in triangular form

Terms over constants `κ`, function symbols `φ` (which take any number of arguments) and variables
`ν`, with their meaning in an algebra: a term and a valuation give a value (`eval`). The terms over
other variables are an algebra too, the free one, and a valuation in it is a substitution. So one
notion of a solution serves for unifiers (solutions in the free algebra) and for the meaning of a
formula in any structure.

* `eval_subst`, `eval_congr` — substitution is evaluation, and only the variables that occur count;
* `not_eval_eq_of_occurs` — no substitution makes a variable equal to a term it occurs inside of.

A store of *bindings* maps some variables to terms, and these terms may contain bound variables
again. `Solves` are the valuations that satisfy all bindings read as equations. A store is read by
replacing bound variables (`step`) until nothing changes, which ends when it is `Acyclic`.

* `Acyclic.wellFounded` — a finite store without cycles has no infinite chains;
* `close`, `solves_close`, `eq_close` — its solutions are the valuations of the unbound variables;
* `exists_iterate_step` — reading ends, and with the solution in the free algebra;
* `Acyclic.bind` — adding a binding keeps a store acyclic when the term does not lead back to the
  variable;
* `Solves.bind`, `Solves.of_bind` — what a binding does to the solutions.
-/

namespace Terms

/-- First-order terms. -/
inductive Tm (κ φ ν : Type) where
  | var (x : ν)
  | const (c : κ)
  | app (f : φ) (ts : List (Tm κ φ ν))

variable {κ φ ν μ D : Type}

/-- **Induction over terms**: the hypothesis is about every argument. -/
@[elab_as_elim, induction_eliminator]
theorem Tm.ind {P : Tm κ φ ν → Prop} (var : ∀ x, P (.var x)) (const : ∀ c, P (.const c))
    (app : ∀ f ts, (∀ t ∈ ts, P t) → P (.app f ts)) (t : Tm κ φ ν) : P t :=
  @Tm.rec κ φ ν P (fun ts => ∀ t ∈ ts, P t) var const app
    (fun _ h => absurd h List.not_mem_nil)
    (fun _ _ ht hts _ h => (List.mem_cons.mp h).elim (fun e => e ▸ ht) (hts _)) t

/-! ### Evaluation -/

/-- An interpretation of the constants and function symbols in `D`. -/
structure Algebra (κ φ D : Type) where
  const : κ → D
  app : φ → List D → D

mutual

/-- The value of a term under a valuation of its variables. -/
def eval (A : Algebra κ φ D) (ρ : ν → D) : Tm κ φ ν → D
  | .var x => ρ x
  | .const c => A.const c
  | .app f ts => A.app f (evalList A ρ ts)

/-- `eval` along a list. -/
def evalList (A : Algebra κ φ D) (ρ : ν → D) : List (Tm κ φ ν) → List D
  | [] => []
  | t :: ts => eval A ρ t :: evalList A ρ ts

end

variable (A : Algebra κ φ D)

theorem evalList_eq (ρ : ν → D) (ts : List (Tm κ φ ν)) : evalList A ρ ts = ts.map (eval A ρ) := by
  induction ts with
  | nil => rfl
  | cons t ts ih => rw [evalList, ih, List.map_cons]

@[simp] theorem eval_var (ρ : ν → D) (x : ν) : eval A ρ (.var x) = ρ x := rfl

@[simp] theorem eval_const (ρ : ν → D) (c : κ) : eval A ρ (.const c) = A.const c := rfl

@[simp] theorem eval_app (ρ : ν → D) (f : φ) (ts : List (Tm κ φ ν)) :
    eval A ρ (.app f ts) = A.app f (ts.map (eval A ρ)) := by
  rw [eval, evalList_eq]

/-- The free algebra: the terms over the variables `μ`. -/
def free (κ φ μ : Type) : Algebra κ φ (Tm κ φ μ) where
  const := .const
  app := .app

/-- Replace every variable by a term. -/
def subst (θ : ν → Tm κ φ μ) (t : Tm κ φ ν) : Tm κ φ μ := eval (free κ φ μ) θ t

@[simp] theorem subst_var (θ : ν → Tm κ φ μ) (x : ν) : subst θ (.var x) = θ x := rfl

@[simp] theorem subst_const (θ : ν → Tm κ φ μ) (c : κ) : subst θ (.const c) = .const c := rfl

@[simp] theorem subst_app (θ : ν → Tm κ φ μ) (f : φ) (ts : List (Tm κ φ ν)) :
    subst θ (.app f ts) = .app f (ts.map (subst θ)) :=
  eval_app ..

/-- **Substitution is evaluation**: the value of an instance is the value under the values of the
replaced variables. -/
theorem eval_subst (ρ : μ → D) (θ : ν → Tm κ φ μ) (t : Tm κ φ ν) :
    eval A ρ (subst θ t) = eval A (fun x => eval A ρ (θ x)) t := by
  induction t with
  | var x => rfl
  | const c => rfl
  | app f ts ih =>
    rw [subst_app, eval_app, eval_app, List.map_map]
    congr 1
    exact List.map_congr_left ih

theorem map_eval_subst (ρ : μ → D) (θ : ν → Tm κ φ μ) (ts : List (Tm κ φ ν)) :
    (ts.map (subst θ)).map (eval A ρ) = ts.map (eval A fun x => eval A ρ (θ x)) := by
  rw [List.map_map]
  exact List.map_congr_left fun t _ => eval_subst A ρ θ t

@[simp] theorem subst_id (t : Tm κ φ ν) : subst Tm.var t = t := by
  induction t with
  | var x => rfl
  | const c => rfl
  | app f ts ih =>
    rw [subst_app]
    congr 1
    exact (List.map_congr_left ih).trans (List.map_id ts)

/-! ### Occurrence -/

/-- The variable occurs in the term. -/
inductive Occurs (x : ν) : Tm κ φ ν → Prop where
  | var : Occurs x (.var x)
  | app {f : φ} {ts : List (Tm κ φ ν)} {t : Tm κ φ ν} (mem : t ∈ ts) (occurs : Occurs x t) :
    Occurs x (.app f ts)

@[simp] theorem occurs_var {x y : ν} : Occurs x (.var y : Tm κ φ ν) ↔ x = y := by
  constructor
  · intro h
    cases h
    rfl
  · rintro rfl
    exact .var

@[simp] theorem not_occurs_const {x : ν} {c : κ} : ¬ Occurs x (.const c : Tm κ φ ν) := by
  intro h
  cases h

variable {f : φ} {ts : List (Tm κ φ ν)} {A : Algebra κ φ D} {ρ : ν → D} {t : Tm κ φ ν}
  {θ : ν → Tm κ φ μ}

@[simp] theorem occurs_app {x : ν} : Occurs x (.app f ts) ↔ ∃ t ∈ ts, Occurs x t := by
  constructor
  · intro h
    cases h with
    | app mem occurs => exact ⟨_, mem, occurs⟩
  · rintro ⟨t, mem, occurs⟩
    exact .app mem occurs

theorem eval_congr {ρ' : ν → D} (h : ∀ x, Occurs x t → ρ x = ρ' x) : eval A ρ t = eval A ρ' t := by
  induction t with
  | var x => exact h x .var
  | const c => rfl
  | app f ts ih =>
    rw [eval_app, eval_app]
    congr 1
    exact List.map_congr_left fun t ht => ih t ht fun x hx => h x (.app ht hx)

theorem subst_congr {θ' : ν → Tm κ φ μ} (h : ∀ x, Occurs x t → θ x = θ' x) :
    subst θ t = subst θ' t :=
  eval_congr h

theorem occurs_subst {y : μ} : Occurs y (subst θ t) ↔ ∃ x, Occurs x t ∧ Occurs y (θ x) := by
  induction t with
  | var x =>
    rw [subst_var]
    constructor
    · intro h
      exact ⟨x, .var, h⟩
    · rintro ⟨z, hz, hy⟩
      rwa [← occurs_var.mp hz]
  | const c => simp
  | app f ts ih =>
    rw [subst_app, occurs_app]
    constructor
    · rintro ⟨t', ht', hy⟩
      obtain ⟨t, ht, rfl⟩ := List.mem_map.mp ht'
      obtain ⟨x, hx, hy⟩ := (ih t ht).mp hy
      exact ⟨x, .app ht hx, hy⟩
    · rintro ⟨x, hx, hy⟩
      obtain ⟨t, ht, hx⟩ := occurs_app.mp hx
      exact ⟨_, List.mem_map_of_mem ht, (ih t ht).mpr ⟨x, hx, hy⟩⟩

/-! ### Size -/

/-- Sizes as an algebra: one for every symbol. -/
def sizes (κ φ : Type) : Algebra κ φ ℕ where
  const _ := 1
  app _ ns := ns.sum + 1

/-- The number of symbols of a term. -/
def size (t : Tm κ φ ν) : ℕ := eval (sizes κ φ) (fun _ => (1 : ℕ)) t

theorem size_subst (θ : ν → Tm κ φ μ) (t : Tm κ φ ν) :
    size (subst θ t) = eval (sizes κ φ) (fun x => size (θ x)) t :=
  eval_subst ..

theorem size_lt_of_mem (h : t ∈ ts) : size t < size (.app f ts) := by
  rw [size, size, eval_app]
  exact Nat.lt_succ_of_le (List.single_le_sum (fun _ _ => Nat.zero_le _) _ (List.mem_map_of_mem h))

/-- A variable's value is no larger than that of a term it occurs in. -/
theorem le_eval_sizes {ρ : ν → ℕ} {x : ν} (h : Occurs x t) : ρ x ≤ eval (sizes κ φ) ρ t := by
  induction h with
  | var => exact Nat.le_refl _
  | app mem occurs ih =>
    rw [eval_app]
    refine le_trans ih (Nat.le_succ_of_le ?_)
    exact List.single_le_sum (fun _ _ => Nat.zero_le _) _ (List.mem_map_of_mem mem)

/-- **The occurs check is right to refuse**: no substitution makes a variable equal to a term that
it occurs inside of. -/
theorem not_eval_eq_of_occurs {x : ν} (h : Occurs x t) (hne : t ≠ .var x) : θ x ≠ subst θ t := by
  intro heq
  cases h with
  | var => exact hne rfl
  | @app f ts t mem occurs =>
    have hle : size (θ x) ≤ size (subst θ t) := by
      rw [size_subst]
      exact le_eval_sizes (ρ := fun x => size (θ x)) occurs
    have hlt : size (subst θ t) < size (subst θ (.app f ts)) := by
      rw [subst_app]
      exact size_lt_of_mem (List.mem_map_of_mem mem)
    rw [← heq] at hlt
    exact absurd hle (Nat.not_le.mpr hlt)

/-! ### Bindings -/

/-- A store of bindings: some variables are bound to terms. -/
abbrev Bindings (κ φ ν : Type) := ν → Option (Tm κ φ ν)

/-- The valuation satisfies every binding, read as an equation. -/
def Solves (A : Algebra κ φ D) (ρ : ν → D) (b : Bindings κ φ ν) : Prop :=
  ∀ x t, b x = some t → ρ x = eval A ρ t

/-- Replace every bound variable once. -/
def step (b : Bindings κ φ ν) (t : Tm κ φ ν) : Tm κ φ ν := subst (fun x => (b x).getD (.var x)) t

variable {b : Bindings κ φ ν}

theorem Solves.eval_step (h : Solves A ρ b) (t : Tm κ φ ν) : eval A ρ (step b t) = eval A ρ t := by
  rw [step, eval_subst]
  refine eval_congr fun x _ => ?_
  cases hx : b x with
  | none => rfl
  | some u => exact (h x u hx).symm

theorem Solves.eval_iterate_step (h : Solves A ρ b) (n : ℕ) (t : Tm κ φ ν) :
    eval A ρ ((step b)^[n] t) = eval A ρ t := by
  induction n with
  | zero => rfl
  | succ n ih => rw [Function.iterate_succ_apply', h.eval_step, ih]

/-- The variable `y` occurs in the term that `x` is bound to. -/
def Edge (b : Bindings κ φ ν) (x y : ν) : Prop := ∃ t, b x = some t ∧ Occurs y t

/-- No variable leads back to itself. -/
def Acyclic (b : Bindings κ φ ν) : Prop := ∀ x, ¬ Relation.TransGen (Edge b) x x

/-- **A finite store without cycles has no infinite chains.** -/
theorem Acyclic.wellFounded (h : Acyclic b) (hfinite : {x | (b x).isSome}.Finite) :
    WellFounded fun y x => Edge b x y := by
  -- an edge starts at a bound variable, and on these the paths are a strict order
  let below : ν → ν → Prop := fun y x => Relation.TransGen (Edge b) x y
  have horder : IsStrictOrder ν below :=
    { irrefl := h
      trans := fun _ _ _ h₁ h₂ => h₂.trans h₁ }
  have hwf : {x | (b x).isSome}.WellFoundedOn below := hfinite.wellFoundedOn
  have hbound : ∀ {x y}, Edge b x y → (b x).isSome := by
    rintro x y ⟨t, ht, -⟩
    rw [ht]
    rfl
  rw [Set.wellFoundedOn_iff] at hwf
  refine ⟨fun x => ?_⟩
  induction x using hwf.induction with
  | _ x ih =>
    refine ⟨x, fun y hy => ?_⟩
    by_cases hsome : (b y).isSome
    · exact ih y ⟨.single hy, hsome, hbound hy⟩
    · exact ⟨y, fun z hz => absurd (hbound hz) hsome⟩

section Close

variable {b : Bindings κ φ ν} (wf : WellFounded fun y x => Edge b x y) (A : Algebra κ φ D)
  (ρ : ν → D)

open Classical in
/-- The values that the bindings give to all variables, from values of the unbound ones. -/
noncomputable def close : ν → D :=
  wf.fix fun x values =>
    match b x with
    | none => ρ x
    | some t => eval A (fun y => if h : Edge b x y then values y h else ρ y) t

theorem close_of_unbound {x : ν} (h : b x = none) : close wf A ρ x = ρ x := by
  rw [close, wf.fix_eq, h]

theorem close_of_bound {x : ν} {t : Tm κ φ ν} (h : b x = some t) :
    close wf A ρ x = eval A (close wf A ρ) t := by
  rw [close, wf.fix_eq, h]
  refine eval_congr fun y hy => ?_
  rw [dif_pos ⟨t, h, hy⟩]

/-- **Every valuation of the unbound variables is a solution**, -/
theorem solves_close : Solves A (close wf A ρ) b :=
  fun _ _ h => close_of_bound wf A ρ h

/-- and a solution is given by the values of the unbound variables. -/
theorem eq_close {ρ' : ν → D} (h : Solves A ρ' b) (hρ : ∀ x, b x = none → ρ' x = ρ x) :
    ρ' = close wf A ρ := by
  funext x
  induction x using wf.induction with
  | _ x ih =>
    cases hx : b x with
    | none => rw [close_of_unbound wf A ρ hx, hρ x hx]
    | some t =>
      rw [close_of_bound wf A ρ hx, h x t hx]
      exact eval_congr fun y hy => ih y ⟨t, hx, hy⟩

end Close

/-- The term that a store gives for a variable in the end. -/
noncomputable def resolved {b : Bindings κ φ ν} (wf : WellFounded fun y x => Edge b x y) :
    ν → Tm κ φ ν :=
  close wf (free κ φ ν) Tm.var

section Resolved

variable {b : Bindings κ φ ν} (wf : WellFounded fun y x => Edge b x y)

theorem eval_resolved (A : Algebra κ φ D) (ρ : ν → D) (t : Tm κ φ ν) :
    eval A ρ (subst (resolved wf) t) = eval A (close wf A ρ) t := by
  rw [eval_subst]
  have hsolves : Solves A (fun x => eval A ρ (resolved wf x)) b := by
    intro x u hx
    show eval A ρ (resolved wf x) = _
    rw [resolved, close_of_bound wf _ _ hx]
    exact eval_subst A ρ (resolved wf) u
  rw [eq_close wf A ρ hsolves fun x hx => by rw [resolved, close_of_unbound wf _ _ hx]; rfl]

theorem unbound_of_occurs_resolved {x y : ν} (h : Occurs y (resolved wf x)) : b y = none := by
  induction x using wf.induction with
  | _ x ih =>
    cases hx : b x with
    | none =>
      rw [resolved, close_of_unbound wf _ _ hx] at h
      rwa [occurs_var.mp h]
    | some t =>
      rw [resolved, close_of_bound wf _ _ hx] at h
      obtain ⟨z, hz, hy⟩ := occurs_subst.mp h
      exact ih z ⟨t, hx, hz⟩ hy

variable {t : Tm κ φ ν}

theorem unbound_of_occurs_subst_resolved {y : ν} (h : Occurs y (subst (resolved wf) t)) :
    b y = none := by
  obtain ⟨x, -, hy⟩ := occurs_subst.mp h
  exact unbound_of_occurs_resolved wf hy

theorem iterate_step_app (b : Bindings κ φ ν) (n : ℕ) (f : φ) (ts : List (Tm κ φ ν)) :
    (step b)^[n] (.app f ts) = .app f (ts.map (step b)^[n]) := by
  induction n with
  | zero => exact congrArg (Tm.app f) (List.map_id ts).symm
  | succ n ih =>
    rw [Function.iterate_succ_apply', ih, step, subst_app, List.map_map]
    congr 1
    exact List.map_congr_left fun t _ => (Function.iterate_succ_apply' (step b) n t).symm

theorem exists_iterate_step_of_vars {θ : ν → Tm κ φ ν}
    (h : ∀ x, Occurs x t → ∃ n, ∀ m ≥ n, (step b)^[m] (.var x) = θ x) :
    ∃ n, ∀ m ≥ n, (step b)^[m] t = subst θ t := by
  induction t with
  | var x => exact h x .var
  | const c => exact ⟨0, fun m _ => Function.iterate_fixed rfl m⟩
  | app f ts ih =>
    -- a number of rounds that is enough for every argument
    have hall : ∃ n, ∀ m ≥ n, ∀ t ∈ ts, (step b)^[m] t = subst θ t := by
      have hargs : ∀ t ∈ ts, ∃ n, ∀ m ≥ n, (step b)^[m] t = subst θ t :=
        fun t ht => ih t ht fun x hx => h x (.app ht hx)
      clear ih h
      induction ts with
      | nil => exact ⟨0, fun m _ t ht => absurd ht List.not_mem_nil⟩
      | cons t ts ih =>
        obtain ⟨n₁, h₁⟩ := hargs t List.mem_cons_self
        obtain ⟨n₂, h₂⟩ := ih fun t ht => hargs t (List.mem_cons_of_mem _ ht)
        refine ⟨max n₁ n₂, fun m hm u hu => ?_⟩
        rcases List.mem_cons.mp hu with rfl | hu
        · exact h₁ m (le_trans (le_max_left _ _) hm)
        · exact h₂ m (le_trans (le_max_right _ _) hm) u hu
    obtain ⟨n, hn⟩ := hall
    refine ⟨n, fun m hm => ?_⟩
    rw [iterate_step_app, subst_app]
    congr 1
    exact List.map_congr_left (hn m hm)

/-- **Reading ends**: after enough rounds a term is what the store gives for it in the end. -/
theorem exists_iterate_step (t : Tm κ φ ν) :
    ∃ n, ∀ m ≥ n, (step b)^[m] t = subst (resolved wf) t := by
  suffices hvar : ∀ x, ∃ n, ∀ m ≥ n, (step b)^[m] (.var x) = resolved wf x from
    exists_iterate_step_of_vars fun x _ => hvar x
  intro x
  induction x using wf.induction with
  | _ x ih =>
    cases hx : b x with
    | none =>
      have hfix : step b (.var x) = .var x := by
        rw [step, subst_var, hx]
        rfl
      refine ⟨0, fun m _ => ?_⟩
      rw [Function.iterate_fixed hfix, resolved, close_of_unbound wf _ _ hx]
    | some t =>
      obtain ⟨n, hn⟩ := exists_iterate_step_of_vars (t := t) fun y hy => ih y ⟨t, hx, hy⟩
      refine ⟨n + 1, fun m hm => ?_⟩
      obtain ⟨k, rfl⟩ : ∃ k, m = k + 1 := ⟨m - 1, by omega⟩
      have hstep : step b (.var x) = t := by
        rw [step, subst_var, hx]
        rfl
      rw [Function.iterate_succ_apply, hstep, hn k (by omega), resolved, close_of_bound wf _ _ hx]
      rfl

end Resolved

/-! ### Adding a binding -/

section Bind

variable [DecidableEq ν] {b : Bindings κ φ ν} {x : ν} {t : Tm κ φ ν}

/-- Bind `x` to `t`, whatever it was bound to. -/
def bind (b : Bindings κ φ ν) (x : ν) (t : Tm κ φ ν) : Bindings κ φ ν :=
  Function.update b x (some t)

@[simp] theorem bind_self : bind b x t x = some t := Function.update_self ..

theorem bind_of_ne {y : ν} (h : y ≠ x) : bind b x t y = b y := Function.update_of_ne h ..

variable {A : Algebra κ φ D} {ρ : ν → D}

/-- A solution of the new bindings and of the old one of `x` solves the old bindings. -/
theorem Solves.of_bind (h : Solves A ρ (bind b x t)) (hold : ∀ u, b x = some u → ρ x = eval A ρ u) :
    Solves A ρ b := by
  intro y u hy
  by_cases hne : y = x
  · subst hne
    exact hold u hy
  · exact h y u (by rw [bind_of_ne hne, hy])

/-- A solution of the old bindings that satisfies the new equation solves the new bindings. -/
theorem Solves.bind (h : Solves A ρ b) (hx : ρ x = eval A ρ t) : Solves A ρ (bind b x t) := by
  intro y u hy
  by_cases hne : y = x
  · subst hne
    rw [bind_self] at hy
    rwa [← Option.some.inj hy]
  · exact h y u (by rwa [bind_of_ne hne] at hy)

/-- **A binding closes no cycle** if the variable was unbound and the term does not lead back to
it. -/
theorem Acyclic.bind (h : Acyclic b) (hx : b x = none)
    (ht : ∀ y, Occurs y t → ¬ Relation.ReflTransGen (Edge b) y x) :
    Acyclic (Terms.bind b x t) := by
  have hedge : ∀ {u w}, u ≠ x → Edge (Terms.bind b x t) u w → Edge b u w := by
    rintro u w hne ⟨s, hs, hw⟩
    exact ⟨s, by rwa [bind_of_ne hne] at hs, hw⟩
  have hback : ∀ {u w}, Edge b u w → Edge (Terms.bind b x t) u w := by
    rintro u w ⟨s, hs, hw⟩
    refine ⟨s, ?_, hw⟩
    rw [bind_of_ne, hs]
    rintro rfl
    rw [hx] at hs
    cases hs
  -- a path to `x` is an old one up to its first visit there
  have hto : ∀ {u}, Relation.ReflTransGen (Edge (Terms.bind b x t)) u x →
      Relation.ReflTransGen (Edge b) u x := by
    intro u hu
    induction hu using Relation.ReflTransGen.head_induction_on with
    | refl => exact .refl
    | @head u w huw _ ih =>
      by_cases hux : u = x
      · rw [hux]
      · exact .head (hedge hux huw) ih
  have hself : ¬ Relation.TransGen (Edge (Terms.bind b x t)) x x := by
    intro hcycle
    obtain ⟨w, ⟨s, hs, hw⟩, hwx⟩ := Relation.TransGen.head'_iff.mp hcycle
    rw [bind_self, Option.some.injEq] at hs
    exact ht w (hs ▸ hw) (hto hwx)
  -- so a cycle is an old one, or it visits `x`
  have hsplit : ∀ {u w}, Relation.TransGen (Edge (Terms.bind b x t)) u w →
      Relation.TransGen (Edge b) u w ∨ Relation.ReflTransGen (Edge (Terms.bind b x t)) u x ∧
        Relation.TransGen (Edge (Terms.bind b x t)) x w := by
    intro u w huw
    induction huw with
    | @single w huw =>
      by_cases hux : u = x
      · rw [hux] at huw ⊢
        exact Or.inr ⟨.refl, .single huw⟩
      · exact Or.inl (.single (hedge hux huw))
    | @tail c w huc hcw ih =>
      rcases ih with hold | ⟨hux, hxc⟩
      · by_cases hcx : c = x
        · subst hcx
          exact Or.inr ⟨(hold.lift id fun _ _ => hback).to_reflTransGen, .single hcw⟩
        · exact Or.inl (hold.tail (hedge hcx hcw))
      · exact Or.inr ⟨hux, hxc.tail hcw⟩
  intro u hcycle
  rcases hsplit hcycle with hold | ⟨hux, hxu⟩
  · exact h u hold
  · exact hself (hxu.trans_left hux)

end Bind

end Terms
