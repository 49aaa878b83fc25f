import Mathlib.Data.Set.Card
import Ipfrs.Lib.Terms

/-!
# Definite clauses

Atoms over first-order terms, definite clauses and sets of them (programs), with two meanings. In a
structure an atom holds of a valuation, and an atom is a *consequence* of a program when it holds in
every model of the program, whatever its variables stand for. The least Herbrand model is what can
be derived from ground instances of the clauses, from the bottom up.

* `Clause.Valid.subst` — instances of valid clauses are valid;
* `Entails.of_clause` — a clause of the program is used at any instance of it;
* `Least.holds` — what is in the least model holds in every model;
* `height_lt` — without recursion, the height of a predicate goes down to what it depends on.
-/

namespace Horn

open Terms

/-- A predicate symbol with arguments. -/
@[ext]
structure Atom (π κ φ ν : Type) where
  name : π
  args : List (Tm κ φ ν)

/-- A definite clause: the head holds if the whole body does. -/
structure Clause (π κ φ ν : Type) where
  head : Atom π κ φ ν
  body : List (Atom π κ φ ν)

/-- A structure: an algebra, and the tuples that each predicate holds of. -/
structure Interp (π κ φ D : Type) extends Algebra κ φ D where
  holds : π → List D → Prop

variable {π κ φ ν μ D : Type}

/-- An instance of an atom. -/
def Atom.subst (θ : ν → Tm κ φ μ) (a : Atom π κ φ ν) : Atom π κ φ μ where
  name := a.name
  args := a.args.map (Terms.subst θ)

/-- The atom holds of the values of its arguments. -/
def Atom.Holds (M : Interp π κ φ D) (ρ : ν → D) (a : Atom π κ φ ν) : Prop :=
  M.holds a.name (a.args.map (eval M.toAlgebra ρ))

/-- The variable occurs in an argument. -/
def Atom.Mentions (a : Atom π κ φ ν) (x : ν) : Prop := ∃ t ∈ a.args, Occurs x t

variable {θ : ν → Tm κ φ μ} {M : Interp π κ φ D} {c : Clause π κ φ ν} {P : Set (Clause π κ φ ν)}

theorem Atom.subst_congr {θ' : ν → Tm κ φ μ} {a : Atom π κ φ ν}
    (h : ∀ x, a.Mentions x → θ x = θ' x) : a.subst θ = a.subst θ' := by
  rw [Atom.subst, Atom.subst]
  congr 1
  exact List.map_congr_left fun t ht => Terms.subst_congr fun x hx => h x ⟨t, ht, hx⟩

theorem Atom.subst_subst {ξ : Type} (θ : ν → Tm κ φ μ) (η : μ → Tm κ φ ξ) (a : Atom π κ φ ν) :
    (a.subst θ).subst η = a.subst fun x => Terms.subst η (θ x) := by
  ext1
  · rfl
  · exact map_eval_subst (free κ φ ξ) η θ a.args

theorem Atom.holds_subst (M : Interp π κ φ D) (ρ : μ → D) (θ : ν → Tm κ φ μ) (a : Atom π κ φ ν) :
    (a.subst θ).Holds M ρ ↔ a.Holds M fun x => eval M.toAlgebra ρ (θ x) := by
  rw [Atom.Holds, Atom.Holds, Atom.subst, map_eval_subst]

/-- The clause holds, whatever its variables stand for. -/
def Clause.Valid (M : Interp π κ φ D) (c : Clause π κ φ ν) : Prop :=
  ∀ ρ : ν → D, (∀ b ∈ c.body, b.Holds M ρ) → c.head.Holds M ρ

/-- An instance of a clause. -/
def Clause.subst (θ : ν → Tm κ φ μ) (c : Clause π κ φ ν) : Clause π κ φ μ where
  head := c.head.subst θ
  body := c.body.map (Atom.subst θ)

theorem Clause.Valid.subst (h : c.Valid M) (θ : ν → Tm κ φ μ) : (c.subst θ).Valid M := by
  intro ρ hbody
  apply (Atom.holds_subst M ρ θ c.head).mpr
  apply h
  intro b hb
  exact (Atom.holds_subst M ρ θ b).mp (hbody _ (List.mem_map_of_mem hb))

/-- Every clause of the program is valid. -/
def Models (M : Interp π κ φ D) (P : Set (Clause π κ φ ν)) : Prop := ∀ c ∈ P, c.Valid M

/-- **Logical consequence**: the atom holds in every model of the program, whatever its variables
stand for. -/
def Entails (P : Set (Clause π κ φ ν)) (a : Atom π κ φ μ) : Prop :=
  ∀ (D : Type) (M : Interp π κ φ D), Models M P → ∀ ρ, a.Holds M ρ

theorem Entails.of_clause (mem : c ∈ P) (h : ∀ b ∈ c.body, Entails P (b.subst θ)) :
    Entails P (c.head.subst θ) := by
  intro D M hM ρ
  apply (Atom.holds_subst M ρ θ c.head).mpr
  refine hM c mem _ fun b hb => ?_
  exact (Atom.holds_subst M ρ θ b).mp (h b hb D M hM ρ)

/-! ### The least Herbrand model -/

/-- **The least Herbrand model**: a ground atom is in it when it is the head of a ground instance
of a clause whose body is in it. -/
inductive Least (P : Set (Clause π κ φ ν)) : Atom π κ φ Empty → Prop where
  | intro (c : Clause π κ φ ν) (mem : c ∈ P) (θ : ν → Tm κ φ Empty)
    (body : ∀ b ∈ c.body, Least P (b.subst θ)) : Least P (c.head.subst θ)

theorem Least.holds {a : Atom π κ φ Empty} (h : Least P a) (hM : Models M P) (ρ : Empty → D) :
    a.Holds M ρ := by
  induction h with
  | intro c hc θ _ ih =>
    apply (Atom.holds_subst M ρ θ c.head).mpr
    refine hM c hc _ fun b hb => ?_
    exact (Atom.holds_subst M ρ θ b).mp (ih b hb)

/-- A ground atom, read as an atom in which no variable happens to occur. -/
def Atom.lift (a : Atom π κ φ Empty) : Atom π κ φ ν := a.subst Empty.elim

/-! ### Programs without recursion -/

/-- A predicate is known by its symbol and its number of arguments. -/
def Atom.key (a : Atom π κ φ ν) : π × ℕ := (a.name, a.args.length)

@[simp] theorem Atom.key_subst (θ : ν → Tm κ φ μ) (a : Atom π κ φ ν) :
    (a.subst θ).key = a.key := by
  rw [Atom.key, Atom.key, Atom.subst, List.length_map]

/-- A clause for the one predicate has the other one in its body. -/
def Depends (P : Set (Clause π κ φ ν)) (k k' : π × ℕ) : Prop :=
  ∃ c ∈ P, c.head.key = k ∧ ∃ b ∈ c.body, b.key = k'

/-- No predicate depends on itself. -/
def NonRecursive (P : Set (Clause π κ φ ν)) : Prop := ∀ k, ¬ Relation.TransGen (Depends P) k k

/-- The predicates below a predicate (itself among them) that depend on others. -/
def below (P : Set (Clause π κ φ ν)) (k : π × ℕ) : Set (π × ℕ) :=
  {k' | Relation.ReflTransGen (Depends P) k k' ∧ ∃ k'', Depends P k' k''}

/-- How many they are. -/
noncomputable def height (P : Set (Clause π κ φ ν)) (k : π × ℕ) : ℕ := (below P k).ncard

variable {P : Set (Clause π κ φ ν)} {K : Finset (π × ℕ)}

/-- A measure that goes down from the head of a clause to its body excludes recursion. -/
theorem NonRecursive.of_measure (f : π × ℕ → ℕ)
    (h : ∀ c ∈ P, ∀ b ∈ c.body, f b.key < f c.head.key) : NonRecursive P := by
  have hstep : ∀ k k', Depends P k k' → f k' < f k := by
    rintro k k' ⟨c, hc, rfl, b, hb, rfl⟩
    exact h c hc b hb
  have hrun : ∀ k k', Relation.TransGen (Depends P) k k' → f k' < f k := by
    intro k k' hk
    induction hk with
    | single hk => exact hstep _ _ hk
    | tail _ hk ih => exact (hstep _ _ hk).trans ih
  intro k hk
  exact lt_irrefl _ (hrun k k hk)

theorem below_subset (hK : ∀ c ∈ P, c.body ≠ [] → c.head.key ∈ K) (k : π × ℕ) :
    below P k ⊆ ↑K := by
  rintro k' ⟨-, k'', c, hc, rfl, b, hb, -⟩
  exact hK c hc (List.ne_nil_of_mem hb)

/-- There are at most as many as there are predicates with rules. -/
theorem height_le (hK : ∀ c ∈ P, c.body ≠ [] → c.head.key ∈ K) (k : π × ℕ) :
    height P k ≤ K.card := by
  rw [height, ← Set.ncard_coe_finset]
  exact Set.ncard_le_ncard (below_subset hK k) K.finite_toSet

/-- **The height goes down** from a predicate to what it depends on, if there is no recursion. -/
theorem height_lt (hP : NonRecursive P) (hK : ∀ c ∈ P, c.body ≠ [] → c.head.key ∈ K) {k k' : π × ℕ}
    (h : Depends P k k') : height P k' < height P k := by
  have hfinite : (below P k).Finite := K.finite_toSet.subset (below_subset hK k)
  refine Set.ncard_lt_ncard ?_ hfinite
  constructor
  · rintro k'' ⟨hreach, hdep⟩
    exact ⟨hreach.head h, hdep⟩
  · intro hsub
    -- `k` is below itself, and by this inclusion below `k'`
    have hk : k ∈ below P k' := hsub ⟨.refl, k', h⟩
    exact hP k (Relation.TransGen.head' h hk.1)

end Horn
