import Mathlib.Data.List.Destutter
import Mathlib.Data.String.Basic
import Ipfrs.Core.Cid
import Ipfrs.Lib.Horn

/-!
# Terms, predicates and rules

The intermediate representation that knowledge bases are made of, with its own functions on it, and
what it means: a term is a first-order term in which a constant or a reference is a leaf. References
are compared by their CID alone, so the hint is not a part of the meaning.

* `Term.ind` — induction over terms, through the argument lists;
* `mem_variables_iff` of predicates and rules — `variables` lists what occurs;
* `isGround_iff` — a term is ground when no variable occurs in it;
* `KnowledgeBase.program` — facts and rules as definite clauses;
* `Predicate.exists_lift` — a ground predicate is a ground atom.
-/

namespace Ipfrs.Tensorlogic

open Terms Horn

/-- `Constant`. A floating point number is kept as its text. -/
inductive Constant where
  | string (s : String)
  | int (i : Int64)
  | bool (b : Bool)
  | float (s : String)
deriving DecidableEq

structure TermRef where
  cid : Cid
  hint : Option String
deriving DecidableEq

inductive Term where
  | var (v : String)
  | const (c : Constant)
  | func (name : String) (args : List Term)
  | ref (r : TermRef)

/-- **Induction over terms**: the hypothesis is about every argument. -/
@[elab_as_elim, induction_eliminator]
theorem Term.ind {P : Term → Prop} (var : ∀ v, P (.var v)) (const : ∀ c, P (.const c))
    (func : ∀ f args, (∀ t ∈ args, P t) → P (.func f args)) (ref : ∀ r, P (.ref r)) (t : Term) :
    P t :=
  @Term.rec P (fun args => ∀ t ∈ args, P t) var const func ref
    (fun _ h => absurd h List.not_mem_nil)
    (fun _ _ ht hts _ h => (List.mem_cons.mp h).elim (fun e => e ▸ ht) (hts _)) t

namespace Term

mutual

/-- `Term::is_ground`: references are considered ground. -/
def isGround : Term → Bool
  | .var _ => false
  | .const _ => true
  | .func _ args => allGround args
  | .ref _ => true

/-- `isGround` of all arguments. -/
def allGround : List Term → Bool
  | [] => true
  | t :: ts => t.isGround && allGround ts

end

mutual

def collectVars : Term → List String
  | .var v => [v]
  | .func _ args => collectVarsAll args
  | .const _ => []
  | .ref _ => []

/-- `collectVars` of all arguments, one after the other. -/
def collectVarsAll : List Term → List String
  | [] => []
  | t :: ts => t.collectVars ++ collectVarsAll ts

end

/-- `vars.sort_unstable(); vars.dedup()`. -/
def sortDedup (vars : List String) : List String :=
  (vars.insertionSort (· ≤ ·)).destutter (· ≠ ·)

theorem allGround_eq (ts : List Term) : allGround ts = ts.all isGround := by
  induction ts with
  | nil => rfl
  | cons t ts ih => rw [allGround, ih, List.all_cons]

theorem collectVarsAll_eq (ts : List Term) : collectVarsAll ts = ts.flatMap collectVars := by
  induction ts with
  | nil => rfl
  | cons t ts ih => rw [collectVarsAll, ih, List.flatMap_cons]

variable {α : Type*}

theorem mem_destutter'_ne [DecidableEq α] {l : List α} {a b : α} (h : a = b ∨ a ∈ l) :
    a ∈ List.destutter' (fun x y : α => x ≠ y) b l := by
  induction l generalizing b with
  | nil =>
    obtain rfl := h.resolve_right List.not_mem_nil
    exact List.mem_destutter' _ _ _
  | cons c l ih =>
    rw [List.destutter'_cons]
    split
    · rcases h with rfl | h
      · exact List.mem_cons_self
      · exact List.mem_cons_of_mem _ (ih (List.mem_cons.mp h))
    · next hbc =>
      obtain rfl : b = c := not_not.mp hbc
      rcases h with rfl | h
      · exact ih (Or.inl rfl)
      · exact ih (List.mem_cons.mp h)

theorem mem_destutter_ne [DecidableEq α] {l : List α} {a : α} :
    a ∈ List.destutter (fun x y : α => x ≠ y) l ↔ a ∈ l := by
  refine ⟨fun h => (List.destutter_sublist _ _).subset h, fun h => ?_⟩
  cases l with
  | nil => cases h
  | cons b l => exact mem_destutter'_ne (List.mem_cons.mp h)

theorem mem_sortDedup {vars : List String} {v : String} : v ∈ sortDedup vars ↔ v ∈ vars :=
  mem_destutter_ne.trans (List.perm_insertionSort (· ≤ ·) vars).mem_iff

end Term

structure Predicate where
  name : String
  args : List Term

structure Rule where
  head : Predicate
  body : List Predicate

structure KnowledgeBase where
  facts : List Predicate
  rules : List Rule

def Predicate.isGround (p : Predicate) : Bool := p.args.all Term.isGround

def Predicate.variables (p : Predicate) : List String :=
  Term.sortDedup (p.args.flatMap Term.collectVars)

def Rule.fact (head : Predicate) : Rule := ⟨head, []⟩

/-- `if !vars.contains(&var) { vars.push(var) }`. -/
def pushNew (vars : List String) (var : String) : List String :=
  if var ∈ vars then vars else vars ++ [var]

def Rule.variables (r : Rule) : List String :=
  (r.body.foldl (fun vars pred => pred.variables.foldl pushNew vars) r.head.variables).insertionSort
    (· ≤ ·)

namespace KnowledgeBase

def getPredicates (kb : KnowledgeBase) (name : String) : List Predicate :=
  kb.facts.filter (·.name = name)

def getRules (kb : KnowledgeBase) (name : String) : List Rule :=
  kb.rules.filter (·.head.name = name)

variable {kb : KnowledgeBase} {name : String}

theorem mem_getPredicates {p : Predicate} :
    p ∈ kb.getPredicates name ↔ p ∈ kb.facts ∧ p.name = name := by
  simp [getPredicates]

theorem mem_getRules {r : Rule} : r ∈ kb.getRules name ↔ r ∈ kb.rules ∧ r.head.name = name := by
  simp [getRules]

end KnowledgeBase

/-! ### Display -/

/-- `Constant::fmt`. -/
def Constant.display : Constant → String
  | .string s => "\"" ++ s ++ "\""
  | .int i => toString i
  | .bool b => toString b
  | .float s => s

section Display

variable [CidText]

mutual

/-- `Term::fmt`. -/
def Term.display : Term → String
  | .var v => "?" ++ v
  | .const c => c.display
  | .func name args => name ++ "(" ++ ", ".intercalate (Term.displayAll args) ++ ")"
  | .ref r => "@" ++ CidText.toString r.cid

/-- `display` along a list. -/
def Term.displayAll : List Term → List String
  | [] => []
  | t :: ts => t.display :: Term.displayAll ts

end

theorem Term.displayAll_eq (ts : List Term) : Term.displayAll ts = ts.map Term.display := by
  induction ts with
  | nil => rfl
  | cons t ts ih => rw [Term.displayAll, ih, List.map_cons]

/-- `Predicate::fmt`. -/
def Predicate.display (p : Predicate) : String :=
  p.name ++ "(" ++ ", ".intercalate (p.args.map Term.display) ++ ")"

/-- `Rule::fmt`. -/
def Rule.display (r : Rule) : String :=
  r.head.display ++
    (if r.body.isEmpty then ""
      else " :- " ++ ", ".intercalate (r.body.map Predicate.display)) ++ "."

end Display

/-! ### Meaning -/

/-- What a term ends in: a constant, or a reference by its CID. -/
inductive Leaf where
  | const (c : Constant)
  | ref (cid : Cid)
deriving DecidableEq

instance : Nonempty Leaf := ⟨.const (.int 0)⟩

namespace Term

mutual

/-- The first-order term that is meant. -/
def tm : Term → Tm Leaf String String
  | .var v => .var v
  | .const c => .const (.const c)
  | .func f args => .app f (tms args)
  | .ref r => .const (.ref r.cid)

/-- `tm` along a list. -/
def tms : List Term → List (Tm Leaf String String)
  | [] => []
  | t :: ts => t.tm :: tms ts

end

theorem tms_eq (ts : List Term) : tms ts = ts.map tm := by
  induction ts with
  | nil => rfl
  | cons t ts ih => rw [tms, ih, List.map_cons]

@[simp] theorem tm_var (v : String) : (Term.var v).tm = .var v := rfl

@[simp] theorem tm_const (c : Constant) : (Term.const c).tm = .const (.const c) := rfl

@[simp] theorem tm_ref (r : TermRef) : (Term.ref r).tm = .const (.ref r.cid) := rfl

@[simp] theorem tm_func (f : String) (args : List Term) :
    (Term.func f args).tm = .app f (args.map tm) := by
  rw [tm, tms_eq]

variable {t : Term}

theorem mem_collectVars {v : String} : v ∈ t.collectVars ↔ Occurs v t.tm := by
  induction t with
  | var w => rw [collectVars, List.mem_singleton, tm_var, occurs_var]
  | const c => simp [collectVars]
  | func f args ih =>
    rw [collectVars, collectVarsAll_eq, List.mem_flatMap, tm_func, occurs_app]
    constructor
    · rintro ⟨t, ht, hv⟩
      exact ⟨_, List.mem_map_of_mem ht, (ih t ht).mp hv⟩
    · rintro ⟨u, hu, hv⟩
      obtain ⟨t, ht, rfl⟩ := List.mem_map.mp hu
      exact ⟨t, ht, (ih t ht).mpr hv⟩
  | ref r => simp [collectVars]

theorem isGround_iff : t.isGround ↔ ∀ v, ¬ Occurs v t.tm := by
  induction t with
  | var v => simp [isGround]
  | const c => simp [isGround]
  | func f args ih =>
    rw [isGround, allGround_eq, List.all_eq_true, tm_func]
    constructor
    · intro h v hv
      obtain ⟨u, hu, hv⟩ := occurs_app.mp hv
      obtain ⟨t, ht, rfl⟩ := List.mem_map.mp hu
      exact (ih t ht).mp (h t ht) v hv
    · intro h t ht
      exact (ih t ht).mpr fun v hv => h v (.app (List.mem_map_of_mem ht) hv)
  | ref r => simp [isGround]

end Term

namespace Predicate

/-- The atom that is meant. -/
def atom (p : Predicate) : Atom String Leaf String String := ⟨p.name, p.args.map Term.tm⟩

variable {p : Predicate} {v : String}

theorem mentions_atom : p.atom.Mentions v ↔ ∃ t ∈ p.args, Occurs v t.tm := by
  simp [Atom.Mentions, atom]

theorem mem_variables_iff : v ∈ p.variables ↔ p.atom.Mentions v := by
  rw [Predicate.variables, Term.mem_sortDedup, List.mem_flatMap, mentions_atom]
  exact exists_congr fun t => and_congr_right fun _ => Term.mem_collectVars

theorem isGround_iff : p.isGround ↔ ∀ v, ¬ p.atom.Mentions v := by
  rw [isGround, List.all_eq_true]
  constructor
  · intro h v hv
    obtain ⟨t, ht, hv⟩ := mentions_atom.mp hv
    exact Term.isGround_iff.mp (h t ht) v hv
  · intro h t ht
    exact Term.isGround_iff.mpr fun v hv => h v (mentions_atom.mpr ⟨t, ht, hv⟩)

theorem exists_lift (h : p.isGround) : ∃ a : Atom String Leaf String Empty, p.atom = a.lift := by
  obtain ⟨c⟩ := (inferInstance : Nonempty Leaf)
  refine ⟨p.atom.subst fun _ => .const c, ?_⟩
  rw [Atom.lift, Atom.subst_subst]
  calc p.atom = p.atom.subst Tm.var := by
        ext1
        · rfl
        · exact ((List.map_congr_left fun t _ => subst_id t).trans (List.map_id _)).symm
    _ = _ := Atom.subst_congr fun v hv => absurd hv (isGround_iff.mp h v)

end Predicate

variable {vars : List String} {v : String}

theorem mem_pushNew {var : String} : v ∈ pushNew vars var ↔ v ∈ vars ∨ v = var := by
  unfold pushNew
  split
  · next h =>
    refine ⟨Or.inl, ?_⟩
    rintro (h' | rfl)
    · exact h'
    · exact h
  · rw [List.mem_append, List.mem_singleton]

theorem mem_foldl_pushNew {new : List String} :
    v ∈ new.foldl pushNew vars ↔ v ∈ vars ∨ v ∈ new := by
  induction new generalizing vars with
  | nil => simp
  | cons w new ih => rw [List.foldl_cons, ih, mem_pushNew, List.mem_cons, or_assoc]

namespace Rule

/-- The clause that is meant. -/
def clause (r : Rule) : Clause String Leaf String String := ⟨r.head.atom, r.body.map Predicate.atom⟩

theorem mem_variables_iff {r : Rule} {v : String} :
    v ∈ r.variables ↔ r.head.atom.Mentions v ∨ ∃ p ∈ r.body, p.atom.Mentions v := by
  have hbody : ∀ (body : List Predicate) (vars : List String),
      v ∈ body.foldl (fun vars pred => pred.variables.foldl pushNew vars) vars ↔
        v ∈ vars ∨ ∃ p ∈ body, p.atom.Mentions v := by
    intro body
    induction body with
    | nil => simp
    | cons p body ih =>
      intro vars
      rw [List.foldl_cons, ih, mem_foldl_pushNew, Predicate.mem_variables_iff]
      simp [or_assoc]
  rw [Rule.variables, (List.perm_insertionSort (· ≤ ·) _).mem_iff, hbody,
    Predicate.mem_variables_iff]

end Rule

/-- The facts and the rules, as definite clauses. -/
def KnowledgeBase.program (kb : KnowledgeBase) : Set (Clause String Leaf String String) :=
  {c | (∃ p ∈ kb.facts, c = ⟨p.atom, []⟩) ∨ ∃ r ∈ kb.rules, c = r.clause}

end Ipfrs.Tensorlogic
