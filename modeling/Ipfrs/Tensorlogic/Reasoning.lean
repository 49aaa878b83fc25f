import Mathlib.Data.Finmap
import Ipfrs.Tensorlogic.Ir

/-!
# Backward chaining

The inference engine: unification, the search for answers, the search for a proof, and the check of
a proof. A substitution binds variables to terms that may contain bound variables again, and
`applySubstTerm` follows it for one level only, so what an answer says of a goal is read by applying
it until nothing changes.

`unify` looks at the arguments of terms that it has just followed bindings into, which is no
recursion over a term: with a substitution that has a cycle it never comes to an end. So it takes
`fuel`, and `none` is that the fuel did not last. The searches only hand it on. Their own recursion
is over the levels that are left until `depth` exceeds the limit.
-/

namespace Ipfrs.Tensorlogic

/-- `Substitution`, a `HashMap<String, Term>`. -/
abbrev Substitution := Finmap fun _ : String => Term

/-! ### Unification -/

mutual

def applySubstTerm (subst : Substitution) : Term → Term
  | .var v => (subst.lookup v).getD (.var v)
  | .func f args => .func f (applySubstTerms subst args)
  | .const c => .const c
  | .ref r => .ref r

/-- `apply_subst_term` for every argument. -/
def applySubstTerms (subst : Substitution) : List Term → List Term
  | [] => []
  | t :: ts => applySubstTerm subst t :: applySubstTerms subst ts

end

mutual

def occursIn (var : String) : Term → Bool
  | .var v => v = var
  | .func _ args => occursInAny var args
  | .const _ => false
  | .ref _ => false

/-- `occurs_in` for one of the arguments. -/
def occursInAny (var : String) : List Term → Bool
  | [] => false
  | t :: ts => occursIn var t || occursInAny var ts

end

/-- The branch of `unify` with a variable on one side: the variable is bound, also when it was bound
before. -/
def unifyVar (v : String) (t : Term) (subst : Substitution) : Option Substitution :=
  match t with
  | .var v2 => if v = v2 then some subst else some (subst.insert v t)
  | _ => if occursIn v t then none else some (subst.insert v t)

/-- The loop over the pairs of arguments, which all have to unify. -/
def unifyArgs (unify : Term → Term → Substitution → Option (Option Substitution)) :
    List (Term × Term) → Substitution → Option (Option Substitution)
  | [], subst => some (some subst)
  | (a1, a2) :: rest, subst => do
    match ← unify a1 a2 subst with
    | some newSubst => unifyArgs unify rest newSubst
    | none => return none

def unify : ℕ → Term → Term → Substitution → Option (Option Substitution)
  | 0, _, _, _ => none
  | fuel + 1, t1, t2, subst =>
    match applySubstTerm subst t1, applySubstTerm subst t2 with
    | .const c1, .const c2 => return if c1 = c2 then some subst else none
    | .var v, t => return unifyVar v t subst
    | t, .var v => return unifyVar v t subst
    | .func f1 args1, .func f2 args2 =>
      if f1 = f2 ∧ args1.length = args2.length then
        unifyArgs (unify fuel) (args1.zip args2) subst
      else return none
    | .ref r1, .ref r2 => return if r1.cid = r2.cid then some subst else none
    | _, _ => return none

def unifyPredicates (fuel : ℕ) (p1 p2 : Predicate) (subst : Substitution) :
    Option (Option Substitution) :=
  if p1.name ≠ p2.name ∨ p1.args.length ≠ p2.args.length then return none
  else unifyArgs (unify fuel) (p1.args.zip p2.args) subst

def applySubstPredicate (subst : Substitution) (pred : Predicate) : Predicate where
  name := pred.name
  args := pred.args.map (applySubstTerm subst)

/-- `format!("{}_{}", v, suffix)`. -/
def renamed (suffix : ℕ) (v : String) : String := v ++ "_" ++ toString suffix

/-- `rename_subst` of `rename_rule_vars`. -/
def renameSubst (rule : Rule) (suffix : ℕ) : Substitution :=
  rule.variables.foldl (fun subst v => subst.insert v (.var (renamed suffix v))) ∅

def renameRuleVars (rule : Rule) (suffix : ℕ) : Rule where
  head := applySubstPredicate (renameSubst rule suffix) rule.head
  body := rule.body.map (applySubstPredicate (renameSubst rule suffix))

/-! ### The searches -/

/-- `InferenceEngine`, the limits of it. -/
structure InferenceEngine where
  maxDepth : ℕ
  maxSolutions : ℕ

namespace InferenceEngine

variable (engine : InferenceEngine) (fuel : ℕ) (kb : KnowledgeBase)

/-- The loop over the facts in `solve_goal`. The flag says that the limit was reached, which ends
`solve_goal` itself. -/
def solveFacts (goal : Predicate) (subst : Substitution) :
    List Predicate → List Substitution → Option (List Substitution × Bool)
  | [], solutions => return (solutions, false)
  | fact :: facts, solutions => do
    match ← unifyPredicates fuel goal fact subst with
    | some newSubst =>
      let solutions := solutions ++ [newSubst]
      if solutions.length ≥ engine.maxSolutions then return (solutions, true)
      else solveFacts goal subst facts solutions
    | none => solveFacts goal subst facts solutions

/-- `solve_conjunction`, with `solve_goal` for the depth that it works at. A solution is added for
an empty conjunction even at the limit. -/
def solveConjunction
    (solveGoal : Predicate → Substitution → List Substitution → Option (List Substitution)) :
    List Predicate → Substitution → List Substitution → Option (List Substitution)
  | [], subst, solutions => return solutions ++ [subst]
  | first :: rest, subst, solutions => do
    let intermediate ← solveGoal first subst []
    -- the loop returns at the limit, and at the limit nothing that follows adds a solution
    intermediate.foldlM (fun solutions subst =>
      if solutions.length ≥ engine.maxSolutions then return solutions
      else solveConjunction solveGoal rest subst solutions) solutions

/-- The loop over the rules in `solve_goal`. -/
def solveRules
    (solveConjunction : List Predicate → Substitution → List Substitution →
      Option (List Substitution))
    (goal : Predicate) (subst : Substitution) (depth : ℕ) :
    List Rule → List Substitution → Option (List Substitution)
  | [], solutions => return solutions
  | rule :: rules, solutions => do
    let rule := renameRuleVars rule depth
    match ← unifyPredicates fuel goal rule.head subst with
    | some newSubst =>
      let solutions ← solveConjunction rule.body newSubst solutions
      solveRules solveConjunction goal subst depth rules solutions
    | none => solveRules solveConjunction goal subst depth rules solutions

/-- `solve_goal`, with `levels` left: none are left when `depth` exceeds the limit. -/
def solveGoal : (levels depth : ℕ) → Predicate → Substitution → List Substitution →
    Option (List Substitution)
  | 0, _, _, _, solutions => return solutions
  | levels + 1, depth, goal, subst, solutions =>
    if solutions.length ≥ engine.maxSolutions then return solutions
    else do
      let goal := applySubstPredicate subst goal
      let (solutions, full) ←
        engine.solveFacts fuel goal subst (kb.getPredicates goal.name) solutions
      if full then return solutions
      else
        solveRules fuel (engine.solveConjunction (solveGoal levels (depth + 1))) goal subst depth
          (kb.getRules goal.name) solutions

def query (goal : Predicate) : Option (List Substitution) :=
  engine.solveGoal fuel kb (engine.maxDepth + 1) 0 goal ∅ []

end InferenceEngine

/-! ### Proofs -/

structure ProofRule where
  head : Predicate
  body : List Predicate
  isFact : Bool

structure Proof where
  goal : Predicate
  rule : Option ProofRule
  subproofs : List Proof

def Proof.fact (goal : Predicate) : Proof where
  goal := goal
  rule := some { head := goal, body := [], isFact := true }
  subproofs := []

def Proof.fromRule (goal : Predicate) (rule : Rule) (subproofs : List Proof) : Proof where
  goal := goal
  rule := some { head := rule.head, body := rule.body, isFact := false }
  subproofs := subproofs

/-- One of the facts unifies with the goal, under the substitution. -/
def anyUnifies (fuel : ℕ) (goal : Predicate) (subst : Substitution) : List Predicate → Option Bool
  | [] => return false
  | fact :: facts => do
    match ← unifyPredicates fuel goal fact subst with
    | some _ => return true
    | none => anyUnifies fuel goal subst facts

namespace InferenceEngine

variable (engine : InferenceEngine) (fuel : ℕ) (kb : KnowledgeBase)

/-- `prove_conjunction`, with `prove_goal` for the depth that it works at. Every goal is proved
under the same substitution. -/
def proveConjunction (proveGoal : Predicate → Substitution → Option (Option Proof)) :
    List Predicate → Substitution → Option (Option (List Proof))
  | [], _ => return some []
  | first :: rest, subst => do
    match ← proveGoal first subst with
    | none => return none
    | some firstProof =>
      match ← proveConjunction proveGoal rest subst with
      | none => return none
      | some restProofs => return some (firstProof :: restProofs)

/-- The loop over the rules in `prove_goal`. -/
def proveRules
    (proveConjunction : List Predicate → Substitution → Option (Option (List Proof)))
    (goal : Predicate) (subst : Substitution) (depth : ℕ) : List Rule → Option (Option Proof)
  | [] => return none
  | rule :: rules => do
    let rule := renameRuleVars rule depth
    match ← unifyPredicates fuel goal rule.head subst with
    | none => proveRules proveConjunction goal subst depth rules
    | some newSubst =>
      match ← proveConjunction rule.body newSubst with
      | some subproofs => return some (.fromRule goal rule subproofs)
      | none => proveRules proveConjunction goal subst depth rules

/-- `prove_goal`, with `levels` left. -/
def proveGoal : (levels depth : ℕ) → Predicate → Substitution → Option (Option Proof)
  | 0, _, _, _ => return none
  | levels + 1, depth, goal, subst => do
    let goal := applySubstPredicate subst goal
    if ← anyUnifies fuel goal subst (kb.getPredicates goal.name) then return some (.fact goal)
    else
      proveRules fuel (proveConjunction (proveGoal levels (depth + 1))) goal subst depth
        (kb.getRules goal.name)

def prove (goal : Predicate) : Option (Option Proof) :=
  proveGoal fuel kb (engine.maxDepth + 1) 0 goal ∅

/-- `bodies_match`, and that the heads match: names and numbers of arguments agree. -/
def sameShape (kbRule : Rule) (rule : ProofRule) : Bool :=
  kbRule.head.name = rule.head.name && kbRule.head.args.length = rule.head.args.length &&
    kbRule.body.length = rule.body.length &&
    (kbRule.body.zip rule.body).all fun (b1, b2) =>
      b1.name = b2.name && b1.args.length = b2.args.length

/-- The loop over the subproofs in `verify_proof_recursive`, side by side with the rule's body. -/
def verifySubproofs (verify : Proof → Option Bool) : List Proof → List Predicate → Option Bool
  | subproof :: subproofs, bodyPredicate :: body =>
    if subproof.goal.name ≠ bodyPredicate.name then return false
    else do
      if ← verify subproof then verifySubproofs verify subproofs body else return false
  | _, _ => return true

/-- `verify_proof_recursive`, with `levels` left. -/
def verifyProofRecursive : (levels : ℕ) → Proof → Option Bool
  | 0, _ => return false
  | levels + 1, proof =>
    match proof.rule with
    | none => return false
    | some rule =>
      if rule.isFact then
        anyUnifies fuel proof.goal ∅ (kb.getPredicates proof.goal.name)
      else if !(kb.getRules proof.goal.name).any (sameShape · rule) then return false
      else if proof.subproofs.length ≠ rule.body.length then return false
      else verifySubproofs (verifyProofRecursive levels) proof.subproofs rule.body

def verify (proof : Proof) : Option Bool :=
  verifyProofRecursive fuel kb (engine.maxDepth + 1) proof

end InferenceEngine

end Ipfrs.Tensorlogic
