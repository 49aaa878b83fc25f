import Ipfrs.Tensorlogic.Reasoning

/-!
# Tabled evaluation

The second engine keeps the answers of every goal that it has solved in a table, under the name and
the number of arguments of the goal. A goal with an entry gets the answers of that entry, or none
while they are still being found, which is what ends a loop.

In contrast to the search of `InferenceEngine`, a goal is solved from the empty substitution: the
bindings so far are applied to it, for one level, and what is returned are the bindings of the goal
alone.
-/

namespace Ipfrs.Tensorlogic

structure TableEntry where
  goal : Predicate
  solutions : List Substitution
  complete : Bool
  depth : ℕ

/-- The `table`, a `HashMap<String, TableEntry>`. -/
abbrev Table := Finmap fun _ : String => TableEntry

/-- `TabledInferenceEngine`, the limits of it. Every query has a table of its own. -/
structure TabledInferenceEngine where
  maxDepth : ℕ
  maxSolutions : ℕ

namespace TabledInferenceEngine

def goalKey (goal : Predicate) : String := goal.name ++ "(" ++ toString goal.args.length ++ ")"

def renameRule (rule : Rule) (suffix : ℕ) : Rule where
  head := applySubstPredicate (renameSubst rule suffix) rule.head
  body := rule.body.map (applySubstPredicate (renameSubst rule suffix))

variable (engine : TabledInferenceEngine) (fuel : ℕ) (kb : KnowledgeBase)

/-- The loop over the facts in `solve_tabled`. -/
def solveFacts (goal : Predicate) :
    List Predicate → List Substitution → Option (List Substitution)
  | [], solutions => return solutions
  | fact :: facts, solutions => do
    match ← unifyPredicates fuel goal fact ∅ with
    | some newSubst =>
      let solutions := solutions ++ [newSubst]
      if solutions.length ≥ engine.maxSolutions then return solutions
      else solveFacts goal facts solutions
    | none => solveFacts goal facts solutions

/-- The loop over the rules in `solve_tabled`. -/
def solveRules
    (solveConjunction : List Predicate → Substitution → Table →
      Option (List Substitution × Table))
    (goal : Predicate) (depth : ℕ) :
    List Rule → List Substitution → Table → Option (List Substitution × Table)
  | [], solutions, table => return (solutions, table)
  | rule :: rules, solutions, table =>
    if solutions.length ≥ engine.maxSolutions then return (solutions, table)
    else do
      let renamedRule := renameRule rule depth
      match ← unifyPredicates fuel goal renamedRule.head ∅ with
      | some newSubst =>
        let (bodySolutions, table) ← solveConjunction renamedRule.body newSubst table
        solveRules solveConjunction goal depth rules (solutions ++ bodySolutions) table
      | none => solveRules solveConjunction goal depth rules solutions table

/-- The loop over the solutions of the first goal in `solve_conjunction`. -/
def solveRest (solveConjunction : Substitution → Table → Option (List Substitution × Table)) :
    List Substitution → List Substitution → Table → Option (List Substitution × Table)
  | [], allSolutions, table => return (allSolutions, table)
  | firstSubst :: firstSolutions, allSolutions, table => do
    let (restSolutions, table) ← solveConjunction firstSubst table
    let allSolutions := allSolutions ++ restSolutions
    if allSolutions.length ≥ engine.maxSolutions then return (allSolutions, table)
    else solveRest solveConjunction firstSolutions allSolutions table

/-- `solve_conjunction`, with `solve_tabled` for the depth that it works at. -/
def solveConjunction
    (solveTabled : Predicate → Substitution → Table → Option (List Substitution × Table)) :
    List Predicate → Substitution → Table → Option (List Substitution × Table)
  | [], subst, table => return ([subst], table)
  | first :: rest, subst, table => do
    let (firstSolutions, table) ← solveTabled first subst table
    engine.solveRest (solveConjunction solveTabled rest) firstSolutions [] table

/-- `solve_tabled`, with `levels` left: none are left when `depth` exceeds the limit. -/
def solveTabled : (levels depth : ℕ) → Predicate → Substitution → Table →
    Option (List Substitution × Table)
  | 0, _, _, _, table => return ([], table)
  | levels + 1, depth, goal, subst, table =>
    let goal := applySubstPredicate subst goal
    let key := goalKey goal
    match table.lookup key with
    | some entry => return (if entry.complete then entry.solutions else [], table)
    | none => do
      let entry : TableEntry :=
        { goal := goal, solutions := [], complete := false, depth := depth }
      -- the incomplete entry is what detects loops
      let table := table.insert key entry
      let solutions ← engine.solveFacts fuel goal (kb.getPredicates goal.name) []
      let (solutions, table) ←
        engine.solveRules fuel (engine.solveConjunction (solveTabled levels (depth + 1))) goal depth
          (kb.getRules goal.name) solutions table
      return (solutions, table.insert key { entry with solutions := solutions, complete := true })

def query (goal : Predicate) : Option (List Substitution) := do
  let (solutions, _) ← engine.solveTabled fuel kb (engine.maxDepth + 1) 0 goal ∅ ∅
  return solutions

end TabledInferenceEngine

end Ipfrs.Tensorlogic
