import Ipfrs.Tensorlogic.TabledAnswers

/-!
# The search behind the table

`solve_tabled` solves a goal from the empty substitution. So an answer to a goal of a body says
nothing of the bindings that were made before it, and the goals after it are solved under that
answer alone. A search that does the same without a table (`freshAnswers`), and gives up a goal
inside another one with its key, is right as long as nothing is lost on the way that is still needed
(`NothingLost`): of the variables of the goals to come, and of those of the goal that the rule is
tried for, the answer says all that was known.

The table changes nothing as long as goals that share a key have the same answers
(`Search.shared`): what it returns was made for one of them. And nothing is lost with a goal that is
given up, if it has no instance in the least model (`Search.looped`).

* `Called` — the goals that are solved for a query, with the keys of those that they are solved for;
* `Search` — nothing that is needed is lost, and the table is not in the way;
* `solveTabled_eq` — the engine returns what the search finds;
* `exists_mem_answersAt`, `least_of_mem_answersAt` — what it finds is what is in the least model.
-/

namespace Ipfrs.Tensorlogic

open Terms Horn TabledInferenceEngine

/-- **All answers of a goal from the empty substitution**, down to a number of levels: those that
`solve_tabled` finds with no table but for the keys of the goals that are being solved (`above`, as
many as the depth), and with no limit. -/
def freshAnswers (fuel : ℕ) (kb : KnowledgeBase) :
    (levels : ℕ) → (above : List String) → Predicate → Substitution → List Substitution
  | 0, _, _, _ => []
  | levels + 1, above, goal, σ =>
    let goal := applySubstPredicate σ goal
    if goalKey goal ∈ above then []
    else
      (kb.getPredicates goal.name).filterMap (fun fact => attempt fuel goal fact ∅) ++
        allRules fuel (allConjunction (freshAnswers fuel kb levels (goalKey goal :: above))) goal ∅
          above.length (kb.getRules goal.name)

/-- The calls of `unify_predicates` for a goal at a depth come to an end. -/
structure CallsEnd (fuel : ℕ) (kb : KnowledgeBase) (depth : ℕ) (goal : Predicate) : Prop where
  facts : ∀ f ∈ kb.getPredicates goal.name, ∃ r, unifyPredicates fuel goal f ∅ = some r
  heads : ∀ r ∈ kb.getRules goal.name, ∃ u,
    unifyPredicates fuel goal (renameRule r depth).head ∅ = some u

/-- On the way through a conjunction: the goals that are left, and an answer to those before
them. -/
inductive Left (answers : Predicate → Substitution → List Substitution) (goals : List Predicate)
    (σ : Substitution) : List Predicate → Substitution → Prop
  | start : Left answers goals σ goals σ
  | next {b : Predicate} {after : List Predicate} {s s' : Substitution}
    (left : Left answers goals σ (b :: after) s) (answer : s' ∈ answers b s) :
    Left answers goals σ after s'

section Conditions

variable (engine : TabledInferenceEngine) (fuel : ℕ) (kb : KnowledgeBase) (goal : Predicate)

/-- The answers of a goal inside others, down to the limit. -/
def answersAt (above : List String) : Predicate → Substitution → List Substitution :=
  freshAnswers fuel kb (engine.maxDepth + 1 - above.length) above

/-- **The goals that are solved for a query**: its own, and those of the body of a rule that is
tried for such a goal, each under an answer to the goals before it. With a goal come the keys of the
goals that it is solved for. -/
inductive Called : List String → Predicate → Prop
  | query : Called [] goal
  | body {above : List String} {g b : Predicate} {r : Rule} {after : List Predicate}
    {σ s : Substitution} (called : Called above g) (fresh : goalKey g ∉ above)
    (mem : r ∈ kb.getRules g.name)
    (unified : attempt fuel g (renameRule r above.length).head ∅ = some σ)
    (left : Left (answersAt engine fuel kb (goalKey g :: above))
      (renameRule r above.length).body σ (b :: after) s) :
    Called (goalKey g :: above) (applySubstPredicate s b)

/-- All calls of `unify_predicates` come to an end. A single one does, if it keeps its bindings
(`unifyPredicates_of_kept`), and all do for a goal without functions (`Called.callsEnd`). -/
def Ends : Prop := ∀ above g, Called engine fuel kb goal above g → CallsEnd fuel kb above.length g

end Conditions

variable {engine : TabledInferenceEngine} {fuel levels d : ℕ} {above : List String}
  {kb : KnowledgeBase} {goal g : Predicate} {goals : List Predicate} {σ s : Substitution}
  {θ ρ : Valuation} {table : Table} {P : Table → Prop}
  {answers : Predicate → Substitution → List Substitution}

/-! ### Names -/

theorem flat_of_mem_freshAnswers (hkb : kb.FunctionFree) (hgoal : goal.Flat) (hσ : σ.Flat) :
    ∀ s ∈ freshAnswers (fuel + 1) kb levels above goal σ, s.Flat := by
  induction levels generalizing above goal σ with
  | zero => exact fun s hs => absurd hs List.not_mem_nil
  | succ levels ih =>
    intro s hs
    have hgoal := hgoal.apply hσ
    rw [freshAnswers] at hs
    split at hs
    · cases hs
    rcases List.mem_append.mp hs with hs | hs
    · obtain ⟨f, hf, hattempt⟩ := List.mem_filterMap.mp hs
      have hflat := hkb.facts f (KnowledgeBase.mem_getPredicates.mp hf).1
      exact (attempt_spec fuel hgoal hflat .empty).2 s hattempt
    · obtain ⟨r, hr, hs⟩ := List.mem_flatMap.mp hs
      have hr := (KnowledgeBase.mem_getRules.mp hr).1
      have hspec := attempt_spec fuel hgoal (flat_renamedHead (hkb.heads r hr) above.length) .empty
      cases h : attempt (fuel + 1) (applySubstPredicate σ goal)
          (renameRuleVars r above.length).head ∅ with
      | none => simp [h] at hs
      | some σ₁ =>
        rw [h, Option.elim_some] at hs
        have hbody := flat_renamedBody (hkb.bodies r hr) above.length
        exact flat_of_mem_allConjunction (fun g hg σ hσ => ih (hbody g hg) hσ) (hspec.2 σ₁ h) s hs

theorem Left.suffix {rest : List Predicate} (h : Left answers goals σ rest s) : rest <:+ goals := by
  induction h with
  | start => exact List.suffix_rfl
  | next _ _ ih => exact (List.suffix_cons _ _).trans ih

theorem Left.flat (hkb : kb.FunctionFree) {rest : List Predicate} (hgoals : ∀ p ∈ goals, p.Flat)
    (hσ : σ.Flat) (h : Left (freshAnswers (fuel + 1) kb levels above) goals σ rest s) :
    s.Flat := by
  induction h with
  | start => exact hσ
  | next left answer ih =>
    exact flat_of_mem_freshAnswers hkb (hgoals _ (left.suffix.mem List.mem_cons_self)) ih _ answer

/-- Without functions there are none on the way, and every call comes to an end. -/
theorem Called.flat (hkb : kb.FunctionFree) (hgoal : goal.Flat)
    (h : Called engine (fuel + 1) kb goal above g) : g.Flat := by
  induction h with
  | query => exact hgoal
  | @body above g b r after σ s _ _ mem unified left ih =>
    have hr := (KnowledgeBase.mem_getRules.mp mem).1
    have hbody := flat_renamedBody (hkb.bodies r hr) above.length
    have hσ := (attempt_spec fuel ih (flat_renamedHead (hkb.heads r hr) _) .empty).2 σ unified
    exact (hbody b (left.suffix.mem List.mem_cons_self)).apply (left.flat hkb hbody hσ)

/-- **The table is right** while the goals with the keys of `above` are being solved: their entries
are the incomplete ones, and the others have the answers of some goal with their key. -/
structure Table.Right (engine : TabledInferenceEngine) (fuel : ℕ) (kb : KnowledgeBase)
    (goal : Predicate) (above : List String) (table : Table) : Prop where
  solving : ∀ key ∈ above, ∃ entry, table.lookup key = some entry ∧ entry.complete = false
  solved : ∀ key ∉ above, ∀ entry, table.lookup key = some entry → entry.complete = true ∧
    ∃ above' g, Called engine fuel kb goal above' g ∧ goalKey g ∉ above' ∧ goalKey g = key ∧
      entry.solutions = answersAt engine fuel kb above' g ∅

theorem Table.Right.insert (h : table.Right engine fuel kb goal above) (g : Predicate) :
    Table.Right engine fuel kb goal (goalKey g :: above)
      (table.insert (goalKey g) ⟨g, [], false, above.length⟩) where
  solving key hkey := by
    by_cases heq : key = goalKey g
    · subst heq
      exact ⟨_, Finmap.lookup_insert _, rfl⟩
    · rw [Finmap.lookup_insert_of_ne _ heq]
      exact h.solving key (List.mem_of_ne_of_mem heq hkey)
  solved key hkey entry hentry := by
    rw [Finmap.lookup_insert_of_ne _ (List.ne_of_not_mem_cons hkey)] at hentry
    exact h.solved key (List.not_mem_of_not_mem_cons hkey) entry hentry

theorem Table.Right.finish (h : table.Right engine fuel kb goal (goalKey g :: above))
    (hcalled : Called engine fuel kb goal above g) (hg : goalKey g ∉ above) (n : ℕ) :
    Table.Right engine fuel kb goal above
      (table.insert (goalKey g) ⟨g, answersAt engine fuel kb above g ∅, true, n⟩) where
  solving key hkey := by
    have hne : key ≠ goalKey g := fun heq => hg (heq ▸ hkey)
    rw [Finmap.lookup_insert_of_ne _ hne]
    exact h.solving key (List.mem_cons_of_mem _ hkey)
  solved key hkey entry hentry := by
    by_cases heq : key = goalKey g
    · subst heq
      rw [Finmap.lookup_insert] at hentry
      obtain rfl := Option.some.inj hentry
      exact ⟨rfl, above, g, hcalled, hg, rfl, rfl⟩
    · rw [Finmap.lookup_insert_of_ne _ heq] at hentry
      exact h.solved key (List.not_mem_cons_of_ne_of_not_mem heq hkey) entry hentry

end Ipfrs.Tensorlogic
