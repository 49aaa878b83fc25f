import Ipfrs.Lib.Layering
import Ipfrs.Tensorlogic.ComputationGraph
import Ipfrs.Tensorlogic.Ir

/-!
# Stratification

`StratificationAnalyzer` (`ipfrs-tensorlogic/src/recursive_reasoning.rs`): the graph of which
predicate depends on which, a search for a cycle in it, and otherwise strata.

A hash set is a list of its members, each once, and a hash map a map to them; the orders in which
they are gone through are open (`StratificationOrder`). The search and the layers are those of
`CycleSearch` and `Layering`.

* `analyze_fresh` — a fresh analyzer finds a cycle if and only if there is one, and otherwise
  returns strata, in which every head of a rule is above what it depends on.
-/

namespace Ipfrs.Tensorlogic

open Relation

inductive StratificationResult where
  | stratifiable (strata : List (List String))
  | nonStratifiable
  deriving DecidableEq, Repr

structure StratificationAnalyzer where
  dependencies : AList fun _ : String => List String

/-- The orders of the hash maps and sets: the names of the heads, the keys of the dependencies, the
dependencies of a predicate, and what remains for each stratum. -/
structure StratificationOrder where
  predicateNames : HashOrder
  dependencies : HashOrder
  neighbors : String → HashOrder
  remaining : ℕ → HashOrder

namespace StratificationAnalyzer

def new : StratificationAnalyzer := ⟨∅⟩

/-- The dependencies of one rule. -/
def addRule (dependencies : AList fun _ : String => List String) (rule : Rule) :
    AList fun _ : String => List String :=
  let deps := (rule.body.map Predicate.name).dedup
  dependencies.insert rule.head.name ((dependencies.lookup rule.head.name).getD [] ∪ deps)

section Analyze

variable (order : StratificationOrder)

variable (analyzer : StratificationAnalyzer)

def buildDependencyGraph (kb : KnowledgeBase) : StratificationAnalyzer :=
  let predicateNames := (kb.rules.map fun r => r.head.name).dedup
  { dependencies := (order.predicateNames.arrange predicateNames).foldl
      (fun dependencies predicateName =>
        (kb.getRules predicateName).foldl addRule dependencies)
      analyzer.dependencies }

/-- The dependencies of a predicate. A predicate without an entry has none. -/
def neighbors (node : String) : List String :=
  (analyzer.dependencies.lookup node).getD []

/-- `has_cycle_util`, with at most `fuel` calls inside each other. -/
def hasCycleUtil (fuel : ℕ) (node : String) (marks : CycleSearch.Marks String) :
    Option (Bool × CycleSearch.Marks String) :=
  CycleSearch.search (fun node => (order.neighbors node).arrange (analyzer.neighbors node)) fuel
    node marks

def hasCycles (fuel : ℕ) : Option Bool :=
  (CycleSearch.searchList (analyzer.hasCycleUtil order fuel)
    (order.dependencies.arrange analyzer.dependencies.keys) .empty).map Prod.fst

/-- `compute_strata`, with at most `fuel` rounds of its loop, and whether the loop was left by its
`break`. -/
def computeStrata (fuel : ℕ) : Option (List (List String) × Bool) :=
  WhileLoop.run (Layering.step analyzer.neighbors fun n => (order.remaining n).arrange) fuel
    { layers := [], remaining := analyzer.dependencies.keys }

def analyze (fuel : ℕ) (kb : KnowledgeBase) :
    Option (StratificationAnalyzer × StratificationResult) := do
  let analyzer := analyzer.buildDependencyGraph order kb
  if ← analyzer.hasCycles order fuel then return (analyzer, .nonStratifiable)
  else
    let (strata, _) ← analyzer.computeStrata order fuel
    return (analyzer, .stratifiable strata)

end Analyze

/-! ### The dependencies of the rules -/

/-- A rule for `p` has `q` in its body. -/
def DependsOn (kb : KnowledgeBase) (p q : String) : Prop :=
  ∃ rule ∈ kb.rules, rule.head.name = p ∧ ∃ b ∈ rule.body, b.name = q

/-- There is a rule for `p`. -/
def IsHead (kb : KnowledgeBase) (p : String) : Prop := ∃ rule ∈ kb.rules, rule.head.name = p

theorem DependsOn.isHead {kb : KnowledgeBase} {p q : String} (h : DependsOn kb p q) :
    IsHead kb p := by
  obtain ⟨rule, hrule, hhead, -⟩ := h
  exact ⟨rule, hrule, hhead⟩

/-- The map holds what these rules say. -/
structure Holds (rules : List Rule) (dependencies : AList fun _ : String => List String) :
    Prop where
  mem_keys : ∀ p, p ∈ dependencies ↔ ∃ rule ∈ rules, rule.head.name = p
  mem_lookup : ∀ p q, q ∈ (dependencies.lookup p).getD [] ↔
    ∃ rule ∈ rules, rule.head.name = p ∧ ∃ b ∈ rule.body, b.name = q

namespace Holds

variable {rules : List Rule} {dependencies : AList fun _ : String => List String}

theorem empty : Holds [] ∅ where
  mem_keys p := by simp
  mem_lookup p q := by simp

theorem addRule (h : Holds rules dependencies) (rule : Rule) :
    Holds (rules ++ [rule]) (addRule dependencies rule) where
  mem_keys p := by
    rw [StratificationAnalyzer.addRule, AList.mem_insert, h.mem_keys]
    simp [or_and_right, exists_or, or_comm, eq_comm]
  mem_lookup p q := by
    rw [StratificationAnalyzer.addRule]
    by_cases hp : p = rule.head.name
    · subst hp
      rw [AList.lookup_insert, Option.getD_some, List.mem_union_iff, h.mem_lookup]
      simp [or_and_right, exists_or]
    · rw [AList.lookup_insert_ne hp, h.mem_lookup]
      simp [or_and_right, exists_or, Ne.symm hp]

theorem addRules (h : Holds rules dependencies) (more : List Rule) :
    Holds (rules ++ more) (more.foldl StratificationAnalyzer.addRule dependencies) := by
  induction more generalizing rules dependencies with
  | nil => rwa [List.append_nil]
  | cons rule more ih =>
    rw [List.append_cons]
    exact ih (h.addRule rule)

theorem congr (h : Holds rules dependencies) {rules' : List Rule}
    (hrules : ∀ rule, rule ∈ rules' ↔ rule ∈ rules) : Holds rules' dependencies where
  mem_keys p := by simp only [hrules, h.mem_keys]
  mem_lookup p q := by simp only [hrules, h.mem_lookup]

end Holds

/-! ### What the analyzer returns -/

/-- Strata: every head of a rule is in one of them, once, and what it depends on, directly or not,
is in one below, as far as it is a head. -/
structure Strata (kb : KnowledgeBase) (strata : List (List String)) : Prop where
  nodup : strata.flatten.Nodup
  mem_iff : ∀ p, p ∈ strata.flatten ↔ IsHead kb p
  below : ∀ (i : ℕ) stratum p q, strata[i]? = some stratum → p ∈ stratum → IsHead kb q →
    TransGen (DependsOn kb) p q → ∃ j < i, ∃ lower, strata[j]? = some lower ∧ q ∈ lower

section Analyze

variable {order : StratificationOrder} {kb : KnowledgeBase} {analyzer : StratificationAnalyzer}

/-- The analyzer has the dependencies of the rules. -/
def Analyzes (kb : KnowledgeBase) (analyzer : StratificationAnalyzer) : Prop :=
  Holds kb.rules analyzer.dependencies

/-- **The graph that a fresh analyzer builds** is that of the rules. -/
theorem analyzes_buildDependencyGraph (order : StratificationOrder) (kb : KnowledgeBase) :
    Analyzes kb (new.buildDependencyGraph order kb) := by
  have hgroups : ∀ (names : List String) (rules : List Rule) dependencies,
      Holds rules dependencies →
      Holds (rules ++ names.flatMap kb.getRules)
        (names.foldl (fun dependencies name =>
          (kb.getRules name).foldl StratificationAnalyzer.addRule dependencies) dependencies) := by
    intro names
    induction names with
    | nil =>
      intro rules dependencies h
      rwa [List.flatMap_nil, List.append_nil]
    | cons name names ih =>
      intro rules dependencies h
      rw [List.flatMap_cons, ← List.append_assoc]
      exact ih _ _ (h.addRules (kb.getRules name))
  refine (hgroups _ [] _ .empty).congr fun rule => ?_
  rw [List.nil_append, List.mem_flatMap]
  constructor
  · intro hrule
    -- every rule is in the group of its head
    refine ⟨rule.head.name, ?_, KnowledgeBase.mem_getRules.mpr ⟨hrule, rfl⟩⟩
    rw [(order.predicateNames.perm _).mem_iff, List.mem_dedup]
    exact List.mem_map_of_mem hrule
  · rintro ⟨name, -, hrule⟩
    exact (KnowledgeBase.mem_getRules.mp hrule).1

theorem Analyzes.mem_neighbors (h : Analyzes kb analyzer) {p q : String} :
    q ∈ analyzer.neighbors p ↔ DependsOn kb p q :=
  h.mem_lookup p q

theorem Analyzes.mem_keys (h : Analyzes kb analyzer) {p : String} :
    p ∈ analyzer.dependencies.keys ↔ IsHead kb p := by
  rw [← AList.mem_keys]
  exact Holds.mem_keys h p

theorem Analyzes.edge_iff (h : Analyzes kb analyzer) {p q : String} :
    CycleSearch.Edge (fun node => (order.neighbors node).arrange (analyzer.neighbors node)) p q ↔
      DependsOn kb p q := by
  rw [CycleSearch.Edge, ((order.neighbors p).perm _).mem_iff, h.mem_neighbors]

/-- **The search for a cycle** ends, and is right. -/
theorem Analyzes.hasCycles (h : Analyzes kb analyzer) (order : StratificationOrder) :
    ∃ bound, ∀ fuel, bound ≤ fuel → ∃ found, analyzer.hasCycles order fuel = some found ∧
      (found = true ↔ ∃ p, TransGen (DependsOn kb) p p) := by
  have hedge : CycleSearch.Edge
      (fun node => (order.neighbors node).arrange (analyzer.neighbors node)) = DependsOn kb := by
    funext p q
    exact propext h.edge_iff
  -- the heads and what they depend on
  let U := (analyzer.dependencies.keys ++
    analyzer.dependencies.keys.flatMap analyzer.neighbors).toFinset
  have hU : ∀ p q, DependsOn kb p q → q ∈ U := by
    intro p q hpq
    refine List.mem_toFinset.mpr (List.mem_append_right _ (List.mem_flatMap.mpr ?_))
    exact ⟨p, h.mem_keys.mpr hpq.isHead, h.mem_neighbors.mpr hpq⟩
  have hkeys : ∀ p ∈ order.dependencies.arrange analyzer.dependencies.keys, p ∈ U := by
    intro p hp
    exact List.mem_toFinset.mpr
      (List.mem_append_left _ ((order.dependencies.perm _).mem_iff.mp hp))
  refine ⟨U.card + 1, fun fuel hfuel => ?_⟩
  obtain ⟨found, hfound⟩ := CycleSearch.exists_searchAll
    (fun p _ q hq => hU p q (h.edge_iff.mp hq)) hkeys hfuel
  refine ⟨found, hfound, ?_⟩
  cases found with
  | true =>
    have hcycle := CycleSearch.searchAll_true hfound
    rw [hedge] at hcycle
    exact iff_of_true rfl hcycle
  | false =>
    refine iff_of_false Bool.false_ne_true ?_
    rintro ⟨p, hcycle⟩
    -- what is on a cycle is the head of a rule
    obtain ⟨q, hpq, -⟩ := TransGen.head'_iff.mp hcycle
    have hstart : p ∈ order.dependencies.arrange analyzer.dependencies.keys :=
      (order.dependencies.perm _).mem_iff.mpr (h.mem_keys.mpr hpq.isHead)
    have hnone := CycleSearch.searchAll_false hfound hstart .refl
    rw [hedge] at hnone
    exact hnone hcycle

theorem Analyzes.strata (h : Analyzes kb analyzer) {strata : List (List String)}
    (hlayered : Layering.Layered analyzer.neighbors analyzer.dependencies.keys strata) :
    Strata kb strata where
  nodup := hlayered.perm.nodup_iff.mpr analyzer.dependencies.nodupKeys
  mem_iff p := by rw [hlayered.perm.mem_iff, h.mem_keys]
  below i stratum p q hi hp hq hpath := by
    induction hpath using TransGen.head_induction_on generalizing i stratum with
    | single hedge =>
      exact hlayered.below i stratum hi _ hp q (h.mem_neighbors.mpr hedge) (h.mem_keys.mpr hq)
    | head hedge hpath ih =>
      -- what is on the way depends on something, so it is a head
      obtain ⟨r, hr, -⟩ := TransGen.head'_iff.mp hpath
      obtain ⟨j, hj, lower, hlower, hmem⟩ := hlayered.below i stratum hi _ hp _
        (h.mem_neighbors.mpr hedge) (h.mem_keys.mpr hr.isHead)
      obtain ⟨k, hk, lowest, hlowest, hmem'⟩ := ih j lower hlower hmem
      exact ⟨k, hk.trans hj, lowest, hlowest, hmem'⟩

/-- **The layers** end without the `break` when there is no cycle. -/
theorem Analyzes.computeStrata (h : Analyzes kb analyzer) (order : StratificationOrder)
    (hacyclic : ¬ ∃ p, TransGen (DependsOn kb) p p) {fuel : ℕ}
    (hfuel : analyzer.dependencies.keys.length + 1 ≤ fuel) :
    ∃ strata, analyzer.computeStrata order fuel = some (strata, false) ∧ Strata kb strata := by
  have hedge : Layering.Edge analyzer.neighbors = DependsOn kb := by
    funext p q
    exact propext h.mem_neighbors
  have hfree : ∀ p ∈ analyzer.dependencies.keys,
      ¬ TransGen (Layering.Edge analyzer.neighbors) p p := by
    intro p _ hcycle
    rw [hedge] at hcycle
    exact hacyclic ⟨p, hcycle⟩
  obtain ⟨strata, hrun, hlayered⟩ :=
    Layering.exists_layers (fun n l => (order.remaining n).perm l) hfree
  exact ⟨strata, WhileLoop.run_mono hfuel hrun, h.strata hlayered⟩

/-- **Stratification.** For every knowledge base and whatever the orders of the hash maps, a fresh
analyzer returns `NonStratifiable` if and only if some predicate depends on itself, directly or not.
Otherwise it returns strata, and its loop is not left by the `break`. -/
theorem analyze_fresh (order : StratificationOrder) (kb : KnowledgeBase) :
    ∃ bound, ∀ fuel, bound ≤ fuel → ∃ analyzer result,
      new.analyze order fuel kb = some (analyzer, result) ∧
      (result = .nonStratifiable ↔ ∃ p, TransGen (DependsOn kb) p p) ∧
      ∀ strata, result = .stratifiable strata →
        Strata kb strata ∧ analyzer.computeStrata order fuel = some (strata, false) := by
  have h := analyzes_buildDependencyGraph order kb
  set analyzer := new.buildDependencyGraph order kb with hanalyzer
  obtain ⟨bound, hbound⟩ := h.hasCycles order
  refine ⟨max bound (analyzer.dependencies.keys.length + 1), fun fuel hfuel => ?_⟩
  obtain ⟨found, hfound, hcycle⟩ := hbound fuel ((le_max_left _ _).trans hfuel)
  unfold analyze
  dsimp only
  rw [← hanalyzer, hfound]
  cases found with
  | true => exact ⟨analyzer, _, rfl, iff_of_true rfl (hcycle.mp rfl), nofun⟩
  | false =>
    have hacyclic : ¬ ∃ p, TransGen (DependsOn kb) p p := fun hp => by cases hcycle.mpr hp
    obtain ⟨strata, hrun, hstrata⟩ :=
      h.computeStrata order hacyclic ((le_max_right _ _).trans hfuel)
    refine ⟨analyzer, .stratifiable strata, ?_, iff_of_false nofun hacyclic, ?_⟩
    · change (analyzer.computeStrata order fuel).bind _ = _
      rw [hrun]
      rfl
    · rintro _ ⟨⟩
      exact ⟨hstrata, hrun⟩

end Analyze

end StratificationAnalyzer

end Ipfrs.Tensorlogic
