import Ipfrs.Lib.AssocMap
import Ipfrs.Lib.Derivation

/-!
# Verifying proof trees

The `ProofVerifier` of the tensor logic crate (`ipfrs-tensorlogic/src/proof_verifier.rs`): a
depth-first search from the root of a proof that checks every rule application, gives up on a cycle,
and remembers the verdict on each node under its id.

What is remembered outlives the proof and the rules that it is about, so a verdict can depend on the
calls before it (`not_forall_sameVerdict`).

* `verifyNode_spec` — with a correct memory, a node is verified if and only if it can be derived;
* `Run.sameVerdict` — the verdict is that of a fresh verifier if, in every call, what the proof
  reaches is as valid there as it was in the earlier calls that reached it (`Agrees`).
-/

namespace Ipfrs.Tensorlogic

open Derivation Relation

inductive VerificationError where
  | unknownRule (ruleId : String)
  | goalMismatch (nodeId : UInt64) (expected actual : String)
  | premiseMismatch (nodeId : UInt64) (index : ℕ)
  | cyclicProof (nodeId : UInt64)
  | emptyProof
  deriving DecidableEq, Repr

structure VerificationResult where
  verified : Bool
  nodesChecked : ℕ
  nodesMemoized : ℕ
  maxDepth : ℕ
  errors : List VerificationError
  deriving DecidableEq

def VerificationResult.isValid (r : VerificationResult) : Bool := r.verified && r.errors.isEmpty

structure ProofNode where
  nodeId : UInt64
  ruleId : String
  goal : String
  premiseIds : List UInt64
  depth : ℕ
  deriving DecidableEq

structure RuleSpec where
  ruleId : String
  headPattern : String
  arity : ℕ
  deriving DecidableEq

/-- `str::starts_with`. -/
def startsWith (s pattern : String) : Bool := pattern.toList.isPrefixOf s.toList

structure ProofVerifier where
  rules : AList fun _ : String => RuleSpec
  memo : AList fun _ : UInt64 => Bool
  inProgress : Finset UInt64

/-- The nodes of a proof by their ids. -/
abbrev NodeMap := AList fun _ : UInt64 => ProofNode

/-- What `verify_node` works on: the verifier, and what it counts and collects. -/
structure Traversal where
  verifier : ProofVerifier
  errors : List VerificationError
  nodesChecked : ℕ
  nodesMemoized : ℕ
  maxDepth : ℕ

namespace Traversal

variable (t : Traversal)

/-- An error is collected. -/
def report (e : VerificationError) : Traversal :=
  { t with errors := t.errors ++ [e] }

/-- The verdict on a node is remembered. -/
def remember (nodeId : UInt64) (ok : Bool) : Traversal :=
  { t with verifier := { t.verifier with memo := t.verifier.memo.insert nodeId ok } }

/-- A node is in progress. -/
def enter (node : ProofNode) (nodeId : UInt64) : Traversal :=
  { t with
    verifier := { t.verifier with inProgress := insert nodeId t.verifier.inProgress }
    nodesChecked := t.nodesChecked + 1
    maxDepth := max t.maxDepth node.depth }

/-- A node is not in progress any more. -/
def leave (nodeId : UInt64) : Traversal :=
  { t with
    verifier := { t.verifier with inProgress := t.verifier.inProgress.erase nodeId } }

end Traversal

/-- The loop over the premises in `verify_node`. -/
def checkPremises (visit : UInt64 → Traversal → Option (Bool × Traversal)) (nodeMap : NodeMap)
    (nodeId : UInt64) : List (UInt64 × ℕ) → Bool → Traversal → Option (Bool × Traversal)
  | [], allOk, t => some (allOk, t)
  | (premiseId, i) :: premises, allOk, t =>
    if premiseId ∈ nodeMap then
      match visit premiseId t with
      | none => none
      | some (premiseOk, t) => checkPremises visit nodeMap nodeId premises (allOk && premiseOk) t
    else
      checkPremises visit nodeMap nodeId premises false (t.report (.premiseMismatch nodeId i))

/-- `verify_node`. The first argument bounds the depth of the recursion, and `none` says that it was
too small. -/
def verifyNode (nodeMap : NodeMap) : ℕ → UInt64 → Traversal → Option (Bool × Traversal)
  | 0, _, _ => none
  | fuel + 1, nodeId, t =>
    if nodeId ∈ t.verifier.inProgress then some (false, t.report (.cyclicProof nodeId))
    else
      match t.verifier.memo.lookup nodeId with
      | some cached => some (cached, { t with nodesMemoized := t.nodesMemoized + 1 })
      | none =>
        match nodeMap.lookup nodeId with
        | none => some (false, (t.report (.premiseMismatch nodeId 0)).remember nodeId false)
        | some node =>
          let t := t.enter node nodeId
          match t.verifier.rules.lookup node.ruleId with
          | none =>
            some (false, ((t.report (.unknownRule node.ruleId)).leave nodeId).remember nodeId false)
          | some rule =>
            if ¬ startsWith node.goal rule.headPattern then
              some (false,
                ((t.report (.goalMismatch nodeId rule.headPattern node.goal)).leave
                  nodeId).remember nodeId false)
            else if node.premiseIds.length ≠ rule.arity then
              some (false,
                ((t.report (.premiseMismatch nodeId (min node.premiseIds.length rule.arity))).leave
                  nodeId).remember nodeId false)
            else
              match checkPremises (verifyNode nodeMap fuel) nodeMap nodeId
                node.premiseIds.zipIdx true t with
              | none => none
              | some (allOk, t) => some (allOk, (t.leave nodeId).remember nodeId allOk)

/-- The lookup map that `verify` builds. -/
def nodeMap (nodes : List ProofNode) : NodeMap :=
  nodes.foldl (fun m node => m.insert node.nodeId node) ∅

/-- The root that `verify` finds: the only node that is no premise, or the first node. -/
def rootId (first : ProofNode) (rest : List ProofNode) : UInt64 :=
  let nodes := first :: rest
  let allPremiseIds := nodes.flatMap ProofNode.premiseIds
  match (nodes.map ProofNode.nodeId).filter (· ∉ allPremiseIds) with
  | [id] => id
  | _ => first.nodeId

namespace ProofVerifier

def new : ProofVerifier := ⟨∅, ∅, ∅⟩

def registerRule (v : ProofVerifier) (spec : RuleSpec) : ProofVerifier :=
  { v with rules := v.rules.insert spec.ruleId spec }

def verify (v : ProofVerifier) : List ProofNode → Option (VerificationResult × ProofVerifier)
  | [] => some (⟨false, 0, 0, 0, [.emptyProof]⟩, v)
  | first :: rest =>
    match verifyNode (nodeMap (first :: rest)) ((first :: rest).length + 1) (rootId first rest)
      ⟨v, [], 0, 0, 0⟩ with
    | none => none
    | some (ok, t) =>
      some (⟨ok, t.nodesChecked, t.nodesMemoized, t.maxDepth, t.errors⟩,
        { t.verifier with inProgress := ∅ })

def clearMemo (v : ProofVerifier) : ProofVerifier := { v with memo := ∅, inProgress := ∅ }

end ProofVerifier

/-! ### What a proof is -/

/-- The premises of a node that passes its own checks: there is a rule, the goal has the rule's
pattern, and the number of premises is the rule's. -/
def premises (rules : AList fun _ : String => RuleSpec) (nodeMap : NodeMap) (nodeId : UInt64) :
    Option (List UInt64) :=
  match nodeMap.lookup nodeId with
  | none => none
  | some node =>
    match rules.lookup node.ruleId with
    | none => none
    | some rule =>
      if startsWith node.goal rule.headPattern ∧ node.premiseIds.length = rule.arity then
        some node.premiseIds
      else none

section Search

variable {rules : AList fun _ : String => RuleSpec} {nodeMap : NodeMap} {root nodeId : UInt64}
  {t t' t'' : Traversal} {fuel : ℕ} {ok : Bool}

/-- A node that the search comes to: a node of the proof under the root, below nodes that pass their
own checks. -/
def Reaches (rules : AList fun _ : String => RuleSpec) (nodeMap : NodeMap) (root : UInt64)
    (nodeId : UInt64) : Prop :=
  ReflTransGen (Edge (premises rules nodeMap)) root nodeId ∧ nodeId ∈ nodeMap

/-- What is remembered of the nodes that the search comes to is right. -/
def Correct (rules : AList fun _ : String => RuleSpec) (nodeMap : NodeMap) (root : UInt64)
    (memo : AList fun _ : UInt64 => Bool) : Prop :=
  ∀ nodeId ok, Reaches rules nodeMap root nodeId → memo.lookup nodeId = some ok →
    (ok = true ↔ Derivable (premises rules nodeMap) nodeId)

/-- What a part of the search leaves as it is: the rules and the path. It remembers nothing but what
is right of nodes that it comes to. -/
structure Preserves (rules : AList fun _ : String => RuleSpec) (nodeMap : NodeMap) (root : UInt64)
    (t t' : Traversal) : Prop where
  sameRules : t'.verifier.rules = t.verifier.rules
  inProgress : t'.verifier.inProgress = t.verifier.inProgress
  memo : ∀ nodeId ok, t'.verifier.memo.lookup nodeId = some ok →
    t.verifier.memo.lookup nodeId = some ok ∨
      Reaches rules nodeMap root nodeId ∧ (ok = true ↔ Derivable (premises rules nodeMap) nodeId)

theorem Preserves.of_eq (h : t'.verifier = t.verifier) : Preserves rules nodeMap root t t' := by
  refine ⟨by rw [h], by rw [h], fun nodeId ok hmemo => Or.inl ?_⟩
  rwa [← h]

theorem Preserves.trans (h : Preserves rules nodeMap root t t')
    (h' : Preserves rules nodeMap root t' t'') : Preserves rules nodeMap root t t'' where
  sameRules := h'.sameRules.trans h.sameRules
  inProgress := h'.inProgress.trans h.inProgress
  memo nodeId ok hmemo := (h'.memo nodeId ok hmemo).elim (h.memo nodeId ok) Or.inr

theorem Correct.preserves (h : Correct rules nodeMap root t.verifier.memo)
    (hpreserves : Preserves rules nodeMap root t t') :
    Correct rules nodeMap root t'.verifier.memo := by
  intro nodeId ok hreaches hmemo
  obtain hold | ⟨-, hiff⟩ := hpreserves.memo nodeId ok hmemo
  · exact h nodeId ok hreaches hold
  · exact hiff

/-- A part of the search for a statement. -/
structure Searched (rules : AList fun _ : String => RuleSpec) (nodeMap : NodeMap) (root : UInt64)
    (t : Traversal) (holds : Prop) (ok : Bool) (t' : Traversal) : Prop
    extends Preserves rules nodeMap root t t' where
  verdict : ok = true ↔ holds
  errors : ok = true → t'.errors = t.errors

/-- Where a search may begin: on the way from the root, with a correct memory, on a path that has
led here. -/
structure Ready (rules : AList fun _ : String => RuleSpec) (nodeMap : NodeMap) (root : UInt64)
    (fuel : ℕ) (nodeId : UInt64) (t : Traversal) : Prop where
  sameRules : t.verifier.rules = rules
  correct : Correct rules nodeMap root t.verifier.memo
  reaches : Reaches rules nodeMap root nodeId
  path : ∀ id ∈ t.verifier.inProgress, TransGen (Edge (premises rules nodeMap)) id nodeId
  nodes : t.verifier.inProgress ⊆ nodeMap.keys.toFinset
  enough : nodeMap.keys.toFinset.card < fuel + t.verifier.inProgress.card

/-- The loop over the premises, if it is right about each of them. -/
theorem checkPremises_spec {visit : UInt64 → Traversal → Option (Bool × Traversal)}
    (hvisit : ∀ id t, Ready rules nodeMap root fuel id t →
      ∃ ok t', visit id t = some (ok, t') ∧
        Searched rules nodeMap root t (Derivable (premises rules nodeMap) id) ok t')
    (nodeId : UInt64) {ps : List (UInt64 × ℕ)} (allOk : Bool)
    (hready : ∀ p ∈ ps, p.1 ∈ nodeMap → Ready rules nodeMap root fuel p.1 t) :
    ∃ ok t', checkPremises visit nodeMap nodeId ps allOk t = some (ok, t') ∧
      Searched rules nodeMap root t
        (allOk = true ∧ ∀ p ∈ ps, Derivable (premises rules nodeMap) p.1) ok t' := by
  induction ps generalizing allOk t with
  | nil => exact ⟨allOk, t, rfl, .of_eq rfl, by simp, fun _ => rfl⟩
  | cons p ps ih =>
    obtain ⟨premiseId, i⟩ := p
    by_cases hmem : premiseId ∈ nodeMap
    · obtain ⟨ok, t₁, hrun, hsearched⟩ := hvisit premiseId t (hready _ List.mem_cons_self hmem)
      -- the other premises are as ready as before
      have hrest : ∀ p ∈ ps, p.1 ∈ nodeMap → Ready rules nodeMap root fuel p.1 t₁ := by
        intro p hp hpmem
        have h := hready p (List.mem_cons_of_mem _ hp) hpmem
        exact ⟨hsearched.sameRules.trans h.sameRules, h.correct.preserves hsearched.toPreserves,
          h.reaches, hsearched.inProgress ▸ h.path, hsearched.inProgress ▸ h.nodes,
          hsearched.inProgress ▸ h.enough⟩
      obtain ⟨ok', t', hrun', hsearched'⟩ := ih (allOk && ok) hrest
      refine ⟨ok', t', ?_, hsearched.toPreserves.trans hsearched'.toPreserves, ?_, fun hok => ?_⟩
      · rw [checkPremises, if_pos hmem, hrun]
        exact hrun'
      · rw [hsearched'.verdict, List.forall_mem_cons, Bool.and_eq_true, hsearched.verdict,
          and_assoc]
      · have hall := (hsearched'.verdict.mp hok).1
        rw [hsearched'.errors hok, hsearched.errors (Bool.and_eq_true_iff.mp hall).2]
    · have hnot : ¬ Derivable (premises rules nodeMap) premiseId := by
        refine not_derivable_of_none ?_
        rw [premises, AList.lookup_eq_none.mpr hmem]
      have hrest : ∀ p ∈ ps, p.1 ∈ nodeMap →
          Ready rules nodeMap root fuel p.1 (t.report (.premiseMismatch nodeId i)) := by
        intro p hp hpmem
        have h := hready p (List.mem_cons_of_mem _ hp) hpmem
        exact ⟨h.sameRules, h.correct, h.reaches, h.path, h.nodes, h.enough⟩
      obtain ⟨ok', t', hrun', hsearched'⟩ := ih false hrest
      have hfalse : ok' = false := by
        cases ok' with
        | false => rfl
        | true => exact absurd (hsearched'.verdict.mp rfl).1 (by simp)
      subst hfalse
      refine ⟨false, t', ?_, ⟨hsearched'.sameRules, hsearched'.inProgress, hsearched'.memo⟩, ?_,
        fun hok => by cases hok⟩
      · rw [checkPremises, if_neg hmem]
        exact hrun'
      · refine iff_of_false (by simp) ?_
        rintro ⟨-, hall⟩
        exact hnot (hall _ List.mem_cons_self)

/-- A node that is not in progress and not remembered fails its own checks, or is as good as its
premises. -/
theorem verifyNode_cases (fuel : ℕ) (hpath : nodeId ∉ t.verifier.inProgress)
    (hmemo : t.verifier.memo.lookup nodeId = none) (hmem : nodeId ∈ nodeMap) :
    ∃ node,
      (premises t.verifier.rules nodeMap nodeId = none ∧
        ∃ e, verifyNode nodeMap (fuel + 1) nodeId t =
          some (false, (((t.enter node nodeId).report e).leave nodeId).remember nodeId false)) ∨
      (premises t.verifier.rules nodeMap nodeId = some node.premiseIds ∧
        verifyNode nodeMap (fuel + 1) nodeId t =
          match checkPremises (verifyNode nodeMap fuel) nodeMap nodeId node.premiseIds.zipIdx true
            (t.enter node nodeId) with
          | none => none
          | some (allOk, t) => some (allOk, (t.leave nodeId).remember nodeId allOk)) := by
  obtain ⟨node, hnode⟩ := Option.isSome_iff_exists.mp (AList.lookup_isSome.mpr hmem)
  refine ⟨node, ?_⟩
  rw [verifyNode, if_neg hpath, hmemo, premises, hnode]
  have hrules : (t.enter node nodeId).verifier.rules = t.verifier.rules := rfl
  dsimp only
  rw [hrules]
  -- the rule, the pattern and the arity are checked in this order
  cases hrule : t.verifier.rules.lookup node.ruleId with
  | none => exact Or.inl ⟨rfl, _, rfl⟩
  | some rule =>
    dsimp only
    by_cases hgoal : startsWith node.goal rule.headPattern
    · rw [if_neg (not_not.mpr hgoal)]
      by_cases harity : node.premiseIds.length = rule.arity
      · rw [if_neg (not_not.mpr harity), if_pos ⟨hgoal, harity⟩]
        exact Or.inr ⟨rfl, rfl⟩
      · rw [if_pos harity, if_neg fun h => harity h.2]
        exact Or.inl ⟨rfl, _, rfl⟩
    · rw [if_pos hgoal, if_neg fun h => hgoal h.1]
      exact Or.inl ⟨rfl, _, rfl⟩

/-- A node that is done: it is off the path, and its verdict is remembered. -/
theorem Preserves.close (node : ProofNode)
    (h : Preserves rules nodeMap root (t.enter node nodeId) t')
    (hpath : nodeId ∉ t.verifier.inProgress) (hreaches : Reaches rules nodeMap root nodeId)
    (hok : ok = true ↔ Derivable (premises rules nodeMap) nodeId) :
    Preserves rules nodeMap root t ((t'.leave nodeId).remember nodeId ok) where
  sameRules := h.sameRules
  inProgress := by
    show t'.verifier.inProgress.erase nodeId = t.verifier.inProgress
    rw [h.inProgress]
    exact Finset.erase_insert hpath
  memo id ok' hmemo := by
    rcases AssocMap.lookup_insert_eq_some.mp hmemo with ⟨rfl, rfl⟩ | ⟨-, hold⟩
    · exact Or.inr ⟨hreaches, hok⟩
    · exact h.memo id ok' hold

/-- **The search is right.** From where it may begin, it verifies a node if and only if the node can
be derived, and there are no errors then. -/
theorem verifyNode_spec (h : Ready rules nodeMap root fuel nodeId t) :
    ∃ ok t', verifyNode nodeMap fuel nodeId t = some (ok, t') ∧
      Searched rules nodeMap root t (Derivable (premises rules nodeMap) nodeId) ok t' := by
  induction fuel generalizing nodeId t with
  | zero =>
    have hcard := Finset.card_le_card h.nodes
    have henough := h.enough
    omega
  | succ fuel ih =>
    by_cases hpath : nodeId ∈ t.verifier.inProgress
    · -- a cycle
      refine ⟨false, t.report (.cyclicProof nodeId), by rw [verifyNode, if_pos hpath], .of_eq rfl,
        ?_, fun hok => by cases hok⟩
      exact iff_of_false (by simp) fun hder => hder.not_cyclic (h.path nodeId hpath)
    cases hmemo : t.verifier.memo.lookup nodeId with
    | some cached =>
      refine ⟨cached, { t with nodesMemoized := t.nodesMemoized + 1 },
        by rw [verifyNode, if_neg hpath, hmemo], .of_eq rfl, ?_, fun _ => rfl⟩
      exact h.correct nodeId cached h.reaches hmemo
    | none =>
      obtain ⟨node, ⟨hfails, e, hrun⟩ | ⟨hpasses, hrun⟩⟩ :=
        verifyNode_cases fuel hpath hmemo h.reaches.2
      · rw [h.sameRules] at hfails
        have hnot := not_derivable_of_none hfails
        refine ⟨false, _, hrun, ?_, iff_of_false (by simp) hnot, fun hok => by cases hok⟩
        exact Preserves.close node (.of_eq rfl) hpath h.reaches (iff_of_false (by simp) hnot)
      · rw [h.sameRules] at hpasses
        have hedge : ∀ p ∈ node.premiseIds.zipIdx,
            Edge (premises rules nodeMap) nodeId p.1 := fun p hp =>
          ⟨_, hpasses, List.fst_mem_of_mem_zipIdx hp⟩
        -- one more node is in progress
        have hready : ∀ p ∈ node.premiseIds.zipIdx, p.1 ∈ nodeMap →
            Ready rules nodeMap root fuel p.1 (t.enter node nodeId) := by
          intro p hp hpmem
          refine ⟨h.sameRules, h.correct, ⟨h.reaches.1.tail (hedge p hp), hpmem⟩, ?_, ?_, ?_⟩
          · intro id hid
            rcases Finset.mem_insert.mp hid with rfl | hid
            · exact .single (hedge p hp)
            · exact (h.path id hid).tail (hedge p hp)
          · refine Finset.insert_subset ?_ h.nodes
            exact List.mem_toFinset.mpr (AList.mem_keys.mp h.reaches.2)
          · have hcard : (t.enter node nodeId).verifier.inProgress.card = _ :=
              Finset.card_insert_of_notMem hpath
            have henough := h.enough
            omega
        obtain ⟨ok, t', hloop, hsearched⟩ :=
          checkPremises_spec (fun id t => ih) nodeId true hready
        rw [hloop] at hrun
        have hiff : ok = true ↔ Derivable (premises rules nodeMap) nodeId := by
          rw [hsearched.verdict, derivable_iff hpasses]
          have hfst := List.forall_mem_map (f := Prod.fst) (l := node.premiseIds.zipIdx)
            (P := Derivable (premises rules nodeMap))
          rw [List.zipIdx_map_fst] at hfst
          rw [hfst]
          exact and_iff_right rfl
        exact ⟨ok, _, hrun, hsearched.toPreserves.close node hpath h.reaches hiff, hiff,
          hsearched.errors⟩

end Search

/-! ### One call -/

/-- The root of a proof that is not empty. -/
def rootOf : List ProofNode → Option UInt64
  | [] => none
  | first :: rest => some (rootId first rest)

theorem mem_nodeMap {nodes : List ProofNode} {id : UInt64} :
    id ∈ nodeMap nodes ↔ ∃ node ∈ nodes, node.nodeId = id := by
  suffices h : ∀ m : NodeMap,
      id ∈ nodes.foldl (fun m node => m.insert node.nodeId node) m ↔
        id ∈ m ∨ ∃ node ∈ nodes, node.nodeId = id by
    rw [nodeMap, h]
    exact or_iff_right (AList.notMem_empty id)
  induction nodes with
  | nil => simp
  | cons node nodes ih =>
    intro m
    rw [List.foldl_cons, ih, AList.mem_insert, List.exists_mem_cons_iff]
    tauto

theorem card_keys_nodeMap (nodes : List ProofNode) :
    (nodeMap nodes).keys.toFinset.card ≤ nodes.length := by
  have hsub : (nodeMap nodes).keys.toFinset ⊆ (nodes.map ProofNode.nodeId).toFinset := by
    intro id hid
    obtain ⟨node, hnode, rfl⟩ := mem_nodeMap.mp (AList.mem_keys.mpr (List.mem_toFinset.mp hid))
    exact List.mem_toFinset.mpr (List.mem_map_of_mem hnode)
  calc (nodeMap nodes).keys.toFinset.card
      ≤ (nodes.map ProofNode.nodeId).toFinset.card := Finset.card_le_card hsub
    _ ≤ (nodes.map ProofNode.nodeId).length := List.toFinset_card_le _
    _ = nodes.length := List.length_map _

theorem rootId_mem (first : ProofNode) (rest : List ProofNode) :
    rootId first rest ∈ nodeMap (first :: rest) := by
  rw [mem_nodeMap, rootId]
  split
  · next id heq =>
    -- the only node that is no premise
    have hmem : id ∈ ((first :: rest).map ProofNode.nodeId).filter
        (· ∉ (first :: rest).flatMap ProofNode.premiseIds) := by
      rw [heq]
      exact List.mem_singleton_self id
    obtain ⟨node, hnode, hid⟩ := List.mem_map.mp (List.mem_of_mem_filter hmem)
    exact ⟨node, hnode, hid⟩
  · exact ⟨first, List.mem_cons_self, rfl⟩

namespace ProofVerifier

variable {v v' : ProofVerifier} {nodes : List ProofNode} {root : UInt64}

/-- **One call** with a correct memory: the proof is valid if and only if its root can be derived,
and what is remembered afterwards was remembered before or is right. -/
theorem verify_spec (hpath : v.inProgress = ∅) (hroot : rootOf nodes = some root)
    (hcorrect : Correct v.rules (nodeMap nodes) root v.memo) :
    ∃ r v', v.verify nodes = some (r, v') ∧
      (r.isValid = true ↔ Derivable (premises v.rules (nodeMap nodes)) root) ∧
      v'.rules = v.rules ∧ v'.inProgress = ∅ ∧
      ∀ id ok, v'.memo.lookup id = some ok → v.memo.lookup id = some ok ∨
        Reaches v.rules (nodeMap nodes) root id ∧
          (ok = true ↔ Derivable (premises v.rules (nodeMap nodes)) id) := by
  cases nodes with
  | nil => cases hroot
  | cons first rest =>
    obtain rfl := Option.some.inj hroot
    -- nothing is on the path yet, and there are more levels than nodes
    have hready : Ready v.rules (nodeMap (first :: rest)) (rootId first rest)
        ((first :: rest).length + 1) (rootId first rest) ⟨v, [], 0, 0, 0⟩ := by
      refine ⟨rfl, hcorrect, ⟨.refl, rootId_mem first rest⟩, ?_, ?_, ?_⟩
      · intro id hid
        rw [hpath] at hid
        exact absurd hid (Finset.notMem_empty id)
      · rw [hpath]
        exact Finset.empty_subset _
      · rw [hpath, Finset.card_empty]
        exact Nat.lt_succ_of_le (card_keys_nodeMap _)
    obtain ⟨ok, t, hrun, hsearched⟩ := verifyNode_spec hready
    refine ⟨⟨ok, t.nodesChecked, t.nodesMemoized, t.maxDepth, t.errors⟩,
      { t.verifier with inProgress := ∅ }, by rw [verify, hrun], ?_, hsearched.sameRules, rfl,
      hsearched.memo⟩
    rw [VerificationResult.isValid, Bool.and_eq_true, ← hsearched.verdict]
    -- a node that is accepted has reported no error
    refine and_iff_left_of_imp fun hok => ?_
    rw [hsearched.errors hok]
    rfl

/-- A new verifier with these rules. -/
def fresh (rules : AList fun _ : String => RuleSpec) : ProofVerifier := { new with rules := rules }

/-- **The verdict** is that of a fresh verifier with the same rules. -/
def SameVerdict (v : ProofVerifier) (nodes : List ProofNode) : Prop :=
  ∃ r v' r₀ v₀, v.verify nodes = some (r, v') ∧ (fresh v.rules).verify nodes = some (r₀, v₀) ∧
    r.isValid = r₀.isValid

theorem sameVerdict_of_correct (hpath : v.inProgress = ∅)
    (hcorrect : ∀ root, rootOf nodes = some root →
      Correct v.rules (nodeMap nodes) root v.memo) : SameVerdict v nodes := by
  cases hroot : rootOf nodes with
  | none =>
    cases nodes with
    | nil => exact ⟨_, _, _, _, rfl, rfl, rfl⟩
    | cons first rest => cases hroot
  | some root =>
    obtain ⟨r, v', hrun, hvalid, -⟩ := verify_spec hpath hroot (hcorrect root hroot)
    obtain ⟨r₀, v₀, hrun₀, hvalid₀, -⟩ := verify_spec (v := fresh v.rules) rfl hroot
      fun id ok _ hmemo => by cases hmemo
    exact ⟨r, v', r₀, v₀, hrun, hrun₀, Bool.eq_iff_iff.mpr (hvalid.trans hvalid₀.symm)⟩

end ProofVerifier

/-! ### Runs -/

/-- The calls. -/
inductive VerifierOp where
  | registerRule (spec : RuleSpec)
  | verify (nodes : List ProofNode)
  | clearMemo

namespace ProofVerifier

variable {v v' : ProofVerifier} {nodes : List ProofNode} {history : List VerifierOp}

/-- A call, and the verifier after it. -/
def perform (v : ProofVerifier) : VerifierOp → Option ProofVerifier
  | .registerRule spec => some (v.registerRule spec)
  | .verify nodes => (v.verify nodes).map Prod.snd
  | .clearMemo => some v.clearMemo

/-- The verifiers that calls make of a new one, each of which meets a condition; the last call comes
first. -/
inductive Run (meets : List VerifierOp → VerifierOp → Prop) :
    List VerifierOp → ProofVerifier → Prop
  | new : Run meets [] new
  | step {history : List VerifierOp} {v v' : ProofVerifier} {op : VerifierOp}
      (h : Run meets history v) (hmeets : meets history op) (hperform : v.perform op = some v') :
      Run meets (op :: history) v'

/-- The rules after these calls. -/
def rulesOf : List VerifierOp → AList fun _ : String => RuleSpec
  | [] => ∅
  | .registerRule spec :: history => (rulesOf history).insert spec.ruleId spec
  | .verify _ :: history => rulesOf history
  | .clearMemo :: history => rulesOf history

/-- A proof that was verified since the memory was cleared reached this node, and the node was valid
or not, by the rules and in the proof of that call. -/
def Judged : List VerifierOp → UInt64 → Bool → Prop
  | [], _, _ => False
  | .registerRule _ :: history, id, ok => Judged history id ok
  | .clearMemo :: _, _, _ => False
  | .verify nodes :: history, id, ok => Judged history id ok ∨
      ∃ root, rootOf nodes = some root ∧ Reaches (rulesOf history) (nodeMap nodes) root id ∧
        (ok = true ↔ Derivable (premises (rulesOf history) (nodeMap nodes)) id)

/-- What the proof reaches is as valid now as it was in the earlier calls that reached it. -/
def Agrees (history : List VerifierOp) : VerifierOp → Prop
  | .verify nodes => ∀ root, rootOf nodes = some root → ∀ id ok,
      Reaches (rulesOf history) (nodeMap nodes) root id → Judged history id ok →
        (ok = true ↔ Derivable (premises (rulesOf history) (nodeMap nodes)) id)
  | _ => True

/-- What is remembered was judged by one of the calls. -/
structure Remembers (history : List VerifierOp) (v : ProofVerifier) : Prop where
  rules : v.rules = rulesOf history
  inProgress : v.inProgress = ∅
  memo : ∀ id ok, v.memo.lookup id = some ok → Judged history id ok

theorem Remembers.correctMemo (h : Remembers history v) (hagrees : Agrees history (.verify nodes))
    {root : UInt64} (hroot : rootOf nodes = some root) :
    Correct v.rules (nodeMap nodes) root v.memo := by
  intro id ok hreaches hmemo
  rw [h.rules] at hreaches ⊢
  exact hagrees root hroot id ok hreaches (h.memo id ok hmemo)

/-- **One call** keeps what is remembered in agreement with the calls. -/
theorem Remembers.step {op : VerifierOp} (h : Remembers history v) (hagrees : Agrees history op)
    (hperform : v.perform op = some v') : Remembers (op :: history) v' := by
  cases op with
  | registerRule spec =>
    obtain rfl := Option.some.inj hperform
    exact ⟨congrArg (·.insert spec.ruleId spec) h.rules, h.inProgress, h.memo⟩
  | clearMemo =>
    obtain rfl := Option.some.inj hperform
    exact ⟨h.rules, rfl, fun id ok hmemo => by cases hmemo⟩
  | verify nodes =>
    obtain ⟨⟨r, v''⟩, hrun, rfl⟩ := Option.map_eq_some_iff.mp hperform
    cases hroot : rootOf nodes with
    | none =>
      cases nodes with
      | nil =>
        obtain ⟨-, rfl⟩ := Prod.mk.inj (Option.some.inj hrun)
        exact ⟨h.rules, h.inProgress, fun id ok hmemo => Or.inl (h.memo id ok hmemo)⟩
      | cons first rest => cases hroot
    | some root =>
      obtain ⟨r', v₁, hrun', -, hrules, hpath, hmemo⟩ :=
        verify_spec h.inProgress hroot (h.correctMemo hagrees hroot)
      rw [hrun, Option.some.injEq] at hrun'
      obtain ⟨-, rfl⟩ := Prod.mk.inj hrun'
      refine ⟨hrules.trans h.rules, hpath, fun id ok hlookup => ?_⟩
      rw [h.rules] at hmemo
      exact (hmemo id ok hlookup).imp (h.memo id ok) fun hnew => ⟨root, hroot, hnew⟩

theorem Run.remembers (h : Run Agrees history v) : Remembers history v := by
  induction h with
  | new => exact ⟨rfl, rfl, fun id ok hmemo => by cases hmemo⟩
  | step _ hagrees hperform ih => exact ih.step hagrees hperform

/-- **Verdicts do not depend on history**, if every proof agrees with the earlier calls. -/
theorem Run.sameVerdict (h : Run Agrees history v) (hagrees : Agrees history (.verify nodes)) :
    SameVerdict v nodes :=
  sameVerdict_of_correct h.remembers.inProgress fun _ hroot => h.remembers.correctMemo hagrees hroot

/-! ### Two runs -/

/-- A rule without premises. -/
def sampleRule (pattern : String) : RuleSpec := ⟨"my_rule", pattern, 0⟩

/-- A proof by that rule. -/
def sampleProof : List ProofNode := [⟨1, "my_rule", "old:x", [], 0⟩]

theorem Run.sameVerdict_two : ∃ v,
    Run Agrees [.verify sampleProof, .registerRule (sampleRule "old:")] v ∧
      SameVerdict v sampleProof := by
  have hrun : Run Agrees [.registerRule (sampleRule "old:")]
      (ProofVerifier.new.registerRule (sampleRule "old:")) := .step .new trivial rfl
  have hfirst : Agrees [.registerRule (sampleRule "old:")] (.verify sampleProof) :=
    fun _ _ _ _ _ hjudged => hjudged.elim
  have hsecond : Agrees [.verify sampleProof, .registerRule (sampleRule "old:")]
      (.verify sampleProof) := by
    rintro root hroot id ok - (hnone | ⟨root', hroot', -, hiff⟩)
    · exact hnone.elim
    · exact hiff
  obtain ⟨r, v, _, _, hverify, -⟩ := hrun.sameVerdict hfirst
  have hrun' : Run Agrees [.verify sampleProof, .registerRule (sampleRule "old:")] v :=
    hrun.step hfirst (by rw [perform, hverify]; rfl)
  exact ⟨v, hrun', Run.sameVerdict hrun' hsecond⟩

/-- The rule is replaced between two verifications of the same proof. -/
theorem not_forall_sameVerdict :
    ¬ ∀ (history : List VerifierOp) (v : ProofVerifier) (nodes : List ProofNode),
      Run (fun _ _ => True) history v → SameVerdict v nodes := by
  intro h
  have hperform : ((new.registerRule (sampleRule "old:")).perform (.verify sampleProof)).map
      (fun v =>
        let v := v.registerRule (sampleRule "new:")
        ((v.verify sampleProof).map (·.1.isValid),
          ((fresh v.rules).verify sampleProof).map (·.1.isValid))) =
      some (some true, some false) := by decide +kernel
  obtain ⟨v, hv, hverdicts⟩ := Option.map_eq_some_iff.mp hperform
  have hrun : Run (fun _ _ => True)
      [.registerRule (sampleRule "new:"), .verify sampleProof, .registerRule (sampleRule "old:")]
      (v.registerRule (sampleRule "new:")) :=
    .step (.step (.step .new trivial rfl) trivial hv) trivial rfl
  obtain ⟨r, v', r₀, v₀, hr, hr₀, hsame⟩ := h _ _ sampleProof hrun
  dsimp only at hverdicts
  rw [hr, hr₀] at hverdicts
  obtain ⟨hstale, hfresh⟩ := Prod.mk.inj hverdicts
  rw [Option.map_some, Option.some.injEq] at hstale hfresh
  rw [hstale, hfresh] at hsame
  cases hsame

end ProofVerifier

end Ipfrs.Tensorlogic
