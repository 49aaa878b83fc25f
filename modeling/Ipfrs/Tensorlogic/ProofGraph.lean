import Ipfrs.Tensorlogic.ProofVerifier

/-!
# What a fresh verifier accepts

`verify` of `ipfrs-tensorlogic/src/proof_verifier.rs` on a verifier that remembers nothing, told in
terms of the graph that the premises of the nodes make.

* `ValidGraph` — below the root every premise is there, no node is below itself, and every node
  applies a registered rule;
* `verify_fresh_iff` — a proof is valid if and only if this is so.
-/

namespace Ipfrs.Tensorlogic

open Derivation Relation

/-- The node `b` is a premise of the node `a`. -/
def Premise (nodes : List ProofNode) (a b : UInt64) : Prop :=
  ∃ node ∈ nodes, node.nodeId = a ∧ b ∈ node.premiseIds

/-- A node names a registered rule whose pattern is a prefix of the goal, and has as many premises
as the rule. -/
def AppliesRule (rules : AList fun _ : String => RuleSpec) (node : ProofNode) : Prop :=
  ∃ rule, rules.lookup node.ruleId = some rule ∧ rule.headPattern.toList <+: node.goal.toList ∧
    node.premiseIds.length = rule.arity

/-- What is below the root in a valid proof. -/
structure ValidGraph (rules : AList fun _ : String => RuleSpec) (nodes : List ProofNode)
    (root : UInt64) : Prop where
  /-- All premises are present. -/
  closed : ∀ id, ReflTransGen (Premise nodes) root id → ∃ node ∈ nodes, node.nodeId = id
  /-- There is no cycle. -/
  acyclic : ∀ id, ReflTransGen (Premise nodes) root id → ¬ TransGen (Premise nodes) id id
  /-- Every node applies its rule. -/
  applies : ∀ node ∈ nodes, ReflTransGen (Premise nodes) root node.nodeId → AppliesRule rules node

section Graph

variable {rules : AList fun _ : String => RuleSpec} {nodes : List ProofNode} {node : ProofNode}
  {root a b : UInt64}

theorem lookup_nodeMap (hids : (nodes.map ProofNode.nodeId).Nodup) {id : UInt64} :
    (nodeMap nodes).lookup id = some node ↔ node ∈ nodes ∧ node.nodeId = id := by
  have hlast := AssocMap.lookup_foldl_insert ProofNode.nodeId (fun n : ProofNode => n) nodes ∅ id
  rw [AList.lookup_empty, Option.or_none, Option.map_id'] at hlast
  rw [nodeMap, hlast]
  constructor
  · intro h
    exact ⟨List.mem_reverse.mp (List.mem_of_find?_eq_some h), by simpa using List.find?_some h⟩
  · rintro ⟨hmem, rfl⟩
    obtain ⟨node', hfind⟩ : ∃ node', (nodes.reverse.find? fun n => n.nodeId = node.nodeId)
        = some node' := by
      rw [← Option.isSome_iff_exists, List.find?_isSome]
      exact ⟨node, List.mem_reverse.mpr hmem, by simp⟩
    have hmem' := List.mem_reverse.mp (List.mem_of_find?_eq_some hfind)
    have hid : node'.nodeId = node.nodeId := by simpa using List.find?_some hfind
    rw [hfind, List.inj_on_of_nodup_map hids hmem' hmem hid]

theorem premises_eq_some_iff (hids : (nodes.map ProofNode.nodeId).Nodup) {ps : List UInt64} :
    premises rules (nodeMap nodes) a = some ps ↔
      ∃ node ∈ nodes, node.nodeId = a ∧ AppliesRule rules node ∧ node.premiseIds = ps := by
  unfold premises
  constructor
  · intro h
    split at h
    · cases h
    · next node hnode =>
      obtain ⟨hmem, hid⟩ := (lookup_nodeMap hids).mp hnode
      split at h
      · cases h
      · next rule hrule =>
        split at h
        · next hchecks =>
          exact ⟨node, hmem, hid, ⟨rule, hrule, List.isPrefixOf_iff_prefix.mp hchecks.1, hchecks.2⟩,
            Option.some.inj h⟩
        · cases h
  · rintro ⟨node, hmem, hid, ⟨rule, hrule, hprefix, harity⟩, rfl⟩
    rw [(lookup_nodeMap hids).mpr ⟨hmem, hid⟩]
    dsimp only
    rw [hrule]
    exact if_pos ⟨List.isPrefixOf_iff_prefix.mpr hprefix, harity⟩

theorem edge_iff (hids : (nodes.map ProofNode.nodeId).Nodup) :
    Edge (premises rules (nodeMap nodes)) a b ↔
      ∃ node ∈ nodes, node.nodeId = a ∧ AppliesRule rules node ∧ b ∈ node.premiseIds := by
  constructor
  · rintro ⟨ps, hps, hb⟩
    obtain ⟨node, hmem, hid, happlies, rfl⟩ := (premises_eq_some_iff hids).mp hps
    exact ⟨node, hmem, hid, happlies, hb⟩
  · rintro ⟨node, hmem, hid, happlies, hb⟩
    exact ⟨_, (premises_eq_some_iff hids).mpr ⟨node, hmem, hid, happlies, rfl⟩, hb⟩

theorem premise_of_edge (hids : (nodes.map ProofNode.nodeId).Nodup)
    (h : Edge (premises rules (nodeMap nodes)) a b) : Premise nodes a b := by
  obtain ⟨node, hmem, hid, -, hb⟩ := (edge_iff hids).mp h
  exact ⟨node, hmem, hid, hb⟩

/-- Where every node applies its rule, the search follows every premise. -/
theorem edge_of_premise (hids : (nodes.map ProofNode.nodeId).Nodup)
    (happlies : ∀ node ∈ nodes, node.nodeId = a → AppliesRule rules node)
    (h : Premise nodes a b) : Edge (premises rules (nodeMap nodes)) a b := by
  obtain ⟨node, hmem, hid, hb⟩ := h
  exact (edge_iff hids).mpr ⟨node, hmem, hid, happlies node hmem hid, hb⟩

theorem finite_reachable (hids : (nodes.map ProofNode.nodeId).Nodup) :
    {b | ReflTransGen (Edge (premises rules (nodeMap nodes))) root b}.Finite := by
  refine (root :: nodes.flatMap ProofNode.premiseIds).finite_toSet.subset fun b hb => ?_
  rcases ReflTransGen.cases_tail hb with rfl | ⟨a, -, hedge⟩
  · exact List.mem_cons_self
  · obtain ⟨node, hmem, -, hmem'⟩ := premise_of_edge hids hedge
    exact List.mem_cons_of_mem _ (List.mem_flatMap.mpr ⟨node, hmem, hmem'⟩)

/-- **Derivable roots.** -/
theorem derivable_iff_validGraph (hids : (nodes.map ProofNode.nodeId).Nodup) :
    Derivable (premises rules (nodeMap nodes)) root ↔ ValidGraph rules nodes root := by
  rw [derivable_iff_acyclic (finite_reachable hids)]
  constructor
  · intro h
    -- a node that the search comes to is there, and applies its rule
    have hnode : ∀ id, ReflTransGen (Edge (premises rules (nodeMap nodes))) root id →
        ∃ node ∈ nodes, node.nodeId = id ∧ AppliesRule rules node := by
      intro id hid
      obtain ⟨ps, hps⟩ := Option.ne_none_iff_exists'.mp (h id hid).1
      obtain ⟨node, hmem, hid, happlies, -⟩ := (premises_eq_some_iff hids).mp hps
      exact ⟨node, hmem, hid, happlies⟩
    have happlies : ∀ id, ReflTransGen (Edge (premises rules (nodeMap nodes))) root id →
        ∀ node ∈ nodes, node.nodeId = id → AppliesRule rules node := by
      rintro id hid node hmem rfl
      obtain ⟨node', hmem', hid', happlies⟩ := hnode _ hid
      rwa [← List.inj_on_of_nodup_map hids hmem' hmem hid']
    -- so it follows every premise, and comes to all that is below the root
    have hfollow : ∀ x y, ReflTransGen (Edge (premises rules (nodeMap nodes))) root x →
        Premise nodes x y → Edge (premises rules (nodeMap nodes)) x y :=
      fun x y hx hxy => edge_of_premise hids (happlies x hx) hxy
    refine ⟨fun id hid => ?_, fun id hid hcycle => ?_, fun node hmem hid => ?_⟩
    · obtain ⟨node, hmem, heq, -⟩ := hnode id (reaches_of_followed hfollow hid)
      exact ⟨node, hmem, heq⟩
    · have hid' := reaches_of_followed hfollow hid
      exact (h id hid').2 (cycle_of_followed hfollow hid' hcycle)
    · exact happlies _ (reaches_of_followed hfollow hid) node hmem rfl
  · rintro ⟨hclosed, hacyclic, happlies⟩ id hid
    have hid' : ReflTransGen (Premise nodes) root id :=
      ReflTransGen.mono (fun _ _ hedge => premise_of_edge hids hedge) _ _ hid
    constructor
    · obtain ⟨node, hmem, rfl⟩ := hclosed id hid'
      rw [(premises_eq_some_iff hids).mpr ⟨node, hmem, rfl, happlies node hmem hid', rfl⟩]
      exact Option.some_ne_none _
    · intro hcycle
      exact hacyclic id hid'
        (TransGen.mono (fun _ _ hedge => premise_of_edge hids hedge) _ _ hcycle)

end Graph

namespace ProofVerifier

/-- **Verification is exact** on a fresh verifier. For all rules and all nodes with different ids,
the result is valid if and only if there is a root and what is below it is valid. -/
theorem verify_fresh_iff (rules : AList fun _ : String => RuleSpec) {nodes : List ProofNode}
    (hids : (nodes.map ProofNode.nodeId).Nodup) :
    ∃ r v', (fresh rules).verify nodes = some (r, v') ∧
      (r.isValid = true ↔ ∃ root, rootOf nodes = some root ∧ ValidGraph rules nodes root) := by
  cases hroot : rootOf nodes with
  | none =>
    cases nodes with
    | nil => exact ⟨_, _, rfl, iff_of_false (by simp [VerificationResult.isValid]) (by simp)⟩
    | cons first rest => cases hroot
  | some root =>
    -- nothing is remembered, so what is remembered is right
    have hcorrect : Correct (fresh rules).rules (nodeMap nodes) root (fresh rules).memo :=
      fun id ok _ hmemo => by cases hmemo
    obtain ⟨r, v', hrun, hvalid, -⟩ := verify_spec (v := fresh rules) rfl hroot hcorrect
    refine ⟨r, v', hrun, hvalid.trans ((derivable_iff_validGraph hids).trans ?_)⟩
    constructor
    · exact fun h => ⟨root, rfl, h⟩
    · rintro ⟨_, heq, h⟩
      obtain rfl := Option.some.inj heq
      exact h

theorem verify_fresh_cycle :
    ∃ r v', (fresh ∅).verify [⟨1, "step", "a", [2], 0⟩, ⟨2, "step", "b", [1], 1⟩] = some (r, v') ∧
      (r.isValid = true ↔ ∃ root,
        rootOf [⟨1, "step", "a", [2], 0⟩, ⟨2, "step", "b", [1], 1⟩] = some root ∧
          ValidGraph ∅ [⟨1, "step", "a", [2], 0⟩, ⟨2, "step", "b", [1], 1⟩] root) :=
  verify_fresh_iff ∅ (by decide)

end ProofVerifier

end Ipfrs.Tensorlogic
