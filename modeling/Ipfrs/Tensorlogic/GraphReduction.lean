import Ipfrs.Lib.StackWalk
import Ipfrs.Tensorlogic.ComputationGraph

/-!
# Common subexpressions and dead nodes

`optimize_cse`, `extract_subgraph` and `remove_dead_nodes` of
`ipfrs-tensorlogic/src/computation_graph.rs`.

Common subexpression elimination changes references in all nodes at once, so what it does is to
rename the inputs (`renamed`). The name of a node is replaced by that of an earlier node in the
order with the same value (`Renaming`).

* `optimizeCse_spec` — the loop is such a renaming;
* `Renaming.acyclic`, `Renaming.value_eq`, `Renaming.valid` — and these change no value;
* `removeDeadNodes_spec` — what is left are the nodes that the outputs need.
-/

namespace Ipfrs.Tensorlogic

open Relation

/-- The inputs of a node are renamed. -/
def GraphNode.rename (σ : String → String) (node : GraphNode) : GraphNode :=
  { node with inputs := node.inputs.map σ }

/-- Another name for one id. -/
def replaceId (old new : String) (id : String) : String := if id = old then new else id

/-- What `optimize_cse` works on: the nodes, the signatures it has seen, and the count. -/
structure Cse (Text : Type) where
  nodes : AList fun _ : String => GraphNode
  exprMap : AList fun _ : Text => String
  optimizedCount : ℕ

section Cse

variable {Text : Type} [DecidableEq Text]

/-- One round of the loop in `optimize_cse`. The first argument gives the signature, the text of an
operation and its inputs. -/
def cseStep (signature : TensorOp → List String → Text) (s : Cse Text) (nodeId : String) :
    Cse Text :=
  match s.nodes.lookup nodeId with
  | none => s
  | some node =>
    match s.exprMap.lookup (signature node.op node.inputs) with
    | some existingId =>
      { s with
        nodes := AssocMap.mapValues (GraphNode.rename (replaceId nodeId existingId)) s.nodes
        optimizedCount :=
          s.optimizedCount + AssocMap.sum (fun other => other.inputs.count nodeId) s.nodes }
    | none => { s with exprMap := s.exprMap.insert (signature node.op node.inputs) nodeId }

def ComputationGraph.optimizeCse (signature : TensorOp → List String → Text) (order : SortOrder)
    (g : ComputationGraph) : ComputationGraph × ℕ :=
  match g.topologicalSort order with
  | .error _ => (g, 0)
  | .ok sorted =>
    let s := sorted.foldl (cseStep signature) ⟨g.nodes, ∅, 0⟩
    ({ g with nodes := s.nodes }, s.optimizedCount)

end Cse

namespace ComputationGraph

/-- The search in `extract_subgraph`: the ids that have been visited, and those in the queue. The
first argument bounds the number of rounds. -/
def collect (g : ComputationGraph) : ℕ → List String → List String → List String
  | 0, visited, _ => visited
  | _ + 1, visited, [] => visited
  | fuel + 1, visited, nodeId :: queue =>
    if nodeId ∈ visited then collect g fuel visited queue
    else
      collect g fuel (visited ++ [nodeId])
        (queue ++ (g.inputsOf nodeId).filter (· ∉ visited ++ [nodeId]))

/-- As many rounds as there can be: one for every id that comes into the queue. -/
def collectRounds (g : ComputationGraph) (outputIds : List String) : ℕ :=
  outputIds.length + (g.nodes.keys.map fun id => (g.inputsOf id).length).sum

/-- The nodes that have been visited are copied. -/
def copyNodes (g : ComputationGraph) (visited : List String)
    (nodes : AList fun _ : String => GraphNode) : AList fun _ : String => GraphNode :=
  visited.foldl (fun nodes nodeId =>
    match g.nodes.lookup nodeId with
    | none => nodes
    | some node => nodes.insert nodeId node) nodes

def extractSubgraph (g : ComputationGraph) (outputIds : List String) :
    Except GraphError ComputationGraph :=
  let visited := g.collect (g.collectRounds outputIds) [] outputIds
  let subgraph := (g.inputs.filter (· ∈ visited)).foldl markInput new
  let subgraph := { subgraph with nodes := g.copyNodes visited subgraph.nodes }
  .ok (outputIds.foldl markOutput subgraph)

/-- `GraphOptimizer::remove_dead_nodes`. -/
def removeDeadNodes (g : ComputationGraph) : Except GraphError (ComputationGraph × ℕ) := do
  let subgraph ← g.extractSubgraph g.outputs
  let removed := g.nodes.entries.length - subgraph.nodes.entries.length
  return (subgraph, removed)

/-! ### Renaming inputs -/

/-- The inputs of all nodes are renamed. -/
def renamed (σ : String → String) (g : ComputationGraph) : ComputationGraph :=
  { g with nodes := AssocMap.mapValues (GraphNode.rename σ) g.nodes }

/-- The node has the value of an operation on some inputs, over every interpretation. -/
def Computes (g : ComputationGraph) (id : String) (op : TensorOp) (ins : List String) : Prop :=
  ∀ (V : Type) (interp : TensorOp → List V → V) (ext val : String → V),
    Dataflow.Valuation interp ext g.dataflow val → val id = interp op (ins.map val)

/-- Every id gets the name of one with the same value, and a node that of one that comes no
later. -/
structure Renaming (g : ComputationGraph) (rank : String → ℕ) (σ : String → String) : Prop where
  mem : ∀ id ∈ g.nodes, σ id ∈ g.nodes
  rank_le : ∀ id ∈ g.nodes, rank (σ id) ≤ rank id
  other : ∀ id ∉ g.nodes, σ id = id
  value : ∀ (V : Type) (interp : TensorOp → List V → V) (ext val : String → V),
    Dataflow.Valuation interp ext g.dataflow val → ∀ id, val (σ id) = val id

variable {g : ComputationGraph} {order : SortOrder} {σ : String → String} {rank : String → ℕ}
  {id : String}

theorem lookup_renamed : (g.renamed σ).nodes.lookup id =
    (g.nodes.lookup id).map (GraphNode.rename σ) :=
  AssocMap.lookup_mapValues _ _ _

theorem mem_renamed : id ∈ (g.renamed σ).nodes ↔ id ∈ g.nodes := AssocMap.mem_mapValues

theorem lookup_renamed_eq_some {node : GraphNode}
    (h : (g.renamed σ).nodes.lookup id = some node) :
    ∃ old, g.nodes.lookup id = some old ∧ old.rename σ = node := by
  rwa [lookup_renamed, Option.map_eq_some_iff] at h

theorem dataflow_renamed {op : TensorOp} {ins : List String} :
    (g.renamed σ).dataflow id = some (op, ins) ↔
      ∃ old, g.dataflow id = some (op, old) ∧ old.map σ = ins := by
  constructor
  · intro h
    obtain ⟨node, hnode, rfl, rfl⟩ := dataflow_eq_some.mp h
    obtain ⟨old, hold, rfl⟩ := lookup_renamed_eq_some hnode
    exact ⟨old.inputs, dataflow_of_lookup hold, rfl⟩
  · rintro ⟨ins', hins, rfl⟩
    obtain ⟨old, hold, rfl, rfl⟩ := dataflow_eq_some.mp hins
    refine dataflow_eq_some.mpr ⟨old.rename σ, ?_, rfl, rfl⟩
    rw [lookup_renamed, hold, Option.map_some]

namespace Renaming

theorem refl (g : ComputationGraph) (rank : String → ℕ) : Renaming g rank fun id => id where
  mem _ h := h
  rank_le _ _ := le_rfl
  other _ _ := rfl
  value _ _ _ _ _ _ := rfl

theorem mem_iff (h : Renaming g rank σ) : σ id ∈ g.nodes ↔ id ∈ g.nodes := by
  refine ⟨fun hmem => ?_, h.mem id⟩
  by_contra hnot
  rw [h.other id hnot] at hmem
  exact hnot hmem

theorem ranked (h : Renaming g rank σ) (hrank : Dataflow.Ranked g.dataflow rank) :
    Dataflow.Ranked (g.renamed σ).dataflow rank := by
  intro b op ins hb a ha hsome
  obtain ⟨old, hold, rfl⟩ := dataflow_renamed.mp hb
  obtain ⟨i, hi, rfl⟩ := List.mem_map.mp ha
  have hmem : i ∈ g.nodes := h.mem_iff.mp (mem_renamed.mp (dataflow_isSome.mp hsome))
  calc rank (σ i) ≤ rank i := h.rank_le i hmem
    _ < rank b := hrank b op old hold i hi (dataflow_isSome.mpr hmem)

/-- **Acyclicity.** -/
theorem acyclic (h : Renaming g rank σ) (hrank : Dataflow.Ranked g.dataflow rank) :
    (g.renamed σ).Acyclic :=
  acyclic_of_ranked (h.ranked hrank)

theorem valuation (h : Renaming g rank σ) {V : Type} {interp : TensorOp → List V → V}
    {ext val : String → V} (hval : Dataflow.Valuation interp ext g.dataflow val) :
    Dataflow.Valuation interp ext (g.renamed σ).dataflow val where
  ext a ha := hval.ext a (dataflow_eq_none.mpr fun hmem =>
    dataflow_eq_none.mp ha (mem_renamed.mpr hmem))
  node a op ins ha := by
    obtain ⟨old, hold, rfl⟩ := dataflow_renamed.mp ha
    rw [hval.node a op old hold, List.map_map]
    exact congrArg _ (List.map_congr_left fun i _ => (h.value V interp ext val hval i).symm)

/-- **The values** stay. -/
theorem value_eq (h : Renaming g rank σ) (hrank : Dataflow.Ranked g.dataflow rank) {V : Type}
    (interp : TensorOp → List V → V) (ext : String → V) (id : String) :
    (g.renamed σ).value interp ext id = g.value interp ext id := by
  have hval : Dataflow.Valuation interp ext g.dataflow (g.value interp ext) :=
    (acyclic_of_ranked hrank).valuation
  exact (congrFun ((h.acyclic hrank).value_unique (h.valuation hval)) id).symm

/-- **The structure** stays right. -/
theorem valid (h : Renaming g rank σ) (hrank : Dataflow.Ranked g.dataflow rank) (hg : g.Valid) :
    (g.renamed σ).Valid where
  inputs id hid := mem_renamed.mpr (hg.inputs id hid)
  outputs id hid := mem_renamed.mpr (hg.outputs id hid)
  closed id node hnode i hi := by
    obtain ⟨old, hold, rfl⟩ := lookup_renamed_eq_some hnode
    obtain ⟨j, hj, rfl⟩ := List.mem_map.mp hi
    exact mem_renamed.mpr (h.mem j (hg.closed id old hold j hj))
  arity id node hnode hpos := by
    obtain ⟨old, hold, rfl⟩ := lookup_renamed_eq_some hnode
    calc (old.inputs.map σ).length = old.inputs.length := List.length_map _
      _ = old.op.numInputs := hg.arity id old hold hpos
  acyclic := h.acyclic hrank

end Renaming

/-! ### Common subexpressions -/

section Cse

variable {Text : Type} [DecidableEq Text] {signature : TensorOp → List String → Text}

/-- What the loop of `optimize_cse` knows when it has gone through some nodes of the order: the
inputs are renamed, and each signature is that of a node that it has gone through. -/
structure CseInv (g : ComputationGraph) (signature : TensorOp → List String → Text)
    (rank : String → ℕ) (bound : ℕ) (s : Cse Text) : Prop where
  nodes : ∃ σ, Renaming g rank σ ∧ s.nodes = (g.renamed σ).nodes
  seen : ∀ text id, s.exprMap.lookup text = some id → id ∈ g.nodes ∧ rank id < bound ∧
    ∃ op ins, text = signature op ins ∧ g.Computes id op ins

theorem CseInv.initial (g : ComputationGraph) (signature : TensorOp → List String → Text)
    (rank : String → ℕ) : CseInv g signature rank 0 ⟨g.nodes, ∅, 0⟩ where
  nodes := by
    refine ⟨_, .refl g rank, (AssocMap.mapValues_of_id (fun node => ?_) _).symm⟩
    rw [GraphNode.rename, List.map_id']
  seen _ _ h := absurd h (by simp)

/-- **One round** keeps what the loop knows. -/
theorem CseInv.step {s : Cse Text} {nodeId : String}
    (hsignature : ∀ op ins op' ins', signature op ins = signature op' ins' → op = op' ∧ ins = ins')
    (h : CseInv g signature rank (rank nodeId) s) (hmem : nodeId ∈ g.nodes) :
    CseInv g signature rank (rank nodeId + 1) (cseStep signature s nodeId) := by
  obtain ⟨σ, hσ, hnodes⟩ := h.nodes
  obtain ⟨node, hnode⟩ := mem_nodes_iff.mp hmem
  have hcurrent : s.nodes.lookup nodeId = some (node.rename σ) := by
    rw [hnodes, lookup_renamed, hnode, Option.map_some]
  -- with its inputs renamed, the node still computes its value
  have hcomputes : g.Computes nodeId node.op (node.inputs.map σ) := by
    intro V interp ext val hval
    rw [hval.node nodeId node.op node.inputs (dataflow_of_lookup hnode), List.map_map]
    exact congrArg _ (List.map_congr_left fun i _ => (hσ.value V interp ext val hval i).symm)
  have hseen : ∀ text id, s.exprMap.lookup text = some id → id ∈ g.nodes ∧
      rank id < rank nodeId + 1 ∧ ∃ op ins, text = signature op ins ∧ g.Computes id op ins := by
    intro text id hlookup
    obtain ⟨hid, hlt, hcomp⟩ := h.seen text id hlookup
    exact ⟨hid, Nat.lt_succ_of_lt hlt, hcomp⟩
  rw [cseStep, hcurrent]
  dsimp only
  cases hexisting : s.exprMap.lookup (signature (node.rename σ).op (node.rename σ).inputs) with
  | none =>
    refine ⟨⟨σ, hσ, hnodes⟩, fun text id hlookup => ?_⟩
    rcases AssocMap.lookup_insert_eq_some.mp hlookup with ⟨rfl, rfl⟩ | ⟨-, hold⟩
    · exact ⟨hmem, Nat.lt_succ_self _, _, _, rfl, hcomputes⟩
    · exact hseen text id hold
  | some existingId =>
    obtain ⟨hexists, hlt, op, ins, htext, hsame⟩ := h.seen _ existingId hexisting
    obtain ⟨rfl, rfl⟩ := hsignature _ _ _ _ htext
    refine ⟨⟨fun id => replaceId nodeId existingId (σ id), ?_, ?_⟩, hseen⟩
    · refine ⟨fun id hid => ?_, fun id hid => ?_, fun id hid => ?_,
        fun V interp ext val hval id => ?_⟩
      · unfold replaceId
        split
        · exact hexists
        · exact hσ.mem id hid
      · have hle := hσ.rank_le id hid
        unfold replaceId
        split
        · next heq =>
          rw [heq] at hle
          exact hlt.le.trans hle
        · exact hle
      · have hne : σ id ≠ nodeId := fun heq => hid (hσ.mem_iff.mp (heq ▸ hmem))
        rw [replaceId, if_neg hne, hσ.other id hid]
      · unfold replaceId
        split
        · next heq =>
          have hvalue := hσ.value V interp ext val hval id
          rw [heq] at hvalue
          calc val existingId = interp node.op ((node.inputs.map σ).map val) :=
                hsame V interp ext val hval
            _ = val nodeId := (hcomputes V interp ext val hval).symm
            _ = val id := hvalue
        · exact hσ.value V interp ext val hval id
    · show AssocMap.mapValues _ s.nodes = _
      rw [hnodes, renamed, AssocMap.mapValues_mapValues, renamed]
      congr 1
      funext node
      rw [GraphNode.rename, GraphNode.rename, GraphNode.rename, List.map_map]
      rfl

/-- **The loop** keeps what it knows. -/
theorem CseInv.foldl {sorted done rest : List String} {s : Cse Text}
    (hsignature : ∀ op ins op' ins', signature op ins = signature op' ins' → op = op' ∧ ins = ins')
    (hsorted : done ++ rest = sorted) (hnodup : sorted.Nodup) (hmem : ∀ id ∈ rest, id ∈ g.nodes)
    (h : CseInv g signature sorted.idxOf done.length s) :
    CseInv g signature sorted.idxOf sorted.length (rest.foldl (cseStep signature) s) := by
  induction rest generalizing done s with
  | nil =>
    rw [List.append_nil] at hsorted
    subst hsorted
    exact h
  | cons nodeId rest ih =>
    have hplace : sorted.idxOf nodeId = done.length := by
      have hnot : nodeId ∉ done := by
        rw [← hsorted] at hnodup
        exact fun hdone => List.disjoint_of_nodup_append hnodup hdone List.mem_cons_self
      rw [← hsorted, List.idxOf_append_of_notMem hnot, List.idxOf_cons_self, Nat.add_zero]
    rw [← hplace] at h
    have hnext := h.step hsignature (hmem nodeId List.mem_cons_self)
    rw [hplace, ← List.length_singleton (a := nodeId), ← List.length_append] at hnext
    refine ih ?_ (fun id hid => hmem id (List.mem_cons_of_mem _ hid)) hnext
    rw [List.append_assoc, List.singleton_append, hsorted]

/-- **`optimize_cse`** renames inputs. -/
theorem optimizeCse_spec
    (hsignature : ∀ op ins op' ins', signature op ins = signature op' ins' → op = op' ∧ ins = ins')
    (h : g.Acyclic) (order : SortOrder) :
    ∃ rank σ, Dataflow.Ranked g.dataflow rank ∧ Renaming g rank σ ∧
      (g.optimizeCse signature order).1 = g.renamed σ := by
  obtain ⟨sorted, hsorted⟩ := exists_topologicalSort h order
  have hinv := (CseInv.initial g signature sorted.idxOf).foldl hsignature (List.nil_append sorted)
    (nodup_of_topologicalSort hsorted) fun id hid => (mem_of_topologicalSort hsorted).mp hid
  obtain ⟨σ, hσ, hnodes⟩ := hinv.nodes
  refine ⟨sorted.idxOf, σ, ranked_of_topologicalSort hsorted, hσ, ?_⟩
  rw [optimizeCse, hsorted]
  dsimp only
  rw [hnodes]
  rfl

end Cse

/-! ### Dead nodes -/

/-- Some output needs the id, itself or on the way. -/
def Needed (g : ComputationGraph) (id : String) : Prop :=
  ∃ out ∈ g.outputs, ReflTransGen (fun a i => i ∈ g.inputsOf a) out id

/-- A graph with only the nodes that the outputs need. -/
structure Pruned (g g' : ComputationGraph) : Prop where
  mem : ∀ id, id ∈ g'.nodes ↔ id ∈ g.nodes ∧ g.Needed id
  lookup : ∀ id ∈ g'.nodes, g'.nodes.lookup id = g.nodes.lookup id
  inputs : ∀ id, id ∈ g'.inputs ↔ id ∈ g.inputs ∧ g.Needed id
  outputs : ∀ id, id ∈ g'.outputs ↔ id ∈ g.outputs

namespace Pruned

variable {g' : ComputationGraph}

theorem lookup_eq_some (h : Pruned g g') {node : GraphNode}
    (hnode : g'.nodes.lookup id = some node) : g.nodes.lookup id = some node := by
  rw [← h.lookup id (mem_nodes_iff.mpr ⟨node, hnode⟩), hnode]

theorem mem_of_input (h : Pruned g g') {node : GraphNode} (hnode : g'.nodes.lookup id = some node)
    {i : String} (hi : i ∈ node.inputs) (hmem : i ∈ g.nodes) : i ∈ g'.nodes := by
  obtain ⟨-, out, hout, hpath⟩ := (h.mem id).mp (mem_nodes_iff.mpr ⟨node, hnode⟩)
  refine (h.mem i).mpr ⟨hmem, out, hout, hpath.tail ?_⟩
  rw [inputsOf, h.lookup_eq_some hnode]
  exact hi

theorem ranked (h : Pruned g g') (hrank : Dataflow.Ranked g.dataflow rank) :
    Dataflow.Ranked g'.dataflow rank := by
  intro b op ins hb a ha hsome
  obtain ⟨node, hnode, rfl, rfl⟩ := dataflow_eq_some.mp hb
  have hmem := ((h.mem a).mp (dataflow_isSome.mp hsome)).1
  exact hrank b _ _ (dataflow_of_lookup (h.lookup_eq_some hnode)) a ha (dataflow_isSome.mpr hmem)

/-- **Acyclicity.** -/
theorem acyclic (h : Pruned g g') (hg : g.Acyclic) : g'.Acyclic := by
  obtain ⟨sorted, hsorted⟩ := exists_topologicalSort hg .given
  exact acyclic_of_ranked (h.ranked (ranked_of_topologicalSort hsorted))

/-- **The values** of the nodes that are left stay. -/
theorem value_eq (h : Pruned g g') (hg : g.Acyclic) {V : Type} (interp : TensorOp → List V → V)
    (ext : String → V) (hid : id ∈ g'.nodes) : g'.value interp ext id = g.value interp ext id := by
  have hval : Dataflow.Valuation interp ext g.dataflow (g.value interp ext) := hg.valuation
  have hnode : ∀ a op ins, g'.dataflow a = some (op, ins) →
      g.value interp ext a = interp op (ins.map fun i => g.value interp ext i) := by
    intro a op ins ha
    obtain ⟨node, hnode, rfl, rfl⟩ := dataflow_eq_some.mp ha
    exact hval.node a _ _ (dataflow_of_lookup (h.lookup_eq_some hnode))
  have hext : ∀ a op ins, g'.dataflow a = some (op, ins) → ∀ i ∈ ins, g'.dataflow i = none →
      g.value interp ext i = ext i := by
    intro a op ins ha i hi hnone
    obtain ⟨node, hnode, rfl, rfl⟩ := dataflow_eq_some.mp ha
    refine hval.ext i (dataflow_eq_none.mpr fun hmem => ?_)
    exact dataflow_eq_none.mp hnone (h.mem_of_input hnode hi hmem)
  obtain ⟨val', hval', hsame⟩ := Dataflow.Valuation.origin (fun i => i) hnode hext
  rw [← (h.acyclic hg).value_unique hval']
  exact hsame id (dataflow_isSome.mpr hid)

theorem needed_of_output (h : Pruned g g') (hid : id ∈ g.outputs) (hmem : id ∈ g.nodes) :
    id ∈ g'.nodes :=
  (h.mem id).mpr ⟨hmem, id, hid, .refl⟩

/-- **The structure** stays right. -/
theorem valid (h : Pruned g g') (hg : g.Valid) : g'.Valid where
  inputs id hid := by
    obtain ⟨hin, hneeded⟩ := (h.inputs id).mp hid
    exact (h.mem id).mpr ⟨hg.inputs id hin, hneeded⟩
  outputs id hid := by
    have hout := (h.outputs id).mp hid
    exact h.needed_of_output hout (hg.outputs id hout)
  closed id node hnode i hi :=
    h.mem_of_input hnode hi (hg.closed id node (h.lookup_eq_some hnode) i hi)
  arity id node hnode := hg.arity id node (h.lookup_eq_some hnode)
  acyclic := h.acyclic hg.acyclic

end Pruned

/-! ### The search -/

/-- The inputs that the nodes not visited yet can still put into the queue. -/
def pending (g : ComputationGraph) (visited : List String) : ℕ :=
  ((g.nodes.keys.filter (· ∉ visited)).map fun id => (g.inputsOf id).length).sum

theorem pending_concat {visited : List String} (hnew : id ∉ visited) :
    (g.inputsOf id).length + g.pending (visited ++ [id]) = g.pending visited := by
  have hnodup : (g.nodes.keys.filter (· ∉ visited)).Nodup :=
    List.Nodup.filter _ g.nodes.nodupKeys
  have hsplit : g.nodes.keys.filter (· ∉ visited ++ [id]) =
      (g.nodes.keys.filter (· ∉ visited)).erase id := by
    rw [hnodup.erase_eq_filter, List.filter_filter]
    refine List.filter_congr fun i _ => ?_
    by_cases hi : i = id <;> simp [hi]
  rw [pending, hsplit]
  by_cases hmem : id ∈ g.nodes
  · have hleft : id ∈ g.nodes.keys.filter (· ∉ visited) :=
      List.mem_filter.mpr ⟨AList.mem_keys.mp hmem, decide_eq_true hnew⟩
    exact List.sum_map_erase (fun i => (g.inputsOf i).length) hleft
  · have hnone : g.inputsOf id = [] := by
      rw [inputsOf, AList.lookup_eq_none.mpr hmem]
      rfl
    have hnot : id ∉ g.nodes.keys.filter (· ∉ visited) := fun h =>
      hmem (AList.mem_keys.mpr (List.mem_filter.mp h).1)
    rw [hnone, List.erase_of_not_mem hnot]
    exact Nat.zero_add _

/-- **The search** ends, with the queue empty. -/
theorem collect_inv {fuel : ℕ} {start visited queue : List String}
    (h : StackWalk.PopInv g.inputsOf start queue visited)
    (hfuel : queue.length + g.pending visited ≤ fuel) :
    StackWalk.PopInv g.inputsOf start [] (g.collect fuel visited queue) := by
  induction fuel generalizing visited queue with
  | zero =>
    have hnil : queue = [] := List.length_eq_zero_iff.mp (by omega)
    rwa [hnil] at h
  | succ fuel ih =>
    cases queue with
    | nil => exact h
    | cons nodeId queue =>
      rw [List.length_cons] at hfuel
      rw [collect]
      by_cases hvisited : nodeId ∈ visited
      · rw [if_pos hvisited]
        exact ih (h.skip hvisited) (by omega)
      · rw [if_neg hvisited]
        refine ih ((h.visit hvisited).congr fun y => ?_) ?_
        · -- only what has been visited already is not put into the queue
          rw [List.mem_append, List.mem_reverse, List.mem_append (s := queue), List.mem_filter,
            decide_eq_true_iff]
          tauto
        · have hle := List.length_filter_le (· ∉ visited ++ [nodeId]) (g.inputsOf nodeId)
          have hpending := pending_concat (g := g) hvisited
          rw [List.length_append]
          omega

theorem mem_collect (outputIds : List String) :
    id ∈ g.collect (g.collectRounds outputIds) [] outputIds ↔
      ∃ out ∈ outputIds, ReflTransGen (fun a i => i ∈ g.inputsOf a) out id := by
  refine (collect_inv (.initial g.inputsOf outputIds) ?_).mem_trail_iff id
  rw [collectRounds, pending]
  simp

/-! ### The subgraph -/

theorem foldl_markInput (l : List String) (s : ComputationGraph) :
    (l.foldl markInput s).nodes = s.nodes ∧ (l.foldl markInput s).outputs = s.outputs ∧
      ∀ id, id ∈ (l.foldl markInput s).inputs ↔ id ∈ s.inputs ∨ id ∈ l := by
  induction l generalizing s with
  | nil => exact ⟨rfl, rfl, fun id => by simp⟩
  | cons nodeId l ih =>
    obtain ⟨hnodes, houtputs, hinputs⟩ := ih (s.markInput nodeId)
    rw [List.foldl_cons, hnodes, houtputs]
    refine ⟨?_, ?_, fun id => (hinputs id).trans ?_⟩
    · unfold markInput
      split <;> rfl
    · unfold markInput
      split <;> rfl
    · rw [markInput, List.mem_cons]
      split
      · next hmem =>
        exact ⟨fun h => h.imp_right Or.inr, fun h => h.elim Or.inl fun h =>
          h.elim (fun heq => Or.inl (heq ▸ hmem)) Or.inr⟩
      · rw [List.mem_append, List.mem_singleton, or_assoc]

theorem foldl_markOutput (l : List String) (s : ComputationGraph) :
    (l.foldl markOutput s).nodes = s.nodes ∧ (l.foldl markOutput s).inputs = s.inputs ∧
      ∀ id, id ∈ (l.foldl markOutput s).outputs ↔ id ∈ s.outputs ∨ id ∈ l := by
  induction l generalizing s with
  | nil => exact ⟨rfl, rfl, fun id => by simp⟩
  | cons nodeId l ih =>
    obtain ⟨hnodes, hinputs, houtputs⟩ := ih (s.markOutput nodeId)
    rw [List.foldl_cons, hnodes, hinputs]
    refine ⟨?_, ?_, fun id => (houtputs id).trans ?_⟩
    · unfold markOutput
      split <;> rfl
    · unfold markOutput
      split <;> rfl
    · rw [markOutput, List.mem_cons]
      split
      · next hmem =>
        exact ⟨fun h => h.imp_right Or.inr, fun h => h.elim Or.inl fun h =>
          h.elim (fun heq => Or.inl (heq ▸ hmem)) Or.inr⟩
      · rw [List.mem_append, List.mem_singleton, or_assoc]

theorem lookup_copyNodes (visited : List String) (m : AList fun _ : String => GraphNode) :
    (g.copyNodes visited m).lookup id =
      if id ∈ visited ∧ id ∈ g.nodes then g.nodes.lookup id else m.lookup id := by
  unfold copyNodes
  induction visited generalizing m with
  | nil => exact (if_neg fun h => List.not_mem_nil h.1).symm
  | cons nodeId visited ih =>
    rw [List.foldl_cons, ih]
    by_cases hold : id ∈ visited ∧ id ∈ g.nodes
    · rw [if_pos hold, if_pos ⟨List.mem_cons_of_mem _ hold.1, hold.2⟩]
    · rw [if_neg hold]
      cases hnode : g.nodes.lookup nodeId with
      | none =>
        have hnot : ¬ (id ∈ nodeId :: visited ∧ id ∈ g.nodes) := by
          rintro ⟨hmem, hid⟩
          rcases List.mem_cons.mp hmem with rfl | hmem
          · exact AList.lookup_eq_none.mp hnode hid
          · exact hold ⟨hmem, hid⟩
        rw [if_neg hnot]
      | some node =>
        by_cases heq : id = nodeId
        · subst heq
          rw [if_pos ⟨List.mem_cons_self, mem_nodes_iff.mpr ⟨node, hnode⟩⟩, hnode]
          exact AList.lookup_insert _
        · have hnot : ¬ (id ∈ nodeId :: visited ∧ id ∈ g.nodes) := fun h =>
            hold ⟨(List.mem_cons.mp h.1).resolve_left heq, h.2⟩
          rw [if_neg hnot]
          exact AList.lookup_insert_ne heq

/-- **`extract_subgraph`** copies what has been visited. -/
theorem extractSubgraph_spec (g : ComputationGraph) (outputIds : List String) :
    ∃ sub, g.extractSubgraph outputIds = .ok sub ∧
      let visited := g.collect (g.collectRounds outputIds) [] outputIds
      (∀ id, sub.nodes.lookup id =
        if id ∈ visited ∧ id ∈ g.nodes then g.nodes.lookup id else none) ∧
      (∀ id, id ∈ sub.inputs ↔ id ∈ g.inputs ∧ id ∈ visited) ∧
      ∀ id, id ∈ sub.outputs ↔ id ∈ outputIds := by
  refine ⟨_, rfl, fun id => ?_, fun id => ?_, fun id => ?_⟩
  · rw [(foldl_markOutput _ _).1]
    dsimp only
    rw [lookup_copyNodes, (foldl_markInput _ _).1]
    rfl
  · rw [(foldl_markOutput _ _).2.1]
    dsimp only
    rw [(foldl_markInput _ _).2.2, List.mem_filter, decide_eq_true_iff]
    exact or_iff_right List.not_mem_nil
  · rw [(foldl_markOutput _ _).2.2]
    dsimp only
    rw [(foldl_markInput _ _).2.1]
    exact or_iff_right List.not_mem_nil

/-- **`remove_dead_nodes`** leaves what the outputs need. -/
theorem removeDeadNodes_spec (g : ComputationGraph) :
    ∃ g', g.removeDeadNodes = .ok (g', (g.nodes.keys.filter (· ∉ g'.nodes)).length) ∧
      Pruned g g' := by
  obtain ⟨g', hg', hlookup, hinputs, houtputs⟩ := extractSubgraph_spec g g.outputs
  have hmem : ∀ id, id ∈ g'.nodes ↔ id ∈ g.nodes ∧ g.Needed id := by
    intro id
    rw [← AList.lookup_isSome, hlookup, Needed, ← mem_collect]
    split
    · next h => exact iff_of_true (AList.lookup_isSome.mpr h.2) ⟨h.2, h.1⟩
    · next h => exact iff_of_false Bool.false_ne_true fun h' => h ⟨h'.2, h'.1⟩
  refine ⟨g', ?_, hmem, fun id hid => ?_, fun id => ?_, houtputs⟩
  · -- the nodes that are left are those of the graph that are not removed
    have hperm : g'.nodes.keys.Perm (g.nodes.keys.filter (· ∈ g'.nodes)) := by
      refine (List.perm_ext_iff_of_nodup g'.nodes.nodupKeys
        (List.Nodup.filter _ g.nodes.nodupKeys)).mpr fun id => ?_
      rw [List.mem_filter, decide_eq_true_iff]
      exact ⟨fun h => ⟨((hmem id).mp h).1, h⟩, fun h => h.2⟩
    have hsplit := List.length_eq_length_filter_add (l := g.nodes.keys) (· ∈ g'.nodes)
    have hlength := hperm.length_eq
    rw [AssocMap.length_keys] at hsplit hlength
    rw [removeDeadNodes, hg']
    show Except.ok (g', _) = Except.ok (g', _)
    congr 2
    simp only [decide_not]
    omega
  · rw [hlookup, if_pos ⟨(mem_collect g.outputs).mpr ((hmem id).mp hid).2, ((hmem id).mp hid).1⟩]
  · rw [hinputs, mem_collect, Needed]

/-- **Both passes preserve the meaning** of a graph without a cycle. Common subexpression
elimination makes no cycle and changes no value. Dead node removal keeps the nodes that the outputs
need, as they are and with their values, and returns the number of the others. -/
theorem passes_preserve {Text : Type} [DecidableEq Text]
    {signature : TensorOp → List String → Text}
    (hsignature : ∀ op ins op' ins', signature op ins = signature op' ins' → op = op' ∧ ins = ins')
    (hacyclic : g.Acyclic) {V : Type} (interp : TensorOp → List V → V) (ext : String → V) :
    (∀ order, (g.optimizeCse signature order).1.Acyclic ∧
      ∀ id, (id ∈ (g.optimizeCse signature order).1.nodes ↔ id ∈ g.nodes) ∧
        (g.optimizeCse signature order).1.value interp ext id = g.value interp ext id) ∧
    ∃ g' removed, g.removeDeadNodes = .ok (g', removed) ∧
      (∀ id, id ∈ g'.nodes ↔ id ∈ g.nodes ∧ g.Needed id) ∧
      (∀ id ∈ g'.nodes, g'.nodes.lookup id = g.nodes.lookup id ∧
        g'.value interp ext id = g.value interp ext id) ∧
      removed = (g.nodes.keys.filter (· ∉ g'.nodes)).length := by
  refine ⟨fun order => ?_, ?_⟩
  · obtain ⟨rank, σ, hrank, hσ, heq⟩ := optimizeCse_spec hsignature hacyclic order
    rw [heq]
    exact ⟨hσ.acyclic hrank, fun id => ⟨mem_renamed, hσ.value_eq hrank interp ext id⟩⟩
  · obtain ⟨g', hg', hpruned⟩ := removeDeadNodes_spec g
    exact ⟨g', _, hg', hpruned.mem,
      fun id hid => ⟨hpruned.lookup id hid, hpruned.value_eq hacyclic interp ext hid⟩, rfl⟩

/-- An interpretation over the natural numbers. The fused operations are what they replace. -/
def arithmetic : TensorOp → List ℕ → ℕ
  | .input name, _ => name.length
  | .add, [a, b] | .fusedAddReLU, [a, b] => a + b
  | .mul, [a, b] | .matMul, [a, b] => a * b
  | .fusedLinear, [x, w, b] => x * w + b
  | .relu, [a] | .batchNorm _ _, [a] | .layerNorm _ _, [a] | .dropout _, [a] => a
  | .fusedBatchNormReLU _ _, [a] | .fusedLayerNormDropout _ _ _, [a] => a
  | _, _ => 0

/-- A graph with one sum computed twice, and with a node that the output does not need. -/
def sampleSums : ComputationGraph :=
  .ofNodes [("a", .input "x", []), ("b", .input "yz", []), ("add1", .add, ["a", "b"]),
    ("add2", .add, ["a", "b"]), ("mul", .mul, ["add1", "add2"]), ("dead", .relu, ["mul"])]
    ["a", "b"] ["mul"]

theorem passes_preserve_sampleSums :
    (sampleSums.optimizeCse Prod.mk .given).1.value arithmetic (fun _ => 0) "mul" = 9 ∧
      ∃ g' removed, sampleSums.removeDeadNodes = .ok (g', removed) ∧
        g'.value arithmetic (fun _ => 0) "mul" = 9 := by
  have hsorted : sampleSums.topologicalSort .given =
      .ok ["a", "b", "add2", "add1", "mul", "dead"] := by decide +kernel
  have hvalue : sampleSums.value arithmetic (fun _ => 0) "mul" = 9 := by decide +kernel
  have hmul : "mul" ∈ sampleSums.nodes := by decide +kernel
  obtain ⟨hcse, g', removed, hg', hmem, hkept, -⟩ :=
    passes_preserve (fun _ _ _ _ => Prod.mk.inj) (acyclic_of_topologicalSort hsorted)
      arithmetic fun _ => 0
  refine ⟨((hcse .given).2 "mul").2.trans hvalue, g', removed, hg', ?_⟩
  have hneeded : sampleSums.Needed "mul" := ⟨"mul", List.mem_singleton_self _, .refl⟩
  exact (hkept "mul" ((hmem "mul").mpr ⟨hmul, hneeded⟩)).2.trans hvalue

end ComputationGraph

end Ipfrs.Tensorlogic
