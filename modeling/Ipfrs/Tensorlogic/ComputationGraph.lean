import Ipfrs.Core.Cid
import Ipfrs.Lib.Dataflow
import Ipfrs.Lib.Fallible

/-!
# Computation graphs

The graphs of tensor operations of `ipfrs-tensorlogic/src/computation_graph.rs`: nodes under string
ids, a topological sort, and a check of the structure. The orders in which hash maps are gone
through are arguments.

* `topologicalSort_sound`, `exists_topologicalSort` — the sort gives a topological order, and it
  succeeds on the graphs without a cycle;
* `validate_eq_ok_iff` — what `validate` checks;
* `Acyclic.valuation`, `Acyclic.value_unique` — the values of the nodes, over an interpretation of
  the operations as functions of the values of their inputs.
-/

namespace Ipfrs.Tensorlogic

open Relation

inductive GraphError where
  | nodeNotFound (message : String)
  | circularDependency
  | invalidGraph (message : String)
  deriving DecidableEq, Repr

/-- `TensorOp`. A parameter of type `f64` is given by its bits, all NaNs by the same. -/
inductive TensorOp where
  | input (name : String)
  | constant (valueCid : String)
  | matMul
  | add
  | mul
  | sub
  | div
  | einsum (subscripts : String)
  | reshape (shape : List Int64)
  | transpose (axes : List ℕ)
  | reduceSum (axes : List ℕ) (keepdims : Bool)
  | reduceMean (axes : List ℕ) (keepdims : Bool)
  | relu
  | tanh
  | sigmoid
  | gelu
  | softmax (axis : Int64)
  | layerNorm (normalizedShape : List ℕ) (eps : UInt64)
  | batchNorm (eps momentum : UInt64)
  | dropout (p : UInt64)
  | exp
  | log
  | pow (exponent : UInt64)
  | sqrt
  | concat (axis : ℕ)
  | split (axis : ℕ) (sections : List ℕ)
  | gather (axis : ℕ)
  | scatter (axis : ℕ)
  | slice (start stop strides : List Int64)
  | pad (padding : List (ℕ × ℕ)) (mode : String)
  | fusedLinear
  | fusedAddReLU
  | fusedBatchNormReLU (eps momentum : UInt64)
  | fusedLayerNormDropout (normalizedShape : List ℕ) (eps dropoutP : UInt64)
  deriving DecidableEq

def TensorOp.numInputs : TensorOp → ℕ
  | input _ | constant _ => 0
  | relu | tanh | sigmoid | gelu | softmax _ | layerNorm _ _ | batchNorm _ _ | dropout _ | exp | log
  | pow _ | sqrt | reshape _ | transpose _ | reduceSum _ _ | reduceMean _ _ | slice _ _ _
  | pad _ _ => 1
  | matMul | add | mul | sub | div | gather _ | scatter _ | fusedAddReLU => 2
  | einsum _ => 2
  | concat _ | split _ _ => 1
  | fusedLinear => 3
  | fusedBatchNormReLU _ _ => 1
  | fusedLayerNormDropout _ _ _ => 1

structure GraphNode where
  id : String
  op : TensorOp
  inputs : List String
  outputShape : Option (List ℕ)
  metadata : AList fun _ : String => String
  deriving DecidableEq

structure ComputationGraph where
  nodes : AList fun _ : String => GraphNode
  inputs : List String
  outputs : List String
  metadata : AList fun _ : String => String
  cid : Option Cid

/-- An order in which a hash map is gone through: a permutation of its keys. -/
structure HashOrder where
  arrange : List String → List String
  perm : ∀ l, (arrange l).Perm l

/-- The orders of the two hash maps in `topological_sort`. -/
structure SortOrder where
  nodes : HashOrder
  inDegree : HashOrder

/-- The order in which the keys are given. -/
def HashOrder.given : HashOrder := ⟨id, fun l => List.Perm.refl l⟩

/-- Both orders are the given ones. -/
def SortOrder.given : SortOrder := ⟨.given, .given⟩

namespace ComputationGraph

def new : ComputationGraph := ⟨∅, [], [], ∅, none⟩

variable (g : ComputationGraph)

def markInput (nodeId : String) : ComputationGraph :=
  if nodeId ∈ g.inputs then g else { g with inputs := g.inputs ++ [nodeId] }

def markOutput (nodeId : String) : ComputationGraph :=
  if nodeId ∈ g.outputs then g else { g with outputs := g.outputs ++ [nodeId] }

def nodeCount : ℕ := g.nodes.entries.length

/-- The inputs of a node. An id that is not a node has none. -/
def inputsOf (id : String) : List String :=
  ((g.nodes.lookup id).map GraphNode.inputs).getD []

/-- The nodes with their inputs, in some order. -/
def entries (order : HashOrder) (g : ComputationGraph) : List (String × List String) :=
  (order.arrange g.nodes.keys).map fun id => (id, g.inputsOf id)

def topologicalSort (order : SortOrder) (g : ComputationGraph) :
    Except GraphError (List String) :=
  match Kahn.sort order.inDegree.arrange (g.entries order.nodes) with
  | none => .error .circularDependency
  | some result => .ok result

/-- The checks of `validate` on one node. -/
def validateNode (nodeId : String) : Except GraphError Unit :=
  match g.nodes.lookup nodeId with
  | none => .ok ()
  | some node => do
    node.inputs.forM fun inputId =>
      if inputId ∉ g.nodes ∧ inputId ∉ g.inputs then
        .error (.nodeNotFound s!"Node {nodeId} references non-existent input {inputId}")
      else .ok ()
    let expectedInputs := node.op.numInputs
    if node.inputs.length ≠ expectedInputs ∧ 0 < expectedInputs then
      .error (.invalidGraph
        s!"Node {nodeId} expects {expectedInputs} inputs but has {node.inputs.length}")
    else .ok ()

def validate (order : SortOrder) (g : ComputationGraph) : Except GraphError Unit := do
  g.inputs.forM fun inputId =>
    if inputId ∈ g.nodes then .ok ()
    else .error (.nodeNotFound s!"Input node {inputId} not found")
  g.outputs.forM fun outputId =>
    if outputId ∈ g.nodes then .ok ()
    else .error (.nodeNotFound s!"Output node {outputId} not found")
  (order.nodes.arrange g.nodes.keys).forM g.validateNode
  (g.topologicalSort order).map fun _ => ()

/-- A graph with the given nodes, each with its id, its operation and its inputs. -/
def ofNodes (nodes : List (String × TensorOp × List String)) (inputs outputs : List String) :
    ComputationGraph :=
  { new with
    nodes := nodes.foldl (fun m node =>
      m.insert node.1 ⟨node.1, node.2.1, node.2.2, none, ∅⟩) ∅
    inputs := inputs
    outputs := outputs }

/-! ### Cycles -/

/-- One node is an input of the other. -/
def Edge (a b : String) : Prop :=
  ∃ node, g.nodes.lookup b = some node ∧ a ∈ node.inputs ∧ a ∈ g.nodes

/-- There is no cycle. -/
def Acyclic : Prop := ∀ a, ¬ TransGen g.Edge a a

/-- The operations and inputs of the nodes. -/
def dataflow : Dataflow.Graph String TensorOp := fun id =>
  (g.nodes.lookup id).map fun node => (node.op, node.inputs)

variable {g : ComputationGraph} {order : SortOrder} {o : HashOrder} {rank : String → ℕ}
variable {id : String} {ins sorted : List String} {node : GraphNode} {p : Prop} {e : GraphError}

theorem dataflow_eq_some {op : TensorOp} :
    g.dataflow id = some (op, ins) ↔
      ∃ node, g.nodes.lookup id = some node ∧ node.op = op ∧ node.inputs = ins := by
  rw [dataflow, Option.map_eq_some_iff]
  exact exists_congr fun node => and_congr_right fun _ => Prod.mk_inj

theorem dataflow_of_lookup (h : g.nodes.lookup id = some node) :
    g.dataflow id = some (node.op, node.inputs) := by
  rw [dataflow, h, Option.map_some]

theorem dataflow_isSome : (g.dataflow id).isSome ↔ id ∈ g.nodes := by
  rw [dataflow, Option.isSome_map, AList.lookup_isSome]

theorem dataflow_eq_none : g.dataflow id = none ↔ id ∉ g.nodes := by
  rw [dataflow, Option.map_eq_none_iff, AList.lookup_eq_none]

theorem mem_nodes_iff : id ∈ g.nodes ↔ ∃ node, g.nodes.lookup id = some node := by
  rw [← AList.lookup_isSome, Option.isSome_iff_exists]

theorem mem_entries :
    (id, ins) ∈ g.entries o ↔ ∃ node, g.nodes.lookup id = some node ∧ node.inputs = ins := by
  rw [entries, List.mem_map]
  constructor
  · rintro ⟨id, hmem, heq⟩
    obtain ⟨rfl, rfl⟩ := Prod.mk.inj heq
    obtain ⟨node, hnode⟩ := mem_nodes_iff.mp (AList.mem_keys.mpr ((o.perm _).mem_iff.mp hmem))
    exact ⟨node, hnode, by rw [inputsOf, hnode]; rfl⟩
  · rintro ⟨node, hnode, rfl⟩
    refine ⟨id, (o.perm _).mem_iff.mpr (AList.mem_keys.mp (mem_nodes_iff.mpr ⟨node, hnode⟩)), ?_⟩
    rw [inputsOf, hnode]
    rfl

theorem map_fst_entries : (g.entries o).map Prod.fst = o.arrange g.nodes.keys := by
  rw [entries, List.map_map]
  exact List.map_id _

theorem nodup_entries : ((g.entries o).map Prod.fst).Nodup := by
  rw [map_fst_entries, (o.perm _).nodup_iff]
  exact g.nodes.nodupKeys

theorem mem_map_fst_entries : id ∈ (g.entries o).map Prod.fst ↔ id ∈ g.nodes := by
  rw [map_fst_entries, (o.perm _).mem_iff, AList.mem_keys]

theorem lists_entries : Dataflow.Lists (g.entries o) g.dataflow := by
  intro id ins
  rw [mem_entries]
  constructor
  · rintro ⟨node, hnode, rfl⟩
    exact ⟨node.op, dataflow_of_lookup hnode⟩
  · rintro ⟨op, hop⟩
    obtain ⟨node, hnode, -, rfl⟩ := dataflow_eq_some.mp hop
    exact ⟨node, hnode, rfl⟩

theorem edge_entries : Kahn.Edge (g.entries o) = g.Edge := by
  ext a b
  constructor
  · rintro ⟨ins, hentry, ha, hmem⟩
    obtain ⟨node, hnode, rfl⟩ := mem_entries.mp hentry
    exact ⟨node, hnode, ha, mem_map_fst_entries.mp hmem⟩
  · rintro ⟨node, hnode, ha, hmem⟩
    exact ⟨node.inputs, mem_entries.mpr ⟨node, hnode, rfl⟩, ha, mem_map_fst_entries.mpr hmem⟩

theorem acyclic_entries : Kahn.Acyclic (g.entries o) ↔ g.Acyclic := by
  rw [Kahn.Acyclic, edge_entries, Acyclic]

theorem acyclic_of_ranked (h : Dataflow.Ranked g.dataflow rank) : g.Acyclic :=
  (acyclic_entries (o := .given)).mp (Dataflow.acyclic_of_ranked lists_entries h)

/-- **The sort** gives a topological order. -/
theorem topologicalSort_sound (h : g.topologicalSort order = .ok sorted) :
    Kahn.Topological (g.entries order.nodes) sorted := by
  rw [topologicalSort] at h
  split at h
  · cases h
  · next result hresult =>
    obtain rfl := Except.ok.inj h
    exact Kahn.sort_sound nodup_entries order.inDegree.perm hresult

/-- **The sort** succeeds on a graph without a cycle. -/
theorem exists_topologicalSort (h : g.Acyclic) (order : SortOrder) :
    ∃ sorted, g.topologicalSort order = .ok sorted := by
  obtain ⟨sorted, hsorted⟩ := Kahn.sort_complete nodup_entries order.inDegree.perm
    ((acyclic_entries (o := order.nodes)).mpr h)
  exact ⟨sorted, by rw [topologicalSort, hsorted]⟩

theorem acyclic_of_topologicalSort (h : g.topologicalSort order = .ok sorted) : g.Acyclic :=
  acyclic_entries.mp (topologicalSort_sound h).acyclic

theorem mem_of_topologicalSort (h : g.topologicalSort order = .ok sorted) :
    id ∈ sorted ↔ id ∈ g.nodes := by
  rw [(topologicalSort_sound h).perm.mem_iff, mem_map_fst_entries]

theorem nodup_of_topologicalSort (h : g.topologicalSort order = .ok sorted) : sorted.Nodup :=
  (topologicalSort_sound h).perm.nodup_iff.mpr nodup_entries

theorem ranked_of_topologicalSort (h : g.topologicalSort order = .ok sorted) :
    Dataflow.Ranked g.dataflow sorted.idxOf :=
  (Dataflow.ranked_of_topological lists_entries (topologicalSort_sound h)).1

/-! ### The values of the nodes -/

section Value

variable {V : Type} {interp : TensorOp → List V → V} {ext : String → V} {val : String → V}

/-- The value of a node, over an interpretation of the operations and values for the ids that are
not nodes. -/
def value (interp : TensorOp → List V → V) (ext : String → V) (g : ComputationGraph) :
    String → V :=
  Dataflow.eval interp ext g.dataflow g.nodeCount

/-- **The values of a graph without a cycle** are what the operations give for the values of the
inputs. -/
theorem Acyclic.valuation (h : g.Acyclic) :
    Dataflow.Valuation interp ext g.dataflow (g.value interp ext) := by
  obtain ⟨sorted, hsorted⟩ := exists_topologicalSort h .given
  obtain ⟨hrank, hbound⟩ :=
    Dataflow.ranked_of_topological lists_entries (topologicalSort_sound hsorted)
  have hlength : (g.entries SortOrder.given.nodes).length = g.nodeCount := by
    rw [entries, List.length_map]
    exact List.length_map _
  rw [hlength] at hbound
  exact hrank.valuation_eval hbound

/-- **No other values** are. -/
theorem Acyclic.value_unique (h : g.Acyclic) (hval : Dataflow.Valuation interp ext g.dataflow val) :
    val = g.value interp ext := by
  obtain ⟨sorted, hsorted⟩ := exists_topologicalSort h .given
  exact (ranked_of_topologicalSort hsorted).unique hval h.valuation

end Value

/-! ### What is checked -/

/-- The structure of a graph is right. -/
structure Valid (g : ComputationGraph) : Prop where
  inputs : ∀ id ∈ g.inputs, id ∈ g.nodes
  outputs : ∀ id ∈ g.outputs, id ∈ g.nodes
  closed : ∀ id node, g.nodes.lookup id = some node → ∀ i ∈ node.inputs, i ∈ g.nodes
  arity : ∀ id node, g.nodes.lookup id = some node →
    0 < node.op.numInputs → node.inputs.length = node.op.numInputs
  acyclic : g.Acyclic

theorem require_eq_ok_iff [Decidable p] :
    (if p then .ok () else .error e : Except GraphError Unit) = .ok () ↔ p := by
  by_cases hp : p
  · rw [if_pos hp]
    exact iff_of_true rfl hp
  · rw [if_neg hp]
    exact iff_of_false (fun h => by cases h) hp

theorem reject_eq_ok_iff [Decidable p] :
    (if p then .error e else .ok () : Except GraphError Unit) = .ok () ↔ ¬ p := by
  rw [← ite_not, require_eq_ok_iff]

theorem validateNode_eq_ok_iff (h : g.nodes.lookup id = some node) :
    g.validateNode id = .ok () ↔ (∀ i ∈ node.inputs, i ∈ g.nodes ∨ i ∈ g.inputs) ∧
      (0 < node.op.numInputs → node.inputs.length = node.op.numInputs) := by
  rw [validateNode, h]
  dsimp only
  rw [Except.forM_bind_eq_ok_iff]
  refine and_congr (forall₂_congr fun i _ => ?_) ?_
  · rw [reject_eq_ok_iff, not_and_or, not_not, not_not]
  · rw [reject_eq_ok_iff, not_and', not_not]

/-- **What `validate` checks**, in whatever order. -/
theorem validate_eq_ok_iff : g.validate order = .ok () ↔ g.Valid := by
  have hnodes : (∀ id ∈ order.nodes.arrange g.nodes.keys, g.validateNode id = .ok ()) ↔
      ∀ id node, g.nodes.lookup id = some node →
        (∀ i ∈ node.inputs, i ∈ g.nodes ∨ i ∈ g.inputs) ∧
          (0 < node.op.numInputs → node.inputs.length = node.op.numInputs) := by
    constructor
    · intro h id node hnode
      have hmem := AList.mem_keys.mp (mem_nodes_iff.mpr ⟨node, hnode⟩)
      exact (validateNode_eq_ok_iff hnode).mp (h id ((order.nodes.perm _).mem_iff.mpr hmem))
    · intro h id hmem
      obtain ⟨node, hnode⟩ :=
        mem_nodes_iff.mp (AList.mem_keys.mpr ((order.nodes.perm _).mem_iff.mp hmem))
      exact (validateNode_eq_ok_iff hnode).mpr (h id node hnode)
  rw [validate, Except.forM_bind_eq_ok_iff, Except.forM_bind_eq_ok_iff, Except.forM_bind_eq_ok_iff,
    hnodes, Except.map_eq_ok_iff]
  simp only [require_eq_ok_iff]
  constructor
  · rintro ⟨hinputs, houtputs, hchecked, sorted, hsorted, -⟩
    refine ⟨hinputs, houtputs, fun id node hnode i hi => ?_, fun id node hnode =>
      (hchecked id node hnode).2, acyclic_of_topologicalSort hsorted⟩
    rcases (hchecked id node hnode).1 i hi with hmem | hin
    · exact hmem
    · exact hinputs i hin
  · intro h
    obtain ⟨sorted, hsorted⟩ := exists_topologicalSort h.acyclic order
    exact ⟨h.inputs, h.outputs, fun id node hnode =>
      ⟨fun i hi => Or.inl (h.closed id node hnode i hi), h.arity id node hnode⟩,
      sorted, hsorted, trivial⟩

end ComputationGraph

end Ipfrs.Tensorlogic
