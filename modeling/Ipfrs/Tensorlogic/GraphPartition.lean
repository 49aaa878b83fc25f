import Ipfrs.Tensorlogic.GraphReduction

/-!
# Partitioning a graph

The `DistributedExecutor` of `ipfrs-tensorlogic/src/computation_graph.rs`. The nodes of a graph are
dealt out to workers in topological order, the edges between workers are entered on both sides, and
every partition gets its subgraph. Assignments and partitions stay from one call to the next.

What comes from another worker is marked as an input of a subgraph only if it is an input of the
whole graph; and the partitions of workers that are not given keep the nodes that they had. So a
call does what it should if and only if the edges between workers begin in inputs of the graph and
the other partitions are empty (`Separable`).

* `assign_spec`, `connect_spec` — what the loops do;
* `partitionGraph_complete_iff` — when the partitions are complete.
-/

namespace Ipfrs.Tensorlogic

structure NodeAssignment where
  nodeId : String
  workerId : String
  priority : ℕ
  deriving DecidableEq

structure GraphPartition where
  workerId : String
  nodes : List String
  externalInputs : AList fun _ : String => String
  externalOutputs : List String
  subgraph : Option ComputationGraph

namespace GraphPartition

def new (workerId : String) : GraphPartition := ⟨workerId, [], ∅, [], none⟩

def addNode (nodeId : String) (p : GraphPartition) : GraphPartition :=
  if nodeId ∈ p.nodes then p else { p with nodes := p.nodes ++ [nodeId] }

def addExternalInput (nodeId sourceWorkerId : String) (p : GraphPartition) : GraphPartition :=
  { p with externalInputs := p.externalInputs.insert nodeId sourceWorkerId }

def markExternalOutput (nodeId : String) (p : GraphPartition) : GraphPartition :=
  if nodeId ∈ p.externalOutputs then p
  else { p with externalOutputs := p.externalOutputs ++ [nodeId] }

/-- The subgraph of a partition, in the last loop of `partition_graph`. -/
def buildSubgraph (order : HashOrder) (g : ComputationGraph) (p : GraphPartition) :
    ComputationGraph :=
  let subgraph := { ComputationGraph.new with nodes := g.copyNodes p.nodes ∅ }
  let subgraph := ((order.arrange p.externalInputs.keys).filter fun inputId =>
    inputId ∈ subgraph.nodes ∨ inputId ∈ g.inputs).foldl .markInput subgraph
  let subgraph := (p.externalOutputs.filter (· ∈ subgraph.nodes)).foldl .markOutput subgraph
  let subgraph := (g.inputs.filter (· ∈ p.nodes)).foldl .markInput subgraph
  (g.outputs.filter (· ∈ p.nodes)).foldl .markOutput subgraph

end GraphPartition

/-- The partitions of the workers. -/
abbrev Partitions := AList fun _ : String => GraphPartition

structure DistributedExecutor where
  assignments : AList fun _ : String => NodeAssignment
  partitions : Partitions

/-- The orders of the hash maps in `partition_graph`. -/
structure PartitionOrder where
  sort : SortOrder
  nodes : HashOrder
  externalInputs : String → HashOrder

/-- All orders are the given ones. -/
def PartitionOrder.given : PartitionOrder := ⟨.given, .given, fun _ => .given⟩

namespace DistributedExecutor

def new : DistributedExecutor := ⟨∅, ∅⟩

/-- The worker at a place, in round-robin fashion. -/
def workerAt (workerIds : List String) (idx : ℕ) : String :=
  workerIds.getD (idx % workerIds.length) ""

/-- The partitions of the given workers are new. -/
def createPartitions (workerIds : List String) (partitions : Partitions) : Partitions :=
  workerIds.foldl (fun m workerId => m.insert workerId (.new workerId)) partitions

/-- One node is assigned to its worker. -/
def assign (workerIds : List String) (e : DistributedExecutor) (entry : String × ℕ) :
    DistributedExecutor :=
  let workerId := workerAt workerIds entry.2
  { e with
    assignments := e.assignments.insert entry.1 ⟨entry.1, workerId, entry.2⟩
    partitions := AssocMap.modify workerId (.addNode entry.1) e.partitions }

/-- One input of a node: a dependency between workers is entered on both sides. -/
def connectInput (assignments : AList fun _ : String => NodeAssignment) (workerId : String)
    (partitions : Partitions) (inputId : String) : Partitions :=
  match assignments.lookup inputId with
  | none => partitions
  | some inputAssignment =>
    if inputAssignment.workerId ≠ workerId then
      AssocMap.modify inputAssignment.workerId (.markExternalOutput inputId)
        (AssocMap.modify workerId (.addExternalInput inputId inputAssignment.workerId) partitions)
    else partitions

/-- All inputs of a node. -/
def connect (g : ComputationGraph) (assignments : AList fun _ : String => NodeAssignment)
    (partitions : Partitions) (nodeId : String) : Partitions :=
  match assignments.lookup nodeId with
  | none => partitions
  | some assignment =>
    (g.inputsOf nodeId).foldl (connectInput assignments assignment.workerId) partitions

def partitionGraph (order : PartitionOrder) (e : DistributedExecutor) (g : ComputationGraph)
    (workerIds : List String) : Except GraphError DistributedExecutor :=
  if workerIds = [] then .error (.invalidGraph "No workers available")
  else do
    let sorted ← g.topologicalSort order.sort
    let e := { e with partitions := createPartitions workerIds e.partitions }
    let e := sorted.zipIdx.foldl (assign workerIds) e
    let ids := order.nodes.arrange g.nodes.keys
    let partitions := ids.foldl (connect g e.assignments) e.partitions
    return { e with
      partitions := AssocMap.mapValues (fun p =>
        { p with subgraph := some (p.buildSubgraph (order.externalInputs p.workerId) g) })
        partitions }

/-! ### The loops -/

variable {g : ComputationGraph} {e e' : DistributedExecutor} {workerIds sorted : List String}
  {workerOf : String → String} {partitions : Partitions}
  {assignments : AList fun _ : String => NodeAssignment}

theorem workerAt_mem (h : workerIds ≠ []) (idx : ℕ) : workerAt workerIds idx ∈ workerIds := by
  have hlt : idx % workerIds.length < workerIds.length :=
    Nat.mod_lt _ (List.length_pos_of_ne_nil h)
  rw [workerAt, List.getD_eq_getElem?_getD, List.getElem?_eq_getElem hlt, Option.getD_some]
  exact List.getElem_mem hlt

theorem lookup_createPartitions (workerIds : List String) (partitions : Partitions) (w : String) :
    (createPartitions workerIds partitions).lookup w =
      if w ∈ workerIds then some (.new w) else partitions.lookup w := by
  unfold createPartitions
  induction workerIds generalizing partitions with
  | nil => exact (if_neg List.not_mem_nil).symm
  | cons w' workerIds ih =>
    rw [List.foldl_cons, ih]
    by_cases hw : w ∈ workerIds
    · rw [if_pos hw, if_pos (List.mem_cons_of_mem _ hw)]
    · rw [if_neg hw]
      by_cases heq : w = w'
      · subst heq
        rw [AList.lookup_insert, if_pos List.mem_cons_self]
      · rw [AList.lookup_insert_ne heq, if_neg fun hmem => (List.mem_cons.mp hmem).elim heq hw]

variable {p : GraphPartition} {old : Partitions} {done : List String} {a b w : String}

theorem mem_addNode {id nodeId : String} :
    id ∈ (p.addNode nodeId).nodes ↔ id ∈ p.nodes ∨ id = nodeId := by
  unfold GraphPartition.addNode
  split
  · next hmem =>
    refine (or_iff_left_of_imp ?_).symm
    rintro rfl
    exact hmem
  · rw [List.mem_append, List.mem_singleton]

/-- What the loop over the order knows: the nodes so far are with their workers, and the partitions
of other workers are as they were. -/
structure Assigned (workerIds : List String) (workerOf : String → String) (old : Partitions)
    (done : List String) (e : DistributedExecutor) : Prop where
  given : ∀ w ∈ workerIds, ∃ p, e.partitions.lookup w = some p ∧
    ∀ id, id ∈ p.nodes ↔ id ∈ done ∧ workerOf id = w
  others : ∀ w ∉ workerIds, e.partitions.lookup w = old.lookup w
  assignments : ∀ id ∈ done, ∃ a, e.assignments.lookup id = some a ∧ a.workerId = workerOf id

/-- **One round** of the loop over the order. -/
theorem Assigned.step {id : String} {idx : ℕ} (h : Assigned workerIds workerOf old done e)
    (hworkers : workerIds ≠ []) (hid : workerOf id = workerAt workerIds idx) :
    Assigned workerIds workerOf old (done ++ [id]) (assign workerIds e (id, idx)) := by
  rw [assign, ← hid]
  refine ⟨fun w hw => ?_, fun w hw => ?_, fun i hi => ?_⟩
  · obtain ⟨p, hp, hnodes⟩ := h.given w hw
    dsimp only
    rw [AssocMap.lookup_modify]
    by_cases heq : w = workerOf id
    · subst heq
      -- the worker of the node gets it
      refine ⟨p.addNode id, by rw [if_pos rfl, hp, Option.map_some], fun i => ?_⟩
      rw [mem_addNode, hnodes, List.mem_append, List.mem_singleton]
      constructor
      · rintro (⟨hi, hw⟩ | rfl)
        · exact ⟨Or.inl hi, hw⟩
        · exact ⟨Or.inr rfl, rfl⟩
      · rintro ⟨hi | rfl, hw⟩
        · exact Or.inl ⟨hi, hw⟩
        · exact Or.inr rfl
    · refine ⟨p, by rw [if_neg heq, hp], fun i => ?_⟩
      rw [hnodes, List.mem_append, List.mem_singleton]
      refine and_congr_left fun hi => (or_iff_left ?_).symm
      rintro rfl
      exact heq hi.symm
  · have hne : w ≠ workerOf id := by
      rintro rfl
      exact hw (hid ▸ workerAt_mem hworkers idx)
    dsimp only
    rw [AssocMap.lookup_modify, if_neg hne, h.others w hw]
  · dsimp only
    by_cases heq : i = id
    · subst heq
      exact ⟨_, AList.lookup_insert _, rfl⟩
    · rw [AList.lookup_insert_ne heq]
      rw [List.mem_append, List.mem_singleton, or_iff_left heq] at hi
      exact h.assignments i hi

/-- The worker of a node: its place in the order decides. -/
def workerOfPlace (workerIds sorted : List String) (id : String) : String :=
  workerAt workerIds (sorted.idxOf id)

/-- **The loop** over the order. -/
theorem assign_spec {rest : List String} (hworkers : workerIds ≠ [])
    (hsorted : done ++ rest = sorted) (hnodup : sorted.Nodup)
    (h : Assigned workerIds (workerOfPlace workerIds sorted) old done e) :
    Assigned workerIds (workerOfPlace workerIds sorted) old sorted
      ((rest.zipIdx done.length).foldl (assign workerIds) e) := by
  induction rest generalizing done e with
  | nil =>
    rw [List.append_nil] at hsorted
    subst hsorted
    exact h
  | cons id rest ih =>
    have hplace : sorted.idxOf id = done.length := by
      have hnot : id ∉ done := by
        rw [← hsorted] at hnodup
        exact fun hdone => List.disjoint_of_nodup_append hnodup hdone List.mem_cons_self
      rw [← hsorted, List.idxOf_append_of_notMem hnot, List.idxOf_cons_self, Nat.add_zero]
    have hworker : workerOfPlace workerIds sorted id = workerAt workerIds done.length := by
      rw [workerOfPlace, hplace]
    have hnext := h.step hworkers hworker
    rw [List.zipIdx_cons, List.foldl_cons, ← List.length_singleton (a := id),
      ← List.length_append]
    refine ih ?_ hnext
    rw [List.append_assoc, List.singleton_append, hsorted]

/-- A dependency between workers is entered on both sides. -/
def Linked (workerOf : String → String) (partitions : Partitions) (a b : String) : Prop :=
  (∃ p, partitions.lookup (workerOf b) = some p ∧
    p.externalInputs.lookup a = some (workerOf a)) ∧
  ∃ p, partitions.lookup (workerOf a) = some p ∧ a ∈ p.externalOutputs

/-- The partitions have the same nodes, and no dependency is lost. -/
structure Follows (workerOf : String → String) (old new : Partitions) : Prop where
  nodes : ∀ w, (new.lookup w).map GraphPartition.nodes = (old.lookup w).map GraphPartition.nodes
  linked : ∀ a b, Linked workerOf old a b → Linked workerOf new a b

/-- A change of one partition that loses nothing. -/
structure Keeps (workerOf : String → String) (f : GraphPartition → GraphPartition) : Prop where
  nodes : ∀ p, (f p).nodes = p.nodes
  inputs : ∀ p a, p.externalInputs.lookup a = some (workerOf a) →
    (f p).externalInputs.lookup a = some (workerOf a)
  outputs : ∀ p, ∀ a ∈ p.externalOutputs, a ∈ (f p).externalOutputs

theorem keeps_addExternalInput (id : String) :
    Keeps workerOf (.addExternalInput id (workerOf id)) where
  nodes _ := rfl
  inputs p a ha := by
    rw [GraphPartition.addExternalInput]
    by_cases heq : a = id
    · rw [heq, AList.lookup_insert]
    · rw [AList.lookup_insert_ne heq, ha]
  outputs _ _ ha := ha

theorem mem_markExternalOutput {id : String} :
    a ∈ (p.markExternalOutput id).externalOutputs ↔ a ∈ p.externalOutputs ∨ a = id := by
  unfold GraphPartition.markExternalOutput
  split
  · next hmem =>
    refine (or_iff_left_of_imp ?_).symm
    rintro rfl
    exact hmem
  · rw [List.mem_append, List.mem_singleton]

theorem keeps_markExternalOutput (id : String) :
    Keeps workerOf (.markExternalOutput id) where
  nodes p := by
    unfold GraphPartition.markExternalOutput
    split <;> rfl
  inputs p a ha := by
    unfold GraphPartition.markExternalOutput
    split <;> exact ha
  outputs p a ha := mem_markExternalOutput.mpr (Or.inl ha)

namespace Follows

theorem refl (partitions : Partitions) : Follows workerOf partitions partitions where
  nodes _ := rfl
  linked _ _ h := h

variable {new : Partitions}

theorem trans {new' : Partitions} (h : Follows workerOf partitions new)
    (h' : Follows workerOf new new') : Follows workerOf partitions new' where
  nodes w := (h'.nodes w).trans (h.nodes w)
  linked a b hl := h'.linked a b (h.linked a b hl)

theorem modify {f : GraphPartition → GraphPartition} (hf : Keeps workerOf f) (w : String)
    (partitions : Partitions) : Follows workerOf partitions (AssocMap.modify w f partitions) where
  nodes w' := by
    rw [AssocMap.lookup_modify]
    split
    · next heq =>
      rw [heq]
      cases partitions.lookup w with
      | none => rfl
      | some p => exact congrArg some (hf.nodes p)
    · rfl
  linked a b := by
    rintro ⟨⟨p, hp, hin⟩, q, hq, hout⟩
    refine ⟨?_, ?_⟩
    · by_cases heq : workerOf b = w
      · exact ⟨f p, by rw [AssocMap.lookup_modify, if_pos heq, ← heq, hp]; rfl, hf.inputs p a hin⟩
      · exact ⟨p, by rw [AssocMap.lookup_modify, if_neg heq, hp], hin⟩
    · by_cases heq : workerOf a = w
      · exact ⟨f q, by rw [AssocMap.lookup_modify, if_pos heq, ← heq, hq]; rfl, hf.outputs q a hout⟩
      · exact ⟨q, by rw [AssocMap.lookup_modify, if_neg heq, hq], hout⟩

theorem exists_lookup (h : Follows workerOf partitions new) {w : String}
    (hw : ∃ p, partitions.lookup w = some p) : ∃ p, new.lookup w = some p := by
  obtain ⟨p, hp⟩ := hw
  have hnodes := h.nodes w
  rw [hp, Option.map_some] at hnodes
  obtain ⟨p', hp', -⟩ := Option.map_eq_some_iff.mp hnodes
  exact ⟨p', hp'⟩

/-- **A loop** whose rounds lose nothing, and each of which makes something so that stays. -/
theorem foldl {f : Partitions → String → Partitions} {P : String → Partitions → Prop}
    {Ready : Partitions → Prop} {l : List String}
    (hready : ∀ m m', Ready m → Follows workerOf m m' → Ready m')
    (hmono : ∀ x m m', P x m → Follows workerOf m m' → P x m')
    (hstep : ∀ x ∈ l, ∀ m, Ready m → Follows workerOf m (f m x) ∧ P x (f m x)) {m : Partitions}
    (hm : Ready m) : Follows workerOf m (l.foldl f m) ∧ ∀ x ∈ l, P x (l.foldl f m) := by
  induction l generalizing m with
  | nil => exact ⟨.refl m, fun x hx => absurd hx List.not_mem_nil⟩
  | cons x l ih =>
    obtain ⟨hfollows, hx⟩ := hstep x List.mem_cons_self m hm
    obtain ⟨hrest, hall⟩ := ih (fun y hy => hstep y (List.mem_cons_of_mem x hy))
      (hready m _ hm hfollows)
    refine ⟨hfollows.trans hrest, fun y hy => ?_⟩
    rcases List.mem_cons.mp hy with rfl | hy
    · exact hmono y _ _ hx hrest
    · exact hall y hy

end Follows

/-- All nodes are assigned, and their workers have partitions. -/
structure Ready (g : ComputationGraph) (workerOf : String → String)
    (assignments : AList fun _ : String => NodeAssignment) (partitions : Partitions) : Prop where
  assigned : ∀ id ∈ g.nodes, ∃ a, assignments.lookup id = some a ∧ a.workerId = workerOf id
  present : ∀ id ∈ g.nodes, ∃ p, partitions.lookup (workerOf id) = some p

theorem Ready.follows {new : Partitions} (h : Ready g workerOf assignments partitions)
    (hnew : Follows workerOf partitions new) : Ready g workerOf assignments new where
  assigned := h.assigned
  present id hid := hnew.exists_lookup (h.present id hid)

/-- **One input.** -/
theorem connectInput_spec (h : Ready g workerOf assignments partitions) (ha : a ∈ g.nodes)
    (hb : b ∈ g.nodes) :
    Follows workerOf partitions (connectInput assignments (workerOf b) partitions a) ∧
      (workerOf a ≠ workerOf b →
        Linked workerOf (connectInput assignments (workerOf b) partitions a) a b) := by
  obtain ⟨assignment, hlookup, hworker⟩ := h.assigned a ha
  rw [connectInput, hlookup]
  dsimp only
  rw [hworker]
  by_cases hne : workerOf a ≠ workerOf b
  · rw [if_pos hne]
    refine ⟨(Follows.modify (keeps_addExternalInput a) _ _).trans
      (.modify (keeps_markExternalOutput a) _ _), fun _ => ⟨?_, ?_⟩⟩
    · obtain ⟨p, hp⟩ := h.present b hb
      refine ⟨p.addExternalInput a (workerOf a), ?_, AList.lookup_insert _⟩
      rw [AssocMap.lookup_modify, if_neg hne.symm, AssocMap.lookup_modify, if_pos rfl, hp]
      rfl
    · obtain ⟨p, hp⟩ := h.present a ha
      refine ⟨p.markExternalOutput a, ?_, mem_markExternalOutput.mpr (Or.inr rfl)⟩
      rw [AssocMap.lookup_modify, if_pos rfl, AssocMap.lookup_modify, if_neg hne, hp]
      rfl
  · rw [if_neg hne]
    exact ⟨.refl _, fun h => absurd h hne⟩

/-- **The loops over the edges.** -/
theorem connect_spec {ids : List String} (hvalid : g.Valid)
    (h : Ready g workerOf assignments partitions) (hids : ∀ id ∈ ids, id ∈ g.nodes) :
    Follows workerOf partitions (ids.foldl (connect g assignments) partitions) ∧
      ∀ b ∈ ids, ∀ a ∈ g.inputsOf b, workerOf a ≠ workerOf b →
        Linked workerOf (ids.foldl (connect g assignments) partitions) a b := by
  refine Follows.foldl (P := fun b m => ∀ a ∈ g.inputsOf b, workerOf a ≠ workerOf b →
    Linked workerOf m a b) (fun m m' hm hnew => Ready.follows hm hnew)
    (fun b m m' hb hnew a ha hne => hnew.linked a b (hb a ha hne)) (fun b hb m hm => ?_) h
  have hmem := hids b hb
  obtain ⟨assignment, hlookup, hworker⟩ := hm.assigned b hmem
  obtain ⟨node, hnode⟩ := ComputationGraph.mem_nodes_iff.mp hmem
  rw [connect, hlookup]
  dsimp only
  rw [hworker]
  refine Follows.foldl (P := fun a m => workerOf a ≠ workerOf b → Linked workerOf m a b)
    (fun m m' hm hnew => Ready.follows hm hnew)
    (fun a m m' ha hnew hne => hnew.linked a b (ha hne)) (fun a ha m hm => ?_) hm
  have hinput : a ∈ node.inputs := by
    rw [ComputationGraph.inputsOf, hnode] at ha
    exact ha
  exact connectInput_spec hm (hvalid.closed b node hnode a hinput) hmem

/-! ### The subgraphs -/

open ComputationGraph in
/-- **The subgraph** has the nodes of the partition, and as inputs those of the whole graph that are
in the partition or come from another one. -/
theorem buildSubgraph_spec (order : HashOrder) (g : ComputationGraph) (p : GraphPartition) :
    (∀ id, (p.buildSubgraph order g).nodes.lookup id =
      if id ∈ p.nodes ∧ id ∈ g.nodes then g.nodes.lookup id else none) ∧
    ∀ id, id ∈ (p.buildSubgraph order g).inputs ↔
      (id ∈ p.externalInputs.keys ∧ ((id ∈ p.nodes ∧ id ∈ g.nodes) ∨ id ∈ g.inputs)) ∨
        id ∈ g.inputs ∧ id ∈ p.nodes := by
  have hcopy : ∀ id, (g.copyNodes p.nodes ∅).lookup id =
      if id ∈ p.nodes ∧ id ∈ g.nodes then g.nodes.lookup id else none := fun id =>
    lookup_copyNodes p.nodes ∅
  have hmem : ∀ id, id ∈ g.copyNodes p.nodes ∅ ↔ id ∈ p.nodes ∧ id ∈ g.nodes := by
    intro id
    rw [← AList.lookup_isSome, hcopy]
    split
    · next h => exact iff_of_true (AList.lookup_isSome.mpr h.2) h
    · next h => exact iff_of_false Bool.false_ne_true h
  rw [GraphPartition.buildSubgraph]
  dsimp only
  refine ⟨fun id => ?_, fun id => ?_⟩
  · rw [(foldl_markOutput _ _).1, (foldl_markInput _ _).1, (foldl_markOutput _ _).1,
      (foldl_markInput _ _).1]
    exact hcopy id
  · rw [(foldl_markOutput _ _).2.1, (foldl_markInput _ _).2.2, (foldl_markOutput _ _).2.1,
      (foldl_markInput _ _).2.2, List.mem_filter, List.mem_filter, decide_eq_true_iff,
      decide_eq_true_iff, (order.perm _).mem_iff, hmem]
    refine or_congr_left ?_
    exact or_iff_right List.not_mem_nil

/-! ### Completeness -/

/-- Every node is in the partition of one of the given workers, and nothing else is in any
partition; the edges between workers are entered on both sides; and in every subgraph the inputs of
the nodes are nodes or marked inputs. -/
structure Complete (g : ComputationGraph) (workerIds : List String) (e : DistributedExecutor) :
    Prop where
  assigned : ∀ id ∈ g.nodes, ∃! w, w ∈ workerIds ∧
    ∃ p, e.partitions.lookup w = some p ∧ id ∈ p.nodes
  only : ∀ w p, e.partitions.lookup w = some p → ∀ id ∈ p.nodes, w ∈ workerIds ∧ id ∈ g.nodes
  edges : ∀ a b, g.Edge a b → ∀ v p w q, e.partitions.lookup v = some p → a ∈ p.nodes →
    e.partitions.lookup w = some q → b ∈ q.nodes → v ≠ w →
      q.externalInputs.lookup a = some v ∧ a ∈ p.externalOutputs
  closed : ∀ w p, e.partitions.lookup w = some p → ∃ sub, p.subgraph = some sub ∧
    ∀ id node, sub.nodes.lookup id = some node → ∀ i ∈ node.inputs, i ∈ sub.nodes ∨ i ∈ sub.inputs

/-- The edges between workers begin in inputs of the graph, and the partitions of workers that are
not given have no nodes. -/
structure Separable (g : ComputationGraph) (workerIds sorted : List String)
    (e : DistributedExecutor) : Prop where
  edges : ∀ a b, g.Edge a b →
    workerOfPlace workerIds sorted a ≠ workerOfPlace workerIds sorted b → a ∈ g.inputs
  others : ∀ w p, e.partitions.lookup w = some p → w ∉ workerIds → p.nodes = []

/-- What a call leaves: the nodes with their workers, the other partitions with the nodes that they
had, the edges between workers, and the subgraphs. -/
structure Partitioned (g : ComputationGraph) (workerIds sorted : List String)
    (e e' : DistributedExecutor) : Prop where
  given : ∀ w ∈ workerIds, ∃ p, e'.partitions.lookup w = some p ∧
    ∀ id, id ∈ p.nodes ↔ id ∈ g.nodes ∧ workerOfPlace workerIds sorted id = w
  others : ∀ w ∉ workerIds, (e'.partitions.lookup w).map GraphPartition.nodes =
    (e.partitions.lookup w).map GraphPartition.nodes
  linked : ∀ a b, g.Edge a b →
    workerOfPlace workerIds sorted a ≠ workerOfPlace workerIds sorted b →
      Linked (workerOfPlace workerIds sorted) e'.partitions a b
  subgraph : ∀ w p, e'.partitions.lookup w = some p →
    ∃ order, p.subgraph = some (p.buildSubgraph order g)

theorem assigned_createPartitions (workerOf : String → String) (e : DistributedExecutor) :
    Assigned workerIds workerOf e.partitions []
      { e with partitions := createPartitions workerIds e.partitions } := by
  refine ⟨fun w hw => ⟨.new w, ?_, fun id => ?_⟩, fun w hw => ?_, fun id hid => ?_⟩
  · exact (lookup_createPartitions _ _ _).trans (if_pos hw)
  · exact iff_of_false List.not_mem_nil fun h => List.not_mem_nil h.1
  · exact (lookup_createPartitions _ _ _).trans (if_neg hw)
  · exact absurd hid List.not_mem_nil

/-- **A call** on a graph that validates. -/
theorem partitionGraph_spec (hvalid : g.Valid) (hworkers : workerIds ≠ []) (order : PartitionOrder)
    (e : DistributedExecutor) :
    ∃ sorted e', g.topologicalSort order.sort = .ok sorted ∧
      partitionGraph order e g workerIds = .ok e' ∧ Partitioned g workerIds sorted e e' := by
  obtain ⟨sorted, hsorted⟩ := ComputationGraph.exists_topologicalSort hvalid.acyclic order.sort
  have hnodup := ComputationGraph.nodup_of_topologicalSort hsorted
  have hmem : ∀ {id}, id ∈ sorted ↔ id ∈ g.nodes :=
    ComputationGraph.mem_of_topologicalSort hsorted
  let created : DistributedExecutor :=
    { e with partitions := createPartitions workerIds e.partitions }
  let assigned := sorted.zipIdx.foldl (assign workerIds) created
  have hassigned :
      Assigned workerIds (workerOfPlace workerIds sorted) e.partitions sorted assigned :=
    assign_spec hworkers (List.nil_append sorted) hnodup (assigned_createPartitions _ e)
  -- every node has a worker, and every worker a partition
  have hready : Ready g (workerOfPlace workerIds sorted) assigned.assignments
      assigned.partitions := by
    refine ⟨fun id hid => hassigned.assignments id (hmem.mpr hid), fun id _ => ?_⟩
    obtain ⟨p, hp, -⟩ := hassigned.given _ (workerAt_mem hworkers (sorted.idxOf id))
    exact ⟨p, hp⟩
  have hids : ∀ id, id ∈ order.nodes.arrange g.nodes.keys ↔ id ∈ g.nodes := fun id =>
    (order.nodes.perm _).mem_iff.trans AList.mem_keys.symm
  obtain ⟨hfollows, hlinked⟩ := connect_spec hvalid hready fun id hid => (hids id).mp hid
  -- the edges that cross, and then the subgraphs
  let connected :=
    (order.nodes.arrange g.nodes.keys).foldl (connect g assigned.assignments) assigned.partitions
  let final : DistributedExecutor := { assigned with
    partitions := AssocMap.mapValues (fun p =>
      { p with subgraph := some (p.buildSubgraph (order.externalInputs p.workerId) g) })
      connected }
  have hfinal : ∀ w, final.partitions.lookup w = (connected.lookup w).map fun p =>
      { p with subgraph := some (p.buildSubgraph (order.externalInputs p.workerId) g) } :=
    fun w => AssocMap.lookup_mapValues _ _ _
  refine ⟨sorted, final, hsorted, ?_, fun w hw => ?_, fun w hw => ?_, fun a b hedge hne => ?_,
    fun w p hp => ?_⟩
  · rw [partitionGraph, if_neg hworkers, hsorted]
    rfl
  · obtain ⟨p, hp, hnodes⟩ := hassigned.given w hw
    have hsame := hfollows.nodes w
    rw [hp, Option.map_some] at hsame
    obtain ⟨p', hp', hnodes'⟩ := Option.map_eq_some_iff.mp hsame
    refine ⟨_, (hfinal w).trans (congrArg _ hp'), fun id => ?_⟩
    show id ∈ p'.nodes ↔ _
    rw [hnodes', hnodes, hmem]
  · rw [hfinal, Option.map_map]
    exact (hfollows.nodes w).trans (congrArg _ (hassigned.others w hw))
  · obtain ⟨node, hnode, ha, -⟩ := hedge
    have hb := (hids b).mpr (ComputationGraph.mem_nodes_iff.mpr ⟨node, hnode⟩)
    have hinput : a ∈ g.inputsOf b := by
      rw [ComputationGraph.inputsOf, hnode]
      exact ha
    obtain ⟨⟨p, hp, hin⟩, q, hq, hout⟩ := hlinked b hb a hinput hne
    exact ⟨⟨_, (hfinal _).trans (congrArg _ hp), hin⟩, _, (hfinal _).trans (congrArg _ hq), hout⟩
  · rw [hfinal] at hp
    obtain ⟨p', -, rfl⟩ := Option.map_eq_some_iff.mp hp
    exact ⟨_, rfl⟩

theorem Partitioned.mem_nodes_iff (h : Partitioned g workerIds sorted e e') {id : String}
    (hw : w ∈ workerIds) (hp : e'.partitions.lookup w = some p) :
    id ∈ p.nodes ↔ id ∈ g.nodes ∧ workerOfPlace workerIds sorted id = w := by
  obtain ⟨p', hp', hnodes⟩ := h.given w hw
  obtain rfl := Option.some.inj (hp.symm.trans hp')
  exact hnodes id

theorem Partitioned.exists_nodes_eq (h : Partitioned g workerIds sorted e e') (hw : w ∉ workerIds)
    (hp : e'.partitions.lookup w = some p) :
    ∃ old, e.partitions.lookup w = some old ∧ old.nodes = p.nodes := by
  have hsame := h.others w hw
  rw [hp, Option.map_some] at hsame
  exact Option.map_eq_some_iff.mp hsame.symm

/-- What a partition has, when the partitions of other workers have been empty. -/
theorem Partitioned.mem_of_separable (h : Partitioned g workerIds sorted e e')
    (hsep : Separable g workerIds sorted e) {id : String} (hp : e'.partitions.lookup w = some p)
    (hid : id ∈ p.nodes) :
    w ∈ workerIds ∧ id ∈ g.nodes ∧ workerOfPlace workerIds sorted id = w := by
  by_cases hw : w ∈ workerIds
  · exact ⟨hw, (h.mem_nodes_iff hw hp).mp hid⟩
  · obtain ⟨old, hold, hnodes⟩ := h.exists_nodes_eq hw hp
    rw [← hnodes, hsep.others w old hold hw] at hid
    exact absurd hid List.not_mem_nil

/-- In a complete partition, an edge from another worker begins in an input of the graph. -/
theorem Partitioned.mem_inputs_of_complete (h : Partitioned g workerIds sorted e e')
    (hworkers : workerIds ≠ []) (hcomplete : Complete g workerIds e') (hedge : g.Edge a b)
    (hne : workerOfPlace workerIds sorted a ≠ workerOfPlace workerIds sorted b) : a ∈ g.inputs := by
  obtain ⟨node, hnode, ha, hmem⟩ := hedge
  obtain ⟨p, hp, hnodes⟩ := h.given _ (workerAt_mem hworkers (sorted.idxOf b))
  obtain ⟨order, hsub⟩ := h.subgraph _ p hp
  obtain ⟨hlookup, hinputs⟩ := buildSubgraph_spec order g p
  obtain ⟨sub, hsub', hclosed⟩ := hcomplete.closed _ p hp
  obtain rfl := Option.some.inj (hsub.symm.trans hsub')
  have hbmem := ComputationGraph.mem_nodes_iff.mpr ⟨node, hnode⟩
  have hb : (p.buildSubgraph order g).nodes.lookup b = some node := by
    rw [hlookup, if_pos ⟨(hnodes b).mpr ⟨hbmem, rfl⟩, hbmem⟩, hnode]
  have hnot : a ∉ p.nodes := fun hmem => hne ((hnodes a).mp hmem).2
  -- `a` is no node of the subgraph of `b`, so it is marked as an input there
  rcases hclosed b node hb a ha with hnode' | hinput
  · rw [← AList.lookup_isSome, hlookup, if_neg fun h => hnot h.1] at hnode'
    cases hnode'
  · rcases (hinputs a).mp hinput with ⟨-, hin | hin⟩ | ⟨hin, -⟩
    · exact absurd hin.1 hnot
    · exact hin
    · exact hin

/-- The inputs of the nodes of a subgraph are in the same partition, or come from another one and
are marked. -/
theorem Partitioned.closed_subgraph (h : Partitioned g workerIds sorted e e') (hvalid : g.Valid)
    (hsep : Separable g workerIds sorted e) (hp : e'.partitions.lookup w = some p) :
    ∃ sub, p.subgraph = some sub ∧ ∀ id node, sub.nodes.lookup id = some node →
      ∀ i ∈ node.inputs, i ∈ sub.nodes ∨ i ∈ sub.inputs := by
  obtain ⟨order, hsub⟩ := h.subgraph w p hp
  obtain ⟨hlookup, hinputs⟩ := buildSubgraph_spec order g p
  refine ⟨_, hsub, fun id node hnode i hi => ?_⟩
  rw [hlookup] at hnode
  split at hnode
  · next hid =>
    obtain ⟨hw, -, rfl⟩ := h.mem_of_separable hsep hp hid.1
    have himem := hvalid.closed id node hnode i hi
    by_cases hsame : workerOfPlace workerIds sorted i = workerOfPlace workerIds sorted id
    · have hin := (h.mem_nodes_iff hw hp).mpr ⟨himem, hsame⟩
      refine Or.inl (AList.lookup_isSome.mp ?_)
      rw [hlookup, if_pos ⟨hin, himem⟩]
      exact AList.lookup_isSome.mpr himem
    · have hedge : g.Edge i id := ⟨node, hnode, hi, himem⟩
      obtain ⟨⟨p', hp', hin⟩, -⟩ := h.linked i id hedge hsame
      obtain rfl := Option.some.inj (hp.symm.trans hp')
      refine Or.inr ((hinputs i).mpr (Or.inl ⟨?_, Or.inr (hsep.edges i id hedge hsame)⟩))
      exact AList.mem_keys.mp (AssocMap.mem_of_lookup hin)
  · cases hnode

/-- **Completeness** of what a call leaves. -/
theorem Partitioned.complete_iff (h : Partitioned g workerIds sorted e e') (hvalid : g.Valid)
    (hworkers : workerIds ≠ []) :
    Complete g workerIds e' ↔ Separable g workerIds sorted e := by
  constructor
  · intro hcomplete
    refine ⟨fun a b hedge hne => h.mem_inputs_of_complete hworkers hcomplete hedge hne,
      fun w p hp hw => ?_⟩
    -- the other workers keep what they had
    have hsame := h.others w hw
    rw [hp, Option.map_some] at hsame
    obtain ⟨p', hp', hnodes⟩ := Option.map_eq_some_iff.mp hsame
    refine List.eq_nil_iff_forall_not_mem.mpr fun id hid => ?_
    rw [← hnodes] at hid
    exact hw (hcomplete.only w p' hp' id hid).1
  · intro hsep
    refine ⟨fun id hid => ?_, fun w p hp id hid => ?_, fun a b hedge v p w q hp ha hq hb hne => ?_,
      fun w p hp => h.closed_subgraph hvalid hsep hp⟩
    · have hworker := workerAt_mem hworkers (sorted.idxOf id)
      obtain ⟨p, hp, hnodes⟩ := h.given _ hworker
      refine ⟨_, ⟨hworker, p, hp, (hnodes id).mpr ⟨hid, rfl⟩⟩, ?_⟩
      rintro w ⟨-, p', hp', hid'⟩
      exact (h.mem_of_separable hsep hp' hid').2.2.symm
    · obtain ⟨hw, hmem, -⟩ := h.mem_of_separable hsep hp hid
      exact ⟨hw, hmem⟩
    · obtain ⟨-, -, rfl⟩ := h.mem_of_separable hsep hp ha
      obtain ⟨-, -, rfl⟩ := h.mem_of_separable hsep hq hb
      -- the edge crosses, so it was linked
      obtain ⟨⟨q', hq', hin⟩, p', hp', hout⟩ := h.linked a b hedge hne
      obtain rfl := Option.some.inj (hq.symm.trans hq')
      obtain rfl := Option.some.inj (hp.symm.trans hp')
      exact ⟨hin, hout⟩

/-- **When the partitions are complete**, on a graph that validates and for workers that there are,
after whatever calls. -/
theorem partitionGraph_complete_iff {check : SortOrder} (hvalidate : g.validate check = .ok ())
    (hworkers : workerIds ≠ []) (order : PartitionOrder) (e : DistributedExecutor) :
    ∃ sorted e', g.topologicalSort order.sort = .ok sorted ∧
      partitionGraph order e g workerIds = .ok e' ∧
      (Complete g workerIds e' ↔ Separable g workerIds sorted e) := by
  have hvalid : g.Valid := ComputationGraph.validate_eq_ok_iff.mp hvalidate
  obtain ⟨sorted, e', hsorted, he', hpartitioned⟩ := partitionGraph_spec hvalid hworkers order e
  exact ⟨sorted, e', hsorted, he', hpartitioned.complete_iff hvalid hworkers⟩

/-- Two inputs and their sum. -/
def sampleSum : ComputationGraph :=
  .ofNodes [("x", .input "x", []), ("y", .input "y", []), ("sum", .add, ["x", "y"])]
    ["x", "y"] ["sum"]

theorem partitionGraph_complete_iff_sampleSum :
    ∃ e', partitionGraph .given new sampleSum ["w1", "w2"] = .ok e' ∧
      Complete sampleSum ["w1", "w2"] e' := by
  have hvalidate : sampleSum.validate .given = .ok () := by decide +kernel
  have hinputs : ∀ b ∈ sampleSum.nodes.keys, ∀ a ∈ sampleSum.inputsOf b, a ∈ sampleSum.inputs := by
    decide +kernel
  obtain ⟨sorted, e', -, he', hiff⟩ :=
    partitionGraph_complete_iff hvalidate (List.cons_ne_nil "w1" ["w2"]) .given new
  refine ⟨e', he', hiff.mpr ⟨fun a b hedge _ => ?_, fun w p hp => ?_⟩⟩
  · obtain ⟨node, hnode, ha, -⟩ := hedge
    refine hinputs b (AList.mem_keys.mp (ComputationGraph.mem_nodes_iff.mpr ⟨node, hnode⟩)) a ?_
    rw [ComputationGraph.inputsOf, hnode]
    exact ha
  · cases hp

/-- Three nodes in a row. -/
def sampleChain : ComputationGraph :=
  .ofNodes [("x", .input "x", []), ("a", .relu, ["x"]), ("b", .exp, ["a"])] ["x"] ["b"]

/-- **Partitions that are not complete.** The second node of three in a row comes from another
worker, but is no input of the subgraph with the third one. And the partition of a worker of the
call before keeps its nodes. -/
theorem not_forall_partitionGraph_complete :
    (¬ ∀ (g : ComputationGraph) (check : SortOrder) (workerIds : List String)
      (order : PartitionOrder) (e' : DistributedExecutor), g.validate check = .ok () →
      workerIds ≠ [] → partitionGraph order new g workerIds = .ok e' → Complete g workerIds e') ∧
    ¬ ∀ (g : ComputationGraph) (check : SortOrder) (workerId workerId' : String)
      (order : PartitionOrder) (e e' : DistributedExecutor), g.validate check = .ok () →
      partitionGraph order new g [workerId] = .ok e →
      partitionGraph order e g [workerId'] = .ok e' → Complete g [workerId'] e' := by
  have hvalidate : sampleChain.validate .given = .ok () := by decide +kernel
  refine ⟨fun hall => ?_, fun hall => ?_⟩
  · have hbroken : ((partitionGraph .given new sampleChain ["w1", "w2"]).toOption.bind fun e' =>
        (e'.partitions.lookup "w1").bind fun p => p.subgraph.map fun sub =>
          ((sub.nodes.lookup "b").map GraphNode.inputs,
            decide ("a" ∈ sub.nodes ∨ "a" ∈ sub.inputs))) = some (some ["a"], false) := by
      decide +kernel
    -- the input of `b` is on another worker, and not among the inputs of its subgraph
    obtain ⟨e', hcall, hp⟩ := Option.bind_eq_some_iff.mp hbroken
    obtain ⟨p, hp, hsub⟩ := Option.bind_eq_some_iff.mp hp
    obtain ⟨sub, hsub, heq⟩ := Option.map_eq_some_iff.mp hsub
    obtain ⟨hb, hnot⟩ := Prod.mk.inj heq
    obtain ⟨node, hnode, hinputs⟩ := Option.map_eq_some_iff.mp hb
    have hcomplete := hall sampleChain .given ["w1", "w2"] .given e' hvalidate
      (List.cons_ne_nil _ _) (Except.toOption_eq_some_iff.mp hcall)
    obtain ⟨sub', hsub', hclosed⟩ := hcomplete.closed "w1" p hp
    obtain rfl := Option.some.inj (hsub.symm.trans hsub')
    refine of_decide_eq_false hnot (hclosed "b" node hnode "a" ?_)
    rw [hinputs]
    exact List.mem_singleton_self _
  · have hbroken : ((partitionGraph .given new sampleChain ["w1"]).toOption.bind fun e =>
        (partitionGraph .given e sampleChain ["w2"]).toOption.bind fun e' =>
          (e'.partitions.lookup "w1").map GraphPartition.nodes) = some ["x", "a", "b"] := by
      decide +kernel
    -- the partition of an earlier worker is still there
    obtain ⟨e, hcall, hnext⟩ := Option.bind_eq_some_iff.mp hbroken
    obtain ⟨e', hcall', hp⟩ := Option.bind_eq_some_iff.mp hnext
    obtain ⟨p, hp, hnodes⟩ := Option.map_eq_some_iff.mp hp
    have hcomplete := hall sampleChain .given "w1" "w2" .given e e' hvalidate
      (Except.toOption_eq_some_iff.mp hcall) (Except.toOption_eq_some_iff.mp hcall')
    have hx : "x" ∈ p.nodes := by
      rw [hnodes]
      exact List.mem_cons_self
    have hworker := (hcomplete.only "w1" p hp "x" hx).1
    rw [List.mem_singleton] at hworker
    exact absurd hworker (by decide)

end DistributedExecutor

end Ipfrs.Tensorlogic
