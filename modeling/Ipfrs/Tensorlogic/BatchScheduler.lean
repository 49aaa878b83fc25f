import Ipfrs.Tensorlogic.ComputationGraph

/-!
# Batches of independent nodes

`BatchScheduler` (`ipfrs-tensorlogic/src/computation_graph.rs`): the nodes of a graph are taken in a
topological order, and each gets a level above those of its inputs. The nodes of one level are a
batch. A node that is marked as an input of the graph gets level 0 whatever its inputs are, and the
others begin at level 1.

* `Leveled` — what the loop knows after some nodes, and `Leveled.next` — what one node adds;
* `scheduling_correct` — the sort, and the batches.
-/

namespace Ipfrs.Tensorlogic

structure ExecutionBatch where
  nodeIds : List String
  level : ℕ
  deriving DecidableEq, Repr

namespace ExecutionBatch

def new (level : ℕ) : ExecutionBatch := ⟨[], level⟩

def addNode (batch : ExecutionBatch) (nodeId : String) : ExecutionBatch :=
  { batch with nodeIds := batch.nodeIds ++ [nodeId] }

end ExecutionBatch

namespace BatchScheduler

/-- The loop that pushes empty batches, with the number of batches that are missing. -/
def pushBatches : ℕ → List ExecutionBatch → List ExecutionBatch
  | 0, batches => batches
  | missing + 1, batches => pushBatches missing (batches ++ [.new batches.length])

/-- The level of a node, from the levels of the nodes before it. -/
def levelOf (g : ComputationGraph) (nodeToLevel : AList fun _ : String => ℕ) (nodeId : String) :
    ℕ :=
  let maxInputLevel :=
    match g.nodes.lookup nodeId with
    | some node => (node.inputs.filterMap nodeToLevel.lookup).max?.getD 0
    | none => 0
  if nodeId ∈ g.inputs then 0 else maxInputLevel + 1

/-- One round of the loop of `create_batches`. -/
def addToBatch (g : ComputationGraph) (nodeId : String)
    (st : List ExecutionBatch × AList fun _ : String => ℕ) :
    List ExecutionBatch × AList fun _ : String => ℕ :=
  let level := levelOf g st.2 nodeId
  let batches := pushBatches (level + 1 - st.1.length) st.1
  (batches.modify level (·.addNode nodeId), st.2.insert nodeId level)

def createBatches (order : SortOrder) (g : ComputationGraph) :
    Except GraphError (List ExecutionBatch) := do
  let sorted ← g.topologicalSort order
  return (sorted.foldl (fun st nodeId => addToBatch g nodeId st) ([], ∅)).1

/-! ### One round -/

variable {g : ComputationGraph} {batches : List ExecutionBatch} {id : String} {level i : ℕ}

theorem length_pushBatches (missing : ℕ) (batches : List ExecutionBatch) :
    (pushBatches missing batches).length = batches.length + missing := by
  induction missing generalizing batches with
  | zero => rfl
  | succ missing ih =>
    rw [pushBatches, ih, List.length_append, List.length_singleton]
    omega

/-- The nodes that are in the batch of an index. -/
def nodesAt (batches : List ExecutionBatch) (i : ℕ) : List String :=
  (batches[i]?.map ExecutionBatch.nodeIds).getD []

theorem nodesAt_pushBatches (missing : ℕ) (batches : List ExecutionBatch) (i : ℕ) :
    nodesAt (pushBatches missing batches) i = nodesAt batches i := by
  induction missing generalizing batches with
  | zero => rfl
  | succ missing ih =>
    rw [pushBatches, ih, nodesAt, nodesAt]
    rcases Nat.lt_trichotomy i batches.length with hlt | rfl | hgt
    · rw [List.getElem?_append_left hlt]
    · rw [List.getElem?_concat_length, List.getElem?_eq_none le_rfl]
      rfl
    · have hout : (batches ++ [ExecutionBatch.new batches.length]).length ≤ i := by
        rw [List.length_append, List.length_singleton]
        omega
      rw [List.getElem?_eq_none hout, List.getElem?_eq_none hgt.le]

theorem flatMap_pushBatches (missing : ℕ) (batches : List ExecutionBatch) :
    (pushBatches missing batches).flatMap ExecutionBatch.nodeIds
      = batches.flatMap ExecutionBatch.nodeIds := by
  induction missing generalizing batches with
  | zero => rfl
  | succ missing ih =>
    rw [pushBatches, ih, List.flatMap_append]
    exact List.append_nil _

theorem nodesAt_modify (hlevel : level < batches.length) (i : ℕ) :
    nodesAt (batches.modify level (·.addNode id)) i =
      if level = i then nodesAt batches i ++ [id] else nodesAt batches i := by
  rw [nodesAt, nodesAt, List.getElem?_modify]
  by_cases hi : level = i
  · subst hi
    rw [List.getElem?_eq_getElem hlevel]
    simp [ExecutionBatch.addNode]
  · simp [hi]

theorem flatMap_modify (hlevel : level < batches.length) :
    ((batches.modify level (·.addNode id)).flatMap ExecutionBatch.nodeIds).Perm
      (id :: batches.flatMap ExecutionBatch.nodeIds) := by
  induction batches generalizing level with
  | nil => exact absurd hlevel (Nat.not_lt_zero _)
  | cons batch batches ih =>
    cases level with
    | zero =>
      rw [List.modify_zero_cons, List.flatMap_cons, List.flatMap_cons, ExecutionBatch.addNode,
        List.append_assoc]
      exact List.perm_middle
    | succ level =>
      rw [List.modify_succ_cons, List.flatMap_cons, List.flatMap_cons]
      exact ((ih (Nat.lt_of_succ_lt_succ hlevel)).append_left _).trans List.perm_middle

/-- The level of a node is above the levels of its inputs, unless it is marked as an input. -/
theorem lt_levelOf {nodeToLevel : AList fun _ : String => ℕ} {node : GraphNode} {a : String}
    (hnode : g.nodes.lookup id = some node) (hunmarked : id ∉ g.inputs) (ha : a ∈ node.inputs)
    (hlevel : nodeToLevel.lookup a = some level) : level < levelOf g nodeToLevel id := by
  have hmem : level ∈ node.inputs.filterMap nodeToLevel.lookup :=
    List.mem_filterMap.mpr ⟨a, ha, hlevel⟩
  rw [levelOf, hnode, if_neg hunmarked]
  obtain ⟨top, htop⟩ := Option.isSome_iff_exists.mp (List.isSome_max?_of_mem hmem)
  have hle : level ≤ top := (List.max?_eq_some_iff.mp htop).2 level hmem
  dsimp only
  rw [htop]
  exact Nat.lt_succ_of_le hle

/-! ### The loop -/

/-- What the loop knows after the nodes `done`: each has a level and is in the batch of its level,
and the level of a node is above those of its inputs. -/
structure Leveled (g : ComputationGraph) (done : List String)
    (st : List ExecutionBatch × AList fun _ : String => ℕ) : Prop where
  level_iff : ∀ id, (∃ level, st.2.lookup id = some level) ↔ id ∈ done
  mem_iff : ∀ id i, id ∈ nodesAt st.1 i ↔ st.2.lookup id = some i
  perm : (st.1.flatMap ExecutionBatch.nodeIds).Perm done
  ordered : ∀ a b, g.Edge a b → ∀ j, st.2.lookup b = some j → ∃ i < j, st.2.lookup a = some i

variable {done rest : List String} {st : List ExecutionBatch × AList fun _ : String => ℕ}

theorem Leveled.initial : Leveled g [] ([], ∅) where
  level_iff id := by simp
  mem_iff id i := by simp [nodesAt]
  perm := List.Perm.refl _
  ordered a b _ j hj := by simp at hj

/-- **One node** whose inputs have their levels. -/
theorem Leveled.next (h : Leveled g done st) (hnew : id ∉ done)
    (hinputs : ∀ a, g.Edge a id → a ∈ done) (hmarked : id ∈ g.inputs → ∀ a, ¬ g.Edge a id) :
    Leveled g (done ++ [id]) (addToBatch g id st) := by
  obtain ⟨batches, nodeToLevel⟩ := st
  have hnone : nodeToLevel.lookup id = none := by
    by_contra hsome
    exact hnew ((h.level_iff id).mp (Option.ne_none_iff_exists'.mp hsome))
  -- the batches up to its level are there before the node is put in
  have hlength : levelOf g nodeToLevel id < (pushBatches (levelOf g nodeToLevel id + 1
      - batches.length) batches).length := by
    rw [length_pushBatches]
    omega
  refine ⟨fun x => ?_, fun x i => ?_, ?_, fun a b hedge j hj => ?_⟩
  · rw [addToBatch, List.mem_append, List.mem_singleton]
    by_cases hx : x = id
    · subst hx
      exact iff_of_true ⟨_, AList.lookup_insert _⟩ (.inr rfl)
    · rw [AList.lookup_insert_ne hx, h.level_iff, or_iff_left hx]
  · rw [addToBatch, nodesAt_modify hlength, nodesAt_pushBatches]
    have hold := h.mem_iff x i
    by_cases hx : x = id
    · subst hx
      rw [AList.lookup_insert, Option.some.injEq]
      -- a node without a level was in no batch
      rw [hnone] at hold
      split
      · next hi => simp [hi]
      · next hi => simpa [hi] using hold
    · rw [AList.lookup_insert_ne hx, ← hold]
      split
      · simp [hx]
      · rfl
  · refine (flatMap_modify hlength).trans ?_
    rw [flatMap_pushBatches]
    exact (h.perm.cons id).trans (List.perm_append_singleton id done).symm
  · -- only the new node has a new level, and its inputs had theirs
    have hj : (nodeToLevel.insert id (levelOf g nodeToLevel id)).lookup b = some j := hj
    show ∃ i < j, (nodeToLevel.insert id (levelOf g nodeToLevel id)).lookup a = some i
    by_cases hb : b = id
    · subst hb
      rw [AList.lookup_insert] at hj
      obtain rfl := Option.some.inj hj
      have ha := hinputs a hedge
      obtain ⟨i, hi⟩ := (h.level_iff a).mpr ha
      have hne : a ≠ b := fun hab => hnew (hab ▸ ha)
      have hunmarked : b ∉ g.inputs := fun hmem => hmarked hmem a hedge
      obtain ⟨node, hnode, hin, -⟩ := hedge
      exact ⟨i, lt_levelOf hnode hunmarked hin hi, by rw [AList.lookup_insert_ne hne, hi]⟩
    · rw [AList.lookup_insert_ne hb] at hj
      obtain ⟨i, hlt, hi⟩ := h.ordered a b hedge j hj
      have hne : a ≠ id := by
        rintro rfl
        exact hnew ((h.level_iff a).mp ⟨i, hi⟩)
      exact ⟨i, hlt, by rw [AList.lookup_insert_ne hne, hi]⟩

/-- **The whole loop**, over nodes that come after their inputs. -/
theorem Leveled.foldl (h : Leveled g done st) (hnodup : (done ++ rest).Nodup)
    (hordered : ∀ a b, g.Edge a b → (done ++ rest).idxOf a < (done ++ rest).idxOf b)
    (hmarked : ∀ id ∈ g.inputs, ∀ a, ¬ g.Edge a id) :
    Leveled g (done ++ rest) (rest.foldl (fun st nodeId => addToBatch g nodeId st) st) := by
  induction rest generalizing done st with
  | nil => rwa [List.append_nil]
  | cons id rest ih =>
    have hnew : id ∉ done := fun hmem =>
      List.disjoint_of_nodup_append hnodup hmem List.mem_cons_self
    have hinputs : ∀ a, g.Edge a id → a ∈ done := by
      intro a hedge
      by_contra ha
      have hlt := hordered a id hedge
      rw [List.idxOf_append_of_notMem hnew, List.idxOf_cons_self] at hlt
      rw [List.idxOf_append_of_notMem ha] at hlt
      omega
    have hsplit : done ++ id :: rest = done ++ [id] ++ rest := by simp
    rw [hsplit] at hnodup hordered ⊢
    exact ih (h.next hnew hinputs (hmarked id)) hnodup hordered

/-! ### Scheduling -/

/-- **Scheduling.** The sort succeeds exactly on the graphs without a cycle, and gives every node
once, after its inputs. Where the nodes that are marked as inputs have none themselves, every node
is in one batch, once, and its inputs are in earlier batches. -/
theorem scheduling_correct (g : ComputationGraph) (order : SortOrder) :
    ((∃ sorted, g.topologicalSort order = .ok sorted) ↔ g.Acyclic) ∧
      (∀ sorted, g.topologicalSort order = .ok sorted →
        sorted.Perm g.nodes.keys ∧ ∀ a b, g.Edge a b → sorted.idxOf a < sorted.idxOf b) ∧
      ((∃ batches, createBatches order g = .ok batches) ↔ g.Acyclic) ∧
      ((∀ id ∈ g.inputs, g.inputsOf id = []) →
        ∀ batches, createBatches order g = .ok batches →
          (batches.flatMap ExecutionBatch.nodeIds).Perm g.nodes.keys ∧
            ∀ a b, g.Edge a b → ∃ i j, i < j ∧ a ∈ nodesAt batches i ∧ b ∈ nodesAt batches j) := by
  have hsort : (∃ sorted, g.topologicalSort order = .ok sorted) ↔ g.Acyclic :=
    ⟨fun ⟨_, h⟩ => ComputationGraph.acyclic_of_topologicalSort h,
      fun h => ComputationGraph.exists_topologicalSort h order⟩
  have hsorted : ∀ sorted, g.topologicalSort order = .ok sorted →
      sorted.Perm g.nodes.keys ∧ ∀ a b, g.Edge a b → sorted.idxOf a < sorted.idxOf b := by
    intro sorted h
    obtain ⟨hperm, hordered⟩ := ComputationGraph.topologicalSort_sound h
    rw [ComputationGraph.map_fst_entries] at hperm
    rw [ComputationGraph.edge_entries] at hordered
    exact ⟨hperm.trans (order.nodes.perm _), hordered⟩
  refine ⟨hsort, hsorted, ?_, fun hmarked batches h => ?_⟩
  · rw [← hsort]
    constructor
    · rintro ⟨batches, h⟩
      obtain ⟨sorted, h, -⟩ := Except.bind_eq_ok_iff.mp h
      exact ⟨sorted, h⟩
    · rintro ⟨sorted, h⟩
      exact ⟨_, Except.bind_eq_ok_iff.mpr ⟨sorted, h, rfl⟩⟩
  · obtain ⟨sorted, hok, hbatches⟩ := Except.bind_eq_ok_iff.mp h
    obtain rfl := Except.ok.inj hbatches
    obtain ⟨hperm, hordered⟩ := hsorted sorted hok
    -- a node marked as an input is put at level 0, whatever its inputs are
    have hinputs : ∀ id ∈ g.inputs, ∀ a, ¬ g.Edge a id := by
      rintro id hid a ⟨node, hnode, ha, -⟩
      have hnil := hmarked id hid
      rw [ComputationGraph.inputsOf, hnode] at hnil
      have hnil : node.inputs = [] := hnil
      rw [hnil] at ha
      exact List.not_mem_nil ha
    have hnodup : sorted.Nodup := hperm.nodup_iff.mpr g.nodes.nodupKeys
    have hleveled : Leveled g ([] ++ sorted) _ := Leveled.initial.foldl hnodup hordered hinputs
    refine ⟨hleveled.perm.trans hperm, fun a b hedge => ?_⟩
    obtain ⟨node, hnode, ha, hknown⟩ := id hedge
    have hb : b ∈ sorted := hperm.mem_iff.mpr
      (AList.mem_keys.mp (ComputationGraph.mem_nodes_iff.mpr ⟨node, hnode⟩))
    obtain ⟨j, hj⟩ := (hleveled.level_iff b).mpr hb
    obtain ⟨i, hlt, hi⟩ := hleveled.ordered a b hedge j hj
    exact ⟨i, j, hlt, (hleveled.mem_iff a i).mpr hi, (hleveled.mem_iff b j).mpr hj⟩

/-- A sum that has one node as both of its inputs. -/
def sampleDoubled : ComputationGraph :=
  .ofNodes [("s", .add, ["c", "c"]), ("x", .input "x", []), ("c", .relu, ["x"])] ["x"] ["s"]

theorem scheduling_correct_sampleDoubled :
    ∃ batches, createBatches .given sampleDoubled = .ok batches ∧
      (batches.flatMap ExecutionBatch.nodeIds).Perm ["c", "x", "s"] := by
  refine ⟨_, rfl, ?_⟩
  exact ((scheduling_correct sampleDoubled .given).2.2.2 (by decide +kernel) _ rfl).1

end BatchScheduler

end Ipfrs.Tensorlogic
