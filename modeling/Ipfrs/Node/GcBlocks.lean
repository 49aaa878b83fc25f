import Ipfrs.Node.PinOps

/-!
# Orphan collection through the node

The `OrphanGarbageCollector` of the storage crate (`ipfrs-storage/src/gc.rs`) and `Node::gc_blocks`
(`ipfrs/src/node/repo_ops.rs`).

The collector follows no links: it looks at the first blocks of the store's list, and deletes those
whose CID is not in a set that its caller gives it. `gc_blocks` gives it the pins. A block that is
pinned indirectly, below a recursive pin, is not among them, so a collection keeps every pin exactly
when it meets no block of that kind (`gcBlocks_keeps_pins_iff`).

The duration of a run is left out, and so is the registry of snapshots, which `gc_blocks` does not
use: the collector takes its CIDs as a second set.
-/

namespace Ipfrs

/-! ### The collector -/

structure OrphanGcConfig where
  dryRun : Bool := false
  /-- Not looked at: there is no age to compare it with. -/
  minAgeSecs : ℕ := 3600
  batchSize : ℕ := 100

structure OrphanGcResult where
  examined : ℕ := 0
  collected : ℕ := 0
  freedBytes : ℕ := 0
  errors : List String := []
  deriving DecidableEq, Repr

namespace OrphanGarbageCollector

variable {S : Type} [BlockStore S] [CidText]

/-- An orphan in a dry run: it is counted. -/
def countOrphan (s : S) (cid : Cid) (result : OrphanGcResult) : OrphanGcResult :=
  match BlockStore.get s cid with
  | .ok (some block) =>
    { result with
      freedBytes := result.freedBytes + block.data.length
      collected := result.collected + 1 }
  | _ => { result with collected := result.collected + 1 }

/-- The size of an orphan, before it is deleted. -/
def sizeOrphan (s : S) (cid : Cid) (result : OrphanGcResult) : OrphanGcResult :=
  match BlockStore.get s cid with
  | .ok (some block) => { result with freedBytes := result.freedBytes + block.data.length }
  | .ok none => result
  | .error e =>
    { result with errors := result.errors ++
        ["get error for " ++ CidText.toString cid ++ ": " ++ e.display] }

/-- An orphan: its size is noted, and it is deleted. -/
def deleteOrphan (s : S) (cid : Cid) (result : OrphanGcResult) : S × OrphanGcResult :=
  let result := sizeOrphan s cid result
  match BlockStore.delete s cid with
  | .ok s' => (s', { result with collected := result.collected + 1 })
  | .error e =>
    (s, { result with errors := result.errors ++
      ["delete error for " ++ CidText.toString cid ++ ": " ++ e.display] })

/-- One round of the loop of `collect_inner`. -/
def collectOne (config : OrphanGcConfig) (pinnedCids extraPinned : Finset String)
    (st : S × OrphanGcResult) (cid : Cid) : S × OrphanGcResult :=
  let (s, result) := st
  let result := { result with examined := result.examined + 1 }
  if CidText.toString cid ∈ pinnedCids ∨ CidText.toString cid ∈ extraPinned then (s, result)
  else if config.dryRun then (s, countOrphan s cid result)
  else deleteOrphan s cid result

def collectInner (config : OrphanGcConfig) (s : S) (pinnedCids extraPinned : Finset String) :
    S × Except Error OrphanGcResult :=
  match BlockStore.listCids s with
  | .error e => (s, .error e)
  | .ok allCids =>
    let (s, result) := (allCids.take config.batchSize).foldl
      (collectOne config pinnedCids extraPinned) (s, {})
    (s, .ok result)

def collect (config : OrphanGcConfig) (s : S) (pinnedCids : Finset String) :
    S × Except Error OrphanGcResult :=
  collectInner config s pinnedCids ∅

end OrphanGarbageCollector

/-! ### The node -/

namespace Node

variable {S : Type} [BlockStore S] [CidText]

variable (n : Node S)

omit [BlockStore S] in
/-- The set that `gc_blocks` hands over. -/
def pinnedCids : Finset String :=
  (n.pinManager.list.map fun pin => CidText.toString pin.cid).toFinset

/-- `Node::gc_blocks`, with any configuration. -/
def gcBlocksWith (config : OrphanGcConfig) : Node S × Except Error OrphanGcResult :=
  match n.getStorage with
  | .error e => (n, .error e)
  | .ok s =>
    let (s, result) := OrphanGarbageCollector.collect config s n.pinnedCids
    ({ n with storage := some s }, result)

def gcBlocks (dryRun : Bool) (minAgeSecs : ℕ) : Node S × Except Error OrphanGcResult :=
  n.gcBlocksWith { dryRun := dryRun, minAgeSecs := minAgeSecs, batchSize := 1000 }

omit [CidText] in
def putBlock (b : Block) : Except Error (Node S) := do
  let s ← n.getStorage
  let s ← BlockStore.put s b
  return { n with storage := some s }

/-- The nodes that `pin_add`, `pin_rm` and block puts lead to, from a node without pins. A call may
fail. -/
inductive PinRun [CidCrate] : Node S → Prop
  | start {n : Node S} : n.pinManager = .new → PinRun n
  | pinAdd {n n' : Node S} {fuel : ℕ} {cid : Cid} {recursive : Bool} {name : Option String}
      {now : ℤ} {r : Except Error Unit} : PinRun n →
        n.pinAdd fuel cid recursive name now = some (n', r) → PinRun n'
  | pinRm {n : Node S} {cid : Cid} {recursive : Bool} : PinRun n →
      PinRun (n.pinRm cid recursive).1
  | putBlock {n n' : Node S} {b : Block} : PinRun n → n.putBlock b = .ok n' → PinRun n'

end Node

/-! ### What a collection leaves -/

namespace OrphanGarbageCollector

section Lawful

variable {S : Type} [BlockStore S] [StoreView S] [LawfulBlockStore S] [CidText]
  {config : OrphanGcConfig} {pinnedCids extraPinned : Finset String}
variable {s : S} {c cid : Cid} {st : S × OrphanGcResult} {cids : List Cid}

theorem view_deleteOrphan (result : OrphanGcResult) (hc : c ≠ cid) :
    view (deleteOrphan s cid result).1 c = view s c := by
  unfold deleteOrphan
  dsimp only
  cases hdelete : BlockStore.delete s cid with
  | ok s' => exact (LawfulBlockStore.delete_ok hdelete).2 c hc
  | error e => rfl

/-- Nothing happens to a block that is protected, nor to any in a dry run. -/
theorem view_collectOne (h : config.dryRun = true ∨ CidText.toString c ∈ pinnedCids ∨
      CidText.toString c ∈ extraPinned ∨ c ≠ cid) :
    view (collectOne config pinnedCids extraPinned st cid).1 c = view st.1 c := by
  unfold collectOne
  dsimp only
  split
  · rfl
  · next hkept =>
    split
    · rfl
    · next hdry =>
      refine view_deleteOrphan _ ?_
      rintro rfl
      rcases h with h | h | h | h
      · exact hdry h
      · exact hkept (Or.inl h)
      · exact hkept (Or.inr h)
      · exact h rfl

theorem view_foldl_collectOne (h : config.dryRun = true ∨ CidText.toString c ∈ pinnedCids ∨
      CidText.toString c ∈ extraPinned ∨ c ∉ cids) :
    view (cids.foldl (collectOne config pinnedCids extraPinned) st).1 c = view st.1 c := by
  induction cids generalizing st with
  | nil => rfl
  | cons cid cids ih =>
    rw [List.mem_cons, not_or] at h
    rw [List.foldl_cons, ih (h.imp_right (Or.imp_right (Or.imp_right And.right)))]
    exact view_collectOne (h.imp_right (Or.imp_right (Or.imp_right And.left)))

/-- **What a collection keeps**: everything in a dry run, the blocks of the two sets, and what it
does not get to. -/
theorem view_collectInner (h : config.dryRun = true ∨ CidText.toString c ∈ pinnedCids ∨
      CidText.toString c ∈ extraPinned ∨
        ∀ cids, BlockStore.listCids s = .ok cids → c ∉ cids.take config.batchSize) :
    view (collectInner config s pinnedCids extraPinned).1 c = view s c := by
  unfold collectInner
  cases hlist : BlockStore.listCids s with
  | error e => rfl
  | ok cids =>
    exact view_foldl_collectOne
      (h.imp_right (Or.imp_right (Or.imp_right fun hnot => hnot cids hlist)))

/-- Every other block of the batch is deleted, when no operation of the store fails. -/
theorem view_foldl_collectOne_of_mem [ReliableBlockStore S] (hdry : config.dryRun = false)
    (hpinned : CidText.toString c ∉ pinnedCids) (hextra : CidText.toString c ∉ extraPinned)
    (hc : c ∈ cids) :
    view (cids.foldl (collectOne config pinnedCids extraPinned) st).1 c = none := by
  induction cids generalizing st with
  | nil => exact absurd hc List.not_mem_nil
  | cons cid cids ih =>
    rw [List.foldl_cons]
    by_cases hrest : c ∈ cids
    · exact ih hrest
    · obtain rfl : c = cid := (List.mem_cons.mp hc).resolve_right hrest
      rw [view_foldl_collectOne (Or.inr (Or.inr (Or.inr hrest)))]
      unfold collectOne deleteOrphan
      dsimp only
      obtain ⟨s', hdelete⟩ := ReliableBlockStore.delete st.1 c
      rw [if_neg (not_or.mpr ⟨hpinned, hextra⟩), if_neg (by simp [hdry]), hdelete]
      exact (LawfulBlockStore.delete_ok hdelete).1

theorem view_collectInner_of_mem [ReliableBlockStore S] (hdry : config.dryRun = false)
    (hpinned : CidText.toString c ∉ pinnedCids) (hextra : CidText.toString c ∉ extraPinned)
    (hlist : BlockStore.listCids s = .ok cids) (hc : c ∈ cids.take config.batchSize) :
    view (collectInner config s pinnedCids extraPinned).1 c = none := by
  unfold collectInner
  rw [hlist]
  exact view_foldl_collectOne_of_mem hdry hpinned hextra hc

end Lawful

end OrphanGarbageCollector

/-! ### Pins -/

namespace Node

section Pins

variable {S : Type} [BlockStore S] [CidText]
variable {n : Node S}

theorem PinRun.reachable [CidCrate] (h : PinRun n) : PinReachable S n.pinManager := by
  induction h with
  | start hnew =>
    rw [hnew]
    exact .new
  | pinAdd _ hadd ih => exact .pinAdd ih hadd
  | pinRm _ ih => exact .pinRm ih
  | putBlock _ hput ih =>
    obtain ⟨s, -, hput⟩ := Except.bind_eq_ok_iff.mp hput
    obtain ⟨s', -, heq⟩ := Except.bind_eq_ok_iff.mp hput
    obtain rfl := Except.ok.inj heq
    exact ih

omit [BlockStore S] in
theorem mem_pinnedCids_iff (hkeyed : n.pinManager.Keyed)
    (htext : Set.InjOn CidText.toString {c | n.pinManager.isPinned c = true}) {c : Cid}
    (hc : n.pinManager.isPinned c = true) :
    CidText.toString c ∈ n.pinnedCids ↔ c ∈ n.pinManager.pins := by
  unfold pinnedCids
  rw [List.mem_toFinset, List.mem_map, ← hkeyed.mem_list_iff]
  constructor
  · rintro ⟨pin, hpin, heq⟩
    refine ⟨pin, hpin, htext ?_ hc heq⟩
    have hmem : pin.cid ∈ n.pinManager.pins := (hkeyed.mem_list_iff _).mp ⟨pin, hpin, rfl⟩
    simp [PinManager.isPinned, hmem]
  · rintro ⟨pin, hpin, rfl⟩
    exact ⟨pin, hpin, rfl⟩

/-- The data in store under a CID. -/
def stored [StoreView S] (n : Node S) (c : Cid) : Option Bytes := n.storage.bind fun s => view s c

/-- Every block that was there and is pinned is still there after `gc_blocks`, as it was. -/
def KeepsPins [StoreView S] (n : Node S) (config : OrphanGcConfig) : Prop :=
  ∀ c, (n.stored c).isSome → n.pinManager.isPinned c = true →
    (n.gcBlocksWith config).1.stored c = n.stored c

omit [CidText] in
/-- The blocks of the batch that are pinned indirectly are also pins of their own. -/
def BatchCovered (n : Node S) (config : OrphanGcConfig) : Prop :=
  ∀ s cids, n.storage = some s → BlockStore.listCids s = .ok cids →
    ∀ c ∈ cids.take config.batchSize, c ∈ n.pinManager.indirectPins → c ∈ n.pinManager.pins

variable [CidCrate] [StoreView S] [LawfulBlockStore S]

/-- **When `gc_blocks` keeps every pin**: in a dry run, and otherwise as soon as every block of the
batch that is pinned indirectly is also a pin of its own; on a store that works, and with CIDs that
can be told apart by their strings, not otherwise. -/
theorem gcBlocks_keeps_pins_iff (h : PinRun n) (config : OrphanGcConfig) :
    (config.dryRun = true ∨ n.BatchCovered config → n.KeepsPins config) ∧
    (ReliableBlockStore S → Set.InjOn CidText.toString {c | n.pinManager.isPinned c = true} →
      (n.KeepsPins config ↔ config.dryRun = true ∨ n.BatchCovered config)) := by
  have hkeyed := h.reachable.keyed
  have hkeeps : config.dryRun = true ∨ n.BatchCovered config → n.KeepsPins config := by
    intro hcond c hstored hpinned
    unfold gcBlocksWith getStorage stored
    cases hstorage : n.storage with
    | none => exact congrArg (Option.bind · fun s => view s c) hstorage
    | some s =>
      refine OrphanGarbageCollector.view_collectInner (hcond.imp_right fun hcovered => ?_)
      by_cases hpin : c ∈ n.pinManager.pins
      · -- its string is in the set
        obtain ⟨pin, hpin, heq⟩ := (hkeyed.mem_list_iff c).mpr hpin
        refine Or.inl (List.mem_toFinset.mpr (List.mem_map.mpr ⟨pin, hpin, ?_⟩))
        rw [heq]
      · refine Or.inr (Or.inr fun cids hlist hmem => ?_)
        refine hpin (hcovered s cids hstorage hlist c hmem ?_)
        simpa [PinManager.isPinned, hpin] using hpinned
  refine ⟨hkeeps, fun hreliable htext => ⟨fun hkept => ?_, hkeeps⟩⟩
  by_cases hdry : config.dryRun = true
  · exact Or.inl hdry
  refine Or.inr fun s cids hstorage hlist c hmem hindirect => ?_
  by_contra hpin
  have hpinned : n.pinManager.isPinned c = true := by simp [PinManager.isPinned, hindirect]
  have hview : n.stored c = view s c := by
    unfold stored
    rw [hstorage]
    rfl
  have hin : (view s c).isSome :=
    ((LawfulBlockStore.listCids_ok hlist).2 c).mp (List.mem_of_mem_take hmem)
  -- the block is in the batch and not in the set
  have hgone : (n.gcBlocksWith config).1.stored c = none := by
    have hnot : CidText.toString c ∉ n.pinnedCids :=
      fun hset => hpin ((mem_pinnedCids_iff hkeyed htext hpinned).mp hset)
    unfold gcBlocksWith getStorage
    rw [hstorage]
    exact OrphanGarbageCollector.view_collectInner_of_mem (by simpa using hdry) hnot
      (Finset.notMem_empty _) hlist hmem
  have hsame := hkept c (by rw [hview]; exact hin) hpinned
  rw [hgone, hview] at hsame
  rw [← hsame] at hin
  exact absurd hin (by simp)

end Pins

section Sample

open scoped CidReference

open PinManager (sampleRoot sampleDep)

/-- A node with the blocks `sampleRoot`, which links to `sampleDep`, and `sampleDep` in store. -/
def sampleTree : Node MemoryBlockStore where
  storage := some ((MemoryBlockStore.new.insert
    ⟨sampleRoot, encodeDagCbor (.link sampleDep)⟩).insert ⟨sampleDep, [1]⟩)

theorem gcBlocks_keeps_pins_direct :
    ∃ n', sampleTree.pinAdd 1 sampleRoot false none 0 = some (n', .ok ()) ∧ n'.KeepsPins {} := by
  have hadd : sampleTree.pinAdd 1 sampleRoot false none 0 =
      some ({ sampleTree with pinManager := PinManager.new.pin sampleRoot .direct none 0 },
        .ok ()) := rfl
  refine ⟨_, hadd, (gcBlocks_keeps_pins_iff (.pinAdd (.start rfl) hadd) {}).1 (Or.inr ?_)⟩
  intro s cids _ _ c _ hindirect
  exact absurd hindirect (Finset.notMem_empty c)

/-- After a recursive pin of `sampleRoot`, `gc_blocks` deletes `sampleDep`. -/
theorem gcBlocks_deletes_indirect :
    ¬ ∀ n : Node MemoryBlockStore, PinRun n → ∀ config, n.KeepsPins config := by
  intro hall
  have hrun : ((sampleTree.pinAdd 4 sampleRoot true none 0).map fun r =>
      (r.1.stored sampleDep, r.1.pinManager.isPinned sampleDep,
        (r.1.gcBlocksWith {}).1.stored sampleDep)) = some (some [1], true, none) := by
    decide +kernel
  obtain ⟨⟨n', r⟩, hadd, h⟩ := Option.map_eq_some_iff.mp hrun
  obtain ⟨hstored, h⟩ := Prod.mk.inj h
  obtain ⟨hpinned, hgone⟩ := Prod.mk.inj h
  dsimp only at hstored hpinned hgone
  have hkept := hall n' (.pinAdd (.start rfl) hadd) {} sampleDep (by rw [hstored]; rfl) hpinned
  rw [hgone, hstored] at hkept
  exact absurd hkept (by simp)

end Sample

end Node

end Ipfrs
