import Ipfrs.Storage.BlockStore
import Ipfrs.Storage.PinManager

/-!
# Mark-and-sweep garbage collection of the storage crate

The `GarbageCollector` of `ipfrs-storage/src/gc.rs`, over any block store and any link resolver.

A run can be cut short: `cancel` sets a flag, and a time limit can pass. The collector looks at the
flag and at the clock only now and then, and `Moments` says what it sees at each of these polls,
which are numbered in the order of the run. The flag stays set; nothing is assumed of the clock,
which starts anew with the sweep.

Counters are natural numbers. The pause between two batches is only a moment in which a flag can be
set, so it is left out; so are the duration of a run and the running totals of the collector.
-/

namespace Ipfrs.Storage

structure GcConfig where
  maxBlocksPerRun : ℕ := 0
  timeLimit : Option ℕ := none
  incremental : Bool := false
  batchSize : ℕ := 1000
  dryRun : Bool := false

structure GcResult where
  blocksCollected : ℕ := 0
  bytesFreed : ℕ := 0
  blocksMarked : ℕ := 0
  blocksScanned : ℕ := 0
  interrupted : Bool := false
  errors : List String := []
  deriving DecidableEq, Repr

/-- What the collector sees at its polls: whether it has been cancelled since the start of the run,
and how much time has passed since the start of the phase. -/
structure Moments where
  cancelled : ℕ → Bool
  cancelled_mono : ∀ i j, i ≤ j → cancelled i = true → cancelled j = true
  elapsed : ℕ → ℕ

namespace GarbageCollector

/-- `should_stop`, at the poll `tick`. -/
def shouldStop (config : GcConfig) (moments : Moments) (tick : ℕ) : Bool :=
  moments.cancelled tick ||
    match config.timeLimit with
    | some limit => decide (moments.elapsed tick > limit)
    | none => false

/-! ### The mark phase -/

/-- The variables of the loop of `mark_phase`. -/
structure MarkState where
  toProcess : List Cid
  marked : Finset Cid
  errors : List String
  tick : ℕ

/-- The roots among the pins: the direct and the recursive ones. -/
def rootsOf (pins : List (Cid × PinInfo)) : List Cid :=
  (pins.filter fun p => p.2.pinType = .direct ∨ p.2.pinType = .recursive).map Prod.fst

/-- The state before the loop: every pin is marked, and the roots are pushed. -/
def markStart (pins : List (Cid × PinInfo)) : MarkState where
  toProcess := (rootsOf pins).reverse
  marked := (pins.map Prod.fst).toFinset
  errors := []
  tick := 0

/-- Mark the links of a block that are not marked, and push them. -/
def markLinks : List Cid → MarkState → MarkState
  | [], st => st
  | link :: links, st =>
    if link ∈ st.marked then markLinks links st
    else
      markLinks links
        { st with toProcess := link :: st.toProcess, marked := insert link st.marked }

section Mark

variable [CidText] (linkResolver : Cid → Except Error (List Cid)) (moments : Moments)

/-- One round of the loop of `mark_phase`. -/
def markStep (st : MarkState) : MarkState ⊕ MarkState :=
  match st.toProcess with
  | [] => .inr st
  | cid :: toProcess =>
    let tick := st.tick + 1
    if moments.cancelled st.tick then .inr { st with toProcess := toProcess, tick := tick }
    else
      match linkResolver cid with
      | .ok links => .inl (markLinks links { st with toProcess := toProcess, tick := tick })
      | .error e =>
        .inl { st with
          toProcess := toProcess
          tick := tick
          errors := st.errors ++
            ["Error resolving links for " ++ CidText.toString cid ++ ": " ++ e.display] }

/-- `mark_phase`, with at most `fuel` rounds of its loop. -/
def markPhase (fuel : ℕ) (pinManager : PinManager) : Option MarkState :=
  WhileLoop.run (markStep linkResolver moments) fuel (markStart pinManager.listPins)

end Mark

/-! ### The sweep phase -/

section Sweep

variable {S : Type} [BlockStore S] [CidText]

/-- The bytes that a block takes, as far as it can be read. -/
def addSize (store : S) (cid : Cid) (result : GcResult) : GcResult :=
  match BlockStore.get store cid with
  | .ok (some block) => { result with bytesFreed := result.bytesFreed + block.data.length }
  | _ => result

/-- One block of `delete_batch`. -/
def deleteOne (st : S × GcResult) (cid : Cid) : S × GcResult :=
  let result := addSize st.1 cid st.2
  match BlockStore.delete st.1 cid with
  | .ok store => (store, { result with blocksCollected := result.blocksCollected + 1 })
  | .error e =>
    (st.1, { result with errors := result.errors ++
      ["Error deleting block " ++ CidText.toString cid ++ ": " ++ e.display] })

def deleteBatch (cids : List Cid) (st : S × GcResult) : S × GcResult :=
  cids.foldl deleteOne st

/-- The variables of the loop of `sweep_phase`. -/
structure SweepState (S : Type) where
  store : S
  result : GcResult
  toDelete : List Cid := []
  batchCount : ℕ := 0
  tick : ℕ

/-- An unmarked block: counted in a dry run, and otherwise put on the list. -/
def collectBlock (config : GcConfig) (cid : Cid) (st : SweepState S) : SweepState S :=
  if config.dryRun then
    let result := addSize st.store cid st.result
    { st with result := { result with blocksCollected := result.blocksCollected + 1 } }
  else { st with toDelete := st.toDelete ++ [cid] }

/-- Delete what is on the list. -/
def flush (config : GcConfig) (st : SweepState S) : SweepState S :=
  if !config.dryRun && !st.toDelete.isEmpty then
    let (store, result) := deleteBatch st.toDelete (st.store, st.result)
    { st with store := store, result := result, toDelete := [] }
  else st

/-- The end of a batch, when blocks are deleted batch by batch. -/
def endBatch (config : GcConfig) (st : SweepState S) : SweepState S :=
  let st := { st with batchCount := st.batchCount + 1 }
  if config.incremental = true ∧ st.batchCount ≥ config.batchSize then
    { flush config st with batchCount := 0 }
  else st

/-- The loop of `sweep_phase`. -/
def sweepLoop (config : GcConfig) (moments : Moments) (marked : Finset Cid) :
    List Cid → SweepState S → SweepState S
  | [], st => st
  | cid :: cids, st =>
    let polled := { st with tick := st.tick + 2 }
    if moments.cancelled st.tick || shouldStop config moments (st.tick + 1) then
      { polled with result := { st.result with interrupted := true } }
    else if config.maxBlocksPerRun > 0 ∧ st.result.blocksCollected ≥ config.maxBlocksPerRun then
      { polled with result := { st.result with interrupted := true } }
    else if cid ∈ marked then sweepLoop config moments marked cids polled
    else sweepLoop config moments marked cids (endBatch config (collectBlock config cid polled))

/-- `sweep_phase`, from the poll `tick` on. -/
def sweepPhase (config : GcConfig) (moments : Moments) (marked : Finset Cid) (store : S)
    (result : GcResult) (tick : ℕ) : Except Error (S × GcResult) := do
  let allCids ← BlockStore.listCids store
  let st := sweepLoop config moments marked allCids
    { store := store, result := { result with blocksScanned := allCids.length }, tick := tick }
  -- what is left of the last batch
  let st := flush config st
  return (st.store, st.result)

/-- `collect`, with at most `fuel` rounds of the mark phase. -/
def collect (linkResolver : Cid → Except Error (List Cid)) (config : GcConfig)
    (moments : Moments) (fuel : ℕ) (store : S) (pinManager : PinManager) :
    Option (S × Except Error GcResult) :=
  (markPhase linkResolver moments fuel pinManager).map fun st =>
    let result : GcResult := { blocksMarked := st.marked.card, errors := st.errors }
    if shouldStop config moments st.tick then (store, .ok { result with interrupted := true })
    else
      match sweepPhase config moments st.marked store result (st.tick + 1) with
      | .ok (store, result) => (store, .ok result)
      | .error e => (store, .error e)

end Sweep

end GarbageCollector

end Ipfrs.Storage
