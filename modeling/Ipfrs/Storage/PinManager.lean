import Ipfrs.Lib.StackWalk
import Ipfrs.Core.BlockCache

/-!
# Reference-counted pins

The `PinManager` of the storage crate (`ipfrs-storage/src/pinning.rs`).

The map of pins is keyed by the binary form of the CIDs, which reads back, so here it is keyed by
the CIDs; the same goes for `pinnedBy`. A `DashMap` has no order of its own, and here the map is a
list in the order of iteration. The counters of the statistics are atomic `u64`s, which wrap; a
`refCount` is a `u32` whose sums and differences are checked, as in a debug build. Every entry is
made with a time, the clock's at that moment.
-/

namespace Ipfrs

/-- A sum of `u32`s. -/
def addU32 (a b : ℕ) : Except Fault ℕ :=
  if a + b < 2 ^ 32 then .ok (a + b) else .error (.panic "attempt to add with overflow")

theorem addU32_eq_ok_iff {a b c : ℕ} : addU32 a b = .ok c ↔ a + b < 2 ^ 32 ∧ a + b = c := by
  unfold addU32
  split <;> simp_all

/-- A difference of `u32`s. -/
def subU32 (a b : ℕ) : Except Fault ℕ :=
  if b ≤ a then .ok (a - b) else .error (.panic "attempt to subtract with overflow")

namespace Storage

inductive PinType where
  | direct
  | recursive
  | indirect
  deriving DecidableEq, Repr

structure PinInfo where
  pinType : PinType
  refCount : ℕ
  createdAt : ℕ
  name : Option String
  pinnedBy : Option Cid

def PinInfo.new (pinType : PinType) (now : ℕ) : PinInfo where
  pinType := pinType
  refCount := 1
  createdAt := now
  name := none
  pinnedBy := none

@[ext]
structure PinStats where
  totalPins : UInt64 := 0
  directPins : UInt64 := 0
  recursivePins : UInt64 := 0
  indirectPins : UInt64 := 0
  deriving DecidableEq, Repr

namespace PinStats

def increment (stats : PinStats) : PinType → PinStats
  | .direct =>
    { stats with totalPins := stats.totalPins + 1, directPins := stats.directPins + 1 }
  | .recursive =>
    { stats with totalPins := stats.totalPins + 1, recursivePins := stats.recursivePins + 1 }
  | .indirect =>
    { stats with totalPins := stats.totalPins + 1, indirectPins := stats.indirectPins + 1 }

def decrement (stats : PinStats) : PinType → PinStats
  | .direct =>
    { stats with totalPins := stats.totalPins - 1, directPins := stats.directPins - 1 }
  | .recursive =>
    { stats with totalPins := stats.totalPins - 1, recursivePins := stats.recursivePins - 1 }
  | .indirect =>
    { stats with totalPins := stats.totalPins - 1, indirectPins := stats.indirectPins - 1 }

end PinStats

structure PinManager where
  pins : AList fun _ : Cid => PinInfo
  stats : PinStats

namespace PinManager

def new : PinManager := ⟨∅, {}⟩

/-! ### Pinning -/

variable (m : PinManager)

def pinWithType (cid : Cid) (pinType : PinType) (name : Option String) (now : ℕ) :
    Except Fault PinManager :=
  match m.pins.lookup cid with
  | some info => do
    let info := { info with refCount := ← addU32 info.refCount 1 }
    if pinType = .recursive ∧ info.pinType = .direct then
      return {
        pins := m.pins.insert cid { info with pinType := .recursive }
        stats := (m.stats.decrement .direct).increment .recursive }
    else return { m with pins := m.pins.insert cid info }
  | none =>
    return {
      pins := m.pins.insert cid { PinInfo.new pinType now with name := name }
      stats := m.stats.increment pinType }

def pin (cid : Cid) (now : ℕ) : Except Fault PinManager :=
  m.pinWithType cid .direct none now

def pinIndirect (cid parent : Cid) (now : ℕ) : Except Fault PinManager :=
  match m.pins.lookup cid with
  | some info => do
    return { m with
      pins := m.pins.insert cid { info with refCount := ← addU32 info.refCount 1 } }
  | none =>
    return {
      pins := m.pins.insert cid { PinInfo.new .indirect now with pinnedBy := some parent }
      stats := m.stats.increment .indirect }

/-- The variables of the loop of `pin_recursive`. -/
structure PinWalk where
  manager : PinManager
  toProcess : List Cid
  seen : Finset Cid
  pinnedCount : ℕ

/-- The loop over the links of a block. `now c` is the time at which the entry of `c` is made, if
one is made. -/
def pinLinks (root : Cid) (now : Cid → ℕ) : List Cid → PinWalk → PinWalk × Except Fault Unit
  | [], walk => (walk, .ok ())
  | link :: links, walk =>
    if link ∈ walk.seen then pinLinks root now links walk
    else
      match walk.manager.pinIndirect link root (now link) with
      | .error f => ({ walk with seen := insert link walk.seen }, .error f)
      | .ok manager =>
        pinLinks root now links
          { manager := manager
            toProcess := link :: walk.toProcess
            seen := insert link walk.seen
            pinnedCount := walk.pinnedCount + 1 }

/-- One round of the loop of `pin_recursive`. -/
def pinStep (linkResolver : Cid → Except Error (List Cid)) (root : Cid) (now : Cid → ℕ)
    (walk : PinWalk) : PinWalk ⊕ (PinManager × Except Fault ℕ) :=
  match walk.toProcess with
  | [] => .inr (walk.manager, .ok walk.pinnedCount)
  | currentCid :: toProcess =>
    match linkResolver currentCid with
    | .error e => .inr (walk.manager, .error (.error e))
    | .ok links =>
      match pinLinks root now links { walk with toProcess := toProcess } with
      | (walk, .ok ()) => .inl walk
      | (walk, .error f) => .inr (walk.manager, .error f)

/-- `pin_recursive`, with at most `fuel` rounds of its loop. -/
def pinRecursive (linkResolver : Cid → Except Error (List Cid)) (fuel : ℕ) (m : PinManager)
    (cid : Cid) (now : Cid → ℕ) : Option (PinManager × Except Fault ℕ) :=
  match m.pinWithType cid .recursive none (now cid) with
  | .error f => some (m, .error f)
  | .ok manager =>
    WhileLoop.run (pinStep linkResolver cid now) fuel
      { manager := manager, toProcess := [cid], seen := {cid}, pinnedCount := 1 }

/-! ### Unpinning -/

def unpin (cid : Cid) : PinManager × Except Fault Bool :=
  match m.pins.lookup cid with
  | none => (m, .ok false)
  | some info =>
    if info.refCount ≤ 1 then
      ({ pins := m.pins.erase cid, stats := m.stats.decrement info.pinType }, .ok true)
    else
      match subU32 info.refCount 1 with
      | .error f => (m, .error f)
      | .ok refCount =>
        ({ m with pins := m.pins.insert cid { info with refCount := refCount } }, .ok false)

/-- The variables of the loop of `unpin_recursive`. -/
structure UnpinWalk where
  manager : PinManager
  toProcess : List Cid
  seen : Finset Cid
  unpinnedCount : ℕ

/-- One round of the loop of `unpin_recursive`. -/
def unpinStep (linkResolver : Cid → Except Error (List Cid)) (walk : UnpinWalk) :
    UnpinWalk ⊕ (PinManager × Except Fault ℕ) :=
  match walk.toProcess with
  | [] => .inr (walk.manager, .ok walk.unpinnedCount)
  | currentCid :: toProcess =>
    if currentCid ∈ walk.seen then .inl { walk with toProcess := toProcess }
    else
      match walk.manager.unpin currentCid with
      | (manager, .error f) => .inr (manager, .error f)
      | (manager, .ok removed) =>
        -- an error of the resolver is passed over
        let links := (linkResolver currentCid).toOption.getD []
        .inl {
          manager := manager
          toProcess := links.reverse ++ toProcess
          seen := insert currentCid walk.seen
          unpinnedCount := if removed then walk.unpinnedCount + 1 else walk.unpinnedCount }

/-- `unpin_recursive`, with at most `fuel` rounds of its loop. -/
def unpinRecursive (linkResolver : Cid → Except Error (List Cid)) (fuel : ℕ) (m : PinManager)
    (cid : Cid) : Option (PinManager × Except Fault ℕ) :=
  WhileLoop.run (unpinStep linkResolver) fuel
    { manager := m, toProcess := [cid], seen := ∅, unpinnedCount := 0 }

/-! ### Reading -/

def isPinned (cid : Cid) : Bool := (m.pins.lookup cid).isSome

/-- `list_pins`, in the order of iteration. -/
def listPins : List (Cid × PinInfo) := m.pins.entries.map fun e => (e.1, e.2)

end PinManager

end Storage

end Ipfrs
