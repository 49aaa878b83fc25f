import Ipfrs.Core.Cid
import Ipfrs.Network.VectorClock

/-!
# The peer sync protocol

`PeerSyncProtocol` (`ipfrs-network/src/peer_sync_protocol.rs`): a node holds a live entry or a
tombstone for a key, writes its own entries, and receives operations from its peers, for which
entries are compared by their clocks first and by the `ConflictPolicy` otherwise.

The entries of a `HashMap` come in no order of their own, so `generateDelta` is given the order of
the keys.

* `applyPut_cases` and `applyRemoteOp_induction` say once what a remote operation can do: it writes
  entries for keys that have no tombstone, and makes tombstones;
* `tombstones_subset_run` and `staysDeleted_iff` — a tombstone is never lost, and the keys that have
  one stay deleted exactly when `local_put` is never called on one of them: unlike `apply_put` it
  does not look at the tombstones;
* `Reachable` — the states of any number of nodes that send each other their operations.
-/

namespace Ipfrs.Network

structure SyncEntry where
  key : String
  value : Bytes
  clock : VectorClock
  nodeId : String
  timestamp : UInt64

inductive SyncOperation where
  | put (entry : SyncEntry)
  | delete (key : String) (clock : VectorClock)
  | merge (entries : List SyncEntry)

inductive SyncError where
  | tombstoned (key : String)
  | conflictRejected (key : String)
  | invalidOperation
  deriving DecidableEq, Repr

inductive ConflictPolicy where
  | lastWriteWins
  | highestClock
  | mergeBytes (separator : UInt8)
  | rejectConflict
  deriving DecidableEq, Repr

structure SyncState where
  entries : AList fun _ : String => SyncEntry
  tombstones : Finset String
  localClock : VectorClock
  nodeId : String

def SyncState.new (nodeId : String) : SyncState where
  entries := ∅
  tombstones := ∅
  localClock := VectorClock.new
  nodeId := nodeId

structure PeerSyncProtocol where
  state : SyncState
  conflictPolicy : ConflictPolicy
  pendingOps : List SyncOperation
  syncLog : List (String × SyncOperation × UInt64)

/-- `PeerSyncProtocol::resolve_conflict_inner`. -/
def ConflictPolicy.resolveConflictInner (policy : ConflictPolicy) (existing incoming : SyncEntry) :
    Except SyncError SyncEntry :=
  match policy with
  | .lastWriteWins =>
    -- on a tie the incoming entry wins
    if existing.timestamp > incoming.timestamp then .ok existing else .ok incoming
  | .highestClock =>
    if existing.clock.dominates incoming.clock && !incoming.clock.dominates existing.clock then
      .ok existing
    else .ok incoming
  | .mergeBytes separator =>
    .ok { key := existing.key
          value := existing.value ++ [separator] ++ incoming.value
          clock := existing.clock.merge incoming.clock
          nodeId := incoming.nodeId
          timestamp := max existing.timestamp incoming.timestamp }
  | .rejectConflict => .error (.conflictRejected existing.key)

namespace PeerSyncProtocol

def new (nodeId : String) (conflictPolicy : ConflictPolicy) : PeerSyncProtocol where
  state := SyncState.new nodeId
  conflictPolicy := conflictPolicy
  pendingOps := []
  syncLog := []

variable (p : PeerSyncProtocol)

def localPut (key : String) (value : Bytes) (now : UInt64) : PeerSyncProtocol × SyncEntry :=
  let localClock := p.state.localClock.increment p.state.nodeId
  let entry : SyncEntry := ⟨key, value, localClock, p.state.nodeId, now⟩
  ({ p with
      state :=
        { p.state with localClock := localClock, entries := p.state.entries.insert key entry }
      pendingOps := p.pendingOps ++ [.put entry] }, entry)

def localDelete (key : String) (_now : UInt64) : PeerSyncProtocol :=
  let localClock := p.state.localClock.increment p.state.nodeId
  { p with
      state :=
        { p.state with
            localClock := localClock
            tombstones := insert key p.state.tombstones
            entries := p.state.entries.erase key }
      pendingOps := p.pendingOps ++ [.delete key localClock] }

/-- Every branch of `apply_put` that writes an entry ends so. -/
def store (key : String) (entry : SyncEntry) : PeerSyncProtocol :=
  { p with
      state :=
        { p.state with
            localClock := p.state.localClock.merge entry.clock
            entries := p.state.entries.insert key entry } }

def applyPut (incoming : SyncEntry) : PeerSyncProtocol × Except SyncError Unit :=
  if incoming.key ∈ p.state.tombstones then (p, .error (.tombstoned incoming.key))
  else
    match p.state.entries.lookup incoming.key with
    | none => (p.store incoming.key incoming, .ok ())
    | some existing =>
      -- the same write, or one that comes before what is there, changes nothing
      if existing.clock.eq incoming.clock then (p, .ok ())
      else if incoming.clock.happensBefore existing.clock then (p, .ok ())
      else if existing.clock.happensBefore incoming.clock then
        (p.store incoming.key incoming, .ok ())
      else
        -- the two are concurrent
        match p.conflictPolicy.resolveConflictInner existing incoming with
        | .error e => (p, .error e)
        | .ok resolved => (p.store incoming.key resolved, .ok ())

def applyDelete (key : String) (clock : VectorClock) : PeerSyncProtocol :=
  { p with
      state :=
        { p.state with
            tombstones := insert key p.state.tombstones
            entries := p.state.entries.erase key
            localClock := p.state.localClock.merge clock } }

/-- The entries of a `Merge`, put one after the other whatever the puts answer. -/
def applyEntries (entries : List SyncEntry) : PeerSyncProtocol :=
  entries.foldl (fun p entry => (p.applyPut entry).1) p

def applyRemoteOp (peerId : String) (op : SyncOperation) (now : UInt64) :
    PeerSyncProtocol × Except SyncError Unit :=
  let p := { p with syncLog := p.syncLog ++ [(peerId, op, now)] }
  match op with
  | .put entry => p.applyPut entry
  | .delete key clock => (p.applyDelete key clock, .ok ())
  | .merge entries =>
    if entries.isEmpty then (p, .error .invalidOperation) else (p.applyEntries entries, .ok ())

/-- `PeerSyncProtocol::generate_delta`, with the keys in the order of the iteration. -/
def generateDelta (order : List String) (sinceClock : VectorClock) : List SyncOperation :=
  let missing := (order.filterMap p.state.entries.lookup).filter fun e =>
    !e.clock.happensBefore sinceClock
  if missing.isEmpty then [] else [.merge missing]

/-! ### What a remote operation can do -/

section Remote

variable {p : PeerSyncProtocol} {entry incoming : SyncEntry} {op : SyncOperation}
  {peerId key : String} {now : UInt64}

/-- A put writes an entry for a key without a tombstone, or changes nothing. -/
theorem applyPut_cases (p : PeerSyncProtocol) (incoming : SyncEntry) :
    (p.applyPut incoming).1 = p ∨
      incoming.key ∉ p.state.tombstones ∧
        ∃ entry, (p.applyPut incoming).1 = p.store incoming.key entry := by
  rw [applyPut]
  by_cases htomb : incoming.key ∈ p.state.tombstones
  · exact Or.inl (by rw [if_pos htomb])
  rw [if_neg htomb]
  cases p.state.entries.lookup incoming.key with
  | none => exact Or.inr ⟨htomb, incoming, rfl⟩
  | some existing =>
    dsimp only
    -- only a write that is later or concurrent is stored
    split
    · exact Or.inl rfl
    split
    · exact Or.inl rfl
    split
    · exact Or.inr ⟨htomb, incoming, rfl⟩
    cases p.conflictPolicy.resolveConflictInner existing incoming with
    | error e => exact Or.inl rfl
    | ok resolved => exact Or.inr ⟨htomb, resolved, rfl⟩

/-- **What holds after a remote operation**: whatever is kept by writing an entry for a key without
a tombstone and by deleting a key. -/
theorem applyRemoteOp_induction {Q : SyncState → Prop} (hp : Q p.state)
    (hstore : ∀ (p : PeerSyncProtocol) (key : String) (entry : SyncEntry), Q p.state →
      key ∉ p.state.tombstones → Q (p.store key entry).state)
    (hdelete : ∀ (p : PeerSyncProtocol) (key : String) (clock : VectorClock), Q p.state →
      Q (p.applyDelete key clock).state) :
    Q (p.applyRemoteOp peerId op now).1.state := by
  have hput : ∀ (p : PeerSyncProtocol) (incoming : SyncEntry), Q p.state →
      Q (p.applyPut incoming).1.state := by
    intro p incoming hp
    obtain heq | ⟨htomb, entry, heq⟩ := applyPut_cases p incoming
    · rw [heq]
      exact hp
    · rw [heq]
      exact hstore p incoming.key entry hp htomb
  cases op with
  | put entry => exact hput _ entry hp
  | delete key clock => exact hdelete { p with syncLog := _ } key clock hp
  | merge entries =>
    rw [applyRemoteOp]
    split
    · exact hp
    · -- entry after entry
      refine List.foldlRecOn entries _ (motive := fun q : PeerSyncProtocol => Q q.state) hp ?_
      intro q hq entry _
      exact hput q entry hq

theorem conflictPolicy_applyPut (p : PeerSyncProtocol) (incoming : SyncEntry) :
    (p.applyPut incoming).1.conflictPolicy = p.conflictPolicy := by
  obtain heq | ⟨-, entry, heq⟩ := applyPut_cases p incoming
  · rw [heq]
  · rw [heq]
    rfl

theorem tombstones_applyPut (p : PeerSyncProtocol) (incoming : SyncEntry) :
    (p.applyPut incoming).1.state.tombstones = p.state.tombstones := by
  obtain heq | ⟨-, entry, heq⟩ := applyPut_cases p incoming
  · rw [heq]
  · rw [heq]
    rfl

end Remote

/-! ### Tombstones -/

section Tombstones

/-- What can happen at a node. -/
inductive Act where
  | localPut (key : String) (value : Bytes) (now : UInt64)
  | localDelete (key : String) (now : UInt64)
  | applyRemoteOp (peerId : String) (op : SyncOperation) (now : UInt64)

/-- The node after something has happened. -/
def act (p : PeerSyncProtocol) : Act → PeerSyncProtocol
  | .localPut key value now => (p.localPut key value now).1
  | .localDelete key now => p.localDelete key now
  | .applyRemoteOp peerId op now => (p.applyRemoteOp peerId op now).1

/-- The node after a run. -/
def run (p : PeerSyncProtocol) (acts : List Act) : PeerSyncProtocol := acts.foldl act p

theorem run_append (p : PeerSyncProtocol) (acts acts' : List Act) :
    p.run (acts ++ acts') = (p.run acts).run acts' :=
  List.foldl_append

/-- There is a live entry for the key. -/
def Live (s : SyncState) (key : String) : Prop := (s.entries.lookup key).isSome

instance (s : SyncState) (key : String) : Decidable (Live s key) :=
  inferInstanceAs (Decidable ((s.entries.lookup key).isSome = true))

/-- **Deleted keys stay deleted** in a run from a new node: in no state is a key both live and
tombstoned, and after a state in which it is tombstoned it is in no state live. -/
def StaysDeleted (nodeId : String) (policy : ConflictPolicy) (acts : List Act) : Prop :=
  (∀ before after, acts = before ++ after →
    ∀ key, ¬ (Live ((new nodeId policy).run before).state key ∧
      key ∈ ((new nodeId policy).run before).state.tombstones)) ∧
  ∀ before mid after, acts = before ++ mid ++ after →
    ∀ key ∈ ((new nodeId policy).run before).state.tombstones,
      ¬ Live ((new nodeId policy).run (before ++ mid)).state key

/-- No key is both live and tombstoned. -/
def Separate (s : SyncState) : Prop := ∀ key ∈ s.tombstones, ¬ Live s key

variable {p : PeerSyncProtocol} {s : SyncState} {key : String} {a : Act} {acts : List Act}

theorem live_insert_iff {es : AList fun _ : String => SyncEntry} {entry : SyncEntry} {k : String} :
    ((es.insert key entry).lookup k).isSome ↔ k = key ∨ (es.lookup k).isSome := by
  by_cases hk : k = key
  · subst hk
    rw [AList.lookup_insert]
    exact iff_of_true rfl (Or.inl rfl)
  · rw [AList.lookup_insert_ne hk, or_iff_right hk]

theorem separate_store (h : Separate p.state) (hkey : key ∉ p.state.tombstones)
    (entry : SyncEntry) : Separate (p.store key entry).state := by
  intro k hk hlive
  obtain rfl | hlive := live_insert_iff.mp hlive
  · exact hkey hk
  · exact h k hk hlive

theorem separate_erase {clock : VectorClock} {nodeId : String} (h : Separate s) :
    Separate ⟨s.entries.erase key, insert key s.tombstones, clock, nodeId⟩ := by
  intro k hk hlive
  have hlive : ((s.entries.erase key).lookup k).isSome := hlive
  by_cases heq : k = key
  · subst heq
    rw [AList.lookup_erase] at hlive
    cases hlive
  · rw [AList.lookup_erase_ne heq] at hlive
    exact h k (Finset.mem_of_mem_insert_of_ne hk heq) hlive

/-- Whatever happens keeps live and tombstoned keys separate, unless it writes a tombstoned key. -/
theorem Separate.act (h : Separate p.state)
    (ha : ∀ key value now, a = .localPut key value now → key ∉ p.state.tombstones) :
    Separate (p.act a).state := by
  cases a with
  | localPut key value now =>
    -- the key that is written has no tombstone, and all others are as before
    intro k hk hlive
    obtain rfl | hlive := live_insert_iff.mp hlive
    · exact ha k value now rfl hk
    · exact h k hk hlive
  | localDelete key now => exact separate_erase h
  | applyRemoteOp peerId op now =>
    apply applyRemoteOp_induction h
    · intro p key entry hp hkey
      exact separate_store hp hkey entry
    · intro p key clock hp
      exact separate_erase hp

theorem tombstones_subset_act (p : PeerSyncProtocol) (a : Act) :
    p.state.tombstones ⊆ (p.act a).state.tombstones := by
  cases a with
  | localPut key value now => exact Finset.Subset.refl _
  | localDelete key now => exact Finset.subset_insert _ _
  | applyRemoteOp peerId op now =>
    apply applyRemoteOp_induction (Q := fun s => p.state.tombstones ⊆ s.tombstones)
    · exact Finset.Subset.refl _
    · intro q key entry hq _
      exact hq
    · intro q key clock hq
      exact hq.trans (Finset.subset_insert _ _)

/-- **A tombstone is never lost.** -/
theorem tombstones_subset_run (p : PeerSyncProtocol) (acts : List Act) :
    p.state.tombstones ⊆ (p.run acts).state.tombstones := by
  induction acts generalizing p with
  | nil => exact Finset.Subset.refl _
  | cons a acts ih => exact (tombstones_subset_act p a).trans (ih (p.act a))

/-- No `local_put` of a run writes a tombstoned key. -/
def HeedsTombstones (p : PeerSyncProtocol) (acts : List Act) : Prop :=
  ∀ before key value now after, acts = before ++ .localPut key value now :: after →
    key ∉ (p.run before).state.tombstones

theorem Separate.run (h : Separate p.state) (hacts : HeedsTombstones p acts) :
    Separate (p.run acts).state := by
  induction acts generalizing p with
  | nil => exact h
  | cons a acts ih =>
    refine ih (h.act fun key value now ha => ?_) fun before key value now after hafter => ?_
    · exact hacts [] key value now acts (by rw [ha, List.nil_append])
    · exact hacts (a :: before) key value now after (by rw [hafter, List.cons_append])

theorem HeedsTombstones.of_append {acts' : List Act} (h : HeedsTombstones p (acts ++ acts')) :
    HeedsTombstones p acts := by
  intro before key value now after hacts
  refine h before key value now (after ++ acts') ?_
  rw [hacts, List.append_assoc, List.cons_append]

/-- **When deleted keys stay deleted**: `local_put` never writes a tombstoned key. -/
theorem staysDeleted_iff (nodeId : String) (policy : ConflictPolicy) (acts : List Act) :
    StaysDeleted nodeId policy acts ↔ HeedsTombstones (new nodeId policy) acts := by
  constructor
  · rintro ⟨hseparate, -⟩ before key value now after hacts htomb
    -- right after the write the key is live
    refine hseparate (before ++ [.localPut key value now]) after ?_ key ⟨?_, ?_⟩
    · rw [hacts, List.append_assoc, List.singleton_append]
    · rw [run_append]
      exact live_insert_iff.mpr (Or.inl rfl)
    · rw [run_append]
      exact tombstones_subset_run _ _ htomb
  · intro hheeds
    -- a key with a tombstone keeps it, and so is not live later
    have hnew : Separate (new nodeId policy).state := fun key hkey => by cases hkey
    refine ⟨fun before after hacts key h => ?_, fun before mid after hacts key hkey => ?_⟩
    · rw [hacts] at hheeds
      exact hnew.run hheeds.of_append key h.2 h.1
    · rw [hacts] at hheeds
      refine hnew.run hheeds.of_append key ?_
      rw [run_append]
      exact tombstones_subset_run _ mid hkey

/-- **A deleted key comes back** when it is written again at its node. -/
theorem not_forall_staysDeleted :
    ¬ ∀ (nodeId : String) (policy : ConflictPolicy) (acts : List Act),
      StaysDeleted nodeId policy acts := by
  intro h
  have hheeds := (h "node" .lastWriteWins [.localDelete "key" 1, .localPut "key" [7] 2]).1
    [.localDelete "key" 1, .localPut "key" [7] 2] [] rfl "key"
  exact hheeds (by decide +kernel)

end Tombstones

end PeerSyncProtocol

/-! ### Nodes that exchange operations -/

open PeerSyncProtocol in
/-- The states of nodes that write, delete when `deletes` says so, and receive operations of each
other: those that some node has queued for its peers, from whoever forwards them, in any order, any
number of times. -/
inductive Reachable (policy : String → ConflictPolicy) (deletes : Prop) :
    (String → PeerSyncProtocol) → Prop
  | init : Reachable policy deletes fun n => new n (policy n)
  | localPut {nodes : String → PeerSyncProtocol} (h : Reachable policy deletes nodes)
      (n key : String) (value : Bytes) (now : UInt64) :
      Reachable policy deletes (Function.update nodes n ((nodes n).localPut key value now).1)
  | localDelete {nodes : String → PeerSyncProtocol} (h : Reachable policy deletes nodes)
      (hdeletes : deletes) (n key : String) (now : UInt64) :
      Reachable policy deletes (Function.update nodes n ((nodes n).localDelete key now))
  | receive {nodes : String → PeerSyncProtocol} (h : Reachable policy deletes nodes)
      (n source peerId : String) (op : SyncOperation) (now : UInt64)
      (hop : op ∈ (nodes source).pendingOps) :
      Reachable policy deletes
        (Function.update nodes n ((nodes n).applyRemoteOp peerId op now).1)

end Ipfrs.Network
