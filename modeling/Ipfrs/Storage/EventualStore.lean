import Mathlib.Data.Prod.Lex
import Ipfrs.Lib.Knockout
import Ipfrs.Storage.BlockStore
import Ipfrs.Storage.VersionVector

/-!
# The eventually consistent store

`VersionedValue` and `EventualStore` (`ipfrs-storage/src/eventual_consistency.rs`): a block store
that keeps a versioned value for a CID beside an inner store, and resolves two values for one CID by
a strategy.

A replica that receives values through `putVersioned` holds the winner of a knockout
(`lookup_receive`), and whether the order of arrival matters is whether one value beats all the
others. Under `LastWriteWins` and `KeepAll` the latest value does. Under `VectorClock` a value can
lose to one that causally follows it and beat, by its timestamp, a third one that beats the
follower: causal order and timestamps together are no order.

`put_versioned` holds a reference into the map of versions while it inserts into the map. The
`dashmap` crate says of `insert` that it may deadlock then; whether it does is the parameter
`DashMapCrate.insertWhileHeld`, and a call that does not return is `none`.
-/

namespace Ipfrs

inductive ConsistencyLevel where
  | strong
  | eventual
  | quorum (readQuorum writeQuorum : ℕ)
  | one
  deriving DecidableEq, Repr

inductive ConflictResolution where
  | lastWriteWins
  | keepAll
  | vectorClock
  deriving DecidableEq, Repr

structure VersionedValue where
  data : Bytes
  version : VersionVector
  timestamp : UInt64
  writerNodeId : UInt64

/-- Whether `DashMap::insert` returns while the caller holds a reference to the entry it
replaces. -/
class DashMapCrate where
  insertWhileHeld : Bool

structure EventualStore (S : Type) where
  inner : S
  consistencyLevel : ConsistencyLevel
  conflictResolution : ConflictResolution
  nodeId : UInt64
  versions : AList fun _ : Cid => VersionedValue

namespace VersionedValue

/-- `VersionedValue::new`, at the time `now`. The vector is the increment of an empty one
(`VersionVector.increment_new`). -/
def new (data : Bytes) (nodeId now : UInt64) : VersionedValue where
  data := data
  version := ⟨VersionVector.new.versions.insert nodeId 1⟩
  timestamp := now
  writerNodeId := nodeId

def isNewerThan (self other : VersionedValue) : Bool :=
  if self.timestamp ≠ other.timestamp then self.timestamp > other.timestamp
  -- ties are broken by the writer
  else self.writerNodeId > other.writerNodeId

/-- What `is_newer_than` compares. -/
def stamp (v : VersionedValue) : ℕ ×ₗ ℕ := toLex (v.timestamp.toNat, v.writerNodeId.toNat)

end VersionedValue

namespace EventualStore

variable {S : Type}

def new (inner : S) (consistencyLevel : ConsistencyLevel)
    (conflictResolution : ConflictResolution) (nodeId : UInt64) : EventualStore S where
  inner := inner
  consistencyLevel := consistencyLevel
  conflictResolution := conflictResolution
  nodeId := nodeId
  versions := ∅

def resolveConflict (strategy : ConflictResolution) (v₁ v₂ : VersionedValue) : VersionedValue :=
  match strategy with
  | .lastWriteWins => if v₁.isNewerThan v₂ then v₁ else v₂
  | .vectorClock =>
    if v₁.version.happensBefore v₂.version then v₂
    else if v₂.version.happensBefore v₁.version then v₁
    -- concurrent: last write wins
    else if v₁.isNewerThan v₂ then v₁ else v₂
  | .keepAll => if v₁.isNewerThan v₂ then v₁ else v₂

section Operations

variable [HashCrate] [BlockStore S]

variable (s : EventualStore S)

/-- Both branches of `put_versioned` end so: the value is recorded, and its data goes to the inner
store as a block of its own. An error comes after the value has been recorded. -/
def record (cid : Cid) (value : VersionedValue) : EventualStore S × Except Error Unit :=
  let s := { s with versions := s.versions.insert cid value }
  match Block.new value.data with
  | .error e => (s, .error e)
  | .ok block =>
    match BlockStore.put s.inner block with
    | .error e => (s, .error e)
    | .ok inner => ({ s with inner := inner }, .ok ())

/-- `EventualStore::put_versioned`; `none` when it does not return. -/
def putVersioned [DashMapCrate] (s : EventualStore S) (cid : Cid) (value : VersionedValue) :
    Option (EventualStore S × Except Error Unit) :=
  match s.versions.lookup cid with
  | some existing =>
    -- `existing` is a reference into the map, and is held until the end of the branch
    if DashMapCrate.insertWhileHeld then
      some (s.record cid (resolveConflict s.conflictResolution existing value))
    else none
  | none => some (s.record cid value)

/-- `EventualStore::get_versioned`, which does the same at every consistency level. -/
def getVersioned (cid : Cid) (now : UInt64) :
    EventualStore S × Except Error (Option VersionedValue) :=
  match s.versions.lookup cid with
  | some value => (s, .ok (some value))
  | none =>
    match BlockStore.get s.inner cid with
    | .error e => (s, .error e)
    | .ok none => (s, .ok none)
    | .ok (some block) =>
      let value := VersionedValue.new block.data s.nodeId now
      ({ s with versions := s.versions.insert cid value }, .ok (some value))

/-- `BlockStore::get`. -/
def get (cid : Cid) (now : UInt64) : EventualStore S × Except Error (Option Block) :=
  match s.getVersioned cid now with
  | (s, .error e) => (s, .error e)
  | (s, .ok none) => (s, .ok none)
  | (s, .ok (some versioned)) => (s, (Block.new versioned.data).map some)

/-- `BlockStore::put`. -/
def put [DashMapCrate] (s : EventualStore S) (block : Block) (now : UInt64) :
    Option (EventualStore S × Except Error Unit) :=
  s.putVersioned block.cid (VersionedValue.new block.data s.nodeId now)

/-- `BlockStore::delete`. -/
def delete (cid : Cid) : EventualStore S × Except Error Unit :=
  let s := { s with versions := s.versions.erase cid }
  match BlockStore.delete s.inner cid with
  | .error e => (s, .error e)
  | .ok inner => ({ s with inner := inner }, .ok ())

/-- The values of a list received one after the other, whatever the calls answer; `none` when one of
the calls does not return. -/
def receive [DashMapCrate] (s : EventualStore S) (cid : Cid) :
    List VersionedValue → Option (EventualStore S)
  | [] => some s
  | value :: values =>
    match s.putVersioned cid value with
    | none => none
    | some (s, _) => s.receive cid values

end Operations

/-! ### What wins a conflict -/

section Conflict

open Knockout

variable {strategy : ConflictResolution} {v w : VersionedValue} {values : List VersionedValue}

theorem isNewerThan_iff : w.isNewerThan v = true ↔ v.stamp < w.stamp := by
  rw [VersionedValue.stamp, VersionedValue.stamp, Prod.Lex.toLex_lt_toLex,
    VersionedValue.isNewerThan, UInt64.toNat_inj]
  by_cases heq : w.timestamp = v.timestamp
  · rw [if_neg (not_not.mpr heq), decide_eq_true_iff, heq]
    exact ⟨fun h => Or.inr ⟨rfl, h⟩,
      fun h => h.elim (fun h => absurd h (Nat.lt_irrefl _)) And.right⟩
  · rw [if_pos heq, decide_eq_true_iff]
    exact ⟨fun h => Or.inl h, fun h => h.elim id fun h => absurd h.1.symm heq⟩

theorem isNewerThan_eq_false_iff (hne : w.stamp ≠ v.stamp) :
    v.isNewerThan w = false ↔ w.isNewerThan v = true := by
  rw [← Bool.not_eq_true, isNewerThan_iff, isNewerThan_iff]
  exact ⟨fun h => lt_of_le_of_ne (not_lt.mp h) (Ne.symm hne), fun h => not_lt.mpr h.le⟩

theorem selective_resolveConflict (strategy : ConflictResolution) :
    Selective (resolveConflict strategy) := by
  intro v₁ v₂
  unfold resolveConflict
  cases strategy with
  | lastWriteWins => exact ite_eq_or_eq ..
  | keepAll => exact ite_eq_or_eq ..
  | vectorClock =>
    dsimp only
    split
    · exact Or.inr rfl
    · split
      · exact Or.inl rfl
      · exact ite_eq_or_eq ..

/-- **What it takes for `w` to win against `v`**: to be newer, or under `VectorClock` to follow `v`
causally, or to be concurrent with it and newer. -/
def Wins (strategy : ConflictResolution) (w v : VersionedValue) : Prop :=
  match strategy with
  | .lastWriteWins => w.isNewerThan v = true
  | .keepAll => w.isNewerThan v = true
  | .vectorClock => v.version.happensBefore w.version = true ∨
      w.version.happensBefore v.version = false ∧ w.isNewerThan v = true

instance : Decidable (Wins strategy w v) := by
  cases strategy <;> unfold Wins <;> infer_instance

theorem beats_newer_iff (hne : w.stamp ≠ v.stamp) :
    Beats (fun v₁ v₂ => if VersionedValue.isNewerThan v₁ v₂ then v₁ else v₂) w v ↔
      w.isNewerThan v = true := by
  have hvalue : v ≠ w := fun h => hne (by rw [h])
  constructor
  · intro h
    by_contra hold
    have hstay : (if w.isNewerThan v = true then w else v) = w := h.1
    rw [if_neg hold] at hstay
    exact hvalue hstay
  · intro hnew
    have hold : ¬ v.isNewerThan w = true := by
      rw [Bool.not_eq_true, isNewerThan_eq_false_iff hne]
      exact hnew
    exact ⟨if_pos hnew, if_neg hold⟩

theorem beats_vectorClock_iff (hne : w.stamp ≠ v.stamp) :
    Beats (resolveConflict .vectorClock) w v ↔ Wins .vectorClock w v := by
  have hvalue : v ≠ w := fun h => hne (by rw [h])
  unfold Wins Beats resolveConflict
  dsimp only
  by_cases hwv : w.version.happensBefore v.version = true
  · -- `v` follows `w`
    have hvw : ¬ v.version.happensBefore w.version = true := by
      intro hvw
      exact VersionVector.not_happensBefore_self _ (VersionVector.happensBefore_trans hwv hvw)
    rw [if_pos hwv]
    simp [hwv, hvw, hvalue]
  · by_cases hvw : v.version.happensBefore w.version = true
    · rw [if_neg hwv, if_pos hvw, if_pos hvw]
      simp [hvw]
    · -- concurrent
      rw [if_neg hwv, if_neg hvw, if_neg hvw, if_neg hwv]
      have hnewer := beats_newer_iff hne
      unfold Beats at hnewer
      rw [hnewer]
      simp [hvw, hwv]

/-- A value beats another in the knockout when it wins against it. -/
theorem beats_iff_wins (hne : w.stamp ≠ v.stamp) :
    Beats (resolveConflict strategy) w v ↔ Wins strategy w v := by
  cases strategy with
  | lastWriteWins => exact beats_newer_iff hne
  | keepAll => exact beats_newer_iff hne
  | vectorClock => exact beats_vectorClock_iff hne

/-- The values have different timestamps, or different writers. -/
def Stamped (values : List VersionedValue) : Prop :=
  values.Pairwise fun v w => v.stamp ≠ w.stamp

theorem Stamped.nodup (h : Stamped values) : values.Nodup :=
  h.imp fun hne heq => hne (by rw [heq])

theorem Stamped.ne (h : Stamped values) (hv : v ∈ values) (hw : w ∈ values) (hne : v ≠ w) :
    w.stamp ≠ v.stamp := by
  have : Std.Symm fun v w : VersionedValue => v.stamp ≠ w.stamp := ⟨fun _ _ hne => Ne.symm hne⟩
  exact h.forall hw hv (Ne.symm hne)

/-- Under `LastWriteWins` and `KeepAll` the latest value wins against every other. -/
theorem exists_wins (hstrategy : strategy ≠ .vectorClock) (hstamped : Stamped values)
    (hne : values ≠ []) : ∃ w ∈ values, ∀ v ∈ values, v ≠ w → Wins strategy w v := by
  -- the stamps decide, and no two values share one
  have hinj : ∀ a ∈ values, ∀ b ∈ values, a.stamp = b.stamp → a = b := by
    intro a ha b hb heq
    by_contra hab
    exact hstamped.ne ha hb hab heq.symm
  have hbeats : ∀ a b : VersionedValue, b.stamp < a.stamp →
      Beats (resolveConflict strategy) a b := by
    intro a b hlt
    rw [beats_iff_wins (ne_of_gt hlt)]
    cases strategy with
    | lastWriteWins => exact isNewerThan_iff.mpr hlt
    | keepAll => exact isNewerThan_iff.mpr hlt
    | vectorClock => exact absurd rfl hstrategy
  obtain ⟨w, hw, hall⟩ := exists_beats_of_key VersionedValue.stamp hinj hbeats hne
  exact ⟨w, hw, fun v hv hvw => (beats_iff_wins (hstamped.ne hv hw hvw)).mp (hall v hv hvw)⟩

/-- A value that wins against every other, as the knockout has it. -/
theorem exists_beats_iff_exists_wins (hstamped : Stamped values) :
    (∃ w ∈ values, ∀ v ∈ values, v ≠ w → Beats (resolveConflict strategy) w v) ↔
      ∃ w ∈ values, ∀ v ∈ values, v ≠ w → Wins strategy w v := by
  refine exists_congr fun w => and_congr_right fun hw => ?_
  refine forall_congr' fun v => forall_congr' fun hv => forall_congr' fun hne => ?_
  exact beats_iff_wins (hstamped.ne hv hw hne)

end Conflict

/-! ### Replicas -/

section Replicas

open Knockout

variable [HashCrate] [BlockStore S] [DashMapCrate] {s s' : EventualStore S} {cid : Cid}
  {value : VersionedValue} {values : List VersionedValue}

omit [DashMapCrate] in
@[simp] theorem record_versions (s : EventualStore S) (cid : Cid) (value : VersionedValue) :
    (s.record cid value).1.versions = s.versions.insert cid value := by
  unfold record
  dsimp only
  split
  · rfl
  · split <;> rfl

omit [DashMapCrate] in
@[simp] theorem record_conflictResolution (s : EventualStore S) (cid : Cid)
    (value : VersionedValue) :
    (s.record cid value).1.conflictResolution = s.conflictResolution := by
  unfold record
  dsimp only
  split
  · rfl
  · split <;> rfl

theorem putVersioned_eq (h : s.versions.lookup cid = none ∨ DashMapCrate.insertWhileHeld = true) :
    s.putVersioned cid value =
      some (s.record cid (absorb (resolveConflict s.conflictResolution)
        (s.versions.lookup cid) value)) := by
  rw [putVersioned]
  cases hlookup : s.versions.lookup cid with
  | none => rfl
  | some existing =>
    rw [hlookup] at h
    exact if_pos (h.resolve_left (by simp))

/-- A call for a CID that has a value does not return when the insertion does not. -/
theorem putVersioned_eq_none {existing : VersionedValue}
    (hlookup : s.versions.lookup cid = some existing)
    (hheld : DashMapCrate.insertWhileHeld = false) : s.putVersioned cid value = none := by
  rw [putVersioned, hlookup, hheld]
  rfl

/-- **What a replica holds** when every call returns: the winner of the knockout. -/
theorem lookup_receive (hheld : DashMapCrate.insertWhileHeld = true) (s : EventualStore S)
    (cid : Cid) (values : List VersionedValue) :
    ∃ s', s.receive cid values = some s' ∧
      s'.versions.lookup cid =
        knockout (resolveConflict s.conflictResolution) (s.versions.lookup cid) values := by
  induction values generalizing s with
  | nil => exact ⟨s, rfl, rfl⟩
  | cons value values ih =>
    obtain ⟨s', hs', hlookup⟩ := ih (s.record cid (absorb (resolveConflict s.conflictResolution)
      (s.versions.lookup cid) value)).1
    refine ⟨s', ?_, ?_⟩
    · rw [receive, putVersioned_eq (Or.inr hheld)]
      exact hs'
    · rw [hlookup, record_conflictResolution, record_versions, AList.lookup_insert, knockout_cons]

/-- The first value arrives even when the insertion over a value that is held does not return. -/
theorem receive_singleton (hfresh : s.versions.lookup cid = none) (value : VersionedValue) :
    ∃ s', s.receive cid [value] = some s' ∧ s'.versions.lookup cid = some value := by
  refine ⟨(s.record cid value).1, ?_, ?_⟩
  · rw [receive, putVersioned_eq (Or.inl hfresh), hfresh]
    rfl
  · rw [record_versions, AList.lookup_insert]

theorem receive_eq_none (hheld : DashMapCrate.insertWhileHeld = false)
    (hfresh : s.versions.lookup cid = none) (hlength : 2 ≤ values.length) :
    s.receive cid values = none := by
  cases values with
  | nil => exact absurd hlength (by simp)
  | cons v values =>
    cases values with
    | nil => exact absurd hlength (by simp)
    | cons w values =>
      rw [receive, putVersioned_eq (Or.inl hfresh), hfresh]
      dsimp only [absorb]
      have hlookup : (s.record cid v).1.versions.lookup cid = some v := by
        rw [record_versions, AList.lookup_insert]
      rw [receive, putVersioned_eq_none hlookup hheld]

/-- **Convergence**: two replicas of any kind that have no value for a CID, and receive the values
in any two orders, hold the same value for it in the end. -/
def Converges (strategy : ConflictResolution) (values : List VersionedValue) : Prop :=
  ∀ (S₁ S₂ : Type) [BlockStore S₁] [BlockStore S₂] (s₁ : EventualStore S₁) (s₂ : EventualStore S₂)
    (cid : Cid) (l₁ l₂ : List VersionedValue),
    s₁.conflictResolution = strategy → s₂.conflictResolution = strategy →
    s₁.versions.lookup cid = none → s₂.versions.lookup cid = none →
    l₁.Perm values → l₂.Perm values →
      ∃ t₁ t₂, s₁.receive cid l₁ = some t₁ ∧ s₂.receive cid l₂ = some t₂ ∧
        t₁.versions.lookup cid = t₂.versions.lookup cid

variable {strategy : ConflictResolution}

/-- A replica without any value. -/
def emptyReplica (strategy : ConflictResolution) : EventualStore MemoryBlockStore :=
  new MemoryBlockStore.new .eventual strategy 0

/-- When every call returns, replicas converge when the knockout has the same winner in any
order. -/
theorem converges_iff_orderIndependent (hheld : DashMapCrate.insertWhileHeld = true) :
    Converges strategy values ↔ ∀ l₁ l₂, l₁.Perm values → l₂.Perm values →
      knockout (resolveConflict strategy) none l₁ =
        knockout (resolveConflict strategy) none l₂ := by
  constructor
  · -- two empty replicas over a memory store
    intro h l₁ l₂ h₁ h₂
    let cid := Cid.ofData Codec.raw .sha256 []
    obtain ⟨t₁, t₂, ht₁, ht₂, hsame⟩ := h MemoryBlockStore MemoryBlockStore (emptyReplica strategy)
      (emptyReplica strategy) cid l₁ l₂ rfl rfl rfl rfl h₁ h₂
    obtain ⟨t₁', ht₁', hlookup₁⟩ := lookup_receive hheld (emptyReplica strategy) cid l₁
    obtain ⟨t₂', ht₂', hlookup₂⟩ := lookup_receive hheld (emptyReplica strategy) cid l₂
    obtain rfl : t₁ = t₁' := Option.some.inj (ht₁.symm.trans ht₁')
    obtain rfl : t₂ = t₂' := Option.some.inj (ht₂.symm.trans ht₂')
    calc knockout (resolveConflict strategy) none l₁ = t₁.versions.lookup cid := hlookup₁.symm
      _ = t₂.versions.lookup cid := hsame
      _ = knockout (resolveConflict strategy) none l₂ := hlookup₂
  · intro h S₁ S₂ _ _ s₁ s₂ cid l₁ l₂ hs₁ hs₂ hfresh₁ hfresh₂ h₁ h₂
    obtain ⟨t₁, ht₁, hlookup₁⟩ := lookup_receive hheld s₁ cid l₁
    obtain ⟨t₂, ht₂, hlookup₂⟩ := lookup_receive hheld s₂ cid l₂
    refine ⟨t₁, t₂, ht₁, ht₂, ?_⟩
    rw [hlookup₁, hlookup₂, hs₁, hs₂, hfresh₁, hfresh₂]
    exact h l₁ l₂ h₁ h₂

theorem converges_of_length_le_one (h : values.length ≤ 1) : Converges strategy values := by
  intro S₁ S₂ _ _ s₁ s₂ cid l₁ l₂ _ _ hfresh₁ hfresh₂ h₁ h₂
  match values, h with
  | [], _ =>
    obtain rfl := h₁.eq_nil
    obtain rfl := h₂.eq_nil
    exact ⟨s₁, s₂, rfl, rfl, hfresh₁.trans hfresh₂.symm⟩
  | [value], _ =>
    obtain rfl := List.perm_singleton.mp h₁
    obtain rfl := List.perm_singleton.mp h₂
    obtain ⟨t₁, ht₁, hlookup₁⟩ := receive_singleton hfresh₁ value
    obtain ⟨t₂, ht₂, hlookup₂⟩ := receive_singleton hfresh₂ value
    exact ⟨t₁, t₂, ht₁, ht₂, hlookup₁.trans hlookup₂.symm⟩

/-- Two values never arrive when the insertion over a value that is held does not return. -/
theorem not_converges_of_not_insertWhileHeld (hheld : DashMapCrate.insertWhileHeld = false)
    (hlength : 2 ≤ values.length) : ¬ Converges strategy values := by
  intro h
  obtain ⟨t, -, ht, -⟩ := h MemoryBlockStore MemoryBlockStore (emptyReplica strategy)
    (emptyReplica strategy) (Cid.ofData Codec.raw .sha256 []) values values rfl rfl rfl rfl
    (List.Perm.refl _) (List.Perm.refl _)
  rw [receive_eq_none hheld rfl hlength] at ht
  exact absurd ht (by simp)

/-- **When replicas converge**: there is nothing to resolve, or insertions return and, under
`VectorClock`, some value wins against every other. -/
theorem converges_iff (hstamped : Stamped values) :
    Converges strategy values ↔ values.length ≤ 1 ∨ DashMapCrate.insertWhileHeld = true ∧
      (strategy = .vectorClock → ∃ w ∈ values, ∀ v ∈ values, v ≠ w → Wins .vectorClock w v) := by
  by_cases hlength : values.length ≤ 1
  · exact ⟨fun _ => Or.inl hlength, fun _ => converges_of_length_le_one hlength⟩
  have hne : values ≠ [] := by
    rintro rfl
    exact hlength (Nat.zero_le 1)
  rw [or_iff_right hlength]
  -- there are two values to resolve, so a call finds one of them recorded
  cases hheld : DashMapCrate.insertWhileHeld with
  | false =>
    refine ⟨fun h => ?_, fun h => absurd h.1 Bool.false_ne_true⟩
    exact absurd h (not_converges_of_not_insertWhileHeld hheld (Nat.lt_of_not_le hlength))
  | true =>
    rw [converges_iff_orderIndependent hheld,
      orderIndependent_iff (selective_resolveConflict strategy) hstamped.nodup, or_iff_right hne,
      exists_beats_iff_exists_wins hstamped]
    constructor
    · rintro hwins
      refine ⟨rfl, ?_⟩
      rintro rfl
      exact hwins
    · rintro ⟨-, hwins⟩
      by_cases hstrategy : strategy = .vectorClock
      · subst hstrategy
        exact hwins rfl
      · exact exists_wins hstrategy hstamped hne

end Replicas

/-! ### Three values that beat each other in a circle -/

section Circle

open Knockout

/-- A value that causally precedes `follower`, but has a later timestamp. -/
def leader : VersionedValue := ⟨[0], ⟨(∅ : AList fun _ : UInt64 => ℕ).insert 1 1⟩, 3, 1⟩

def follower : VersionedValue := ⟨[1], ⟨(∅ : AList fun _ : UInt64 => ℕ).insert 1 2⟩, 1, 1⟩

/-- A value concurrent with both, with a timestamp between theirs. -/
def bystander : VersionedValue := ⟨[2], ⟨(∅ : AList fun _ : UInt64 => ℕ).insert 2 1⟩, 2, 2⟩

theorem stamped_circle : Stamped [leader, follower, bystander] := by
  unfold Stamped
  decide

/-- The three values, and the condition on them, when insertions return. -/
theorem converges_iff_circle :
    let _ := CidReference.byteHash
    let _ : DashMapCrate := ⟨true⟩
    Converges .vectorClock [leader, follower, bystander] ↔
      [leader, follower, bystander].length ≤ 1 ∨ true = true ∧
        (ConflictResolution.vectorClock = .vectorClock →
          ∃ w ∈ [leader, follower, bystander], ∀ v ∈ [leader, follower, bystander], v ≠ w →
            Wins .vectorClock w v) :=
  let _ := CidReference.byteHash
  let _ : DashMapCrate := ⟨true⟩
  converges_iff stamped_circle

/-- Two values do not converge when the second call does not return, and three values do not when it
does. -/
theorem not_forall_converges :
    (let _ := CidReference.byteHash
    let _ : DashMapCrate := ⟨false⟩
    ¬ ∀ strategy values, Stamped values → Converges strategy values) ∧
    (let _ := CidReference.byteHash
    let _ : DashMapCrate := ⟨true⟩
    ¬ ∀ strategy values, Stamped values → Converges strategy values) := by
  constructor
  · intro _ _ h
    refine not_converges_of_not_insertWhileHeld rfl ?_ (h .lastWriteWins _ stamped_circle)
    decide
  · intro _ _ h
    have horder := (converges_iff_orderIndependent rfl).mp (h .vectorClock _ stamped_circle)
    -- the follower is left after one order, the leader after another
    have hsame := horder [leader, bystander, follower] [follower, bystander, leader]
      ((List.Perm.swap ..).cons _) (List.perm_append_singleton leader [follower, bystander])
    have hfollower : knockout (resolveConflict .vectorClock) none
        [leader, bystander, follower] = some follower := rfl
    have hleader : knockout (resolveConflict .vectorClock) none
        [follower, bystander, leader] = some leader := rfl
    rw [hfollower, hleader] at hsame
    have hdata := congrArg (Option.map VersionedValue.data) hsame
    exact absurd hdata (by decide)

end Circle

end EventualStore

end Ipfrs
