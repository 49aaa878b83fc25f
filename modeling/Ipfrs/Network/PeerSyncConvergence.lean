import Mathlib.Data.List.Rotate
import Ipfrs.Lib.Knockout
import Ipfrs.Network.PeerSync

/-!
# Convergence of the peer sync protocol

Two nodes with the policy `LastWriteWins` that receive the same puts and deletes in different
orders.

For one key a node holds the winner of a knockout among the puts it has received (`lookup_receive`),
unless a delete has come for the key. Whether the order matters is whether one put prevails over
every other (`peersConverge_iff`): it follows the other causally, or it is concurrent with it and
later. Causal order and timestamps together are no order: a put can precede another one causally,
have a later timestamp, and be concurrent with a third one whose timestamp is in between
(`not_forall_peersConverge`).
-/

namespace Ipfrs.Network

open Knockout

/-- The timestamp of a put. -/
def SyncOperation.timestamp? : SyncOperation → Option UInt64
  | .put entry => some entry.timestamp
  | _ => none

/-- The entry that an operation puts for a key. -/
def SyncOperation.put? (key : String) : SyncOperation → Option SyncEntry
  | .put entry => if entry.key = key then some entry else none
  | _ => none

/-- The key that an operation deletes. -/
def SyncOperation.delete? : SyncOperation → Option String
  | .delete key _ => some key
  | _ => none

/-- The operation is a put or a delete. -/
def SyncOperation.IsWrite : SyncOperation → Prop
  | .merge _ => False
  | _ => True

/-- An operation, with what is given to `apply_remote_op` beside it. -/
structure Delivery where
  peerId : String
  op : SyncOperation
  now : UInt64

namespace SyncEntry

/-- What `apply_put` holds of two entries for a key under `LastWriteWins`. -/
def later (existing incoming : SyncEntry) : SyncEntry :=
  if existing.clock.eq incoming.clock then existing
  else if incoming.clock.happensBefore existing.clock then existing
  else if existing.clock.happensBefore incoming.clock then incoming
  else if existing.timestamp > incoming.timestamp then existing
  else incoming

/-- **What it takes for `w` to prevail over `v`**: another clock, and to follow `v` causally or to
be concurrent with it and later. -/
def PrevailsOver (w v : SyncEntry) : Prop :=
  w.clock.eq v.clock = false ∧ (v.clock.happensBefore w.clock = true ∨
    v.clock.concurrentWith w.clock = true ∧ v.timestamp < w.timestamp)

instance (w v : SyncEntry) : Decidable (w.PrevailsOver v) :=
  inferInstanceAs (Decidable (_ ∧ (_ ∨ _)))

variable {v w : SyncEntry}

theorem selective_later : Selective later := by
  intro existing incoming
  rw [later]
  split
  · exact Or.inl rfl
  split
  · exact Or.inl rfl
  split
  · exact Or.inr rfl
  exact ite_eq_or_eq ..

theorem concurrentWith_iff {a b : VectorClock} :
    a.concurrentWith b = true ↔
      ¬ a.happensBefore b = true ∧ ¬ b.happensBefore a = true := by
  rw [VectorClock.concurrentWith, Bool.and_eq_true, Bool.not_eq_true', Bool.not_eq_true',
    Bool.not_eq_true, Bool.not_eq_true]

/-- The one that prevails is the one that beats the other, whichever of them is held. -/
theorem beats_iff_prevailsOver (hne : w.timestamp ≠ v.timestamp) :
    Beats later w v ↔ w.PrevailsOver v := by
  have hentry : v ≠ w := fun h => hne (by rw [h])
  unfold Beats PrevailsOver later
  rw [concurrentWith_iff]
  by_cases heq : w.clock.eq v.clock = true
  · -- the one that is held stays
    rw [if_pos (VectorClock.eq_comm.mp heq), heq]
    exact iff_of_false (fun h => hentry h.2) fun h => Bool.false_ne_true h.1.symm
  have heq' : ¬ v.clock.eq w.clock = true := mt VectorClock.eq_comm.mp heq
  rw [if_neg heq, if_neg heq', and_iff_right (eq_false_of_ne_true heq)]
  by_cases hvw : v.clock.happensBefore w.clock = true
  · have hwv := VectorClock.happensBefore_asymm hvw
    rw [if_pos hvw, if_neg hwv, if_pos hvw]
    exact iff_of_true ⟨rfl, rfl⟩ (Or.inl hvw)
  rw [if_neg hvw, if_neg hvw, or_iff_right hvw, and_iff_right hvw]
  by_cases hwv : w.clock.happensBefore v.clock = true
  · rw [if_pos hwv]
    exact iff_of_false (fun h => hentry h.1) fun h => h.1 hwv
  · -- concurrent: the timestamps decide
    rw [if_neg hwv, if_neg hwv, and_iff_right hwv]
    by_cases hlt : v.timestamp < w.timestamp
    · have hstays : (if w.timestamp > v.timestamp then w else v) = w := if_pos hlt
      have hgoes : (if v.timestamp > w.timestamp then v else w) = w :=
        if_neg (UInt64.lt_asymm hlt)
      exact iff_of_true ⟨hstays, hgoes⟩ hlt
    · have hgoes : (if w.timestamp > v.timestamp then w else v) = v := if_neg hlt
      refine iff_of_false (fun h => hentry ?_) hlt
      exact hgoes.symm.trans h.1

end SyncEntry

namespace PeerSyncProtocol

variable {p : PeerSyncProtocol} {op : SyncOperation} {ops : List SyncOperation}
  {d : Delivery} {ds : List Delivery} {key : String}

/-- The node after the deliveries of a list, whatever the calls answer. -/
def receive (p : PeerSyncProtocol) (ds : List Delivery) : PeerSyncProtocol :=
  ds.foldl (fun p d => (p.applyRemoteOp d.peerId d.op d.now).1) p

/-- **Convergence**: two new nodes that receive the operations in any two orders end with the same
live entries and the same tombstones. -/
def Converges (ops : List SyncOperation) : Prop :=
  ∀ (nodeId₁ nodeId₂ : String) (ds₁ ds₂ : List Delivery),
    (ds₁.map Delivery.op).Perm ops → (ds₂.map Delivery.op).Perm ops →
      let s₁ := ((new nodeId₁ .lastWriteWins).receive ds₁).state
      let s₂ := ((new nodeId₂ .lastWriteWins).receive ds₂).state
      (∀ key, s₁.entries.lookup key = s₂.entries.lookup key) ∧ s₁.tombstones = s₂.tombstones

/-- The puts for a key. -/
def putsFor (key : String) (ops : List SyncOperation) : List SyncEntry :=
  ops.filterMap (SyncOperation.put? key)

/-- Some operation deletes the key. -/
def DeletedBy (ops : List SyncOperation) (key : String) : Prop :=
  ∃ op ∈ ops, op.delete? = some key

/-! ### What a node holds -/

theorem lookup_store (p : PeerSyncProtocol) (k : String) (entry : SyncEntry) (key : String) :
    (p.store k entry).state.entries.lookup key =
      if key = k then some entry else p.state.entries.lookup key := by
  by_cases hk : key = k
  · subst hk
    rw [if_pos rfl]
    exact AList.lookup_insert _
  · rw [if_neg hk]
    exact AList.lookup_insert_ne hk

variable {entry : SyncEntry}

/-- **A put under `LastWriteWins`**, for a key without a tombstone. -/
theorem lookup_applyPut (hpolicy : p.conflictPolicy = .lastWriteWins)
    (hkey : entry.key ∉ p.state.tombstones) (key : String) :
    (p.applyPut entry).1.state.entries.lookup key =
      if key = entry.key then
        some (absorb SyncEntry.later (p.state.entries.lookup entry.key) entry)
      else p.state.entries.lookup key := by
  rw [applyPut, if_neg hkey]
  cases hlookup : p.state.entries.lookup entry.key with
  | none => exact lookup_store p entry.key entry key
  | some existing =>
    -- what is held stays, and this is what `later` says of it
    have hsame : p.state.entries.lookup key =
        if key = entry.key then some existing else p.state.entries.lookup key := by
      by_cases hk : key = entry.key
      · rw [if_pos hk, hk, hlookup]
      · rw [if_neg hk]
    dsimp only [absorb]
    rw [SyncEntry.later]
    split
    · exact hsame
    split
    · exact hsame
    split
    · exact lookup_store p entry.key entry key
    · rw [hpolicy, ConflictPolicy.resolveConflictInner]
      by_cases hold : existing.timestamp > entry.timestamp
      · rw [if_pos hold, if_pos hold]
        exact lookup_store p entry.key existing key
      · rw [if_neg hold, if_neg hold]
        exact lookup_store p entry.key entry key

theorem tombstones_applyRemoteOp (hop : op.IsWrite) (peerId : String) (now : UInt64) :
    key ∈ (p.applyRemoteOp peerId op now).1.state.tombstones ↔
      key ∈ p.state.tombstones ∨ op.delete? = some key := by
  cases op with
  | put entry =>
    rw [applyRemoteOp, tombstones_applyPut]
    exact (or_iff_left (by simp [SyncOperation.delete?])).symm
  | delete k clock =>
    rw [SyncOperation.delete?, Option.some_inj, or_comm, eq_comm]
    exact Finset.mem_insert
  | merge entries => exact hop.elim

theorem conflictPolicy_applyRemoteOp (hop : op.IsWrite) (peerId : String) (now : UInt64) :
    (p.applyRemoteOp peerId op now).1.conflictPolicy = p.conflictPolicy := by
  cases op with
  | put entry => exact conflictPolicy_applyPut _ entry
  | delete k clock => rfl
  | merge entries => exact hop.elim

/-- The entry for a key that is not deleted, after an operation. -/
theorem lookup_applyRemoteOp (hop : op.IsWrite) (hpolicy : p.conflictPolicy = .lastWriteWins)
    (hlive : key ∉ p.state.tombstones) (hdelete : op.delete? ≠ some key) (peerId : String)
    (now : UInt64) :
    (p.applyRemoteOp peerId op now).1.state.entries.lookup key =
      knockout SyncEntry.later (p.state.entries.lookup key) (op.put? key).toList := by
  cases op with
  | put entry =>
    let q : PeerSyncProtocol := { p with syncLog := p.syncLog ++ [(peerId, .put entry, now)] }
    rw [SyncOperation.put?]
    -- a put for another key makes no difference, whether it is refused or not
    by_cases hk : entry.key = key
    · subst hk
      rw [if_pos rfl]
      exact (lookup_applyPut (p := q) hpolicy hlive entry.key).trans (if_pos rfl)
    · rw [if_neg hk, applyRemoteOp]
      by_cases htomb : entry.key ∈ p.state.tombstones
      · rw [applyPut, if_pos htomb]
        rfl
      · exact (lookup_applyPut (p := q) hpolicy htomb key).trans (if_neg (Ne.symm hk))
  | delete k clock =>
    have hk : key ≠ k := fun h => hdelete (by rw [h]; rfl)
    exact AList.lookup_erase_ne hk
  | merge entries => exact hop.elim

theorem tombstones_receive (hwrites : ∀ d ∈ ds, d.op.IsWrite) :
    key ∈ (p.receive ds).state.tombstones ↔
      key ∈ p.state.tombstones ∨ DeletedBy (ds.map Delivery.op) key := by
  induction ds generalizing p with
  | nil => exact (or_iff_left fun ⟨_, h, _⟩ => List.not_mem_nil h).symm
  | cons d ds ih =>
    obtain ⟨hd, hds⟩ := List.forall_mem_cons.mp hwrites
    have hstep : p.receive (d :: ds) = ((p.applyRemoteOp d.peerId d.op d.now).1).receive ds := rfl
    rw [hstep, ih hds, tombstones_applyRemoteOp hd, or_assoc, DeletedBy, DeletedBy, List.map_cons,
      List.exists_mem_cons_iff]

/-- **What a node holds** for a key that no operation deletes: the winner of the knockout. -/
theorem lookup_receive (hwrites : ∀ d ∈ ds, d.op.IsWrite)
    (hpolicy : p.conflictPolicy = .lastWriteWins)
    (hlive : key ∉ (p.receive ds).state.tombstones) :
    (p.receive ds).state.entries.lookup key =
      knockout SyncEntry.later (p.state.entries.lookup key) (putsFor key (ds.map Delivery.op)) := by
  induction ds generalizing p with
  | nil => rfl
  | cons d ds ih =>
    obtain ⟨hd, hds⟩ := List.forall_mem_cons.mp hwrites
    have hstep : p.receive (d :: ds) = ((p.applyRemoteOp d.peerId d.op d.now).1).receive ds := rfl
    have hafter := hlive
    rw [tombstones_receive hwrites, not_or] at hafter
    -- the key has no tombstone in the end, so it has none before and no operation deletes it
    obtain ⟨hbefore, hdeleted⟩ := hafter
    have hdelete : d.op.delete? ≠ some key := fun h => hdeleted ⟨d.op, List.mem_cons_self, h⟩
    rw [hstep] at hlive ⊢
    rw [ih hds ((conflictPolicy_applyRemoteOp hd _ _).trans hpolicy) hlive,
      lookup_applyRemoteOp hd hpolicy hbefore hdelete, ← knockout_append, putsFor, putsFor,
      List.map_cons, List.filterMap_cons]
    cases d.op.put? key with
    | none => rfl
    | some entry => rfl

theorem lookup_receive_of_tombstone (hseparate : Separate p.state)
    (htomb : key ∈ (p.receive ds).state.tombstones) :
    (p.receive ds).state.entries.lookup key = none := by
  have hrun : p.receive ds = p.run (ds.map fun d => .applyRemoteOp d.peerId d.op d.now) := by
    rw [run, List.foldl_map]
    rfl
  have hheeds : HeedsTombstones p (ds.map fun d => .applyRemoteOp d.peerId d.op d.now) := by
    intro before k value now after hacts
    -- a run of deliveries has no `local_put`
    have hmem : Act.localPut k value now ∈ ds.map fun d => .applyRemoteOp d.peerId d.op d.now := by
      rw [hacts]
      exact List.mem_append_right _ List.mem_cons_self
    obtain ⟨d, -, hd⟩ := List.mem_map.mp hmem
    cases hd
  rw [hrun] at htomb ⊢
  have hlive := hseparate.run hheeds key htomb
  exact Option.not_isSome_iff_eq_none.mp hlive

/-! ### When the order does not matter -/

theorem put?_eq_some_iff : op.put? key = some entry ↔ op = .put entry ∧ entry.key = key := by
  cases op with
  | put entry' =>
    rw [SyncOperation.put?, Option.ite_none_right_eq_some, SyncOperation.put.injEq, Option.some_inj]
    constructor
    · rintro ⟨hkey, rfl⟩
      exact ⟨rfl, hkey⟩
    · rintro ⟨rfl, hkey⟩
      exact ⟨hkey, rfl⟩
  | delete k clock => exact iff_of_false (fun h => by cases h) fun h => by cases h.1
  | merge entries => exact iff_of_false (fun h => by cases h) fun h => by cases h.1

theorem mem_putsFor : entry ∈ putsFor key ops ↔ .put entry ∈ ops ∧ entry.key = key := by
  rw [putsFor, List.mem_filterMap]
  constructor
  · rintro ⟨op, hmem, hop⟩
    obtain ⟨rfl, hkey⟩ := put?_eq_some_iff.mp hop
    exact ⟨hmem, hkey⟩
  · rintro ⟨hmem, hkey⟩
    exact ⟨_, hmem, put?_eq_some_iff.mpr ⟨rfl, hkey⟩⟩

theorem map_putsFor (key : String) (ops : List SyncOperation) :
    (putsFor key ops).map .put = ops.filter fun op => (op.put? key).isSome := by
  induction ops with
  | nil => rfl
  | cons op ops ih =>
    rw [putsFor, List.filterMap_cons]
    cases hop : op.put? key with
    | none =>
      rw [List.filter_cons_of_neg (by rw [hop]; simp)]
      exact ih
    | some entry =>
      rw [List.filter_cons_of_pos (by rw [hop]; rfl), List.map_cons, (put?_eq_some_iff.mp hop).1]
      exact congrArg (List.cons _) ih

/-- Every order of the puts for a key comes from an order of the operations. -/
theorem exists_perm_putsFor {l : List SyncEntry} (hl : l.Perm (putsFor key ops)) :
    ∃ ops', ops'.Perm ops ∧ putsFor key ops' = l := by
  have hputs : putsFor key (l.map .put) = l := by
    rw [putsFor, List.filterMap_map]
    calc l.filterMap (SyncOperation.put? key ∘ SyncOperation.put) = l.filterMap some := by
          refine List.filterMap_congr fun entry hentry => ?_
          exact if_pos (mem_putsFor.mp (hl.mem_iff.mp hentry)).2
      _ = l := List.filterMap_some
  -- the other operations come after the puts
  let others := ops.filter fun op => !(op.put? key).isSome
  have hothers : putsFor key others = [] := by
    rw [putsFor, List.filterMap_eq_nil_iff]
    intro op hop
    have hnone := (List.mem_filter.mp hop).2
    rwa [Bool.not_eq_true', Option.isSome_eq_false_iff, Option.isNone_iff_eq_none] at hnone
  refine ⟨l.map .put ++ others, ?_, ?_⟩
  · have hown : (l.map SyncOperation.put).Perm (ops.filter fun op => (op.put? key).isSome) := by
      rw [← map_putsFor]
      exact hl.map _
    exact (hown.append_right others).trans (List.filter_append_perm _ ops)
  · rw [putsFor, List.filterMap_append]
    show putsFor key (l.map .put) ++ putsFor key others = l
    rw [hputs, hothers, List.append_nil]

/-- The deliveries of a list of operations. -/
def deliveries (ops : List SyncOperation) : List Delivery := ops.map fun op => ⟨"", op, 0⟩

theorem map_op_deliveries (ops : List SyncOperation) : (deliveries ops).map Delivery.op = ops := by
  rw [deliveries, List.map_map]
  exact List.map_id ops

theorem DeletedBy.perm {ops' : List SyncOperation} (hperm : ops'.Perm ops) :
    DeletedBy ops' key ↔ DeletedBy ops key :=
  exists_congr fun _ => and_congr_left fun _ => hperm.mem_iff

/-- A new node has a tombstone for the keys that the operations delete. -/
theorem tombstones_new (hwrites : ∀ op ∈ ops, op.IsWrite) (hperm : (ds.map Delivery.op).Perm ops)
    (nodeId key : String) :
    key ∈ ((new nodeId .lastWriteWins).receive ds).state.tombstones ↔ DeletedBy ops key := by
  have hds : ∀ d ∈ ds, d.op.IsWrite := fun d hd =>
    hwrites d.op (hperm.mem_iff.mp (List.mem_map_of_mem hd))
  rw [tombstones_receive hds, DeletedBy.perm hperm]
  exact or_iff_right fun h => Finset.notMem_empty key h

/-- A new node holds the winner of the knockout for the other keys. -/
theorem lookup_new (hwrites : ∀ op ∈ ops, op.IsWrite) (hperm : (ds.map Delivery.op).Perm ops)
    (nodeId : String) (hkey : ¬ DeletedBy ops key) :
    ((new nodeId .lastWriteWins).receive ds).state.entries.lookup key =
      knockout SyncEntry.later none (putsFor key (ds.map Delivery.op)) := by
  have hds : ∀ d ∈ ds, d.op.IsWrite := fun d hd =>
    hwrites d.op (hperm.mem_iff.mp (List.mem_map_of_mem hd))
  exact lookup_receive hds rfl (mt (tombstones_new hwrites hperm nodeId key).mp hkey)

theorem converges_iff_orderIndependent (hwrites : ∀ op ∈ ops, op.IsWrite) :
    Converges ops ↔ ∀ key, DeletedBy ops key ∨
      ∀ l₁ l₂, l₁.Perm (putsFor key ops) → l₂.Perm (putsFor key ops) →
        knockout SyncEntry.later none l₁ = knockout SyncEntry.later none l₂ := by
  constructor
  · intro h key
    rw [or_iff_not_imp_left]
    intro hkey l₁ l₂ h₁ h₂
    -- the two orders of the puts come from two orders of all operations
    obtain ⟨ops₁, hperm₁, rfl⟩ := exists_perm_putsFor h₁
    obtain ⟨ops₂, hperm₂, rfl⟩ := exists_perm_putsFor h₂
    rw [← map_op_deliveries ops₁] at hperm₁ ⊢
    rw [← map_op_deliveries ops₂] at hperm₂ ⊢
    have hsame := (h "" "" (deliveries ops₁) (deliveries ops₂) hperm₁ hperm₂).1 key
    rwa [lookup_new hwrites hperm₁ "" hkey, lookup_new hwrites hperm₂ "" hkey] at hsame
  · intro h nodeId₁ nodeId₂ ds₁ ds₂ hperm₁ hperm₂
    dsimp only
    refine ⟨fun key => ?_, Finset.ext fun key => ?_⟩
    · have hnew : ∀ nodeId, Separate (new nodeId .lastWriteWins).state :=
        fun _ k hk => absurd hk (Finset.notMem_empty k)
      by_cases hkey : DeletedBy ops key
      · rw [lookup_receive_of_tombstone (hnew nodeId₁)
            ((tombstones_new hwrites hperm₁ nodeId₁ key).mpr hkey),
          lookup_receive_of_tombstone (hnew nodeId₂)
            ((tombstones_new hwrites hperm₂ nodeId₂ key).mpr hkey)]
      · rw [lookup_new hwrites hperm₁ nodeId₁ hkey, lookup_new hwrites hperm₂ nodeId₂ hkey]
        exact (h key).resolve_left hkey _ _ (hperm₁.filterMap _) (hperm₂.filterMap _)
    · rw [tombstones_new hwrites hperm₁, tombstones_new hwrites hperm₂]

theorem timestamp_ne (hstamps : (ops.filterMap SyncOperation.timestamp?).Nodup) (key : String) :
    (putsFor key ops).Pairwise fun v w => v.timestamp ≠ w.timestamp := by
  have hpairwise := List.pairwise_filterMap.mp hstamps
  rw [putsFor, List.pairwise_filterMap]
  refine hpairwise.imp fun {op op'} hne v hv w hw => ?_
  obtain ⟨rfl, -⟩ := put?_eq_some_iff.mp hv
  obtain ⟨rfl, -⟩ := put?_eq_some_iff.mp hw
  exact hne _ rfl _ rfl

/-- **When the order does not matter**: every key is deleted, or some put for it prevails over every
other one. -/
theorem peersConverge_iff (ops : List SyncOperation) (hwrites : ∀ op ∈ ops, op.IsWrite)
    (hstamps : (ops.filterMap SyncOperation.timestamp?).Nodup) :
    Converges ops ↔ ∀ key, DeletedBy ops key ∨ putsFor key ops = [] ∨
      ∃ w ∈ putsFor key ops, ∀ v ∈ putsFor key ops, v ≠ w → w.PrevailsOver v := by
  rw [converges_iff_orderIndependent hwrites]
  refine forall_congr' fun key => or_congr_right ?_
  have hpairwise := timestamp_ne hstamps key
  rw [orderIndependent_iff SyncEntry.selective_later
    (hpairwise.imp fun hne heq => hne (by rw [heq]))]
  refine or_congr_right (exists_congr fun w => and_congr_right fun hw => ?_)
  refine forall_congr' fun v => forall_congr' fun hv => forall_congr' fun hne => ?_
  have : Std.Symm fun v w : SyncEntry => v.timestamp ≠ w.timestamp := ⟨fun _ _ h => Ne.symm h⟩
  exact SyncEntry.beats_iff_prevailsOver (hpairwise.forall hw hv (Ne.symm hne))

/-- Two concurrent puts for one key, and a delete of another one. -/
theorem peersConverge_iff_concurrent :
    let clock (n : String) : VectorClock := VectorClock.new.increment n
    let ops : List SyncOperation := [.put ⟨"key", [1], clock "a", "a", 1⟩,
      .put ⟨"key", [2], clock "b", "b", 2⟩, .delete "other" (clock "c")]
    (∀ op ∈ ops, op.IsWrite) ∧ (ops.filterMap SyncOperation.timestamp?).Nodup ∧ Converges ops := by
  intro clock ops
  have hwrites : ∀ op ∈ ops, op.IsWrite := by
    rw [List.forall_mem_cons, List.forall_mem_cons, List.forall_mem_singleton]
    exact ⟨trivial, trivial, trivial⟩
  have hstamps : (ops.filterMap SyncOperation.timestamp?).Nodup := by decide
  refine ⟨hwrites, hstamps, (peersConverge_iff ops hwrites hstamps).mpr fun key => Or.inr ?_⟩
  by_cases hkey : "key" = key
  · subst hkey
    refine Or.inr ⟨⟨"key", [2], clock "b", "b", 2⟩, by simp [ops, putsFor, SyncOperation.put?], ?_⟩
    rintro v hv hne
    obtain rfl : v = ⟨"key", [1], clock "a", "a", 1⟩ := by
      simp only [ops, putsFor, SyncOperation.put?, List.filterMap_cons, if_pos, List.filterMap_nil,
        List.mem_cons, List.not_mem_nil, or_false] at hv
      exact hv.resolve_right hne
    decide +kernel
  · refine Or.inl ?_
    simp [ops, putsFor, SyncOperation.put?, hkey]

/-- **Two nodes stay apart**: `a` writes a key at time 3 and again at time 1, `b` writes it at
time 2. -/
theorem not_forall_peersConverge :
    ¬ ∀ (policy : String → ConflictPolicy) (nodes : String → PeerSyncProtocol),
      Reachable policy True nodes → ∀ ops : List SyncOperation,
        (∀ op ∈ ops, ∃ n, op ∈ (nodes n).pendingOps) →
          (ops.filterMap SyncOperation.timestamp?).Nodup → Converges ops := by
  intro h
  have hinit : Reachable (fun _ => .lastWriteWins) True fun n => new n .lastWriteWins := .init
  have hrun :=
    ((hinit.localPut "a" "key" [1] 3).localPut "a" "key" [2] 1).localPut "b" "key" [3] 2
  generalize hnodes : Function.update _ "b" _ = nodes at hrun
  have hconverges := h _ nodes hrun ((nodes "a").pendingOps ++ (nodes "b").pendingOps)
    (fun op hop => (List.mem_append.mp hop).elim (fun h => ⟨"a", h⟩) fun h => ⟨"b", h⟩)
    (by subst hnodes; decide +kernel)
  -- in the order of the writes, and with the first write last
  let ops := (nodes "a").pendingOps ++ (nodes "b").pendingOps
  have hrotated : ((deliveries (ops.rotate 1)).map Delivery.op).Perm ops := by
    rw [map_op_deliveries]
    exact List.rotate_perm ..
  have hsame := (hconverges "x" "y" (deliveries ops) (deliveries (ops.rotate 1))
    (by rw [map_op_deliveries]) hrotated).1 "key"
  have hstamps := congrArg (Option.map SyncEntry.timestamp) hsame
  subst hnodes
  revert hstamps
  decide +kernel

end PeerSyncProtocol

end Ipfrs.Network
