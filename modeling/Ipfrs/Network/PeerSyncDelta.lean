import Ipfrs.Network.PeerSyncConvergence

/-!
# Delta sync

What a node is missing is inferred from its clock alone: `generate_delta` sends the entries whose
clocks do not precede that clock.

A node that applies an entry of a delta then holds an entry that does not precede it
(`exists_held_applyPut`), and the delta has no second entry for the key, so for the entries that are
sent nothing is lost. The clock of a node grows with everything the node receives, however, and
precedence only means that some later write has been seen, perhaps to another key: an entry that is
left out has to be there already (`deltaComplete_iff`).
-/

namespace Ipfrs.Network

open Knockout

namespace PeerSyncProtocol

variable {p a b : PeerSyncProtocol} {key : String} {entry held : SyncEntry}
  {entries : List SyncEntry} {nodes : String → PeerSyncProtocol}

/-- The node holds an entry for the key that does not precede the given one. -/
def Holds (p : PeerSyncProtocol) (key : String) (entry : SyncEntry) : Prop :=
  ∃ held, p.state.entries.lookup key = some held ∧
    held.clock.happensBefore entry.clock = false

/-- The node after the operations of a delta. -/
def applyDelta (p : PeerSyncProtocol) (peerId : String) (now : UInt64) (ops : List SyncOperation) :
    PeerSyncProtocol :=
  ops.foldl (fun p op => (p.applyRemoteOp peerId op now).1) p

/-- **Delta sync is complete** from `a` to `b`: once `b` has applied the delta of `a` for its clock,
it holds for every key live at `a` an entry that does not precede that of `a`. -/
def DeltaComplete (a b : PeerSyncProtocol) : Prop :=
  ∀ (order : List String), order.Perm a.state.entries.keys → ∀ (peerId : String) (now : UInt64)
    (key : String) (entry : SyncEntry), a.state.entries.lookup key = some entry →
      (b.applyDelta peerId now (a.generateDelta order b.state.localClock)).Holds key entry

/-- A node that writes puts alone, under `LastWriteWins`: entries are held under their own keys, and
nothing is tombstoned. -/
structure PutsOnly (p : PeerSyncProtocol) : Prop where
  policy : p.conflictPolicy = .lastWriteWins
  tombstones : p.state.tombstones = ∅
  keyed : ∀ key entry, p.state.entries.lookup key = some entry → entry.key = key
  puts : ∀ op ∈ p.pendingOps, ∃ entry, op = .put entry

/-! ### The nodes -/

theorem pendingOps_applyPut (p : PeerSyncProtocol) (incoming : SyncEntry) :
    (p.applyPut incoming).1.pendingOps = p.pendingOps := by
  obtain heq | ⟨-, entry, heq⟩ := applyPut_cases p incoming
  · rw [heq]
  · rw [heq]
    rfl

theorem putsOnly_new (nodeId : String) : PutsOnly (new nodeId .lastWriteWins) where
  policy := rfl
  tombstones := rfl
  keyed := fun _ _ h => by cases h
  puts := fun _ h => by cases h

theorem PutsOnly.localPut (h : PutsOnly p) (key : String) (value : Bytes) (now : UInt64) :
    PutsOnly (p.localPut key value now).1 where
  policy := h.policy
  tombstones := h.tombstones
  keyed := by
    intro k entry hlookup
    have hlookup : (p.state.entries.insert key (p.localPut key value now).2).lookup k =
      some entry := hlookup
    by_cases hk : k = key
    · subst hk
      rw [AList.lookup_insert] at hlookup
      rw [← Option.some.inj hlookup]
      rfl
    · rw [AList.lookup_insert_ne hk] at hlookup
      exact h.keyed k entry hlookup
  puts := by
    intro op hop
    obtain hop | hop := List.mem_append.mp hop
    · exact h.puts op hop
    · exact ⟨_, List.mem_singleton.mp hop⟩

theorem PutsOnly.log (h : PutsOnly p) (syncLog : List (String × SyncOperation × UInt64)) :
    PutsOnly { p with syncLog := syncLog } :=
  ⟨h.policy, h.tombstones, h.keyed, h.puts⟩

theorem PutsOnly.applyPut (h : PutsOnly p) (incoming : SyncEntry) :
    PutsOnly (p.applyPut incoming).1 where
  policy := (conflictPolicy_applyPut p incoming).trans h.policy
  tombstones := (tombstones_applyPut p incoming).trans h.tombstones
  keyed := by
    intro k entry hlookup
    have hkey : incoming.key ∉ p.state.tombstones := by
      rw [h.tombstones]
      exact Finset.notMem_empty _
    -- the key holds what was there or what comes, and either has this key
    rw [lookup_applyPut h.policy hkey] at hlookup
    by_cases hk : k = incoming.key
    · rw [if_pos hk, Option.some_inj] at hlookup
      subst hk
      cases hheld : p.state.entries.lookup incoming.key with
      | none =>
        rw [hheld] at hlookup
        rw [← hlookup]
        rfl
      | some existing =>
        rw [hheld] at hlookup
        obtain hstay | hgo := SyncEntry.selective_later existing incoming
        · rw [← hlookup, absorb, hstay]
          exact h.keyed _ existing hheld
        · rw [← hlookup, absorb, hgo]
    · rw [if_neg hk] at hlookup
      exact h.keyed k entry hlookup
  puts := by
    rw [pendingOps_applyPut]
    exact h.puts

/-- **The nodes of every run** with puts only. -/
theorem putsOnly_of_reachable (h : Reachable (fun _ => .lastWriteWins) False nodes) (n : String) :
    PutsOnly (nodes n) := by
  induction h generalizing n with
  | init => exact putsOnly_new n
  | @localPut nodes _ m key value now ih =>
    by_cases hn : n = m
    · subst hn
      rw [Function.update_self]
      exact (ih n).localPut key value now
    · rw [Function.update_of_ne hn]
      exact ih n
  | localDelete _ hdeletes => exact hdeletes.elim
  | @receive nodes _ m source peerId op now hop ih =>
    by_cases hn : n = m
    · subst hn
      rw [Function.update_self]
      -- what a node has queued is a put
      obtain ⟨entry, rfl⟩ := (ih source).puts op hop
      exact ((ih n).log _).applyPut entry
    · rw [Function.update_of_ne hn]
      exact ih n

/-! ### Entries of a delta -/

/-- Of two entries, the one that is held does not precede the one that comes. -/
theorem not_happensBefore_later (existing incoming : SyncEntry) :
    (existing.later incoming).clock.happensBefore incoming.clock = false := by
  rw [SyncEntry.later]
  split
  · next heq => exact eq_false_of_ne_true (VectorClock.not_happensBefore_of_eq heq)
  split
  · next hlt => exact eq_false_of_ne_true (VectorClock.happensBefore_asymm hlt)
  split
  · exact eq_false_of_ne_true (VectorClock.not_happensBefore_self _)
  split
  · next hgt _ => exact eq_false_of_ne_true hgt
  · exact eq_false_of_ne_true (VectorClock.not_happensBefore_self _)

theorem exists_held_applyPut (h : PutsOnly p) (incoming : SyncEntry) :
    (p.applyPut incoming).1.Holds incoming.key incoming := by
  have hkey : incoming.key ∉ p.state.tombstones := by
    rw [h.tombstones]
    exact Finset.notMem_empty _
  refine ⟨_, (lookup_applyPut h.policy hkey incoming.key).trans (if_pos rfl), ?_⟩
  cases p.state.entries.lookup incoming.key with
  | none => exact eq_false_of_ne_true (VectorClock.not_happensBefore_self _)
  | some existing => exact not_happensBefore_later existing incoming

theorem lookup_applyPut_of_ne (h : PutsOnly p) {incoming : SyncEntry} (hne : key ≠ incoming.key) :
    (p.applyPut incoming).1.state.entries.lookup key = p.state.entries.lookup key := by
  have hkey : incoming.key ∉ p.state.tombstones := by
    rw [h.tombstones]
    exact Finset.notMem_empty _
  rw [lookup_applyPut h.policy hkey, if_neg hne]

theorem lookup_applyEntries_of_ne (h : PutsOnly p) (hne : ∀ e ∈ entries, key ≠ e.key) :
    (p.applyEntries entries).state.entries.lookup key = p.state.entries.lookup key := by
  induction entries generalizing p with
  | nil => rfl
  | cons e entries ih =>
    obtain ⟨he, hentries⟩ := List.forall_mem_cons.mp hne
    have hstep : p.applyEntries (e :: entries) = (p.applyPut e).1.applyEntries entries := rfl
    rw [hstep, ih (h.applyPut e) hentries, lookup_applyPut_of_ne h he]

/-- **Entries for different keys**: after all of them, none of them precedes what is held. -/
theorem holds_applyEntries (h : PutsOnly p) (hentry : entry ∈ entries)
    (hnodup : (entries.map SyncEntry.key).Nodup) :
    (p.applyEntries entries).Holds entry.key entry := by
  induction entries generalizing p with
  | nil => exact absurd hentry List.not_mem_nil
  | cons e entries ih =>
    rw [List.map_cons, List.nodup_cons] at hnodup
    have hstep : p.applyEntries (e :: entries) = (p.applyPut e).1.applyEntries entries := rfl
    rw [hstep]
    obtain rfl | hmem := List.mem_cons.mp hentry
    · -- no later entry has the key
      obtain ⟨held, hlookup, hheld⟩ := exists_held_applyPut h entry
      refine ⟨held, ?_, hheld⟩
      rw [lookup_applyEntries_of_ne (h.applyPut entry), hlookup]
      intro e' he' hkey
      exact hnodup.1 (hkey ▸ List.mem_map_of_mem he')
    · exact ih (h.applyPut e) hmem hnodup.2

/-! ### When delta sync is complete -/

/-- What is sent for a clock: the entries of `a` whose clocks do not precede it. -/
def missing (a : PeerSyncProtocol) (order : List String) (sinceClock : VectorClock) :
    List SyncEntry :=
  (order.filterMap a.state.entries.lookup).filter fun e => !e.clock.happensBefore sinceClock

/-- A node applies the entries of a delta, once it has logged the operation. -/
theorem applyDelta_generateDelta (h : PutsOnly b) (peerId : String) (now : UInt64)
    (order : List String) (sinceClock : VectorClock) :
    ∃ q : PeerSyncProtocol, PutsOnly q ∧ q.state = b.state ∧
      b.applyDelta peerId now (a.generateDelta order sinceClock) =
        q.applyEntries (a.missing order sinceClock) := by
  have hdelta : a.generateDelta order sinceClock =
      if (a.missing order sinceClock).isEmpty then [] else [.merge (a.missing order sinceClock)] :=
    rfl
  rw [hdelta]
  by_cases hempty : (a.missing order sinceClock).isEmpty = true
  · rw [if_pos hempty, List.isEmpty_iff.mp hempty]
    exact ⟨b, h, rfl, rfl⟩
  · let op : SyncOperation := .merge (a.missing order sinceClock)
    refine ⟨_, h.log (b.syncLog ++ [(peerId, op, now)]), rfl, ?_⟩
    rw [if_neg hempty, applyDelta, List.foldl_cons, List.foldl_nil, applyRemoteOp, if_neg hempty]

theorem nodup_missing (h : PutsOnly a) {order : List String} (horder : order.Nodup)
    (sinceClock : VectorClock) : ((a.missing order sinceClock).map SyncEntry.key).Nodup := by
  have hsub : ((order.filterMap a.state.entries.lookup).map SyncEntry.key).Sublist order := by
    clear horder
    induction order with
    | nil => exact List.Sublist.refl _
    | cons k order ih =>
      rw [List.filterMap_cons]
      cases hk : a.state.entries.lookup k with
      | none => exact ih.cons k
      | some entry =>
        rw [List.map_cons, h.keyed k entry hk]
        exact ih.cons_cons k
  exact horder.sublist ((List.filter_sublist.map _).trans hsub)

/-- The entry of a live key is sent unless it precedes the clock. -/
theorem mem_missing_iff (h : PutsOnly a) {order : List String}
    (horder : order.Perm a.state.entries.keys) (hentry : a.state.entries.lookup key = some entry)
    (sinceClock : VectorClock) :
    (∃ e ∈ a.missing order sinceClock, key = e.key) ↔
      entry.clock.happensBefore sinceClock = false := by
  constructor
  · rintro ⟨e, he, hkey⟩
    obtain ⟨hmem, hsent⟩ := List.mem_filter.mp he
    obtain ⟨k, -, hk⟩ := List.mem_filterMap.mp hmem
    -- the one that is sent for the key is the one that is live
    obtain rfl : k = key := (h.keyed k e hk).symm.trans hkey.symm
    obtain rfl : e = entry := Option.some.inj (hk.symm.trans hentry)
    rwa [Bool.not_eq_true'] at hsent
  · intro hlate
    refine ⟨entry, List.mem_filter.mpr ⟨?_, by rw [hlate]; rfl⟩, (h.keyed key entry hentry).symm⟩
    refine List.mem_filterMap.mpr ⟨key, horder.mem_iff.mpr ?_, hentry⟩
    exact AList.mem_keys.mp (AList.lookup_isSome.mp (by rw [hentry]; rfl))

theorem PutsOnly.delta_iff (ha : PutsOnly a) (hb : PutsOnly b) :
    DeltaComplete a b ↔ ∀ key entry, a.state.entries.lookup key = some entry →
      entry.clock.happensBefore b.state.localClock = true → b.Holds key entry := by
  constructor
  · intro h key entry hentry hearly
    have hholds := h a.state.entries.keys (List.Perm.refl _) "" 0 key entry hentry
    obtain ⟨q, hq, hstate, heq⟩ := applyDelta_generateDelta (a := a) hb "" 0
      a.state.entries.keys b.state.localClock
    obtain ⟨held, hlookup, hheld⟩ := hholds
    refine ⟨held, ?_, hheld⟩
    -- nothing is sent for the key
    rw [heq, lookup_applyEntries_of_ne hq, hstate] at hlookup
    · exact hlookup
    · intro e he hkey
      have hlate := (mem_missing_iff ha (List.Perm.refl _) hentry _).mp ⟨e, he, hkey⟩
      rw [hearly] at hlate
      cases hlate
  · intro h order horder peerId now key entry hentry
    obtain ⟨q, hq, hstate, heq⟩ := applyDelta_generateDelta (a := a) hb peerId now order
      b.state.localClock
    rw [heq]
    cases hearly : entry.clock.happensBefore b.state.localClock with
    | true =>
      -- left out: `b` has had an entry for the key, and nothing that is sent touches it
      obtain ⟨held, hlookup, hheld⟩ := h key entry hentry hearly
      refine ⟨held, ?_, hheld⟩
      rw [lookup_applyEntries_of_ne hq, hstate, hlookup]
      intro e he hkey
      have hlate := (mem_missing_iff ha horder hentry _).mp ⟨e, he, hkey⟩
      rw [hearly] at hlate
      cases hlate
    | false =>
      obtain ⟨e, he, hkey⟩ := (mem_missing_iff ha horder hentry _).mpr hearly
      have hnodup := nodup_missing ha (horder.nodup_iff.mpr (AList.keys_nodup _))
        b.state.localClock
      -- the entry that is sent for the key is the live one
      have hlive : a.state.entries.lookup e.key = some e := by
        obtain ⟨k, -, hk⟩ := List.mem_filterMap.mp (List.mem_filter.mp he).1
        rw [ha.keyed k e hk]
        exact hk
      rw [← hkey, hentry] at hlive
      obtain rfl := Option.some.inj hlive
      rw [hkey]
      exact holds_applyEntries hq he hnodup

/-- **When delta sync is complete**: what the delta leaves out is there already. -/
theorem deltaComplete_iff (nodes : String → PeerSyncProtocol) (n m : String)
    (h : Reachable (fun _ => .lastWriteWins) False nodes) :
    DeltaComplete (nodes n) (nodes m) ↔
      ∀ key entry, (nodes n).state.entries.lookup key = some entry →
        entry.clock.happensBefore (nodes m).state.localClock = true →
          (nodes m).Holds key entry :=
  (putsOnly_of_reachable h n).delta_iff (putsOnly_of_reachable h m)

theorem deltaComplete_iff_new :
    let nodes : String → PeerSyncProtocol := Function.update
      (Function.update (fun n => new n .lastWriteWins) "a"
        ((new "a" .lastWriteWins).localPut "x" [1] 1).1) "a"
      ((((new "a" .lastWriteWins).localPut "x" [1] 1).1.localPut "y" [2] 2).1)
    Reachable (fun _ => .lastWriteWins) False nodes ∧ DeltaComplete (nodes "a") (nodes "b") := by
  intro nodes
  have hrun : Reachable (fun _ => .lastWriteWins) False nodes :=
    (Reachable.init.localPut "a" "x" [1] 1).localPut "a" "y" [2] 2
  refine ⟨hrun, (deltaComplete_iff nodes "a" "b" hrun).mpr fun key entry _ hearly => ?_⟩
  -- no clock precedes that of a new node
  rw [VectorClock.happensBefore_iff_lt] at hearly
  exact absurd hearly (not_lt_of_ge fun n => Nat.zero_le _)

/-- **A delta leaves out what is missing**: `c` writes two keys, `a` receives both writes and `b`
the later one alone. -/
theorem not_forall_deltaComplete :
    ¬ ∀ nodes : String → PeerSyncProtocol, Reachable (fun _ => .lastWriteWins) False nodes →
      ∀ n m, DeltaComplete (nodes n) (nodes m) := by
  intro h
  let clock : ℕ → VectorClock := fun k => ⟨(∅ : AList fun _ : String => ℕ).insert "c" k⟩
  let x : SyncOperation := .put ⟨"x", [1], clock 1, "c", 1⟩
  let y : SyncOperation := .put ⟨"y", [2], clock 2, "c", 2⟩
  have hinit : Reachable (fun _ => .lastWriteWins) False fun n => new n .lastWriteWins := .init
  have hwritten := (hinit.localPut "c" "x" [1] 1).localPut "c" "y" [2] 2
  have hx := hwritten.receive "a" "c" "c" x 3 (List.mem_cons_self)
  have hy := hx.receive "a" "c" "c" y 4 (List.mem_cons_of_mem _ List.mem_cons_self)
  have hrun := hy.receive "b" "c" "c" y 5 (List.mem_cons_of_mem _ List.mem_cons_self)
  obtain ⟨held, hheld, -⟩ := h _ hrun "a" "b" ["y", "x"] (by decide +kernel) "a" 6 "x"
    ⟨"x", [1], clock 1, "c", 1⟩ rfl
  cases hheld

end PeerSyncProtocol

end Ipfrs.Network
