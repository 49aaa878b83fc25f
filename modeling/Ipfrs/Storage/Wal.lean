import Ipfrs.Core.BlockCache

/-!
# The write-ahead log

`WriteAheadLog` (`ipfrs-storage/src/wal.rs`), one call at a time.

The operations are serialized by the `serde_json` crate for their checksum, which can fail; it is a
parameter here (`WalOpJson`). Sequence numbers come from an atomic `u64`, which wraps. The clock is
an argument of the calls that read it.

What is to be replayed is a function of the history of the calls that succeeded (`expected`), and
does not mention the log or its counters. The invariant `Inv` relates the two: an operation is
expected as long as no later event drops it (`Event.drops`), and the log keeps its entry, above the
checkpoint, exactly as long.
-/

namespace Ipfrs.Wal

inductive WalError where
  | capacityExceeded (current max : ℕ)
  | checkpointFailed (reason : String)
  | serialization (reason : String)
  deriving DecidableEq, Repr

inductive WalOp where
  | put (cid : String) (dataLen : ℕ)
  | delete (cid : String)
  | batchPut (cids : List String) (totalBytes : ℕ)
  | checkpoint (sequence : ℕ)
  deriving DecidableEq, Repr

/-- `serde_json::to_vec` of an operation. -/
class WalOpJson where
  toVec : WalOp → Except String Bytes

def fnv1a32 (data : Bytes) : UInt32 :=
  data.foldl (fun hash byte => (hash ^^^ byte.toUInt32) * 16777619) 2166136261

def WalOp.toBytesForCrc [WalOpJson] (op : WalOp) : Except WalError Bytes :=
  match WalOpJson.toVec op with
  | .error e => .error (.serialization e)
  | .ok bytes => .ok bytes

structure WalEntry where
  sequence : ℕ
  op : WalOp
  crc32 : UInt32
  timestampMs : ℕ
  deriving DecidableEq, Repr

structure WalStats where
  totalAppended : ℕ := 0
  totalCheckpoints : ℕ := 0
  totalTruncated : ℕ := 0
  totalReplayed : ℕ := 0
  deriving DecidableEq, Repr

structure WriteAheadLog where
  entries : List WalEntry
  nextSequence : ℕ
  checkpointSequence : ℕ
  maxEntries : ℕ
  stats : WalStats

/-- Operations other than checkpoints. -/
def WalOp.isData : WalOp → Bool
  | .checkpoint _ => false
  | _ => true

namespace WriteAheadLog

def new (maxEntries : ℕ) : WriteAheadLog where
  entries := []
  nextSequence := 1
  checkpointSequence := 0
  maxEntries := maxEntries
  stats := {}

/-- `append`, at the time `nowMs`. -/
def append [WalOpJson] (wal : WriteAheadLog) (op : WalOp) (nowMs : ℕ) :
    WriteAheadLog × Except WalError ℕ :=
  let current := wal.entries.length
  if wal.maxEntries ≤ current then (wal, .error (.capacityExceeded current wal.maxEntries))
  else
    match op.toBytesForCrc with
    | .error e => (wal, .error e)
    | .ok bytes =>
      let sequence := wal.nextSequence
      ({ wal with
          nextSequence := fetchAdd wal.nextSequence 1
          entries := wal.entries ++ [⟨sequence, op, fnv1a32 bytes, nowMs⟩]
          stats := { wal.stats with totalAppended := fetchAdd wal.stats.totalAppended 1 } },
        .ok sequence)

/-- `checkpoint`, at the time `nowMs`. -/
def checkpoint [WalOpJson] (wal : WriteAheadLog) (nowMs : ℕ) :
    WriteAheadLog × Except WalError ℕ :=
  let checkpointSeq := wal.nextSequence
  match wal.append (.checkpoint checkpointSeq) nowMs with
  | (wal, .error e) => (wal, .error e)
  | (wal, .ok seq) =>
    ({ wal with
        checkpointSequence := seq
        stats := { wal.stats with totalCheckpoints := fetchAdd wal.stats.totalCheckpoints 1 } },
      .ok seq)

def entriesSinceCheckpoint (wal : WriteAheadLog) : List WalEntry :=
  wal.entries.filter fun e => wal.checkpointSequence < e.sequence

def truncateBefore (wal : WriteAheadLog) (sequence : ℕ) : WriteAheadLog × ℕ :=
  let entries := wal.entries.filter fun e => sequence ≤ e.sequence
  let removed := wal.entries.length - entries.length
  ({ wal with
      entries := entries
      stats := { wal.stats with totalTruncated := fetchAdd wal.stats.totalTruncated removed } },
    removed)

def replayOps (wal : WriteAheadLog) : WriteAheadLog × List WalOp :=
  let ops := wal.entriesSinceCheckpoint.filterMap fun e =>
    match e.op with
    | .checkpoint _ => none
    | other => some other
  ({ wal with
      stats := { wal.stats with totalReplayed := fetchAdd wal.stats.totalReplayed ops.length } },
    ops)

end WriteAheadLog

/-! ### Runs -/

/-- What has happened to a log. -/
inductive Event where
  | appended (sequence : ℕ) (op : WalOp)
  | checkpointed
  | truncated (sequence : ℕ)

/-- After the event, the operation with this sequence number is not replayed any more. -/
def Event.drops (seq : ℕ) : Event → Bool
  | .appended .. => false
  | .checkpointed => true
  | .truncated sequence => seq < sequence

/-- None of the events drops the operation with this sequence number. -/
def survives (later : List Event) (seq : ℕ) : Bool := later.all fun event => !event.drops seq

/-- The operations that no later event drops, with their sequence numbers. -/
def live : List Event → List (ℕ × WalOp)
  | [] => []
  | .appended seq op :: later =>
    if op.isData ∧ survives later seq then (seq, op) :: live later else live later
  | _ :: later => live later

/-- **What is to be replayed**: the operations appended after the last checkpoint that no
truncation with a larger argument removed. -/
def expected (history : List Event) : List WalOp := (live history).map Prod.snd

/-- How many entries have been appended, those of checkpoints included. -/
def appends : List Event → ℕ
  | [] => 0
  | .appended .. :: later => appends later + 1
  | _ :: later => appends later

section Log

variable [WalOpJson]

/-- The logs that calls make of a new one, with the history of the calls that succeeded. -/
inductive Run (maxEntries : ℕ) : List Event → WriteAheadLog → Prop
  | new : Run maxEntries [] (.new maxEntries)
  | append {history : List Event} {wal wal' : WriteAheadLog} {op : WalOp} {nowMs seq : ℕ}
      (h : Run maxEntries history wal) (hop : wal.append op nowMs = (wal', .ok seq)) :
      Run maxEntries (history ++ [.appended seq op]) wal'
  | appendFailed {history : List Event} {wal wal' : WriteAheadLog} {op : WalOp} {nowMs : ℕ}
      {e : WalError} (h : Run maxEntries history wal)
      (hop : wal.append op nowMs = (wal', .error e)) : Run maxEntries history wal'
  | checkpoint {history : List Event} {wal wal' : WriteAheadLog} {nowMs seq : ℕ}
      (h : Run maxEntries history wal) (hop : wal.checkpoint nowMs = (wal', .ok seq)) :
      Run maxEntries (history ++ [.appended seq (.checkpoint seq), .checkpointed]) wal'
  | checkpointFailed {history : List Event} {wal wal' : WriteAheadLog} {nowMs : ℕ} {e : WalError}
      (h : Run maxEntries history wal) (hop : wal.checkpoint nowMs = (wal', .error e)) :
      Run maxEntries history wal'
  | truncateBefore {history : List Event} {wal wal' : WriteAheadLog} {sequence removed : ℕ}
      (h : Run maxEntries history wal) (hop : wal.truncateBefore sequence = (wal', removed)) :
      Run maxEntries (history ++ [.truncated sequence]) wal'

/-! ### What a call does -/

section Calls

variable {wal wal' : WriteAheadLog} {op : WalOp} {nowMs seq : ℕ} {e : WalError}

theorem append_eq_ok (h : wal.append op nowMs = (wal', .ok seq)) :
    seq = wal.nextSequence ∧ wal'.nextSequence = fetchAdd wal.nextSequence 1 ∧
      wal'.checkpointSequence = wal.checkpointSequence ∧
      ∃ crc, wal'.entries = wal.entries ++ [⟨wal.nextSequence, op, crc, nowMs⟩] := by
  unfold WriteAheadLog.append at h
  dsimp only at h
  split at h
  · exact absurd h (by simp)
  · split at h
    · exact absurd h (by simp)
    · next bytes _ =>
      obtain ⟨rfl, hseq⟩ := Prod.mk.inj h
      exact ⟨(Except.ok.inj hseq).symm, rfl, rfl, fnv1a32 bytes, rfl⟩

/-- With room, and an operation that can be serialized, an append succeeds. -/
theorem exists_append (wal : WriteAheadLog) (op : WalOp) (nowMs : ℕ) {bytes : Bytes}
    (hroom : wal.entries.length < wal.maxEntries) (hbytes : WalOpJson.toVec op = .ok bytes) :
    ∃ wal', wal.append op nowMs = (wal', .ok wal.nextSequence) ∧ wal'.maxEntries = wal.maxEntries ∧
      wal'.nextSequence = fetchAdd wal.nextSequence 1 ∧
      wal'.entries = wal.entries ++ [⟨wal.nextSequence, op, fnv1a32 bytes, nowMs⟩] := by
  unfold WriteAheadLog.append WalOp.toBytesForCrc
  rw [hbytes]
  dsimp only
  rw [if_neg (Nat.not_le.mpr hroom)]
  exact ⟨_, rfl, rfl, rfl, rfl⟩

theorem append_eq_error (h : wal.append op nowMs = (wal', .error e)) : wal' = wal := by
  unfold WriteAheadLog.append at h
  dsimp only at h
  split at h
  · exact (Prod.mk.inj h).1.symm
  · split at h
    · exact (Prod.mk.inj h).1.symm
    · exact absurd (Prod.mk.inj h).2 (by simp)

theorem checkpoint_eq_ok (h : wal.checkpoint nowMs = (wal', .ok seq)) :
    seq = wal.nextSequence ∧ wal'.nextSequence = fetchAdd wal.nextSequence 1 ∧
      wal'.checkpointSequence = seq ∧
      ∃ crc, wal'.entries = wal.entries ++ [⟨wal.nextSequence, .checkpoint seq, crc, nowMs⟩] := by
  unfold WriteAheadLog.checkpoint at h
  dsimp only at h
  split at h
  · exact absurd (Prod.mk.inj h).2 (by simp)
  · next wal₁ seq₁ happend =>
    obtain ⟨rfl, hnext, -, crc, hentries⟩ := append_eq_ok happend
    obtain ⟨rfl, hseq⟩ := Prod.mk.inj h
    obtain rfl := Except.ok.inj hseq
    exact ⟨rfl, hnext, rfl, crc, hentries⟩

theorem exists_checkpoint (wal : WriteAheadLog) (nowMs : ℕ) {bytes : Bytes}
    (hroom : wal.entries.length < wal.maxEntries)
    (hbytes : WalOpJson.toVec (.checkpoint wal.nextSequence) = .ok bytes) :
    ∃ wal', wal.checkpoint nowMs = (wal', .ok wal.nextSequence) ∧
      wal'.maxEntries = wal.maxEntries ∧ wal'.nextSequence = fetchAdd wal.nextSequence 1 ∧
      wal'.entries.length = wal.entries.length + 1 := by
  obtain ⟨wal₁, happend, hmax, hnext, hentries⟩ := exists_append wal _ nowMs hroom hbytes
  unfold WriteAheadLog.checkpoint
  dsimp only
  rw [happend]
  refine ⟨_, rfl, hmax, hnext, ?_⟩
  rw [hentries, List.length_append]
  rfl

theorem checkpoint_eq_error (h : wal.checkpoint nowMs = (wal', .error e)) : wal' = wal := by
  unfold WriteAheadLog.checkpoint at h
  dsimp only at h
  split at h
  · next wal₁ e₁ happend =>
    rw [← append_eq_error happend]
    exact (Prod.mk.inj h).1.symm
  · exact absurd (Prod.mk.inj h).2 (by simp)

end Calls

/-! ### The history -/

section History

omit [WalOpJson]

theorem live_append (history later : List Event) :
    live (history ++ later) =
      (live history).filter (fun x => survives later x.1) ++ live later := by
  induction history with
  | nil => rfl
  | cons event history ih =>
    cases event with
    | checkpointed => exact ih
    | truncated sequence => exact ih
    | appended seq op =>
      have happend : survives (history ++ later) seq =
          (survives history seq && survives later seq) := List.all_append
      rw [List.cons_append, live, live, ih, happend]
      -- the later events may drop the operation
      cases hlater : survives later seq with
      | true =>
        rw [Bool.and_true]
        split
        · have hkept : survives later (seq, op).1 = true := hlater
          rw [List.filter_cons, if_pos hkept, List.cons_append]
        · rfl
      | false =>
        rw [Bool.and_false, if_neg fun h => Bool.false_ne_true h.2]
        split
        · have hdropped : ¬ survives later (seq, op).1 = true := by simp [hlater]
          rw [List.filter_cons, if_neg hdropped]
        · rfl

theorem appends_append (history later : List Event) :
    appends (history ++ later) = appends history + appends later := by
  induction history with
  | nil => exact (Nat.zero_add _).symm
  | cons event history ih =>
    cases event with
    | checkpointed => exact ih
    | truncated sequence => exact ih
    | appended seq op =>
      rw [List.cons_append, appends, appends, ih]
      omega

end History

/-! ### What a run keeps -/

/-- **The invariant** of a log and its history, as long as the sequence numbers have not wrapped. -/
structure Inv (history : List Event) (wal : WriteAheadLog) : Prop where
  sorted : wal.entries.Pairwise fun e e' => e.sequence < e'.sequence
  below : ∀ e ∈ wal.entries, e.sequence < wal.nextSequence
  checkpoint_lt : wal.checkpointSequence < wal.nextSequence
  next_eq : wal.nextSequence = appends history + 1
  live_eq : live history =
    (wal.entriesSinceCheckpoint.filter fun e => e.op.isData).map fun e => (e.sequence, e.op)

section Steps

variable {history : List Event} {wal wal' : WriteAheadLog} {op : WalOp} {nowMs seq : ℕ}

omit [WalOpJson] in
theorem Inv.new (maxEntries : ℕ) : Inv [] (.new maxEntries) where
  sorted := List.Pairwise.nil
  below _ he := absurd he List.not_mem_nil
  checkpoint_lt := Nat.zero_lt_one
  next_eq := rfl
  live_eq := rfl

omit [WalOpJson] in
theorem Inv.fetchAdd_next (h : Inv history wal) (hroom : appends history + 1 < 2 ^ 64 - 1) :
    fetchAdd wal.nextSequence 1 = wal.nextSequence + 1 := by
  rw [fetchAdd, h.next_eq, Nat.mod_eq_of_lt]
  omega

omit [WalOpJson] in
theorem Inv.sorted_append (h : Inv history wal) {e : WalEntry}
    (he : e.sequence = wal.nextSequence) :
    (wal.entries ++ [e]).Pairwise fun e e' => e.sequence < e'.sequence := by
  refine List.pairwise_append.mpr ⟨h.sorted, List.pairwise_singleton _ _, fun e₁ h₁ e₂ h₂ => ?_⟩
  rw [List.mem_singleton.mp h₂, he]
  exact h.below e₁ h₁

omit [WalOpJson] in
theorem Inv.below_append (h : Inv history wal) {e : WalEntry} (he : e.sequence = wal.nextSequence) :
    ∀ e' ∈ wal.entries ++ [e], e'.sequence < wal.nextSequence + 1 := by
  intro e' he'
  rcases List.mem_append.mp he' with he' | he'
  · exact Nat.lt_succ_of_lt (h.below e' he')
  · rw [List.mem_singleton.mp he', he]
    exact Nat.lt_succ_self _

theorem Inv.append (h : Inv history wal) (hroom : appends history + 1 < 2 ^ 64 - 1)
    (hop : wal.append op nowMs = (wal', .ok seq)) : Inv (history ++ [.appended seq op]) wal' := by
  obtain ⟨rfl, hnext, hcheckpoint, crc, hentries⟩ := append_eq_ok hop
  rw [h.fetchAdd_next hroom] at hnext
  refine ⟨?_, ?_, ?_, ?_, ?_⟩
  · rw [hentries]
    exact h.sorted_append rfl
  · rw [hentries, hnext]
    exact h.below_append rfl
  · rw [hcheckpoint, hnext]
    exact Nat.lt_succ_of_lt h.checkpoint_lt
  · rw [hnext, appends_append, h.next_eq]
    rfl
  · -- nothing is dropped, and the new entry is above the checkpoint
    have hkept : (fun x : ℕ × WalOp => survives [.appended wal.nextSequence op] x.1) =
        fun _ => true := rfl
    have hnew : decide (wal.checkpointSequence < wal.nextSequence) = true :=
      decide_eq_true h.checkpoint_lt
    rw [live_append, hkept, List.filter_true, h.live_eq]
    unfold WriteAheadLog.entriesSinceCheckpoint
    rw [hentries, hcheckpoint, List.filter_append, List.filter_append, List.map_append,
      List.filter_singleton]
    congr 1
    cases hdata : op.isData with
    | true => simp [live, survives, hdata, hnew]
    | false => simp [live, hdata, hnew]

theorem Inv.checkpoint (h : Inv history wal) (hroom : appends history + 1 < 2 ^ 64 - 1)
    (hop : wal.checkpoint nowMs = (wal', .ok seq)) :
    Inv (history ++ [.appended seq (.checkpoint seq), .checkpointed]) wal' := by
  obtain ⟨rfl, hnext, hcheckpoint, crc, hentries⟩ := checkpoint_eq_ok hop
  rw [h.fetchAdd_next hroom] at hnext
  refine ⟨?_, ?_, ?_, ?_, ?_⟩
  · rw [hentries]
    exact h.sorted_append rfl
  · rw [hentries, hnext]
    exact h.below_append rfl
  · rw [hcheckpoint, hnext]
    exact Nat.lt_succ_self _
  · rw [hnext, appends_append, h.next_eq]
    rfl
  · -- everything is dropped, and no entry is above the checkpoint
    have hnone : wal'.entriesSinceCheckpoint = [] := by
      unfold WriteAheadLog.entriesSinceCheckpoint
      rw [hcheckpoint, hentries, List.filter_eq_nil_iff]
      intro e he
      have hlt := h.below_append rfl e he
      simp only [decide_eq_true_eq]
      omega
    have hdropped : (fun x : ℕ × WalOp => survives [.appended wal.nextSequence
        (.checkpoint wal.nextSequence), .checkpointed] x.1) = fun _ => false := rfl
    rw [live_append, hdropped, List.filter_false, hnone]
    rfl

omit [WalOpJson] in
theorem Inv.truncateBefore (h : Inv history wal) (sequence : ℕ) :
    Inv (history ++ [.truncated sequence]) (wal.truncateBefore sequence).1 := by
  refine ⟨h.sorted.filter _, fun e he => h.below e (List.mem_of_mem_filter he), h.checkpoint_lt,
    ?_, ?_⟩
  · rw [appends_append]
    exact h.next_eq
  · have hnone : live [.truncated sequence] = [] := rfl
    have hsurvives : ((fun x : ℕ × WalOp => survives [.truncated sequence] x.1) ∘
        fun e : WalEntry => (e.sequence, e.op)) = fun e => decide (sequence ≤ e.sequence) := by
      funext e
      rw [Bool.eq_iff_iff]
      simp [survives, Event.drops]
    -- the filters commute
    have hsince : (wal.truncateBefore sequence).1.entriesSinceCheckpoint =
        wal.entriesSinceCheckpoint.filter fun e => sequence ≤ e.sequence := List.filter_comm _ _ _
    rw [live_append, h.live_eq, hnone, List.append_nil, List.filter_map, hsurvives, hsince,
      List.filter_comm]

omit [WalOpJson] in
theorem Inv.replayOps (h : Inv history wal) : wal.replayOps.2 = expected history := by
  rw [expected, h.live_eq, List.map_map]
  unfold WriteAheadLog.replayOps
  dsimp only
  induction wal.entriesSinceCheckpoint with
  | nil => rfl
  | cons e entries ih =>
    cases hop : e.op with
    | checkpoint sequence => simp [hop, WalOp.isData, ih]
    | _ => simp [hop, WalOp.isData, ih]

end Steps

section Runs

variable {maxEntries : ℕ} {history : List Event} {wal : WriteAheadLog}

theorem Run.inv (h : Run maxEntries history wal) (hroom : appends history < 2 ^ 64 - 1) :
    Inv history wal := by
  induction h with
  | new => exact .new maxEntries
  | append _ hop ih =>
    -- the number before this one had not wrapped either
    rw [appends_append] at hroom
    exact (ih (Nat.lt_of_succ_lt hroom)).append hroom hop
  | appendFailed _ hop ih =>
    rw [append_eq_error hop]
    exact ih hroom
  | checkpoint _ hop ih =>
    rw [appends_append] at hroom
    exact (ih (Nat.lt_of_succ_lt hroom)).checkpoint hroom hop
  | checkpointFailed _ hop ih =>
    rw [checkpoint_eq_error hop]
    exact ih hroom
  | truncateBefore _ hop ih =>
    rw [appends_append] at hroom
    have hwal := congrArg Prod.fst hop
    dsimp only at hwal
    rw [← hwal]
    exact (ih hroom).truncateBefore _

/-- **Replay.** In every run in which the sequence numbers do not wrap, those of the log increase
and are below the next one, `replay_ops` returns what is to be replayed; and a call that fails
changes nothing. -/
theorem Run.replay (h : Run maxEntries history wal) (hroom : appends history < 2 ^ 64 - 1) :
    (wal.entries.map WalEntry.sequence).Pairwise (· < ·) ∧
      (∀ e ∈ wal.entries, e.sequence < wal.nextSequence) ∧
      wal.replayOps.2 = expected history ∧
      (∀ op nowMs wal' e, wal.append op nowMs = (wal', .error e) → wal' = wal) ∧
      ∀ nowMs wal' e, wal.checkpoint nowMs = (wal', .error e) → wal' = wal := by
  have hinv := h.inv hroom
  exact ⟨List.pairwise_map.mpr hinv.sorted, hinv.below, hinv.replayOps,
    fun _ _ _ _ hop => append_eq_error hop, fun _ _ _ hop => checkpoint_eq_error hop⟩

end Runs

end Log

/-! ### Two runs -/

/-- An object with one field, whose value is given. -/
def jsonField (name value : String) : String := "\x7b\"" ++ name ++ "\":" ++ value ++ "\x7d"

/-- The JSON of an operation, for CIDs without characters that are escaped. -/
def jsonOf : WalOp → String
  | .put cid dataLen =>
    jsonField "Put" ("\x7b\"cid\":\"" ++ cid ++ "\",\"data_len\":" ++ toString dataLen ++ "\x7d")
  | .delete cid => jsonField "Delete" (jsonField "cid" ("\"" ++ cid ++ "\""))
  | .batchPut cids totalBytes =>
    jsonField "BatchPut" ("\x7b\"cids\":[" ++ ",".intercalate (cids.map fun c => "\"" ++ c ++ "\"")
      ++ "],\"total_bytes\":" ++ toString totalBytes ++ "\x7d")
  | .checkpoint sequence => jsonField "Checkpoint" (jsonField "sequence" (toString sequence))

@[reducible]
def json : WalOpJson := ⟨fun op => .ok (jsonOf op).toUTF8.toList⟩

/-- Of the operations before the checkpoint, before and after the truncation, the last is left. -/
theorem Run.replay_three :
    let _ := json
    ∃ history wal, Run 10 history wal ∧ wal.replayOps.2 = [.delete "c"] := by
  intro _
  obtain ⟨wal₁, hop₁, hmax₁, hnext₁, hentries₁⟩ :=
    exists_append (.new 10) (.delete "a") 0 (by decide) rfl
  obtain ⟨wal₂, hop₂, hmax₂, hnext₂, hlength₂⟩ :=
    exists_checkpoint wal₁ 0 (by rw [hentries₁, hmax₁]; decide) rfl
  obtain ⟨wal₃, hop₃, hmax₃, hnext₃, hentries₃⟩ :=
    exists_append wal₂ (.delete "b") 0 (by rw [hlength₂, hmax₂, hentries₁, hmax₁]; decide) rfl
  have hlength₃ : wal₃.entries.length = 3 := by
    rw [hentries₃, List.length_append, hlength₂, hentries₁]
    rfl
  obtain ⟨wal₄, hop₄, -⟩ :=
    exists_append wal₃ (.delete "c") 0 (by rw [hlength₃, hmax₃, hmax₂, hmax₁]; decide) rfl
  -- the number of the last operation is 4
  have hrun := ((((Run.new.append hop₁).checkpoint hop₂).append hop₃).append hop₄).truncateBefore
    (rfl : wal₄.truncateBefore 4 = _)
  rw [hnext₃, hnext₂, hnext₁] at hrun
  have hexpected := (Run.replay hrun (by decide)).2.2.1
  exact ⟨_, _, hrun, hexpected⟩

theorem exists_run_of_appends (n : ℕ) (hn : n < 2 ^ 64 - 1) :
    let _ := json
    ∃ history wal, Run 1 history wal ∧ wal.entries = [] ∧ wal.maxEntries = 1 ∧
      wal.nextSequence = n + 1 := by
  intro _
  induction n with
  | zero => exact ⟨_, _, .new, rfl, rfl, rfl⟩
  | succ n ih =>
    obtain ⟨history, wal, hrun, hempty, hmax, hnext⟩ := ih (by omega)
    have hroom : wal.entries.length < wal.maxEntries := by
      rw [hempty, hmax]
      decide
    obtain ⟨wal', hop, hmax', hnext', hentries⟩ := exists_append wal (.delete "a") 0 hroom rfl
    -- the entry has the number `n + 1`
    refine ⟨_, _, (hrun.append hop).truncateBefore (rfl : wal'.truncateBefore (n + 2) = _),
      ?_, ?_, ?_⟩
    · change wal'.entries.filter _ = []
      rw [hentries, hempty, hnext]
      simp
    · exact hmax'.trans hmax
    · change wal'.nextSequence = _
      rw [hnext', hnext, fetchAdd, Nat.mod_eq_of_lt]
      omega

/-- After `2 ^ 64 - 1` appends the next number is 0, below that of the last entry. -/
theorem not_forall_replay :
    let _ := json
    ¬ ∀ (maxEntries : ℕ) (history : List Event) (wal : WriteAheadLog),
      Run maxEntries history wal → ∀ e ∈ wal.entries, e.sequence < wal.nextSequence := by
  intro _ hall
  obtain ⟨history, wal, hrun, hempty, hmax, hnext⟩ :=
    exists_run_of_appends (2 ^ 64 - 2) (by decide)
  have hroom : wal.entries.length < wal.maxEntries := by
    rw [hempty, hmax]
    decide
  obtain ⟨wal', hop, -, hnext', hentries⟩ := exists_append wal (.delete "a") 0 hroom rfl
  have hlt := hall 1 _ wal' (hrun.append hop) _
    (hentries ▸ List.mem_append_right _ (List.mem_singleton_self _))
  -- the next number has wrapped
  have hzero : wal'.nextSequence = 0 := by
    rw [hnext', hnext]
    decide
  rw [hzero] at hlt
  exact absurd hlt (Nat.not_lt_zero _)

end Ipfrs.Wal
