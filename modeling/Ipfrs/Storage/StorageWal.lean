import Ipfrs.Lib.Numbered
import Ipfrs.Core.BlockCache

/-!
# The bounded write-ahead log

`StorageWriteAheadLog` (`ipfrs-storage/src/wal.rs`): a deque of the newest entries, cut at the front
when it is full and by truncations. Sums of `u64`s are checked, as in a debug build; a panic does
not undo what was written before it, so `append` returns the state in any case.

The invariant `Inv` relates the log to all that was ever appended, with the sequence numbers that
were returned for it: the deque is a suffix of that list, which is numbered from 1
(`Ipfrs.Numbered`). The index arithmetic of `get_entry` and the comparison of `entries_since` are
right for this reason.
-/

namespace Ipfrs.StorageWal

inductive WalEntryKind where
  | put
  | delete
  | update
  deriving DecidableEq, Repr

structure StorageWalEntry where
  sequence : ℕ
  kind : WalEntryKind
  key : String
  data : Bytes
  timestampTick : ℕ
  deriving DecidableEq, Repr

structure WalConfig where
  maxEntries : ℕ := 10000
  maxDataBytes : ℕ := 100000000
  checkpointInterval : ℕ := 50
  deriving DecidableEq, Repr

/-- An error that is returned, or a panic. -/
inductive WalFault where
  | error (message : String)
  | panic (message : String)
  deriving DecidableEq, Repr

structure StorageWriteAheadLog where
  config : WalConfig
  entries : List StorageWalEntry
  nextSequence : ℕ
  currentTick : ℕ
  totalDataBytes : ℕ
  checkpoints : List ℕ
  lastCheckpointTick : ℕ
  deriving DecidableEq

namespace StorageWriteAheadLog

def new (config : WalConfig) : StorageWriteAheadLog where
  config := config
  entries := []
  nextSequence := 1
  currentTick := 0
  totalDataBytes := 0
  checkpoints := []
  lastCheckpointTick := 0

variable (wal : StorageWriteAheadLog)

/-- `pop_front`, with the bytes of the entry taken off the total. -/
def popFront : StorageWriteAheadLog :=
  match wal.entries with
  | [] => wal
  | evicted :: rest =>
    { wal with entries := rest, totalDataBytes := wal.totalDataBytes - evicted.data.length }

/-- What `append` does with an entry that is within the limits. -/
def pushBack (kind : WalEntryKind) (key : String) (data : Bytes) :
    StorageWriteAheadLog × Except WalFault ℕ :=
  let seq := wal.nextSequence
  match addU64 wal.nextSequence 1 with
  | .error _ => (wal, .error (.panic "attempt to add with overflow"))
  | .ok nextSequence =>
    let wal := { wal with
      nextSequence := nextSequence
      entries := wal.entries ++ [⟨seq, kind, key, data, wal.currentTick⟩] }
    match addU64 wal.totalDataBytes data.length with
    | .error _ => (wal, .error (.panic "attempt to add with overflow"))
    | .ok totalDataBytes => ({ wal with totalDataBytes := totalDataBytes }, .ok seq)

def append (kind : WalEntryKind) (key : String) (data : Bytes) :
    StorageWriteAheadLog × Except WalFault ℕ :=
  match addU64 wal.totalDataBytes data.length with
  | .error _ => (wal, .error (.panic "attempt to add with overflow"))
  | .ok wouldBe =>
    let max := wal.config.maxDataBytes
    if max < wouldBe then
      (wal, .error (.error
        s!"WAL data limit exceeded: would be {wouldBe} bytes, max {max} bytes"))
    else
      -- the oldest entry is evicted from a full log
      let wal := if wal.config.maxEntries ≤ wal.entries.length then wal.popFront else wal
      wal.pushBack kind key data

def getEntry (sequence : ℕ) : Option StorageWalEntry :=
  match wal.entries.head? with
  | none => none
  | some front =>
    let frontSeq := front.sequence
    if sequence < frontSeq then none
    else
      let idx := sequence - frontSeq
      wal.entries[idx]?.filter fun e => e.sequence = sequence

def entriesSince (sequence : ℕ) : List StorageWalEntry :=
  wal.entries.filter fun e => sequence < e.sequence

def createCheckpoint : StorageWriteAheadLog × ℕ :=
  let cpSeq := match wal.entries.getLast? with
    | some last => last.sequence
    | none => wal.nextSequence - 1
  ({ wal with
      checkpoints := wal.checkpoints ++ [cpSeq]
      lastCheckpointTick := wal.currentTick }, cpSeq)

/-- The loop of `truncate_before`, on the entries and the total. -/
def truncateLoop (sequence : ℕ) : List StorageWalEntry → ℕ → List StorageWalEntry × ℕ
  | [], total => ([], total)
  | front :: rest, total =>
    if front.sequence < sequence then truncateLoop sequence rest (total - front.data.length)
    else (front :: rest, total)

def truncateBefore (sequence : ℕ) : StorageWriteAheadLog :=
  let (entries, totalDataBytes) := truncateLoop sequence wal.entries wal.totalDataBytes
  { wal with entries := entries, totalDataBytes := totalDataBytes }

def replayFromCheckpoint (checkpointIdx : ℕ) : Except String (List StorageWalEntry) :=
  match wal.checkpoints[checkpointIdx]? with
  | none => .error s!"checkpoint index {checkpointIdx} out of range (have {wal.checkpoints.length})"
  | some cpSeq => .ok (wal.entriesSince cpSeq)

def tick : StorageWriteAheadLog × Except WalFault Unit :=
  match addU64 wal.currentTick 1 with
  | .error _ => (wal, .error (.panic "attempt to add with overflow"))
  | .ok currentTick => ({ wal with currentTick := currentTick }, .ok ())

end StorageWriteAheadLog

/-! ### Runs -/

/-- What was appended, under the sequence numbers that were returned. -/
abbrev Appended := List (ℕ × StorageWalEntry)

/-- The logs that calls make of a new one, with all that was appended, and how much of it when each
checkpoint was made. -/
inductive Run (config : WalConfig) : Appended → List ℕ → StorageWriteAheadLog → Prop
  | new : Run config [] [] (.new config)
  | append {appended : Appended} {marks : List ℕ} {wal wal' : StorageWriteAheadLog}
      {kind : WalEntryKind} {key : String} {data : Bytes} {seq : ℕ}
      (h : Run config appended marks wal) (hop : wal.append kind key data = (wal', .ok seq)) :
      Run config (appended ++ [(seq, ⟨seq, kind, key, data, wal.currentTick⟩)]) marks wal'
  | appendFailed {appended : Appended} {marks : List ℕ} {wal wal' : StorageWriteAheadLog}
      {kind : WalEntryKind} {key : String} {data : Bytes} {e : WalFault}
      (h : Run config appended marks wal) (hop : wal.append kind key data = (wal', .error e)) :
      Run config appended marks wal'
  | createCheckpoint {appended : Appended} {marks : List ℕ} {wal : StorageWriteAheadLog}
      (h : Run config appended marks wal) :
      Run config appended (marks ++ [appended.length]) wal.createCheckpoint.1
  | truncateBefore {appended : Appended} {marks : List ℕ} {wal : StorageWriteAheadLog}
      (h : Run config appended marks wal) (sequence : ℕ) :
      Run config appended marks (wal.truncateBefore sequence)
  | tick {appended : Appended} {marks : List ℕ} {wal : StorageWriteAheadLog}
      (h : Run config appended marks wal) : Run config appended marks wal.tick.1

/-! ### What the operations do to the entries -/

/-- The data bytes of entries. -/
def dataBytes (entries : List StorageWalEntry) : ℕ := (entries.map fun e => e.data.length).sum

/-- A log that has lost entries at the front, and no more than their bytes. -/
structure Cut (wal wal' : StorageWriteAheadLog) : Prop where
  suffix : wal'.entries <:+ wal.entries
  bytes_eq : wal'.totalDataBytes = dataBytes wal'.entries
  rest : wal' = { wal with entries := wal'.entries, totalDataBytes := wal'.totalDataBytes }

section Operations

open StorageWriteAheadLog (truncateLoop)

variable {wal wal' : StorageWriteAheadLog}

theorem dataBytes_le_of_suffix {l l' : List StorageWalEntry} (h : l' <:+ l) :
    dataBytes l' ≤ dataBytes l := by
  obtain ⟨front, rfl⟩ := h
  unfold dataBytes
  rw [List.map_append, List.sum_append]
  exact Nat.le_add_left _ _

theorem dataBytes_cons_sub (front : StorageWalEntry) (rest : List StorageWalEntry) :
    dataBytes (front :: rest) - front.data.length = dataBytes rest := by
  rw [dataBytes, List.map_cons, List.sum_cons, Nat.add_sub_cancel_left]
  rfl

theorem Cut.totalDataBytes_le (h : Cut wal wal')
    (hbytes : wal.totalDataBytes = dataBytes wal.entries) :
    wal'.totalDataBytes ≤ wal.totalDataBytes := by
  rw [hbytes, h.bytes_eq]
  exact dataBytes_le_of_suffix h.suffix

theorem popFront_cut (h : wal.totalDataBytes = dataBytes wal.entries) : Cut wal wal.popFront := by
  unfold StorageWriteAheadLog.popFront
  split
  · exact ⟨List.suffix_rfl, h, rfl⟩
  · next evicted rest hentries =>
    refine ⟨?_, ?_, rfl⟩
    · rw [hentries]
      exact List.suffix_cons evicted rest
    · rw [hentries] at h
      show wal.totalDataBytes - evicted.data.length = dataBytes rest
      rw [h]
      exact dataBytes_cons_sub evicted rest

theorem length_popFront (wal : StorageWriteAheadLog) :
    wal.popFront.entries.length = wal.entries.length - 1 := by
  unfold StorageWriteAheadLog.popFront
  split
  · next h => rw [h]; rfl
  · next h => rw [h]; rfl

/-- The loop takes entries off the front, and their bytes off the total. -/
theorem truncateLoop_spec (sequence : ℕ) (entries : List StorageWalEntry) {total : ℕ}
    (h : total = dataBytes entries) :
    (truncateLoop sequence entries total).1 <:+ entries ∧
      (truncateLoop sequence entries total).2 =
        dataBytes (truncateLoop sequence entries total).1 := by
  induction entries generalizing total with
  | nil => exact ⟨List.suffix_rfl, h⟩
  | cons front rest ih =>
    unfold truncateLoop
    split
    · -- the front entry is below the limit
      have htotal : total - front.data.length = dataBytes rest := by
        rw [h]
        exact dataBytes_cons_sub front rest
      obtain ⟨hsuffix, hbytes⟩ := ih htotal
      exact ⟨hsuffix.trans (List.suffix_cons front rest), hbytes⟩
    · exact ⟨List.suffix_rfl, h⟩

theorem truncateBefore_cut (h : wal.totalDataBytes = dataBytes wal.entries) (sequence : ℕ) :
    Cut wal (wal.truncateBefore sequence) := by
  obtain ⟨hsuffix, hbytes⟩ := truncateLoop_spec sequence wal.entries h
  exact ⟨hsuffix, hbytes, rfl⟩

variable {kind : WalEntryKind} {key : String} {data : Bytes} {r : Except WalFault ℕ}

/-- An entry is added with the next number, or the number cannot be raised. -/
theorem pushBack_spec (hsum : wal.totalDataBytes + data.length < 2 ^ 64)
    (h : wal.pushBack kind key data = (wal', r)) :
    (∃ e, r = .error e) ∧ wal' = wal ∨ r = .ok wal.nextSequence ∧ wal' = { wal with
      nextSequence := wal.nextSequence + 1
      entries := wal.entries ++ [⟨wal.nextSequence, kind, key, data, wal.currentTick⟩]
      totalDataBytes := wal.totalDataBytes + data.length } := by
  unfold StorageWriteAheadLog.pushBack at h
  dsimp only at h
  by_cases hnext : wal.nextSequence + 1 < 2 ^ 64
  · have hadd : addU64 wal.nextSequence 1 = .ok (wal.nextSequence + 1) := if_pos hnext
    have htotal : addU64 wal.totalDataBytes data.length = .ok (wal.totalDataBytes + data.length) :=
      if_pos hsum
    rw [hadd] at h
    dsimp only at h
    rw [htotal] at h
    obtain ⟨rfl, rfl⟩ := Prod.mk.inj h
    exact Or.inr ⟨rfl, rfl⟩
  · -- the number is raised first, so nothing has changed yet
    have hadd : addU64 wal.nextSequence 1 = .error (.panic "attempt to add with overflow") :=
      if_neg hnext
    rw [hadd] at h
    obtain ⟨rfl, rfl⟩ := Prod.mk.inj h
    exact Or.inl ⟨⟨_, rfl⟩, rfl⟩

/-- **`append`** changes nothing, or it evicts the front entry of a full log and then adds the
entry, unless the number cannot be raised. -/
theorem append_spec (hbytes : wal.totalDataBytes = dataBytes wal.entries)
    (h : wal.append kind key data = (wal', r)) :
    (∃ e, r = .error e) ∧ wal' = wal ∨
    ∃ wal₁, Cut wal wal₁ ∧ (1 ≤ wal.config.maxEntries → wal.entries.length ≤ wal.config.maxEntries →
        wal₁.entries.length < wal.config.maxEntries) ∧
      wal.totalDataBytes + data.length ≤ wal.config.maxDataBytes ∧
      ((∃ e, r = .error e) ∧ wal' = wal₁ ∨ r = .ok wal₁.nextSequence ∧ wal' = { wal₁ with
        nextSequence := wal₁.nextSequence + 1
        entries := wal₁.entries ++ [⟨wal₁.nextSequence, kind, key, data, wal₁.currentTick⟩]
        totalDataBytes := wal₁.totalDataBytes + data.length }) := by
  unfold StorageWriteAheadLog.append at h
  by_cases hsum : wal.totalDataBytes + data.length < 2 ^ 64
  · have hadd : addU64 wal.totalDataBytes data.length = .ok (wal.totalDataBytes + data.length) :=
      if_pos hsum
    rw [hadd] at h
    dsimp only at h
    split at h
    · obtain ⟨rfl, rfl⟩ := Prod.mk.inj h
      exact Or.inl ⟨⟨_, rfl⟩, rfl⟩
    · next hlimit =>
      refine Or.inr ?_
      have hmax : wal.totalDataBytes + data.length ≤ wal.config.maxDataBytes := Nat.not_lt.mp hlimit
      -- the log that is left when a full one has lost its front entry
      have hroom : ∃ wal₁, Cut wal wal₁ ∧ (1 ≤ wal.config.maxEntries →
          wal.entries.length ≤ wal.config.maxEntries →
            wal₁.entries.length < wal.config.maxEntries) ∧
          wal₁.pushBack kind key data = (wal', r) := by
        split at h
        · refine ⟨_, popFront_cut hbytes, fun hone hle => ?_, h⟩
          rw [length_popFront]
          omega
        · next hlt => exact ⟨wal, ⟨List.suffix_rfl, hbytes, rfl⟩, fun _ _ => Nat.not_le.mp hlt, h⟩
      obtain ⟨wal₁, hcut, hlength, hpush⟩ := hroom
      have hle : wal₁.totalDataBytes ≤ wal.totalDataBytes := hcut.totalDataBytes_le hbytes
      exact ⟨wal₁, hcut, hlength, hmax, pushBack_spec (by omega) hpush⟩
  · have hadd : addU64 wal.totalDataBytes data.length =
        .error (.panic "attempt to add with overflow") := if_neg hsum
    rw [hadd] at h
    obtain ⟨rfl, rfl⟩ := Prod.mk.inj h
    exact Or.inl ⟨⟨_, rfl⟩, rfl⟩

end Operations

/-! ### What a run keeps -/

/-- **The invariant** of a log, with what was appended and where the checkpoints are. -/
structure Inv (config : WalConfig) (appended : Appended) (marks : List ℕ)
    (wal : StorageWriteAheadLog) : Prop where
  config_eq : wal.config = config
  numbered : Numbered Prod.fst 1 appended
  named : ∀ x ∈ appended, x.2.sequence = x.1
  suffix : wal.entries <:+ appended.map Prod.snd
  next_eq : wal.nextSequence = appended.length + 1
  bytes_eq : wal.totalDataBytes = dataBytes wal.entries
  bytes_le : wal.totalDataBytes ≤ config.maxDataBytes
  count_le : wal.entries.length ≤ config.maxEntries
  checkpoints_eq : wal.checkpoints = marks

section Steps

variable {config : WalConfig} {appended : Appended} {marks : List ℕ}
  {wal wal' : StorageWriteAheadLog}

theorem Inv.new (config : WalConfig) : Inv config [] [] (.new config) where
  config_eq := rfl
  numbered := rfl
  named _ hx := absurd hx List.not_mem_nil
  suffix := List.suffix_rfl
  next_eq := rfl
  bytes_eq := rfl
  bytes_le := Nat.zero_le _
  count_le := Nat.zero_le _
  checkpoints_eq := rfl

theorem Inv.cut (h : Inv config appended marks wal) (hcut : Cut wal wal') :
    Inv config appended marks wal' := by
  have hle : wal'.totalDataBytes ≤ wal.totalDataBytes := hcut.totalDataBytes_le h.bytes_eq
  refine ⟨?_, h.numbered, h.named, hcut.suffix.trans h.suffix, ?_, hcut.bytes_eq,
    hle.trans h.bytes_le, hcut.suffix.length_le.trans h.count_le, ?_⟩
  · rw [hcut.rest]
    exact h.config_eq
  · rw [hcut.rest]
    exact h.next_eq
  · rw [hcut.rest]
    exact h.checkpoints_eq

theorem Inv.numbered_appended (h : Inv config appended marks wal) :
    Numbered StorageWalEntry.sequence 1 (appended.map Prod.snd) := by
  unfold Numbered
  rw [List.map_map, List.length_map, ← h.numbered]
  exact List.map_congr_left h.named

/-- The entries are numbered, up to the last number that was given. -/
theorem Inv.numbered_entries (h : Inv config appended marks wal) :
    Numbered StorageWalEntry.sequence (wal.nextSequence - wal.entries.length) wal.entries := by
  have hall := h.numbered_appended
  obtain ⟨front, hfront⟩ := h.suffix
  rw [← hfront] at hall
  have hlength := congrArg List.length hfront
  rw [List.length_append, List.length_map] at hlength
  have hstart : wal.nextSequence - wal.entries.length = 1 + front.length := by
    rw [h.next_eq]
    omega
  rw [hstart]
  exact hall.of_append

theorem Inv.length_le (h : Inv config appended marks wal) :
    wal.entries.length ≤ appended.length := by
  have hle := h.suffix.length_le
  rwa [List.length_map] at hle

theorem Inv.createCheckpoint (h : Inv config appended marks wal) :
    Inv config appended (marks ++ [appended.length]) wal.createCheckpoint.1 := by
  have hseq : wal.createCheckpoint.2 = appended.length := by
    unfold StorageWriteAheadLog.createCheckpoint
    dsimp only
    cases hlast : wal.entries.getLast? with
    | none =>
      dsimp only
      rw [h.next_eq, Nat.add_sub_cancel]
    | some last =>
      -- the last entry has the last number
      rw [List.getLast?_eq_getElem?] at hlast
      have hnum := h.numbered_entries.getElem? hlast
      have hpos : 0 < wal.entries.length :=
        List.length_pos_of_mem (List.mem_of_getElem? hlast)
      have hle := h.length_le
      dsimp only
      rw [hnum, h.next_eq]
      omega
  refine ⟨h.config_eq, h.numbered, h.named, h.suffix, h.next_eq, h.bytes_eq, h.bytes_le,
    h.count_le, ?_⟩
  change wal.checkpoints ++ [wal.createCheckpoint.2] = _
  rw [hseq, h.checkpoints_eq]

variable {data : Bytes} {kind : WalEntryKind} {key : String}

theorem Inv.push (h : Inv config appended marks wal)
    (hroom : wal.entries.length < config.maxEntries)
    (hmax : wal.totalDataBytes + data.length ≤ config.maxDataBytes) (kind : WalEntryKind)
    (key : String) :
    let entry : StorageWalEntry := ⟨wal.nextSequence, kind, key, data, wal.currentTick⟩
    Inv config (appended ++ [(wal.nextSequence, entry)]) marks { wal with
      nextSequence := wal.nextSequence + 1
      entries := wal.entries ++ [entry]
      totalDataBytes := wal.totalDataBytes + data.length } := by
  intro entry
  refine ⟨h.config_eq, h.numbered.concat ?_, fun x hx => ?_, ?_, ?_, ?_, hmax, ?_,
    h.checkpoints_eq⟩
  · show wal.nextSequence = _
    rw [h.next_eq, Nat.add_comm]
  · rcases List.mem_append.mp hx with hx | hx
    · exact h.named x hx
    · rw [List.mem_singleton.mp hx]
  · -- what was evicted stays evicted
    obtain ⟨front, hfront⟩ := h.suffix
    refine ⟨front, ?_⟩
    rw [List.map_append, ← hfront, List.append_assoc]
    rfl
  · rw [List.length_append, h.next_eq]
    rfl
  · show wal.totalDataBytes + data.length = dataBytes (wal.entries ++ [entry])
    rw [h.bytes_eq, dataBytes, dataBytes, List.map_append, List.sum_append]
    rfl
  · show (wal.entries ++ [entry]).length ≤ _
    rw [List.length_append]
    exact hroom

theorem Inv.append (h : Inv config appended marks wal) (hone : 1 ≤ config.maxEntries) {seq : ℕ}
    (hop : wal.append kind key data = (wal', .ok seq)) :
    Inv config (appended ++ [(seq, ⟨seq, kind, key, data, wal.currentTick⟩)]) marks wal' := by
  obtain ⟨⟨e, he⟩, -⟩ | ⟨wal₁, hcut, hroom, hmax, hpush⟩ := append_spec h.bytes_eq hop
  · exact absurd he (by simp)
  -- the entry is added to the log that has lost its front entry, if it was full
  have hinv := h.cut hcut
  have hle : wal₁.totalDataBytes ≤ wal.totalDataBytes := hcut.totalDataBytes_le h.bytes_eq
  have htick : wal.currentTick = wal₁.currentTick := by rw [hcut.rest]
  rw [h.config_eq] at hroom hmax
  obtain ⟨⟨e, he⟩, -⟩ | ⟨hseq, rfl⟩ := hpush
  · exact absurd he (by simp)
  · obtain rfl := Except.ok.inj hseq
    rw [htick]
    exact hinv.push (hroom hone h.count_le) (by omega) kind key

theorem Inv.appendFailed (h : Inv config appended marks wal) {e : WalFault}
    (hop : wal.append kind key data = (wal', .error e)) : Inv config appended marks wal' := by
  obtain ⟨-, rfl⟩ | ⟨wal₁, hcut, -, -, hpush⟩ := append_spec h.bytes_eq hop
  · exact h
  · obtain ⟨-, rfl⟩ | ⟨hok, -⟩ := hpush
    · exact h.cut hcut
    · exact absurd hok (by simp)

theorem Inv.tick (h : Inv config appended marks wal) :
    Inv config appended marks wal.tick.1 := by
  unfold StorageWriteAheadLog.tick
  split
  · exact h
  · exact ⟨h.config_eq, h.numbered, h.named, h.suffix, h.next_eq, h.bytes_eq, h.bytes_le,
      h.count_le, h.checkpoints_eq⟩

theorem Run.inv (h : Run config appended marks wal) (hone : 1 ≤ config.maxEntries) :
    Inv config appended marks wal := by
  induction h with
  | new => exact .new config
  | append _ hop ih => exact ih.append hone hop
  | appendFailed _ hop ih => exact ih.appendFailed hop
  | createCheckpoint _ ih => exact ih.createCheckpoint
  | truncateBefore _ sequence ih => exact ih.cut (truncateBefore_cut ih.bytes_eq sequence)
  | tick _ ih => exact ih.tick

/-- **`get_entry`** finds the retained entry of a number by its index. -/
theorem Inv.getEntry_iff (h : Inv config appended marks wal) {sequence : ℕ}
    {entry : StorageWalEntry} :
    wal.getEntry sequence = some entry ↔ entry ∈ wal.entries ∧ entry.sequence = sequence := by
  have hnumbered := h.numbered_entries
  unfold StorageWriteAheadLog.getEntry
  cases hfront : wal.entries.head? with
  | none =>
    rw [List.head?_eq_none_iff.mp hfront]
    simp
  | some front =>
    rw [List.head?_eq_getElem?] at hfront
    have hnum := hnumbered.getElem? hfront
    rw [Nat.add_zero] at hnum
    dsimp only
    rw [hnum]
    split
    · -- below the front entry nothing is retained
      next hlt =>
      refine ⟨fun hnone => absurd hnone (by simp), fun ⟨hmem, hseq⟩ => ?_⟩
      have hle := (hnumbered.mem hmem).1
      omega
    · -- the index is the distance to the front entry
      next hle =>
      rw [Option.filter_eq_some_iff, hnumbered.getElem?_iff (Nat.not_lt.mp hle),
        decide_eq_true_eq]
      exact ⟨fun hentry => hentry.1, fun hentry => ⟨hentry, hentry.2⟩⟩

/-- **The entries since a checkpoint** are the retained ones among those appended after it. -/
theorem Inv.entriesSince_eq (h : Inv config appended marks wal) (n : ℕ) :
    wal.entriesSince n = ((appended.drop n).map Prod.snd).filter (· ∈ wal.entries) := by
  have hall : Numbered StorageWalEntry.sequence 1 (appended.map Prod.snd) := h.numbered_appended
  obtain ⟨front, hfront⟩ := h.suffix
  have hretained : (appended.map Prod.snd).filter (· ∈ wal.entries) = wal.entries := by
    rw [← hfront] at hall ⊢
    exact hall.filter_suffix
  unfold StorageWriteAheadLog.entriesSince
  rw [List.map_drop, hall.drop_eq_filter, List.filter_comm, hretained]
  congr 1
  funext e
  rw [decide_eq_decide]
  omega

end Steps

/-- **The bounded log.** In every run the retained entries have consecutive numbers up to the last
one that was given; the total is the sum of their lengths and within the limit, and so is their
count; `get_entry` answers with the entry that was appended under a number exactly when it is
retained, and a replay with the retained entries that were appended after the checkpoint. -/
theorem Run.bounded {config : WalConfig} {appended : Appended} {marks : List ℕ}
    {wal : StorageWriteAheadLog} (h : Run config appended marks wal)
    (hone : 1 ≤ config.maxEntries) :
    (∃ k, k + wal.entries.length = wal.nextSequence ∧
      wal.entries.map StorageWalEntry.sequence = List.range' k wal.entries.length) ∧
    wal.totalDataBytes = (wal.entries.map fun e => e.data.length).sum ∧
    wal.totalDataBytes ≤ config.maxDataBytes ∧ wal.entries.length ≤ config.maxEntries ∧
    (∀ sequence entry, wal.getEntry sequence = some entry ↔
      (sequence, entry) ∈ appended ∧ entry ∈ wal.entries) ∧
    ∀ i, match marks[i]? with
      | some n => wal.replayFromCheckpoint i =
          .ok (((appended.drop n).map Prod.snd).filter (· ∈ wal.entries))
      | none => ∃ e, wal.replayFromCheckpoint i = .error e := by
  have hinv := h.inv hone
  refine ⟨⟨_, ?_, hinv.numbered_entries⟩, hinv.bytes_eq, hinv.bytes_le, hinv.count_le,
    fun sequence entry => ?_, fun i => ?_⟩
  · -- the first number that is retained, and how many there are
    have hle := hinv.length_le
    rw [hinv.next_eq]
    omega
  · rw [hinv.getEntry_iff]
    constructor
    · rintro ⟨hmem, rfl⟩
      obtain ⟨x, hx, rfl⟩ := List.mem_map.mp (hinv.suffix.subset hmem)
      rw [hinv.named x hx]
      exact ⟨hx, hmem⟩
    · rintro ⟨happended, hmem⟩
      exact ⟨hmem, hinv.named _ happended⟩
  · unfold StorageWriteAheadLog.replayFromCheckpoint
    rw [hinv.checkpoints_eq]
    cases marks[i]? with
    | none => exact ⟨_, rfl⟩
    | some n => exact congrArg Except.ok (hinv.entriesSince_eq n)

/-- Three entries in a log of two, with a checkpoint after the first, which is evicted. -/
theorem Run.bounded_two : ∃ (appended : Appended) (marks : List ℕ) (wal : StorageWriteAheadLog),
    Run ⟨2, 100, 50⟩ appended marks wal ∧
      wal.replayFromCheckpoint 0 = .ok [⟨2, .delete, "a", [], 1⟩, ⟨3, .put, "b", [2, 3], 1⟩] ∧
      wal.getEntry 1 = none ∧ wal.totalDataBytes = 2 := by
  let e₁ : StorageWalEntry := ⟨1, .put, "a", [1], 0⟩
  let e₂ : StorageWalEntry := ⟨2, .delete, "a", [], 1⟩
  let e₃ : StorageWalEntry := ⟨3, .put, "b", [2, 3], 1⟩
  let config : WalConfig := ⟨2, 100, 50⟩
  let wal₁ : StorageWriteAheadLog := ⟨config, [e₁], 2, 0, 1, [], 0⟩
  let wal₂ : StorageWriteAheadLog := ⟨config, [e₁], 2, 1, 1, [1], 0⟩
  let wal₃ : StorageWriteAheadLog := ⟨config, [e₁, e₂], 3, 1, 1, [1], 0⟩
  let wal₄ : StorageWriteAheadLog := ⟨config, [e₂, e₃], 4, 1, 2, [1], 0⟩
  have h₁ : Run config [(1, e₁)] [] wal₁ :=
    Run.new.append (rfl : (StorageWriteAheadLog.new config).append .put "a" [1] = (wal₁, .ok 1))
  have h₂ : Run config [(1, e₁)] [1] wal₂ := h₁.createCheckpoint.tick
  have h₃ : Run config [(1, e₁), (2, e₂)] [1] wal₃ :=
    h₂.append (rfl : wal₂.append .delete "a" [] = (wal₃, .ok 2))
  have h₄ : Run config [(1, e₁), (2, e₂), (3, e₃)] [1] wal₄ :=
    h₃.append (rfl : wal₃.append .put "b" [2, 3] = (wal₄, .ok 3))
  have hentries : wal₄.entries = [e₂, e₃] := rfl
  clear_value wal₄
  obtain ⟨-, htotal, -, -, hget, hreplay⟩ := Run.bounded h₄ (by decide)
  rw [hentries] at htotal
  refine ⟨_, _, wal₄, h₄, ?_, ?_, htotal⟩
  · have hreplay₀ : wal₄.replayFromCheckpoint 0 = .ok ([e₂, e₃].filter (· ∈ wal₄.entries)) :=
      hreplay 0
    rw [hreplay₀, hentries]
    rfl
  · -- the first entry has been appended, and is not retained
    cases hentry : wal₄.getEntry 1 with
    | none => rfl
    | some entry =>
      obtain ⟨happended, hmem⟩ := (hget 1 entry).mp hentry
      rw [hentries] at hmem
      have hnone : ∀ e ∈ [e₂, e₃], (1, e) ∉ [(1, e₁), (2, e₂), (3, e₃)] := by decide
      exact absurd happended (hnone entry hmem)

end Ipfrs.StorageWal
