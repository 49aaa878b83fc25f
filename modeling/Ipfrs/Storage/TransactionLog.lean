import Ipfrs.Core.Cid
import Ipfrs.Lib.AssocMap

/-!
# The transaction log

`StorageTransactionLog` (`ipfrs-storage/src/transaction_log.rs`): transactions that are open are in
a map, and committed ones in a queue of bounded length, for consumers that replay them.

Identifiers are given at `begin`, but a transaction enters the queue at `commit`. `replay_committed`
filters the queue and does not sort it. Identifiers and counters are 64-bit numbers in the source,
here numbers that do not wrap.

* `Trace` — the log with what has been appended and committed so far, and a consumer that polls with
  the largest identifier it has seen;
* `Bookkept` — the invariant of every run: the queue holds the last commits with their operations;
* `replaysRight_iff` — in every state of a run, a replay is ascending and a consumer misses nothing,
  exactly when every commit has a greater identifier than those in the queue.
-/

namespace Ipfrs

abbrev TransactionId := ℕ

inductive TxError where
  | transactionNotFound (id : TransactionId)
  | transactionNotActive (id : TransactionId)
  | transactionAlreadyEnded (id : TransactionId)
  deriving DecidableEq, Repr

inductive TxOperation where
  | put (key : String) (value : Bytes) (prevValue : Option Bytes)
  | delete (key : String) (prevValue : Bytes)
  | batchPut (entries : List (String × Bytes))
  deriving DecidableEq, Repr

inductive TransactionStatus where
  | active
  | committed
  | rolledBack
  | aborted
  deriving DecidableEq, Repr

structure Transaction where
  id : TransactionId
  operations : List TxOperation
  status : TransactionStatus
  startedAt : ℕ
  endedAt : Option ℕ
  deriving DecidableEq, Repr

namespace Transaction

def new (id : TransactionId) (startedAt : ℕ) : Transaction where
  id := id
  operations := []
  status := .active
  startedAt := startedAt
  endedAt := none

def isActive (tx : Transaction) : Bool := tx.status == .active

end Transaction

structure StorageTransactionLog where
  transactions : List Transaction
  active : AList fun _ : TransactionId => Transaction
  nextId : TransactionId
  maxCommitted : ℕ
  committedCount : ℕ
  rolledBackCount : ℕ

namespace StorageTransactionLog

def new (maxCommitted : ℕ) : StorageTransactionLog where
  transactions := []
  active := ∅
  nextId := 1
  maxCommitted := maxCommitted
  committedCount := 0
  rolledBackCount := 0

variable (log : StorageTransactionLog)

def begin (now : ℕ) : StorageTransactionLog × TransactionId :=
  ({ log with
      nextId := log.nextId + 1
      active := log.active.insert log.nextId (.new log.nextId now) },
    log.nextId)

def append (txId : TransactionId) (op : TxOperation) :
    StorageTransactionLog × Except TxError Unit :=
  match log.active.lookup txId with
  | none => (log, .error (.transactionNotFound txId))
  | some tx =>
    if !tx.isActive then (log, .error (.transactionNotActive txId))
    else
      let tx := { tx with operations := tx.operations ++ [op] }
      ({ log with active := log.active.insert txId tx }, .ok ())

/-- The queue after the eviction in `commit`. -/
def evict : List Transaction :=
  if log.maxCommitted > 0 ∧ log.transactions.length ≥ log.maxCommitted then log.transactions.tail
  else log.transactions

def commit (txId : TransactionId) (now : ℕ) : StorageTransactionLog × Except TxError Unit :=
  match log.active.lookup txId with
  | none => (log, .error (.transactionNotFound txId))
  | some tx =>
    let removed := { log with active := log.active.erase txId }
    if !tx.isActive then
      -- put back
      ({ removed with active := removed.active.insert txId tx },
        .error (.transactionAlreadyEnded txId))
    else
      let tx := { tx with status := .committed, endedAt := some now }
      ({ removed with
          committedCount := log.committedCount + 1
          transactions := if log.maxCommitted > 0 then log.evict ++ [tx] else log.evict },
        .ok ())

def rollback (txId : TransactionId) (_now : ℕ) :
    StorageTransactionLog × Except TxError (List TxOperation) :=
  match log.active.lookup txId with
  | none => (log, .error (.transactionNotFound txId))
  | some tx =>
    let removed := { log with active := log.active.erase txId }
    if !tx.isActive then
      ({ removed with active := removed.active.insert txId tx },
        .error (.transactionAlreadyEnded txId))
    else
      ({ removed with rolledBackCount := log.rolledBackCount + 1 }, .ok tx.operations.reverse)

def abort (txId : TransactionId) (_now : ℕ) : StorageTransactionLog × Except TxError Unit :=
  match log.active.lookup txId with
  | none => (log, .error (.transactionNotFound txId))
  | some tx =>
    let removed := { log with active := log.active.erase txId }
    if !tx.isActive then
      ({ removed with active := removed.active.insert txId tx },
        .error (.transactionAlreadyEnded txId))
    else (removed, .ok ())

def replayCommitted (sinceId : TransactionId) : List Transaction :=
  log.transactions.filter fun tx => tx.id > sinceId

/-! ### Runs -/

/-- What can happen to a log; `poll` is a consumer that replays from the largest identifier it has
seen. -/
inductive Act where
  | begin (now : ℕ)
  | append (txId : TransactionId) (op : TxOperation)
  | commit (txId : TransactionId) (now : ℕ)
  | rollback (txId : TransactionId) (now : ℕ)
  | abort (txId : TransactionId) (now : ℕ)
  | poll
  deriving DecidableEq, Repr

/-- A log, with the appends and commits that have succeeded so far, the largest identifier that the
consumer has seen, and what it has received. -/
structure Trace where
  log : StorageTransactionLog
  appended : List (TransactionId × TxOperation)
  committed : List TransactionId
  seen : TransactionId
  received : List Transaction

namespace Trace

/-- The trace of a new log. -/
def new (maxCommitted : ℕ) : Trace where
  log := StorageTransactionLog.new maxCommitted
  appended := []
  committed := []
  seen := 0
  received := []

variable (t : Trace)

/-- The trace after something has happened. -/
def step : Act → Trace
  | .begin now => { t with log := (t.log.begin now).1 }
  | .append txId op =>
    match t.log.append txId op with
    | (log, .ok ()) => { t with log := log, appended := t.appended ++ [(txId, op)] }
    | (log, .error _) => { t with log := log }
  | .commit txId now =>
    match t.log.commit txId now with
    | (log, .ok ()) => { t with log := log, committed := t.committed ++ [txId] }
    | (log, .error _) => { t with log := log }
  | .rollback txId now => { t with log := (t.log.rollback txId now).1 }
  | .abort txId now => { t with log := (t.log.abort txId now).1 }
  | .poll =>
    let replayed := t.log.replayCommitted t.seen
    { t with
        seen := (replayed.map Transaction.id).foldl max t.seen
        received := t.received ++ replayed }

/-- The trace after a run. -/
def run (acts : List Act) : Trace := acts.foldl step t

/-- The operations appended to a transaction, in their order. -/
def appendedTo (id : TransactionId) : List TxOperation :=
  (t.appended.filter fun e => e.1 = id).map Prod.snd

/-- The commits that are retained: the last ones, as many as the log keeps. -/
def retained : List TransactionId :=
  t.committed.drop (t.committed.length - t.log.maxCommitted)

/-- **Replays are right**: they give the retained transactions after an identifier, ascending and
with their operations; and when nothing has been evicted, what the consumer has received and what it
would receive next are all committed transactions, each once. -/
def ReplaysRight : Prop :=
  (∀ since,
    (∀ id, id ∈ (t.log.replayCommitted since).map Transaction.id ↔ id ∈ t.retained ∧ since < id) ∧
    ((t.log.replayCommitted since).map Transaction.id).Pairwise (· < ·) ∧
    ∀ tx ∈ t.log.replayCommitted since, tx.operations = t.appendedTo tx.id) ∧
  (t.committed.length ≤ t.log.maxCommitted →
    ((t.received ++ t.log.replayCommitted t.seen).map fun tx => (tx.id, tx.operations)).Perm
      (t.committed.map fun id => (id, t.appendedTo id)))

/-- **The commits come in order**: a transaction that commits has a greater identifier than those
that stay in the queue. -/
def InOrder : Act → Prop
  | .commit txId _ => txId ∈ t.log.active → ∀ tx ∈ t.log.evict, tx.id < txId
  | _ => True

/-- What holds in every run. -/
structure Bookkept (t : Trace) : Prop where
  active : ∀ id tx, t.log.active.lookup id = some tx →
    tx.id = id ∧ tx.isActive = true ∧ tx.operations = t.appendedTo id ∧ id ∉ t.committed ∧
      0 < id ∧ id < t.log.nextId
  queue : t.log.transactions.map Transaction.id = t.retained
  operations : ∀ tx ∈ t.log.transactions, tx.operations = t.appendedTo tx.id
  committed : ∀ id ∈ t.committed, 0 < id ∧ id < t.log.nextId
  appended : ∀ e ∈ t.appended, e.1 < t.log.nextId
  nextId : 0 < t.log.nextId

variable {t : Trace} {acts : List Act} {id txId : TransactionId} {tx : Transaction}
  {op : TxOperation} {now : ℕ} {a : Act}

/-! ### What a step can do -/

theorem step_append_of_lookup_eq_none (h : t.log.active.lookup txId = none) (op : TxOperation) :
    t.step (.append txId op) = t := by
  rw [step, StorageTransactionLog.append, h]

theorem step_append (h : t.log.active.lookup txId = some tx) (hactive : tx.isActive = true)
    (op : TxOperation) :
    t.step (.append txId op) =
      { t with
          log :=
            { t.log with
                active :=
                  t.log.active.insert txId { tx with operations := tx.operations ++ [op] } }
          appended := t.appended ++ [(txId, op)] } := by
  have happend : t.log.append txId op =
      ({ t.log with
          active := t.log.active.insert txId { tx with operations := tx.operations ++ [op] } },
        .ok ()) := by
    rw [StorageTransactionLog.append, h]
    dsimp only
    rw [hactive]
    rfl
  rw [step, happend]

theorem step_commit_of_lookup_eq_none (h : t.log.active.lookup txId = none) (now : ℕ) :
    t.step (.commit txId now) = t := by
  rw [step, StorageTransactionLog.commit, h]

theorem step_commit (h : t.log.active.lookup txId = some tx) (hactive : tx.isActive = true)
    (now : ℕ) :
    t.step (.commit txId now) =
      { t with
          log :=
            { t.log with
                active := t.log.active.erase txId
                committedCount := t.log.committedCount + 1
                transactions :=
                  if t.log.maxCommitted > 0 then
                    t.log.evict ++ [{ tx with status := .committed, endedAt := some now }]
                  else t.log.evict }
          committed := t.committed ++ [txId] } := by
  have hcommit : t.log.commit txId now =
      ({ t.log with
          active := t.log.active.erase txId
          committedCount := t.log.committedCount + 1
          transactions :=
            if t.log.maxCommitted > 0 then
              t.log.evict ++ [{ tx with status := .committed, endedAt := some now }]
            else t.log.evict },
        .ok ()) := by
    rw [StorageTransactionLog.commit, h]
    dsimp only
    rw [hactive]
    rfl
  rw [step, hcommit]

/-- A transaction that is rolled back or aborted leaves the map, and nothing else that a replay
reads changes. -/
theorem step_end (hact : a = .rollback txId now ∨ a = .abort txId now)
    (hactive : ∀ tx, t.log.active.lookup txId = some tx → tx.isActive = true) :
    ∃ rolledBackCount, t.step a =
      { t with
          log :=
            { t.log with
                active := t.log.active.erase txId
                rolledBackCount := rolledBackCount } } := by
  cases hlookup : t.log.active.lookup txId with
  | none =>
    refine ⟨t.log.rolledBackCount, ?_⟩
    rw [AssocMap.erase_of_lookup_eq_none hlookup]
    obtain rfl | rfl := hact
    · rw [step, rollback, hlookup]
    · rw [step, abort, hlookup]
  | some tx =>
    obtain rfl | rfl := hact
    · refine ⟨t.log.rolledBackCount + 1, ?_⟩
      rw [step, rollback, hlookup]
      dsimp only
      rw [hactive tx hlookup]
      rfl
    · refine ⟨t.log.rolledBackCount, ?_⟩
      rw [step, abort, hlookup]
      dsimp only
      rw [hactive tx hlookup]
      rfl

/-! ### The invariant of every run -/

theorem bookkept_new (maxCommitted : ℕ) : Bookkept (new maxCommitted) where
  active := fun _ _ h => by cases h
  queue := List.drop_nil.symm
  operations := fun _ h => by cases h
  committed := fun _ h => by cases h
  appended := fun _ h => by cases h
  nextId := Nat.zero_lt_one

theorem Bookkept.mem_committed (h : Bookkept t) (htx : tx ∈ t.log.transactions) :
    tx.id ∈ t.committed := by
  have hmem : tx.id ∈ t.retained := h.queue ▸ List.mem_map_of_mem htx
  exact List.mem_of_mem_drop hmem

theorem Bookkept.length_transactions (h : Bookkept t) :
    t.log.transactions.length =
      t.committed.length - (t.committed.length - t.log.maxCommitted) := by
  have hlength := congrArg List.length h.queue
  rwa [List.length_map, retained, List.length_drop] at hlength

/-- **The queue after a commit** holds the last commits again. -/
theorem Bookkept.map_id_commit (h : Bookkept t) (tx' : Transaction) (hid : tx'.id = txId) :
    (if t.log.maxCommitted > 0 then t.log.evict ++ [tx'] else t.log.evict).map Transaction.id =
      (t.committed ++ [txId]).drop ((t.committed ++ [txId]).length - t.log.maxCommitted) := by
  have hlength := h.length_transactions
  have hqueue := h.queue
  rw [retained] at hqueue
  rw [evict, List.length_append, List.length_singleton]
  -- a limit of 0 keeps nothing
  by_cases hmax : t.log.maxCommitted > 0
  · rw [if_pos hmax, List.map_append, List.map_singleton, hid]
    by_cases hfull : t.committed.length ≥ t.log.maxCommitted
    · -- the oldest commit leaves
      have hevict : t.log.maxCommitted > 0 ∧ t.log.transactions.length ≥ t.log.maxCommitted :=
        ⟨hmax, by omega⟩
      have hdrop : t.committed.length + 1 - t.log.maxCommitted =
          t.committed.length - t.log.maxCommitted + 1 := by omega
      rw [if_pos hevict, List.map_tail, hqueue, List.tail_drop, hdrop,
        List.drop_append_of_le_length (by omega)]
    · have hkeep : ¬ (t.log.maxCommitted > 0 ∧
          t.log.transactions.length ≥ t.log.maxCommitted) := by omega
      have hzero : t.committed.length - t.log.maxCommitted = 0 := by omega
      have hzero' : t.committed.length + 1 - t.log.maxCommitted = 0 := by omega
      rw [if_neg hkeep, hqueue, hzero, hzero', List.drop_zero, List.drop_zero]
  · -- nothing is retained
    have hkeep : ¬ (t.log.maxCommitted > 0 ∧ t.log.transactions.length ≥ t.log.maxCommitted) :=
      fun h => hmax h.1
    have hnil : t.log.transactions = [] := List.eq_nil_of_length_eq_zero (by omega)
    rw [if_neg hmax, if_neg hkeep, hnil, List.drop_of_length_le]
    · rfl
    · rw [List.length_append, List.length_singleton]
      omega

theorem evict_subset (log : StorageTransactionLog) : log.evict ⊆ log.transactions := by
  rw [evict]
  split
  · exact List.tail_subset _
  · exact List.Subset.refl _

theorem appendedTo_append {log : StorageTransactionLog} (t : Trace) (txId : TransactionId)
    (op : TxOperation) (id : TransactionId) :
    ({ t with log := log, appended := t.appended ++ [(txId, op)] } : Trace).appendedTo id =
      if id = txId then t.appendedTo id ++ [op] else t.appendedTo id := by
  rw [appendedTo, List.filter_append, List.map_append]
  by_cases hid : id = txId
  · subst hid
    have hown : ([(id, op)] : List (TransactionId × TxOperation)).filter (fun e => e.1 = id) =
        [(id, op)] := List.filter_cons_of_pos (decide_eq_true rfl)
    rw [if_pos rfl, hown]
    rfl
  · rw [if_neg hid, List.filter_cons_of_neg (by simpa using Ne.symm hid)]
    exact List.append_nil _

theorem Bookkept.appendedTo_nextId (h : Bookkept t) : t.appendedTo t.log.nextId = [] := by
  rw [appendedTo, List.map_eq_nil_iff, List.filter_eq_nil_iff]
  intro e he heq
  exact Nat.lt_irrefl _ (of_decide_eq_true heq ▸ h.appended e he)

/-- A transaction that begins has an identifier that is not in use. -/
theorem Bookkept.step_begin (h : Bookkept t) (now : ℕ) : Bookkept (t.step (.begin now)) := by
  refine ⟨fun id tx hlookup => ?_, h.queue, h.operations, fun id hid => ?_, fun e he => ?_,
    Nat.succ_pos _⟩
  · obtain ⟨rfl, rfl⟩ | ⟨hne, hlookup⟩ := AssocMap.lookup_insert_eq_some.mp hlookup
    · refine ⟨rfl, rfl, h.appendedTo_nextId.symm, fun hid => ?_, h.nextId, Nat.lt_succ_self _⟩
      -- an identifier that has committed has been given out before
      exact Nat.lt_irrefl _ (h.committed _ hid).2
    · obtain ⟨hid, hactive, hops, hfresh, hpos', hlt⟩ := h.active id tx hlookup
      exact ⟨hid, hactive, hops, hfresh, hpos', Nat.lt_succ_of_lt hlt⟩
  · exact ⟨(h.committed id hid).1, Nat.lt_succ_of_lt (h.committed id hid).2⟩
  · exact Nat.lt_succ_of_lt (h.appended e he)

/-- An operation is appended to its transaction, and to no other one. -/
theorem Bookkept.step_append (h : Bookkept t) (txId : TransactionId) (op : TxOperation) :
    Bookkept (t.step (.append txId op)) := by
  cases hlookup : t.log.active.lookup txId with
  | none =>
    rw [step_append_of_lookup_eq_none hlookup]
    exact h
  | some tx =>
    obtain ⟨hid, hactive, hops, hfresh, hpos', hlt⟩ := h.active txId tx hlookup
    rw [Trace.step_append hlookup hactive]
    refine ⟨fun id tx' htx' => ?_, h.queue, fun tx' htx' => ?_, h.committed, fun e he => ?_,
      h.nextId⟩
    · rw [appendedTo_append]
      obtain ⟨rfl, rfl⟩ | ⟨hne, htx'⟩ := AssocMap.lookup_insert_eq_some.mp htx'
      · rw [if_pos rfl, ← hops]
        exact ⟨hid, hactive, rfl, hfresh, hpos', hlt⟩
      · rw [if_neg hne]
        exact h.active id tx' htx'
    · -- a committed transaction is not open
      have hne : tx'.id ≠ txId := fun heq => hfresh (heq ▸ h.mem_committed htx')
      rw [appendedTo_append, if_neg hne]
      exact h.operations tx' htx'
    · obtain he | he := List.mem_append.mp he
      · exact h.appended e he
      · rw [List.mem_singleton.mp he]
        exact hlt

theorem Bookkept.step_commit (h : Bookkept t) (txId : TransactionId) (now : ℕ) :
    Bookkept (t.step (.commit txId now)) := by
  cases hlookup : t.log.active.lookup txId with
  | none =>
    rw [step_commit_of_lookup_eq_none hlookup]
    exact h
  | some tx =>
    obtain ⟨hid, hactive, hops, -, hpos', hlt⟩ := h.active txId tx hlookup
    rw [Trace.step_commit hlookup hactive]
    refine ⟨fun id tx' htx' => ?_, h.map_id_commit _ hid, fun tx' htx' => ?_, fun id hid' => ?_,
      h.appended, h.nextId⟩
    · -- what is still open has not committed, and is not what commits now
      have hne : id ≠ txId := by
        rintro rfl
        rw [AList.lookup_erase] at htx'
        cases htx'
      obtain ⟨hid', hactive', hops', hfresh', hpos'', hlt'⟩ :=
        h.active id tx' (AssocMap.lookup_of_lookup_erase htx')
      refine ⟨hid', hactive', hops', fun hmem => ?_, hpos'', hlt'⟩
      obtain hmem | hmem := List.mem_append.mp hmem
      · exact hfresh' hmem
      · exact hne (List.mem_singleton.mp hmem)
    · -- what is left of the queue is as before, and then there may be the transaction itself
      have hkept : ∀ tx' ∈ t.log.evict, tx'.operations = t.appendedTo tx'.id :=
        fun tx' htx' => h.operations tx' (evict_subset t.log htx')
      dsimp only at htx'
      split at htx'
      · obtain htx' | htx' := List.mem_append.mp htx'
        · exact hkept tx' htx'
        · rw [List.mem_singleton.mp htx']
          show tx.operations = t.appendedTo tx.id
          rw [hid, hops]
      · exact hkept tx' htx'
    · obtain hid' | hid' := List.mem_append.mp hid'
      · exact h.committed id hid'
      · rw [List.mem_singleton.mp hid']
        exact ⟨hpos', hlt⟩

theorem Bookkept.step_end (h : Bookkept t)
    (hact : a = .rollback txId now ∨ a = .abort txId now) : Bookkept (t.step a) := by
  obtain ⟨n, hstep⟩ := Trace.step_end hact fun tx htx => (h.active txId tx htx).2.1
  rw [hstep]
  exact ⟨fun id tx' htx' => h.active id tx' (AssocMap.lookup_of_lookup_erase htx'), h.queue,
    h.operations, h.committed, h.appended, h.nextId⟩

/-- **Every step keeps the books.** -/
theorem Bookkept.step (h : Bookkept t) (a : Act) : Bookkept (t.step a) := by
  cases a with
  | begin now => exact h.step_begin now
  | append txId op => exact h.step_append txId op
  | commit txId now => exact h.step_commit txId now
  | rollback txId now => exact h.step_end (.inl rfl)
  | abort txId now => exact h.step_end (.inr rfl)
  | poll => exact ⟨h.active, h.queue, h.operations, h.committed, h.appended, h.nextId⟩

theorem run_concat (t : Trace) (acts : List Act) (a : Act) :
    t.run (acts ++ [a]) = (t.run acts).step a :=
  List.foldl_append

theorem Bookkept.run (h : Bookkept t) (acts : List Act) : Bookkept (t.run acts) := by
  induction acts generalizing t with
  | nil => exact h
  | cons a acts ih => exact ih (h.step a)

/-! ### Replays -/

theorem Bookkept.mem_replay_iff (h : Bookkept t) (since : TransactionId) :
    id ∈ (t.log.replayCommitted since).map Transaction.id ↔ id ∈ t.retained ∧ since < id := by
  rw [← h.queue, replayCommitted, List.mem_map, List.mem_map]
  constructor
  · rintro ⟨tx, htx, rfl⟩
    obtain ⟨hmem, hlt⟩ := List.mem_filter.mp htx
    exact ⟨⟨tx, hmem, rfl⟩, of_decide_eq_true hlt⟩
  · rintro ⟨⟨tx, hmem, rfl⟩, hlt⟩
    exact ⟨tx, List.mem_filter.mpr ⟨hmem, decide_eq_true hlt⟩, rfl⟩

/-- The identifiers in the queue are ascending. -/
def Ascending (t : Trace) : Prop := t.log.transactions.Pairwise fun x y => x.id < y.id

/-- The consumer has received what is in the queue up to the largest identifier it has seen. -/
structure Follows (t : Trace) : Prop where
  received : t.received = t.log.transactions.filter fun tx => tx.id ≤ t.seen
  seen : t.seen = 0 ∨ t.seen ∈ t.committed

theorem foldl_max_spec (l : List ℕ) (n : ℕ) :
    n ≤ l.foldl max n ∧ (∀ x ∈ l, x ≤ l.foldl max n) ∧ (l.foldl max n = n ∨ l.foldl max n ∈ l) := by
  induction l generalizing n with
  | nil => exact ⟨le_rfl, List.forall_mem_nil _, Or.inl rfl⟩
  | cons x l ih =>
    obtain ⟨hle, hall, hmem⟩ := ih (max n x)
    rw [List.foldl_cons]
    refine ⟨(le_max_left n x).trans hle, ?_, ?_⟩
    · rw [List.forall_mem_cons]
      exact ⟨(le_max_right n x).trans hle, hall⟩
    · obtain heq | hmem := hmem
      · rw [heq]
        refine (max_choice n x).imp_right fun h => ?_
        rw [h]
        exact List.mem_cons_self
      · exact Or.inr (List.mem_cons_of_mem x hmem)

/-- An ascending queue is what comes up to an identifier, and then what comes after it. -/
theorem filter_append_filter {txs : List Transaction} (h : txs.Pairwise fun x y => x.id < y.id)
    (since : TransactionId) :
    (txs.filter fun tx => tx.id ≤ since) ++ (txs.filter fun tx => tx.id > since) = txs := by
  induction txs with
  | nil => rfl
  | cons tx txs ih =>
    obtain ⟨hfirst, hrest⟩ := List.pairwise_cons.mp h
    -- the first one decides: when it comes too late, so do all the others
    by_cases hle : tx.id ≤ since
    · have hlate : ¬ decide (tx.id > since) = true := by
        rw [decide_eq_true_iff]
        exact Nat.not_lt_of_le hle
      rw [List.filter_cons_of_pos (p := fun tx : Transaction => tx.id ≤ since)
          (decide_eq_true hle),
        List.filter_cons_of_neg (p := fun tx : Transaction => tx.id > since) hlate,
        List.cons_append, ih hrest]
    · -- all the others come later still
      have hlater : ∀ tx' ∈ tx :: txs, tx'.id > since := by
        rw [List.forall_mem_cons]
        exact ⟨Nat.lt_of_not_le hle, fun tx' htx' => (Nat.lt_of_not_le hle).trans (hfirst tx' htx')⟩
      have hnone : (tx :: txs).filter (fun tx => tx.id ≤ since) = [] := by
        rw [List.filter_eq_nil_iff]
        intro tx' htx' hle'
        exact Nat.not_lt_of_le (of_decide_eq_true hle') (hlater tx' htx')
      have hall : (tx :: txs).filter (fun tx => tx.id > since) = tx :: txs := by
        rw [List.filter_eq_self]
        exact fun tx' htx' => decide_eq_true (hlater tx' htx')
      rw [hnone, hall, List.nil_append]

/-- What a consumer has received and would receive next is the whole queue. -/
theorem Follows.received_append (h : Follows t) (hascending : Ascending t) :
    t.received ++ t.log.replayCommitted t.seen = t.log.transactions := by
  rw [h.received]
  exact filter_append_filter hascending t.seen

/-- When nothing has been evicted, all commits are in the queue. -/
theorem retained_eq_committed (h : t.committed.length ≤ t.log.maxCommitted) :
    t.retained = t.committed := by
  rw [retained, Nat.sub_eq_zero_of_le h, List.drop_zero]

/-- **An orderly trace replays right.** -/
theorem replaysRight_of_ascending (hbooks : Bookkept t) (hascending : Ascending t)
    (hfollows : t.committed.length ≤ t.log.maxCommitted → Follows t) : ReplaysRight t := by
  refine ⟨fun since => ⟨fun id => hbooks.mem_replay_iff since, ?_, fun tx htx => ?_⟩,
    fun hall => ?_⟩
  · rw [List.pairwise_map]
    exact hascending.filter _
  · exact hbooks.operations tx (List.mem_filter.mp htx).1
  · -- what has been received and what would come next is the queue, and the queue is all commits
    rw [(hfollows hall).received_append hascending]
    refine List.Perm.of_eq ?_
    calc t.log.transactions.map (fun tx => (tx.id, tx.operations))
        = t.log.transactions.map (fun tx => (tx.id, t.appendedTo tx.id)) :=
          List.map_congr_left fun tx htx => by rw [hbooks.operations tx htx]
      _ = (t.log.transactions.map Transaction.id).map fun id => (id, t.appendedTo id) := by
          rw [List.map_map]
          rfl
      _ = t.committed.map fun id => (id, t.appendedTo id) := by
          rw [hbooks.queue, retained_eq_committed hall]

/-! ### Commits in order -/

theorem ascending_commit (h : Ascending t) {tx' : Transaction}
    (horder : ∀ tx ∈ t.log.evict, tx.id < tx'.id) :
    (if t.log.maxCommitted > 0 then t.log.evict ++ [tx'] else t.log.evict).Pairwise
      fun x y => x.id < y.id := by
  have hevict : t.log.evict.Pairwise fun x y => x.id < y.id := by
    rw [evict]
    split
    · exact h.sublist (List.tail_sublist _)
    · exact h
  split
  · rw [List.pairwise_append]
    refine ⟨hevict, List.pairwise_singleton _ _, fun x hx y hy => ?_⟩
    rw [List.mem_singleton.mp hy]
    exact horder x hx
  · exact hevict

/-- As long as nothing has been evicted, a transaction that commits late enough comes after all that
has been seen. -/
theorem Follows.step_commit (hprevious : Follows t) (hbooks : Bookkept t)
    (hlookup : t.log.active.lookup txId = some tx) (horder : ∀ tx' ∈ t.log.evict, tx'.id < txId)
    (hall : t.committed.length + 1 ≤ t.log.maxCommitted) (now : ℕ) :
    Follows (t.step (.commit txId now)) := by
  obtain ⟨hid, hactive, -, -, hpos, -⟩ := hbooks.active txId tx hlookup
  rw [Trace.step_commit hlookup hactive]
  -- nothing has been evicted
  have hlength := hbooks.length_transactions
  have hroom : ¬ (t.log.maxCommitted > 0 ∧ t.log.transactions.length ≥ t.log.maxCommitted) := by
    omega
  have hevict : t.log.evict = t.log.transactions := if_neg hroom
  -- what has been seen has committed, and is still in the queue
  have hseen : t.seen < txId := by
    obtain hzero | hmem := hprevious.seen
    · rw [hzero]
      exact hpos
    · rw [← retained_eq_committed (Nat.le_of_succ_le hall), ← hbooks.queue] at hmem
      obtain ⟨tx', htx', hid'⟩ := List.mem_map.mp hmem
      rw [← hid']
      exact horder tx' (hevict ▸ htx')
  refine ⟨?_, hprevious.seen.imp_right fun hmem => List.mem_append_left _ hmem⟩
  have hmax : t.log.maxCommitted > 0 := Nat.lt_of_lt_of_le (Nat.succ_pos _) hall
  have hlate : ¬ decide (tx.id ≤ t.seen) = true := by
    rw [hid, decide_eq_true_iff]
    exact Nat.not_le_of_lt hseen
  let own : Transaction := { tx with status := .committed, endedAt := some now }
  have hnone : [own].filter (fun tx => tx.id ≤ t.seen) = [] := List.filter_cons_of_neg hlate
  show t.received = (if t.log.maxCommitted > 0 then t.log.evict ++ [own] else _).filter
    fun tx => tx.id ≤ t.seen
  rw [if_pos hmax, hevict, List.filter_append, ← hprevious.received, hnone, List.append_nil]

theorem Follows.step_poll (hprevious : Follows t) (hbooks : Bookkept t) (hascending : Ascending t)
    (hall : t.committed.length ≤ t.log.maxCommitted) : Follows (t.step .poll) := by
  obtain ⟨hle, hmax, hfound⟩ := foldl_max_spec
    ((t.log.replayCommitted t.seen).map Transaction.id) t.seen
  refine ⟨?_, ?_⟩
  · show t.received ++ t.log.replayCommitted t.seen =
      t.log.transactions.filter fun tx =>
        tx.id ≤ ((t.log.replayCommitted t.seen).map Transaction.id).foldl max t.seen
    rw [hprevious.received_append hascending, eq_comm, List.filter_eq_self]
    intro tx htx
    apply decide_eq_true
    -- what the consumer had not seen is in the replay, whose maximum it takes
    by_cases hseen : tx.id ≤ t.seen
    · exact hseen.trans hle
    · refine hmax tx.id (List.mem_map_of_mem (List.mem_filter.mpr ⟨htx, ?_⟩))
      exact decide_eq_true (Nat.lt_of_not_le hseen)
  · obtain heq | hmem := hfound
    · have heq : (t.step .poll).seen = t.seen := heq
      rw [heq]
      exact hprevious.seen
    · obtain ⟨hretained, -⟩ := (hbooks.mem_replay_iff t.seen).mp hmem
      rw [retained_eq_committed hall] at hretained
      exact Or.inr hretained

/-- **Every commit in order keeps the queue ascending and the consumer up to date.** -/
theorem orderly_step (hbooks : Bookkept t) (horder : InOrder t a) (hascending : Ascending t)
    (hfollows : t.committed.length ≤ t.log.maxCommitted → Follows t) :
    Ascending (t.step a) ∧ ((t.step a).committed.length ≤ (t.step a).log.maxCommitted →
      Follows (t.step a)) := by
  cases a with
  | begin now => exact ⟨hascending, fun hall => ⟨(hfollows hall).received, (hfollows hall).seen⟩⟩
  | append txId op =>
    cases hlookup : t.log.active.lookup txId with
    | none =>
      rw [step_append_of_lookup_eq_none hlookup]
      exact ⟨hascending, hfollows⟩
    | some tx =>
      rw [step_append hlookup (hbooks.active txId tx hlookup).2.1]
      exact ⟨hascending, fun hall => ⟨(hfollows hall).received, (hfollows hall).seen⟩⟩
  | commit txId now =>
    cases hlookup : t.log.active.lookup txId with
    | none =>
      rw [step_commit_of_lookup_eq_none hlookup]
      exact ⟨hascending, hfollows⟩
    | some tx =>
      obtain ⟨hid, hactive, -⟩ := hbooks.active txId tx hlookup
      -- whatever was committed before has a smaller id
      have horder := horder (AssocMap.mem_of_lookup hlookup)
      have hstep := step_commit hlookup hactive now
      refine ⟨?_, fun hall => ?_⟩
      · rw [hstep]
        refine ascending_commit hascending fun tx' htx' => ?_
        show tx'.id < tx.id
        rw [hid]
        exact horder tx' htx'
      · rw [hstep] at hall
        have hall : (t.committed ++ [txId]).length ≤ t.log.maxCommitted := hall
        rw [List.length_append, List.length_singleton] at hall
        exact (hfollows (Nat.le_of_succ_le hall)).step_commit hbooks hlookup horder hall now
  | rollback txId now =>
    obtain ⟨n, hstep⟩ := step_end (t := t) (Or.inl (Eq.refl (Act.rollback txId now)))
      fun tx htx => (hbooks.active txId tx htx).2.1
    rw [hstep]
    exact ⟨hascending, fun hall => ⟨(hfollows hall).received, (hfollows hall).seen⟩⟩
  | abort txId now =>
    obtain ⟨n, hstep⟩ := step_end (t := t) (Or.inr (Eq.refl (Act.abort txId now)))
      fun tx htx => (hbooks.active txId tx htx).2.1
    rw [hstep]
    exact ⟨hascending, fun hall => ⟨(hfollows hall).received, (hfollows hall).seen⟩⟩
  | poll => exact ⟨hascending, fun hall => (hfollows hall).step_poll hbooks hascending hall⟩

theorem orderly_run (maxCommitted : ℕ) (acts : List Act)
    (horder : ∀ before a after, acts = before ++ a :: after →
      InOrder ((new maxCommitted).run before) a) :
    Ascending ((new maxCommitted).run acts) ∧
      (((new maxCommitted).run acts).committed.length ≤
        ((new maxCommitted).run acts).log.maxCommitted →
          Follows ((new maxCommitted).run acts)) := by
  induction acts using List.reverseRecOn with
  | nil => exact ⟨List.Pairwise.nil, fun _ => ⟨rfl, Or.inl rfl⟩⟩
  | append_singleton acts a ih =>
    obtain ⟨hascending, hfollows⟩ := ih fun before b after hacts =>
      horder before b (after ++ [a]) (by rw [hacts, List.append_assoc, List.cons_append])
    rw [run_concat]
    exact orderly_step ((bookkept_new maxCommitted).run acts) (horder acts a [] rfl) hascending
      hfollows

/-- **When replays are right in every state of a run**: every commit comes in order. -/
theorem replaysRight_iff (maxCommitted : ℕ) (acts : List Act) :
    (∀ before after, acts = before ++ after → ReplaysRight ((new maxCommitted).run before)) ↔
      ∀ before a after, acts = before ++ a :: after →
        InOrder ((new maxCommitted).run before) a := by
  constructor
  · intro h before a after hacts
    -- only a commit can be out of order, and then the queue after it is not ascending
    cases a with
    | commit txId now =>
      intro hopen tx htx
      let t := (new maxCommitted).run before
      have hbooks : Bookkept t := (bookkept_new maxCommitted).run before
      obtain ⟨own, hlookup⟩ := Option.isSome_iff_exists.mp (AList.lookup_isSome.mpr hopen)
      obtain ⟨hid, hactive, -⟩ := hbooks.active txId own hlookup
      -- a log that keeps nothing has an empty queue
      have hmax : t.log.maxCommitted > 0 := by
        by_contra hzero
        have hlength := hbooks.length_transactions
        have hpos := List.length_pos_of_mem (evict_subset t.log htx)
        omega
      have hafter := h (before ++ [.commit txId now]) after (by rw [hacts, List.append_assoc]; rfl)
      obtain ⟨-, hpairwise, -⟩ := hafter.1 0
      have hstep : (new maxCommitted).run (before ++ [.commit txId now]) =
          t.step (.commit txId now) := run_concat _ _ _
      have hbooks' := hbooks.step (.commit txId now)
      -- all of the queue is replayed from 0
      have hwhole : (t.step (.commit txId now)).log.replayCommitted 0 =
          (t.step (.commit txId now)).log.transactions := by
        rw [replayCommitted, List.filter_eq_self]
        intro tx' htx'
        exact decide_eq_true (hbooks'.committed _ (hbooks'.mem_committed htx')).1
      rw [hstep, hwhole, List.pairwise_map, step_commit hlookup hactive] at hpairwise
      dsimp only at hpairwise
      rw [if_pos hmax, List.pairwise_append] at hpairwise
      have hlast := hpairwise.2.2 tx htx _ (List.mem_singleton_self _)
      exact hid ▸ hlast
    | begin now => trivial
    | append txId op => trivial
    | rollback txId now => trivial
    | abort txId now => trivial
    | poll => trivial
  · intro horder before after hacts
    obtain ⟨hascending, hfollows⟩ := orderly_run maxCommitted before fun before' a after' hbefore =>
      horder before' a (after' ++ after) (by
        rw [hacts, hbefore, List.append_assoc, List.cons_append])
    exact replaysRight_of_ascending ((bookkept_new maxCommitted).run before) hascending hfollows

/-- **A consumer misses a commit**: the second transaction commits first. -/
theorem not_forall_replaysRight :
    ¬ ∀ (maxCommitted : ℕ) (acts before after : List Act), acts = before ++ after →
      ReplaysRight ((new maxCommitted).run before) := by
  intro h
  let acts : List Act := [.begin 0, .begin 0, .commit 2 1, .poll, .commit 1 2]
  have hperm := (h 10 acts acts [] (List.append_nil _).symm).2 (by decide)
  have hmissed := hperm.length_eq
  revert hmissed
  decide +kernel

end Trace

end StorageTransactionLog

end Ipfrs
