import Ipfrs.Core.BlockCache
import Ipfrs.Storage.BlockStore

/-!
# Raft nodes

`RaftNode` (`ipfrs-storage/src/raft.rs`): the handlers of the two requests, the election timer, the
log of the leader and the application of committed entries.

The handlers of the requests hold the lock of the persistent state from beginning to end, so each is
a function on the state of the node. The election timer does not: it takes the locks one after the
other, for the state, the term and the vote, and a request that is handled in between sees the new
term with the old vote. Here `electionTimeout` is one step all the same, and what is proved of runs
is proved of those in which no request comes in between.

A panic does not undo what was written before it: a handler returns the state it leaves behind next
to its outcome. Time is left out: `electionTimeout` is what the timer does once it has found that it
is due. A `Term` and a `LogIndex` are the number they wrap; sums and differences of `u64`s are
checked, as in a debug build.
-/

namespace Ipfrs.Raft

structure NodeId where
  id : ℕ
  deriving DecidableEq, Repr

inductive NodeState where
  | follower
  | candidate
  | leader
  deriving DecidableEq, Repr

inductive Command where
  | put (cidBytes data : Bytes)
  | delete (cidBytes : Bytes)
  | noOp
  deriving DecidableEq, Repr

structure LogEntry where
  term : ℕ
  index : ℕ
  command : Command
  deriving DecidableEq, Repr

structure AppendEntriesRequest where
  term : ℕ
  leaderId : NodeId
  prevLogIndex : ℕ
  prevLogTerm : ℕ
  entries : List LogEntry
  leaderCommit : ℕ

structure AppendEntriesResponse where
  term : ℕ
  success : Bool
  conflictIndex : Option ℕ
  deriving DecidableEq, Repr

structure RequestVoteRequest where
  term : ℕ
  candidateId : NodeId
  lastLogIndex : ℕ
  lastLogTerm : ℕ

structure RequestVoteResponse where
  term : ℕ
  voteGranted : Bool
  deriving DecidableEq, Repr

structure PersistentState where
  currentTerm : ℕ := 0
  votedFor : Option NodeId := none
  deriving DecidableEq, Repr

structure VolatileState where
  commitIndex : ℕ := 0
  lastApplied : ℕ := 0
  deriving DecidableEq, Repr

structure RaftNode where
  id : NodeId
  peers : List NodeId
  state : NodeState
  persistent : PersistentState
  volatile : VolatileState
  log : List LogEntry
  currentLeader : Option NodeId

namespace RaftNode

def new (id : NodeId) (peers : List NodeId) : RaftNode where
  id := id
  peers := peers
  state := .follower
  persistent := {}
  volatile := {}
  log := []
  currentLeader := none

/-! ### The election timer -/

variable (node : RaftNode)

/-- The body of `spawn_election_timer`, once the timeout has elapsed, taken as one step: the source
locks the state, then the term, then the vote. -/
def electionTimeout : RaftNode × Except Fault Unit :=
  if node.state = .leader then (node, .ok ())
  else
    let node := { node with state := .candidate }
    match addU64 node.persistent.currentTerm 1 with
    | .error f => (node, .error f)
    | .ok term =>
      ({ node with persistent := { currentTerm := term, votedFor := some node.id } }, .ok ())

/-! ### The requests -/

/-- A request of a later term makes the node a follower in that term, with its vote free again. -/
def updateTerm (term : ℕ) : RaftNode :=
  if term > node.persistent.currentTerm then
    { node with
      persistent := { currentTerm := term, votedFor := none }
      state := .follower }
  else node

def handleRequestVote (request : RequestVoteRequest) : RaftNode × RequestVoteResponse :=
  if request.term < node.persistent.currentTerm then
    (node, { term := node.persistent.currentTerm, voteGranted := false })
  else
    let node := node.updateTerm request.term
    if node.persistent.votedFor = none ∨ node.persistent.votedFor = some request.candidateId then
      let lastLogIndex := node.log.length
      let lastLogTerm := (node.log.getLast?.map LogEntry.term).getD 0
      -- the log of the candidate is at least as up to date
      if request.lastLogTerm > lastLogTerm ∨
          request.lastLogTerm = lastLogTerm ∧ request.lastLogIndex ≥ lastLogIndex then
        ({ node with
            persistent := { node.persistent with votedFor := some request.candidateId } },
          { term := node.persistent.currentTerm, voteGranted := true })
      else (node, { term := node.persistent.currentTerm, voteGranted := false })
    else (node, { term := node.persistent.currentTerm, voteGranted := false })

/-- The loop over `log.iter().rev()`: the first index of the run of `term` that ends the log. -/
def conflictIndexFrom (conflictTerm : ℕ) : List LogEntry → ℕ → ℕ
  | [], conflictIndex => conflictIndex
  | entry :: entries, conflictIndex =>
    if entry.term ≠ conflictTerm then conflictIndex
    else conflictIndexFrom conflictTerm entries entry.index

/-- The consistency check of `handle_append_entries`: the conflict index of a log that does not have
the entry before the new ones. -/
def checkPrevLog (log : List LogEntry) (request : AppendEntriesRequest) : Option ℕ :=
  if hpos : request.prevLogIndex > 0 then
    if hlen : request.prevLogIndex > log.length then some log.length
    else
      have hprev : request.prevLogIndex - 1 < log.length := by omega
      let prevEntry := log[request.prevLogIndex - 1]
      if prevEntry.term ≠ request.prevLogTerm then
        some (conflictIndexFrom prevEntry.term log.reverse request.prevLogIndex)
      else none
  else none

/-- The loop over the new entries. -/
def appendEntries : List LogEntry → List LogEntry → List LogEntry × Except Fault Unit
  | log, [] => (log, .ok ())
  | log, entry :: entries =>
    match subU64 entry.index 1 with
    | .error f => (log, .error f)
    | .ok index =>
      if h : index ≥ log.length then appendEntries (log ++ [entry]) entries
      else if log[index].term ≠ entry.term then
        -- the conflicting entry goes, and all that follow
        appendEntries (log.take index ++ [entry]) entries
      else appendEntries log entries

/-- The commit index that `handle_append_entries` leaves. -/
def updateCommitIndex (volatile : VolatileState) (leaderCommit : ℕ)
    (log : List LogEntry) : VolatileState :=
  if leaderCommit > volatile.commitIndex then
    { volatile with commitIndex := min leaderCommit log.length }
  else volatile

def handleAppendEntries (request : AppendEntriesRequest) :
    RaftNode × Except Fault AppendEntriesResponse :=
  if request.term < node.persistent.currentTerm then
    (node, .ok
      { term := node.persistent.currentTerm, success := false, conflictIndex := none })
  else
    let node := { node.updateTerm request.term with currentLeader := some request.leaderId }
    match checkPrevLog node.log request with
    | some conflictIndex =>
      (node, .ok
        { term := node.persistent.currentTerm, success := false,
          conflictIndex := some conflictIndex })
    | none =>
      match appendEntries node.log request.entries with
      | (log, .error f) => ({ node with log := log }, .error f)
      | (log, .ok ()) =>
        ({ node with
            log := log
            volatile := updateCommitIndex node.volatile request.leaderCommit log },
          .ok { term := node.persistent.currentTerm, success := true, conflictIndex := none })

/-! ### The log of a leader, and committed entries -/

def appendEntry (command : Command) : RaftNode × Except Error ℕ :=
  if node.state ≠ .leader then (node, .error (.internal "Not the leader"))
  else
    let index := node.log.length + 1
    let entry := { term := node.persistent.currentTerm, index := index, command := command }
    ({ node with log := node.log ++ [entry] }, .ok index)

section Apply

variable {S : Type} [BlockStore S] [CidCrate]

/-- What a committed command does to the block store. -/
def applyCommand (store : S) : Command → Except Error S
  | .put cidBytes data =>
    match CidCrate.tryFrom cidBytes with
    | .ok cid => BlockStore.put store { cid := cid, data := data }
    | .error _ => .ok store
  | .delete cidBytes =>
    match CidCrate.tryFrom cidBytes with
    | .ok cid => BlockStore.delete store cid
    | .error _ => .ok store
  | .noOp => .ok store

/-- The loop of `apply_committed_entries`, up to a commit index that is `n` entries ahead. -/
def applyEntries (log : List LogEntry) :
    ℕ → VolatileState → S → (VolatileState × S) × Except Fault Unit
  | 0, volatile, store => ((volatile, store), .ok ())
  | n + 1, volatile, store =>
    -- counted before the entry is looked up, and before the command is run
    let volatile := { volatile with lastApplied := volatile.lastApplied + 1 }
    match log[volatile.lastApplied - 1]? with
    | none => ((volatile, store), .error (.panic "index out of bounds"))
    | some entry =>
      match applyCommand store entry.command with
      | .error e => ((volatile, store), .error (.error e))
      | .ok store => applyEntries log n volatile store

def applyCommittedEntries (node : RaftNode) (store : S) :
    (RaftNode × S) × Except Fault Unit :=
  let ahead := node.volatile.commitIndex - node.volatile.lastApplied
  let ((volatile, store), outcome) := applyEntries node.log ahead node.volatile store
  (({ node with volatile := volatile }, store), outcome)

end Apply

/-! ### What a handler leaves alone -/

@[simp] theorem updateTerm_log (term : ℕ) : (node.updateTerm term).log = node.log := by
  unfold updateTerm
  split <;> rfl

@[simp] theorem updateTerm_volatile (term : ℕ) :
    (node.updateTerm term).volatile = node.volatile := by
  unfold updateTerm
  split <;> rfl

/-- After the update the term of the request is the term of the node. -/
theorem updateTerm_currentTerm {node : RaftNode} {term : ℕ}
    (h : ¬ term < node.persistent.currentTerm) :
    (node.updateTerm term).persistent.currentTerm = term := by
  unfold updateTerm
  split
  · rfl
  · next hle => exact Nat.le_antisymm (Nat.le_of_not_lt h) (Nat.le_of_not_lt hle)

/-- **What `handle_append_entries` does**, by the branches of its outcome. -/
theorem handleAppendEntries_cases (request : AppendEntriesRequest) :
    (request.term < node.persistent.currentTerm ∧ node.handleAppendEntries request =
        (node, .ok ⟨node.persistent.currentTerm, false, none⟩)) ∨
      ¬ request.term < node.persistent.currentTerm ∧
      ((∃ conflictIndex, checkPrevLog node.log request = some conflictIndex ∧
          node.handleAppendEntries request =
            ({ node.updateTerm request.term with currentLeader := some request.leaderId },
              .ok ⟨request.term, false, some conflictIndex⟩)) ∨
        checkPrevLog node.log request = none ∧
          ((∃ log f, appendEntries node.log request.entries = (log, .error f) ∧
              node.handleAppendEntries request =
                ({ node.updateTerm request.term with
                    currentLeader := some request.leaderId, log := log }, .error f)) ∨
            ∃ log, appendEntries node.log request.entries = (log, .ok ()) ∧
              node.handleAppendEntries request =
                ({ node.updateTerm request.term with
                    currentLeader := some request.leaderId
                    log := log
                    volatile := updateCommitIndex node.volatile request.leaderCommit log },
                  .ok ⟨request.term, true, none⟩))) := by
  by_cases hterm : request.term < node.persistent.currentTerm
  · exact Or.inl ⟨hterm, if_pos hterm⟩
  refine Or.inr ⟨hterm, ?_⟩
  rw [handleAppendEntries, if_neg hterm]
  simp only [updateTerm_log, updateTerm_volatile, updateTerm_currentTerm hterm]
  cases hcheck : checkPrevLog node.log request with
  | some conflictIndex => exact Or.inl ⟨conflictIndex, rfl, rfl⟩
  | none =>
    refine Or.inr ⟨rfl, ?_⟩
    rcases happend : appendEntries node.log request.entries with ⟨log, f | u⟩
    · exact Or.inl ⟨log, f, rfl, rfl⟩
    · exact Or.inr ⟨log, rfl, rfl⟩

end RaftNode

end Ipfrs.Raft
