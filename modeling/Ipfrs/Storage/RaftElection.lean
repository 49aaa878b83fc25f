import Ipfrs.Lib.Ballot
import Ipfrs.Storage.Raft

/-!
# Elections

A cluster of Raft nodes whose election timers fire, each in one step, and to which requests are
delivered, in any order. Nothing is assumed of a request: it may be delivered to any node, any
number of times or never, late, and whoever made it up; so whatever a network loses, duplicates or
reorders is covered. Nodes are not restarted.

The term and the vote of a node are its `Ballot`. Every handler moves it up in the order of ballots
(`Cluster.ballot_le_step`), and a vote that is cast is the ballot that the voter holds then
(`Cluster.ballot_of_casts`); so the votes of one node are ballots along one chain, and one term has
one of them. `electionSafety` adds the majorities.
-/

namespace Ipfrs.Raft

namespace RaftNode

/-- The term and the vote of a node. -/
def ballot (node : RaftNode) : Ballot ℕ NodeId :=
  ⟨node.persistent.currentTerm, node.persistent.votedFor⟩

/-! ### What the handlers do to the ballot -/

theorem ballot_le_updateTerm (node : RaftNode) (term : ℕ) :
    node.ballot ≤ (node.updateTerm term).ballot := by
  unfold updateTerm
  split
  · next hlt => exact Ballot.le_of_term_lt hlt
  · exact le_refl _

/-- The timer moves on to the next term, with a vote for the node itself. At the last `u64` it
panics and leaves the ballot as it is. -/
theorem ballot_electionTimeout (node : RaftNode) :
    node.electionTimeout.1.ballot = node.ballot ∨
      node.electionTimeout.1.ballot = ⟨node.persistent.currentTerm + 1, some node.id⟩ := by
  unfold electionTimeout
  split
  · exact Or.inl rfl
  · dsimp only
    by_cases hlt : node.persistent.currentTerm + 1 < 2 ^ 64
    · rw [addU64, if_pos hlt]
      exact Or.inr rfl
    · rw [addU64, if_neg hlt]
      exact Or.inl rfl

theorem ballot_le_electionTimeout (node : RaftNode) :
    node.ballot ≤ node.electionTimeout.1.ballot := by
  rcases node.ballot_electionTimeout with h | h
  · exact h.ge
  · rw [h]
    exact Ballot.le_of_term_lt (Nat.lt_succ_self _)

/-- **A vote that is granted** is of the term of the request and for its candidate, and it is the
ballot of the node from then on. -/
theorem ballot_of_granted {node : RaftNode} {request : RequestVoteRequest}
    (h : (node.handleRequestVote request).2.voteGranted = true) :
    (node.handleRequestVote request).2.term = request.term ∧
      (node.handleRequestVote request).1.ballot = ⟨request.term, some request.candidateId⟩ := by
  unfold handleRequestVote at h ⊢
  by_cases hterm : request.term < node.persistent.currentTerm
  · rw [if_pos hterm] at h
    exact absurd h (by simp)
  · rw [if_neg hterm] at h ⊢
    dsimp only at h ⊢
    have hcurrent := updateTerm_currentTerm hterm
    split at h
    · next hfree =>
      rw [if_pos hfree]
      split at h
      · next hlog =>
        rw [if_pos hlog]
        exact ⟨hcurrent, Ballot.ext hcurrent rfl⟩
      · exact absurd h (by simp)
    · exact absurd h (by simp)

theorem ballot_le_handleRequestVote (node : RaftNode) (request : RequestVoteRequest) :
    node.ballot ≤ (node.handleRequestVote request).1.ballot := by
  unfold handleRequestVote
  split
  · exact le_refl _
  · refine (node.ballot_le_updateTerm request.term).trans ?_
    dsimp only
    split
    · next hfree =>
      split
      · -- the vote was free, or it is given to the same candidate again
        refine Ballot.le_def.mpr (Or.inr ⟨rfl, ?_⟩)
        exact hfree
      · exact le_refl _
    · exact le_refl _

theorem ballot_le_handleAppendEntries (node : RaftNode) (request : AppendEntriesRequest) :
    node.ballot ≤ (node.handleAppendEntries request).1.ballot := by
  obtain ⟨-, h⟩ | ⟨-, ⟨_, -, h⟩ | ⟨-, ⟨_, _, -, h⟩ | ⟨_, -, h⟩⟩⟩ :=
    handleAppendEntries_cases node request
  · rw [h]
  · rw [h]
    exact node.ballot_le_updateTerm request.term
  · rw [h]
    exact node.ballot_le_updateTerm request.term
  · rw [h]
    exact node.ballot_le_updateTerm request.term

end RaftNode

/-! ### Clusters -/

/-- The nodes of a cluster, by their ids. -/
abbrev Cluster := NodeId → RaftNode

/-- What can happen in a cluster: a timer fires, or a request is delivered. -/
inductive Event where
  | electionTimeout (i : NodeId)
  | requestVote (i : NodeId) (request : RequestVoteRequest)
  | appendEntries (i : NodeId) (request : AppendEntriesRequest)

/-- A vote of `voter` for `candidate` in `term`. -/
structure Vote where
  voter : NodeId
  term : ℕ
  candidate : NodeId
  deriving DecidableEq, Repr

namespace Event

/-- The node at which the event takes place. -/
def node : Event → NodeId
  | electionTimeout i => i
  | requestVote i _ => i
  | appendEntries i _ => i

/-- The state in which the event leaves the node. -/
def handle (node : RaftNode) : Event → RaftNode
  | electionTimeout _ => node.electionTimeout.1
  | requestVote _ request => (node.handleRequestVote request).1
  | appendEntries _ request => (node.handleAppendEntries request).1

/-- The vote that the event casts: the node's own, when its timer starts an election, or one that it
grants. -/
def casts (node : RaftNode) : Event → Option Vote
  | electionTimeout i =>
    if node.state = .leader then none
    else
      match node.electionTimeout with
      | (node', .ok ()) =>
        node'.persistent.votedFor.map fun candidate => ⟨i, node'.persistent.currentTerm, candidate⟩
      | (_, .error _) => none
  | requestVote i request =>
    let response := (node.handleRequestVote request).2
    if response.voteGranted then some ⟨i, response.term, request.candidateId⟩ else none
  | appendEntries _ _ => none

theorem ballot_le_handle (node : RaftNode) (event : Event) :
    node.ballot ≤ (event.handle node).ballot := by
  cases event with
  | electionTimeout i => exact node.ballot_le_electionTimeout
  | requestVote i request => exact node.ballot_le_handleRequestVote request
  | appendEntries i request => exact node.ballot_le_handleAppendEntries request

/-- A vote is cast by the node of the event, and is its ballot after the event. -/
theorem ballot_of_casts {node : RaftNode} {event : Event} {vote : Vote}
    (h : event.casts node = some vote) :
    vote.voter = event.node ∧ (event.handle node).ballot = ⟨vote.term, some vote.candidate⟩ := by
  cases event with
  | electionTimeout i =>
    simp only [casts] at h
    split at h
    · exact absurd h (by simp)
    · rcases htimeout : node.electionTimeout with ⟨node', f | u⟩
      · rw [htimeout] at h
        exact absurd h (by simp)
      · rw [htimeout] at h
        obtain ⟨candidate, hcandidate, rfl⟩ := Option.map_eq_some_iff.mp h
        refine ⟨rfl, ?_⟩
        change node.electionTimeout.1.ballot = _
        rw [htimeout]
        exact Ballot.ext rfl hcandidate
  | requestVote i request =>
    change (if (node.handleRequestVote request).2.voteGranted then _ else _) = _ at h
    split at h
    · next hgranted =>
      obtain ⟨hterm, hballot⟩ := RaftNode.ballot_of_granted hgranted
      obtain rfl := Option.some.inj h
      refine ⟨rfl, ?_⟩
      rw [hterm]
      exact hballot
    · exact absurd h (by simp)
  | appendEntries i request => exact absurd h (by simp [casts])

end Event

namespace Cluster

/-- Every node of the cluster as `RaftNode::new` makes it. -/
def start (peers : NodeId → List NodeId) : Cluster :=
  fun i => RaftNode.new i (peers i)

/-- One event. -/
def step (cluster : Cluster) (event : Event) : Cluster :=
  Function.update cluster event.node (event.handle (cluster event.node))

/-- The events of a list, in order. -/
def run (cluster : Cluster) (events : List Event) : Cluster :=
  events.foldl step cluster

/-- The votes that are cast in the events of a list. -/
def votes (cluster : Cluster) : List Event → List Vote
  | [] => []
  | event :: events =>
    (event.casts (cluster event.node)).toList ++ votes (cluster.step event) events

theorem ballot_le_step (cluster : Cluster) (event : Event) (i : NodeId) :
    (cluster i).ballot ≤ (cluster.step event i).ballot := by
  unfold step
  by_cases hi : i = event.node
  · subst hi
    rw [Function.update_self]
    exact Event.ballot_le_handle _ event
  · rw [Function.update_of_ne hi]

theorem run_append (cluster : Cluster) (before after : List Event) :
    cluster.run (before ++ after) = (cluster.run before).run after :=
  List.foldl_append

theorem ballot_le_run (cluster : Cluster) (events : List Event) (i : NodeId) :
    (cluster i).ballot ≤ (cluster.run events i).ballot := by
  induction events generalizing cluster with
  | nil => exact le_refl _
  | cons event events ih => exact (cluster.ballot_le_step event i).trans (ih (cluster.step event))

variable {cluster : Cluster} {events : List Event}

/-- **A vote is the ballot that the voter holds at some time of the run.** -/
theorem exists_ballot_of_mem_votes {vote : Vote} (h : vote ∈ cluster.votes events) :
    ∃ before after, events = before ++ after ∧
      (cluster.run before vote.voter).ballot = ⟨vote.term, some vote.candidate⟩ := by
  induction events generalizing cluster with
  | nil => exact absurd h List.not_mem_nil
  | cons event events ih =>
    rcases List.mem_append.mp h with h | h
    · -- cast in the first event
      obtain ⟨hvoter, hballot⟩ := Event.ballot_of_casts (Option.mem_toList.mp h)
      refine ⟨[event], events, rfl, ?_⟩
      change (cluster.step event vote.voter).ballot = _
      rw [hvoter, step, Function.update_self]
      exact hballot
    · obtain ⟨before, after, rfl, hballot⟩ := ih h
      exact ⟨event :: before, after, rfl, hballot⟩

theorem ballot_le_total {before after before' after' : List Event} (h : events = before ++ after)
    (h' : events = before' ++ after') (i : NodeId) :
    (cluster.run before i).ballot ≤ (cluster.run before' i).ballot ∨
      (cluster.run before' i).ballot ≤ (cluster.run before i).ballot := by
  rw [h] at h'
  obtain ⟨between, hbetween, -⟩ | ⟨between, hbetween, -⟩ := List.append_eq_append_iff.mp h'
  · left
    rw [hbetween, run_append]
    exact ballot_le_run _ between i
  · right
    rw [hbetween, run_append]
    exact ballot_le_run _ between i

/-- **One vote per node and term.** -/
theorem vote_unique {voter : NodeId} {term : ℕ} {candidate candidate' : NodeId}
    (h : ⟨voter, term, candidate⟩ ∈ cluster.votes events)
    (h' : ⟨voter, term, candidate'⟩ ∈ cluster.votes events) : candidate = candidate' := by
  obtain ⟨before, after, hevents, hballot⟩ := exists_ballot_of_mem_votes h
  obtain ⟨before', after', hevents', hballot'⟩ := exists_ballot_of_mem_votes h'
  have htotal : (cluster.run before voter).ballot ≤ (cluster.run before' voter).ballot ∨
      (cluster.run before' voter).ballot ≤ (cluster.run before voter).ballot :=
    ballot_le_total hevents hevents' voter
  dsimp only at hballot hballot'
  rw [hballot, hballot'] at htotal
  exact Ballot.vote_unique htotal

/-- **Election safety.** In every run of a cluster of new nodes no term decreases, a node votes for
at most one candidate in a term, and at most one candidate has the votes of a strict majority of the
cluster in a term. -/
theorem electionSafety (ids : Finset NodeId) (peers : NodeId → List NodeId)
    (events : List Event) :
    (∀ before after, events = before ++ after → ∀ i,
      ((start peers).run before i).persistent.currentTerm ≤
        ((start peers).run events i).persistent.currentTerm) ∧
    (∀ voter term candidate candidate',
      ⟨voter, term, candidate⟩ ∈ (start peers).votes events →
      ⟨voter, term, candidate'⟩ ∈ (start peers).votes events → candidate = candidate') ∧
    ∀ term candidate candidate',
      HasMajority ids (fun voter c => ⟨voter, term, c⟩ ∈ (start peers).votes events) candidate →
      HasMajority ids (fun voter c => ⟨voter, term, c⟩ ∈ (start peers).votes events) candidate' →
      candidate = candidate' := by
  refine ⟨fun before after hevents i => ?_, fun voter term candidate candidate' h h' => ?_,
    fun term candidate candidate' h h' => ?_⟩
  · rw [hevents, run_append]
    exact Ballot.term_le_of_le (ballot_le_run _ after i)
  · exact vote_unique h h'
  · -- two majorities share a voter, and it has one vote in the term
    refine HasMajority.unique (fun voter c c' hc hc' => ?_) h h'
    exact vote_unique hc hc'

end Cluster

end Ipfrs.Raft
