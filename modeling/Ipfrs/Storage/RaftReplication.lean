import Ipfrs.Lib.Ledger
import Ipfrs.Storage.RaftElection
import Ipfrs.Storage.RaftLog

/-!
# Replication in a cluster

Runs of a cluster in which leaders append and replicate. To the events of an election come three
steps (`Step`): a candidate with a majority becomes the leader, a leader appends a command, and a
leader sends a request that is cut from its log. A request that was sent may be delivered to any
node, any number of times, late or never; votes are asked for by anybody, as in an election. The
handlers, the timer and `append_entry` are those of the source, a timeout being one step (no request
is handled between its three writes). The source has the state `Leader` but leaves open how it is
entered and when requests are sent; so nothing is assumed here of either, beyond what makes a leader
and a request of a leader.

The invariant `Inv` gives each term its writer and its ledger. A log gets an entry of a term from
the ledger of the term only, so every log follows the ledgers, whatever was lost, repeated or
overtaken on the way. `logMatching_of_reachable` reads off the safety of the whole run.
-/

namespace Ipfrs.Raft

open LogMatching

/-! ### Nodes that move on -/

namespace RaftNode

/-- What a handler does to a node, apart from its log: the node keeps its name, its ballot moves up,
and it leads afterwards only in a term in which it has led before. -/
structure Moved (node node' : RaftNode) : Prop where
  id_eq : node'.id = node.id
  ballot_le : node.ballot ≤ node'.ballot
  leader : node'.state = .leader → node.state = .leader ∧
    node'.persistent.currentTerm = node.persistent.currentTerm
  state_eq : node.state = .leader →
    node'.persistent.currentTerm = node.persistent.currentTerm → node'.state = .leader

variable (node : RaftNode)

theorem updateTerm_id (term : ℕ) : (node.updateTerm term).id = node.id := by
  unfold updateTerm
  split <;> rfl

theorem moved_updateTerm (term : ℕ) : Moved node (node.updateTerm term) where
  id_eq := node.updateTerm_id term
  ballot_le := node.ballot_le_updateTerm term
  leader := by
    unfold updateTerm
    split
    · intro hstate
      exact absurd hstate (by simp)
    · intro hstate
      exact ⟨hstate, rfl⟩
  state_eq := by
    unfold updateTerm
    split
    · next hlt =>
      intro _ hterm
      exact absurd hterm (Nat.ne_of_gt hlt)
    · intro hstate _
      exact hstate

theorem moved_electionTimeout : Moved node node.electionTimeout.1 where
  id_eq := by
    unfold electionTimeout
    split
    · rfl
    · dsimp only
      split <;> rfl
  ballot_le := node.ballot_le_electionTimeout
  leader := by
    unfold electionTimeout
    split
    · intro hstate
      exact ⟨hstate, rfl⟩
    · -- a node that does not lead becomes a candidate, also when its term cannot be raised
      dsimp only
      split
      · intro hstate
        exact absurd hstate (by simp)
      · intro hstate
        exact absurd hstate (by simp)
  state_eq := by
    intro hstate _
    rw [electionTimeout, if_pos hstate]
    exact hstate

theorem handleRequestVote_eq (request : RequestVoteRequest) :
    (node.handleRequestVote request).1 = node ∨
      ∃ persistent, persistent.currentTerm = (node.updateTerm request.term).persistent.currentTerm ∧
        (node.handleRequestVote request).1 =
          { node.updateTerm request.term with persistent := persistent } := by
  unfold handleRequestVote
  split
  · exact Or.inl rfl
  · refine Or.inr ?_
    dsimp only
    split
    · split
      · -- the vote is written
        exact ⟨⟨_, some request.candidateId⟩, rfl, rfl⟩
      · exact ⟨_, rfl, rfl⟩
    · exact ⟨_, rfl, rfl⟩

theorem log_handleRequestVote (request : RequestVoteRequest) :
    (node.handleRequestVote request).1.log = node.log := by
  obtain h | ⟨persistent, -, h⟩ := node.handleRequestVote_eq request
  · rw [h]
  · rw [h]
    exact node.updateTerm_log request.term

theorem moved_handleRequestVote (request : RequestVoteRequest) :
    Moved node (node.handleRequestVote request).1 := by
  have hballot := node.ballot_le_handleRequestVote request
  have hmoved := node.moved_updateTerm request.term
  obtain h | ⟨persistent, hterm, h⟩ := node.handleRequestVote_eq request
  · rw [h]
    exact ⟨rfl, le_refl _, fun hstate => ⟨hstate, rfl⟩, fun hstate _ => hstate⟩
  · rw [h] at hballot ⊢
    refine ⟨hmoved.id_eq, hballot, fun hstate => ?_, fun hstate hsame => ?_⟩
    · obtain ⟨hleader, hcurrent⟩ := hmoved.leader hstate
      exact ⟨hleader, hterm.trans hcurrent⟩
    · exact hmoved.state_eq hstate (hterm.symm.trans hsame)

theorem moved_handleAppendEntries (request : AppendEntriesRequest) :
    Moved node (node.handleAppendEntries request).1 := by
  have hmoved := node.moved_updateTerm request.term
  obtain ⟨-, h⟩ | ⟨-, ⟨_, -, h⟩ | ⟨-, ⟨_, _, -, h⟩ | ⟨_, -, h⟩⟩⟩ :=
    handleAppendEntries_cases node request
  · rw [h]
    exact ⟨rfl, le_refl _, fun hstate => ⟨hstate, rfl⟩, fun hstate _ => hstate⟩
  all_goals
    rw [h]
    exact ⟨hmoved.id_eq, hmoved.ballot_le, hmoved.leader, hmoved.state_eq⟩

theorem log_electionTimeout : node.electionTimeout.1.log = node.log := by
  unfold electionTimeout
  split
  · rfl
  · dsimp only
    split <;> rfl

end RaftNode

theorem Event.moved (node : RaftNode) (event : Event) :
    RaftNode.Moved node (event.handle node) := by
  cases event with
  | electionTimeout i => exact node.moved_electionTimeout
  | requestVote i request => exact node.moved_handleRequestVote request
  | appendEntries i request => exact node.moved_handleAppendEntries request

/-- A request that is cut from a log is cut from every log that goes on from there. -/
theorem CutFrom.mono {L L' : List LogEntry} {request : AppendEntriesRequest}
    (h : CutFrom L request) (hgrow : L <+: L') : CutFrom L' request := by
  obtain ⟨rest, rfl⟩ := hgrow
  have hle := h.prevLogIndex_le
  have hlast := h.lastNewIndex_le
  refine ⟨?_, fun entry hpos hentry => ?_, ?_, ?_⟩
  · rw [List.length_append]
    exact hle.trans (Nat.le_add_right _ _)
  · rw [List.getElem?_append_left (by omega)] at hentry
    exact h.prevLogTerm_eq entry hpos hentry
  · have hfits : request.entries.length ≤ (L.drop request.prevLogIndex).length := by
      rw [List.length_drop]
      unfold AppendEntriesRequest.lastNewIndex at hlast
      omega
    rw [List.drop_append_of_le_length hle, List.take_append_of_le_length hfits]
    exact h.entries_eq
  · rw [List.length_append]
    exact h.leaderCommit_le.trans (Nat.le_add_right _ _)

/-! ### Runs -/

/-- The nodes of a cluster, the votes that were cast, and the requests that were sent. -/
structure World where
  nodes : Cluster
  votes : List Vote
  sent : List AppendEntriesRequest

namespace World

/-- New nodes, and nothing said. -/
def start (peers : NodeId → List NodeId) : World where
  nodes := Cluster.start peers
  votes := []
  sent := []

variable (w : World)

/-- `candidate` has the votes of a strict majority in `term`. -/
def Elects (ids : Finset NodeId) (term : ℕ) (candidate : NodeId) : Prop :=
  HasMajority ids (fun voter c => ⟨voter, term, c⟩ ∈ w.votes) candidate

/-- An event takes place at its node. -/
def handle (event : Event) : World :=
  { w with
    nodes := w.nodes.step event
    votes := w.votes ++ (event.casts (w.nodes event.node)).toList }

/-- Node `i` becomes the leader. -/
def lead (i : NodeId) : World :=
  { w with nodes := Function.update w.nodes i { w.nodes i with state := .leader } }

/-- `append_entry` at node `i`. -/
def append (i : NodeId) (command : Command) : World :=
  { w with nodes := Function.update w.nodes i ((w.nodes i).appendEntry command).1 }

/-- A request is put on its way. -/
def send (request : AppendEntriesRequest) : World :=
  { w with sent := w.sent ++ [request] }

/-- One step of a cluster with the electorate `ids`. -/
inductive Step (ids : Finset NodeId) (w : World) : World → Prop
  /-- A timer fires, a vote is asked for, or a request that was sent is delivered. -/
  | handle (event : Event)
      (hsent : ∀ i request, event = .appendEntries i request → request ∈ w.sent) :
      Step ids w (w.handle event)
  /-- A candidate with a majority leads. -/
  | lead (i : NodeId) (hcandidate : (w.nodes i).state = .candidate)
      (helected : w.Elects ids (w.nodes i).persistent.currentTerm i) :
      Step ids w (w.lead i)
  /-- A command is appended. -/
  | append (i : NodeId) (command : Command) : Step ids w (w.append i command)
  /-- A leader sends a part of its log. -/
  | send (i : NodeId) (request : AppendEntriesRequest) (hleader : (w.nodes i).state = .leader)
      (hterm : request.term = (w.nodes i).persistent.currentTerm)
      (hcut : CutFrom (w.nodes i).log request) : Step ids w (w.send request)

/-- Some steps, one after the other. -/
def Reachable (ids : Finset NodeId) (peers : NodeId → List NodeId) (w : World) : Prop :=
  Relation.ReflTransGen (Step ids) (start peers) w

/-! ### Writers and ledgers -/

/-- A log that follows the ledgers, and whose entries carry their positions. -/
structure Written (ledger : ℕ → List LogEntry) (log : List LogEntry) : Prop where
  follows : LogMatching.Follows LogEntry.term ledger log
  indexed : Indexed log

/-- The invariant: the writer of each term, and what it has written. -/
structure Inv (ids : Finset NodeId) (w : World) (writer : ℕ → Option NodeId)
    (ledger : ℕ → List LogEntry) : Prop where
  id_eq : ∀ i, (w.nodes i).id = i
  vote_le : ∀ vote ∈ w.votes, ⟨vote.term, some vote.candidate⟩ ≤ (w.nodes vote.voter).ballot
  vote_unique : ∀ voter term c c', ⟨voter, term, c⟩ ∈ w.votes → ⟨voter, term, c'⟩ ∈ w.votes → c = c'
  writer_elected : ∀ term i, writer term = some i → w.Elects ids term i
  writer_term_le : ∀ term i, writer term = some i → term ≤ (w.nodes i).persistent.currentTerm
  writer_leads : ∀ term i, writer term = some i → (w.nodes i).persistent.currentTerm = term →
    (w.nodes i).state = .leader
  leader_writes : ∀ i, (w.nodes i).state = .leader →
    writer (w.nodes i).persistent.currentTerm = some i ∧
      ledger (w.nodes i).persistent.currentTerm = (w.nodes i).log
  ledger_nil : ∀ term, writer term = none → ledger term = []
  ledger_written : ∀ term, Written ledger (ledger term)
  log_written : ∀ i, Written ledger (w.nodes i).log
  sent_cut : ∀ request ∈ w.sent, CutFrom (ledger request.term) request

variable {ids : Finset NodeId} {peers : NodeId → List NodeId} {w w' : World}
  {writer : ℕ → Option NodeId} {ledger : ℕ → List LogEntry}
variable {log : List LogEntry} {i : NodeId}

theorem Written.take (h : Written ledger log) (n : ℕ) : Written ledger (log.take n) :=
  ⟨h.follows.take n, h.indexed.take n⟩

theorem Written.mono {ledger' : ℕ → List LogEntry} (hgrow : ∀ term, ledger term <+: ledger' term)
    (h : Written ledger log) : Written ledger' log :=
  ⟨h.follows.mono hgrow, h.indexed⟩

theorem Written.append {entry : LogEntry} (h : Written ledger log)
    (hledger : ledger entry.term = log ++ [entry]) (hindex : entry.index = log.length + 1) :
    Written ledger (log ++ [entry]) := by
  refine ⟨h.follows.append hledger, fun k x hx => ?_⟩
  by_cases hk : k < log.length
  · rw [List.getElem?_append_left hk] at hx
    exact h.indexed k x hx
  · have hlt := (List.getElem?_eq_some_iff.mp hx).1
    rw [List.length_append, List.length_singleton] at hlt
    obtain rfl : k = log.length := by omega
    rw [List.getElem?_concat_length] at hx
    rw [← Option.some.inj hx]
    exact hindex

theorem inv_start : Inv ids (start peers) (fun _ => none) (fun _ => []) where
  id_eq _ := rfl
  vote_le _ hvote := absurd hvote List.not_mem_nil
  vote_unique _ _ _ _ hvote := absurd hvote List.not_mem_nil
  writer_elected _ _ hwriter := absurd hwriter (by simp)
  writer_term_le _ _ hwriter := absurd hwriter (by simp)
  writer_leads _ _ hwriter := absurd hwriter (by simp)
  leader_writes i hstate := absurd hstate (by simp [start, Cluster.start, RaftNode.new])
  ledger_nil _ _ := rfl
  ledger_written _ := ⟨LogMatching.Follows.nil, fun _ _ h => absurd h (by simp)⟩
  log_written _ := ⟨LogMatching.Follows.nil, fun _ _ h => (by cases h)⟩
  sent_cut _ hrequest := absurd hrequest List.not_mem_nil

/-- **A node moves on** and its log stays one that was written; a node that still leads has the log
that it had. The votes cast on the way are ballots of the nodes afterwards. -/
theorem Inv.moved (h : Inv ids w writer ledger) {nodes : Cluster} {votes : List Vote}
    (hmoved : ∀ i, RaftNode.Moved (w.nodes i) (nodes i))
    (hlog : ∀ i, Written ledger (nodes i).log)
    (hleader : ∀ i, (nodes i).state = .leader → (nodes i).log = (w.nodes i).log)
    (hvotes : ∀ vote ∈ votes, ⟨vote.term, some vote.candidate⟩ = (nodes vote.voter).ballot) :
    Inv ids { w with nodes := nodes, votes := w.votes ++ votes } writer ledger where
  id_eq i := (hmoved i).id_eq.trans (h.id_eq i)
  vote_le vote hvote := by
    rcases List.mem_append.mp hvote with hvote | hvote
    · exact (h.vote_le vote hvote).trans (hmoved _).ballot_le
    · exact (hvotes vote hvote).le
  vote_unique voter term c c' hc hc' := by
    rcases List.mem_append.mp hc with hc | hc
    · rcases List.mem_append.mp hc' with hc' | hc'
      · exact h.vote_unique voter term c c' hc hc'
      · -- cast now, in a term in which the voter has voted
        have hle := (h.vote_le _ hc).trans (hmoved voter).ballot_le
        rw [← hvotes _ hc'] at hle
        exact Ballot.vote_unique_of_le hle
    · rcases List.mem_append.mp hc' with hc' | hc'
      · have hle := (h.vote_le _ hc').trans (hmoved voter).ballot_le
        rw [← hvotes _ hc] at hle
        exact (Ballot.vote_unique_of_le hle).symm
      · have heq := (hvotes _ hc).trans (hvotes _ hc').symm
        exact Option.some.inj (congrArg Ballot.vote heq)
  writer_elected term i hwriter := by
    obtain ⟨voters, hsub, hcard, hvoted⟩ := h.writer_elected term i hwriter
    exact ⟨voters, hsub, hcard, fun v hv => List.mem_append_left votes (hvoted v hv)⟩
  writer_term_le term i hwriter :=
    (h.writer_term_le term i hwriter).trans (Ballot.term_le_of_le (hmoved i).ballot_le)
  writer_leads term i hwriter hterm := by
    -- the term of the node has not changed, so it led before
    have hbefore := h.writer_term_le term i hwriter
    have hafter : (w.nodes i).persistent.currentTerm ≤ (nodes i).persistent.currentTerm :=
      Ballot.term_le_of_le (hmoved i).ballot_le
    have hsame : (w.nodes i).persistent.currentTerm = term :=
      Nat.le_antisymm (hafter.trans hterm.le) hbefore
    exact (hmoved i).state_eq (h.writer_leads term i hwriter hsame) (hterm.trans hsame.symm)
  leader_writes i hstate := by
    obtain ⟨hbefore, hterm⟩ := (hmoved i).leader hstate
    obtain ⟨hwriter, hledger⟩ := h.leader_writes i hbefore
    change writer (nodes i).persistent.currentTerm = _ ∧
      ledger (nodes i).persistent.currentTerm = (nodes i).log
    rw [hterm, hleader i hstate]
    exact ⟨hwriter, hledger⟩
  ledger_nil := h.ledger_nil
  ledger_written := h.ledger_written
  log_written := hlog
  sent_cut := h.sent_cut

/-! ### Steps -/

/-- **A request that was sent**, wherever it is delivered: the log stays one that was written, and a
leader of that term has nothing to change. -/
theorem Inv.log_handleAppendEntries (h : Inv ids w writer ledger) {request : AppendEntriesRequest}
    (hsent : request ∈ w.sent) (i : NodeId) :
    Written ledger ((w.nodes i).handleAppendEntries request).1.log ∧
      (((w.nodes i).handleAppendEntries request).1.state = .leader →
        ((w.nodes i).handleAppendEntries request).1.log = (w.nodes i).log) := by
  have hledger := h.ledger_written request.term
  have hcut := h.sent_cut request hsent
  obtain ⟨node', response, hresult, houtcome⟩ := RaftNode.handleAppendEntries_cut hledger.indexed
    ((h.log_written i).follows.matching hledger.follows) hcut
  have hmoved := (w.nodes i).moved_handleAppendEntries request
  have hterm : ¬ request.term < (w.nodes i).persistent.currentTerm →
      node'.persistent.currentTerm = request.term := by
    intro hterm
    obtain ⟨hlt, -⟩ | ⟨-, ⟨_, -, heq⟩ | ⟨-, ⟨_, _, -, heq⟩ | ⟨_, -, heq⟩⟩⟩ :=
      RaftNode.handleAppendEntries_cases (w.nodes i) request
    · exact absurd hlt hterm
    all_goals
      rw [hresult] at heq
      rw [(Prod.mk.inj heq).1]
      exact RaftNode.updateTerm_currentTerm hterm
  rw [hresult] at hmoved ⊢
  obtain ⟨-, -, hlog, -⟩ | ⟨-, haccepted, -, ⟨hlog, -⟩ | ⟨hlog, hnot⟩⟩ := houtcome
  · exact ⟨hlog ▸ h.log_written i, fun _ => hlog⟩
  · exact ⟨hlog ▸ h.log_written i, fun _ => hlog⟩
  · refine ⟨hlog ▸ hledger.take request.lastNewIndex, fun hstate => ?_⟩
    -- a leader that accepts the request is the writer of its term, and has sent it
    obtain ⟨hleads, hsame⟩ := hmoved.leader hstate
    have hcurrent := hterm fun hlt => haccepted (Or.inl hlt)
    have hown := (h.leader_writes i hleads).2
    rw [← hsame, hcurrent] at hown
    refine absurd ⟨?_, by rw [hown]⟩ hnot
    rw [← hown]
    exact hcut.lastNewIndex_le

theorem Inv.handle (h : Inv ids w writer ledger) (event : Event)
    (hsent : ∀ i request, event = .appendEntries i request → request ∈ w.sent) :
    Inv ids (w.handle event) writer ledger := by
  -- what the event does to the log of its node
  have hlog : Written ledger (event.handle (w.nodes event.node)).log ∧
      ((event.handle (w.nodes event.node)).state = .leader →
        (event.handle (w.nodes event.node)).log = (w.nodes event.node).log) := by
    cases event with
    | electionTimeout i =>
      have hsame := (w.nodes i).log_electionTimeout
      exact ⟨hsame.symm ▸ h.log_written i, fun _ => hsame⟩
    | requestVote i request =>
      have hsame := (w.nodes i).log_handleRequestVote request
      exact ⟨hsame.symm ▸ h.log_written i, fun _ => hsame⟩
    | appendEntries i request => exact h.log_handleAppendEntries (hsent i request rfl) i
  have hcases : ∀ i, w.nodes.step event i = w.nodes i ∧ i ≠ event.node ∨
      w.nodes.step event i = event.handle (w.nodes event.node) ∧ i = event.node := by
    intro i
    unfold Cluster.step
    by_cases hi : i = event.node
    · exact Or.inr ⟨by rw [hi, Function.update_self], hi⟩
    · exact Or.inl ⟨Function.update_of_ne hi _ _, hi⟩
  refine h.moved (fun i => ?_) (fun i => ?_) (fun i => ?_) fun vote hvote => ?_
  · obtain ⟨hnode, -⟩ | ⟨hnode, rfl⟩ := hcases i
    · rw [hnode]
      exact ⟨rfl, le_refl _, fun hstate => ⟨hstate, rfl⟩, fun hstate _ => hstate⟩
    · rw [hnode]
      exact event.moved _
  · obtain ⟨hnode, -⟩ | ⟨hnode, -⟩ := hcases i
    · rw [hnode]
      exact h.log_written i
    · rw [hnode]
      exact hlog.1
  · obtain ⟨hnode, -⟩ | ⟨hnode, rfl⟩ := hcases i
    · rw [hnode]
      exact fun _ => rfl
    · rw [hnode]
      exact hlog.2
  · obtain ⟨hvoter, hballot⟩ := Event.ballot_of_casts (Option.mem_toList.mp hvote)
    rw [hvoter, Cluster.step, Function.update_self]
    exact hballot.symm

/-- **A leader writes**: node `i`, which leads then, makes its log the ledger of its term, of which
it is the writer. -/
theorem Inv.write (h : Inv ids w writer ledger) (nodes : Cluster) {term : ℕ}
    (hother : ∀ j, j ≠ i → nodes j = w.nodes j) (hid : (nodes i).id = i)
    (hpersistent : (nodes i).persistent = (w.nodes i).persistent)
    (hleads : (nodes i).state = .leader) (hterm : (nodes i).persistent.currentTerm = term)
    (helected : w.Elects ids term i) (hwriter : ∀ j, writer term = some j → j = i)
    (hgrows : ledger term <+: (nodes i).log)
    (hwritten : Written (Function.update ledger term (nodes i).log) (nodes i).log) :
    Inv ids { w with nodes := nodes } (Function.update writer term (some i))
      (Function.update ledger term (nodes i).log) := by
  have hgrow := prefix_update hgrows
  -- what is written to disk stays
  have hkept : ∀ j, (nodes j).persistent = (w.nodes j).persistent := by
    intro j
    by_cases hj : j = i
    · rw [hj, hpersistent]
    · rw [hother j hj]
  have hwriters : ∀ t j, Function.update writer term (some i) t = some j →
      t = term ∧ j = i ∨ writer t = some j := by
    intro t j hw
    by_cases ht : t = term
    · rw [ht, Function.update_self] at hw
      exact Or.inl ⟨ht, (Option.some.inj hw).symm⟩
    · rw [Function.update_of_ne ht] at hw
      exact Or.inr hw
  refine ⟨fun j => ?_, fun vote hvote => ?_, h.vote_unique, fun t j hw => ?_, fun t j hw => ?_,
    fun t j hw ht => ?_, fun j hstate => ?_, fun t hw => ?_, fun t => ?_, fun j => ?_,
    fun request hrequest => (h.sent_cut request hrequest).mono (hgrow request.term)⟩
  · by_cases hj : j = i
    · rw [hj]
      exact hid
    · dsimp only
      rw [hother j hj]
      exact h.id_eq j
  · change _ ≤ Ballot.mk _ _
    rw [hkept]
    exact h.vote_le vote hvote
  · obtain ⟨rfl, rfl⟩ | hw := hwriters t j hw
    · exact helected
    · exact h.writer_elected t j hw
  · obtain ⟨rfl, rfl⟩ | hw := hwriters t j hw
    · exact hterm.ge
    · rw [hkept]
      exact h.writer_term_le t j hw
  · by_cases hj : j = i
    · rw [hj]
      exact hleads
    · dsimp only at ht ⊢
      rw [hother j hj] at ht ⊢
      exact h.writer_leads t j ((hwriters t j hw).resolve_left fun h => hj h.2) ht
  · by_cases hj : j = i
    · rw [hj, hterm]
      exact ⟨Function.update_self _ _ _, Function.update_self _ _ _⟩
    · dsimp only at hstate ⊢
      rw [hother j hj] at hstate ⊢
      obtain ⟨hown, hledger⟩ := h.leader_writes j hstate
      -- the other node leads another term
      have hne : (w.nodes j).persistent.currentTerm ≠ term := by
        rintro rfl
        exact hj (hwriter j hown)
      exact ⟨(Function.update_of_ne hne _ _).trans hown,
        (Function.update_of_ne hne _ _).trans hledger⟩
  · by_cases ht : t = term
    · rw [ht, Function.update_self] at hw
      cases hw
    · rw [Function.update_of_ne ht] at hw ⊢
      exact h.ledger_nil t hw
  · by_cases ht : t = term
    · rw [ht, Function.update_self]
      exact hwritten
    · rw [Function.update_of_ne ht]
      exact (h.ledger_written t).mono hgrow
  · by_cases hj : j = i
    · rw [hj]
      exact hwritten
    · dsimp only
      rw [hother j hj]
      exact (h.log_written j).mono hgrow

/-- **A new leader** is the first of its term, for a majority elects one candidate; its log becomes
the ledger of the term. -/
theorem Inv.lead (h : Inv ids w writer ledger) (hcandidate : (w.nodes i).state = .candidate)
    (helected : w.Elects ids (w.nodes i).persistent.currentTerm i) :
    Inv ids (w.lead i)
      (Function.update writer (w.nodes i).persistent.currentTerm (some i))
      (Function.update ledger (w.nodes i).persistent.currentTerm (w.nodes i).log) := by
  have hfirst : writer (w.nodes i).persistent.currentTerm = none := by
    rcases hwriter : writer (w.nodes i).persistent.currentTerm with _ | j
    · rfl
    · obtain rfl : j = i := by
        refine HasMajority.unique (fun voter c c' hc hc' => ?_)
          (h.writer_elected _ j hwriter) helected
        exact h.vote_unique voter _ c c' hc hc'
      have hleads := h.writer_leads _ j hwriter rfl
      rw [hcandidate] at hleads
      exact absurd hleads (by simp)
  have hself : (w.lead i).nodes i = { w.nodes i with state := .leader } :=
    Function.update_self _ _ _
  have hnil : ledger (w.nodes i).persistent.currentTerm <+: (w.nodes i).log := by
    rw [h.ledger_nil _ hfirst]
    exact List.nil_prefix
  have hinv := h.write (w.lead i).nodes (fun j hj => Function.update_of_ne hj _ _)
    (by rw [hself]; exact h.id_eq i) (by rw [hself]) (by rw [hself]) (by rw [hself]) helected
    (fun j hj => by rw [hfirst] at hj; cases hj) (by rw [hself]; exact hnil) ?_
  · rwa [hself] at hinv
  · rw [hself]
    exact (h.log_written i).mono (prefix_update hnil)

/-- **A leader appends** to its log and to the ledger of its term. -/
theorem Inv.append (h : Inv ids w writer ledger) (hleader : (w.nodes i).state = .leader)
    (command : Command) :
    Inv ids (w.append i command) writer
      (Function.update ledger (w.nodes i).persistent.currentTerm
        ((w.nodes i).appendEntry command).1.log) := by
  obtain ⟨hwriter, hledger⟩ := h.leader_writes i hleader
  have happend : ((w.nodes i).appendEntry command).1 = { w.nodes i with
      log := (w.nodes i).log ++
        [⟨(w.nodes i).persistent.currentTerm, (w.nodes i).log.length + 1, command⟩] } := by
    rw [RaftNode.appendEntry, if_neg (not_not.mpr hleader)]
  have hself : (w.append i command).nodes i = ((w.nodes i).appendEntry command).1 :=
    Function.update_self _ _ _
  have hgrows : ledger (w.nodes i).persistent.currentTerm <+:
      ((w.nodes i).appendEntry command).1.log := by
    rw [hledger, happend]
    exact List.prefix_append _ _
  have hinv := h.write (w.append i command).nodes
    (fun j hj => Function.update_of_ne hj _ _) (by rw [hself, happend]; exact h.id_eq i)
    (by rw [hself, happend]) (by rw [hself, happend]; exact hleader) (by rw [hself, happend])
    (h.writer_elected _ i hwriter)
    (fun j hj => (Option.some.inj (hwriter.symm.trans hj)).symm) (by rw [hself]; exact hgrows) ?_
  · rw [hself] at hinv
    rwa [Function.update_eq_self_iff.mpr hwriter.symm] at hinv
  · have hold := (h.log_written i).mono (prefix_update hgrows)
    rw [hself]
    rw [happend] at hold ⊢
    exact hold.append (Function.update_self _ _ _) rfl

/-- **Every step keeps the invariant.** -/
theorem Inv.step (h : Inv ids w writer ledger) (hstep : Step ids w w') :
    ∃ writer ledger, Inv ids w' writer ledger := by
  cases hstep with
  | handle event hsent => exact ⟨writer, ledger, h.handle event hsent⟩
  | lead i hcandidate helected => exact ⟨_, _, h.lead hcandidate helected⟩
  | append i command =>
    by_cases hleader : (w.nodes i).state = .leader
    · exact ⟨_, _, h.append hleader command⟩
    · -- refused
      rw [World.append, RaftNode.appendEntry, if_pos hleader, Function.update_eq_self]
      exact ⟨writer, ledger, h⟩
  | send i request hleader hterm hcut =>
    refine ⟨writer, ledger, { h with sent_cut := fun r hr => ?_ }⟩
    rcases List.mem_append.mp hr with hr | hr
    · exact h.sent_cut r hr
    · rw [List.mem_singleton.mp hr, hterm, (h.leader_writes i hleader).2]
      exact hcut

theorem exists_inv_of_reachable (h : Reachable ids peers w) :
    ∃ writer ledger, Inv ids w writer ledger := by
  induction h with
  | refl => exact ⟨_, _, inv_start⟩
  | tail _ hstep ih =>
    obtain ⟨writer, ledger, hinv⟩ := ih
    exact hinv.step hstep

/-- **Log matching in every run.** Whatever is lost, repeated, reordered or late: in every state
that a cluster of new nodes reaches a term has at most one leader, the entries of every log carry
their positions, and two entries with one index and one term, in any two logs, come with the same
log before them. A request on its way is of a log that matches them all. -/
theorem logMatching_of_reachable (ids : Finset NodeId) (peers : NodeId → List NodeId) (w : World)
    (h : Reachable ids peers w) :
    (∀ i j, (w.nodes i).state = .leader → (w.nodes j).state = .leader →
      (w.nodes i).persistent.currentTerm = (w.nodes j).persistent.currentTerm → i = j) ∧
    (∀ i, Indexed (w.nodes i).log) ∧
    (∀ i j, LogMatching (w.nodes i).log (w.nodes j).log) ∧
    ∀ request ∈ w.sent, ∃ L, CutFrom L request ∧ ∀ i, LogMatching (w.nodes i).log L := by
  obtain ⟨writer, ledger, hinv⟩ := exists_inv_of_reachable h
  have hmatch : ∀ F L, Written ledger F → Written ledger L → LogMatching F L := by
    intro F L hF hL
    rw [logMatching_iff hF.indexed hL.indexed]
    exact hF.follows.matching hL.follows
  refine ⟨fun i j hi hj hterm => ?_, fun i => (hinv.log_written i).indexed, fun i j => ?_,
    fun request hrequest => ⟨ledger request.term, hinv.sent_cut request hrequest, fun i => ?_⟩⟩
  · have hwi := (hinv.leader_writes i hi).1
    have hwj := (hinv.leader_writes j hj).1
    rw [hterm, hwj] at hwi
    exact (Option.some.inj hwi).symm
  · exact hmatch _ _ (hinv.log_written i) (hinv.log_written j)
  · exact hmatch _ _ (hinv.log_written i) (hinv.ledger_written _)

/-! ### A command that reaches another node -/

/-- What node 1 sends after its first command. -/
def firstRequest : AppendEntriesRequest where
  term := 1
  leaderId := ⟨1⟩
  prevLogIndex := 0
  prevLogTerm := 0
  entries := [⟨1, 1, .noOp⟩]
  leaderCommit := 0

/-- Node 1 is elected by itself, appends a command and sends it to node 2. -/
def replicated : World :=
  (((((start fun _ => []).handle (.electionTimeout ⟨1⟩)).lead ⟨1⟩).append ⟨1⟩ .noOp).send
    firstRequest).handle (.appendEntries ⟨2⟩ firstRequest)

theorem reachable_replicated : Reachable {⟨1⟩} (fun _ => []) replicated := by
  refine .tail (.tail (.tail (.tail (.single (.handle _ fun i request h => ?_)) (.lead ⟨1⟩ rfl ?_))
    (.append ⟨1⟩ .noOp)) (.send ⟨1⟩ firstRequest rfl rfl ?_)) (.handle _ fun i request h => ?_)
  · exact absurd h (by simp)
  · -- the candidate has voted for itself
    refine ⟨{⟨1⟩}, Finset.Subset.refl _, by decide, fun voter hvoter => ?_⟩
    rw [Finset.mem_singleton.mp hvoter]
    exact List.mem_cons_self
  · refine ⟨Nat.zero_le _, fun entry hpos => absurd hpos (by decide), rfl, Nat.zero_le _⟩
  · rw [← (Event.appendEntries.inj h).2]
    exact List.mem_cons_self

theorem logMatching_of_reachable_replicated :
    (replicated.nodes ⟨2⟩).log = [⟨1, 1, .noOp⟩] ∧
      LogMatching (replicated.nodes ⟨1⟩).log (replicated.nodes ⟨2⟩).log :=
  ⟨rfl, (logMatching_of_reachable {⟨1⟩} (fun _ => []) replicated
    reachable_replicated).2.2.1 ⟨1⟩ ⟨2⟩⟩

end World

end Ipfrs.Raft
