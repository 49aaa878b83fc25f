import Mathlib.Data.List.AList
import Mathlib.Data.Rat.Floor

/-!
# Federated round consensus

The tracker of `ipfrs-tensorlogic/src/consensus.rs`. A round is begun with the peers that are
expected to vote. Every vote is followed by a look at the quorum policy, which may commit the round,
abort it, or wait for more votes; a round that is committed or aborted takes no more votes.

The fractions of the policy are exact here (`ℚ` for `f64`). Times are numbers of nanoseconds, and
every operation gets the time at which it looks at the clock. The operations hold one lock, so they
come one after the other.

* `step_cases` — what an operation can do to the rounds.
* `decided_forever` — a decided round stays as it is, whatever is done with the tracker.
-/

namespace Ipfrs.Tensorlogic.Consensus

/-! ### Votes -/

inductive Vote where
  | commit
  | abort
  | abstain
  deriving DecidableEq, Repr

/-- `PeerVote`, without the time of the vote, which nothing reads. -/
structure PeerVote where
  peerId : String
  roundId : UInt64
  vote : Vote
  gradientCid : Option String
  deriving DecidableEq, Repr

inductive QuorumResult where
  | commit (gradientCids : List String)
  | abort (reason : String)
  | pending (votesReceived votesNeeded : ℕ)
  | timedOut
  deriving DecidableEq, Repr

/-- The CIDs that committing peers have sent. -/
def gradientCids (votes : List PeerVote) : List String :=
  (votes.filter fun v => v.vote = .commit).filterMap fun v => v.gradientCid

/-! ### The policy -/

structure QuorumPolicy where
  minPeers : ℕ := 3
  commitThreshold : ℚ := 67 / 100
  timeout : ℕ := 30 * 10 ^ 9
  deriving DecidableEq, Repr

/-- The nearest integer, and of two nearest ones the even one. -/
def roundHalfEven (q : ℚ) : ℤ :=
  let below := q - ⌊q⌋
  if below < 1 / 2 then ⌊q⌋
  else if 1 / 2 < below then ⌊q⌋ + 1
  else if ⌊q⌋ % 2 = 0 then ⌊q⌋ else ⌊q⌋ + 1

/-- A number as `{:.0}` prints it. -/
def formatRounded (q : ℚ) : String :=
  (if q < 0 then "-" else "") ++ toString (roundHalfEven |q|)

namespace QuorumPolicy

/-- The number of `Commit` votes. -/
def commitCount (votes : List PeerVote) : ℕ := (votes.filter fun v => v.vote = .commit).length

/-- The number of other votes. -/
def abortOrAbstain (votes : List PeerVote) : ℕ := (votes.filter fun v => v.vote ≠ .commit).length

/-- The reason that `check` gives for an abort. -/
def abortReason (p : QuorumPolicy) (votes : List PeerVote) : String :=
  "commit threshold unreachable: " ++ toString (abortOrAbstain votes) ++ "/"
    ++ toString votes.length ++ " votes are non-commit ("
    ++ formatRounded ((abortOrAbstain votes : ℚ) / votes.length * 100) ++ "% > "
    ++ formatRounded ((1 - p.commitThreshold) * 100) ++ "% max)"

def check (p : QuorumPolicy) (votes : List PeerVote) (elapsed : ℕ) : QuorumResult :=
  if elapsed ≥ p.timeout then .timedOut
  else
    let total := votes.length
    -- without a vote the fractions are NaN, and no comparison holds
    if total ≥ p.minPeers ∧ total ≠ 0 ∧ (commitCount votes : ℚ) / total ≥ p.commitThreshold then
      .commit (gradientCids votes)
    else if total ≥ p.minPeers ∧ total ≠ 0 ∧
        (abortOrAbstain votes : ℚ) / total > 1 - p.commitThreshold then
      .abort (p.abortReason votes)
    else if total < p.minPeers then .pending total (p.minPeers - total)
    else .pending total (⌈p.commitThreshold * (total + 1)⌉.toNat - commitCount votes)

end QuorumPolicy

/-! ### Rounds -/

inductive RoundStatus where
  | active
  | committed
  | aborted (reason : String)
  deriving DecidableEq, Repr

def RoundStatus.isTerminal : RoundStatus → Bool
  | .active => false
  | .committed => true
  | .aborted _ => true

/-- `RoundState`. Nothing reads the expected peers. -/
structure RoundState where
  roundId : UInt64
  expectedPeers : List String
  votes : List PeerVote := []
  startedAt : ℕ
  status : RoundStatus := .active
  deriving DecidableEq, Repr

namespace RoundState

def elapsed (s : RoundState) (now : ℕ) : ℕ := now - s.startedAt

def hasVoted (s : RoundState) (peerId : String) : Bool := s.votes.any fun v => v.peerId = peerId

end RoundState

/-- `ConsensusStats`. The counters wrap. -/
structure ConsensusStats where
  totalRoundsStarted : UInt64 := 0
  totalCommitted : UInt64 := 0
  totalAborted : UInt64 := 0
  totalVotesCast : UInt64 := 0
  deriving DecidableEq, Repr

inductive ConsensusError where
  | roundNotFound (roundId : UInt64)
  | roundAlreadyExists (roundId : UInt64)
  | roundNotActive (roundId : UInt64)
  | duplicateVote (peerId : String) (roundId : UInt64)
  deriving DecidableEq, Repr

/-! ### The tracker -/

structure RoundConsensusTracker where
  rounds : AList fun _ : UInt64 => RoundState := ∅
  policy : QuorumPolicy
  stats : ConsensusStats := {}

namespace RoundConsensusTracker

variable (t : RoundConsensusTracker)

def beginRound (now : ℕ) (roundId : UInt64) (expectedPeers : List String) :
    Except ConsensusError RoundConsensusTracker :=
  if roundId ∈ t.rounds then .error (.roundAlreadyExists roundId)
  else .ok { t with
    rounds := t.rounds.insert roundId { roundId, expectedPeers, startedAt := now }
    stats := { t.stats with totalRoundsStarted := t.stats.totalRoundsStarted + 1 } }

/-- The status of a round after a result. -/
def statusAfter : QuorumResult → RoundStatus
  | .commit _ => .committed
  | .abort reason => .aborted reason
  | .timedOut => .aborted "timeout"
  | .pending _ _ => .active

/-- The counters after a vote with this result. -/
def countVote (stats : ConsensusStats) (result : QuorumResult) : ConsensusStats :=
  let stats := { stats with totalVotesCast := stats.totalVotesCast + 1 }
  match result with
  | .commit _ => { stats with totalCommitted := stats.totalCommitted + 1 }
  | .abort _ => { stats with totalAborted := stats.totalAborted + 1 }
  | .timedOut => { stats with totalAborted := stats.totalAborted + 1 }
  | .pending _ _ => stats

def castVote (now : ℕ) (vote : PeerVote) :
    Except ConsensusError (QuorumResult × RoundConsensusTracker) :=
  match t.rounds.lookup vote.roundId with
  | none => .error (.roundNotFound vote.roundId)
  | some state =>
    if state.status.isTerminal then .error (.roundNotActive vote.roundId)
    else if state.hasVoted vote.peerId then .error (.duplicateVote vote.peerId vote.roundId)
    else
      let votes := state.votes ++ [vote]
      let result := t.policy.check votes (state.elapsed now)
      .ok (result, { t with
        rounds := t.rounds.insert vote.roundId { state with votes, status := statusAfter result }
        stats := countVote t.stats result })

def checkRound (now : ℕ) (roundId : UInt64) : Option QuorumResult :=
  (t.rounds.lookup roundId).map fun state =>
    match state.status with
    | .committed => .commit (gradientCids state.votes)
    | .aborted reason => .abort reason
    | .active => t.policy.check state.votes (state.elapsed now)

def abortRound (roundId : UInt64) (reason : String) : Except ConsensusError RoundConsensusTracker :=
  match t.rounds.lookup roundId with
  | none => .error (.roundNotFound roundId)
  | some state =>
    if state.status.isTerminal then .error (.roundNotActive roundId)
    else .ok { t with
      rounds := t.rounds.insert roundId { state with status := .aborted reason }
      stats := { t.stats with totalAborted := t.stats.totalAborted + 1 } }

end RoundConsensusTracker

/-! ### Runs -/

/-- An operation that may change the tracker. -/
inductive Op where
  | beginRound (now : ℕ) (roundId : UInt64) (expectedPeers : List String)
  | castVote (now : ℕ) (vote : PeerVote)
  | abortRound (roundId : UInt64) (reason : String)

namespace RoundConsensusTracker

/-- The tracker after an operation. One that fails changes nothing. -/
def step (t : RoundConsensusTracker) : Op → RoundConsensusTracker
  | .beginRound now roundId expectedPeers =>
    match t.beginRound now roundId expectedPeers with
    | .ok t' => t'
    | .error _ => t
  | .castVote now vote =>
    match t.castVote now vote with
    | .ok (_, t') => t'
    | .error _ => t
  | .abortRound roundId reason =>
    match t.abortRound roundId reason with
    | .ok t' => t'
    | .error _ => t

/-- The tracker after a sequence of operations. -/
def run (t : RoundConsensusTracker) (ops : List Op) : RoundConsensusTracker := ops.foldl step t

variable {t : RoundConsensusTracker} {id : UInt64} {state : RoundState}

/-- **What an operation can do**: nothing, or give a round that is not decided a new state. -/
theorem step_cases (t : RoundConsensusTracker) (op : Op) :
    t.step op = t ∨ ∃ roundId state stats,
      t.step op = { t with rounds := t.rounds.insert roundId state, stats } ∧
        ∀ old, t.rounds.lookup roundId = some old → old.status.isTerminal = false := by
  cases op with
  | beginRound now roundId expectedPeers =>
    by_cases hmem : roundId ∈ t.rounds
    · exact Or.inl (by simp only [step, beginRound, if_pos hmem])
    · -- there is no old state
      refine Or.inr ⟨roundId, _, _, by simp only [step, beginRound, if_neg hmem]; rfl, ?_⟩
      intro old hold
      exact absurd (AList.lookup_isSome.mp (by rw [hold]; rfl)) hmem
  | castVote now vote =>
    cases hlookup : t.rounds.lookup vote.roundId with
    | none => exact Or.inl (by simp only [step, castVote, hlookup])
    | some old =>
      by_cases hterm : old.status.isTerminal = true
      · exact Or.inl (by simp only [step, castVote, hlookup, if_pos hterm])
      -- a second vote of a peer is refused, and changes nothing
      by_cases hvoted : old.hasVoted vote.peerId = true
      · exact Or.inl (by simp only [step, castVote, hlookup, if_neg hterm, if_pos hvoted])
      refine Or.inr ⟨vote.roundId, _, _,
        by simp only [step, castVote, hlookup, if_neg hterm, if_neg hvoted]; rfl, ?_⟩
      rintro old' hold'
      obtain rfl := Option.some.inj (hlookup.symm.trans hold')
      exact Bool.eq_false_of_not_eq_true hterm
  | abortRound roundId reason =>
    cases hlookup : t.rounds.lookup roundId with
    | none => exact Or.inl (by simp only [step, abortRound, hlookup])
    | some old =>
      by_cases hterm : old.status.isTerminal = true
      · exact Or.inl (by simp only [step, abortRound, hlookup, if_pos hterm])
      refine Or.inr ⟨roundId, _, _, by simp only [step, abortRound, hlookup, if_neg hterm]; rfl, ?_⟩
      rintro old' hold'
      obtain rfl := Option.some.inj (hlookup.symm.trans hold')
      exact Bool.eq_false_of_not_eq_true hterm

theorem policy_step (t : RoundConsensusTracker) (op : Op) : (t.step op).policy = t.policy := by
  rcases t.step_cases op with h | ⟨_, _, _, h, -⟩ <;> rw [h]

theorem lookup_step_of_terminal (op : Op) (hstate : t.rounds.lookup id = some state)
    (hterm : state.status.isTerminal = true) : (t.step op).rounds.lookup id = some state := by
  rcases t.step_cases op with h | ⟨roundId, new, stats, h, hactive⟩
  · rwa [h]
  · -- the round with a new state is another one
    have hne : id ≠ roundId := by
      rintro rfl
      exact absurd hterm (by simp [hactive state hstate])
    rw [h]
    exact (AList.lookup_insert_ne hne).trans hstate

/-- **A decided round stays as it is**, whatever is done with the tracker. -/
theorem lookup_run_of_terminal (ops : List Op) (hstate : t.rounds.lookup id = some state)
    (hterm : state.status.isTerminal = true) : (t.run ops).rounds.lookup id = some state := by
  induction ops generalizing t with
  | nil => exact hstate
  | cons op ops ih => exact ih (lookup_step_of_terminal op hstate hterm)

theorem castVote_of_terminal {vote : PeerVote} (hstate : t.rounds.lookup vote.roundId = some state)
    (hterm : state.status.isTerminal = true) (now : ℕ) :
    t.castVote now vote = .error (.roundNotActive vote.roundId) := by
  simp only [castVote, hstate, if_pos hterm]

theorem abortRound_of_terminal (hstate : t.rounds.lookup id = some state)
    (hterm : state.status.isTerminal = true) (reason : String) :
    t.abortRound id reason = .error (.roundNotActive id) := by
  simp only [abortRound, hstate, if_pos hterm]

/-- Once the round is decided, nothing is done to it, and no vote is taken. -/
theorem decided_forever
    (hstate : t.rounds.lookup id = some state) (hterm : state.status.isTerminal = true)
    (ops : List Op) :
    (∀ now, (t.run ops).checkRound now id = t.checkRound 0 id) ∧
      (∀ now (vote : PeerVote), vote.roundId = id →
        (t.run ops).castVote now vote = .error (.roundNotActive id)) ∧
      ∀ reason, (t.run ops).abortRound id reason = .error (.roundNotActive id) := by
  have hlater := lookup_run_of_terminal ops hstate hterm
  refine ⟨fun now => ?_, ?_, fun reason => abortRound_of_terminal hlater hterm reason⟩
  · rw [checkRound, checkRound, hlater, hstate]
    cases hstatus : state.status with
    | active => exact absurd hterm (by simp [hstatus, RoundStatus.isTerminal])
    | committed => simp only [Option.map_some, hstatus]
    | aborted reason => simp only [Option.map_some, hstatus]
  · rintro now vote rfl
    exact castVote_of_terminal hlater hterm now

theorem castVote_of_active {vote : PeerVote} (hstate : t.rounds.lookup vote.roundId = some state)
    (hactive : state.status = .active) (hnew : vote.peerId ∉ state.votes.map PeerVote.peerId)
    (now : ℕ) {result : QuorumResult}
    (hresult : t.policy.check (state.votes ++ [vote]) (state.elapsed now) = result) :
    t.castVote now vote = .ok (result, { t with
      rounds := t.rounds.insert vote.roundId { state with
        votes := state.votes ++ [vote]
        status := statusAfter result }
      stats := countVote t.stats result }) := by
  have hvoted : state.hasVoted vote.peerId = false := by
    rw [RoundState.hasVoted, List.any_eq_false]
    intro v hv hpeer
    exact hnew (List.mem_map.mpr ⟨v, hv, of_decide_eq_true hpeer⟩)
  have hterm : state.status.isTerminal = false := by
    rw [hactive]
    rfl
  simp only [castVote, hstate, hterm, hvoted, hresult, Bool.false_eq_true, if_false]

end RoundConsensusTracker

end Ipfrs.Tensorlogic.Consensus
