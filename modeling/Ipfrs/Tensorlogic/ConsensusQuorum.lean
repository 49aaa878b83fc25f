import Ipfrs.Tensorlogic.Consensus

/-!
# When a round is decided

The policy looks at the votes that are there and not at the peers that have yet to vote. So it
decides at the first vote that makes the quorum, whatever is still to come: it commits if the votes
so far meet the threshold, and aborts if they do not.

* `meets_withRest_of_meets` — what the votes still to come can do at best: if any of them make the
  round meet the threshold, then it does when every peer that has not voted votes `Commit`.
* `answer_early`, `answer_decisive`, `answer_late` — the answers to a sequence of votes.
* `soundDecisions_iff` — the decisions are those that the threshold on all expected peers calls for,
  exactly when the votes that make the quorum meet the threshold or rule it out.
-/

namespace Ipfrs.Tensorlogic.Consensus

namespace QuorumPolicy

/-! ### Meeting the threshold -/

/-- The votes make the quorum, and enough of them are `Commit`. -/
def Meets (p : QuorumPolicy) (votes : List PeerVote) : Prop :=
  p.minPeers ≤ votes.length ∧ p.commitThreshold ≤ (commitCount votes : ℚ) / votes.length

instance (p : QuorumPolicy) (votes : List PeerVote) : Decidable (p.Meets votes) :=
  inferInstanceAs (Decidable (_ ∧ _))

theorem commitCount_add_abortOrAbstain (votes : List PeerVote) :
    commitCount votes + abortOrAbstain votes = votes.length := by
  have hsplit := List.length_eq_length_filter_add (l := votes) fun v => decide (v.vote = .commit)
  simp only [← decide_not] at hsplit
  exact hsplit.symm

theorem abortOrAbstain_append (votes votes' : List PeerVote) :
    abortOrAbstain (votes ++ votes') = abortOrAbstain votes + abortOrAbstain votes' := by
  rw [abortOrAbstain, List.filter_append, List.length_append]
  rfl

variable {p : QuorumPolicy} {votes : List PeerVote}

/-- The threshold leaves room for some votes other than `Commit`. -/
theorem threshold_le_iff (hne : votes ≠ []) :
    p.commitThreshold ≤ (commitCount votes : ℚ) / votes.length ↔
      (abortOrAbstain votes : ℚ) ≤ (1 - p.commitThreshold) * votes.length := by
  have hpos : (0 : ℚ) < votes.length := Nat.cast_pos.mpr (List.length_pos_iff.mpr hne)
  have hcount : (commitCount votes : ℚ) + abortOrAbstain votes = votes.length := by
    exact_mod_cast commitCount_add_abortOrAbstain votes
  rw [le_div_iff₀ hpos]
  constructor
  · intro h
    linarith
  · intro h
    linarith

theorem meets_iff (hne : votes ≠ []) :
    p.Meets votes ↔ p.minPeers ≤ votes.length ∧
      (abortOrAbstain votes : ℚ) ≤ (1 - p.commitThreshold) * votes.length :=
  and_congr_right fun _ => threshold_le_iff hne

/-! ### The answer of `check` -/

section Check

variable {elapsed : ℕ}

theorem check_of_lt (htime : elapsed < p.timeout) (h : votes.length < p.minPeers) :
    p.check votes elapsed = .pending votes.length (p.minPeers - votes.length) := by
  have hquorum : ¬ votes.length ≥ p.minPeers := by omega
  rw [check, if_neg (by omega)]
  simp only [hquorum, false_and, if_false, if_pos h]

theorem check_of_meets (htime : elapsed < p.timeout) (hne : votes ≠ []) (h : p.Meets votes) :
    p.check votes elapsed = .commit (gradientCids votes) := by
  have hlen : votes.length ≠ 0 := fun h0 => hne (List.eq_nil_of_length_eq_zero h0)
  rw [check, if_neg (by omega)]
  exact if_pos ⟨h.1, hlen, h.2⟩

/-- With the quorum there is a decision: what does not meet the threshold is beyond the proxy. -/
theorem check_of_not_meets (htime : elapsed < p.timeout) (hne : votes ≠ [])
    (hmin : p.minPeers ≤ votes.length) (h : ¬ p.Meets votes) :
    p.check votes elapsed = .abort (p.abortReason votes) := by
  have hlen : votes.length ≠ 0 := fun h0 => hne (List.eq_nil_of_length_eq_zero h0)
  have hpos : (0 : ℚ) < votes.length := Nat.cast_pos.mpr (List.length_pos_iff.mpr hne)
  have hthreshold : ¬ p.commitThreshold ≤ (commitCount votes : ℚ) / votes.length :=
    fun hle => h ⟨hmin, hle⟩
  have hproxy : (abortOrAbstain votes : ℚ) / votes.length > 1 - p.commitThreshold := by
    rw [gt_iff_lt, lt_div_iff₀ hpos, ← not_le, ← threshold_le_iff hne]
    exact hthreshold
  rw [check, if_neg (by omega)]
  dsimp only
  rw [if_neg fun hcommit => hthreshold hcommit.2.2, if_pos ⟨hmin, hlen, hproxy⟩]

end Check

/-! ### The votes still to come -/

/-- The votes, when every peer that has not voted votes `Commit`. -/
def withRest (peers : List String) (roundId : UInt64) (votes : List PeerVote) : List PeerVote :=
  votes ++ (peers.filter fun peer => peer ∉ votes.map PeerVote.peerId).map
    fun peer => ⟨peer, roundId, .commit, none⟩

/-- Votes of different peers, all of them expected. -/
def FromPeers (peers : List String) (votes : List PeerVote) : Prop :=
  (votes.map PeerVote.peerId).Nodup ∧ votes.map PeerVote.peerId ⊆ peers

section Rest

variable {peers : List String} {roundId : UInt64}

theorem length_withRest (hpeers : peers.Nodup) (h : FromPeers peers votes) :
    (withRest peers roundId votes).length = peers.length := by
  have hvoted : (peers.filter fun peer => peer ∈ votes.map PeerVote.peerId).length
      = votes.length := by
    have hperm : (peers.filter fun peer => peer ∈ votes.map PeerVote.peerId).Perm
        (votes.map PeerVote.peerId) := by
      refine (List.perm_ext_iff_of_nodup (hpeers.filter _) h.1).mpr fun peer => ?_
      simp only [List.mem_filter, decide_eq_true_eq]
      exact ⟨fun hp => hp.2, fun hp => ⟨h.2 hp, hp⟩⟩
    rw [hperm.length_eq, List.length_map]
  have hsplit := List.length_eq_length_filter_add (l := peers)
    fun peer => decide (peer ∈ votes.map PeerVote.peerId)
  simp only [← decide_not] at hsplit
  rw [withRest, List.length_append, List.length_map]
  omega

theorem abortOrAbstain_withRest :
    abortOrAbstain (withRest peers roundId votes) = abortOrAbstain votes := by
  have hrest : abortOrAbstain ((peers.filter fun peer => peer ∉ votes.map PeerVote.peerId).map
      fun peer => ⟨peer, roundId, .commit, none⟩) = 0 := by
    simp [abortOrAbstain, List.filter_map, Function.comp_def]
  rw [withRest, abortOrAbstain_append, hrest, Nat.add_zero]

theorem meets_withRest_iff (hpeers : peers.Nodup) (hmin : p.minPeers ≤ peers.length)
    (h : FromPeers peers votes) (hne : votes ≠ []) :
    p.Meets (withRest peers roundId votes) ↔
      (abortOrAbstain votes : ℚ) ≤ (1 - p.commitThreshold) * peers.length := by
  have hne' : withRest peers roundId votes ≠ [] := by simp [withRest, hne]
  rw [meets_iff hne', length_withRest hpeers h, abortOrAbstain_withRest]
  exact and_iff_right hmin

/-- **No continuation does better** than the one in which all the others vote `Commit`. -/
theorem meets_withRest_of_meets (hthreshold : p.commitThreshold ≤ 1) (hpeers : peers.Nodup)
    {later : List PeerVote} (h : FromPeers peers (votes ++ later)) (hne : votes ≠ [])
    (hmeets : p.Meets (votes ++ later)) : p.Meets (withRest peers roundId votes) := by
  have hlen : (votes ++ later).length ≤ peers.length := by
    rw [← List.length_map (f := PeerVote.peerId)]
    exact (List.subperm_of_subset h.1 h.2).length_le
  have hvotes : FromPeers peers votes := by
    rw [FromPeers, List.map_append] at h
    exact ⟨(List.nodup_append.mp h.1).1, fun peer hp => h.2 (List.mem_append_left _ hp)⟩
  obtain ⟨hmin, hmax⟩ := (meets_iff (by simp [hne])).mp hmeets
  refine (meets_withRest_iff hpeers (hmin.trans hlen) hvotes hne).mpr ?_
  calc (abortOrAbstain votes : ℚ)
      ≤ abortOrAbstain (votes ++ later) := by
        rw [abortOrAbstain_append]
        exact_mod_cast Nat.le_add_right _ _
    _ ≤ (1 - p.commitThreshold) * (votes ++ later).length := hmax
    _ ≤ (1 - p.commitThreshold) * peers.length :=
        mul_le_mul_of_nonneg_left (Nat.cast_le.mpr hlen) (sub_nonneg.mpr hthreshold)

end Rest

end QuorumPolicy

/-! ### Sequences of votes -/

/-- The first `k` votes of a sequence, without their times. -/
def seen (votes : List (ℕ × PeerVote)) (k : ℕ) : List PeerVote := (votes.take k).map Prod.snd

section Seen

variable {votes : List (ℕ × PeerVote)} {k : ℕ}

theorem length_seen (hk : k ≤ votes.length) : (seen votes k).length = k := by
  rw [seen, List.length_map, List.length_take, Nat.min_eq_left hk]

theorem seen_succ (hk : k < votes.length) : seen votes (k + 1) = seen votes k ++ [votes[k].2] := by
  rw [seen, List.take_succ_eq_append_getElem hk, List.map_append]
  rfl

theorem seen_ne_nil (hk : k < votes.length) : seen votes (k + 1) ≠ [] := by
  rw [seen_succ hk]
  simp

theorem seen_prefix (votes : List (ℕ × PeerVote)) {i : ℕ} (hik : i ≤ k) :
    seen votes i <+: seen votes k :=
  (List.take_prefix_take_left hik).map _

end Seen

/-- Votes for one round, of different expected peers and before the timeout. -/
structure Voting (p : QuorumPolicy) (roundId : UInt64) (peers : List String) (start : ℕ)
    (votes : List (ℕ × PeerVote)) : Prop where
  round : ∀ v ∈ votes, v.2.roundId = roundId
  fromPeers : QuorumPolicy.FromPeers peers (votes.map Prod.snd)
  inTime : ∀ v ∈ votes, v.1 - start < p.timeout

theorem Voting.fromPeers_seen {p : QuorumPolicy} {roundId : UInt64} {peers : List String}
    {start : ℕ} {votes : List (ℕ × PeerVote)} (h : Voting p roundId peers start votes) (k : ℕ) :
    QuorumPolicy.FromPeers peers (seen votes k) := by
  have hsub : (seen votes k).Sublist (votes.map Prod.snd) := (List.take_sublist k votes).map _
  exact ⟨(hsub.map _).nodup h.fromPeers.1, fun _ hp => h.fromPeers.2 ((hsub.map _).subset hp)⟩

namespace RoundConsensusTracker

/-- The tracker after the first `k` votes. -/
def after (t : RoundConsensusTracker) (votes : List (ℕ × PeerVote)) (k : ℕ) :
    RoundConsensusTracker :=
  t.run ((votes.take k).map fun v => .castVote v.1 v.2)

/-- The answer to vote number `k`. -/
def answer (t : RoundConsensusTracker) (votes : List (ℕ × PeerVote)) (k : ℕ)
    (hk : k < votes.length) : Except ConsensusError QuorumResult :=
  ((t.after votes k).castVote votes[k].1 votes[k].2).map Prod.fst

/-- The state of a round that is not decided yet. -/
def openRound (roundId : UInt64) (expectedPeers : List String) (startedAt : ℕ)
    (votes : List PeerVote) : RoundState :=
  { roundId, expectedPeers, votes, startedAt }

variable {t : RoundConsensusTracker} {id : UInt64} {peers : List String} {start : ℕ}
  {votes : List (ℕ × PeerVote)}
variable {k : ℕ} {result : QuorumResult}

theorem after_succ (hk : k < votes.length) :
    t.after votes (k + 1) = (t.after votes k).step (.castVote votes[k].1 votes[k].2) := by
  rw [after, List.take_succ_eq_append_getElem hk, List.map_append, run, List.foldl_append]
  rfl

theorem exists_run_after (t : RoundConsensusTracker) (votes : List (ℕ × PeerVote)) {i : ℕ}
    (hik : i ≤ k) : ∃ ops, t.after votes k = (t.after votes i).run ops := by
  obtain ⟨later, hlater⟩ := List.take_prefix_take_left (l := votes) hik
  refine ⟨later.map fun v => .castVote v.1 v.2, ?_⟩
  rw [after, ← hlater, List.map_append, run, List.foldl_append]
  rfl

theorem answer_of_open (hk : k < votes.length) (h : Voting t.policy id peers start votes)
    (hopen : (t.after votes k).rounds.lookup id = some (openRound id peers start (seen votes k)))
    (hpolicy : (t.after votes k).policy = t.policy)
    (hresult : t.policy.check (seen votes (k + 1)) (votes[k].1 - start) = result) :
    t.answer votes k hk = .ok result ∧
      (t.after votes (k + 1)).rounds.lookup id = some { openRound id peers start
        (seen votes (k + 1)) with status := statusAfter result } := by
  have hround : votes[k].2.roundId = id := h.round _ (List.getElem_mem hk)
  have hnew : votes[k].2.peerId ∉ (seen votes k).map PeerVote.peerId := by
    have hnodup := (h.fromPeers_seen (k + 1)).1
    rw [seen_succ hk, List.map_append, List.nodup_append] at hnodup
    exact fun hmem => hnodup.2.2 _ hmem _ (List.mem_singleton_self _) rfl
  rw [← hround] at hopen
  rw [seen_succ hk] at hresult ⊢
  rw [← hpolicy] at hresult
  have hcast := castVote_of_active hopen rfl hnew votes[k].1 hresult
  constructor
  · rw [answer, hcast]
    rfl
  · rw [after_succ hk, step, hcast, ← hround]
    exact AList.lookup_insert _

theorem lookup_after (h : Voting t.policy id peers start votes)
    (hbegun : t.rounds.lookup id = some (openRound id peers start [])) (hk : k ≤ votes.length)
    (hquorum : k < max t.policy.minPeers 1) :
    (t.after votes k).rounds.lookup id = some (openRound id peers start (seen votes k)) ∧
      (t.after votes k).policy = t.policy := by
  induction k with
  | zero => exact ⟨hbegun, rfl⟩
  | succ k ih =>
    obtain ⟨hopen, hpolicy⟩ := ih (Nat.le_of_succ_le hk) (by omega)
    have hlen : (seen votes (k + 1)).length = k + 1 := length_seen hk
    have hlt : (seen votes (k + 1)).length < t.policy.minPeers := by omega
    have hcheck := QuorumPolicy.check_of_lt (h.inTime _ (List.getElem_mem hk)) hlt
    refine ⟨(answer_of_open hk h hopen hpolicy hcheck).2, ?_⟩
    rw [after_succ hk, policy_step, hpolicy]

theorem answer_early (h : Voting t.policy id peers start votes)
    (hbegun : t.rounds.lookup id = some (openRound id peers start [])) (hk : k < votes.length)
    (hquorum : k + 1 < max t.policy.minPeers 1) :
    t.answer votes k hk = .ok (.pending (k + 1) (t.policy.minPeers - (k + 1))) := by
  obtain ⟨hopen, hpolicy⟩ := lookup_after h hbegun hk.le (Nat.lt_of_succ_lt hquorum)
  have hlen : (seen votes (k + 1)).length = k + 1 := length_seen hk
  have hlt : (seen votes (k + 1)).length < t.policy.minPeers := by omega
  have hcheck := QuorumPolicy.check_of_lt (h.inTime _ (List.getElem_mem hk)) hlt
  rw [hlen] at hcheck
  exact (answer_of_open hk h hopen hpolicy hcheck).1

/-- **The vote that makes the quorum** decides the round. -/
theorem answer_decisive (h : Voting t.policy id peers start votes)
    (hbegun : t.rounds.lookup id = some (openRound id peers start [])) (hk : k < votes.length)
    (hquorum : k + 1 = max t.policy.minPeers 1)
    (hresult : result = if t.policy.Meets (seen votes (k + 1))
      then .commit (gradientCids (seen votes (k + 1)))
      else .abort (t.policy.abortReason (seen votes (k + 1)))) :
    t.answer votes k hk = .ok result ∧
      (t.after votes (k + 1)).rounds.lookup id = some { openRound id peers start
        (seen votes (k + 1)) with status := statusAfter result } := by
  obtain ⟨hopen, hpolicy⟩ := lookup_after h hbegun hk.le (by omega)
  have hlen : (seen votes (k + 1)).length = k + 1 := length_seen hk
  have htime := h.inTime _ (List.getElem_mem hk)
  refine answer_of_open hk h hopen hpolicy (Eq.trans ?_ hresult.symm)
  split
  · next hmeets => exact QuorumPolicy.check_of_meets htime (seen_ne_nil hk) hmeets
  · next hmeets =>
    exact QuorumPolicy.check_of_not_meets htime (seen_ne_nil hk) (by omega) hmeets

theorem answer_late (h : Voting t.policy id peers start votes)
    (hbegun : t.rounds.lookup id = some (openRound id peers start [])) (hk : k < votes.length)
    (hquorum : max t.policy.minPeers 1 ≤ k) :
    t.answer votes k hk = .error (.roundNotActive id) := by
  obtain ⟨m, hm⟩ : ∃ m, max t.policy.minPeers 1 = m + 1 := ⟨max t.policy.minPeers 1 - 1, by omega⟩
  have hstate := (answer_decisive h hbegun (k := m) (by omega) hm.symm rfl).2
  obtain ⟨ops, hops⟩ := exists_run_after t votes (show m + 1 ≤ k by omega)
  have hterm : (statusAfter (if t.policy.Meets (seen votes (m + 1))
      then .commit (gradientCids (seen votes (m + 1)))
      else .abort (t.policy.abortReason (seen votes (m + 1))))).isTerminal = true := by
    split <;> rfl
  rw [answer, hops, (decided_forever hstate hterm ops).2.1 _ _ (h.round _ (List.getElem_mem hk))]
  rfl

end RoundConsensusTracker

/-! ### Sound decisions -/

/-- A result that is a decision of the voters. -/
def QuorumResult.isDecision : QuorumResult → Bool
  | .commit _ => true
  | .abort _ => true
  | .pending _ _ => false
  | .timedOut => false

/-- The answers to a sequence of votes that the threshold on all expected peers calls for. -/
structure SoundDecisions (t : RoundConsensusTracker) (id : UInt64) (peers : List String)
    (votes : List (ℕ × PeerVote)) : Prop where
  /-- `Commit` comes at the first vote with which the threshold is met. -/
  commit : ∀ k (hk : k < votes.length) (cids : List String),
    t.answer votes k hk = .ok (.commit cids) ↔
      (t.policy.Meets (seen votes (k + 1)) ∧ ∀ j < k, ¬ t.policy.Meets (seen votes (j + 1))) ∧
        cids = gradientCids (seen votes (k + 1))
  /-- `Abort` comes only when the others could not meet the threshold any more. -/
  abort : ∀ k (hk : k < votes.length) (reason : String),
    t.answer votes k hk = .ok (.abort reason) →
      ¬ t.policy.Meets (QuorumPolicy.withRest peers id (seen votes (k + 1)))
  /-- A decision is there for good. -/
  decided : ∀ k (hk : k < votes.length) (result : QuorumResult),
    t.answer votes k hk = .ok result → result.isDecision = true → ∀ ops : List Op,
      (∀ now, ((t.after votes (k + 1)).run ops).checkRound now id = some result) ∧
      (∀ now (vote : PeerVote), vote.roundId = id →
        ((t.after votes (k + 1)).run ops).castVote now vote = .error (.roundNotActive id)) ∧
      ∀ reason, ((t.after votes (k + 1)).run ops).abortRound id reason
        = .error (.roundNotActive id)

section Sound

open RoundConsensusTracker

variable {t : RoundConsensusTracker} {id : UInt64} {peers : List String} {start : ℕ}
  {votes : List (ℕ × PeerVote)}
variable {k : ℕ} {result : QuorumResult}

/-- The policy looks at the votes so far, so a decision depends on the first `k + 1` votes. -/
theorem decided_of_answer (h : Voting t.policy id peers start votes)
    (hbegun : t.rounds.lookup id = some (openRound id peers start [])) (hk : k < votes.length)
    (hanswer : t.answer votes k hk = .ok result) (hdecision : result.isDecision = true) :
    k + 1 = max t.policy.minPeers 1 ∧ result = if t.policy.Meets (seen votes (k + 1))
      then .commit (gradientCids (seen votes (k + 1)))
      else .abort (t.policy.abortReason (seen votes (k + 1))) := by
  rcases Nat.lt_trichotomy (k + 1) (max t.policy.minPeers 1) with hlt | heq | hgt
  · rw [answer_early h hbegun hk hlt] at hanswer
    obtain rfl := Except.ok.inj hanswer
    exact absurd hdecision (by simp [QuorumResult.isDecision])
  · rw [(answer_decisive h hbegun hk heq rfl).1] at hanswer
    exact ⟨heq, (Except.ok.inj hanswer).symm⟩
  · rw [answer_late h hbegun hk (by omega)] at hanswer
    exact absurd hanswer (by simp)

theorem not_meets_early {p : QuorumPolicy} (hk : k < votes.length)
    (hquorum : k + 1 < max p.minPeers 1) : ¬ p.Meets (seen votes (k + 1)) := by
  rintro ⟨hmin, -⟩
  rw [length_seen hk] at hmin
  omega

theorem decided_of_voting (h : Voting t.policy id peers start votes)
    (hbegun : t.rounds.lookup id = some (openRound id peers start [])) (hk : k < votes.length)
    (hanswer : t.answer votes k hk = .ok result) (hdecision : result.isDecision = true)
    (ops : List Op) :
    (∀ now, ((t.after votes (k + 1)).run ops).checkRound now id = some result) ∧
      (∀ now (vote : PeerVote), vote.roundId = id →
        ((t.after votes (k + 1)).run ops).castVote now vote = .error (.roundNotActive id)) ∧
      ∀ reason, ((t.after votes (k + 1)).run ops).abortRound id reason
        = .error (.roundNotActive id) := by
  obtain ⟨hquorum, hresult⟩ := decided_of_answer h hbegun hk hanswer hdecision
  have hstate := (answer_decisive h hbegun hk hquorum hresult).2
  have hterm : (statusAfter result).isTerminal = true := by
    rw [hresult]
    split <;> rfl
  obtain ⟨hcheck, hrest⟩ := decided_forever hstate hterm ops
  refine ⟨fun now => (hcheck now).trans ?_, hrest⟩
  rw [checkRound, hstate, hresult]
  split <;> rfl

/-- The decisions are sound as soon as those of the vote that makes the quorum are. -/
theorem soundDecisions_of_quorum (hthreshold : t.policy.commitThreshold ≤ 1)
    (hpeers : peers.Nodup) (h : Voting t.policy id peers start votes)
    (hbegun : t.rounds.lookup id = some (openRound id peers start []))
    (hquorum : ∀ k, k + 1 = max t.policy.minPeers 1 → k < votes.length →
      t.policy.Meets (seen votes (k + 1)) ∨
        ¬ t.policy.Meets (QuorumPolicy.withRest peers id (seen votes (k + 1)))) :
    SoundDecisions t id peers votes where
  commit k hk cids := by
    constructor
    · intro hanswer
      obtain ⟨heq, hresult⟩ := decided_of_answer h hbegun hk hanswer rfl
      split at hresult
      · next hmeets =>
        refine ⟨⟨hmeets, fun j hj => not_meets_early (by omega) (by omega)⟩, ?_⟩
        exact QuorumResult.commit.inj hresult
      · exact absurd hresult (by simp)
    · rintro ⟨⟨hmeets, hfirst⟩, rfl⟩
      rcases Nat.lt_trichotomy (k + 1) (max t.policy.minPeers 1) with hlt | heq | hgt
      · exact absurd hmeets (not_meets_early hk hlt)
      · exact (answer_decisive h hbegun hk heq (if_pos hmeets).symm).1
      · -- an earlier vote made the quorum: it met the threshold, or none can after it
        obtain ⟨m, hm⟩ : ∃ m, m + 1 = max t.policy.minPeers 1 :=
          ⟨max t.policy.minPeers 1 - 1, by omega⟩
        have hmk : m < votes.length := by omega
        rcases hquorum m hm hmk with hmeets' | hrest
        · exact absurd hmeets' (hfirst m (by omega))
        · obtain ⟨later, hlater⟩ := seen_prefix votes (show m + 1 ≤ k + 1 by omega)
          have hfrom := h.fromPeers_seen (k + 1)
          rw [← hlater] at hmeets hfrom
          exact absurd (QuorumPolicy.meets_withRest_of_meets hthreshold hpeers hfrom
            (seen_ne_nil hmk) hmeets) hrest
  abort k hk reason hanswer := by
    obtain ⟨heq, hresult⟩ := decided_of_answer h hbegun hk hanswer rfl
    split at hresult
    · exact absurd hresult (by simp)
    · next hmeets => exact (hquorum k heq hk).resolve_left hmeets
  decided _ hk _ := decided_of_voting h hbegun hk

/-- **Decisions of a round.** Let a round be begun for some peers, at least as many as the quorum.
The answers to votes of these peers before the timeout are sound if and only if the votes stop
before the quorum is there, or the votes that make the quorum meet the threshold, or they rule out
that all votes together do. -/
theorem soundDecisions_iff {t₀ : RoundConsensusTracker}
    (hbegin : t₀.beginRound start id peers = .ok t) (hthreshold : t.policy.commitThreshold ≤ 1)
    (hpeers : peers.Nodup) (hmin : t.policy.minPeers ≤ peers.length)
    (h : Voting t.policy id peers start votes) :
    SoundDecisions t id peers votes ↔
      votes.length < max t.policy.minPeers 1 ∨
      (QuorumPolicy.abortOrAbstain (seen votes (max t.policy.minPeers 1)) : ℚ)
        ≤ (1 - t.policy.commitThreshold) * (max t.policy.minPeers 1 : ℕ) ∨
      (1 - t.policy.commitThreshold) * peers.length
        < QuorumPolicy.abortOrAbstain (seen votes (max t.policy.minPeers 1)) := by
  have hbegun : t.rounds.lookup id = some (openRound id peers start []) := by
    unfold beginRound at hbegin
    split at hbegin
    · exact absurd hbegin (by simp)
    · obtain rfl := Except.ok.inj hbegin
      exact AList.lookup_insert _
  obtain ⟨m, hm⟩ : ∃ m, m + 1 = max t.policy.minPeers 1 := ⟨max t.policy.minPeers 1 - 1, by omega⟩
  rw [← hm]
  -- the two conditions, as conditions on votes
  have hmeets : m < votes.length → (t.policy.Meets (seen votes (m + 1)) ↔
      (QuorumPolicy.abortOrAbstain (seen votes (m + 1)) : ℚ)
        ≤ (1 - t.policy.commitThreshold) * (m + 1 : ℕ)) := by
    intro hlt
    rw [QuorumPolicy.meets_iff (seen_ne_nil hlt), length_seen hlt]
    exact and_iff_right (by omega)
  have hrest : m < votes.length →
      (t.policy.Meets (QuorumPolicy.withRest peers id (seen votes (m + 1))) ↔
        (QuorumPolicy.abortOrAbstain (seen votes (m + 1)) : ℚ)
          ≤ (1 - t.policy.commitThreshold) * peers.length) := fun hlt =>
    QuorumPolicy.meets_withRest_iff hpeers hmin (h.fromPeers_seen _) (seen_ne_nil hlt)
  constructor
  · intro hsound
    by_cases hlt : m < votes.length
    · by_cases hquorum : t.policy.Meets (seen votes (m + 1))
      · exact Or.inr (Or.inl ((hmeets hlt).mp hquorum))
      · -- the round is aborted here, so the others cannot meet the threshold
        have hanswer := (answer_decisive h hbegun hlt hm (if_neg hquorum).symm).1
        have hno := hsound.abort m hlt _ hanswer
        rw [hrest hlt, not_le] at hno
        exact Or.inr (Or.inr hno)
    · exact Or.inl (by omega)
  · intro hcond
    refine soundDecisions_of_quorum hthreshold hpeers h hbegun fun k hk hlt => ?_
    obtain rfl : k = m := by omega
    rcases hcond with hshort | hle | hgt
    · omega
    · exact Or.inl ((hmeets hlt).mpr hle)
    · exact Or.inr fun hno => absurd ((hrest hlt).mp hno) (not_le.mpr hgt)

end Sound

/-! ### Two rounds of three peers -/

section Sample

/-- A round of three peers that one vote decides, with half of the votes. -/
def smallRound : RoundConsensusTracker where
  policy := { minPeers := 1, commitThreshold := 1 / 2 }
  rounds := AList.singleton 1 (RoundConsensusTracker.openRound 1 ["a", "b", "c"] 0 [])
  stats := { totalRoundsStarted := 1 }

/-- Two `Commit` votes after another one. -/
def lateCommits (first : Vote) : List (ℕ × PeerVote) :=
  [(1, ⟨"a", 1, first, none⟩), (2, ⟨"b", 1, .commit, none⟩), (3, ⟨"c", 1, .commit, none⟩)]

theorem voting_lateCommits (first : Vote) :
    Voting smallRound.policy 1 ["a", "b", "c"] 0 (lateCommits first) where
  round v hv := by
    simp only [lateCommits, List.mem_cons, List.not_mem_nil, or_false] at hv
    rcases hv with rfl | rfl | rfl <;> rfl
  fromPeers := ⟨by simp [lateCommits], by simp [lateCommits]⟩
  inTime v hv := by
    simp only [lateCommits, List.mem_cons, List.not_mem_nil, or_false] at hv
    rcases hv with rfl | rfl | rfl <;> simp [smallRound]

theorem soundDecisions_commit :
    SoundDecisions smallRound 1 ["a", "b", "c"] (lateCommits .commit) := by
  have hbegin : RoundConsensusTracker.beginRound
      { policy := { minPeers := 1, commitThreshold := 1 / 2 } } 0 1 ["a", "b", "c"]
        = .ok smallRound := rfl
  refine (soundDecisions_iff hbegin (by decide +kernel) (by decide) (by decide)
    (voting_lateCommits .commit)).mpr (Or.inr (Or.inl ?_))
  decide +kernel

/-- One vote for an abort ends a round that the other two would commit. -/
theorem not_forall_soundDecisions :
    ¬ ∀ (t₀ t : RoundConsensusTracker) (id : UInt64) (peers : List String) (start : ℕ)
      (votes : List (ℕ × PeerVote)), t₀.beginRound start id peers = .ok t →
        0 ≤ t.policy.commitThreshold → t.policy.commitThreshold ≤ 1 → peers.Nodup →
          t.policy.minPeers ≤ peers.length → Voting t.policy id peers start votes →
            SoundDecisions t id peers votes := by
  intro hall
  have hsound := hall { policy := { minPeers := 1, commitThreshold := 1 / 2 } } smallRound 1
    ["a", "b", "c"] 0 (lateCommits .abort) rfl (by decide +kernel) (by decide +kernel) (by decide)
    (by decide) (voting_lateCommits .abort)
  have hanswer : smallRound.answer (lateCommits .abort) 0 (by decide)
      = .ok (.abort "commit threshold unreachable: 1/1 votes are non-commit (100% > 50% max)") := by
    decide +kernel
  exact hsound.abort 0 _ _ hanswer (by decide +kernel)

end Sample

end Ipfrs.Tensorlogic.Consensus
