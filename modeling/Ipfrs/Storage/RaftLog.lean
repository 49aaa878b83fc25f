import Ipfrs.Lib.LogMatching
import Ipfrs.Storage.Raft

/-!
# Replication of the log

What `handle_append_entries` does to the log of a follower, for a request that is cut from the log
of a leader: the entry before the slice and the slice itself are the leader's, and the leader has
committed no more than it has (`CutFrom`).

The logs are `Indexed` (entry `k` carries the index `k + 1`) and satisfy `LogMatching`. On indexed
logs this is `LogMatching.Matching` on terms (`logMatching_iff`), and the loop of the handler is
`LogMatching.appendFrom` (`appendEntries_indexed`), so that `handleAppendEntries_cut` reads the
outcome off `LogMatching.appendFrom_slice`.

* `logMatching_preserved` — the log stays indexed and keeps matching, and nothing that was agreed on
  is removed;
* `commitsLeaderEntries_iff` — the entries that become committed are the leader's, except when the
  follower has more entries than the request covers and they are not the leader's: the commit index
  is bounded by the length of the follower's log.
-/

namespace Ipfrs.Raft

open LogMatching

/-! ### Logs and requests -/

/-- Entry `k` carries the index `k + 1`. -/
def Indexed (log : List LogEntry) : Prop :=
  ∀ k entry, log[k]? = some entry → entry.index = k + 1

/-- **Log matching**: an index and a term determine the log up to there. -/
def LogMatching (F L : List LogEntry) : Prop :=
  ∀ j k x y, F[j]? = some x → L[k]? = some y → x.index = y.index → x.term = y.term →
    F.take (j + 1) = L.take (k + 1)

/-- `request` is cut from the log `L` of a leader. -/
structure CutFrom (L : List LogEntry) (request : AppendEntriesRequest) : Prop where
  prevLogIndex_le : request.prevLogIndex ≤ L.length
  prevLogTerm_eq : ∀ entry, 0 < request.prevLogIndex →
    L[request.prevLogIndex - 1]? = some entry → entry.term = request.prevLogTerm
  entries_eq : request.entries = (L.drop request.prevLogIndex).take request.entries.length
  leaderCommit_le : request.leaderCommit ≤ L.length

/-- The index of the last entry that the request covers. -/
def AppendEntriesRequest.lastNewIndex (request : AppendEntriesRequest) : ℕ :=
  request.prevLogIndex + request.entries.length

theorem Indexed.take {log : List LogEntry} (h : Indexed log) (n : ℕ) : Indexed (log.take n) := by
  intro k entry hk
  rw [List.getElem?_take] at hk
  split at hk
  · exact h k entry hk
  · exact absurd hk (by simp)

/-- **On indexed logs only positions and terms matter.** -/
theorem logMatching_iff {F L : List LogEntry} (hF : Indexed F) (hL : Indexed L) :
    LogMatching F L ↔ Matching LogEntry.term F L := by
  constructor
  · intro h k x y hx hy hterm
    refine h k k x y hx hy ?_ hterm
    rw [hF k x hx, hL k y hy]
  · intro h j k x y hx hy hindex hterm
    obtain rfl : j = k := by
      rw [hF j x hx, hL k y hy] at hindex
      exact Nat.succ.inj hindex
    exact h j x y hx hy hterm

namespace CutFrom

variable {L : List LogEntry} {request : AppendEntriesRequest}

theorem lastNewIndex_le (h : CutFrom L request) : request.lastNewIndex ≤ L.length := by
  have hlen := congrArg List.length h.entries_eq
  have hprev := h.prevLogIndex_le
  rw [List.length_take, List.length_drop] at hlen
  unfold AppendEntriesRequest.lastNewIndex
  omega

variable {j : ℕ}

/-- The entries of the request are those of the log, at their positions. -/
theorem getElem?_entries (h : CutFrom L request) (hj : j < request.entries.length) :
    request.entries[j]? = L[request.prevLogIndex + j]? := by
  rw [h.entries_eq, List.getElem?_take_of_lt hj, List.getElem?_drop]

theorem index_entries (h : CutFrom L request) (hL : Indexed L) {entry : LogEntry}
    (hentry : request.entries[j]? = some entry) : entry.index = request.prevLogIndex + j + 1 := by
  have hj : j < request.entries.length := (List.getElem?_eq_some_iff.mp hentry).1
  rw [h.getElem?_entries hj] at hentry
  exact hL _ entry hentry

end CutFrom

namespace RaftNode

/-! ### The two checks of the handler -/

/-- `request` is refused: it is of an earlier term, or the log does not have the entry before the
slice. -/
def Refuses (node : RaftNode) (request : AppendEntriesRequest) : Prop :=
  request.term < node.persistent.currentTerm ∨
    0 < request.prevLogIndex ∧ ∀ x, node.log[request.prevLogIndex - 1]? = some x →
      x.term ≠ request.prevLogTerm

variable {log F L : List LogEntry} {request : AppendEntriesRequest}

theorem checkPrevLog_eq_none_iff :
    checkPrevLog log request = none ↔ ¬ (0 < request.prevLogIndex ∧
      ∀ x, log[request.prevLogIndex - 1]? = some x → x.term ≠ request.prevLogTerm) := by
  unfold checkPrevLog
  by_cases hpos : request.prevLogIndex > 0
  · rw [dif_pos hpos]
    by_cases hlen : request.prevLogIndex > log.length
    · -- there is no entry
      rw [dif_pos hlen]
      have hnone : log[request.prevLogIndex - 1]? = none := by
        rw [List.getElem?_eq_none_iff]
        omega
      simp [hpos, hnone]
    · rw [dif_neg hlen]
      have hlt : request.prevLogIndex - 1 < log.length := by omega
      simp [hpos, List.getElem?_eq_getElem hlt]
  · simp [hpos]

/-- **The consistency check**, for a request cut from a log that the follower's log matches: it
passes when the two logs agree up to the slice. -/
theorem checkPrevLog_cut_iff (h : Matching LogEntry.term F L) (hcut : CutFrom L request) :
    checkPrevLog F request = none ↔ request.prevLogIndex ≤ F.length ∧
      F.take request.prevLogIndex = L.take request.prevLogIndex := by
  have hle := hcut.prevLogIndex_le
  rw [checkPrevLog_eq_none_iff]
  rcases Nat.eq_zero_or_pos request.prevLogIndex with hzero | hpos
  · simp [hzero]
  obtain ⟨i, hi⟩ : ∃ i, request.prevLogIndex = i + 1 := ⟨request.prevLogIndex - 1, by omega⟩
  have hL : i < L.length := by omega
  have hterm := hcut.prevLogTerm_eq L[i] hpos
    (by rw [hi, Nat.add_sub_cancel, List.getElem?_eq_getElem hL])
  rw [hi, Nat.add_sub_cancel, ← hterm]
  by_cases hF : i < F.length
  · -- the entry is there: the logs agree when the terms do
    rw [h.take_eq_iff hF hL, List.getElem?_eq_getElem hF]
    simp [Nat.succ_le_of_lt hF]
  · rw [List.getElem?_eq_none (Nat.le_of_not_lt hF)]
    refine iff_of_false ?_ fun h => hF h.1
    simp

/-! ### The loop over the entries -/

/-- **The loop on consecutive entries** goes through them position by position. -/
theorem appendEntries_indexed {entries : List LogEntry} {i : ℕ}
    (h : ∀ j entry, entries[j]? = some entry → entry.index = i + j + 1) :
    appendEntries log entries = (appendFrom LogEntry.term log i entries, .ok ()) := by
  induction entries generalizing log i with
  | nil => rfl
  | cons entry entries ih =>
    have hindex : entry.index = i + 1 := h 0 entry rfl
    have hsub : subU64 entry.index 1 = .ok i := by
      rw [hindex]
      exact if_pos (Nat.le_add_left 1 i)
    have hrest : ∀ j e, entries[j]? = some e → e.index = i + 1 + j + 1 := by
      intro j e he
      rw [h (j + 1) e he]
      omega
    rw [appendEntries, hsub, appendFrom, appendAt]
    by_cases hlt : i < log.length
    · rw [List.getElem?_eq_getElem hlt]
      by_cases hterm : log[i].term = entry.term
      · -- the entry is there, and stays
        simp only [hterm, ge_iff_le, Nat.not_le.mpr hlt, dif_neg, not_false_eq_true, ne_eq,
          not_true_eq_false, if_false, if_true]
        exact ih hrest
      · -- another term: the log is cut there
        simp only [hterm, ge_iff_le, Nat.not_le.mpr hlt, dif_neg, not_false_eq_true, ne_eq,
          if_false, if_true]
        exact ih hrest
    · -- the log ends here
      have hge : i ≥ log.length := Nat.le_of_not_lt hlt
      rw [List.getElem?_eq_none hge]
      simp only [hge, dif_pos]
      exact ih hrest

/-- **The outcome of a request** that is cut from a log the follower's log matches: it is answered,
and either it is refused and changes neither the log nor the commit index, or the slice is gone
through. -/
theorem handleAppendEntries_cut {node : RaftNode} (hL : Indexed L)
    (hmatch : Matching LogEntry.term node.log L) (hcut : CutFrom L request) :
    ∃ node' response, node.handleAppendEntries request = (node', .ok response) ∧
      (response.success = false ∧ node.Refuses request ∧ node'.log = node.log ∧
          node'.volatile = node.volatile ∨
        response.success = true ∧ ¬ node.Refuses request ∧
          node'.volatile = updateCommitIndex node.volatile request.leaderCommit node'.log ∧
          (node'.log = node.log ∧ request.lastNewIndex ≤ node.log.length ∧
              node.log.take request.lastNewIndex = L.take request.lastNewIndex ∨
            node'.log = L.take request.lastNewIndex ∧
              ¬ (request.lastNewIndex ≤ node.log.length ∧
                node.log.take request.lastNewIndex = L.take request.lastNewIndex))) := by
  have happend : appendEntries node.log request.entries =
      (appendFrom LogEntry.term node.log request.prevLogIndex request.entries, .ok ()) :=
    appendEntries_indexed fun j entry hentry => hcut.index_entries hL hentry
  obtain ⟨hterm, hresult⟩ | ⟨hterm, ⟨conflict, hcheck, hresult⟩ | ⟨hcheck, hloop⟩⟩ :=
    handleAppendEntries_cases node request
  · -- an earlier term
    exact ⟨_, _, hresult, Or.inl ⟨rfl, Or.inl hterm, rfl, rfl⟩⟩
  · -- the consistency check fails
    have hrefuses : node.Refuses request := by
      refine Or.inr (Classical.byContradiction fun hnot => ?_)
      rw [checkPrevLog_eq_none_iff.mpr hnot] at hcheck
      exact absurd hcheck (by simp)
    exact ⟨_, _, hresult, Or.inl ⟨rfl, hrefuses, by simp, by simp⟩⟩
  · obtain ⟨log, f, hpanic, -⟩ | ⟨log, hlog, hresult⟩ := hloop
    · -- no entry carries the index 0
      rw [happend] at hpanic
      exact absurd (Prod.mk.inj hpanic).2 (by simp)
    refine ⟨_, _, hresult, Or.inr ⟨rfl, ?_, rfl, ?_⟩⟩
    · rintro (hlt | hprev)
      · exact hterm hlt
      · exact checkPrevLog_eq_none_iff.mp hcheck hprev
    · -- the follower has the slice already, or its log ends with it now
      have hslice := appendFrom_slice hmatch
        ((checkPrevLog_cut_iff hmatch hcut).mp hcheck).1
        ((checkPrevLog_cut_iff hmatch hcut).mp hcheck).2 hcut.lastNewIndex_le
      rw [← hcut.entries_eq] at hslice
      rw [happend] at hlog
      obtain rfl := (Prod.mk.inj hlog).1
      obtain ⟨hkeep, hle, heq⟩ | ⟨hend, hnot⟩ := hslice
      · exact Or.inl ⟨hkeep, hle, heq⟩
      · exact Or.inr ⟨hend, hnot⟩

/-! ### Two logs that differ in their last entry -/

/-- The log of a leader in term 2. -/
def leaderLog : List LogEntry := [⟨1, 1, .noOp⟩, ⟨2, 2, .noOp⟩]

/-- A follower with an entry that was never replicated. -/
def staleFollower : RaftNode :=
  { new ⟨2⟩ [⟨1⟩] with log := [⟨1, 1, .noOp⟩, ⟨1, 2, .delete []⟩] }

/-- A heartbeat after the first entry. -/
def heartbeat (leaderCommit : ℕ) : AppendEntriesRequest where
  term := 2
  leaderId := ⟨1⟩
  prevLogIndex := 1
  prevLogTerm := 1
  entries := []
  leaderCommit := leaderCommit

theorem indexed_pair {x y : LogEntry} (hx : x.index = 1) (hy : y.index = 2) : Indexed [x, y] := by
  intro k entry h
  rcases k with _ | _ | k
  · rw [← Option.some.inj h, hx]
  · rw [← Option.some.inj h, hy]
  · exact absurd h (by simp)

theorem staleFollower_indexed : Indexed staleFollower.log :=
  indexed_pair rfl rfl

theorem leaderLog_indexed : Indexed leaderLog :=
  indexed_pair rfl rfl

theorem staleFollower_matches : LogMatching staleFollower.log leaderLog := by
  rw [logMatching_iff staleFollower_indexed leaderLog_indexed]
  intro k x y hx hy hterm
  rcases k with _ | _ | k
  · rfl
  · rw [← Option.some.inj hx, ← Option.some.inj hy] at hterm
    exact absurd hterm (by decide)
  · exact absurd hx (by simp [staleFollower])

theorem heartbeat_cutFrom {leaderCommit : ℕ} (h : leaderCommit ≤ 2) :
    CutFrom leaderLog (heartbeat leaderCommit) where
  prevLogIndex_le := Nat.le_succ 1
  prevLogTerm_eq entry _ hentry := by
    rw [← Option.some.inj hentry]
    rfl
  entries_eq := rfl
  leaderCommit_le := h

/-! ### Log matching -/

/-- **Log matching is preserved.** A request cut from `L` leaves a log that is indexed and matches
`L` and every third log `M`. When it succeeds, the log has the leader's entries up to the end of the
slice; whatever prefix it shared with `L` it keeps; when it fails, the log is as it was. -/
theorem logMatching_preserved (node : RaftNode) (L M : List LogEntry)
    (request : AppendEntriesRequest) (hF : Indexed node.log) (hL : Indexed L) (hM : Indexed M)
    (hFL : LogMatching node.log L) (hFM : LogMatching node.log M) (hLM : LogMatching L M)
    (hcut : CutFrom L request) :
    ∃ node' response, node.handleAppendEntries request = (node', .ok response) ∧
      Indexed node'.log ∧ LogMatching node'.log L ∧ LogMatching node'.log M ∧
      (response.success = true →
        node'.log.take request.lastNewIndex = L.take request.lastNewIndex ∧
          request.lastNewIndex ≤ node'.log.length) ∧
      (∀ k ≤ node.log.length, node.log.take k = L.take k →
        k ≤ node'.log.length ∧ node'.log.take k = node.log.take k) ∧
      (response.success = false → node'.log = node.log) := by
  have hFL' := (logMatching_iff hF hL).mp hFL
  have hLM' := (logMatching_iff hL hM).mp hLM
  obtain ⟨node', response, hresult, houtcome⟩ := handleAppendEntries_cut hL hFL' hcut
  refine ⟨node', response, hresult, ?_⟩
  obtain ⟨hsuccess, -, hlog, -⟩ | ⟨hsuccess, -, -, hlog⟩ := houtcome
  · rw [hlog, hsuccess]
    exact ⟨hF, hFL, hFM, fun h => absurd h (by simp), fun k hk _ => ⟨hk, rfl⟩, fun _ => rfl⟩
  obtain ⟨hlog, hle, heq⟩ | ⟨hlog, hnot⟩ := hlog
  · -- the follower had the slice
    rw [hlog, hsuccess]
    exact ⟨hF, hFL, hFM, fun _ => ⟨heq, hle⟩, fun k hk _ => ⟨hk, rfl⟩, fun h => absurd h (by simp)⟩
  · -- the log ends with the slice, and matches what the leader's log matches
    have hindexed : Indexed node'.log := hlog ▸ hL.take _
    have hlen : node'.log.length = request.lastNewIndex := by
      rw [hlog, List.length_take_of_le hcut.lastNewIndex_le]
    refine ⟨hindexed, ?_, ?_, fun _ => ⟨?_, hlen.ge⟩, ?_, fun h => ?_⟩
    · rw [logMatching_iff hindexed hL, hlog]
      exact (Matching.refl _ L).take _
    · rw [logMatching_iff hindexed hM, hlog]
      exact hLM'.take _
    · rw [hlog, List.take_take, Nat.min_self]
    · intro k hk hagree
      -- an agreement beyond the slice would be one on the slice
      have hkle : k ≤ request.lastNewIndex := by
        refine Nat.le_of_not_lt fun hlt => hnot ⟨by omega, ?_⟩
        calc node.log.take request.lastNewIndex
            = (node.log.take k).take request.lastNewIndex := by
              rw [List.take_take, Nat.min_eq_left hlt.le]
          _ = (L.take k).take request.lastNewIndex := by rw [hagree]
          _ = L.take request.lastNewIndex := by rw [List.take_take, Nat.min_eq_left hlt.le]
      refine ⟨hlen ▸ hkle, ?_⟩
      rw [hlog, List.take_take, Nat.min_eq_left hkle, hagree]
    · rw [hsuccess] at h
      exact absurd h (by simp)

theorem logMatching_preserved_staleFollower :
    ∃ node' response, staleFollower.handleAppendEntries (heartbeat 1) = (node', .ok response) ∧
      Indexed node'.log ∧ LogMatching node'.log leaderLog ∧ LogMatching node'.log leaderLog ∧
      (response.success = true →
        node'.log.take (heartbeat 1).lastNewIndex = leaderLog.take (heartbeat 1).lastNewIndex ∧
          (heartbeat 1).lastNewIndex ≤ node'.log.length) ∧
      (∀ k ≤ staleFollower.log.length, staleFollower.log.take k = leaderLog.take k →
        k ≤ node'.log.length ∧ node'.log.take k = staleFollower.log.take k) ∧
      (response.success = false → node'.log = staleFollower.log) :=
  logMatching_preserved staleFollower leaderLog leaderLog (heartbeat 1) staleFollower_indexed
    leaderLog_indexed leaderLog_indexed staleFollower_matches staleFollower_matches
    ((logMatching_iff leaderLog_indexed leaderLog_indexed).mpr (Matching.refl _ _))
    (heartbeat_cutFrom (by decide))

/-! ### The commit index -/

/-- Every entry between the old and the new commit index is the leader's. -/
def CommitsLeaderEntries (L : List LogEntry) (node node' : RaftNode) : Prop :=
  ∀ k, node.volatile.commitIndex < k → k ≤ node'.volatile.commitIndex →
    node'.log[k - 1]? = L[k - 1]?

/-- An entry of the request is in the way of an entry of the log with another term. -/
def Conflicts (log : List LogEntry) (request : AppendEntriesRequest) : Prop :=
  ∃ entry ∈ request.entries, ∃ x, log[entry.index - 1]? = some x ∧ x.term ≠ entry.term

/-- The logs do not agree up to the end of a slice that fits when an entry of it is in the way. -/
theorem conflicts_iff (hL : Indexed L) (h : Matching LogEntry.term F L) (hcut : CutFrom L request)
    (hagree : F.take request.prevLogIndex = L.take request.prevLogIndex)
    (hle : request.lastNewIndex ≤ F.length) :
    Conflicts F request ↔ F.take request.lastNewIndex ≠ L.take request.lastNewIndex := by
  have hLlen := hcut.lastNewIndex_le
  unfold AppendEntriesRequest.lastNewIndex at hle hLlen ⊢
  constructor
  · rintro ⟨entry, hentry, x, hx, hterm⟩ heq
    obtain ⟨j, hj, hget⟩ := List.getElem_of_mem hentry
    have hsome : request.entries[j]? = some entry := by rw [List.getElem?_eq_getElem hj, hget]
    have hindex := hcut.index_entries hL hsome
    rw [hcut.getElem?_entries hj] at hsome
    rw [hindex, Nat.add_sub_cancel] at hx
    -- both logs have the entry
    have hsame := getElem?_eq_of_take_eq heq (Nat.add_lt_add_left hj request.prevLogIndex)
    rw [hx, hsome] at hsame
    exact hterm (by rw [Option.some.inj hsame])
  · intro hne
    -- the last entry of the slice: equal terms there would be an agreement
    obtain ⟨m, hm⟩ : ∃ m, request.entries.length = m + 1 := by
      refine ⟨request.entries.length - 1, ?_⟩
      have hpos : request.entries.length ≠ 0 := by
        intro hzero
        rw [hzero] at hne
        exact hne hagree
      omega
    rw [hm] at hle hne hLlen
    have hm' : m < request.entries.length := by omega
    have hFm : request.prevLogIndex + m < F.length := by omega
    have hLm : request.prevLogIndex + m < L.length := by omega
    have hentry : request.entries[m]? = some L[request.prevLogIndex + m] := by
      rw [hcut.getElem?_entries hm', List.getElem?_eq_getElem hLm]
    refine ⟨_, List.mem_of_getElem? hentry, F[request.prevLogIndex + m], ?_, fun hterm => ?_⟩
    · rw [hcut.index_entries hL hentry, Nat.add_sub_cancel, List.getElem?_eq_getElem hFm]
    · exact hne ((h.take_eq_iff hFm hLm).mpr hterm)

/-- The commit index that a request would set. -/
def commitBound (node : RaftNode) (request : AppendEntriesRequest) : ℕ :=
  min request.leaderCommit node.log.length

section Commit

variable {node node' : RaftNode} {L : List LogEntry} {request : AppendEntriesRequest}
  (hL : Indexed L) (hmatch : Matching LogEntry.term node.log L) (hcut : CutFrom L request)
  (hprev : node.log.take request.prevLogIndex = L.take request.prevLogIndex)
  (hvolatile : node'.volatile = updateCommitIndex node.volatile request.leaderCommit node'.log)

include hL hmatch hcut hprev hvolatile

/-- A follower that had the slice keeps what it has after it, and commits it up to the bound. -/
theorem commitsLeaderEntries_of_kept_iff (hlog : node'.log = node.log)
    (hle : request.lastNewIndex ≤ node.log.length)
    (hagree : node.log.take request.lastNewIndex = L.take request.lastNewIndex) :
    CommitsLeaderEntries L node node' ↔
      node.commitBound request ≤ max node.volatile.commitIndex request.lastNewIndex ∨
        Conflicts node.log request ∨
        (node.log[node.commitBound request - 1]?).map LogEntry.term =
          (L[node.commitBound request - 1]?).map LogEntry.term := by
  have hcommitL := hcut.leaderCommit_le
  have hlastL := hcut.lastNewIndex_le
  rw [hlog] at hvolatile
  constructor
  · intro h
    by_cases hbound : node.commitBound request ≤ max node.volatile.commitIndex request.lastNewIndex
    · exact Or.inl hbound
    · -- the entry at the new commit index is one of those that are committed
      refine Or.inr (Or.inr ?_)
      have hold : node.volatile.commitIndex < node.commitBound request := by omega
      have hnew : node'.volatile.commitIndex = node.commitBound request := by
        rw [hvolatile, updateCommitIndex, if_pos (hold.trans_le (min_le_left _ _))]
        rfl
      rw [← hlog, h _ hold hnew.ge]
  · intro h k hlt hk
    have hkc : k ≤ node.commitBound request := by
      rw [hvolatile, updateCommitIndex] at hk
      split at hk
      · exact hk
      · exact absurd hlt (Nat.not_lt.mpr hk)
    -- what is committed is in both logs, and they agree up to the slice
    have hkF : node.commitBound request ≤ node.log.length := min_le_right _ _
    have hkL : node.commitBound request ≤ request.leaderCommit := min_le_left _ _
    rw [hlog]
    by_cases hklast : k ≤ request.lastNewIndex
    · -- an entry of the slice or before it
      exact getElem?_eq_of_take_eq hagree (by omega)
    · obtain hbound | hconflict | hterm := h
      · omega
      · exact absurd hagree ((conflicts_iff hL hmatch hcut hprev hle).mp hconflict)
      · -- log matching at the new commit index
        obtain ⟨c, hc⟩ : ∃ c, node.commitBound request = c + 1 :=
          ⟨node.commitBound request - 1, by omega⟩
        rw [hc, Nat.add_sub_cancel, List.getElem?_eq_getElem (by omega),
          List.getElem?_eq_getElem (by omega)] at hterm
        have heq := (hmatch.take_eq_iff (by omega) (by omega)).mpr (Option.some.inj hterm)
        exact getElem?_eq_of_take_eq heq (by omega)

omit hL hmatch hcut hprev in
/-- A log that ends with the slice has nothing beyond it to commit. -/
theorem commitsLeaderEntries_of_cut (hlog : node'.log = L.take request.lastNewIndex) :
    CommitsLeaderEntries L node node' := by
  intro k hlt hk
  have hklast : k ≤ request.lastNewIndex := by
    rw [hvolatile, updateCommitIndex] at hk
    split at hk
    · have hlen : node'.log.length ≤ request.lastNewIndex := by
        rw [hlog]
        exact List.length_take_le _ _
      exact (hk.trans (min_le_right _ _)).trans hlen
    · exact absurd hlt (Nat.not_lt.mpr hk)
  rw [hlog, List.getElem?_take_of_lt (by omega)]

omit hvolatile in
/-- A slice that the follower does not have goes beyond its log or conflicts with it. -/
theorem commitBound_le_or_conflicts (hnot : ¬ (request.lastNewIndex ≤ node.log.length ∧
      node.log.take request.lastNewIndex = L.take request.lastNewIndex)) :
    node.commitBound request ≤ max node.volatile.commitIndex request.lastNewIndex ∨
      Conflicts node.log request := by
  by_cases hbound : node.commitBound request ≤ request.lastNewIndex
  · exact Or.inl (hbound.trans (le_max_right _ _))
  · have hle : request.lastNewIndex ≤ node.log.length :=
      (Nat.le_of_not_le hbound).trans (min_le_right _ _)
    refine Or.inr ((conflicts_iff hL hmatch hcut hprev hle).mpr fun heq => ?_)
    exact hnot ⟨hle, heq⟩

end Commit

/-- **When only entries of the leader are committed.** The handler bounds the commit index by the
length of its log and not by the last entry the request covers, so an entry beyond the slice is
committed as it is. This is right exactly when the request is refused, commits nothing beyond the
slice or the old commit index, cuts the log at a conflict, or when the entry at the new commit index
is of the leader's term. -/
theorem commitsLeaderEntries_iff (node : RaftNode) (L : List LogEntry)
    (request : AppendEntriesRequest) (hF : Indexed node.log) (hL : Indexed L)
    (hFL : LogMatching node.log L) (hcut : CutFrom L request) :
    (∀ node' response, node.handleAppendEntries request = (node', .ok response) →
        response.success = true → CommitsLeaderEntries L node node') ↔
      node.Refuses request ∨
        node.commitBound request ≤ max node.volatile.commitIndex request.lastNewIndex ∨
        Conflicts node.log request ∨
        (node.log[node.commitBound request - 1]?).map LogEntry.term =
          (L[node.commitBound request - 1]?).map LogEntry.term := by
  have hmatch := (logMatching_iff hF hL).mp hFL
  obtain ⟨node', response, hresult, houtcome⟩ := handleAppendEntries_cut hL hmatch hcut
  -- there is one outcome to speak of
  have hone : (∀ node'' response', node.handleAppendEntries request = (node'', .ok response') →
      response'.success = true → CommitsLeaderEntries L node node'') ↔
      (response.success = true → CommitsLeaderEntries L node node') := by
    constructor
    · intro h
      exact h node' response hresult
    · intro h node'' response' hresult' hsuccess'
      rw [hresult] at hresult'
      obtain ⟨rfl, hresponse⟩ := Prod.mk.inj hresult'
      obtain rfl := Except.ok.inj hresponse
      exact h hsuccess'
  rw [hone]
  obtain ⟨hsuccess, hrefuses, -, -⟩ | ⟨hsuccess, hrefuses, hvolatile, hlog⟩ := houtcome
  · refine iff_of_true (fun h => ?_) (Or.inl hrefuses)
    rw [hsuccess] at h
    exact absurd h (by simp)
  have hcheck := checkPrevLog_eq_none_iff.mpr fun h => hrefuses (Or.inr h)
  have hprev := ((checkPrevLog_cut_iff hmatch hcut).mp hcheck).2
  rw [or_iff_right hrefuses, forall_prop_of_true hsuccess]
  obtain ⟨hlog, hle, hagree⟩ | ⟨hlog, hnot⟩ := hlog
  · exact commitsLeaderEntries_of_kept_iff hL hmatch hcut hprev hvolatile hlog hle hagree
  · refine iff_of_true (commitsLeaderEntries_of_cut hvolatile hlog) ?_
    rcases commitBound_le_or_conflicts hL hmatch hcut hprev hnot with hbound | hconflict
    · exact Or.inl hbound
    · exact Or.inr (Or.inl hconflict)

theorem commitsLeaderEntries_staleFollower :
    CommitsLeaderEntries leaderLog staleFollower
      (staleFollower.handleAppendEntries (heartbeat 1)).1 :=
  (commitsLeaderEntries_iff staleFollower leaderLog (heartbeat 1) staleFollower_indexed
    leaderLog_indexed staleFollower_matches (heartbeat_cutFrom (by decide))).mpr
    (Or.inr (Or.inl (by decide))) _ _ rfl rfl

/-- **A heartbeat that commits what the leader does not have.** The leader has committed its two
entries, and the follower takes that for its own second entry. -/
theorem heartbeat_commits_stale_entry :
    ¬ ∀ (node : RaftNode) (L : List LogEntry) (request : AppendEntriesRequest),
      Indexed node.log → Indexed L → LogMatching node.log L → CutFrom L request →
      ∀ node' response, node.handleAppendEntries request = (node', .ok response) →
        response.success = true → CommitsLeaderEntries L node node' := by
  intro h
  have hcommits := h staleFollower leaderLog (heartbeat 2) staleFollower_indexed
    leaderLog_indexed staleFollower_matches (heartbeat_cutFrom (by decide)) _ _ rfl rfl
  have hsame := hcommits 2 (by decide) (by decide)
  exact absurd (Option.some.inj hsame) (by decide)

/-! ### Committed entries -/

/-- The commands of the entries from one index to another, applied in the order of the log. -/
def applyCommands {S : Type} [BlockStore S] [CidCrate] :
    List LogEntry → S → Except Error S
  | [], store => .ok store
  | entry :: entries, store => do
    let store ← applyCommand store entry.command
    applyCommands entries store

end RaftNode

end Ipfrs.Raft
