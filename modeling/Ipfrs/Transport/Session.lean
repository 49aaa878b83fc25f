import Ipfrs.Transport.WantList

/-!
# Sessions of block requests

The `Session` of the transport crate (`ipfrs-transport/src/session.rs`).

A session has a map of the blocks that were asked for, counters, and a state. The counters are kept
apart from the map, and the state apart from both. The channels are what was sent on them. The
clock is read as a number of nanoseconds.

`mark_failed` writes the state while it holds the lock of the counters, and a session with an event
channel then reads the counters under the same lock, which never returns (`Outcome.deadlock`).

* `Bookkept` — what the counters and the state say about the calls so far;
* `Run.bookkept` — they say so in every run without a repeated addition, a repeated notification or
  a transition out of a final state;
* `not_forall_bookkept` — and not in every run.
-/

namespace Ipfrs.Transport

/-- `SessionError`, as far as the operations give it. -/
inductive SessionError where
  | closed (id : ℕ)
  | blockNotInSession (cid : String)
  deriving DecidableEq, Repr

inductive SessionState where
  | active
  | paused
  | completing
  | completed
  | cancelled
  deriving DecidableEq, Repr

structure SessionConfig where
  defaultPriority : Priority
  progressNotifications : Bool
  deriving DecidableEq

structure SessionStats where
  totalBlocks : ℕ := 0
  blocksReceived : ℕ := 0
  blocksFailed : ℕ := 0
  bytesTransferred : ℕ := 0
  startedAt : Option ℕ := none
  completedAt : Option ℕ := none
  avgBlockTime : Option ℕ := none
  deriving DecidableEq

def SessionStats.isComplete (stats : SessionStats) : Bool :=
  stats.blocksReceived + stats.blocksFailed ≥ stats.totalBlocks

structure BlockRequest where
  cid : Cid
  priority : Priority
  requestedAt : ℕ
  completedAt : Option ℕ
  size : Option ℕ
  deriving DecidableEq

inductive SessionEvent where
  | started (id : ℕ)
  | blockReceived (id : ℕ) (cid : Cid) (size : ℕ)
  | blockFailed (id : ℕ) (cid : Cid) (error : String)
  | progress (id : ℕ) (stats : SessionStats)
  | completed (id : ℕ) (stats : SessionStats)
  | cancelled (id : ℕ)

/-- `Session`. The last two fields are what was sent on the channels: `event_tx`, if there is one,
and `state_tx`, which keeps the last value only. -/
structure Session where
  id : ℕ
  config : SessionConfig
  state : SessionState
  blocks : AList fun _ : Cid => BlockRequest
  stats : SessionStats
  events : Option (List SessionEvent)
  watched : SessionState

/-- How a call ends. -/
inductive Outcome where
  | ok
  | error (e : SessionError)
  | deadlock
  deriving DecidableEq

/-- What follows a call that returned normally. -/
def Outcome.andThen {S : Type} (ended : S × Outcome) (f : S → S) : S × Outcome :=
  if ended.2 = .ok then (f ended.1, .ok) else ended

namespace Session

/-- `Session::new`. `hasEvents` says whether there is an event channel. -/
def new (id : ℕ) (config : SessionConfig) (hasEvents : Bool) (now : ℕ) : Session where
  id := id
  config := config
  state := .active
  blocks := ∅
  stats := { startedAt := some now }
  events := if hasEvents then some [.started id] else none
  watched := .active

variable (s : Session)

/-- What is sent if there is an event channel. -/
def send (event : SessionEvent) : Session :=
  { s with events := s.events.map fun sent => sent ++ [event] }

/-- `transition_state`. A completed session reports its counters, for which it takes their lock:
nobody gives it back if the caller has it. -/
def transitionState (newState : SessionState) (statsHeld : Bool) : Session × Outcome :=
  let s := { s with state := newState, watched := newState }
  if newState = .completed ∧ s.events.isSome then
    if statsHeld then (s, .deadlock) else (s.send (.completed s.id s.stats), .ok)
  else (s, .ok)

def addBlock (cid : Cid) (priority : Option Priority) (now : ℕ) : Session × Outcome :=
  if s.state ≠ .active then (s, .error (.closed s.id))
  else
    let request :=
      { cid := cid, priority := priority.getD s.config.defaultPriority, requestedAt := now,
        completedAt := none, size := none }
    ({ s with
      blocks := s.blocks.insert cid request
      stats := { s.stats with totalBlocks := s.stats.totalBlocks + 1 } }, .ok)

/-- What both notifications do once their block is counted: the session is completed if all of its
blocks are accounted for while it is active. -/
def complete (later : ℕ) (statsHeld : Bool) : Session × Outcome :=
  if s.stats.isComplete ∧ s.state = .active then
    { s with stats := { s.stats with completedAt := some later } }.transitionState .completed
      statsHeld
  else (s, .ok)

/-- A received block in the books. -/
def countReceived (cid : Cid) (block : BlockRequest) (data : Bytes) (now : ℕ) : Session :=
  let fetchTime := now - block.requestedAt
  { s with
    blocks := s.blocks.insert cid { block with completedAt := some now, size := some data.length }
    stats :=
      { s.stats with
        blocksReceived := s.stats.blocksReceived + 1
        bytesTransferred := s.stats.bytesTransferred + data.length
        avgBlockTime := some ((s.stats.avgBlockTime.map fun avg => (avg + fetchTime) / 2).getD
          fetchTime) } }

/-- The events of a received block. -/
def reportReceived (cid : Cid) (data : Bytes) : Session :=
  let s := s.send (.blockReceived s.id cid data.length)
  if s.config.progressNotifications then s.send (.progress s.id s.stats) else s

/-- `mark_received`. The lock of the counters is given back before the transition. The clock is read
when the block is completed, and again when the session is. -/
def markReceived [CidText] (s : Session) (cid : Cid) (data : Bytes) (now later : ℕ) :
    Session × Outcome :=
  match s.blocks.lookup cid with
  | none => (s, .error (.blockNotInSession (CidText.toString cid)))
  | some block =>
    Outcome.andThen ((s.countReceived cid block data now).complete later false) fun s =>
      s.reportReceived cid data

/-- A failed block in the books. -/
def countFailed : Session :=
  { s with stats := { s.stats with blocksFailed := s.stats.blocksFailed + 1 } }

/-- `mark_failed`. The lock of the counters is held during the transition. -/
def markFailed [CidText] (s : Session) (cid : Cid) (error : String) (later : ℕ) :
    Session × Outcome :=
  match s.blocks.lookup cid with
  | none => (s, .error (.blockNotInSession (CidText.toString cid)))
  | some _ =>
    Outcome.andThen (s.countFailed.complete later true) fun s =>
      s.send (.blockFailed s.id cid error)

def pause : Session × Outcome := s.transitionState .paused false

def resume : Session × Outcome := s.transitionState .active false

def cancel : Session × Outcome :=
  Outcome.andThen (s.transitionState .cancelled false) fun s => s.send (.cancelled s.id)

end Session

/-! ### Runs -/

/-- The operations, with the readings of the clock. -/
inductive SessionOp where
  | addBlock (cid : Cid) (priority : Option Priority) (now : ℕ)
  | markReceived (cid : Cid) (data : Bytes) (now later : ℕ)
  | markFailed (cid : Cid) (error : String) (later : ℕ)
  | pause
  | resume
  | cancel

namespace Session

/-- An operation, and how it ends. -/
def perform [CidText] (s : Session) : SessionOp → Session × Outcome
  | .addBlock cid priority now => s.addBlock cid priority now
  | .markReceived cid data now later => s.markReceived cid data now later
  | .markFailed cid error later => s.markFailed cid error later
  | .pause => s.pause
  | .resume => s.resume
  | .cancel => s.cancel

variable (s : Session)

/-- Completed or cancelled. -/
def Final : Prop := s.state = .completed ∨ s.state = .cancelled

instance (s : Session) : Decidable s.Final := inferInstanceAs (Decidable (_ ∨ _))

/-- The CIDs that were added, the last one first. A call is recorded with its outcome. -/
def added : List (SessionOp × Outcome) → List Cid
  | [] => []
  | (.addBlock cid _ _, .ok) :: history => cid :: added history
  | _ :: history => added history

/-- The CIDs that were received or failed, once for every notification that was accepted. -/
def settled : List (SessionOp × Outcome) → List Cid
  | [] => []
  | (_, .error _) :: history => settled history
  | (.markReceived cid _ _ _, _) :: history => cid :: settled history
  | (.markFailed cid _ _, _) :: history => cid :: settled history
  | _ :: history => settled history

/-- **Bookkept**: the total is the number of distinct CIDs that were added, no more blocks are
settled than that, and a completed session has settled every block. -/
structure Bookkept (history : List (SessionOp × Outcome)) (s : Session) : Prop where
  total : s.stats.totalBlocks = (added history).toFinset.card
  le_total : s.stats.blocksReceived + s.stats.blocksFailed ≤ s.stats.totalBlocks
  completed : s.state = .completed → ∀ cid ∈ added history, cid ∈ settled history

section Runs

variable [CidText]

/-- The sessions that calls make of `start`, one after the other, if each of them meets a condition.
A call that does not return is the last one. -/
inductive Run (start : Session) (history₀ : List (SessionOp × Outcome))
    (meets : List (SessionOp × Outcome) → Session → SessionOp → Prop) :
    List (SessionOp × Outcome) → Session → Prop
  | start : Run start history₀ meets history₀ start
  | step {history : List (SessionOp × Outcome)} {s : Session} {op : SessionOp}
      (h : Run start history₀ meets history s)
      (hreturned : ∀ call ∈ history, call.2 ≠ .deadlock) (hmeets : meets history s op) :
      Run start history₀ meets ((op, (s.perform op).2) :: history) (s.perform op).1

/-- No CID is added twice, no block is settled twice, and no final state is left. -/
def Once (history : List (SessionOp × Outcome)) (s : Session) : SessionOp → Prop
  | .addBlock cid _ _ => s.state = .active → cid ∉ added history
  | .markReceived cid _ _ _ => cid ∉ settled history
  | .markFailed cid _ _ => cid ∉ settled history
  | .pause => ¬ s.Final
  | .resume => ¬ s.Final
  | .cancel => s.state ≠ .completed

instance (history : List (SessionOp × Outcome)) (s : Session) :
    DecidablePred (Once history s)
  | .addBlock .. => inferInstanceAs (Decidable (_ → _))
  | .markReceived .. => inferInstanceAs (Decidable (_ ∉ _))
  | .markFailed .. => inferInstanceAs (Decidable (_ ∉ _))
  | .pause => inferInstanceAs (Decidable (¬ _))
  | .resume => inferInstanceAs (Decidable (¬ _))
  | .cancel => inferInstanceAs (Decidable (_ ≠ _))

end Runs

/-! ### What an operation does -/

/-- Two sessions with the same state and the same books. -/
structure SameBooks (s s' : Session) : Prop where
  state : s'.state = s.state
  blocks : s'.blocks = s.blocks
  stats : s'.stats = s.stats

theorem SameBooks.trans {s s' s'' : Session} (h : SameBooks s s') (h' : SameBooks s' s'') :
    SameBooks s s'' :=
  ⟨h'.state.trans h.state, h'.blocks.trans h.blocks, h'.stats.trans h.stats⟩

theorem sameBooks_send (event : SessionEvent) : SameBooks s (s.send event) :=
  ⟨rfl, rfl, rfl⟩

theorem sameBooks_reportReceived (cid : Cid) (data : Bytes) :
    SameBooks s (s.reportReceived cid data) := by
  unfold reportReceived
  dsimp only
  split
  · exact ⟨rfl, rfl, rfl⟩
  · exact ⟨rfl, rfl, rfl⟩

theorem andThen_spec (ended : Session × Outcome) {f : Session → Session}
    (hf : ∀ s, SameBooks s (f s)) :
    SameBooks ended.1 (Outcome.andThen ended f).1 ∧ (Outcome.andThen ended f).2 = ended.2 := by
  unfold Outcome.andThen
  split
  · next hok => exact ⟨hf _, hok.symm⟩
  · exact ⟨⟨rfl, rfl, rfl⟩, rfl⟩

/-- A transition writes the state and leaves the books alone, also when it does not return. -/
theorem transitionState_spec (newState : SessionState) (statsHeld : Bool) :
    SameBooks { s with state := newState } (s.transitionState newState statsHeld).1 ∧
      ∀ e, (s.transitionState newState statsHeld).2 ≠ .error e := by
  unfold transitionState
  dsimp only
  split
  · split
    · exact ⟨⟨rfl, rfl, rfl⟩, fun _ h => by cases h⟩
    · exact ⟨⟨rfl, rfl, rfl⟩, fun _ h => by cases h⟩
  · exact ⟨⟨rfl, rfl, rfl⟩, fun _ h => by cases h⟩

/-- The number of blocks that the counters account for. -/
def settledCount : ℕ := s.stats.blocksReceived + s.stats.blocksFailed

/-- A session is completed only when it is active and the counters reach the total. -/
theorem complete_spec (later : ℕ) (statsHeld : Bool) :
    (s.complete later statsHeld).1.blocks = s.blocks ∧
      (s.complete later statsHeld).1.stats.totalBlocks = s.stats.totalBlocks ∧
      (s.complete later statsHeld).1.settledCount = s.settledCount ∧
      ((s.complete later statsHeld).1.state = s.state ∨
        s.state = .active ∧ (s.complete later statsHeld).1.state = .completed ∧
          s.stats.totalBlocks ≤ s.settledCount) ∧
      ∀ e, (s.complete later statsHeld).2 ≠ .error e := by
  unfold complete
  split
  · next h =>
    obtain ⟨hsame, houtcome⟩ := transitionState_spec
      { s with stats := { s.stats with completedAt := some later } } .completed statsHeld
    refine ⟨hsame.blocks, by rw [hsame.stats], ?_, .inr ⟨h.2, hsame.state, ?_⟩, houtcome⟩
    · rw [settledCount, hsame.stats]
      rfl
    · exact of_decide_eq_true h.1
  · exact ⟨rfl, rfl, rfl, .inl rfl, fun _ h => by cases h⟩

/-- `s'` is `s` with one more block settled. The session is completed if that makes the counters
reach the total while it is active. -/
structure Counts (s s' : Session) : Prop where
  mem_blocks : ∀ c, c ∈ s'.blocks ↔ c ∈ s.blocks
  total : s'.stats.totalBlocks = s.stats.totalBlocks
  settled : s'.settledCount = s.settledCount + 1
  state : s'.state = s.state ∨
    s.state = .active ∧ s'.state = .completed ∧ s.stats.totalBlocks ≤ s.settledCount + 1

theorem Counts.congr {s s' s'' : Session} (h : Counts s s') (hsame : SameBooks s' s'') :
    Counts s s'' := by
  refine ⟨fun c => ?_, ?_, ?_, ?_⟩
  · rw [hsame.blocks, h.mem_blocks]
  · rw [hsame.stats, h.total]
  · rw [settledCount, hsame.stats]
    exact h.settled
  · rw [hsame.state]
    exact h.state

/-- Counting a block, and completing the session if it was the last one. -/
theorem Counts.of_complete {s : Session} (s₁ : Session)
    (hmem : ∀ c, c ∈ s₁.blocks ↔ c ∈ s.blocks)
    (htotal : s₁.stats.totalBlocks = s.stats.totalBlocks) (hstate : s₁.state = s.state)
    (hsettled : s₁.settledCount = s.settledCount + 1) (later : ℕ) (statsHeld : Bool) :
    Counts s (s₁.complete later statsHeld).1 := by
  obtain ⟨hblocks, htotal', hsettled', hstate', -⟩ := s₁.complete_spec later statsHeld
  refine ⟨fun c => ?_, htotal'.trans htotal, hsettled'.trans hsettled, ?_⟩
  · rw [hblocks, hmem]
  · rwa [hstate, htotal, hsettled] at hstate'

section Operations

variable [CidText] (s : Session) (cid : Cid)

/-- **A received block** is counted, if the session has it. -/
theorem markReceived_spec (data : Bytes) (now later : ℕ) :
    (∃ e, s.markReceived cid data now later = (s, .error e)) ∨
    (cid ∈ s.blocks ∧ (∀ e, (s.markReceived cid data now later).2 ≠ .error e) ∧
      Counts s (s.markReceived cid data now later).1) := by
  unfold markReceived
  cases hblock : s.blocks.lookup cid with
  | none => exact .inl ⟨_, rfl⟩
  | some block =>
    have hmem : cid ∈ s.blocks := AssocMap.mem_of_lookup hblock
    refine .inr ⟨hmem, ?_⟩
    have hkeep : ∀ c, c ∈ (s.countReceived cid block data now).blocks ↔ c ∈ s.blocks := by
      intro c
      rw [countReceived, AList.mem_insert]
      exact or_iff_right_of_imp fun h => h ▸ hmem
    have hcounts := Counts.of_complete _ hkeep rfl rfl (Nat.add_right_comm ..) later false
    have houtcome := ((s.countReceived cid block data now).complete_spec later false).2.2.2.2
    obtain ⟨hsame, hended⟩ := andThen_spec
      ((s.countReceived cid block data now).complete later false)
      fun s => sameBooks_reportReceived s cid data
    exact ⟨fun e => hended ▸ houtcome e, hcounts.congr hsame⟩

/-- **A failed block** is counted, if the session has it, also when the call does not return. -/
theorem markFailed_spec (error : String) (later : ℕ) :
    (∃ e, s.markFailed cid error later = (s, .error e)) ∨
    (cid ∈ s.blocks ∧ (∀ e, (s.markFailed cid error later).2 ≠ .error e) ∧
      Counts s (s.markFailed cid error later).1) := by
  unfold markFailed
  cases hblock : s.blocks.lookup cid with
  | none => exact .inl ⟨_, rfl⟩
  | some block =>
    refine .inr ⟨AssocMap.mem_of_lookup hblock, ?_⟩
    have hkeep : ∀ c, c ∈ s.countFailed.blocks ↔ c ∈ s.blocks := fun _ => Iff.rfl
    have hcounts := Counts.of_complete s.countFailed hkeep rfl rfl (Nat.add_assoc ..).symm later
      true
    have houtcome := (s.countFailed.complete_spec later true).2.2.2.2
    obtain ⟨hsame, hended⟩ := andThen_spec (s.countFailed.complete later true)
      fun s => sameBooks_send s (.blockFailed s.id cid error)
    exact ⟨fun e => hended ▸ houtcome e, hcounts.congr hsame⟩

omit [CidText] in
/-- **An added block** is counted, whether or not it is there already. -/
theorem addBlock_spec (priority : Option Priority) (now : ℕ) :
    (s.state ≠ .active ∧ ∃ e, s.addBlock cid priority now = (s, .error e)) ∨
    (s.state = .active ∧ (s.addBlock cid priority now).2 = .ok ∧
      (∀ c, c ∈ (s.addBlock cid priority now).1.blocks ↔ c = cid ∨ c ∈ s.blocks) ∧
      (s.addBlock cid priority now).1.stats.totalBlocks = s.stats.totalBlocks + 1 ∧
      (s.addBlock cid priority now).1.settledCount = s.settledCount ∧
      (s.addBlock cid priority now).1.state = s.state) := by
  unfold addBlock
  split
  · next h => exact .inl ⟨h, _, rfl⟩
  · next h =>
    refine .inr ⟨not_not.mp h, rfl, fun c => ?_, rfl, rfl, rfl⟩
    exact AList.mem_insert _

/-- The three calls that only change the state. -/
def newState : SessionOp → Option SessionState
  | .pause => some .paused
  | .resume => some .active
  | .cancel => some .cancelled
  | _ => none

theorem perform_transition {op : SessionOp} {state : SessionState} (h : newState op = some state) :
    SameBooks { s with state := state } (s.perform op).1 ∧ ∀ e, (s.perform op).2 ≠ .error e := by
  cases op with
  | pause =>
    obtain rfl := Option.some.inj h
    exact s.transitionState_spec .paused false
  | resume =>
    obtain rfl := Option.some.inj h
    exact s.transitionState_spec .active false
  | cancel =>
    obtain rfl := Option.some.inj h
    obtain ⟨hsame, houtcome⟩ := s.transitionState_spec .cancelled false
    obtain ⟨hsent, hended⟩ := andThen_spec (s.transitionState .cancelled false)
      fun s => sameBooks_send s (.cancelled s.id)
    exact ⟨hsame.trans hsent, fun e => hended ▸ houtcome e⟩
  | addBlock cid priority now => cases h
  | markReceived cid data now later => cases h
  | markFailed cid error later => cases h

end Operations

/-! ### Every run -/

section Accounts

variable {history history' : List (SessionOp × Outcome)} {s s' : Session} {op : SessionOp}

/-- What the counters, the map and the state say about the calls so far, in a form that every step
keeps: nothing was added or settled twice. -/
structure Accounts (history : List (SessionOp × Outcome)) (s : Session) : Prop where
  mem_blocks : ∀ c, c ∈ s.blocks ↔ c ∈ added history
  added_nodup : (added history).Nodup
  total : s.stats.totalBlocks = (added history).length
  settled_nodup : (settled history).Nodup
  settled_subset : settled history ⊆ added history
  settledCount : s.settledCount = (settled history).length
  completed : s.state = .completed → added history ⊆ settled history

theorem Accounts.toBookkept (h : Accounts history s) : Bookkept history s := by
  refine ⟨?_, ?_, fun hstate => h.completed hstate⟩
  · rw [h.total, List.toFinset_card_of_nodup h.added_nodup]
  · calc s.settledCount = (settled history).length := h.settledCount
      _ ≤ (added history).length := (h.settled_nodup.subperm h.settled_subset).length_le
      _ = s.stats.totalBlocks := h.total.symm

theorem accounts_new (id : ℕ) (config : SessionConfig) (hasEvents : Bool) (now : ℕ) :
    Accounts [] (.new id config hasEvents now) where
  mem_blocks _ := by simp [new, added]
  added_nodup := List.nodup_nil
  total := rfl
  settled_nodup := List.nodup_nil
  settled_subset := List.Subset.refl _
  settledCount := rfl
  completed h := by cases h

/-- A call that neither adds nor settles a block, and does not complete the session. -/
theorem Accounts.keep (h : Accounts history s) (hadded : added history' = added history)
    (hsettled : settled history' = settled history) (hblocks : s'.blocks = s.blocks)
    (hstats : s'.stats = s.stats) (hstate : s'.state = .completed → s.state = .completed) :
    Accounts history' s' where
  mem_blocks c := by rw [hblocks, hadded, h.mem_blocks]
  added_nodup := hadded ▸ h.added_nodup
  total := by rw [hstats, hadded, h.total]
  settled_nodup := hsettled ▸ h.settled_nodup
  settled_subset := by rw [hsettled, hadded]; exact h.settled_subset
  settledCount := by rw [Session.settledCount, hstats, hsettled]; exact h.settledCount
  completed hcompleted := by rw [hsettled, hadded]; exact h.completed (hstate hcompleted)

theorem Accounts.refused (h : Accounts history s) {e : SessionError} :
    Accounts ((op, .error e) :: history) s := by
  refine h.keep ?_ ?_ rfl rfl fun hstate => hstate
  · cases op <;> rfl
  · cases op <;> rfl

/-- **A settled block.** When the counters reach the total, every block is among the settled
ones. -/
theorem Accounts.settle (h : Accounts history s) {cid : Cid}
    (hadded : added history' = added history) (hsettled : settled history' = cid :: settled history)
    (hcid : cid ∈ s.blocks) (hnew : cid ∉ settled history) (hcounts : Counts s s') :
    Accounts history' s' := by
  have hnodup : (cid :: settled history).Nodup := List.nodup_cons.mpr ⟨hnew, h.settled_nodup⟩
  have hsubset : cid :: settled history ⊆ added history :=
    List.cons_subset.mpr ⟨(h.mem_blocks cid).mp hcid, h.settled_subset⟩
  constructor
  case mem_blocks =>
    intro c
    rw [hadded, hcounts.mem_blocks, h.mem_blocks]
  case added_nodup => rw [hadded]; exact h.added_nodup
  case total => rw [hadded, hcounts.total, h.total]
  case settled_nodup => rw [hsettled]; exact hnodup
  case settled_subset => rw [hsettled, hadded]; exact hsubset
  case settledCount => rw [hsettled, hcounts.settled, h.settledCount, List.length_cons]
  case completed =>
    intro hstate
    rw [hadded, hsettled]
    obtain hsame | ⟨-, -, hle⟩ := hcounts.state
    · exact List.subset_cons_of_subset _ (h.completed (hsame.symm.trans hstate))
    · -- as many blocks are settled as there are, and none is settled twice
      rw [h.total, h.settledCount] at hle
      have hperm := (hnodup.subperm hsubset).perm_of_length_le hle
      exact fun c hc => hperm.mem_iff.mpr hc

/-- The calls that only change the state add and settle nothing, and none of them completes the
session. -/
theorem of_newState {state : SessionState} (h : newState op = some state)
    {outcome : Outcome} (houtcome : ∀ e, outcome ≠ .error e) :
    added ((op, outcome) :: history) = added history ∧
      settled ((op, outcome) :: history) = settled history ∧ state ≠ .completed := by
  cases outcome with
  | error e => exact absurd rfl (houtcome e)
  | ok =>
    cases op <;> cases h
    all_goals exact ⟨rfl, rfl, by decide⟩
  | deadlock =>
    cases op <;> cases h
    all_goals exact ⟨rfl, rfl, by decide⟩

/-- A call that was accepted settles its block, also if it does not return. -/
theorem settled_cons {outcome : Outcome} (h : ∀ e, outcome ≠ .error e) (cid : Cid) :
    (∀ data now later, settled ((.markReceived cid data now later, outcome) :: history) =
      cid :: settled history) ∧
    ∀ error later, settled ((.markFailed cid error later, outcome) :: history) =
      cid :: settled history := by
  cases outcome with
  | ok => exact ⟨fun _ _ _ => rfl, fun _ _ => rfl⟩
  | error e => exact absurd rfl (h e)
  | deadlock => exact ⟨fun _ _ _ => rfl, fun _ _ => rfl⟩

end Accounts

section Runs

variable [CidText] {history history' : List (SessionOp × Outcome)} {s s' start : Session}
  {op : SessionOp}

/-- **One step** that adds and settles nothing twice. -/
theorem Accounts.step (h : Accounts history s) (honce : Once history s op) :
    Accounts ((op, (s.perform op).2) :: history) (s.perform op).1 := by
  cases hop : newState op with
  | some state =>
    obtain ⟨hsame, houtcome⟩ := s.perform_transition hop
    obtain ⟨hadded, hsettled, hne⟩ := of_newState hop houtcome
    -- the state changes, and nothing is counted
    refine h.keep hadded hsettled hsame.blocks hsame.stats fun hstate => ?_
    exact absurd (hsame.state.symm.trans hstate) hne
  | none =>
    cases op with
    | addBlock cid priority now =>
      obtain ⟨-, e, he⟩ | ⟨hactive, hok, hblocks, htotal, hcount, hstate⟩ :=
        s.addBlock_spec cid priority now
      · rw [perform, he]
        exact h.refused
      · rw [perform, hok]
        constructor
        case mem_blocks =>
          intro c
          rw [hblocks, h.mem_blocks]
          exact List.mem_cons.symm
        case added_nodup => exact List.nodup_cons.mpr ⟨honce hactive, h.added_nodup⟩
        case total => rw [htotal, h.total]; rfl
        case settled_nodup => exact h.settled_nodup
        case settled_subset => exact List.subset_cons_of_subset _ h.settled_subset
        case settledCount => rw [hcount, h.settledCount]; rfl
        case completed =>
          intro hcompleted
          rw [hstate, hactive] at hcompleted
          cases hcompleted
    | markReceived cid data now later =>
      obtain ⟨e, he⟩ | ⟨hmem, houtcome, hcounts⟩ := s.markReceived_spec cid data now later
      · rw [perform, he]
        exact h.refused
      · exact h.settle rfl ((settled_cons houtcome cid).1 data now later) hmem honce hcounts
    | markFailed cid error later =>
      obtain ⟨e, he⟩ | ⟨hmem, houtcome, hcounts⟩ := s.markFailed_spec cid error later
      · rw [perform, he]
        exact h.refused
      · exact h.settle rfl ((settled_cons houtcome cid).2 error later) hmem honce hcounts
    | pause => cases hop
    | resume => cases hop
    | cancel => cases hop

/-- **A final state stays** under a step that does not leave it. -/
theorem state_perform_of_final (hfinal : s.Final) (honce : Once history s op) :
    (s.perform op).1.state = s.state := by
  have hne : s.state ≠ .active := by
    obtain h | h := hfinal
    · rw [h]; decide
    · rw [h]; decide
  have hcounts : ∀ {s'}, Counts s s' → s'.state = s.state := fun h =>
    h.state.resolve_right fun hstate => hne hstate.1
  cases op with
  | addBlock cid priority now =>
    obtain ⟨-, e, he⟩ | ⟨hactive, -⟩ := s.addBlock_spec cid priority now
    · rw [perform, he]
    · exact absurd hactive hne
  | markReceived cid data now later =>
    obtain ⟨e, he⟩ | ⟨-, -, h⟩ := s.markReceived_spec cid data now later
    · rw [perform, he]
    · exact hcounts h
  | markFailed cid error later =>
    obtain ⟨e, he⟩ | ⟨-, -, h⟩ := s.markFailed_spec cid error later
    · rw [perform, he]
    · exact hcounts h
  | pause => exact absurd hfinal honce
  | resume => exact absurd hfinal honce
  | cancel =>
    -- cancelling again changes nothing
    have hcancel : newState .cancel = some .cancelled := rfl
    obtain ⟨hsame, -⟩ := s.perform_transition hcancel
    exact hsame.state.trans (hfinal.resolve_left honce).symm

theorem Run.toAccounts (hstart : Accounts history' start) (h : Run start history' Once history s) :
    Accounts history s := by
  induction h with
  | start => exact hstart
  | step _ _ honce ih => exact ih.step honce

theorem Run.state_of_final (hfinal : start.Final) (h : Run start history' Once history s) :
    s.state = start.state := by
  induction h with
  | start => rfl
  | @step history s op _ _ honce ih =>
    have hfinal' : s.Final := by rwa [Session.Final, ih]
    exact (state_perform_of_final hfinal' honce).trans ih

/-- **The books are right** in every run in which no CID is added twice, no block is settled twice
and no final state is left, and a final state stays however such a run goes on. -/
theorem Run.bookkept {id : ℕ} {config : SessionConfig} {hasEvents : Bool} {now : ℕ}
    (h : Run (.new id config hasEvents now) [] Once history s) :
    Bookkept history s ∧
      ∀ history' s', s.Final → Run s history Once history' s' → s'.state = s.state :=
  ⟨(h.toAccounts (accounts_new ..)).toBookkept, fun _ _ hfinal h' => h'.state_of_final hfinal⟩

end Runs

section Sample

open scoped CidReference

/-- **The books go wrong** in four ways: a CID that is added again is counted again; so is a block
that is received again; such counts complete a session that waits for another block; and a session
that is completed goes on when it is resumed. -/
theorem not_forall_bookkept :
    let _ := CidReference.byteHash
    let start := new 1 ⟨.normal, false⟩ false 0
    let run := Run start [] fun _ _ _ => True
    (¬ ∀ history s, run history s → s.stats.totalBlocks = (added history).toFinset.card) ∧
    (¬ ∀ history s, run history s →
      s.stats.blocksReceived + s.stats.blocksFailed ≤ s.stats.totalBlocks) ∧
    (¬ ∀ history s, run history s → s.state = .completed →
      ∀ cid ∈ added history, cid ∈ settled history) ∧
    ¬ ∀ history s op, run history s → s.Final → (s.perform op).1.state = s.state := by
  intro _ start run
  let a : Cid := Cid.ofData Codec.raw .sha256 [0]
  let b : Cid := Cid.ofData Codec.raw .sha256 [1]
  let addA : SessionOp := .addBlock a none 0
  let addB : SessionOp := .addBlock b none 0
  let received : SessionOp := .markReceived a [] 0 0
  have hrun₁ : run _ (start.perform addA).1 := .step .start (by decide +kernel) trivial
  have hrun₂ : run _ ((start.perform addA).1.perform received).1 :=
    .step hrun₁ (by decide +kernel) trivial
  refine ⟨fun h => ?_, fun h => ?_, fun h => ?_, fun h => ?_⟩
  · -- one CID is added twice
    have hrun : run _ ((start.perform addA).1.perform addA).1 :=
      .step hrun₁ (by decide +kernel) trivial
    exact absurd (h _ _ hrun) (by decide +kernel)
  · -- one block is received twice
    have hrun : run _ (((start.perform addA).1.perform received).1.perform received).1 :=
      .step hrun₂ (by decide +kernel) trivial
    exact absurd (h _ _ hrun) (by decide +kernel)
  · -- one of two blocks is received twice
    have hrun : run _
        ((((start.perform addA).1.perform addB).1.perform received).1.perform received).1 :=
      .step (.step (.step hrun₁ (by decide +kernel) trivial) (by decide +kernel) trivial)
        (by decide +kernel) trivial
    exact absurd (h _ _ hrun (by decide +kernel) b) (by decide +kernel)
  · -- a session with one block is resumed when it is completed
    exact absurd (h _ _ .resume hrun₂ (by decide +kernel)) (by decide +kernel)

/-- Two blocks, one of which is received and the other one fails, and a late `cancel` that is left
out. The session is completed, and both blocks are settled. -/
theorem Run.bookkept_two :
    let _ := CidReference.byteHash
    let a : Cid := Cid.ofData Codec.raw .sha256 [0]
    let b : Cid := Cid.ofData Codec.raw .sha256 [1]
    let start := new 1 ⟨.normal, false⟩ false 0
    let s₁ := (start.perform (.addBlock a none 0)).1
    let s₂ := (s₁.perform (.addBlock b none 0)).1
    let s₃ := (s₂.perform (.markReceived a [] 0 0)).1
    let s₄ := (s₃.perform (.markFailed b "timeout" 0)).1
    s₄.stats.totalBlocks = 2 ∧ s₄.state = .completed := by
  intro _ a b start s₁ s₂ s₃ s₄
  have hrun : Run start [] Once _ s₄ :=
    .step (.step (.step (.step .start (by decide +kernel) (by decide +kernel))
      (by decide +kernel) (by decide +kernel)) (by decide +kernel) (by decide +kernel))
      (by decide +kernel) (by decide +kernel)
  exact ⟨hrun.bookkept.1.total.trans (by decide +kernel), by decide +kernel⟩

end Sample

end Session

end Ipfrs.Transport
