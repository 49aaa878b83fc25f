import Ipfrs.Core.CidReference
import Ipfrs.Lib.AssocMap
import Ipfrs.Lib.Interleaving

/-!
# Coalescing requests

The `RequestCoalescer` of the transport crate (`ipfrs-transport/src/request_coalescing.rs`), with
its callers as interleaved tasks. A caller registers; if it is told to fetch, it reports its result
with `complete_request` or `fail_request`. The accesses to the map of pending requests are atomic,
and so is a send on a broadcast channel: these are the steps (`advance`). What is only counted for
the statistics is left out, and so is the age of an entry, which only the clean-up reads.

Nobody that waits should be forgotten (`NobodyLost`). But at the limit of waiters an entry is
removed without a word to those who wait on it, and so is an entry that a second first caller
replaces (`not_forall_nobodyLost`).

* `Run.nobodyLost` — nobody is forgotten in runs in which no entry goes away in these two ways while
  somebody waits on it (`Keeps`);
* `Run.lost` — and where one does, somebody is forgotten, whatever happens later.
-/

namespace Ipfrs.Transport

open Interleaving

/-- `CoalescerConfig`, without the window and the switch for statistics. -/
structure CoalescerConfig where
  maxWaitersPerRequest : ℕ
  broadcastCapacity : ℕ
  deriving DecidableEq

/-- `PendingRequest`. `tx` is the number of its channel. -/
structure PendingRequest where
  tx : ℕ
  waiterCount : ℕ
  deriving DecidableEq

/-- What callers report: the data, or an error. -/
abbrev Reported := Except String Bytes

/-- A `broadcast::Receiver` that was handed out: its channel, and what it has been sent. -/
structure Receiver where
  channel : ℕ
  inbox : List Reported
  deriving DecidableEq

/-- `RequestCoalescer`, with the number of channels that were made so far, and the receivers that
were handed out. -/
structure RequestCoalescer where
  config : CoalescerConfig
  pending : AList fun _ : Cid => PendingRequest
  channels : ℕ
  receivers : List Receiver
  deriving DecidableEq

namespace RequestCoalescer

def new (config : CoalescerConfig) : RequestCoalescer := ⟨config, ∅, 0, []⟩

/-- `self.pending.remove`. -/
def remove (c : RequestCoalescer) (cid : Cid) : RequestCoalescer :=
  { c with pending := c.pending.erase cid }

/-- `broadcast::Sender::send`, to all receivers of the channel. -/
def send (c : RequestCoalescer) (tx : ℕ) (result : Reported) : RequestCoalescer :=
  { c with
    receivers := c.receivers.map fun r =>
      if r.channel = tx then { r with inbox := r.inbox ++ [result] } else r }

/-- The capacities on which `broadcast::channel` does not panic. -/
def validCapacity (capacity : ℕ) : Bool := 0 < capacity ∧ capacity ≤ (2 ^ 64 - 1) / 2

/-- Where a caller is: before its first step, about to remove the entry at the limit, having found
no entry, told to fetch, or about to send its result to those who wait. -/
inductive Stage where
  | started (result : Reported)
  | atLimit (result : Reported)
  | absent (result : Reported)
  | fetching (result : Reported)
  | sending (tx : ℕ) (result : Reported)
  deriving DecidableEq

/-- What becomes of a caller: it waits with a receiver, it has reported its result, or it has
panicked. -/
inductive Ended where
  | waiting (receiver : ℕ)
  | reported
  | panicked (msg : String)
  deriving DecidableEq

/-- The result that a caller reports when it is told to fetch. -/
def Stage.result : Stage → Reported
  | .started result => result
  | .atLimit result => result
  | .absent result => result
  | .fetching result => result
  | .sending _ result => result

/-- One step of a caller. -/
def advance (cid : Cid) (c : RequestCoalescer) : Stage → RequestCoalescer × (Stage ⊕ Ended)
  -- `register_request`, with the entry locked
  | .started result =>
    match c.pending.lookup cid with
    | none => (c, .inl (.absent result))
    | some entry =>
      let entry := { entry with waiterCount := entry.waiterCount + 1 }
      let c := { c with pending := c.pending.insert cid entry }
      if entry.waiterCount ≥ c.config.maxWaitersPerRequest then (c, .inl (.atLimit result))
      else
        ({ c with receivers := c.receivers ++ [⟨entry.tx, []⟩] },
          .inr (.waiting c.receivers.length))
  | .atLimit result => (c.remove cid, .inl (.fetching result))
  | .absent result =>
    if validCapacity c.config.broadcastCapacity then
      ({ c with pending := c.pending.insert cid ⟨c.channels, 1⟩, channels := c.channels + 1 },
        .inl (.fetching result))
    else (c, .inr (.panicked "broadcast channel capacity"))
  -- `complete_request` and `fail_request`
  | .fetching result =>
    match c.pending.lookup cid with
    | none => (c, .inr .reported)
    | some entry => (c.remove cid, .inl (.sending entry.tx result))
  | .sending tx result => (c.send tx result, .inr .reported)

variable {cid : Cid} {c c' : RequestCoalescer} {stage stage' : Stage}

theorem result_advance (cid : Cid) (c : RequestCoalescer) (stage stage' : Stage)
    (h : (advance cid c stage).2 = .inl stage') : stage'.result = stage.result := by
  cases stage with
  | started result =>
    simp only [advance] at h
    split at h
    · rw [← Sum.inl.inj h]
      rfl
    · split at h
      · rw [← Sum.inl.inj h]
        rfl
      · cases h
  | atLimit result =>
    rw [← Sum.inl.inj h]
    rfl
  | absent result =>
    simp only [advance] at h
    split at h
    · rw [← Sum.inl.inj h]
      rfl
    · cases h
  | fetching result =>
    simp only [advance] at h
    split at h
    · cases h
    · rw [← Sum.inl.inj h]
      rfl
  | sending tx result => cases h

/-- The callers for one CID. -/
def callers (cid : Cid) : Program RequestCoalescer Reported Stage Ended where
  start := .started
  step := advance cid
  call := Stage.result
  call_start _ := rfl
  call_step := result_advance cid

/-! ### What a step does -/

/-- **The steps.** -/
inductive Step (cid : Cid) (c : RequestCoalescer) :
    Stage → RequestCoalescer → Stage ⊕ Ended → Prop
  | absent {result : Reported} (h : c.pending.lookup cid = none) :
      Step cid c (.started result) c (.inl (.absent result))
  | atLimit {result : Reported} {entry : PendingRequest} (h : c.pending.lookup cid = some entry) :
      Step cid c (.started result)
        { c with pending := c.pending.insert cid ⟨entry.tx, entry.waiterCount + 1⟩ }
        (.inl (.atLimit result))
  | joined {result : Reported} {entry : PendingRequest} (h : c.pending.lookup cid = some entry) :
      Step cid c (.started result)
        { c with
          pending := c.pending.insert cid ⟨entry.tx, entry.waiterCount + 1⟩
          receivers := c.receivers ++ [⟨entry.tx, []⟩] }
        (.inr (.waiting c.receivers.length))
  | forced {result : Reported} :
      Step cid c (.atLimit result) (c.remove cid) (.inl (.fetching result))
  | inserted {result : Reported} (h : validCapacity c.config.broadcastCapacity) :
      Step cid c (.absent result)
        { c with pending := c.pending.insert cid ⟨c.channels, 1⟩, channels := c.channels + 1 }
        (.inl (.fetching result))
  | panicked {result : Reported} {msg : String} :
      Step cid c (.absent result) c (.inr (.panicked msg))
  | unclaimed {result : Reported} (h : c.pending.lookup cid = none) :
      Step cid c (.fetching result) c (.inr .reported)
  | claimed {result : Reported} {entry : PendingRequest} (h : c.pending.lookup cid = some entry) :
      Step cid c (.fetching result) (c.remove cid) (.inl (.sending entry.tx result))
  | sent {tx : ℕ} {result : Reported} :
      Step cid c (.sending tx result) (c.send tx result) (.inr .reported)

theorem step_advance (cid : Cid) (c : RequestCoalescer) (stage : Stage) :
    Step cid c stage (advance cid c stage).1 (advance cid c stage).2 := by
  cases stage with
  | started result =>
    simp only [advance]
    split
    · next h => exact .absent h
    · next entry h =>
      split
      · exact .atLimit h
      · exact .joined h
  | atLimit result => exact .forced
  | absent result =>
    simp only [advance]
    split
    · next h => exact .inserted h
    · exact .panicked
  | fetching result =>
    simp only [advance]
    split
    · next h => exact .unclaimed h
    · next entry h => exact .claimed h
  | sending tx result => exact .sent

theorem mem_receivers_send {tx : ℕ} {result : Reported} {r : Receiver}
    (h : r ∈ (c.send tx result).receivers) :
    r.inbox ≠ [] ∨ r.channel ≠ tx ∧ r ∈ c.receivers := by
  obtain ⟨r₀, hr₀, rfl⟩ := List.mem_map.mp h
  by_cases htx : r₀.channel = tx
  · left
    simp [htx]
  · right
    rw [if_neg htx]
    exact ⟨htx, hr₀⟩

/-! ### The tasks of a system -/

section Tasks

variable {sys : System RequestCoalescer Stage Ended} {id : ℕ} {out : Stage ⊕ Ended}

/-- The system after a task has taken a step. -/
abbrev resumed (cid : Cid) (sys : System RequestCoalescer Stage Ended) (id : ℕ) (stage : Stage) :
    System RequestCoalescer Stage Ended :=
  Interleaving.resume (callers cid) sys id stage

theorem mem_resumed_self (hstage : sys.tasks[id]? = some (.inl stage)) :
    (advance cid sys.shared stage).2 ∈ (resumed cid sys id stage).tasks :=
  List.mem_set (List.getElem?_eq_some_iff.mp hstage).1 _

theorem mem_resumed_of_ne (hstage : sys.tasks[id]? = some (.inl stage)) (hne : stage' ≠ stage)
    (hmem : .inl stage' ∈ sys.tasks) : .inl stage' ∈ (resumed cid sys id stage).tasks := by
  obtain ⟨j, hj⟩ := List.mem_iff_getElem?.mp hmem
  have hid : id ≠ j := by
    rintro rfl
    rw [hstage] at hj
    exact hne (Sum.inl.inj (Option.some.inj hj)).symm
  refine List.mem_of_getElem? (i := j) ?_
  show (sys.tasks.set id _)[j]? = _
  rw [List.getElem?_set_ne hid, hj]

theorem mem_of_mem_resumed (hmem : out ∈ (resumed cid sys id stage).tasks) :
    out = (advance cid sys.shared stage).2 ∨ out ∈ sys.tasks :=
  (List.mem_or_eq_of_mem_set hmem).symm

end Tasks

/-! ### Nobody is forgotten -/

section Runs

variable {trace : List (Event Reported Ended)} {sys : System RequestCoalescer Stage Ended} {id : ℕ}
  {config : CoalescerConfig} {meets : System RequestCoalescer Stage Ended → Stage → Prop}

/-- Told to fetch, and not done. -/
def Stage.Fetches : Stage → Prop
  | .fetching _ => True
  | .sending _ _ => True
  | _ => False

/-- **Nobody is forgotten**: once every caller that was told to fetch has reported, every receiver
has been sent a result. -/
def NobodyLost (sys : System RequestCoalescer Stage Ended) : Prop :=
  (∀ stage, .inl stage ∈ sys.tasks → ¬ stage.Fetches) → ∀ r ∈ sys.shared.receivers, r.inbox ≠ []

/-- Somebody waits on this channel. -/
def Waited (c : RequestCoalescer) (tx : ℕ) : Prop :=
  ∃ r ∈ c.receivers, r.channel = tx ∧ r.inbox = []

instance (c : RequestCoalescer) (tx : ℕ) : Decidable (Waited c tx) :=
  inferInstanceAs (Decidable (∃ r ∈ c.receivers, _))

/-- A step that takes an entry away without a word, at the limit or by replacing it, does so while
nobody waits on it. -/
def Keeps (cid : Cid) (sys : System RequestCoalescer Stage Ended) : Stage → Prop
  | .atLimit _ => ∀ entry ∈ sys.shared.pending.lookup cid, ¬ Waited sys.shared entry.tx
  | .absent _ => ∀ entry ∈ sys.shared.pending.lookup cid, ¬ Waited sys.shared entry.tx
  | _ => True

/-- An entry has somebody who was told to fetch, and a receiver without a result has an entry, or
somebody who is about to send. -/
structure Attended (cid : Cid) (sys : System RequestCoalescer Stage Ended) : Prop where
  entry : ∀ entry, sys.shared.pending.lookup cid = some entry →
    ∃ result, .inl (.fetching result) ∈ sys.tasks
  receiver : ∀ r ∈ sys.shared.receivers, r.inbox = [] →
    (∃ entry, sys.shared.pending.lookup cid = some entry ∧ entry.tx = r.channel) ∨
      ∃ result, .inl (.sending r.channel result) ∈ sys.tasks

theorem Attended.served (h : Attended cid sys) : NobodyLost sys := by
  intro hdone r hr hinbox
  obtain ⟨entry, hentry, -⟩ | ⟨result, hsending⟩ := h.receiver r hr hinbox
  · obtain ⟨result, hfetching⟩ := h.entry entry hentry
    exact hdone _ hfetching trivial
  · exact hdone _ hsending trivial

theorem Attended.spawn (h : Attended cid sys) (call : Reported) :
    Attended cid (Interleaving.spawn (callers cid) sys call) where
  entry entry hentry :=
    let ⟨result, hmem⟩ := h.entry entry hentry
    ⟨result, List.mem_append_left _ hmem⟩
  receiver r hr hinbox :=
    (h.receiver r hr hinbox).imp_right fun ⟨result, hmem⟩ =>
      ⟨result, List.mem_append_left _ hmem⟩

variable {tasks' : List (Stage ⊕ Ended)} {out : Stage ⊕ Ended} {tx : ℕ}

/-- The entry keeps its channel, or there is none before and after; who waits newly waits on it. -/
theorem Attended.keep (h : Attended cid sys) {c' : RequestCoalescer}
    (hchannel : (c'.pending.lookup cid).map PendingRequest.tx =
      (sys.shared.pending.lookup cid).map PendingRequest.tx)
    (hreceivers : ∀ r ∈ c'.receivers, r ∈ sys.shared.receivers ∨
      (c'.pending.lookup cid).map PendingRequest.tx = some r.channel)
    (htasks : ∀ stage, stage.Fetches → .inl stage ∈ sys.tasks → .inl stage ∈ tasks') :
    Attended cid ⟨c', tasks'⟩ := by
  refine ⟨fun entry hentry => ?_, fun r hr hinbox => ?_⟩
  · have hentry : c'.pending.lookup cid = some entry := hentry
    rw [hentry, Option.map_some] at hchannel
    obtain ⟨old, hold, -⟩ := Option.map_eq_some_iff.mp hchannel.symm
    obtain ⟨result, hmem⟩ := h.entry old hold
    exact ⟨result, htasks _ trivial hmem⟩
  · obtain hold | hnew := hreceivers r hr
    · refine (h.receiver r hold hinbox).imp ?_ fun ⟨result, hmem⟩ =>
        ⟨result, htasks _ trivial hmem⟩
      rintro ⟨old, hlookup, htx⟩
      rw [hlookup, Option.map_some, htx] at hchannel
      exact Option.map_eq_some_iff.mp hchannel
    · exact Or.inl (Option.map_eq_some_iff.mp hnew)

/-- The entry goes away, or another one takes its place, while nobody waits on it. -/
theorem Attended.replace (h : Attended cid sys) {c' : RequestCoalescer}
    (hkeeps : ∀ entry ∈ sys.shared.pending.lookup cid, ¬ Waited sys.shared entry.tx)
    (hreceivers : c'.receivers = sys.shared.receivers)
    (hfetching : ∃ result, .inl (.fetching result) ∈ tasks')
    (htasks : ∀ tx result, .inl (.sending tx result) ∈ sys.tasks →
      .inl (.sending tx result) ∈ tasks') :
    Attended cid ⟨c', tasks'⟩ := by
  refine ⟨fun _ _ => hfetching, fun r hr hinbox => Or.inr ?_⟩
  have hr : r ∈ sys.shared.receivers := hreceivers ▸ hr
  obtain ⟨entry, hentry, htx⟩ | ⟨result, hmem⟩ := h.receiver r hr hinbox
  · exact absurd ⟨r, hr, htx.symm, hinbox⟩ (hkeeps entry hentry)
  · exact ⟨result, htasks _ _ hmem⟩

/-- **A step** keeps the receivers attended. -/
theorem Attended.resume (h : Attended cid sys) (hstage : sys.tasks[id]? = some (.inl stage))
    (hkeeps : Keeps cid sys stage) : Attended cid (resumed cid sys id stage) := by
  have hself : (advance cid sys.shared stage).2 ∈ (resumed cid sys id stage).tasks :=
    mem_resumed_self hstage
  have hother : ∀ stage', stage' ≠ stage → .inl stage' ∈ sys.tasks →
      .inl stage' ∈ (resumed cid sys id stage).tasks := fun _ => mem_resumed_of_ne hstage
  -- a caller that does not fetch or send leaves those that do
  have hfetches : ¬ stage.Fetches → ∀ stage', stage'.Fetches → .inl stage' ∈ sys.tasks →
      .inl stage' ∈ (resumed cid sys id stage).tasks := fun hnot stage' hstage' =>
    hother stage' fun heq => hnot (heq ▸ hstage')
  have hstep := step_advance cid sys.shared stage
  have hshared : (resumed cid sys id stage).shared = (advance cid sys.shared stage).1 := rfl
  generalize resumed cid sys id stage = sys' at hself hother hfetches hshared ⊢
  generalize advance cid sys.shared stage = next at hself hstep hshared
  obtain ⟨c', out⟩ := next
  obtain ⟨shared', tasks'⟩ := sys'
  obtain rfl : shared' = c' := hshared
  dsimp only at hself hother hfetches hstep
  cases hstep with
  | absent hnone => exact h.keep rfl (fun r hr => Or.inl hr) (hfetches not_false)
  | atLimit hsome =>
    refine h.keep ?_ (fun r hr => Or.inl hr) (hfetches not_false)
    rw [AList.lookup_insert, hsome]
    rfl
  | @joined _ entry hsome =>
    refine h.keep ?_ (fun r hr => ?_) (hfetches not_false)
    · rw [AList.lookup_insert, hsome]
      rfl
    · refine (List.mem_append.mp hr).imp_right fun hnew => ?_
      rw [List.mem_singleton.mp hnew, AList.lookup_insert]
      rfl
  | forced => exact h.replace hkeeps rfl ⟨_, hself⟩ fun _ _ => hfetches not_false _ trivial
  | inserted _ => exact h.replace hkeeps rfl ⟨_, hself⟩ fun _ _ => hfetches not_false _ trivial
  | panicked => exact h.keep rfl (fun r hr => Or.inl hr) (hfetches not_false)
  | unclaimed hnone =>
    -- the caller has fetched, and there is no entry any more that needs it
    refine ⟨fun entry hentry => ?_, fun r hr hinbox => ?_⟩
    · rw [hnone] at hentry
      cases hentry
    · exact (h.receiver r hr hinbox).imp_right fun ⟨result, hmem⟩ =>
        ⟨result, hother _ (by simp) hmem⟩
  | claimed hsome =>
    -- the caller that takes the entry away is about to send to those who wait on it
    refine ⟨fun entry hentry => ?_, fun r hr hinbox => Or.inr ?_⟩
    · rw [remove, AList.lookup_erase] at hentry
      cases hentry
    · obtain ⟨entry, hentry, htx⟩ | ⟨result, hmem⟩ := h.receiver r hr hinbox
      · rw [hsome] at hentry
        obtain rfl := Option.some.inj hentry
        exact ⟨_, htx ▸ hself⟩
      · exact ⟨result, hother _ (by simp) hmem⟩
  | sent =>
    -- whoever waits on this channel has got the result
    refine ⟨fun entry hentry => ?_, fun r hr hinbox => ?_⟩
    · obtain ⟨result, hmem⟩ := h.entry _ hentry
      exact ⟨result, hother _ (by simp) hmem⟩
    · obtain hsent | ⟨hne, hold⟩ := mem_receivers_send hr
      · exact absurd hinbox hsent
      · exact (h.receiver r hold hinbox).imp_right fun ⟨result, hmem⟩ =>
          ⟨result, hother _ (by simp [hne]) hmem⟩

/-- **Nobody is forgotten** in runs in which no entry goes away, at the limit or by being replaced,
while somebody waits on it. -/
theorem Run.nobodyLost
    (h : Run (callers cid) (· = new config) (fun _ => True) (Keeps cid) trace sys) :
    NobodyLost sys := by
  suffices hattended : Attended cid sys from hattended.served
  refine h.invariant ?_ (fun sys call hsys _ => hsys.spawn call)
    fun sys id stage hsys hstage hkeeps => hsys.resume hstage hkeeps
  rintro s rfl
  exact ⟨fun entry hentry => (by cases hentry), fun r hr => absurd hr List.not_mem_nil⟩

/-! ### Somebody is forgotten -/

/-- The channels that may still be sent on are different ones, and none of them is to come. -/
structure Fresh (cid : Cid) (sys : System RequestCoalescer Stage Ended) : Prop where
  entry : ∀ entry, sys.shared.pending.lookup cid = some entry → entry.tx < sys.shared.channels ∧
    validCapacity sys.shared.config.broadcastCapacity ∧
    ∀ result, .inl (.sending entry.tx result) ∉ sys.tasks
  sending : ∀ tx result, .inl (.sending tx result) ∈ sys.tasks → tx < sys.shared.channels

/-- Somebody waits on a channel that nobody will send on. -/
structure Dead (cid : Cid) (tx : ℕ) (sys : System RequestCoalescer Stage Ended) : Prop where
  waited : Waited sys.shared tx
  lt : tx < sys.shared.channels
  entry : ∀ entry, sys.shared.pending.lookup cid = some entry → entry.tx ≠ tx
  sending : ∀ result, .inl (.sending tx result) ∉ sys.tasks

/-- What a step does to the channels that may still be sent on: it may make a new one, or go over
to sending on the one of the entry. -/
structure Channels (cid : Cid) (c c' : RequestCoalescer) (out : Stage ⊕ Ended) : Prop where
  config : c'.config = c.config
  le : c.channels ≤ c'.channels
  entry : ∀ entry', c'.pending.lookup cid = some entry' →
    (∃ entry, c.pending.lookup cid = some entry ∧ entry.tx = entry'.tx) ∨
      entry'.tx = c.channels ∧ c.channels < c'.channels ∧
        validCapacity c.config.broadcastCapacity
  sending : ∀ tx result, out = .inl (.sending tx result) → c'.pending.lookup cid = none ∧
    ∃ entry, c.pending.lookup cid = some entry ∧ entry.tx = tx

theorem Channels.of_same (hout : ∀ tx result, out ≠ .inl (.sending tx result)) :
    Channels cid c c out :=
  ⟨rfl, le_rfl, fun entry h => Or.inl ⟨entry, h, rfl⟩, fun tx result h => absurd h (hout tx result)⟩

theorem channels_step (h : Step cid c stage c' out) : Channels cid c c' out := by
  cases h with
  | absent _ => exact .of_same (by simp)
  | atLimit hsome =>
    refine ⟨rfl, le_rfl, fun entry h => Or.inl ⟨_, hsome, ?_⟩, fun _ _ h => by cases h⟩
    rw [AList.lookup_insert] at h
    rw [← Option.some.inj h]
  | joined hsome =>
    refine ⟨rfl, le_rfl, fun entry h => Or.inl ⟨_, hsome, ?_⟩, fun _ _ h => by cases h⟩
    rw [AList.lookup_insert] at h
    rw [← Option.some.inj h]
  | forced =>
    refine ⟨rfl, le_rfl, fun entry h => ?_, fun _ _ h => by cases h⟩
    rw [remove, AList.lookup_erase] at h
    cases h
  | inserted hvalid =>
    -- the only step that makes a channel
    refine ⟨rfl, Nat.le_succ _, fun entry h => Or.inr ⟨?_, Nat.lt_succ_self _, hvalid⟩,
      fun _ _ h => by cases h⟩
    rw [AList.lookup_insert] at h
    rw [← Option.some.inj h]
  | panicked => exact .of_same (by simp)
  | unclaimed _ => exact .of_same (by simp)
  | claimed hsome =>
    -- the entry is gone, and its channel is the one to be sent on
    refine ⟨rfl, le_rfl, fun entry h => ?_,
      fun tx result h => ⟨AList.lookup_erase cid c.pending, ?_⟩⟩
    · rw [remove, AList.lookup_erase] at h
      cases h
    · cases h
      exact ⟨_, hsome, rfl⟩
  | sent => exact ⟨rfl, le_rfl, fun entry h => Or.inl ⟨entry, h, rfl⟩, fun _ _ h => by cases h⟩

theorem waited_step (h : Step cid c stage c' out) (hne : ∀ result, stage ≠ .sending tx result)
    (hwaited : Waited c tx) : Waited c' tx := by
  obtain ⟨r, hr, htx, hinbox⟩ := hwaited
  cases h with
  | joined _ => exact ⟨r, List.mem_append_left _ hr, htx, hinbox⟩
  | @sent tx' result =>
    refine ⟨r, List.mem_map.mpr ⟨r, hr, if_neg ?_⟩, htx, hinbox⟩
    rintro rfl
    exact hne result (by rw [htx])
  | _ => exact ⟨r, hr, htx, hinbox⟩

theorem Fresh.resume (h : Fresh cid sys) : Fresh cid (resumed cid sys id stage) := by
  have hchannels := channels_step (step_advance cid sys.shared stage)
  refine ⟨fun entry' hlookup => ?_, fun tx result hmem => ?_⟩
  · -- a task that has just begun to send has taken the entry away
    have hnew : ∀ result, .inl (.sending entry'.tx result) ≠ (advance cid sys.shared stage).2 := by
      intro result hout
      have hnone := (hchannels.sending _ _ hout.symm).1
      exact absurd (hlookup.symm.trans hnone) (by simp)
    have hvalid : (resumed cid sys id stage).shared.config = sys.shared.config := hchannels.config
    rw [hvalid]
    obtain ⟨entry, hold, htx⟩ | ⟨htx, hlt, hcapacity⟩ := hchannels.entry entry' hlookup
    · obtain ⟨hlt, hcapacity, hnone⟩ := h.entry entry hold
      rw [htx] at hlt hnone
      refine ⟨hlt.trans_le hchannels.le, hcapacity, fun result hmem => ?_⟩
      exact (mem_of_mem_resumed hmem).elim (hnew result) (hnone result)
    · refine ⟨htx ▸ hlt, hcapacity, fun result hmem => ?_⟩
      refine (mem_of_mem_resumed hmem).elim (hnew result) fun hmem => ?_
      exact absurd (h.sending _ _ hmem) (htx ▸ lt_irrefl _)
  · rcases mem_of_mem_resumed hmem with hout | hmem
    · obtain ⟨-, entry, hold, rfl⟩ := hchannels.sending _ _ hout.symm
      exact (h.entry entry hold).1.trans_le hchannels.le
    · exact (h.sending _ _ hmem).trans_le hchannels.le

theorem mem_of_mem_spawn {call : Reported} {result : Reported}
    (h : .inl (.sending tx result) ∈ (Interleaving.spawn (callers cid) sys call).tasks) :
    .inl (.sending tx result) ∈ sys.tasks := by
  rcases List.mem_append.mp h with h | h
  · exact h
  · exact absurd (List.mem_singleton.mp h) (by simp [callers])

theorem Fresh.spawn (h : Fresh cid sys) (call : Reported) :
    Fresh cid (Interleaving.spawn (callers cid) sys call) where
  entry entry hlookup :=
    let ⟨hlt, hcapacity, hnone⟩ := h.entry entry hlookup
    ⟨hlt, hcapacity, fun result hmem => hnone result (mem_of_mem_spawn hmem)⟩
  sending tx result hmem := h.sending tx result (mem_of_mem_spawn hmem)

theorem Dead.spawn (h : Dead cid tx sys) (call : Reported) :
    Dead cid tx (Interleaving.spawn (callers cid) sys call) where
  waited := h.waited
  lt := h.lt
  entry := h.entry
  sending result hmem := h.sending result (mem_of_mem_spawn hmem)

/-- **A channel stays dead.** -/
theorem Dead.resume (h : Dead cid tx sys) (hstage : sys.tasks[id]? = some (.inl stage)) :
    Dead cid tx (resumed cid sys id stage) := by
  have hstep := step_advance cid sys.shared stage
  have hchannels := channels_step hstep
  have hne : ∀ result, stage ≠ .sending tx result := by
    rintro result rfl
    exact h.sending result (List.mem_of_getElem? hstage)
  refine ⟨waited_step hstep hne h.waited, h.lt.trans_le hchannels.le, fun entry' hlookup => ?_,
    fun result hmem => ?_⟩
  · obtain ⟨entry, hold, htx⟩ | ⟨htx, -⟩ := hchannels.entry entry' hlookup
    · exact htx ▸ h.entry entry hold
    · exact htx ▸ h.lt.ne'
  · rcases mem_of_mem_resumed hmem with hout | hmem
    · obtain ⟨-, entry, hold, htx⟩ := hchannels.sending _ _ hout.symm
      exact h.entry entry hold htx
    · exact h.sending result hmem

/-- A step that does not keep the receivers leaves a channel dead. -/
theorem Fresh.dead (h : Fresh cid sys) (hnot : ¬ Keeps cid sys stage) :
    ∃ tx, Dead cid tx (resumed cid sys id stage) := by
  -- the entry that waits is replaced, so nobody will send on its channel
  have hnext : ∀ entry, sys.shared.pending.lookup cid = some entry → Waited sys.shared entry.tx →
      (∀ result, stage ≠ .sending entry.tx result) →
      (∀ entry', (resumed cid sys id stage).shared.pending.lookup cid = some entry' →
        entry'.tx = sys.shared.channels) →
      (∀ tx result, (advance cid sys.shared stage).2 ≠ .inl (.sending tx result)) →
      ∃ tx, Dead cid tx (resumed cid sys id stage) := by
    intro entry hlookup hwaited hne hreplaced hout
    obtain ⟨hlt, -, hnone⟩ := h.entry entry hlookup
    have hstep := step_advance cid sys.shared stage
    refine ⟨entry.tx, waited_step hstep hne hwaited, hlt.trans_le (channels_step hstep).le,
      fun entry' hentry' => ?_, fun result hmem => ?_⟩
    · rw [hreplaced entry' hentry']
      exact hlt.ne'
    · exact (mem_of_mem_resumed hmem).elim (fun heq => hout _ _ heq.symm) (hnone result)
  cases stage with
  | atLimit result =>
    simp only [Keeps, not_forall, not_not] at hnot
    obtain ⟨entry, hlookup, hwaited⟩ := hnot
    refine hnext entry hlookup hwaited (by simp) (fun entry' hentry' => ?_) (by simp [advance])
    have hnone : (resumed cid sys id (.atLimit result)).shared.pending.lookup cid = none :=
      AList.lookup_erase cid _
    rw [hnone] at hentry'
    cases hentry'
  | absent result =>
    simp only [Keeps, not_forall, not_not] at hnot
    obtain ⟨entry, hlookup, hwaited⟩ := hnot
    -- the entry that was inserted in the meantime is overwritten
    have hadvance : advance cid sys.shared (.absent result) = _ :=
      if_pos (h.entry entry hlookup).2.1
    refine hnext entry hlookup hwaited (by simp) (fun entry' hentry' => ?_) (by simp [hadvance])
    have hnew : (resumed cid sys id (.absent result)).shared = _ := congrArg Prod.fst hadvance
    rw [hnew, AList.lookup_insert] at hentry'
    rw [← Option.some.inj hentry']
  | started result => exact absurd trivial hnot
  | fetching result => exact absurd trivial hnot
  | sending tx result => exact absurd trivial hnot

/-- **Somebody is forgotten** when an entry goes away, at the limit or by being replaced, while
somebody waits on it: whatever happens later, some receiver has not been sent a result. -/
theorem Run.lost
    (h : Run (callers cid) (· = new config) (fun _ => True) (fun _ _ => True) trace sys)
    (hnot : ¬ Keeps cid sys stage) {schedule : List (Action Reported)}
    {events : List (Event Reported Ended)}
    {sys' : System RequestCoalescer Stage Ended}
    (hlater : acts (callers cid) (fun _ => True) (fun _ _ => True) (resumed cid sys id stage)
      schedule = some (events, sys')) : ∃ r ∈ sys'.shared.receivers, r.inbox = [] := by
  have hfresh : Fresh cid sys := by
    refine h.invariant ?_ (fun sys call hsys _ => hsys.spawn call) fun sys id stage hsys _ _ =>
      hsys.resume
    rintro s rfl
    exact ⟨fun entry hentry => (by cases hentry), fun _ _ hmem => absurd hmem List.not_mem_nil⟩
  obtain ⟨tx, hdead⟩ := hfresh.dead hnot
  have hdead' := acts_invariant (P := Dead cid tx) (fun sys call hsys _ => hsys.spawn call)
    (fun sys id stage hsys hstage _ => hsys.resume hstage) hdead hlater
  obtain ⟨r, hr, -, hinbox⟩ := hdead'.waited
  exact ⟨r, hr, hinbox⟩

end Runs

/-! ### Two runs -/

section Sample

open scoped CidReference

instance (cid : Cid) (sys : System RequestCoalescer Stage Ended) : DecidablePred (Keeps cid sys)
  | .atLimit _ => inferInstanceAs (Decidable (∀ entry ∈ sys.shared.pending.lookup cid, _))
  | .absent _ => inferInstanceAs (Decidable (∀ entry ∈ sys.shared.pending.lookup cid, _))
  | .started _ => inferInstanceAs (Decidable True)
  | .fetching _ => inferInstanceAs (Decidable True)
  | .sending _ _ => inferInstanceAs (Decidable True)

theorem Run.nobodyLost_two :
    let _ := CidReference.byteHash
    let cid : Cid := Cid.ofData Codec.raw .sha256 [0]
    ∃ trace sys, Run (callers cid) (· = new ⟨100, 128⟩) (fun _ => True) (Keeps cid) trace sys ∧
      sys.shared.receivers = [⟨0, [.ok [7]]⟩] ∧ NobodyLost sys := by
  intro _ cid
  have hacts : (acts (callers cid) (fun _ => True) (Keeps cid) ⟨new ⟨100, 128⟩, []⟩
      [.spawn (.ok [7]), .resume 0, .resume 0, .spawn (.ok [8]), .resume 1, .resume 0,
        .resume 0]).map (·.2.shared.receivers) = some [⟨0, [.ok [7]]⟩] := by decide +kernel
  obtain ⟨⟨events, sys⟩, hrun, hreceivers⟩ := Option.map_eq_some_iff.mp hacts
  have hinit : Run (callers cid) (· = new ⟨100, 128⟩) (fun _ => True) (Keeps cid) []
      ⟨new ⟨100, 128⟩, []⟩ := .init rfl
  have hsys := hinit.acts hrun
  exact ⟨_, sys, hsys, hreceivers, Run.nobodyLost hsys⟩

/-- The third caller removes the entry that the second one waits on, and then the fetch of the first
one ends and a fourth one comes. -/
theorem Run.lost_three :
    let _ := CidReference.byteHash
    let cid : Cid := Cid.ofData Codec.raw .sha256 [0]
    ∃ events sys events' sys',
      acts (callers cid) (fun _ => True) (fun _ _ => True) ⟨new ⟨3, 128⟩, []⟩
        [.spawn (.ok [7]), .resume 0, .resume 0, .spawn (.ok [7]), .resume 1, .spawn (.ok [7]),
          .resume 2] = some (events, sys) ∧
      acts (callers cid) (fun _ => True) (fun _ _ => True)
        (resumed cid sys 2 (.atLimit (.ok [7]))) [.resume 0, .spawn (.ok [9]), .resume 3, .resume 3]
          = some (events', sys') ∧
      ∃ r ∈ sys'.shared.receivers, r.inbox = [] := by
  intro _ cid
  have hacts : ((acts (callers cid) (fun _ => True) (fun _ _ => True) ⟨new ⟨3, 128⟩, []⟩
      [.spawn (.ok [7]), .resume 0, .resume 0, .spawn (.ok [7]), .resume 1, .spawn (.ok [7]),
        .resume 2]).bind fun r => (acts (callers cid) (fun _ => True) (fun _ _ => True)
          (resumed cid r.2 2 (.atLimit (.ok [7])))
          [.resume 0, .spawn (.ok [9]), .resume 3, .resume 3]).map
            fun _ => decide (Keeps cid r.2 (.atLimit (.ok [7])))) = some false := by
    decide +kernel
  obtain ⟨⟨events, sys⟩, hrun, hacts⟩ := Option.bind_eq_some_iff.mp hacts
  obtain ⟨⟨events', sys'⟩, hlater, hnot⟩ := Option.map_eq_some_iff.mp hacts
  have hinit : Run (callers cid) (· = new ⟨3, 128⟩) (fun _ => True) (fun _ _ => True) []
      ⟨new ⟨3, 128⟩, []⟩ := .init rfl
  exact ⟨events, sys, events', sys', hrun, hlater,
    Run.lost (hinit.acts hrun) (of_decide_eq_false hnot) hlater⟩

/-- Three callers at a limit of three: the second one waits, and the third one removes the entry. -/
theorem not_forall_nobodyLost :
    let _ := CidReference.byteHash
    ¬ ∀ (cid : Cid) (config : CoalescerConfig) (trace : List (Event Reported Ended))
      (sys : System RequestCoalescer Stage Ended),
      Run (callers cid) (· = new config) (fun _ => True) (fun _ _ => True) trace sys →
        NobodyLost sys := by
  intro _ h
  have hacts : (acts (callers (Cid.ofData Codec.raw .sha256 [0])) (fun _ => True) (fun _ _ => True)
      ⟨new ⟨3, 128⟩, []⟩
      [.spawn (.ok [7]), .resume 0, .resume 0, .spawn (.ok [7]), .resume 1, .spawn (.ok [7]),
        .resume 2, .resume 2, .resume 0, .resume 2]).map
        (fun r => (r.2.shared.receivers, r.2.tasks)) =
      some ([⟨0, []⟩], [.inr .reported, .inr (.waiting 0), .inr .reported]) := by decide +kernel
  obtain ⟨⟨events, sys⟩, hrun, hout⟩ := Option.map_eq_some_iff.mp hacts
  obtain ⟨hreceivers, htasks⟩ := Prod.mk.inj hout
  dsimp only at hreceivers htasks
  have hinit : Run (callers (Cid.ofData Codec.raw .sha256 [0])) (· = new ⟨3, 128⟩) (fun _ => True)
      (fun _ _ => True) [] ⟨new ⟨3, 128⟩, []⟩ := .init rfl
  have hlost := h _ _ _ sys (hinit.acts hrun)
  refine hlost ?_ ⟨0, []⟩ ?_ rfl
  · intro stage hmem
    rw [htasks] at hmem
    simp at hmem
  · rw [hreceivers]
    exact List.mem_singleton_self _

end Sample

end RequestCoalescer

end Ipfrs.Transport
