import Ipfrs.Network.StreamDelivery

/-!
# The limit on streams

`max_streams` of the multiplexer (`ipfrs-network/src/stream_multiplexer.rs`), which is documented as
the number of streams that may be open at one time. `open_stream` compares it with the number of
streams in the table. A stream that has ended, in whatever way, stays in the table.

* `Op`, `run` — one multiplexer, with a peer that may send anything;
* `Kept` — no operation takes a stream out of the table;
* `openStream_limit_iff` — the limit counts the open streams until a full table has one that ended;
* `not_openStream_of_full` — once the table is full, no stream is opened any more.
-/

namespace Ipfrs

def priorityFromU8 (p : UInt8) : StreamPriority :=
  if p = 0 then .background
  else if p ≤ 63 then .low
  else if p ≤ 127 then .normal
  else if p ≤ 191 then .high
  else .critical

/-- The stream is closed or reset. -/
def LogicalStream.ended (stream : LogicalStream) : Bool :=
  stream.state = .closed || stream.state = .reset

namespace StreamMultiplexer

/-- `StreamMultiplexer::open_stream_with_priority`. Only statistics read the byte itself. -/
def openStreamWithPriority (m : StreamMultiplexer) (priorityRaw : UInt8) :
    StreamMultiplexer × Except MuxError StreamId :=
  m.openStream (priorityFromU8 priorityRaw)

/-- What can be asked of a multiplexer. -/
inductive Op where
  | openStream (priority : StreamPriority)
  | openStreamWithPriority (priorityRaw : UInt8)
  | send (streamId : StreamId) (data : Bytes) (now : ℕ)
  | closeStream (streamId : StreamId)
  | resetStream (streamId : StreamId)
  | receiveEvents (frame : StreamFrame) (now : ℕ)
  | drainRecvBuffer (streamId : StreamId)
  | updateWindow (streamId : StreamId) (increment : UInt32)
  | expireIdle (now : ℕ)
  | dequeueFrame
  deriving DecidableEq, Repr

/-- One operation, successful or not. -/
def after (m : StreamMultiplexer) : Op → StreamMultiplexer
  | .openStream priority => (m.openStream priority).1
  | .openStreamWithPriority priorityRaw => (m.openStreamWithPriority priorityRaw).1
  | .send streamId data now => (m.send streamId data now).1
  | .closeStream streamId => (m.closeStream streamId).1
  | .resetStream streamId => (m.resetStream streamId).1
  | .receiveEvents frame now => (m.receiveEvents frame now).1
  | .drainRecvBuffer streamId => (m.drainRecvBuffer streamId).1
  | .updateWindow streamId increment => (m.updateWindow streamId increment).1
  | .expireIdle now => (m.expireIdle now).1
  | .dequeueFrame => m.dequeueFrame.1

/-- A run from a new multiplexer. -/
def run (config : MultiplexerConfig) (ops : List Op) : StreamMultiplexer :=
  ops.foldl after (new config)

/-- The number of streams that have not ended. -/
def openStreams (m : StreamMultiplexer) : ℕ := m.streams.entries.countP fun e => !e.2.ended

variable {config : MultiplexerConfig} {m m' m'' : StreamMultiplexer}

/-! ### The table -/

/-- The streams are still in the table, which has not grown beyond the limit. -/
structure Kept (m m' : StreamMultiplexer) : Prop where
  config : m'.config = m.config
  subset : ∀ id ∈ m.streams, id ∈ m'.streams
  length_le : m.streams.entries.length ≤ m.config.maxStreams →
    m'.streams.entries.length ≤ m.config.maxStreams

theorem Kept.refl (m : StreamMultiplexer) : Kept m m := ⟨rfl, fun _ h => h, fun h => h⟩

theorem Kept.trans (h : Kept m m') (h' : Kept m' m'') : Kept m m'' where
  config := h'.config.trans h.config
  subset id hid := h'.subset id (h.subset id hid)
  length_le hle := by
    have hle' := h'.length_le
    rw [h.config] at hle'
    exact hle' (h.length_le hle)

theorem Kept.of_sameIds (h : System.SameIds m m') : Kept m m' where
  config := h.config
  subset id hid := h.keys.mem_iff.mpr hid
  length_le hle := by
    rw [← AssocMap.length_keys, h.keys.length_eq, AssocMap.length_keys]
    exact hle

theorem Kept.insert (hconfig : m'.config = m.config) {id : StreamId} {stream : LogicalStream}
    (hstreams : m'.streams = m.streams.insert id stream)
    (hroom : m.streams.entries.length < m.config.maxStreams) : Kept m m' where
  config := hconfig
  subset x hx := by
    rw [hstreams, AList.mem_insert]
    exact .inr hx
  length_le _ := by
    have hle : (m.streams.erase id).entries.length ≤ m.streams.entries.length :=
      (List.kerase_sublist id m.streams.entries).length_le
    rw [hstreams, AssocMap.length_insert]
    omega

theorem Kept.update (hconfig : m'.config = m.config) {id : StreamId}
    {stream stream' : LogicalStream} (hlookup : m.streams.lookup id = some stream)
    (hstreams : m'.streams = m.streams.insert id stream') : Kept m m' where
  config := hconfig
  subset x hx := by
    rw [hstreams, AList.mem_insert]
    exact .inr hx
  length_le hle := by
    rw [hstreams, AssocMap.length_insert, ← AssocMap.length_erase hlookup]
    exact hle

theorem kept_openStream (m : StreamMultiplexer) (priority : StreamPriority) :
    Kept m (m.openStream priority).1 := by
  rw [openStream]
  split
  · exact .refl _
  · next hroom => exact .insert rfl rfl (Nat.not_le.mp hroom)

theorem kept_receiveEvents (m : StreamMultiplexer) (frame : StreamFrame) (now : ℕ) :
    Kept m (m.receiveEvents frame now).1 := by
  rw [receiveEvents]
  dsimp only
  split
  · split
    · exact .refl _
    split
    · exact .refl _
    · next hroom => exact .insert rfl rfl (Nat.not_le.mp hroom)
  · split
    · exact .refl _
    next stream hlookup =>
    -- the peer has a stream that is there
    repeat' split
    all_goals first | exact .refl _ | exact .update rfl hlookup rfl

/-- A sender for one multiplexer: the other end does not matter. -/
def alone (m : StreamMultiplexer) : System := { System.init m.config m.config with a := m }

/-- **No operation** takes a stream out of the table. -/
theorem kept_after (m : StreamMultiplexer) (op : Op) : Kept m (m.after op) := by
  cases op with
  | openStream priority => exact kept_openStream m priority
  | openStreamWithPriority priorityRaw => exact kept_openStream m _
  | receiveEvents frame now => exact kept_receiveEvents m frame now
  | drainRecvBuffer streamId =>
    rw [after, drainRecvBuffer]
    split
    · exact .refl _
    · next hlookup => exact .update rfl hlookup rfl
  | updateWindow streamId increment =>
    rw [after, updateWindow]
    split
    · exact .refl _
    · next hlookup => exact .update rfl hlookup rfl
  | closeStream streamId =>
    exact .of_sameIds (System.sameIds_perform (alone m) (.closeStream streamId) (by simp))
  | resetStream streamId =>
    exact .of_sameIds (System.sameIds_perform (alone m) (.resetStream streamId) (by simp))
  | expireIdle now =>
    exact .of_sameIds (System.sameIds_perform (alone m) (.expireIdle now) (by simp))
  | send streamId data now =>
    have h := System.sameIds_perform (alone m) (.send streamId data now) (by simp)
    rw [System.perform] at h
    rw [after]
    split at h
    · next hsend => exact .of_sameIds (hsend ▸ h)
    · next hsend => exact .of_sameIds (hsend ▸ h)
  | dequeueFrame =>
    have h := System.sameIds_perform (alone m) .dequeueFrame (by simp)
    rw [System.perform] at h
    rw [after]
    split at h
    · next hdequeue => exact .of_sameIds (hdequeue ▸ h)
    · next hdequeue => exact .of_sameIds (hdequeue ▸ h)

theorem kept_foldl (m : StreamMultiplexer) (ops : List Op) : Kept m (ops.foldl after m) := by
  induction ops generalizing m with
  | nil => exact .refl _
  | cons op ops ih => exact (kept_after m op).trans (ih _)

theorem length_run_le (config : MultiplexerConfig) (ops : List Op) :
    (run config ops).config = config ∧
      (run config ops).streams.entries.length ≤ config.maxStreams := by
  have h := kept_foldl (new config) ops
  exact ⟨h.config, h.length_le (Nat.zero_le _)⟩

/-! ### The limit -/

theorem openStream_eq_error_iff {priority : StreamPriority} :
    (m.openStream priority).2 = .error .maxStreamsReached ↔
      m.config.maxStreams ≤ m.streams.entries.length := by
  rw [openStream]
  split
  · next hfull => exact iff_of_true rfl hfull
  · next hroom => exact iff_of_false (by simp) hroom

/-- All streams of the table are open exactly when none has ended. -/
theorem openStreams_eq_length_iff :
    m.openStreams = m.streams.entries.length ↔ ∀ e ∈ m.streams.entries, e.2.ended = false := by
  simp [openStreams, List.countP_eq_length]

theorem openStreams_le (m : StreamMultiplexer) : m.openStreams ≤ m.streams.entries.length :=
  List.countP_le_length

/-- **The limit**, in every state that can be reached. It counts the open streams as long as the
table is not full, or no stream in it has ended. -/
theorem openStream_limit_iff (config : MultiplexerConfig) (ops : List Op)
    (priority : StreamPriority) :
    (((run config ops).openStream priority).2 = .error .maxStreamsReached ↔
        config.maxStreams ≤ (run config ops).openStreams) ↔
      (run config ops).streams.entries.length < config.maxStreams ∨
        ∀ e ∈ (run config ops).streams.entries, e.2.ended = false := by
  obtain ⟨hconfig, hbound⟩ := length_run_le config ops
  have hopen := (run config ops).openStreams_le
  rw [openStream_eq_error_iff, hconfig, ← openStreams_eq_length_iff]
  omega

theorem openStream_limit_reset :
    ¬ ∀ (config : MultiplexerConfig) (ops : List Op) (priority : StreamPriority),
      ((run config ops).openStream priority).2 = .error .maxStreamsReached ↔
        config.maxStreams ≤ (run config ops).openStreams := by
  intro hall
  have hone := (hall ⟨1, 65536, 16384, true, 256, 30000000⟩ [.openStream .normal, .resetStream 1]
    .normal).mp (by decide +kernel)
  exact absurd hone (by decide +kernel)

/-- **A full table** stays full, whatever happens to its streams. -/
theorem not_openStream_of_full {ops ops' : List Op}
    (hfull : (run config ops).streams.entries.length = config.maxStreams)
    (priority : StreamPriority) :
    ((run config (ops ++ ops')).openStream priority).2 = .error .maxStreamsReached := by
  have hkept : Kept (run config ops) (run config (ops ++ ops')) := by
    rw [run, run, List.foldl_append]
    exact kept_foldl _ ops'
  -- the identifiers of the full table are all there
  have hsub : (run config ops).streams.keys.Subperm (run config (ops ++ ops')).streams.keys :=
    List.subperm_of_subset (run config ops).streams.nodupKeys fun id hid => hkept.subset id hid
  have hle := hsub.length_le
  rw [AssocMap.length_keys, AssocMap.length_keys, hfull] at hle
  rw [openStream_eq_error_iff, (length_run_le config (ops ++ ops')).1]
  exact hle

theorem not_openStream_of_full_one :
    ((run ⟨1, 9, 9, true, 9, 9⟩ ([.openStream .normal] ++
      [.updateWindow 1 5, .resetStream 1, .drainRecvBuffer 1, .expireIdle 99])).openStream
        .normal).2 = .error .maxStreamsReached :=
  not_openStream_of_full (by decide +kernel) .normal

end StreamMultiplexer

end Ipfrs
