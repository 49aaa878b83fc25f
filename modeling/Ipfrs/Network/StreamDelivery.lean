import Ipfrs.Network.StreamMultiplexer

/-!
# Delivery in order over a multiplexed connection

What two multiplexers do to the bytes of a stream, whatever else goes over the connection, in every
order of steps. For every stream, the frames that `b` has still to receive are those on the way and
then those in the queue of `a`, in the order of their sequence numbers, with resets at the end.

`b` keeps up with `a` as long as `a` does not give an identifier to a stream while it has another
one under it. It does so after 2^32 streams, where the identifiers start again.

* `Linked` — one stream, at both ends and between them;
* `Inv` — the invariant, with the queue of `a` as one queue for each stream;
* `Inv.perform` — every step keeps it, and `b` answers without an error;
* `delivers` — the bytes arrive in order, in every run;
* `not_reusesId_of_maxStreams_le` — no identifier comes again when there are 2^32 streams at most.
-/

namespace Ipfrs

namespace StreamMultiplexer

namespace System

variable {config : MultiplexerConfig} {sys : System} {rest : StreamId → List PrioritizedFrame}
  {id : StreamId} {s s' : LogicalStream} {t : Option LogicalStream} {frame : StreamFrame}
  {fs gs rs wire : List StreamFrame} {n : ℕ} {accepted drained : Bytes} {credits window : ℕ}

/-! ### One stream -/

/-- A frame other than a reset: the first one opens the stream, and the others carry data or close
it. -/
def Regular (frame : StreamFrame) : Prop :=
  (frame.sequence = 0 ∧ frame.flags = flagSyn ∧ frame.data = []) ∨
    0 < frame.sequence ∧ (frame.flags = flagFin ∧ frame.data = [] ∨ frame.flags = 0)

/-- Frames with the sequence numbers from `n` on. -/
def Numbered : ℕ → List StreamFrame → Prop
  | _, [] => True
  | n, frame :: fs => frame.sequence = n ∧ Regular frame ∧ Numbered (n + 1) fs

theorem Numbered.append (h : Numbered n fs) (hsequence : frame.sequence = n + fs.length)
    (hregular : Regular frame) : Numbered n (fs ++ [frame]) := by
  induction fs generalizing n with
  | nil => exact ⟨hsequence, hregular, trivial⟩
  | cons f fs ih =>
    refine ⟨h.1, h.2.1, ih h.2.2 ?_⟩
    rw [hsequence, List.length_cons]
    omega

/-- The sequence number that `b` waits for. It waits for 0 where it has no stream. -/
def recvSeqOf : Option LogicalStream → ℕ
  | none => 0
  | some t => t.recvSeq

/-- The bytes in frames. -/
def payload (fs : List StreamFrame) : Bytes := (fs.map StreamFrame.data).flatten

theorem payload_cons (frame : StreamFrame) (fs : List StreamFrame) :
    payload (frame :: fs) = frame.data ++ payload fs := by
  rw [payload, List.map_cons, List.flatten_cons]
  rfl

theorem payload_append (fs : List StreamFrame) (frame : StreamFrame) :
    payload (fs ++ [frame]) = payload fs ++ frame.data := by
  rw [payload, List.map_append, List.flatten_append, List.map_singleton, List.flatten_singleton]
  rfl

/-- The frames between the ends of a stream, when the next one has the sequence number `n`: they are
numbered, and then there are resets, after which nothing more is sent. -/
structure Flow (s : LogicalStream) (n : ℕ) (gs rs : List StreamFrame) : Prop where
  numbered : Numbered n gs
  resets : ∀ r ∈ rs, r.flags = flagRst ∧ r.data = []
  opened : 0 < n + gs.length
  next : s.state ≠ .reset → rs = [] ∧ s.sendSeq = n + gs.length

/-- **One stream** `s` of `a`, with what `b` has of it and the frames between them. -/
structure Linked (window : ℕ) (s : LogicalStream) (t : Option LogicalStream)
    (fs : List StreamFrame) (accepted drained : Bytes) (credits : ℕ) : Prop where
  flow : ∃ gs rs, fs = gs ++ rs ∧ Flow s (recvSeqOf t) gs rs
  opened : ∀ t', t = some t' → 0 < t'.recvSeq
  bytes : accepted = drained ++ bufferedOf t ++ payload fs
  window_le : accepted.length + s.sendWindow ≤ window + credits
  window_lt : s.sendWindow < 2 ^ 32

/-- What `b` has of a stream is there once it waits for another frame than the first. -/
theorem Linked.exists_of_pos (hpos : 0 < recvSeqOf t) : ∃ t', t = some t' := by
  cases t with
  | none => exact absurd hpos (lt_irrefl 0)
  | some t' => exact ⟨t', rfl⟩

theorem linked_open (hsyn : frame.sequence = 0 ∧ frame.flags = flagSyn ∧ frame.data = [])
    (hseq : s.sendSeq = 1) (hwindow : s.sendWindow = window) (hlt : window < 2 ^ 32) :
    Linked window s none [frame] [] [] credits where
  flow := ⟨[frame], [], rfl, ⟨hsyn.1, .inl hsyn, trivial⟩, fun _ h => absurd h List.not_mem_nil,
    Nat.zero_lt_one, fun _ => ⟨rfl, hseq⟩⟩
  opened := fun _ h => by cases h
  bytes := by
    rw [payload_cons, hsyn.2.2]
    rfl
  window_le := by
    rw [hwindow, List.length_nil, Nat.zero_add]
    exact Nat.le_add_right ..
  window_lt := by
    rw [hwindow]
    exact hlt

/-- `a` sends one more frame on a stream, which it has not reset. -/
theorem Linked.append (h : Linked window s t fs accepted drained credits)
    (hstate : s.state ≠ .reset) (hsequence : frame.sequence = s.sendSeq)
    (hframe : frame.flags = flagFin ∧ frame.data = [] ∨ frame.flags = 0)
    (hseq : s'.sendSeq = s.sendSeq + 1)
    (hwindow : frame.data.length + s'.sendWindow = s.sendWindow) :
    Linked window s' t (fs ++ [frame]) (accepted ++ frame.data) drained credits := by
  obtain ⟨gs, rs, rfl, hflow⟩ := h.flow
  -- no reset is on the way, so the frame goes on with the numbers
  obtain ⟨rfl, hnext⟩ := hflow.next hstate
  have hpos : 0 < frame.sequence := by
    rw [hsequence, hnext]
    exact hflow.opened
  rw [List.append_nil] at *
  constructor
  case flow =>
    refine ⟨gs ++ [frame], [], (List.append_nil _).symm, ?_, ?_, ?_, fun _ => ⟨rfl, ?_⟩⟩
    · exact hflow.numbered.append (hsequence.trans hnext) (.inr ⟨hpos, hframe⟩)
    · exact fun _ h => absurd h List.not_mem_nil
    · rw [List.length_append]
      exact Nat.lt_of_lt_of_le hflow.opened (by omega)
    · rw [hseq, hnext, List.length_append, List.length_singleton, Nat.add_assoc]
  case opened => exact h.opened
  case bytes =>
    -- what is accepted is in the frame
    rw [payload_append, h.bytes, List.append_assoc]
  case window_le =>
    have hle := h.window_le
    rw [List.length_append]
    omega
  case window_lt =>
    have hlt := h.window_lt
    omega

theorem Linked.reset (h : Linked window s t fs accepted drained credits)
    (hframe : frame.flags = flagRst ∧ frame.data = []) (hstate : s'.state = .reset)
    (hwindow : s'.sendWindow = s.sendWindow) :
    Linked window s' t (fs ++ [frame]) accepted drained credits := by
  obtain ⟨gs, rs, rfl, hflow⟩ := h.flow
  constructor
  case flow =>
    -- the reset goes behind the numbered frames, and its own number does not matter
    refine ⟨gs, rs ++ [frame], List.append_assoc .., hflow.numbered, ?_, hflow.opened,
      fun hne => absurd hstate hne⟩
    intro r hr
    obtain hr | hr := List.mem_append.mp hr
    · exact hflow.resets r hr
    · rw [List.mem_singleton.mp hr]
      exact hframe
  case opened => exact h.opened
  case bytes =>
    rw [h.bytes, payload_append, hframe.2, List.append_nil]
  case window_le =>
    rw [hwindow]
    exact h.window_le
  case window_lt =>
    rw [hwindow]
    exact h.window_lt

theorem Linked.update (h : Linked window s t fs accepted drained credits) {credits' : ℕ}
    (hstate : s'.state ≠ .reset → s.state ≠ .reset) (hseq : s'.sendSeq = s.sendSeq)
    (hwindow : s'.sendWindow + credits ≤ s.sendWindow + credits') (hlt : s'.sendWindow < 2 ^ 32) :
    Linked window s' t fs accepted drained credits' := by
  obtain ⟨gs, rs, rfl, hflow⟩ := h.flow
  constructor
  case flow =>
    exact ⟨gs, rs, rfl, hflow.numbered, hflow.resets, hflow.opened,
      fun hne => ⟨(hflow.next (hstate hne)).1, hseq.trans (hflow.next (hstate hne)).2⟩⟩
  case opened => exact h.opened
  case bytes => exact h.bytes
  case window_le =>
    have hle := h.window_le
    omega
  case window_lt => exact hlt

theorem Linked.drain {t : LogicalStream}
    (h : Linked window s (some t) fs accepted drained credits) :
    Linked window s (some { t with recvBuffer := [] }) fs accepted
      (drained ++ t.recvBuffer.flatten) credits where
  flow := h.flow
  opened := by
    rintro t' ht
    obtain rfl := Option.some.inj ht
    exact h.opened t rfl
  bytes := by
    rw [h.bytes]
    exact congrArg (· ++ payload fs) (List.append_nil _).symm
  window_le := h.window_le
  window_lt := h.window_lt

/-! ### One frame arrives -/

/-- The next frame of a stream: it opens the stream, it has the number that is waited for, or it is
a reset. -/
theorem Linked.head (h : Linked window s t (frame :: fs) accepted drained credits) :
    (t = none ∧ (frame.flags = flagSyn ∧ frame.data = []) ∧
        ∃ gs rs, fs = gs ++ rs ∧ Flow s 1 gs rs) ∨
      (∃ t', t = some t' ∧ frame.sequence = t'.recvSeq ∧
        (frame.flags = flagFin ∧ frame.data = [] ∨ frame.flags = 0) ∧
        ∃ gs rs, fs = gs ++ rs ∧ Flow s (t'.recvSeq + 1) gs rs) ∨
      ∃ t', t = some t' ∧ (frame.flags = flagRst ∧ frame.data = []) ∧
        ∃ gs rs, fs = gs ++ rs ∧ Flow s t'.recvSeq gs rs := by
  obtain ⟨gs, rs, hsplit, hflow⟩ := h.flow
  -- the numbered frames come first, and the resets after them
  cases gs with
  | cons g gs =>
    obtain ⟨rfl, rfl⟩ := List.cons.inj hsplit
    obtain ⟨hsequence, hregular, hnumbered⟩ := hflow.numbered
    have hrest : Flow s (recvSeqOf t + 1) gs rs := by
      refine ⟨hnumbered, hflow.resets, by omega, fun hstate => ⟨(hflow.next hstate).1, ?_⟩⟩
      rw [(hflow.next hstate).2, List.length_cons]
      omega
    obtain ⟨hzero, hsyn⟩ | ⟨hpos, hframe⟩ := hregular
    · -- the number 0 is waited for where there is no stream
      have ht : t = none := by
        cases t with
        | none => rfl
        | some t' =>
          have hopened := h.opened t' rfl
          have hseq : frame.sequence = t'.recvSeq := hsequence
          omega
      subst ht
      exact .inl ⟨rfl, hsyn, gs, rs, rfl, hrest⟩
    · obtain ⟨t', rfl⟩ := Linked.exists_of_pos (hsequence ▸ hpos)
      exact .inr (.inl ⟨t', rfl, hsequence, hframe, gs, rs, rfl, hrest⟩)
  | nil =>
    -- only resets are left, of a stream that `b` has
    cases rs with
    | nil => cases hsplit
    | cons r rs =>
      obtain ⟨rfl, rfl⟩ := List.cons.inj hsplit
      obtain ⟨t', rfl⟩ := Linked.exists_of_pos hflow.opened
      refine .inr (.inr ⟨t', rfl, hflow.resets frame List.mem_cons_self, [], fs, rfl, ?_⟩)
      refine ⟨trivial, fun r hr => hflow.resets r (.tail _ hr), hflow.opened, fun hstate => ?_⟩
      exact absurd (hflow.next hstate).1 (List.cons_ne_nil _ _)

section Receive

variable {b : StreamMultiplexer} {now : ℕ} {stream : LogicalStream}

theorem receive_syn (hflags : frame.flags = flagSyn)
    (hnone : b.streams.lookup frame.streamId = none)
    (hroom : b.streams.entries.length < b.config.maxStreams) :
    b.receiveEvents frame now =
      ({ b with streams := b.streams.insert frame.streamId (b.receivedStream now) },
        .ok [.streamOpened frame.streamId]) := by
  have hsyn : frame.isSyn = true := by
    rw [StreamFrame.isSyn, hflags]
    decide
  rw [receiveEvents, if_pos hsyn, if_neg (AList.lookup_eq_none.mp hnone),
    if_neg (Nat.not_le_of_lt hroom)]

theorem receive_rst (hflags : frame.flags = flagRst)
    (hstream : b.streams.lookup frame.streamId = some stream) :
    b.receiveEvents frame now =
      ({ b with
          streams := b.streams.insert frame.streamId
            { stream with state := .reset, lastActivity := now } },
        .ok [.streamReset frame.streamId]) := by
  have hsyn : ¬frame.isSyn = true := by
    rw [StreamFrame.isSyn, hflags]
    decide
  have hrst : frame.isRst = true := by
    rw [StreamFrame.isRst, hflags]
    decide
  rw [receiveEvents, if_neg hsyn, hstream]
  dsimp only
  rw [if_pos hrst]

theorem receive_fin (hflags : frame.flags = flagFin)
    (hstream : b.streams.lookup frame.streamId = some stream)
    (hsequence : frame.sequence = stream.recvSeq) :
    ∃ stream',
      b.receiveEvents frame now =
        ({ b with streams := b.streams.insert frame.streamId stream' },
          .ok [.streamClosed frame.streamId]) ∧
      stream'.recvSeq = stream.recvSeq + 1 ∧ stream'.recvBuffer = stream.recvBuffer := by
  have hsyn : ¬frame.isSyn = true := by
    rw [StreamFrame.isSyn, hflags]
    decide
  have hrst : ¬frame.isRst = true := by
    rw [StreamFrame.isRst, hflags]
    decide
  have hfin : frame.isFin = true := by
    rw [StreamFrame.isFin, hflags]
    decide
  rw [receiveEvents, if_neg hsyn, hstream]
  dsimp only
  rw [if_neg hrst, if_neg (not_not_intro hsequence), if_pos hfin]
  exact ⟨_, rfl, rfl, rfl⟩

/-- A frame with the expected number that carries data, where it is not dropped. -/
theorem receive_data (hflags : frame.flags = 0)
    (hstream : b.streams.lookup frame.streamId = some stream)
    (hsequence : frame.sequence = stream.recvSeq)
    (hfull : ∀ events, (b.receiveEvents frame now).2 = .ok events →
      ∀ id, MuxEvent.sendBufferFull id ∉ events) :
    ∃ stream',
      b.receiveEvents frame now =
        ({ b with streams := b.streams.insert frame.streamId stream' },
          .ok [.frameReceived frame.streamId]) ∧
      stream'.recvSeq = stream.recvSeq + 1 ∧
      stream'.recvBuffer.flatten = stream.recvBuffer.flatten ++ frame.data := by
  have hsyn : ¬frame.isSyn = true := by
    rw [StreamFrame.isSyn, hflags]
    decide
  have hrst : ¬frame.isRst = true := by
    rw [StreamFrame.isRst, hflags]
    decide
  have hfin : ¬frame.isFin = true := by
    rw [StreamFrame.isFin, hflags]
    decide
  rw [receiveEvents, if_neg hsyn, hstream] at *
  dsimp only at *
  rw [if_neg hrst, if_neg (not_not_intro hsequence), if_neg hfin] at *
  by_cases hdata : frame.data = []
  · rw [if_neg (not_not_intro hdata), hdata]
    exact ⟨_, rfl, rfl, (List.append_nil _).symm⟩
  · rw [if_pos hdata] at *
    by_cases hbuffer : stream.recvBuffer.length ≥ stream.recvBufferMax
    · -- the frame would be dropped
      rw [if_pos hbuffer] at hfull
      exact absurd List.mem_cons_self (hfull _ rfl frame.streamId)
    · rw [if_neg hbuffer]
      refine ⟨_, rfl, rfl, ?_⟩
      rw [List.flatten_append, List.flatten_singleton]

theorem receive_next (hframe : frame.flags = flagFin ∧ frame.data = [] ∨ frame.flags = 0)
    (hstream : b.streams.lookup frame.streamId = some stream)
    (hsequence : frame.sequence = stream.recvSeq)
    (hfull : ∀ events, (b.receiveEvents frame now).2 = .ok events →
      ∀ id, MuxEvent.sendBufferFull id ∉ events) :
    ∃ stream' events,
      b.receiveEvents frame now =
        ({ b with streams := b.streams.insert frame.streamId stream' }, .ok events) ∧
      stream'.recvSeq = stream.recvSeq + 1 ∧
      stream'.recvBuffer.flatten = stream.recvBuffer.flatten ++ frame.data := by
  obtain ⟨hflags, hdata⟩ | hflags := hframe
  · obtain ⟨stream', heq, hseq, hbuffer⟩ := receive_fin hflags hstream hsequence
    refine ⟨stream', _, heq, hseq, ?_⟩
    rw [hbuffer, hdata, List.append_nil]
  · obtain ⟨stream', heq, hseq, hbuffer⟩ := receive_data hflags hstream hsequence hfull
    exact ⟨stream', _, heq, hseq, hbuffer⟩

/-- **The next frame of a stream is received without an error.** -/
theorem Linked.receive
    (h : Linked window s (b.streams.lookup frame.streamId) (frame :: fs) accepted drained credits)
    (hroom : frame.streamId ∉ b.streams → b.streams.entries.length < b.config.maxStreams)
    (hfull : ∀ events, (b.receiveEvents frame now).2 = .ok events →
      ∀ id, MuxEvent.sendBufferFull id ∉ events) :
    ∃ stream' events,
      b.receiveEvents frame now =
        ({ b with streams := b.streams.insert frame.streamId stream' }, .ok events) ∧
      Linked window s (some stream') fs accepted drained credits := by
  have hbytes := h.bytes
  rw [payload_cons] at hbytes
  obtain ⟨hnone, hsyn, hflow⟩ | ⟨stream, hstream, hsequence, hframe, hflow⟩ |
    ⟨stream, hstream, hrst, hflow⟩ := h.head
  · -- the frame opens the stream, which starts with an empty buffer
    refine ⟨_, _, receive_syn hsyn.1 hnone (hroom (AList.lookup_eq_none.mp hnone)), hflow, ?_, ?_,
      h.window_le, h.window_lt⟩
    · rintro t' ht
      obtain rfl := Option.some.inj ht
      exact Nat.zero_lt_one
    · rw [hbytes, hnone, hsyn.2]
      rfl
  · -- the bytes of the frame go from the frames in between to the buffer
    obtain ⟨stream', events, heq, hseq, hbuffer⟩ := receive_next hframe hstream hsequence hfull
    refine ⟨stream', events, heq, ?_, ?_, ?_, h.window_le, h.window_lt⟩
    · show ∃ gs rs, fs = gs ++ rs ∧ Flow s stream'.recvSeq gs rs
      rw [hseq]
      exact hflow
    · rintro t' ht
      obtain rfl := Option.some.inj ht
      rw [hseq]
      exact Nat.succ_pos _
    · rw [hbytes, hstream]
      show drained ++ stream.recvBuffer.flatten ++ (frame.data ++ payload fs) =
        drained ++ stream'.recvBuffer.flatten ++ payload fs
      rw [hbuffer, ← List.append_assoc, ← List.append_assoc, List.append_assoc drained]
  · -- a reset leaves the buffer and the number as they are
    refine ⟨_, _, receive_rst hrst.1 hstream, hflow, ?_, ?_, h.window_le, h.window_lt⟩
    · rintro t' ht
      obtain rfl := Option.some.inj ht
      exact h.opened stream hstream
    · rw [hbytes, hstream, hrst.2]
      rfl

end Receive

/-! ### All streams -/

/-- The frames of a stream that `b` has still to receive: those on the way, and then those in the
queue. -/
def inFlight (wire : List StreamFrame) (rest : StreamId → List PrioritizedFrame) (id : StreamId) :
    List StreamFrame :=
  (wire.filter fun frame => frame.streamId = id) ++ (rest id).map PrioritizedFrame.frame

/-- The queue of `a`, as one queue for each stream. -/
def Sorted (m : StreamMultiplexer) (rest : StreamId → List PrioritizedFrame) : Prop :=
  PriorityFifo.Queued (fun pf : PrioritizedFrame => pf.frame.streamId)
    PrioritizedFrame.priorityWeight PrioritizedFrame.sequence m.sendQueue rest m.enqueueSeq

/-- **The invariant.** -/
structure Inv (config : MultiplexerConfig) (sys : System)
    (rest : StreamId → List PrioritizedFrame) : Prop where
  config_eq : sys.a.config = config
  maxStreams_le : sys.a.config.maxStreams ≤ sys.b.config.maxStreams
  room : sys.a.streams.entries.length ≤ sys.a.config.maxStreams
  sorted : Sorted sys.a rest
  weight : ∀ id s, sys.a.streams.lookup id = some s → ∀ pf ∈ rest id,
    pf.priorityWeight = sys.a.weightOf s.priority
  absent : ∀ id, sys.a.streams.lookup id = none →
    sys.b.streams.lookup id = none ∧ inFlight sys.wire rest id = [] ∧
      sys.accepted id = [] ∧ sys.drained id = []
  linked : ∀ id s, sys.a.streams.lookup id = some s →
    Linked config.defaultWindowSize.toNat s (sys.b.streams.lookup id)
      (inFlight sys.wire rest id) (sys.accepted id) (sys.drained id) (sys.credits id)

theorem inv_init {configA configB : MultiplexerConfig}
    (hmax : configA.maxStreams ≤ configB.maxStreams) :
    Inv configA (init configA configB) fun _ => [] where
  config_eq := rfl
  maxStreams_le := hmax
  room := Nat.zero_le _
  sorted := PriorityFifo.Queued.empty
  weight := fun _ _ h => by cases h
  absent := fun _ _ => ⟨rfl, rfl, rfl, rfl⟩
  linked := fun _ _ h => by cases h

theorem inFlight_update (wire : List StreamFrame) (rest : StreamId → List PrioritizedFrame)
    (pf : PrioritizedFrame) :
    inFlight wire (Function.update rest id (rest id ++ [pf])) id =
      inFlight wire rest id ++ [pf.frame] := by
  rw [inFlight, inFlight, Function.update_self, List.map_append, List.map_singleton,
    List.append_assoc]

theorem inFlight_update_of_ne {id' : StreamId} (hne : id' ≠ id) (tail : List PrioritizedFrame) :
    inFlight wire (Function.update rest id tail) id' = inFlight wire rest id' := by
  rw [inFlight, inFlight, Function.update_of_ne hne]

/-- **`a` sets a stream and enqueues a frame for it.** -/
theorem Inv.enqueue (h : Inv config sys rest) (next : StreamId) (s : LogicalStream)
    (frame : StreamFrame) (accepted : Bytes) (hid : frame.streamId = id)
    (hroom : (sys.a.streams.insert id s).entries.length ≤ sys.a.config.maxStreams)
    (hweight : ∀ pf ∈ rest id, pf.priorityWeight = sys.a.weightOf s.priority)
    (hlinked : Linked config.defaultWindowSize.toNat s (sys.b.streams.lookup id)
      (inFlight sys.wire rest id ++ [frame]) accepted (sys.drained id) (sys.credits id)) :
    ∃ rest', Inv config
      { sys with
          a := StreamMultiplexer.enqueue
            { sys.a with nextStreamId := next, streams := sys.a.streams.insert id s }
            s.priority frame
          accepted := Function.update sys.accepted id accepted } rest' := by
  subst hid
  let pf : PrioritizedFrame := ⟨sys.a.weightOf s.priority, sys.a.enqueueSeq, frame⟩
  refine ⟨Function.update rest frame.streamId (rest frame.streamId ++ [pf]), h.config_eq,
    h.maxStreams_le, hroom, h.sorted.push (x := pf) rfl hweight, ?_, ?_, ?_⟩
  · -- the frames of this stream keep its weight, and the other streams have theirs
    intro id s' hs' pf hpf
    obtain ⟨rfl, rfl⟩ | ⟨hne, hs'⟩ := AssocMap.lookup_insert_eq_some.mp hs'
    · rw [Function.update_self] at hpf
      obtain hpf | hpf := List.mem_append.mp hpf
      · exact hweight pf hpf
      · rw [List.mem_singleton.mp hpf]
        rfl
    · rw [Function.update_of_ne hne] at hpf
      exact h.weight id s' hs' pf hpf
  · -- a stream that is not open is another one
    intro id hnone
    obtain ⟨hne, hnone⟩ := AssocMap.lookup_insert_eq_none_iff.mp hnone
    show _ ∧ _ ∧ Function.update sys.accepted frame.streamId accepted id = [] ∧ _
    rw [inFlight_update_of_ne hne, Function.update_of_ne hne]
    exact h.absent id hnone
  · intro id s' hs'
    show Linked _ s' _ _ (Function.update sys.accepted frame.streamId accepted id) _ _
    obtain ⟨rfl, rfl⟩ | ⟨hne, hs'⟩ := AssocMap.lookup_insert_eq_some.mp hs'
    · rw [inFlight_update sys.wire rest pf, Function.update_self]
      exact hlinked
    · rw [inFlight_update_of_ne hne, Function.update_of_ne hne]
      exact h.linked id s' hs'

theorem Inv.room_insert (h : Inv config sys rest) (hs : sys.a.streams.lookup id = some s)
    (s' : LogicalStream) :
    (sys.a.streams.insert id s').entries.length ≤ sys.a.config.maxStreams := by
  rw [AssocMap.length_insert, ← AssocMap.length_erase hs]
  exact h.room

/-- **A fresh stream is opened.** -/
theorem Inv.openStream (h : Inv config sys rest) {priority : StreamPriority}
    (hfresh : sys.a.streams.entries.length < sys.a.config.maxStreams →
      sys.a.nextStreamId ∉ sys.a.streams) :
    ∃ rest', Inv config (sys.perform (.openStream priority)) rest' := by
  show ∃ rest', Inv config { sys with a := (sys.a.openStream priority).1 } rest'
  rw [StreamMultiplexer.openStream]
  split
  · exact ⟨rest, h⟩
  next hroom =>
  have hlt := Nat.lt_of_not_le hroom
  have hnone := AList.lookup_eq_none.mpr (hfresh hlt)
  -- nothing is known of the identifier anywhere, and nothing is left of it in the queue
  obtain ⟨hb, hflight, haccepted, hdrained⟩ := h.absent _ hnone
  have hrest : rest sys.a.nextStreamId = [] := by
    rw [inFlight] at hflight
    exact List.map_eq_nil_iff.mp (List.append_eq_nil_iff.mp hflight).2
  have hlength : (sys.a.streams.erase sys.a.nextStreamId).entries.length =
      sys.a.streams.entries.length :=
    congrArg (fun m => m.entries.length) (AssocMap.erase_of_lookup_eq_none hnone)
  obtain ⟨rest', hinv⟩ := h.enqueue (sys.a.nextStreamId + 1) (sys.a.openedStream priority)
    ⟨sys.a.nextStreamId, 0, [], flagSyn, 0⟩ (sys.accepted sys.a.nextStreamId) rfl
    (by rw [AssocMap.length_insert, hlength]; exact hlt)
    (by rw [hrest]; exact fun _ hpf => absurd hpf List.not_mem_nil)
    (by
      rw [hflight, hb, hdrained, haccepted]
      exact linked_open ⟨rfl, rfl, rfl⟩ rfl
        (congrArg (fun c => c.defaultWindowSize.toNat) h.config_eq) (UInt32.toNat_lt _))
  rw [Function.update_eq_self] at hinv
  exact ⟨rest', hinv⟩

theorem Inv.closeStream (h : Inv config sys rest) (id : StreamId) :
    ∃ rest', Inv config (sys.perform (.closeStream id)) rest' := by
  show ∃ rest', Inv config { sys with a := (sys.a.closeStream id).1 } rest'
  rw [StreamMultiplexer.closeStream]
  cases hs : sys.a.streams.lookup id with
  | none => exact ⟨rest, h⟩
  | some stream =>
    dsimp only
    split
    · exact ⟨rest, h⟩
    next hstate =>
    obtain ⟨rest', hinv⟩ := h.enqueue sys.a.nextStreamId
      { stream with sendSeq := stream.sendSeq + 1, state := .halfClosed }
      ⟨id, stream.sendSeq, [], flagFin, 0⟩ (sys.accepted id ++ []) rfl (h.room_insert hs _)
      (h.weight id stream hs)
      ((h.linked id stream hs).append (fun hreset => hstate (.inr hreset)) rfl (.inl ⟨rfl, rfl⟩) rfl
        (Nat.zero_add _))
    rw [List.append_nil, Function.update_eq_self] at hinv
    exact ⟨rest', hinv⟩

theorem Inv.resetStream (h : Inv config sys rest) (id : StreamId) :
    ∃ rest', Inv config (sys.perform (.resetStream id)) rest' := by
  show ∃ rest', Inv config { sys with a := (sys.a.resetStream id).1 } rest'
  rw [StreamMultiplexer.resetStream]
  cases hs : sys.a.streams.lookup id with
  | none => exact ⟨rest, h⟩
  | some stream =>
    obtain ⟨rest', hinv⟩ := h.enqueue sys.a.nextStreamId
      { stream with sendSeq := stream.sendSeq + 1, state := .reset }
      ⟨id, stream.sendSeq, [], flagRst, 0⟩ (sys.accepted id) rfl (h.room_insert hs _)
      (h.weight id stream hs) ((h.linked id stream hs).reset ⟨rfl, rfl⟩ rfl rfl)
    rw [Function.update_eq_self] at hinv
    exact ⟨rest', hinv⟩

theorem Inv.sendChunk (h : Inv config sys rest) (hs : sys.a.streams.lookup id = some s)
    (hstate : s.state = .open) (now : ℕ) {chunk : Bytes} (hlength : chunk.length ≤ s.sendWindow) :
    ∃ rest', Inv config
        { sys with
            a := StreamMultiplexer.sendChunk id now sys.a chunk
            accepted := Function.update sys.accepted id (sys.accepted id ++ chunk) } rest' ∧
      ∃ s', (StreamMultiplexer.sendChunk id now sys.a chunk).streams.lookup id = some s' ∧
        s'.state = .open ∧ s'.sendWindow = s.sendWindow - chunk.length := by
  have hlinked := h.linked id s hs
  have hlt := hlinked.window_lt
  -- the window is a 32-bit number, so the length of the chunk is not cut
  have hmod : chunk.length % 2 ^ 32 = chunk.length := Nat.mod_eq_of_lt (by omega)
  rw [StreamMultiplexer.sendChunk, hs]
  dsimp only
  rw [hmod]
  obtain ⟨rest', hinv⟩ := h.enqueue sys.a.nextStreamId
    { s with
        sendSeq := s.sendSeq + 1
        sendWindow := s.sendWindow - chunk.length
        lastActivity := now }
    ⟨id, s.sendSeq, chunk, 0, now⟩ (sys.accepted id ++ chunk) rfl (h.room_insert hs _)
    (h.weight id s hs)
    (hlinked.append (by rw [hstate]; decide) rfl (.inr rfl) rfl (Nat.add_sub_cancel' hlength))
  exact ⟨rest', hinv, _, AList.lookup_insert _, hstate, rfl⟩

theorem Inv.sendChunks (h : Inv config sys rest) (hs : sys.a.streams.lookup id = some s)
    (hstate : s.state = .open) (now : ℕ) (chunks : List Bytes)
    (hlength : chunks.flatten.length ≤ s.sendWindow) :
    ∃ rest', Inv config
      { sys with
          a := chunks.foldl (StreamMultiplexer.sendChunk id now) sys.a
          accepted := Function.update sys.accepted id (sys.accepted id ++ chunks.flatten) }
      rest' := by
  induction chunks generalizing sys rest s with
  | nil =>
    rw [List.flatten_nil, List.append_nil, Function.update_eq_self]
    exact ⟨rest, h⟩
  | cons chunk chunks ih =>
    rw [List.flatten_cons, List.length_append] at hlength
    obtain ⟨rest', hinv, s', hs', hstate', hwindow⟩ :=
      h.sendChunk hs hstate now (Nat.le_trans (Nat.le_add_right ..) hlength)
    -- the first chunk is sent, and the window is smaller by its length
    obtain ⟨rest'', hinv'⟩ := ih hinv hs' hstate' (by omega)
    refine ⟨rest'', ?_⟩
    dsimp only at hinv'
    rw [Function.update_idem, Function.update_self, List.append_assoc] at hinv'
    exact hinv'

theorem Inv.send (h : Inv config sys rest) (id : StreamId) (data : Bytes) (now : ℕ) :
    ∃ rest', Inv config (sys.perform (.send id data now)) rest' := by
  rw [perform, StreamMultiplexer.send]
  cases hs : sys.a.streams.lookup id with
  | none => exact ⟨rest, h⟩
  | some stream =>
    dsimp only
    by_cases hstate : stream.state = .open
    · rw [if_neg (not_not_intro hstate)]
      by_cases hlength : data.length > stream.sendWindow
      · rw [if_pos hlength]
        exact ⟨rest, h⟩
      · rw [if_neg hlength]
        dsimp only
        -- the chunks together are the data, so the window is wide enough for all of them
        have hflatten := ListChunks.flatten_chunks (max sys.a.config.maxFrameSize 1) data
        obtain ⟨rest', hinv⟩ := h.sendChunks hs hstate now
          (ListChunks.chunks (max sys.a.config.maxFrameSize 1) data)
          (by rw [hflatten]; exact Nat.le_of_not_lt hlength)
        rw [hflatten] at hinv
        exact ⟨rest', hinv⟩
    · rw [if_pos hstate]
      exact ⟨rest, h⟩

theorem Inv.updateWindow (h : Inv config sys rest) (id : StreamId) (increment : UInt32) :
    Inv config (sys.perform (.updateWindow id increment)) rest := by
  rw [perform, StreamMultiplexer.updateWindow]
  cases hs : sys.a.streams.lookup id with
  | none => exact h
  | some stream =>
    dsimp only
    refine ⟨h.config_eq, h.maxStreams_le, h.room_insert hs _, h.sorted, ?_, ?_, ?_⟩
    · intro id' s' hs' pf hpf
      obtain ⟨rfl, rfl⟩ | ⟨-, hs'⟩ := AssocMap.lookup_insert_eq_some.mp hs'
      · exact h.weight _ stream hs pf hpf
      · exact h.weight id' s' hs' pf hpf
    · intro id' hnone
      exact h.absent id' (AssocMap.lookup_insert_eq_none_iff.mp hnone).2
    · intro id' s' hs'
      obtain ⟨rfl, rfl⟩ | ⟨hne, hs'⟩ := AssocMap.lookup_insert_eq_some.mp hs'
      · have hlinked := h.linked _ stream hs
        have hlt := hlinked.window_lt
        show Linked _ _ _ _ _ _ (Function.update sys.credits _ _ _)
        rw [Function.update_self]
        -- a window that is cut off at 32 bits gains less than the credit
        refine hlinked.update (fun hstate => hstate) rfl ?_ ?_
        · show min _ _ + _ ≤ _
          omega
        · show min _ _ < _
          omega
      · show Linked _ _ _ _ _ _ (Function.update sys.credits _ _ _)
        rw [Function.update_of_ne hne]
        exact h.linked id' s' hs'

theorem Inv.expireIdle (h : Inv config sys rest) (now : ℕ) :
    Inv config (sys.perform (.expireIdle now)) rest := by
  have hlookup : ∀ id, (sys.a.expireIdle now).1.streams.lookup id =
      (sys.a.streams.lookup id).map fun stream =>
        if idle sys.a.config.idleTimeoutUs now stream then { stream with state := .closed }
        else stream :=
    AssocMap.lookup_mapValues _ sys.a.streams
  refine ⟨h.config_eq, h.maxStreams_le, ?_, h.sorted, ?_, ?_, ?_⟩
  · refine le_trans (le_of_eq ?_) h.room
    exact List.length_map ..
  · intro id s hs pf hpf
    obtain ⟨stream, hstream, rfl⟩ := Option.map_eq_some_iff.mp ((hlookup id).symm.trans hs)
    have hweight := h.weight id stream hstream pf hpf
    split
    · exact hweight
    · exact hweight
  · intro id hnone
    exact h.absent id (Option.map_eq_none_iff.mp ((hlookup id).symm.trans hnone))
  · intro id s hs
    obtain ⟨stream, hstream, rfl⟩ := Option.map_eq_some_iff.mp ((hlookup id).symm.trans hs)
    have hlinked := h.linked id stream hstream
    split
    · next hidle =>
      refine hlinked.update (fun _ hreset => ?_) rfl le_rfl hlinked.window_lt
      -- a stream that has been reset does not expire
      rw [idle, hreset] at hidle
      exact absurd hidle (by simp)
    · exact hlinked

/-- **A frame leaves the queue**: it is the next one of its stream. -/
theorem Inv.dequeueFrame (h : Inv config sys rest) :
    ∃ rest', Inv config (sys.perform .dequeueFrame) rest' := by
  rw [perform, StreamMultiplexer.dequeueFrame]
  cases hpop : LazyHeap.popMax
      (PriorityFifo.le PrioritizedFrame.priorityWeight PrioritizedFrame.sequence) (fun _ => 0)
      sys.a.sendQueue with
  | none => exact ⟨rest, h⟩
  | some popped =>
    obtain ⟨pf, queue⟩ := popped
    -- the heap gives up the first frame of some stream
    obtain ⟨tail, hrest, hsorted⟩ := h.sorted.pop hpop
    -- what is on the way and in the queue stays what it is
    have hflight : ∀ id, inFlight (sys.wire ++ [pf.frame])
        (Function.update rest pf.frame.streamId tail) id = inFlight sys.wire rest id := by
      intro id
      by_cases hid : id = pf.frame.streamId
      · subst hid
        rw [inFlight, inFlight, Function.update_self, hrest, List.filter_append, List.append_assoc,
          List.filter_cons_of_pos (p := fun f : StreamFrame => f.streamId = pf.frame.streamId)
            (by simp)]
        rfl
      · rw [inFlight, inFlight, Function.update_of_ne hid, List.filter_append,
          List.filter_cons_of_neg (p := fun f : StreamFrame => f.streamId = id)
            (by simpa using fun h => hid h.symm), List.filter_nil, List.append_nil]
    refine ⟨Function.update rest pf.frame.streamId tail, h.config_eq, h.maxStreams_le, h.room,
      hsorted, ?_, ?_, ?_⟩
    · intro id s hs pf' hpf'
      refine h.weight id s hs pf' ?_
      by_cases hid : id = pf.frame.streamId
      · subst hid
        rw [Function.update_self] at hpf'
        rw [hrest]
        exact List.mem_cons_of_mem _ hpf'
      · rwa [Function.update_of_ne hid] at hpf'
    · intro id hnone
      dsimp only
      rw [hflight]
      exact h.absent id hnone
    · intro id s hs
      dsimp only
      rw [hflight]
      exact h.linked id s hs

/-- There is room at `b` for a stream of `a` that it does not have yet. -/
theorem Inv.room_at_b (h : Inv config sys rest) (ha : id ∈ sys.a.streams)
    (hb : id ∉ sys.b.streams) :
    sys.b.streams.entries.length < sys.b.config.maxStreams := by
  -- `b` has no stream that `a` does not have, and it has not got this one
  have hsub : sys.b.streams.keys ⊆ sys.a.streams.keys := by
    intro id' hid'
    by_contra hnot
    have hnone := (h.absent id' (AList.lookup_eq_none.mpr hnot)).1
    exact AList.lookup_eq_none.mp hnone hid'
  have hcons : (id :: sys.b.streams.keys).Subperm sys.a.streams.keys :=
    List.subperm_of_subset (List.nodup_cons.mpr ⟨hb, sys.b.streams.keys_nodup⟩)
      (List.cons_subset.mpr ⟨ha, hsub⟩)
  have hlength := hcons.length_le
  rw [List.length_cons, AssocMap.length_keys, AssocMap.length_keys] at hlength
  exact lt_of_lt_of_le hlength (h.room.trans h.maxStreams_le)

/-- `b` sets a stream, after it has received a frame or handed out a buffer. -/
theorem Inv.setB (h : Inv config sys rest) (wire : List StreamFrame) (id : StreamId)
    (stream : LogicalStream) (drained : Bytes) (ha : id ∈ sys.a.streams)
    (hwire : ∀ id', id' ≠ id → inFlight wire rest id' = inFlight sys.wire rest id')
    (hlinked : ∀ s, sys.a.streams.lookup id = some s →
      Linked config.defaultWindowSize.toNat s (some stream) (inFlight wire rest id)
        (sys.accepted id) drained (sys.credits id)) :
    Inv config
      { sys with
          wire := wire
          b := { sys.b with streams := sys.b.streams.insert id stream }
          drained := Function.update sys.drained id drained } rest := by
  refine ⟨h.config_eq, h.maxStreams_le, h.room, h.sorted, h.weight, ?_, ?_⟩
  · intro id' hnone
    have hne : id' ≠ id := by
      rintro rfl
      exact AList.lookup_eq_none.mp hnone ha
    dsimp only
    rw [AList.lookup_insert_ne hne, hwire id' hne, Function.update_of_ne hne]
    exact h.absent id' hnone
  · intro id' s hs
    dsimp only
    by_cases hid : id' = id
    · subst hid
      rw [AList.lookup_insert, Function.update_self]
      exact hlinked s hs
    · rw [AList.lookup_insert_ne hid, hwire id' hid, Function.update_of_ne hid]
      exact h.linked id' s hs

variable {act : Act} {m m' : StreamMultiplexer}

theorem overflows_of_mem {events : List MuxEvent} (hanswer : sys.answer act = .ok events)
    (hmem : MuxEvent.sendBufferFull id ∈ events) : sys.overflows act = true := by
  rw [overflows, hanswer]
  exact List.any_eq_true.mpr ⟨_, hmem, rfl⟩

/-- **The first frame on the way arrives.** -/
theorem Inv.deliver (h : Inv config sys rest) {now : ℕ} (hfull : ¬sys.overflows (.deliver now)) :
    Inv config (sys.perform (.deliver now)) rest ∧
      ∃ events, sys.answer (.deliver now) = .ok events := by
  cases hwire : sys.wire with
  | nil =>
    rw [perform, answer, hwire]
    exact ⟨h, [], rfl⟩
  | cons frame wire =>
    have hfirst : inFlight sys.wire rest frame.streamId =
        frame :: inFlight wire rest frame.streamId := by
      rw [hwire, inFlight, List.filter_cons_of_pos
        (p := fun f : StreamFrame => f.streamId = frame.streamId) (by simp)]
      rfl
    have hother : ∀ id', id' ≠ frame.streamId →
        inFlight wire rest id' = inFlight sys.wire rest id' := by
      intro id' hne
      rw [hwire, inFlight, inFlight, List.filter_cons_of_neg
        (p := fun f : StreamFrame => f.streamId = id') (by simpa using fun h => hne h.symm)]
    -- there is nothing on the way for a stream that `a` does not have
    obtain ⟨s, hs⟩ : ∃ s, sys.a.streams.lookup frame.streamId = some s := by
      cases hs : sys.a.streams.lookup frame.streamId with
      | some s => exact ⟨s, rfl⟩
      | none =>
        have hnil := (h.absent frame.streamId hs).2.1
        rw [hfirst] at hnil
        cases hnil
    have hlinked := h.linked frame.streamId s hs
    rw [hfirst] at hlinked
    have hanswer : sys.answer (.deliver now) = (sys.b.receiveEvents frame now).2 := by
      rw [answer, hwire]
    have ha := AssocMap.mem_of_lookup hs
    -- the frame is the next one of its stream, and makes no difference to the other streams
    obtain ⟨stream, events, heq, hlinked'⟩ := hlinked.receive (h.room_at_b ha)
      fun events hevents id hmem => hfull (overflows_of_mem (hanswer.trans hevents) hmem)
    refine ⟨?_, events, by rw [hanswer, heq]⟩
    rw [perform, hwire]
    dsimp only
    rw [heq]
    have hinv := h.setB wire frame.streamId stream (sys.drained frame.streamId) ha hother
      fun s' hs' => by
        obtain rfl := Option.some.inj (hs.symm.trans hs')
        exact hlinked'
    rwa [Function.update_eq_self] at hinv

/-- **A buffer is handed out.** -/
theorem Inv.drainRecvBuffer (h : Inv config sys rest) (id : StreamId) :
    Inv config (sys.perform (.drainRecvBuffer id)) rest ∧
      (id ∈ sys.b.streams → ∃ events, sys.answer (.drainRecvBuffer id) = .ok events) := by
  rw [perform, answer, StreamMultiplexer.drainRecvBuffer]
  cases hb : sys.b.streams.lookup id with
  | none => exact ⟨h, fun hmem => absurd hmem (AList.lookup_eq_none.mp hb)⟩
  | some stream =>
    refine ⟨?_, fun _ => ⟨[], rfl⟩⟩
    -- what `b` has, `a` has opened
    have ha : id ∈ sys.a.streams := by
      by_contra hnot
      have hnone := (h.absent id (AList.lookup_eq_none.mpr hnot)).1
      rw [hb] at hnone
      cases hnone
    refine h.setB sys.wire id { stream with recvBuffer := [] } _ ha (fun _ _ => rfl) fun s hs => ?_
    have hlinked := h.linked id s hs
    rw [hb] at hlinked
    exact hlinked.drain

/-! ### Every run -/

/-- `b` returns no error, except where it is asked for the buffer of a stream that it does not
have. -/
def Answers (sys : System) (act : Act) : Prop :=
  (∃ events, sys.answer act = .ok events) ∨ ∃ id, act = .drainRecvBuffer id ∧ id ∉ sys.b.streams

/-- **Every step keeps the invariant**, and `b` answers. -/
theorem Inv.perform (h : Inv config sys rest) (hfresh : ¬sys.reusesId act)
    (hfull : ¬sys.overflows act) :
    (∃ rest', Inv config (sys.perform act) rest') ∧ sys.Answers act := by
  cases act with
  | openStream priority =>
    refine ⟨h.openStream fun hroom hmem => hfresh ?_, .inl ⟨[], rfl⟩⟩
    rw [reusesId, decide_eq_true hroom, decide_eq_true hmem]
    rfl
  | send streamId data now => exact ⟨h.send streamId data now, .inl ⟨[], rfl⟩⟩
  | updateWindow streamId increment =>
    exact ⟨⟨rest, h.updateWindow streamId increment⟩, .inl ⟨[], rfl⟩⟩
  | closeStream streamId => exact ⟨h.closeStream streamId, .inl ⟨[], rfl⟩⟩
  | resetStream streamId => exact ⟨h.resetStream streamId, .inl ⟨[], rfl⟩⟩
  | expireIdle now => exact ⟨⟨rest, h.expireIdle now⟩, .inl ⟨[], rfl⟩⟩
  | dequeueFrame => exact ⟨h.dequeueFrame, .inl ⟨[], rfl⟩⟩
  | deliver now =>
    obtain ⟨hinv, hanswer⟩ := h.deliver hfull
    exact ⟨⟨rest, hinv⟩, .inl hanswer⟩
  | drainRecvBuffer streamId =>
    obtain ⟨hinv, hanswer⟩ := h.drainRecvBuffer streamId
    refine ⟨⟨rest, hinv⟩, ?_⟩
    by_cases hmem : streamId ∈ sys.b.streams
    · exact .inl (hanswer hmem)
    · exact .inr ⟨streamId, rfl, hmem⟩

/-- **Every run keeps the invariant**, and `b` answers throughout. -/
theorem Inv.run (h : Inv config sys rest) {acts : List Act}
    (hmeets : Throughout (fun sys act => ¬sys.reusesId act ∧ ¬sys.overflows act) sys acts) :
    (∃ rest', Inv config (sys.run acts) rest') ∧ Throughout Answers sys acts := by
  induction acts generalizing sys rest with
  | nil => exact ⟨⟨rest, h⟩, trivial⟩
  | cons act acts ih =>
    obtain ⟨⟨rest', hinv⟩, hanswers⟩ := h.perform hmeets.1.1 hmeets.1.2
    obtain ⟨hrun, hthroughout⟩ := ih hinv hmeets.2
    exact ⟨hrun, hanswers, hthroughout⟩

/-- What has arrived at `b`, and how much `a` has taken. -/
structure Delivered (config : MultiplexerConfig) (sys : System) : Prop where
  in_order : ∀ id, sys.drained id ++ sys.buffered id <+: sys.accepted id
  complete : sys.a.sendQueue = [] → sys.wire = [] →
    ∀ id, sys.drained id ++ sys.buffered id = sys.accepted id
  within_window : ∀ id,
    (sys.accepted id).length ≤ config.defaultWindowSize.toNat + sys.credits id

theorem Inv.delivered (h : Inv config sys rest) : Delivered config sys := by
  have hbytes : ∀ id, sys.accepted id =
      sys.drained id ++ sys.buffered id ++ payload (inFlight sys.wire rest id) := by
    intro id
    cases hs : sys.a.streams.lookup id with
    | some s => exact (h.linked id s hs).bytes
    | none =>
      obtain ⟨hb, hflight, haccepted, hdrained⟩ := h.absent id hs
      rw [buffered, hb, hflight, haccepted, hdrained]
      rfl
  -- what is missing at `b` is in flight
  constructor
  case in_order => exact fun id => ⟨_, (hbytes id).symm⟩
  case complete =>
    intro hqueue hwire id
    have hsorted := h.sorted
    rw [Sorted, hqueue] at hsorted
    have hflight : inFlight sys.wire rest id = [] := by
      rw [inFlight, hwire, hsorted.rest_eq_nil]
      rfl
    rw [hbytes id, hflight]
    exact (List.append_nil _).symm
  case within_window =>
    intro id
    cases hs : sys.a.streams.lookup id with
    | some s => exact Nat.le_trans (Nat.le_add_right ..) (h.linked id s hs).window_le
    | none =>
      rw [(h.absent id hs).2.2.1]
      exact Nat.zero_le _

/-- **The bytes of every stream arrive in order**, in every run without a stream that takes the
identifier of another one, and without frames that are dropped: `b` returns no error, and what has
been drained and is still in the buffer is a prefix of what `a` has accepted, all of it once nothing
is in the queue and on the way; `a` accepts no more than the window and the credits allow. -/
theorem delivers (configA configB : MultiplexerConfig)
    (hmax : configA.maxStreams ≤ configB.maxStreams) (acts : List Act)
    (hmeets : Throughout (fun sys act => ¬sys.reusesId act ∧ ¬sys.overflows act)
      (init configA configB) acts) :
    Throughout Answers (init configA configB) acts ∧
      Delivered configA ((init configA configB).run acts) := by
  obtain ⟨⟨rest, hinv⟩, hanswers⟩ := (inv_init hmax).run hmeets
  exact ⟨hanswers, hinv.delivered⟩

theorem delivers_twoStreams :
    Delivered ⟨2, 10, 2, true, 4, 100⟩ ((init ⟨2, 10, 2, true, 4, 100⟩ ⟨2, 5, 2, true, 4, 100⟩).run
      [.openStream .low, .send 1 [1, 2, 3] 0, .openStream .high, .send 2 [4] 0, .dequeueFrame,
        .dequeueFrame, .dequeueFrame, .dequeueFrame, .deliver 1, .deliver 1, .deliver 1,
        .drainRecvBuffer 2, .closeStream 1, .deliver 1]) :=
  (delivers ⟨2, 10, 2, true, 4, 100⟩ ⟨2, 5, 2, true, 4, 100⟩ (by decide) _ (by decide +kernel)).2

/-! ### Identifiers that come again -/

/-- The identifiers have been given out in turn, and there are as many streams. -/
structure Counted (m : StreamMultiplexer) : Prop where
  next : m.nextStreamId.toNat = (m.streams.keys.length + 1) % 2 ^ 32
  ids : ∀ id ∈ m.streams.keys, ∃ i < m.streams.keys.length, id.toNat = (i + 1) % 2 ^ 32

/-- Neither the identifiers nor the next one has changed. -/
structure SameIds (m m' : StreamMultiplexer) : Prop where
  config : m'.config = m.config
  next : m'.nextStreamId = m.nextStreamId
  keys : m'.streams.keys.Perm m.streams.keys

theorem SameIds.refl (m : StreamMultiplexer) : SameIds m m := ⟨rfl, rfl, List.Perm.refl _⟩

theorem Counted.of_sameIds (h : Counted m) (hsame : SameIds m m') :
    Counted m' where
  next := by
    rw [hsame.next, hsame.keys.length_eq]
    exact h.next
  ids := by
    intro id hid
    rw [hsame.keys.length_eq]
    exact h.ids id (hsame.keys.mem_iff.mp hid)

theorem keys_insert_perm {streams : AList fun _ : StreamId => LogicalStream}
    (h : streams.lookup id = some s) (s' : LogicalStream) :
    (streams.insert id s').keys.Perm streams.keys := by
  rw [AList.keys_insert]
  exact (List.perm_cons_erase (AssocMap.mem_of_lookup h)).symm

/-- As long as there are 2^32 streams at most, the next identifier is a new one. -/
theorem Counted.fresh (h : Counted m) (hlt : m.streams.keys.length < 2 ^ 32) :
    m.nextStreamId ∉ m.streams := by
  intro hmem
  obtain ⟨i, hi, heq⟩ := h.ids m.nextStreamId hmem
  -- numbers below 2^32 are different modulo 2^32, and the next one comes after all of them
  rw [h.next] at heq
  omega

theorem Counted.insert (h : Counted m) (hnext : m'.nextStreamId = m.nextStreamId + 1)
    (hkeys : m'.streams.keys = m.nextStreamId :: m.streams.keys) : Counted m' where
  next := by
    have hone : (1 : UInt32).toNat = 1 := rfl
    have hcount := h.next
    rw [hnext, hkeys, List.length_cons, UInt32.toNat_add, hone, hcount]
    omega
  ids := by
    intro id hid
    rw [hkeys] at hid ⊢
    rw [List.length_cons]
    obtain rfl | hid := List.mem_cons.mp hid
    · exact ⟨m.streams.keys.length, Nat.lt_succ_self _, h.next⟩
    · obtain ⟨i, hi, heq⟩ := h.ids id hid
      exact ⟨i, Nat.lt_succ_of_lt hi, heq⟩

theorem Counted.openStream (h : Counted m) (priority : StreamPriority)
    (hmax : m.config.maxStreams ≤ 2 ^ 32) : Counted (m.openStream priority).1 := by
  rw [StreamMultiplexer.openStream]
  split
  · exact h
  next hroom =>
  have hlength := AssocMap.length_keys m.streams
  have hfresh := h.fresh (by omega)
  exact h.insert rfl ((AList.keys_insert ..).trans (congrArg _ (List.erase_of_not_mem hfresh)))

theorem sameIds_sendChunk (m : StreamMultiplexer) (id : StreamId) (now : ℕ) (chunk : Bytes) :
    SameIds m (sendChunk id now m chunk) := by
  rw [sendChunk]
  cases hs : m.streams.lookup id with
  | none => exact SameIds.refl _
  | some stream => exact ⟨rfl, rfl, keys_insert_perm hs _⟩

theorem sameIds_sendChunks (id : StreamId) (now : ℕ) (chunks : List Bytes) (m : StreamMultiplexer) :
    SameIds m (chunks.foldl (sendChunk id now) m) := by
  induction chunks generalizing m with
  | nil => exact SameIds.refl _
  | cons chunk chunks ih =>
    have hfirst := sameIds_sendChunk m id now chunk
    have hrest := ih (sendChunk id now m chunk)
    exact ⟨hrest.config.trans hfirst.config, hrest.next.trans hfirst.next,
      hrest.keys.trans hfirst.keys⟩

/-- No step of `a` but the opening of a stream changes the identifiers. -/
theorem sameIds_perform (sys : System) (act : Act)
    (hact : ∀ priority, act ≠ .openStream priority) : SameIds sys.a (sys.perform act).a := by
  cases act with
  | openStream priority => exact absurd rfl (hact priority)
  | send id data now =>
    rw [perform, StreamMultiplexer.send]
    cases hs : sys.a.streams.lookup id with
    | none => exact SameIds.refl _
    | some stream =>
      dsimp only
      by_cases hstate : stream.state = .open
      · rw [if_neg (not_not_intro hstate)]
        by_cases hlength : data.length > stream.sendWindow
        · rw [if_pos hlength]
          exact SameIds.refl _
        · rw [if_neg hlength]
          -- only the window of the stream changes
          exact sameIds_sendChunks id now _ sys.a
      · rw [if_pos hstate]
        exact SameIds.refl _
  | updateWindow id increment =>
    rw [perform, StreamMultiplexer.updateWindow]
    cases hs : sys.a.streams.lookup id with
    | none => exact SameIds.refl _
    | some stream => exact ⟨rfl, rfl, keys_insert_perm hs _⟩
  | closeStream id =>
    rw [perform, StreamMultiplexer.closeStream]
    cases hs : sys.a.streams.lookup id with
    | none => exact SameIds.refl _
    | some stream =>
      dsimp only
      split
      · exact SameIds.refl _
      · exact ⟨rfl, rfl, keys_insert_perm hs _⟩
  | resetStream id =>
    rw [perform, StreamMultiplexer.resetStream]
    cases hs : sys.a.streams.lookup id with
    | none => exact SameIds.refl _
    | some stream => exact ⟨rfl, rfl, keys_insert_perm hs _⟩
  | expireIdle now =>
    -- streams expire in place
    refine ⟨rfl, rfl, List.Perm.of_eq ?_⟩
    show List.map _ (List.map _ sys.a.streams.entries) = _
    rw [List.map_map]
    rfl
  | dequeueFrame =>
    rw [perform, StreamMultiplexer.dequeueFrame]
    split
    · next heq =>
      split at heq
      · obtain ⟨rfl, -⟩ := Prod.mk.inj heq
        exact SameIds.refl _
      · cases heq
    · next heq =>
      split at heq
      · cases heq
      · obtain ⟨rfl, -⟩ := Prod.mk.inj heq
        exact ⟨rfl, rfl, List.Perm.refl _⟩
  | deliver now =>
    rw [perform]
    split
    · exact SameIds.refl _
    · exact SameIds.refl _
  | drainRecvBuffer id =>
    rw [perform]
    split
    · exact SameIds.refl _
    · exact SameIds.refl _

theorem Counted.perform (h : Counted sys.a) (hmax : sys.a.config.maxStreams ≤ 2 ^ 32) (act : Act) :
    Counted (sys.perform act).a ∧ (sys.perform act).a.config = sys.a.config := by
  by_cases hact : ∃ priority, act = .openStream priority
  · obtain ⟨priority, rfl⟩ := hact
    refine ⟨h.openStream priority hmax, ?_⟩
    show (sys.a.openStream priority).1.config = _
    rw [StreamMultiplexer.openStream]
    split
    · rfl
    · rfl
  · have hsame := sameIds_perform sys act fun priority heq => hact ⟨priority, heq⟩
    exact ⟨h.of_sameIds hsame, hsame.config⟩

/-- **No identifier comes again** in a run with 2^32 streams at most. -/
theorem not_reusesId_of_maxStreams_le (configA configB : MultiplexerConfig)
    (hmax : configA.maxStreams ≤ 2 ^ 32) (acts : List Act) :
    Throughout (fun sys act => ¬sys.reusesId act) (init configA configB) acts := by
  have hinit : Counted (init configA configB).a := ⟨rfl, fun _ h => absurd h List.not_mem_nil⟩
  have hmax : (init configA configB).a.config.maxStreams ≤ 2 ^ 32 := hmax
  -- the two facts are kept by every step, so the run may start anywhere
  generalize init configA configB = sys at hinit hmax
  induction acts generalizing sys with
  | nil => trivial
  | cons act acts ih =>
    obtain ⟨hcounted, hconfig⟩ := hinit.perform hmax act
    refine ⟨?_, ih _ hcounted (by rw [hconfig]; exact hmax)⟩
    cases act with
    | openStream priority =>
      intro hreuses
      obtain ⟨hroom, hmem⟩ := Bool.and_eq_true_iff.mp hreuses
      have hlength := AssocMap.length_keys sys.a.streams
      have hroom := of_decide_eq_true hroom
      exact hinit.fresh (by omega) (of_decide_eq_true hmem)
    | _ => exact Bool.false_ne_true

theorem not_reusesId_of_maxStreams_le_three :
    let acts : List Act := [.openStream .low, .send 1 [7] 1, .dequeueFrame, .deliver 2,
      .resetStream 1, .openStream .normal, .expireIdle 1000, .openStream .high]
    ((init ⟨4, 10, 2, true, 4, 100⟩ ⟨4, 5, 2, true, 4, 100⟩).run acts).a.streams.keys = [3, 2, 1] ∧
      Throughout (fun sys act => ¬sys.reusesId act)
        (init ⟨4, 10, 2, true, 4, 100⟩ ⟨4, 5, 2, true, 4, 100⟩) acts :=
  ⟨by decide +kernel, not_reusesId_of_maxStreams_le _ _ (by decide) _⟩

/-- A stream is opened, and `b` is told, time after time. -/
def rounds : ℕ → List Act
  | 0 => []
  | k + 1 => .openStream .normal :: .dequeueFrame :: .deliver 0 :: rounds k

/-- What is on the way when a stream has been opened. -/
def synFrame (id : StreamId) : StreamFrame := ⟨id, 0, [], flagSyn, 0⟩

/-- After `n` rounds: nothing is on the way, and `b` has the first stream once there has been a
round. -/
structure Quiet (n : ℕ) (sys : System) : Prop where
  maxStreams_a : sys.a.config.maxStreams = 2 ^ 32 + 1
  maxStreams_b : 0 < sys.b.config.maxStreams
  queue : sys.a.sendQueue = []
  wire : sys.wire = []
  next : sys.a.nextStreamId.toNat = (n + 1) % 2 ^ 32
  length_le : sys.a.streams.entries.length ≤ n
  first : 0 < n → 1 ∈ sys.b.streams
  none : n = 0 → sys.b.streams.entries = []

theorem popMax_singleton (pf : PrioritizedFrame) :
    LazyHeap.popMax (PriorityFifo.le PrioritizedFrame.priorityWeight PrioritizedFrame.sequence)
      (fun _ => 0) [pf] = some (pf, []) := by
  have hmaxima : LazyHeap.maxima
      (PriorityFifo.le PrioritizedFrame.priorityWeight PrioritizedFrame.sequence) [pf] = [pf] := by
    refine List.filter_eq_self.mpr fun x hx => decide_eq_true fun y hy => ?_
    rw [List.mem_singleton.mp hx, List.mem_singleton.mp hy]
    exact .inr ⟨rfl, le_rfl⟩
  rw [LazyHeap.popMax, hmaxima]
  show some (pf, [pf].erase pf) = _
  rw [List.erase_cons_head]

theorem Quiet.dequeue (h : Quiet n sys) (hn : n ≤ 2 ^ 32) :
    ∃ a, (sys.perform (.openStream .normal)).perform .dequeueFrame =
        { sys with a := a, wire := [synFrame sys.a.nextStreamId] } ∧
      a.config = sys.a.config ∧ a.sendQueue = [] ∧ a.nextStreamId = sys.a.nextStreamId + 1 ∧
      a.streams.entries.length ≤ n + 1 := by
  -- there is room for one more stream
  have hroom : ¬sys.a.streams.entries.length ≥ sys.a.config.maxStreams := by
    have hlength := h.length_le
    have hmax := h.maxStreams_a
    omega
  have hopen : sys.perform (.openStream .normal) =
      { sys with
          a := { sys.a with
            enqueueSeq := sys.a.enqueueSeq + 1
            nextStreamId := sys.a.nextStreamId + 1
            streams := sys.a.streams.insert sys.a.nextStreamId (sys.a.openedStream .normal)
            sendQueue := [⟨sys.a.weightOf .normal, sys.a.enqueueSeq,
              synFrame sys.a.nextStreamId⟩] } } := by
    rw [perform, StreamMultiplexer.openStream, if_neg hroom]
    dsimp only
    rw [enqueueControl, enqueue]
    dsimp only
    rw [h.queue]
    rfl
  refine ⟨{ sys.a with
    enqueueSeq := sys.a.enqueueSeq + 1
    nextStreamId := sys.a.nextStreamId + 1
    streams := sys.a.streams.insert sys.a.nextStreamId (sys.a.openedStream .normal)
    sendQueue := [] }, ?_, rfl, rfl, rfl, ?_⟩
  · rw [hopen, perform, StreamMultiplexer.dequeueFrame]
    dsimp only
    rw [popMax_singleton, h.wire]
    rfl
  · -- if the id was in use before, there is no stream more
    have hlength :=
      AssocMap.length_insert sys.a.nextStreamId (sys.a.openedStream .normal) sys.a.streams
    have herase : (sys.a.streams.erase sys.a.nextStreamId).entries.length ≤
        sys.a.streams.entries.length := (List.kerase_sublist _ _).length_le
    have hle := h.length_le
    show (sys.a.streams.insert sys.a.nextStreamId _).entries.length ≤ _
    omega

/-- A SYN frame is answered with an error where the stream is known, and opens it otherwise. -/
theorem receive_synFrame (b : StreamMultiplexer) (id : StreamId) :
    (id ∈ b.streams ∧ b.receiveEvents (synFrame id) 0 = (b, .error (.streamAlreadyOpen id))) ∨
      b.receiveEvents (synFrame id) 0 = (b, .error .maxStreamsReached) ∧
        b.config.maxStreams ≤ b.streams.entries.length ∨
      id ∉ b.streams ∧ b.receiveEvents (synFrame id) 0 =
        ({ b with streams := b.streams.insert id (b.receivedStream 0) },
          .ok [.streamOpened id]) := by
  have hsyn : (synFrame id).isSyn = true := by
    show decide (flagSyn &&& flagSyn ≠ 0) = true
    decide
  rw [receiveEvents, if_pos hsyn]
  by_cases hmem : id ∈ b.streams
  · exact .inl ⟨hmem, if_pos hmem⟩
  · refine .inr ?_
    show (if id ∈ b.streams then _ else _) = _ ∧ _ ∨ _ ∧ (if id ∈ b.streams then _ else _) = _
    rw [if_neg hmem]
    by_cases hfull : b.streams.entries.length ≥ b.config.maxStreams
    · exact .inl ⟨if_pos hfull, hfull⟩
    · exact .inr ⟨hmem, if_neg hfull⟩

/-- What `b` answers to a SYN frame does not say that a frame has been dropped. -/
theorem not_overflows_deliver {a : StreamMultiplexer} :
    ¬(System.overflows { sys with a := a, wire := [synFrame id] } (.deliver 0)) = true := by
  have hanswer : System.answer { sys with a := a, wire := [synFrame id] } (.deliver 0) =
      (sys.b.receiveEvents (synFrame id) 0).2 := rfl
  rw [overflows, hanswer]
  obtain ⟨-, heq⟩ | ⟨heq, -⟩ | ⟨-, heq⟩ := receive_synFrame sys.b id
  · rw [heq]
    exact Bool.false_ne_true
  · rw [heq]
    exact Bool.false_ne_true
  · rw [heq]
    exact Bool.false_ne_true

theorem Quiet.answer_last (h : Quiet (2 ^ 32) sys) :
    ∃ e, ((sys.perform (.openStream .normal)).perform .dequeueFrame).answer (.deliver 0) =
      .error e := by
  obtain ⟨a, hround, -⟩ := h.dequeue le_rfl
  -- 2^32 identifiers have been given out, so the next one is the first one
  have hid : sys.a.nextStreamId = 1 := UInt32.toNat_inj.mp h.next
  have hfirst := h.first (Nat.two_pow_pos 32)
  have hanswer : System.answer { sys with a := a, wire := [synFrame 1] } (.deliver 0) =
      (sys.b.receiveEvents (synFrame 1) 0).2 := rfl
  rw [hround, hid, hanswer]
  obtain ⟨-, heq⟩ | ⟨heq, -⟩ | ⟨hnot, -⟩ := receive_synFrame sys.b 1
  · exact ⟨_, congrArg Prod.snd heq⟩
  · exact ⟨_, congrArg Prod.snd heq⟩
  · exact absurd hfirst hnot

theorem Quiet.round (h : Quiet n sys) (hn : n < 2 ^ 32) :
    Quiet (n + 1)
      (((sys.perform (.openStream .normal)).perform .dequeueFrame).perform (.deliver 0)) := by
  obtain ⟨a, hround, hconfig, hqueue, hnext, hlength⟩ := h.dequeue hn.le
  have hone : (1 : UInt32).toNat = 1 := rfl
  have hnext : a.nextStreamId.toNat = (n + 1 + 1) % 2 ^ 32 := by
    rw [hnext, UInt32.toNat_add, hone, h.next]
    omega
  have hdeliver : System.perform { sys with a := a, wire := [synFrame sys.a.nextStreamId] }
      (.deliver 0) =
      { sys with
          a := a
          wire := []
          b := (sys.b.receiveEvents (synFrame sys.a.nextStreamId) 0).1 } := rfl
  rw [hround, hdeliver]
  -- the first round opens the first stream
  have hfirst : n = 0 → sys.a.nextStreamId = 1 := by
    intro hzero
    have hid := h.next
    rw [hzero] at hid
    exact UInt32.toNat_inj.mp hid
  obtain ⟨hmem, heq⟩ | ⟨heq, hfull⟩ | ⟨-, heq⟩ := receive_synFrame sys.b sys.a.nextStreamId
  · rw [heq]
    refine ⟨hconfig ▸ h.maxStreams_a, h.maxStreams_b, hqueue, rfl, hnext, hlength, fun _ => ?_,
      fun h => absurd h (Nat.succ_ne_zero n)⟩
    obtain hzero | hpos := Nat.eq_zero_or_pos n
    · rw [← hfirst hzero]
      exact hmem
    · exact h.first hpos
  · rw [heq]
    refine ⟨hconfig ▸ h.maxStreams_a, h.maxStreams_b, hqueue, rfl, hnext, hlength, fun _ => ?_,
      fun h => absurd h (Nat.succ_ne_zero n)⟩
    obtain hzero | hpos := Nat.eq_zero_or_pos n
    · have hroom := h.maxStreams_b
      rw [h.none hzero] at hfull
      exact absurd hroom (Nat.not_lt_of_le hfull)
    · exact h.first hpos
  · rw [heq]
    refine ⟨hconfig ▸ h.maxStreams_a, h.maxStreams_b, hqueue, rfl, hnext, hlength, fun _ => ?_,
      fun h => absurd h (Nat.succ_ne_zero n)⟩
    refine (AList.mem_insert _).mpr ?_
    obtain hzero | hpos := Nat.eq_zero_or_pos n
    · exact .inl (hfirst hzero).symm
    · exact .inr (h.first hpos)

/-- No frame is dropped in these rounds, and the last of them ends with an error. -/
theorem Quiet.rounds {k : ℕ} (h : Quiet n sys) (hk : n + k = 2 ^ 32 + 1) :
    Throughout (fun sys act => ¬sys.overflows act) sys (rounds k) ∧
      (0 < k → ¬Throughout Answers sys (rounds k)) := by
  induction k generalizing n sys with
  | zero => exact ⟨trivial, fun h => absurd h (lt_irrefl 0)⟩
  | succ k ih =>
    have hle : n ≤ 2 ^ 32 := by omega
    obtain ⟨a, hround, -⟩ := h.dequeue hle
    have hdeliver : ¬((sys.perform (.openStream .normal)).perform .dequeueFrame).overflows
        (.deliver 0) = true := by
      rw [hround]
      exact not_overflows_deliver
    obtain hlt | rfl := Nat.lt_or_eq_of_le hle
    · -- the round leaves `n + 1` identifiers behind, and the others follow
      obtain ⟨hthroughout, hanswers⟩ := ih (h.round hlt) (by omega)
      exact ⟨⟨Bool.false_ne_true, Bool.false_ne_true, hdeliver, hthroughout⟩,
        fun _ hall => hanswers (by omega) hall.2.2.2⟩
    · -- this is the last round
      obtain rfl : k = 0 := by omega
      refine ⟨⟨Bool.false_ne_true, Bool.false_ne_true, hdeliver, trivial⟩, fun _ hall => ?_⟩
      obtain ⟨e, herror⟩ := h.answer_last
      obtain ⟨events, hok⟩ | ⟨id, hact, -⟩ := hall.2.2.1
      · rw [herror] at hok
        cases hok
      · cases hact

/-- **Identifiers that come again break the delivery**: with room for more than 2^32 streams, `a`
opens the first identifier once more in the end, and `b` refuses it. -/
theorem not_forall_delivers :
    ¬∀ (configA configB : MultiplexerConfig), configA.maxStreams ≤ configB.maxStreams →
      ∀ acts, Throughout (fun sys act => ¬sys.overflows act) (init configA configB) acts →
        Throughout Answers (init configA configB) acts ∧
          Delivered configA ((init configA configB).run acts) := by
  intro hall
  have hquiet : Quiet 0 (init ⟨2 ^ 32 + 1, 10, 2, true, 4, 100⟩
      ⟨2 ^ 32 + 1, 10, 2, true, 4, 100⟩) :=
    ⟨rfl, Nat.succ_pos _, rfl, rfl, rfl, le_rfl, fun h => absurd h (lt_irrefl 0), fun _ => rfl⟩
  obtain ⟨hroom, herror⟩ := hquiet.rounds (Nat.zero_add (2 ^ 32 + 1))
  exact herror (Nat.succ_pos _) (hall _ _ le_rfl _ hroom).1

end System

end StreamMultiplexer

end Ipfrs
