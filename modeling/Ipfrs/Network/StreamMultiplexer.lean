import Ipfrs.Core.Cid
import Ipfrs.Lib.AssocMap
import Ipfrs.Lib.ListChunks
import Ipfrs.Lib.PriorityFifo

/-!
# The stream multiplexer

`StreamMultiplexer` (`ipfrs-network/src/stream_multiplexer.rs`): logical streams over one
connection. What is sent on a stream is cut into frames, which wait in one heap, ordered by the
priority of their stream, and are checked for their sequence numbers where they arrive.

The numbers of the frames are 64-bit counters, here numbers that do not wrap. The identifiers of the
streams are 32-bit counters and do. Counters that only statistics read are left out.

* `openStream`, `send`, `closeStream`, `resetStream`, … — the operations;
* `System`, `perform` — a multiplexer that sends to another one;
* `Throughout` — what holds of every step of a run.
-/

namespace Ipfrs

/-- `FLAG_FIN`. -/
def flagFin : UInt8 := 0b00000001

/-- `FLAG_RST`. -/
def flagRst : UInt8 := 0b00000010

/-- `FLAG_SYN`. -/
def flagSyn : UInt8 := 0b00000100

abbrev StreamId := UInt32

inductive StreamPriority where
  | background
  | low
  | normal
  | high
  | critical
  deriving DecidableEq, Repr

def StreamPriority.weight : StreamPriority → ℕ
  | critical => 8
  | high => 4
  | normal => 2
  | low => 1
  | background => 0

inductive StreamState where
  | opening
  | open
  | halfClosed
  | closed
  | reset
  deriving DecidableEq, Repr

structure StreamFrame where
  streamId : StreamId
  sequence : ℕ
  data : Bytes
  flags : UInt8
  timestamp : ℕ
  deriving DecidableEq, Repr

namespace StreamFrame

def isFin (frame : StreamFrame) : Bool := frame.flags &&& flagFin ≠ 0

def isRst (frame : StreamFrame) : Bool := frame.flags &&& flagRst ≠ 0

def isSyn (frame : StreamFrame) : Bool := frame.flags &&& flagSyn ≠ 0

end StreamFrame

structure LogicalStream where
  priority : StreamPriority
  state : StreamState
  sendWindow : ℕ
  sendSeq : ℕ
  recvSeq : ℕ
  lastActivity : ℕ
  recvBuffer : List Bytes
  recvBufferMax : ℕ
  deriving DecidableEq, Repr

structure MultiplexerConfig where
  maxStreams : ℕ
  defaultWindowSize : UInt32
  maxFrameSize : ℕ
  enablePriority : Bool
  recvBufferCapacity : ℕ
  idleTimeoutUs : ℕ
  deriving DecidableEq, Repr

structure PrioritizedFrame where
  priorityWeight : ℕ
  sequence : ℕ
  frame : StreamFrame
  deriving DecidableEq, Repr

inductive MuxEvent where
  | streamOpened (id : StreamId)
  | streamClosed (id : StreamId)
  | streamReset (id : StreamId)
  | frameReceived (id : StreamId)
  | sendBufferFull (id : StreamId)
  | idleStreamExpired (id : StreamId)
  deriving DecidableEq, Repr

/-- `MuxError`, as far as these operations return it. -/
inductive MuxError where
  | maxStreamsReached
  | streamNotFound (id : StreamId)
  | streamNotOpen (id : StreamId)
  | windowExhausted (id : StreamId)
  | sequenceError (expected got : ℕ)
  | streamAlreadyOpen (id : StreamId)
  deriving DecidableEq, Repr

structure StreamMultiplexer where
  config : MultiplexerConfig
  streams : AList fun _ : StreamId => LogicalStream
  sendQueue : List PrioritizedFrame
  nextStreamId : StreamId
  enqueueSeq : ℕ

namespace StreamMultiplexer

def new (config : MultiplexerConfig) : StreamMultiplexer where
  config := config
  streams := ∅
  sendQueue := []
  nextStreamId := 1
  enqueueSeq := 0

variable (m : StreamMultiplexer)

/-- The weight that the frames of a stream have in the queue. -/
def weightOf (priority : StreamPriority) : ℕ :=
  if m.config.enablePriority then priority.weight else 0

/-- A frame is put into the queue. -/
def enqueue (priority : StreamPriority) (frame : StreamFrame) : StreamMultiplexer :=
  { m with
      enqueueSeq := m.enqueueSeq + 1
      sendQueue := ⟨m.weightOf priority, m.enqueueSeq, frame⟩ :: m.sendQueue }

def enqueueControl (streamId : StreamId) (flags : UInt8) (sequence : ℕ)
    (priority : StreamPriority) (now : ℕ) : StreamMultiplexer :=
  m.enqueue priority ⟨streamId, sequence, [], flags, now⟩

/-- What `open_stream` opens. -/
def openedStream (priority : StreamPriority) : LogicalStream where
  priority := priority
  state := .open
  sendWindow := m.config.defaultWindowSize.toNat
  sendSeq := 1 -- the SYN frame has 0
  recvSeq := 0
  lastActivity := 0
  recvBuffer := []
  recvBufferMax := m.config.recvBufferCapacity

def openStream (priority : StreamPriority) : StreamMultiplexer × Except MuxError StreamId :=
  if m.streams.entries.length ≥ m.config.maxStreams then (m, .error .maxStreamsReached)
  else
    -- the number wraps around, and it is not looked up whether a stream has it
    let id := m.nextStreamId
    let streams := m.streams.insert id (m.openedStream priority)
    let m := { m with nextStreamId := m.nextStreamId + 1, streams := streams }
    (m.enqueueControl id flagSyn 0 priority 0, .ok id)

/-- What `close_stream` and `reset_stream` do once they go ahead. -/
def endStream (streamId : StreamId) (stream : LogicalStream) (state : StreamState) (flags : UInt8) :
    StreamMultiplexer :=
  let stream' := { stream with sendSeq := stream.sendSeq + 1, state := state }
  let m := { m with streams := m.streams.insert streamId stream' }
  m.enqueueControl streamId flags stream.sendSeq stream.priority 0

def closeStream (streamId : StreamId) : StreamMultiplexer × Except MuxError Unit :=
  match m.streams.lookup streamId with
  | none => (m, .error (.streamNotFound streamId))
  | some stream =>
    -- a stream that is half closed gets another FIN frame
    if stream.state = .closed ∨ stream.state = .reset then (m, .error (.streamNotOpen streamId))
    else (m.endStream streamId stream .halfClosed flagFin, .ok ())

def resetStream (streamId : StreamId) : StreamMultiplexer × Except MuxError Unit :=
  match m.streams.lookup streamId with
  | none => (m, .error (.streamNotFound streamId))
  | some stream => (m.endStream streamId stream .reset flagRst, .ok ())

/-- One round of the loop of `send`. The stream is looked up again, and is there. -/
def sendChunk (streamId : StreamId) (now : ℕ) (m : StreamMultiplexer) (chunk : Bytes) :
    StreamMultiplexer :=
  match m.streams.lookup streamId with
  | none => m
  | some stream =>
    let stream' :=
      { stream with
          sendSeq := stream.sendSeq + 1
          sendWindow := stream.sendWindow - chunk.length % 2 ^ 32
          lastActivity := now }
    let m := { m with streams := m.streams.insert streamId stream' }
    m.enqueue stream.priority ⟨streamId, stream.sendSeq, chunk, 0, now⟩

def send (streamId : StreamId) (data : Bytes) (now : ℕ) : StreamMultiplexer × Except MuxError ℕ :=
  match m.streams.lookup streamId with
  | none => (m, .error (.streamNotFound streamId))
  | some stream =>
    if stream.state ≠ .open then (m, .error (.streamNotOpen streamId))
    else if data.length > stream.sendWindow then (m, .error (.windowExhausted streamId))
    else
      ((ListChunks.chunks (max m.config.maxFrameSize 1) data).foldl (sendChunk streamId now) m,
        .ok data.length)

/-- What a SYN frame opens. -/
def receivedStream (now : ℕ) : LogicalStream where
  priority := .normal
  state := .open
  sendWindow := m.config.defaultWindowSize.toNat
  sendSeq := 0
  recvSeq := 1
  lastActivity := now
  recvBuffer := []
  recvBufferMax := m.config.recvBufferCapacity

def receiveEvents (frame : StreamFrame) (now : ℕ) :
    StreamMultiplexer × Except MuxError (List MuxEvent) :=
  let put (stream : LogicalStream) : StreamMultiplexer :=
    { m with streams := m.streams.insert frame.streamId stream }
  if frame.isSyn then
    if frame.streamId ∈ m.streams then (m, .error (.streamAlreadyOpen frame.streamId))
    else if m.streams.entries.length ≥ m.config.maxStreams then (m, .error .maxStreamsReached)
    else (put (m.receivedStream now), .ok [.streamOpened frame.streamId])
  else
    match m.streams.lookup frame.streamId with
    | none => (m, .error (.streamNotFound frame.streamId))
    | some stream =>
      -- a reset counts whatever its number is
      if frame.isRst then
        (put { stream with state := .reset, lastActivity := now },
          .ok [.streamReset frame.streamId])
      else if frame.sequence ≠ stream.recvSeq then
        (m, .error (.sequenceError stream.recvSeq frame.sequence))
      else
        let stream := { stream with recvSeq := stream.recvSeq + 1, lastActivity := now }
        if frame.isFin then
          -- the second FIN frame closes the stream
          let state := if stream.state = .halfClosed then .closed else .halfClosed
          (put { stream with state := state }, .ok [.streamClosed frame.streamId])
        else if frame.data ≠ [] then
          if stream.recvBuffer.length ≥ stream.recvBufferMax then
            -- the number is used up, and the bytes are lost
            (put stream, .ok [.sendBufferFull frame.streamId])
          else
            (put { stream with recvBuffer := stream.recvBuffer ++ [frame.data] },
              .ok [.frameReceived frame.streamId])
        else (put stream, .ok [.frameReceived frame.streamId])

def drainRecvBuffer (streamId : StreamId) : StreamMultiplexer × Except MuxError (List Bytes) :=
  match m.streams.lookup streamId with
  | none => (m, .error (.streamNotFound streamId))
  | some stream =>
    ({ m with streams := m.streams.insert streamId { stream with recvBuffer := [] } },
      .ok stream.recvBuffer)

/-- `StreamMultiplexer::dequeue_frame`. No two frames in the queue have one number. -/
def dequeueFrame : StreamMultiplexer × Option StreamFrame :=
  match LazyHeap.popMax
      (PriorityFifo.le PrioritizedFrame.priorityWeight PrioritizedFrame.sequence) (fun _ => 0)
      m.sendQueue with
  | none => (m, none)
  | some (pf, rest) => ({ m with sendQueue := rest }, some pf.frame)

/-- What makes `expire_idle` close a stream. -/
def idle (timeout currentTs : ℕ) (stream : LogicalStream) : Bool :=
  (stream.state = .open || stream.state = .opening || stream.state = .halfClosed) &&
    min (stream.lastActivity + timeout) (2 ^ 64 - 1) < currentTs

def expireIdle (currentTs : ℕ) : StreamMultiplexer × List MuxEvent :=
  let timeout := m.config.idleTimeoutUs
  ({ m with
      streams := AssocMap.mapValues
        (fun stream => if idle timeout currentTs stream then { stream with state := .closed }
          else stream) m.streams },
    (m.streams.entries.filter fun e => idle timeout currentTs e.2).map
      fun e => .idleStreamExpired e.1)

def updateWindow (streamId : StreamId) (increment : UInt32) : StreamMultiplexer × Bool :=
  match m.streams.lookup streamId with
  | none => (m, false)
  | some stream =>
    -- `saturating_add`
    let sendWindow := min (stream.sendWindow + increment.toNat) (2 ^ 32 - 1)
    ({ m with streams := m.streams.insert streamId { stream with sendWindow := sendWindow } }, true)

/-! ### Two multiplexers -/

/-- A multiplexer `a` whose frames go to `b`: the frames on the way, what `a` has accepted on each
stream and the credits that have been added to its window, and what `b` has handed out. -/
structure System where
  a : StreamMultiplexer
  wire : List StreamFrame
  b : StreamMultiplexer
  accepted : StreamId → Bytes
  credits : StreamId → ℕ
  drained : StreamId → Bytes

/-- Nothing has happened. -/
def System.init (configA configB : MultiplexerConfig) : System where
  a := .new configA
  wire := []
  b := .new configB
  accepted := fun _ => []
  credits := fun _ => 0
  drained := fun _ => []

/-- What can happen: the operations on `a`, the delivery of the first frame on the way, and the
draining of a buffer of `b`. -/
inductive Act where
  | openStream (priority : StreamPriority)
  | send (streamId : StreamId) (data : Bytes) (now : ℕ)
  | updateWindow (streamId : StreamId) (increment : UInt32)
  | closeStream (streamId : StreamId)
  | resetStream (streamId : StreamId)
  | expireIdle (now : ℕ)
  | dequeueFrame
  | deliver (now : ℕ)
  | drainRecvBuffer (streamId : StreamId)
  deriving DecidableEq, Repr

namespace System

variable (sys : System)

/-- One step. -/
def perform : Act → System
  | .openStream priority => { sys with a := (sys.a.openStream priority).1 }
  | .send streamId data now =>
    match sys.a.send streamId data now with
    | (a, .error _) => { sys with a := a }
    | (a, .ok _) =>
      { sys with
          a := a
          accepted := Function.update sys.accepted streamId (sys.accepted streamId ++ data) }
  | .updateWindow streamId increment =>
    match sys.a.updateWindow streamId increment with
    | (a, false) => { sys with a := a }
    | (a, true) =>
      let credit := sys.credits streamId + increment.toNat
      { sys with a := a, credits := Function.update sys.credits streamId credit }
  | .closeStream streamId => { sys with a := (sys.a.closeStream streamId).1 }
  | .resetStream streamId => { sys with a := (sys.a.resetStream streamId).1 }
  | .expireIdle now => { sys with a := (sys.a.expireIdle now).1 }
  | .dequeueFrame =>
    match sys.a.dequeueFrame with
    | (a, none) => { sys with a := a }
    | (a, some frame) => { sys with a := a, wire := sys.wire ++ [frame] }
  | .deliver now =>
    match sys.wire with
    | [] => sys
    | frame :: wire => { sys with wire := wire, b := (sys.b.receiveEvents frame now).1 }
  | .drainRecvBuffer streamId =>
    match sys.b.drainRecvBuffer streamId with
    | (b, .error _) => { sys with b := b }
    | (b, .ok payloads) =>
      let bytes := sys.drained streamId ++ payloads.flatten
      { sys with b := b, drained := Function.update sys.drained streamId bytes }

/-- What `b` answers in a step. -/
def answer : Act → Except MuxError (List MuxEvent)
  | .deliver now =>
    match sys.wire with
    | [] => .ok []
    | frame :: _ => (sys.b.receiveEvents frame now).2
  | .drainRecvBuffer streamId => (sys.b.drainRecvBuffer streamId).2.map fun _ => []
  | _ => .ok []

/-- A run. -/
def run (acts : List Act) : System := acts.foldl perform sys

/-- Every step of a run has the property. -/
def Throughout (P : System → Act → Prop) : System → List Act → Prop
  | _, [] => True
  | sys, act :: acts => P sys act ∧ Throughout P (sys.perform act) acts

instance decidableThroughout (P : System → Act → Prop) [∀ sys act, Decidable (P sys act)] :
    ∀ sys acts, Decidable (Throughout P sys acts)
  | _, [] => .isTrue trivial
  | sys, act :: acts =>
    have := decidableThroughout P (sys.perform act) acts
    inferInstanceAs (Decidable (_ ∧ _))

/-- `a` opens a stream under an identifier that it has a stream under. -/
def reusesId : Act → Bool
  | .openStream _ =>
    sys.a.streams.entries.length < sys.a.config.maxStreams && sys.a.nextStreamId ∈ sys.a.streams
  | _ => false

/-- `b` drops a frame, since the buffer is full. -/
def overflows (act : Act) : Bool :=
  match sys.answer act with
  | .error _ => false
  | .ok events => events.any fun event =>
    match event with
    | .sendBufferFull _ => true
    | _ => false

/-- What is left in a buffer. -/
def bufferedOf (t : Option LogicalStream) : Bytes :=
  (t.map fun stream => stream.recvBuffer.flatten).getD []

/-- What `b` has in the buffer of a stream. -/
def buffered (streamId : StreamId) : Bytes :=
  bufferedOf (sys.b.streams.lookup streamId)

end System

end StreamMultiplexer

end Ipfrs
