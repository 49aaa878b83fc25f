import Ipfrs.Core.Block
import Ipfrs.Lib.ByteStream
import Ipfrs.Lib.WhileLoop

/-!
# The Arrow IPC stream deframer

The `ArrowStreamDeframer` of the transport crate (`ipfrs-transport/src/arrow_deframer.rs`): a state
machine with one state for each field of a frame, fed by `push` with pieces of any size. `data` and
`cursor` of the source are the bytes that are not consumed yet. The counters are natural numbers.

* `step` — one step of the state machine, with one function for each state;
* `push` — the loop, and what a failing step makes of it: the frames of the call are dropped;
* `pushAll` — a caller that pushes one piece after the other until the first error.
-/

namespace Ipfrs.Transport

inductive ArrowFrameType where
  | schema
  | recordBatch
  | dictionaryBatch
  | eosMarker
  deriving DecidableEq, Repr

structure ArrowFrame where
  metadata : Bytes
  body : Bytes
  frameType : ArrowFrameType
  sequence : ℕ
  deriving DecidableEq

/-- `DeframerError`. `UnexpectedEof` is never built. -/
inductive DeframerError where
  | invalidContinuationMarker (got : Bytes)
  | metadataTooLarge (size max : ℕ)
  | bodyTooLarge (size max : ℕ)
  deriving DecidableEq

/-- How a call of `push` can fail: with an error, or with the panic of `vec!` on a length that does
not fit in an `isize`. -/
inductive DeframerFault where
  | error (e : DeframerError)
  | panic (msg : String)
  deriving DecidableEq

/-- `CONTINUATION_MARKER`. -/
def continuationMarker : Bytes := [0xFF, 0xFF, 0xFF, 0xFF]

/-- `BODY_LEN_PENDING`, which is `u64::MAX`. -/
def bodyLenPending : ℕ := 2 ^ 64 - 1

/-- From this length on, `vec!` panics. -/
def capacityLimit : ℕ := 2 ^ 63

inductive DeframerState where
  | waitingForContinuation
  | readingMetadataLen (buf : Bytes) (read : ℕ)
  | readingMetadata (len : ℕ) (buf : Bytes) (read : ℕ)
  | readingBody (metadata : Bytes) (bodyLen : ℕ) (buf : Bytes) (read : ℕ)
  deriving DecidableEq

structure DeframerStats where
  totalBytesPushed : ℕ
  totalFramesComplete : ℕ
  totalErrors : ℕ
  totalResets : ℕ
  deriving DecidableEq

structure ArrowStreamDeframer where
  state : DeframerState
  contBuf : Bytes
  contRead : ℕ
  sequence : ℕ
  maxMetadataBytes : UInt32
  maxBodyBytes : UInt64
  stats : DeframerStats

namespace ArrowStreamDeframer

def withLimits (maxMetadataBytes : UInt32) (maxBodyBytes : UInt64) : ArrowStreamDeframer where
  state := .waitingForContinuation
  contBuf := List.replicate 4 0
  contRead := 0
  sequence := 0
  maxMetadataBytes := maxMetadataBytes
  maxBodyBytes := maxBodyBytes
  stats := ⟨0, 0, 0, 0⟩

def isIdle (df : ArrowStreamDeframer) : Bool :=
  df.state == .waitingForContinuation && df.contRead == 0

/-! ### One step -/

/-- A loop that stores bytes one by one in a buffer until `n` have been read: the buffer, the number
of bytes in it, and the bytes that are left. -/
def fillFixed (n : ℕ) (buf : Bytes) (read : ℕ) : Bytes → Bytes × ℕ × Bytes
  | [] => (buf, read, [])
  | b :: rest => if read < n then fillFixed n (buf.set read b) (read + 1) rest
      else (buf, read, b :: rest)

/-- The same loop with `push` on a vector. -/
def fillVec (n : ℕ) (buf : Bytes) (read : ℕ) : Bytes → Bytes × ℕ × Bytes
  | [] => (buf, read, [])
  | b :: rest => if read < n then fillVec n (buf ++ [b]) (read + 1) rest
      else (buf, read, b :: rest)

/-- `buf[read..read + take].copy_from_slice(..)` with as many of the `len - read` missing bytes as
there are. -/
def fillSlice (len : ℕ) (buf : Bytes) (read : ℕ) (rest : Bytes) : Bytes × ℕ × Bytes :=
  let take := min (len - read) rest.length
  (buf.take read ++ rest.take take ++ buf.drop (read + take), read + take, rest.drop take)

/-- What a step gives: a fault, a frame or nothing, the state after it, and the bytes that are
left. -/
abbrev StepResult := Except DeframerFault (Option ArrowFrame) × ArrowStreamDeframer × Bytes

variable (df : ArrowStreamDeframer) (rest : Bytes)

/-- A step that ends with an error: the machine waits for the next frame. -/
def stepError (e : DeframerError) : StepResult :=
  (.error (.error e),
    { df with
      state := .waitingForContinuation
      stats := { df.stats with totalErrors := df.stats.totalErrors + 1 } }, rest)

/-- A step that completes a frame. -/
def stepFrame (metadata body : Bytes) (frameType : ArrowFrameType) : StepResult :=
  (.ok (some ⟨metadata, body, frameType, df.sequence⟩),
    { df with state := .waitingForContinuation, sequence := df.sequence + 1 }, rest)

/-- `step` in `WaitingForContinuation`. -/
def stepContinuation : StepResult :=
  let (contBuf, contRead, rest) := fillFixed 4 df.contBuf df.contRead rest
  if contRead < 4 then (.ok none, { df with contBuf := contBuf, contRead := contRead }, rest)
  else
    let df := { df with contBuf := List.replicate 4 0, contRead := 0 }
    if contBuf ≠ continuationMarker then
      df.stepError rest (.invalidContinuationMarker contBuf)
    else (.ok none, { df with state := .readingMetadataLen (List.replicate 4 0) 0 }, rest)

/-- `step` in `ReadingMetadataLen`. -/
def stepMetadataLen (buf : Bytes) (read : ℕ) : StepResult :=
  let (buf, read, rest) := fillFixed 4 buf read rest
  if read < 4 then (.ok none, { df with state := .readingMetadataLen buf read }, rest)
  else
    let metaLen := LittleEndian.decode buf
    if metaLen = 0 then df.stepFrame rest [] [] .eosMarker
    else if metaLen > df.maxMetadataBytes.toNat then
      df.stepError rest (.metadataTooLarge metaLen df.maxMetadataBytes.toNat)
    else
      (.ok none, { df with state := .readingMetadata metaLen (List.replicate metaLen 0) 0 }, rest)

/-- `step` in `ReadingMetadata`. -/
def stepMetadata (len : ℕ) (buf : Bytes) (read : ℕ) : StepResult :=
  let (buf, read, rest) := fillSlice len buf read rest
  if read < len then (.ok none, { df with state := .readingMetadata len buf read }, rest)
  else (.ok none, { df with state := .readingBody buf bodyLenPending [] 0 }, rest)

/-- The second phase of `step` in `ReadingBody`. -/
def stepBody (metadata : Bytes) (bodyLen : ℕ) (buf : Bytes) (read : ℕ) : StepResult :=
  if bodyLen = 0 then df.stepFrame rest metadata [] .recordBatch
  else
    let (buf, read, rest) := fillSlice bodyLen buf read rest
    if read < bodyLen then
      (.ok none, { df with state := .readingBody metadata bodyLen buf read }, rest)
    else df.stepFrame rest metadata buf .recordBatch

/-- The first phase of `step` in `ReadingBody`. It goes on with the second one. -/
def stepBodyLen (metadata buf : Bytes) (read : ℕ) : StepResult :=
  let (buf, read, rest) := fillVec 8 buf read rest
  if read < 8 then
    (.ok none, { df with state := .readingBody metadata bodyLenPending buf read }, rest)
  else
    let bodyLen := LittleEndian.decode buf
    if bodyLen > df.maxBodyBytes.toNat then
      df.stepError rest (.bodyTooLarge bodyLen df.maxBodyBytes.toNat)
    else if capacityLimit ≤ bodyLen then
      (.error (.panic "capacity overflow"), { df with state := .waitingForContinuation }, rest)
    else df.stepBody rest metadata bodyLen (List.replicate bodyLen 0) 0

def step : StepResult :=
  match df.state with
  | .waitingForContinuation => df.stepContinuation rest
  | .readingMetadataLen buf read => df.stepMetadataLen rest buf read
  | .readingMetadata len buf read => df.stepMetadata rest len buf read
  | .readingBody metadata bodyLen buf read =>
    if bodyLen = bodyLenPending then df.stepBodyLen rest metadata buf read
    else df.stepBody rest metadata bodyLen buf read

/-! ### The loop -/

/-- What a call of `push` gives, and the deframer after it. -/
abbrev PushResult := Except DeframerFault (List ArrowFrame) × ArrowStreamDeframer

/-- The loop of `push`, with the deframer, the bytes that are left and the frames of this call. -/
def pushBody : ArrowStreamDeframer × Bytes × List ArrowFrame →
    (ArrowStreamDeframer × Bytes × List ArrowFrame) ⊕ PushResult
  | (df, [], frames) => .inr (.ok frames, df)
  | (df, b :: rest, frames) =>
    match df.step (b :: rest) with
    -- the `?` of the source: the frames of this call are dropped
    | (.error e, df, _) => .inr (.error e, df)
    | (.ok none, df, rest) => .inl (df, rest, frames)
    | (.ok (some frame), df, rest) =>
      .inl ({ df with
        stats := { df.stats with totalFramesComplete := df.stats.totalFramesComplete + 1 } },
        rest, frames ++ [frame])

/-- `push`. There are as many rounds as bytes at most. -/
def push (df : ArrowStreamDeframer) (data : Bytes) : Option PushResult :=
  WhileLoop.run pushBody (data.length + 1)
    ({ df with
      stats := { df.stats with totalBytesPushed := df.stats.totalBytesPushed + data.length } },
      data, [])

/-- Push one piece after the other until the first error: the frames that were returned, the error
if there was one, and the deframer then. -/
def pushAll (df : ArrowStreamDeframer) :
    List Bytes → Option (List ArrowFrame × Option DeframerFault × ArrowStreamDeframer)
  | [] => some ([], none, df)
  | piece :: pieces =>
    match df.push piece with
    | none => none
    | some (.error e, df) => some ([], some e, df)
    | some (.ok frames, df) =>
      (pushAll df pieces).map fun later => (frames ++ later.1, later.2)

end ArrowStreamDeframer

/-! ### Frames as bytes -/

def buildTestFrame (metadata body : Bytes) : Bytes :=
  continuationMarker ++ LittleEndian.encode 4 metadata.length ++ metadata ++
    LittleEndian.encode 8 body.length ++ body

def buildTestEos : Bytes := continuationMarker ++ LittleEndian.encode 4 0

end Ipfrs.Transport
