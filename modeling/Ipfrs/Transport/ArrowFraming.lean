import Ipfrs.Lib.Incremental
import Ipfrs.Transport.ArrowDeframer

/-!
# Deframing and the frame format

The frame format as a parser, one `take` for each field, and the state machine against it: each
state of the deframer has a parser for what is missing (`At`), and what the deframer holds is the
beginning of a frame (`Represents`).

* `stepped` — a step gives what the parser says of what is held and what is fed;
* `push_spec` — a call gives the frames of what is held and what is fed;
* `pushAll_encode` — deframing undoes framing, however the bytes are cut;
* `pushAll_independent_iff` — when the delivered frames do not depend on the cuts, also on malformed
  streams.
-/

namespace Ipfrs.Transport

open Incremental

/-! ### The frame format -/

/-- A frame without its number. -/
structure RawFrame where
  metadata : Bytes
  body : Bytes
  frameType : ArrowFrameType
  deriving DecidableEq

/-- The frame with its number. -/
def RawFrame.toArrowFrame (x : RawFrame) (sequence : ℕ) : ArrowFrame :=
  ⟨x.metadata, x.body, x.frameType, sequence⟩

/-- Frames with consecutive numbers. -/
def number : ℕ → List RawFrame → List ArrowFrame
  | _, [] => []
  | sequence, x :: xs => x.toArrowFrame sequence :: number (sequence + 1) xs

/-- A parser of frames. -/
abbrev FrameParser := Bytes → Parse UInt8 RawFrame DeframerFault

namespace Format

variable (maxMetadata : UInt32) (maxBody : UInt64)

/-- The body. -/
def body (metadata : Bytes) (len : ℕ) : FrameParser :=
  take len fun body rest => .item ⟨metadata, body, .recordBatch⟩ rest

/-- The length of the body, and what comes after it. -/
def bodyLen (metadata : Bytes) : FrameParser :=
  take 8 fun buf rest =>
    if LittleEndian.decode buf > maxBody.toNat then
      .fail (.error (.bodyTooLarge (LittleEndian.decode buf) maxBody.toNat))
    else if capacityLimit ≤ LittleEndian.decode buf then .fail (.panic "capacity overflow")
    else body metadata (LittleEndian.decode buf) rest

/-- The metadata, and what comes after it. -/
def metadata (len : ℕ) : FrameParser := take len (bodyLen maxBody)

/-- The length of the metadata, and what comes after it. -/
def metadataLen : FrameParser :=
  take 4 fun buf rest =>
    if LittleEndian.decode buf = 0 then .item ⟨[], [], .eosMarker⟩ rest
    else if LittleEndian.decode buf > maxMetadata.toNat then
      .fail (.error (.metadataTooLarge (LittleEndian.decode buf) maxMetadata.toNat))
    else metadata maxBody (LittleEndian.decode buf) rest

/-- A frame. -/
def frame : FrameParser :=
  take 4 fun marker rest =>
    if marker ≠ continuationMarker then .fail (.error (.invalidContinuationMarker marker))
    else metadataLen maxMetadata maxBody rest

theorem grows_body (m : Bytes) (len : ℕ) : Grows (body m len) :=
  grows_take fun _ => grows_item _

theorem grows_bodyLen (m : Bytes) : Grows (bodyLen maxBody m) :=
  grows_take fun _ => grows_ite (grows_fail _) (grows_ite (grows_fail _) (grows_body _ _))

theorem grows_metadataLen : Grows (metadataLen maxMetadata maxBody) :=
  grows_take fun _ => grows_ite (grows_item _)
    (grows_ite (grows_fail _) (grows_take (grows_bodyLen maxBody)))

theorem stable_frame : Stable (frame maxMetadata maxBody) :=
  stable_take (by decide) fun _ => grows_ite (grows_fail _) (grows_metadataLen _ _)

end Format

/-! ### Buffers -/

namespace ArrowStreamDeframer

variable {n : ℕ} {got a rest : Bytes}

/-- A buffer of `n` bytes that begins with those that were read. -/
def field (n : ℕ) (got : Bytes) : Bytes := got ++ List.replicate (n - got.length) 0

theorem field_of_length (h : got.length = n) : field n got = got := by
  rw [field, h, Nat.sub_self, List.replicate_zero, List.append_nil]

theorem set_field (h : got.length < n) (b : UInt8) :
    (field n got).set got.length b = field n (got ++ [b]) := by
  obtain ⟨k, hk⟩ : ∃ k, n - got.length = k + 1 := ⟨n - got.length - 1, by omega⟩
  have hk' : n - (got ++ [b]).length = k := by
    rw [List.length_append, List.length_singleton]
    omega
  rw [field, field, hk, hk', List.replicate_succ, List.set_append_right _ _ le_rfl, Nat.sub_self,
    List.set_cons_zero, List.append_assoc, List.singleton_append]

theorem fillFixed_short (h : (got ++ rest).length < n) :
    fillFixed n (field n got) got.length rest = (field n (got ++ rest), (got ++ rest).length, [])
    := by
  induction rest generalizing got with
  | nil => rw [fillFixed, List.append_nil]
  | cons b rest ih =>
    have hlt : got.length < n := by
      rw [List.length_append] at h
      omega
    have happ : got ++ b :: rest = (got ++ [b]) ++ rest := by simp
    have hread : got.length + 1 = (got ++ [b]).length := by simp
    rw [happ] at h ⊢
    rw [fillFixed, if_pos hlt, set_field hlt, hread]
    exact ih h

theorem fillFixed_full (h : (got ++ a).length = n) (rest : Bytes) :
    fillFixed n (field n got) got.length (a ++ rest) = (got ++ a, n, rest) := by
  induction a generalizing got with
  | nil =>
    rw [List.append_nil] at h ⊢
    rw [List.nil_append, field_of_length h]
    cases rest with
    | nil => rw [fillFixed, h]
    | cons b rest => rw [fillFixed, if_neg (by omega), h]
  | cons b a ih =>
    have hlt : got.length < n := by
      rw [List.length_append, List.length_cons] at h
      omega
    have happ : got ++ b :: a = (got ++ [b]) ++ a := by simp
    have hread : got.length + 1 = (got ++ [b]).length := by simp
    rw [happ] at h ⊢
    rw [List.cons_append, fillFixed, if_pos hlt, set_field hlt, hread]
    exact ih h

theorem fillVec_short (h : (got ++ rest).length < n) :
    fillVec n got got.length rest = (got ++ rest, (got ++ rest).length, []) := by
  induction rest generalizing got with
  | nil => rw [fillVec, List.append_nil]
  | cons b rest ih =>
    have hlt : got.length < n := by
      rw [List.length_append] at h
      omega
    have happ : got ++ b :: rest = (got ++ [b]) ++ rest := by simp
    have hread : got.length + 1 = (got ++ [b]).length := by simp
    rw [happ] at h ⊢
    rw [fillVec, if_pos hlt, hread]
    exact ih h

theorem fillVec_full (h : (got ++ a).length = n) (rest : Bytes) :
    fillVec n got got.length (a ++ rest) = (got ++ a, n, rest) := by
  induction a generalizing got with
  | nil =>
    rw [List.append_nil] at h ⊢
    cases rest with
    | nil => rw [List.append_nil, fillVec, h]
    | cons b rest => rw [List.nil_append, fillVec, if_neg (by omega), h]
  | cons b a ih =>
    have hlt : got.length < n := by
      rw [List.length_append, List.length_cons] at h
      omega
    have happ : got ++ b :: a = (got ++ [b]) ++ a := by simp
    have hread : got.length + 1 = (got ++ [b]).length := by simp
    rw [happ] at h ⊢
    rw [List.cons_append, fillVec, if_pos hlt, hread]
    exact ih h

theorem fillSlice_short (h : (got ++ rest).length < n) :
    fillSlice n (field n got) got.length rest = (field n (got ++ rest), (got ++ rest).length, [])
    := by
  rw [List.length_append] at h
  have hmin : min (n - got.length) rest.length = rest.length := by omega
  have hdrop : (field n got).drop (got.length + rest.length) =
      List.replicate (n - (got ++ rest).length) 0 := by
    rw [field, List.drop_append, List.drop_replicate, List.drop_eq_nil_of_le (by omega),
      List.nil_append, List.length_append]
    congr 1
    omega
  rw [fillSlice, hmin, hdrop, List.take_length, List.drop_length, field, List.take_left, field,
    List.length_append]

theorem fillSlice_full (h : (got ++ a).length = n) (rest : Bytes) :
    fillSlice n (field n got) got.length (a ++ rest) = (got ++ a, n, rest) := by
  have hlen := h
  rw [List.length_append] at hlen
  have hmin : min (n - got.length) (a ++ rest).length = a.length := by
    rw [List.length_append]
    omega
  have hdrop : (field n got).drop (got.length + a.length) = [] := by
    refine List.drop_eq_nil_of_le ?_
    rw [field, List.length_append, List.length_replicate]
    omega
  rw [fillSlice, hmin, hdrop, hlen, List.take_left, List.drop_left, List.append_nil, field,
    List.take_left]

theorem short_or_full (h : got.length < n) (rest : Bytes) :
    (got ++ rest).length < n ∨
      ∃ a rest', rest = a ++ rest' ∧ a ≠ [] ∧ (got ++ a).length = n := by
  by_cases hlt : (got ++ rest).length < n
  · exact Or.inl hlt
  · refine Or.inr ⟨rest.take (n - got.length), rest.drop (n - got.length),
      (List.take_append_drop _ _).symm, ?_, ?_⟩
    all_goals rw [List.length_append] at hlt
    · intro hnil
      have hlen := congrArg List.length hnil
      rw [List.length_take, List.length_nil] at hlen
      omega
    · rw [List.length_append, List.length_take]
      omega

/-! ### The state machine and the parser -/

variable {maxM : UInt32} {maxB : UInt64} {df df' : ArrowStreamDeframer} {pre pend : Bytes}
  {q : FrameParser}

/-- The machine has read `pre`, and `got` of the field that the parser `q` begins with. -/
inductive At (df : ArrowStreamDeframer) : Bytes → Bytes → FrameParser → Prop
  | continuation {got : Bytes} (hstate : df.state = .waitingForContinuation)
      (hbuf : df.contBuf = field 4 got) (hread : df.contRead = got.length)
      (hlt : got.length < 4) :
      At df [] got (Format.frame df.maxMetadataBytes df.maxBodyBytes)
  | metadataLen {pre got : Bytes} (hpre : pre ≠ [])
      (hstate : df.state = .readingMetadataLen (field 4 got) got.length)
      (hbuf : df.contBuf = field 4 []) (hread : df.contRead = 0) (hlt : got.length < 4) :
      At df pre got (Format.metadataLen df.maxMetadataBytes df.maxBodyBytes)
  | metadata {pre got : Bytes} {len : ℕ} (hpre : pre ≠ [])
      (hstate : df.state = .readingMetadata len (field len got) got.length)
      (hbuf : df.contBuf = field 4 []) (hread : df.contRead = 0) (hlt : got.length < len) :
      At df pre got (Format.metadata df.maxBodyBytes len)
  | bodyLen {pre got m : Bytes} (hpre : pre ≠ [])
      (hstate : df.state = .readingBody m bodyLenPending got got.length)
      (hbuf : df.contBuf = field 4 []) (hread : df.contRead = 0) (hlt : got.length < 8) :
      At df pre got (Format.bodyLen df.maxBodyBytes m)
  | body {pre got m : Bytes} {len : ℕ} (hpre : pre ≠ [])
      (hstate : df.state = .readingBody m len (field len got) got.length)
      (hbuf : df.contBuf = field 4 []) (hread : df.contRead = 0) (hlt : got.length < len)
      (hlen : len < capacityLimit) :
      At df pre got (Format.body m len)

/-- The machine, which has these limits, holds `pend`, the beginning of a frame. -/
structure Represents (maxM : UInt32) (maxB : UInt64) (df : ArrowStreamDeframer) (pend : Bytes) :
    Prop where
  maxMetadata : df.maxMetadataBytes = maxM
  maxBody : df.maxBodyBytes = maxB
  at_field : ∃ pre got q, pend = pre ++ got ∧ At df pre got q ∧
    ∀ rest, Format.frame maxM maxB (pre ++ rest) = q rest

theorem Represents.more (h : Represents maxM maxB df pend) :
    Format.frame maxM maxB pend = .more := by
  obtain ⟨pre, got, q, rfl, hat, hq⟩ := h.at_field
  rw [hq]
  cases hat with
  | continuation _ _ _ hlt => exact take_of_lt hlt
  | metadataLen _ _ _ _ hlt => exact take_of_lt hlt
  | metadata _ _ _ _ hlt => exact take_of_lt hlt
  | bodyLen _ _ _ _ hlt => exact take_of_lt hlt
  | body _ _ _ _ hlt _ => exact take_of_lt hlt

/-- **Idle** is to hold nothing. -/
theorem Represents.isIdle_iff (h : Represents maxM maxB df pend) : df.isIdle ↔ pend = [] := by
  obtain ⟨pre, got, q, rfl, hat, -⟩ := h.at_field
  rw [List.append_eq_nil_iff]
  cases hat with
  | continuation hstate _ hread _ => simp [isIdle, hstate, hread]
  | metadataLen hpre hstate _ _ _ => simp [isIdle, hstate, hpre]
  | metadata hpre hstate _ _ _ => simp [isIdle, hstate, hpre]
  | bodyLen hpre hstate _ _ _ => simp [isIdle, hstate, hpre]
  | body hpre hstate _ _ _ _ => simp [isIdle, hstate, hpre]

theorem represents_nil (hM : df.maxMetadataBytes = maxM) (hB : df.maxBodyBytes = maxB)
    (hstate : df.state = .waitingForContinuation) (hbuf : df.contBuf = field 4 [])
    (hread : df.contRead = 0) : Represents maxM maxB df [] := by
  subst hM hB
  exact ⟨rfl, rfl, [], [], _, rfl, .continuation hstate hbuf hread (by decide), fun _ => rfl⟩

theorem represents_withLimits (maxM : UInt32) (maxB : UInt64) :
    Represents maxM maxB (withLimits maxM maxB) [] :=
  represents_nil rfl rfl rfl rfl rfl

/-- What a step may give when `total` is what is held and what is fed. -/
inductive Stepped (maxM : UInt32) (maxB : UInt64) (df : ArrowStreamDeframer) (total : Bytes)
    (n : ℕ) : StepResult → Prop
  | next {df' : ArrowStreamDeframer} {pend rest : Bytes}
      (htotal : total = pend ++ rest) (hrep : Represents maxM maxB df' pend)
      (hlt : rest.length < n) (hseq : df'.sequence = df.sequence) (hstats : df'.stats = df.stats) :
      Stepped maxM maxB df total n (.ok none, df', rest)
  | frame {df' : ArrowStreamDeframer} {x : RawFrame} {rest : Bytes}
      (hitem : Format.frame maxM maxB total = .item x rest)
      (hrep : Represents maxM maxB df' []) (hlt : rest.length < n)
      (hseq : df'.sequence = df.sequence + 1) (hstats : df'.stats = df.stats) :
      Stepped maxM maxB df total n (.ok (some (x.toArrowFrame df.sequence)), df', rest)
  | fault {df' : ArrowStreamDeframer} {e : DeframerFault} {rest : Bytes}
      (hfail : Format.frame maxM maxB total = .fail e)
      (hrep : Represents maxM maxB df' [])
      (hstats : df'.stats.totalFramesComplete = df.stats.totalFramesComplete) :
      Stepped maxM maxB df total n (.error e, df', rest)

/-! ### One step -/

variable {total m bodyBytes : Bytes} {len : ℕ}

theorem length_lt_of_append (ha : a ≠ []) : rest.length < (a ++ rest).length := by
  rw [List.length_append]
  exact Nat.lt_add_of_pos_left (List.length_pos_iff.mpr ha)

theorem append_ne_nil (ha : a ≠ []) : got ++ a ≠ [] :=
  fun hnil => ha (List.append_eq_nil_iff.mp hnil).2

theorem Represents.mk_at (hM : df.maxMetadataBytes = maxM) (hB : df.maxBodyBytes = maxB)
    (hat : At df pre got q) (hq : ∀ rest, Format.frame maxM maxB (pre ++ rest) = q rest) :
    Represents maxM maxB df (pre ++ got) :=
  ⟨hM, hB, pre, got, q, rfl, hat, hq⟩

theorem Represents.mk_start (hM : df.maxMetadataBytes = maxM) (hB : df.maxBodyBytes = maxB)
    (hat : At df pre [] q) (hq : ∀ rest, Format.frame maxM maxB (pre ++ rest) = q rest) :
    Represents maxM maxB df pre :=
  ⟨hM, hB, pre, [], q, (List.append_nil pre).symm, hat, hq⟩

theorem stepped_stepError {e : DeframerError} (hM : df.maxMetadataBytes = maxM)
    (hB : df.maxBodyBytes = maxB) (hbuf : df.contBuf = field 4 []) (hread : df.contRead = 0)
    (hfail : Format.frame maxM maxB total = .fail (.error e)) :
    Stepped maxM maxB df total n (df.stepError rest e) :=
  .fault hfail (represents_nil hM hB rfl hbuf hread) rfl

theorem stepped_stepFrame {frameType : ArrowFrameType} (hM : df.maxMetadataBytes = maxM)
    (hB : df.maxBodyBytes = maxB) (hbuf : df.contBuf = field 4 []) (hread : df.contRead = 0)
    (hitem : Format.frame maxM maxB total = .item ⟨m, bodyBytes, frameType⟩ rest)
    (hlt : rest.length < n) :
    Stepped maxM maxB df total n (df.stepFrame rest m bodyBytes frameType) :=
  .frame hitem (represents_nil hM hB rfl hbuf hread) hlt rfl rfl

theorem stepped_continuation (hM : df.maxMetadataBytes = maxM) (hB : df.maxBodyBytes = maxB)
    (hstate : df.state = .waitingForContinuation) (hbuf : df.contBuf = field 4 got)
    (hread : df.contRead = got.length) (hlt : got.length < 4) (hrest : rest ≠ []) :
    Stepped maxM maxB df (got ++ rest) rest.length (df.stepContinuation rest) := by
  subst hM hB
  obtain hshort | ⟨a, rest, rfl, ha, hfull⟩ := short_or_full hlt rest
  · rw [stepContinuation, hbuf, hread, fillFixed_short hshort]
    dsimp only
    rw [if_pos hshort]
    refine .next (List.append_nil _).symm ?_ (List.length_pos_iff.mpr hrest) rfl rfl
    exact ⟨rfl, rfl, [], got ++ rest, _, rfl, .continuation hstate rfl rfl hshort, fun _ => rfl⟩
  · rw [stepContinuation, hbuf, hread, fillFixed_full hfull, ← List.append_assoc]
    dsimp only
    rw [if_neg (lt_irrefl 4)]
    by_cases hmarker : got ++ a = continuationMarker
    · rw [if_neg (not_not.mpr hmarker)]
      refine .next rfl ?_ (length_lt_of_append ha) rfl rfl
      refine .mk_start rfl rfl (.metadataLen (append_ne_nil ha) rfl rfl rfl (by decide)) ?_
      intro rest
      rw [Format.frame, take_append hfull, if_neg (not_not.mpr hmarker)]
    · rw [if_pos hmarker]
      refine .fault ?_ (represents_nil rfl rfl rfl rfl rfl) rfl
      rw [Format.frame, take_append hfull, if_pos hmarker]

theorem stepped_metadataLen (hM : df.maxMetadataBytes = maxM) (hB : df.maxBodyBytes = maxB)
    (hpre : pre ≠ []) (hbuf : df.contBuf = field 4 []) (hread : df.contRead = 0)
    (hlt : got.length < 4) (hrest : rest ≠ [])
    (hq : ∀ rest, Format.frame maxM maxB (pre ++ rest) = Format.metadataLen maxM maxB rest) :
    Stepped maxM maxB df (pre ++ got ++ rest) rest.length
      (df.stepMetadataLen rest (field 4 got) got.length) := by
  subst hM hB
  obtain hshort | ⟨a, rest, rfl, ha, hfull⟩ := short_or_full hlt rest
  · rw [stepMetadataLen, fillFixed_short hshort, List.append_assoc]
    dsimp only
    rw [if_pos hshort]
    exact .next (List.append_nil _).symm
      (.mk_at rfl rfl (.metadataLen hpre rfl hbuf hread hshort) hq)
      (List.length_pos_iff.mpr hrest) rfl rfl
  -- the parser, when the field is complete
  have hframe : ∀ rest, Format.frame df.maxMetadataBytes df.maxBodyBytes
      (pre ++ got ++ (a ++ rest)) = _ := fun rest => by
    rw [List.append_assoc, ← List.append_assoc got, hq, Format.metadataLen, take_append hfull]
  rw [stepMetadataLen, fillFixed_full hfull]
  dsimp only
  rw [if_neg (lt_irrefl 4)]
  by_cases hzero : LittleEndian.decode (got ++ a) = 0
  · rw [if_pos hzero]
    refine stepped_stepFrame rfl rfl hbuf hread ?_ (length_lt_of_append ha)
    rw [hframe, if_pos hzero]
  rw [if_neg hzero]
  by_cases hlarge : LittleEndian.decode (got ++ a) > df.maxMetadataBytes.toNat
  · rw [if_pos hlarge]
    refine stepped_stepError rfl rfl hbuf hread ?_
    rw [hframe, if_neg hzero, if_pos hlarge]
  · rw [if_neg hlarge]
    refine .next (List.append_assoc _ _ _).symm ?_ (length_lt_of_append ha) rfl rfl
    refine .mk_start rfl rfl
      (.metadata (append_ne_nil ha) rfl hbuf hread (Nat.pos_of_ne_zero hzero)) ?_
    intro rest
    rw [List.append_assoc, hframe, if_neg hzero, if_neg hlarge]

theorem stepped_metadata (hM : df.maxMetadataBytes = maxM) (hB : df.maxBodyBytes = maxB)
    (hpre : pre ≠ []) (hbuf : df.contBuf = field 4 []) (hread : df.contRead = 0)
    (hlt : got.length < len) (hrest : rest ≠ [])
    (hq : ∀ rest, Format.frame maxM maxB (pre ++ rest) = Format.metadata maxB len rest) :
    Stepped maxM maxB df (pre ++ got ++ rest) rest.length
      (df.stepMetadata rest len (field len got) got.length) := by
  subst hM hB
  obtain hshort | ⟨a, rest, rfl, ha, hfull⟩ := short_or_full hlt rest
  · rw [stepMetadata, fillSlice_short hshort, List.append_assoc]
    dsimp only
    rw [if_pos hshort]
    exact .next (List.append_nil _).symm (.mk_at rfl rfl (.metadata hpre rfl hbuf hread hshort) hq)
      (List.length_pos_iff.mpr hrest) rfl rfl
  · rw [stepMetadata, fillSlice_full hfull]
    dsimp only
    rw [if_neg (lt_irrefl len)]
    refine .next (List.append_assoc _ _ _).symm ?_ (length_lt_of_append ha) rfl rfl
    refine .mk_start rfl rfl (.bodyLen (append_ne_nil ha) rfl hbuf hread (by decide)) ?_
    intro rest
    rw [List.append_assoc, List.append_assoc, ← List.append_assoc got, hq, Format.metadata,
      take_append hfull]

/-- The body, which may be empty when its length has just been read. -/
theorem stepped_body (hM : df.maxMetadataBytes = maxM) (hB : df.maxBodyBytes = maxB)
    (hpre : pre ≠ []) (hbuf : df.contBuf = field 4 []) (hread : df.contRead = 0)
    (hlt : got.length < len ∨ got = [] ∧ len = 0) (hlen : len < capacityLimit)
    (hn : rest.length < n ∨ rest ≠ [] ∧ len ≠ 0 ∧ rest.length ≤ n)
    (hq : ∀ rest, Format.frame maxM maxB (pre ++ rest) = Format.body m len rest) :
    Stepped maxM maxB df (pre ++ got ++ rest) n
      (df.stepBody rest m len (field len got) got.length) := by
  subst hM hB
  obtain hlt | ⟨rfl, rfl⟩ := hlt
  · have hzero : len ≠ 0 := Nat.ne_zero_of_lt hlt
    -- the piece ends within the body, or the body within the piece
    obtain hshort | ⟨a, rest, rfl, ha, hfull⟩ := short_or_full hlt rest
    · rw [stepBody, if_neg hzero, fillSlice_short hshort, List.append_assoc]
      dsimp only
      rw [if_pos hshort]
      refine .next (List.append_nil _).symm
        (.mk_at rfl rfl (.body hpre rfl hbuf hread hshort hlen) hq) ?_ rfl rfl
      obtain hn | ⟨hrest, -, hn⟩ := hn
      · exact Nat.zero_lt_of_lt hn
      · exact lt_of_lt_of_le (List.length_pos_iff.mpr hrest) hn
    · rw [stepBody, if_neg hzero, fillSlice_full hfull]
      dsimp only
      rw [if_neg (lt_irrefl len)]
      refine stepped_stepFrame rfl rfl hbuf hread ?_ ?_
      · rw [List.append_assoc, ← List.append_assoc got, hq, Format.body, take_append hfull]
      · have hless : rest.length < (a ++ rest).length := length_lt_of_append ha
        omega
  · rw [stepBody, if_pos rfl]
    refine stepped_stepFrame rfl rfl hbuf hread ?_ ?_
    · rw [List.append_nil, hq]
      rfl
    · -- an empty body takes nothing from the piece
      obtain hn | ⟨-, hzero, -⟩ := hn
      · exact hn
      · exact absurd rfl hzero

theorem stepped_bodyLen (hM : df.maxMetadataBytes = maxM) (hB : df.maxBodyBytes = maxB)
    (hpre : pre ≠ []) (hbuf : df.contBuf = field 4 []) (hread : df.contRead = 0)
    (hlt : got.length < 8) (hrest : rest ≠ [])
    (hq : ∀ rest, Format.frame maxM maxB (pre ++ rest) = Format.bodyLen maxB m rest) :
    Stepped maxM maxB df (pre ++ got ++ rest) rest.length
      (df.stepBodyLen rest m got got.length) := by
  subst hM hB
  obtain hshort | ⟨a, rest, rfl, ha, hfull⟩ := short_or_full hlt rest
  · rw [stepBodyLen, fillVec_short hshort, List.append_assoc]
    dsimp only
    rw [if_pos hshort]
    exact .next (List.append_nil _).symm (.mk_at rfl rfl (.bodyLen hpre rfl hbuf hread hshort) hq)
      (List.length_pos_iff.mpr hrest) rfl rfl
  -- the parser, when the field is complete
  have hframe : ∀ rest, Format.frame df.maxMetadataBytes df.maxBodyBytes
      (pre ++ got ++ (a ++ rest)) = _ := fun rest => by
    rw [List.append_assoc, ← List.append_assoc got, hq, Format.bodyLen, take_append hfull]
  rw [stepBodyLen, fillVec_full hfull]
  dsimp only
  rw [if_neg (lt_irrefl 8)]
  by_cases hlarge : LittleEndian.decode (got ++ a) > df.maxBodyBytes.toNat
  · rw [if_pos hlarge]
    refine stepped_stepError rfl rfl hbuf hread ?_
    rw [hframe, if_pos hlarge]
  rw [if_neg hlarge]
  by_cases hcap : capacityLimit ≤ LittleEndian.decode (got ++ a)
  · rw [if_pos hcap]
    refine .fault ?_ (represents_nil rfl rfl rfl hbuf hread) rfl
    rw [hframe, if_neg hlarge, if_pos hcap]
  · -- the same step goes on with the body
    rw [if_neg hcap, ← List.append_assoc (pre ++ got), ← List.append_nil (pre ++ got ++ a)]
    refine stepped_body rfl rfl (append_ne_nil ha) hbuf hread ?_ (not_le.mp hcap)
      (Or.inl (length_lt_of_append ha)) ?_
    · exact (Nat.eq_zero_or_pos _).symm.imp_right fun hzero => ⟨rfl, hzero⟩
    · intro rest
      rw [List.append_assoc, hframe, if_neg hlarge, if_neg hcap]

/-- **One step** gives what the parser says of what is held and what is fed. -/
theorem stepped (h : Represents maxM maxB df pend) (hrest : rest ≠ []) :
    Stepped maxM maxB df (pend ++ rest) rest.length (df.step rest) := by
  obtain ⟨rfl, rfl, pre, got, q, rfl, hat, hq⟩ := h
  have hpending : ∀ {len}, len < capacityLimit → len ≠ bodyLenPending := by
    rintro _ hlen rfl
    exact absurd hlen (by decide)
  unfold step
  cases hat with
  | continuation hstate hbuf hread hlt =>
    rw [hstate]
    exact stepped_continuation rfl rfl hstate hbuf hread hlt hrest
  | metadataLen hpre hstate hbuf hread hlt =>
    rw [hstate]
    exact stepped_metadataLen rfl rfl hpre hbuf hread hlt hrest hq
  | metadata hpre hstate hbuf hread hlt =>
    rw [hstate]
    exact stepped_metadata rfl rfl hpre hbuf hread hlt hrest hq
  | bodyLen hpre hstate hbuf hread hlt =>
    rw [hstate]
    dsimp only
    rw [if_pos rfl]
    exact stepped_bodyLen rfl rfl hpre hbuf hread hlt hrest hq
  | body hpre hstate hbuf hread hlt hlen =>
    rw [hstate]
    dsimp only
    rw [if_neg (hpending hlen)]
    exact stepped_body rfl rfl hpre hbuf hread (Or.inl hlt) hlen
      (Or.inr ⟨hrest, Nat.ne_zero_of_lt hlt, le_rfl⟩) hq

/-! ### A call -/

variable {sequence count : ℕ} {frames : List ArrowFrame} {x : RawFrame} {xs ys : List RawFrame}
  {r : PushResult} {fuel : ℕ}

theorem length_number (sequence : ℕ) (xs : List RawFrame) :
    (number sequence xs).length = xs.length := by
  induction xs generalizing sequence with
  | nil => rfl
  | cons x xs ih => rw [number, List.length_cons, List.length_cons, ih]

theorem number_append (sequence : ℕ) (xs ys : List RawFrame) :
    number sequence (xs ++ ys) = number sequence xs ++ number (sequence + xs.length) ys := by
  induction xs generalizing sequence with
  | nil => rfl
  | cons x xs ih =>
    rw [List.cons_append, number, number, ih, List.cons_append, List.length_cons, Nat.add_assoc,
      Nat.add_comm 1]

theorem Represents.with_stats (h : Represents maxM maxB df pend) (stats : DeframerStats) :
    Represents maxM maxB { df with stats := stats } pend := by
  obtain ⟨hM, hB, pre, got, q, hpend, hat, hq⟩ := h
  refine ⟨hM, hB, pre, got, q, hpend, ?_, hq⟩
  cases hat with
  | continuation hstate hbuf hread hlt => exact .continuation hstate hbuf hread hlt
  | metadataLen hpre hstate hbuf hread hlt => exact .metadataLen hpre hstate hbuf hread hlt
  | metadata hpre hstate hbuf hread hlt => exact .metadata hpre hstate hbuf hread hlt
  | bodyLen hpre hstate hbuf hread hlt => exact .bodyLen hpre hstate hbuf hread hlt
  | body hpre hstate hbuf hread hlt hlen => exact .body hpre hstate hbuf hread hlt hlen

/-- What a call may give after `frames` when the parser says `out`, from the number `sequence` and
with `count` frames so far. -/
inductive Pushed (maxM : UInt32) (maxB : UInt64) (sequence count : ℕ) (frames : List ArrowFrame) :
    List RawFrame × (Bytes ⊕ DeframerFault) → PushResult → Prop
  | ok {xs : List RawFrame} {pend : Bytes} {df' : ArrowStreamDeframer}
      (hrep : Represents maxM maxB df' pend) (hseq : df'.sequence = sequence + xs.length)
      (hcount : df'.stats.totalFramesComplete = count + xs.length) :
      Pushed maxM maxB sequence count frames (xs, .inl pend)
        (.ok (frames ++ number sequence xs), df')
  | error {xs : List RawFrame} {e : DeframerFault} {df' : ArrowStreamDeframer}
      (hrep : Represents maxM maxB df' [])
      (hcount : df'.stats.totalFramesComplete = count + xs.length) :
      Pushed maxM maxB sequence count frames (xs, .inr e) (.error e, df')

theorem Pushed.cons {fin : Bytes ⊕ DeframerFault}
    (h : Pushed maxM maxB (sequence + 1) (count + 1) (frames ++ [x.toArrowFrame sequence])
      (xs, fin) r) : Pushed maxM maxB sequence count frames (x :: xs, fin) r := by
  have hlen : ∀ k, k + 1 + xs.length = k + (x :: xs).length := fun k => by
    rw [List.length_cons, Nat.add_assoc, Nat.add_comm 1]
  cases h with
  | ok hrep hseq hcount =>
    rw [List.append_assoc, List.singleton_append]
    exact .ok hrep (hseq.trans (hlen _)) (hcount.trans (hlen _))
  | error hrep hcount => exact .error hrep (hcount.trans (hlen _))

theorem run_pushBody (h : Represents maxM maxB df pend) (hfuel : rest.length < fuel)
    (frames : List ArrowFrame) :
    ∃ r, WhileLoop.run pushBody fuel (df, rest, frames) = some r ∧
      Pushed maxM maxB df.sequence df.stats.totalFramesComplete frames
        (parseAll (Format.frame maxM maxB) (pend ++ rest)) r := by
  have hstable := Format.stable_frame maxM maxB
  induction fuel generalizing df pend rest frames with
  | zero => exact absurd hfuel (Nat.not_lt_zero _)
  | succ fuel ih =>
    cases rest with
    | nil =>
      refine ⟨(.ok frames, df), WhileLoop.run_succ_of_done rfl fuel, ?_⟩
      -- the piece has been used up
      have hpushed : Pushed maxM maxB df.sequence df.stats.totalFramesComplete frames
          ([], .inl pend) (.ok (frames ++ number df.sequence []), df) := .ok h rfl rfl
      rw [number, List.append_nil] at hpushed
      rwa [List.append_nil, parseAll_of_more hstable h.more]
    | cons b rest =>
      have hstep := stepped h (List.cons_ne_nil b rest)
      cases hresult : df.step (b :: rest) with
      | mk outcome after =>
      rw [hresult] at hstep
      cases hstep with
      | next htotal hrep hlt hseq hstats =>
        rw [htotal, ← hseq, ← hstats, WhileLoop.run_succ_of_next (by rw [pushBody, hresult])]
        exact ih hrep (lt_of_lt_of_le hlt (Nat.le_of_lt_succ hfuel)) frames
      | frame hitem hrep hlt hseq hstats =>
        rw [parseAll_of_item hstable hitem,
          WhileLoop.run_succ_of_next (by rw [pushBody, hresult])]
        -- the other frames get the numbers behind this one
        obtain ⟨r, hrun, hpushed⟩ := ih (hrep.with_stats _)
          (lt_of_lt_of_le hlt (Nat.le_of_lt_succ hfuel)) (frames ++ [_])
        refine ⟨r, hrun, .cons ?_⟩
        dsimp only at hpushed
        rw [hseq, hstats] at hpushed
        exact hpushed
      | fault hfail hrep hstats =>
        rw [parseAll_of_fail hstable hfail,
          WhileLoop.run_succ_of_done (by rw [pushBody, hresult])]
        exact ⟨_, rfl, .error hrep hstats⟩

/-- **A call** gives the frames of what is held and what is fed, or the first error. -/
theorem push_spec (h : Represents maxM maxB df pend) (data : Bytes) :
    ∃ r, df.push data = some r ∧
      Pushed maxM maxB df.sequence df.stats.totalFramesComplete []
        (parseAll (Format.frame maxM maxB) (pend ++ data)) r :=
  run_pushBody (h.with_stats _) (Nat.lt_succ_self _) []

/-! ### All calls -/

/-- **All calls** together give the frames that the parser delivers piece by piece, and all frames
before the first error are counted. -/
theorem pushAll_spec (h : Represents maxM maxB df pend) (pieces : List Bytes) :
    ∃ df', df.pushAll pieces = some
        (number df.sequence (deliver (Format.frame maxM maxB) pend pieces).1,
          (deliver (Format.frame maxM maxB) pend pieces).2.elim (fun _ => none) some, df') ∧
      Represents maxM maxB df'
        ((deliver (Format.frame maxM maxB) pend pieces).2.elim id fun _ => []) ∧
      df'.stats.totalFramesComplete = df.stats.totalFramesComplete +
        (parseAll (Format.frame maxM maxB) (pend ++ pieces.flatten)).1.length := by
  have hstable := Format.stable_frame maxM maxB
  induction pieces generalizing df pend with
  | nil =>
    refine ⟨df, rfl, h, ?_⟩
    rw [List.flatten_nil, List.append_nil, parseAll_of_more hstable h.more]
    rfl
  | cons piece pieces ih =>
    obtain ⟨r, hpush, hpushed⟩ := push_spec h piece
    rw [pushAll, hpush, deliver, List.flatten_cons, ← List.append_assoc]
    rcases hpiece : parseAll (Format.frame maxM maxB) (pend ++ piece) with ⟨xs, pend' | e⟩
    · rw [hpiece] at hpushed
      cases hpushed with
      | ok hrep hseq hcount =>
        -- the next piece finds what this one has left
        obtain ⟨df', hrun, hrep', hcount'⟩ := ih hrep
        refine ⟨df', ?_, hrep', ?_⟩
        · dsimp only
          rw [hrun, Option.map_some, hseq, number_append, List.nil_append]
        · rw [hcount', hcount, parseAll_append hstable hpiece, List.length_append, Nat.add_assoc]
    · rw [hpiece] at hpushed
      cases hpushed with
      | error hrep hcount =>
        exact ⟨_, rfl, hrep, by rw [hcount, parseAll_append_fail hstable hpiece]⟩

end ArrowStreamDeframer

/-! ### Deframing undoes framing -/

/-- What the builders make bytes of. -/
inductive TestFrame where
  | frame (metadata body : Bytes)
  | eos

namespace TestFrame

/-- The bytes. -/
def encode : TestFrame → Bytes
  | .frame metadata body => buildTestFrame metadata body
  | .eos => buildTestEos

/-- The frame, without its number. -/
def toRawFrame : TestFrame → RawFrame
  | .frame metadata body => ⟨metadata, body, .recordBatch⟩
  | .eos => ⟨[], [], .eosMarker⟩

/-- The lengths are within the limits. No vector has `capacityLimit` bytes. -/
def Fits (maxM : UInt32) (maxB : UInt64) : TestFrame → Prop
  | .frame metadata body =>
    1 ≤ metadata.length ∧ metadata.length ≤ maxM.toNat ∧ body.length ≤ maxB.toNat ∧
      body.length < capacityLimit
  | .eos => True

variable {maxM : UInt32} {maxB : UInt64} {f : TestFrame}

theorem length_continuationMarker : continuationMarker.length = 4 := rfl

/-- **The encoding of a frame** is parsed as this frame. -/
theorem frame_encode (h : f.Fits maxM maxB) (rest : Bytes) :
    Format.frame maxM maxB (f.encode ++ rest) = .item f.toRawFrame rest := by
  cases f with
  | eos =>
    rw [encode, buildTestEos, List.append_assoc, Format.frame,
      take_append length_continuationMarker, if_neg (not_not.mpr rfl), Format.metadataLen,
      take_append (LittleEndian.length_encode 4 0)]
    rfl
  | frame metadata body =>
    obtain ⟨hpos, hmetadata, hbody, hcap⟩ := h
    have hmlen : LittleEndian.decode (LittleEndian.encode 4 metadata.length) = metadata.length := by
      rw [LittleEndian.decode_encode]
      exact Nat.mod_eq_of_lt (lt_of_le_of_lt hmetadata maxM.toNat_lt)
    have hblen : LittleEndian.decode (LittleEndian.encode 8 body.length) = body.length := by
      rw [LittleEndian.decode_encode]
      exact Nat.mod_eq_of_lt (lt_of_le_of_lt hbody maxB.toNat_lt)
    rw [encode, buildTestFrame]
    simp only [List.append_assoc]
    -- field by field
    rw [Format.frame, take_append length_continuationMarker, if_neg (not_not.mpr rfl),
      Format.metadataLen, take_append (LittleEndian.length_encode _ _), hmlen,
      if_neg (Nat.ne_zero_of_lt hpos), if_neg (not_lt.mpr hmetadata), Format.metadata,
      take_append rfl, Format.bodyLen, take_append (LittleEndian.length_encode _ _), hblen,
      if_neg (not_lt.mpr hbody), if_neg (not_le.mpr hcap), Format.body, take_append rfl]
    rfl

theorem parseAll_encode {frames : List TestFrame} (h : ∀ f ∈ frames, f.Fits maxM maxB) :
    parseAll (Format.frame maxM maxB) (frames.map encode).flatten =
      (frames.map toRawFrame, .inl []) := by
  have hstable := Format.stable_frame maxM maxB
  induction frames with
  | nil => exact parseAll_of_more hstable hstable.nil
  | cons f frames ih =>
    have hitem := frame_encode (h f List.mem_cons_self) (frames.map encode).flatten
    rw [List.map_cons, List.flatten_cons, parseAll_of_item hstable hitem,
      ih fun g hg => h g (List.mem_cons_of_mem f hg)]
    rfl

end TestFrame

namespace ArrowStreamDeframer

variable (maxM : UInt32)

/-- **Deframing undoes framing**, however the bytes are cut: the calls together return the frames,
with the numbers from `0` on, and the deframer is idle at the end. -/
theorem pushAll_encode (maxB : UInt64) {frames : List TestFrame}
    (hfits : ∀ f ∈ frames, f.Fits maxM maxB) {pieces : List Bytes}
    (hpieces : pieces.flatten = (frames.map TestFrame.encode).flatten) :
    ∃ df, (withLimits maxM maxB).pushAll pieces =
        some (number 0 (frames.map TestFrame.toRawFrame), none, df) ∧ df.isIdle := by
  have hstable := Format.stable_frame maxM maxB
  obtain ⟨df, hrun, hrep, -⟩ := pushAll_spec (represents_withLimits maxM maxB) pieces
  obtain ⟨hfin, hitems⟩ := deliver_spec pieces hstable hstable.nil
  rw [List.nil_append, hpieces, TestFrame.parseAll_encode hfits] at hfin hitems
  rw [hitems [] rfl, hfin] at hrun
  rw [hfin] at hrep
  exact ⟨df, hrun, hrep.isIdle_iff.mpr rfl⟩

/-- A frame with a body, one without and an end-of-stream marker, cut inside the fields. -/
theorem pushAll_encode_three :
    ∃ df, (withLimits 8 8).pushAll
        [[0xFF, 0xFF], [], [0xFF, 0xFF, 1, 0, 0], [0, 7, 2, 0], [0, 0, 0, 0, 0, 0, 5], [6, 0xFF],
          [0xFF, 0xFF, 0xFF, 1, 0, 0, 0, 9, 0, 0, 0, 0, 0, 0, 0, 0],
          [0xFF, 0xFF, 0xFF, 0xFF, 0, 0, 0, 0]] =
      some (number 0 ([.frame [7] [5, 6], .frame [9] [], .eos].map TestFrame.toRawFrame), none,
        df) ∧ df.isIdle := by
  refine pushAll_encode 8 8 ?_ ?_
  · intro f hf
    rcases List.mem_cons.mp hf with rfl | hf
    · exact ⟨by decide, by decide, by decide, by decide⟩
    rcases List.mem_cons.mp hf with rfl | hf
    · exact ⟨by decide, by decide, by decide, by decide⟩
    obtain rfl := List.mem_singleton.mp hf
    trivial
  · decide

/-! ### Malformed streams -/

/-- Both ways of cutting give the same frames up to the first error, and as many as are counted. -/
def Independent (maxB : UInt64) (pieces pieces' : List Bytes) : Prop :=
  ∃ r r', (withLimits maxM maxB).pushAll pieces = some r ∧
    (withLimits maxM maxB).pushAll pieces' = some r' ∧ r.1 = r'.1 ∧
    r.1.length = r.2.2.stats.totalFramesComplete ∧ r'.1.length = r'.2.2.stats.totalFramesComplete

/-- **As many frames are delivered as are counted** if and only if no frame ends in the piece with
the first error. -/
theorem length_deliver_iff (maxB : UInt64) (pieces : List Bytes) :
    (deliver (Format.frame maxM maxB) [] pieces).1.length =
        (parseAll (Format.frame maxM maxB) pieces.flatten).1.length ↔
      Clean (Format.frame maxM maxB) [] pieces := by
  have hstable := Format.stable_frame maxM maxB
  rw [← deliver_eq_iff hstable hstable.nil]
  exact ⟨(deliver_prefix_parseAll hstable hstable.nil).eq_of_length,
    fun h => congrArg List.length h⟩

/-- **Two ways of cutting** give the same frames, and as many as are counted, if and only if in both
no frame ends in the piece with the first error. -/
theorem pushAll_independent_iff (maxB : UInt64) {pieces pieces' : List Bytes}
    (h : pieces.flatten = pieces'.flatten) :
    Independent maxM maxB pieces pieces' ↔
      Clean (Format.frame maxM maxB) [] pieces ∧ Clean (Format.frame maxM maxB) [] pieces' := by
  have hstable := Format.stable_frame maxM maxB
  obtain ⟨df, hrun, -, hcount⟩ := pushAll_spec (represents_withLimits maxM maxB) pieces
  obtain ⟨df', hrun', -, hcount'⟩ := pushAll_spec (represents_withLimits maxM maxB) pieces'
  -- the counter starts at `0`
  rw [List.nil_append, withLimits, Nat.zero_add] at hcount hcount'
  constructor
  · rintro ⟨r, r', hr, hr', -, hlen, hlen'⟩
    rw [hrun, Option.some.injEq] at hr
    rw [hrun', Option.some.injEq] at hr'
    subst hr hr'
    rw [length_number, hcount] at hlen
    rw [length_number, hcount'] at hlen'
    exact ⟨(length_deliver_iff maxM maxB pieces).mp hlen,
      (length_deliver_iff maxM maxB pieces').mp hlen'⟩
  · rintro ⟨hclean, hclean'⟩
    have hitems := (deliver_eq_iff hstable hstable.nil).mpr hclean
    have hitems' := (deliver_eq_iff hstable hstable.nil).mpr hclean'
    refine ⟨_, _, hrun, hrun', ?_, ?_, ?_⟩
    · rw [hitems, hitems', h]
    · rw [length_number, hcount]
      exact (length_deliver_iff maxM maxB pieces).mpr hclean
    · rw [length_number, hcount']
      exact (length_deliver_iff maxM maxB pieces').mpr hclean'

theorem pushAll_independent_two :
    Independent 8 8 [buildTestFrame [7] [], [0, 0, 0, 0]]
        [buildTestFrame [7] [], [], [0, 0, 0, 0]] ↔
      Clean (Format.frame 8 8) [] [buildTestFrame [7] [], [0, 0, 0, 0]] ∧
        Clean (Format.frame 8 8) [] [buildTestFrame [7] [], [], [0, 0, 0, 0]] :=
  pushAll_independent_iff 8 8 rfl

/-- A frame that is complete before the error, in one call with it. -/
theorem not_forall_independent :
    ¬ ∀ (maxM : UInt32) (maxB : UInt64) (pieces pieces' : List Bytes),
      pieces.flatten = pieces'.flatten → Independent maxM maxB pieces pieces' := by
  intro h
  obtain ⟨r, r', hr, hr', hframes, -⟩ := h 8 8 [buildTestFrame [7] [] ++ [0, 0, 0, 0]]
    [buildTestFrame [7] [], [0, 0, 0, 0]] rfl
  have hone : ((withLimits 8 8).pushAll [buildTestFrame [7] [] ++ [0, 0, 0, 0]]).map (·.1) =
      some [] := by decide
  have htwo : ((withLimits 8 8).pushAll [buildTestFrame [7] [], [0, 0, 0, 0]]).map (·.1) =
      some [⟨[7], [], .recordBatch, 0⟩] := by decide
  rw [hr] at hone
  rw [hr'] at htwo
  rw [Option.map_some, Option.some.injEq] at hone htwo
  rw [← hframes, hone] at htwo
  cases htwo

end ArrowStreamDeframer

end Ipfrs.Transport
