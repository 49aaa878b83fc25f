import Mathlib.Data.List.DropRight
import Ipfrs.Core.Fnv
import Ipfrs.Lib.ByteStream
import Ipfrs.Lib.Repeats

/-!
# The compression pipeline

`ScpStorageCompressionPipeline` (`ipfrs-storage/src/storage_compression_pipeline.rs`): a list of
stages, each of which applies an algorithm to what the stage before it has left, and a checksum
behind the last one. A block is taken apart again from the names of the stages that were applied,
which is all that it says about them.

Ratios are floating-point numbers, and are left out with the statistics about them.

* `rleDecode_rleEncode`, `lz77Decode_lz77Encode`, `deltaDecode_deltaEncode`,
  `xorTransform_xorTransform` — the round trips of the algorithms;
* `unapply_apply` — the round trip of a stage, by way of its name;
* `decompress_compress` — the round trip of the pipeline.
-/

namespace Ipfrs

/-- The `hex` crate. -/
class HexCrate where
  encode : Bytes → String
  decode : String → Except String Bytes

/-- The documented behaviour of the `hex` crate: lower-case digits, which decode to what has been
encoded. -/
class LawfulHexCrate [HexCrate] : Prop where
  decode_encode : ∀ data, HexCrate.decode (HexCrate.encode data) = .ok data
  encode_digits : ∀ data, ∀ ch ∈ (HexCrate.encode data).toList, ch ∈ "0123456789abcdef".toList

inductive ScpCompressionAlgorithm where
  | none
  | rle
  | lz77 (windowSize : ℕ)
  | delta (baseValue : UInt8)
  | xor (key : Bytes)
  deriving DecidableEq, Repr

structure CompressionStage where
  algorithm : ScpCompressionAlgorithm
  enabled : Bool
  minSizeBytes : ℕ
  deriving DecidableEq, Repr

structure ScpPipelineConfig where
  stages : List CompressionStage
  maxInputSize : ℕ
  enableChecksum : Bool
  deriving DecidableEq, Repr

structure CompressedBlock where
  originalSize : ℕ
  compressedSize : ℕ
  stagesApplied : List String
  data : Bytes
  checksum : UInt64
  deriving DecidableEq, Repr

inductive ScpPipelineError where
  | inputTooLarge (size : ℕ)
  | decompressionFailed (message : String)
  | checksumMismatch (expected got : UInt64)
  | invalidConfiguration (message : String)
  deriving DecidableEq, Repr

namespace ScpStorageCompressionPipeline

/-! ### Runs -/

/-- The loop of `rle_encode`, on what is left of the data. Every round takes a byte at least. -/
def rleRounds : ℕ → Bytes → Bytes
  | 0, _ => []
  | _ + 1, [] => []
  | fuel + 1, byte :: rest =>
    -- a count that has started with 1 goes up to 255
    let more := Repeats.runLength byte 254 rest
    UInt8.ofNat (1 + more) :: byte :: rleRounds fuel (rest.drop more)

def rleEncode (data : Bytes) : Bytes := rleRounds data.length data

/-- The loop of `rle_decode`. -/
def rlePairs : Bytes → Except ScpPipelineError Bytes
  | count :: byte :: rest =>
    if count = 0 then .error (.decompressionFailed "RLE stream contains zero-count run")
    else (rlePairs rest).map (List.replicate count.toNat byte ++ ·)
  | _ => .ok []

def rleDecode (data : Bytes) : Except ScpPipelineError Bytes :=
  if data.length % 2 ≠ 0 then .error (.decompressionFailed "RLE stream has odd length")
  else rlePairs data

/-! ### Back-references -/

/-- `LZ77_FLAG_LITERAL`. -/
def lz77FlagLiteral : UInt8 := 0x00

/-- `LZ77_FLAG_MATCH`. -/
def lz77FlagMatch : UInt8 := 0x01

/-- `LZ77_MIN_MATCH`. -/
def lz77MinMatch : ℕ := 3

/-- The offset and the length of what matches the data at `pos` from `start` on. -/
def lz77Candidate (data : Bytes) (pos start : ℕ) : ℕ × ℕ :=
  let lookaheadEnd := min (pos + 258) data.length
  -- a copy does not run past `pos`
  let maxLen := min (pos - start) (lookaheadEnd - pos)
  let maxLen := min maxLen (255 + lz77MinMatch - 1)
  (pos - start, Repeats.matchLength maxLen (data.drop start) (data.drop pos))

/-- The search of `lz77_encode` in the window before `pos`: the first of the longest matches. -/
def lz77Search (data : Bytes) (effectiveWindow pos : ℕ) : ℕ × ℕ :=
  let windowStart := pos - effectiveWindow
  (List.range' windowStart (pos - windowStart)).foldl
    (fun best start =>
      if (lz77Candidate data pos start).2 > best.2 then lz77Candidate data pos start else best)
    (0, 0)

/-- The loop of `lz77_encode`, from `pos` on. Every round takes a byte at least. -/
def lz77Rounds (data : Bytes) (effectiveWindow : ℕ) : ℕ → ℕ → Bytes
  | 0, _ => []
  | fuel + 1, pos =>
    if hpos : pos < data.length then
      let best := lz77Search data effectiveWindow pos
      if best.2 ≥ lz77MinMatch ∧ best.1 ≤ 65535 then
        let storedLen := UInt8.ofNat (best.2 - lz77MinMatch)
        let offset := UInt16.ofNat best.1
        lz77FlagMatch :: (offset &&& 0xFF).toUInt8 :: (offset >>> 8).toUInt8 :: storedLen ::
          lz77Rounds data effectiveWindow fuel (pos + best.2)
      else lz77FlagLiteral :: data[pos] :: lz77Rounds data effectiveWindow fuel (pos + 1)
    else []

def lz77Encode (data : Bytes) (windowSize : ℕ) : Bytes :=
  lz77Rounds data (min windowSize 65535) data.length 0

/-- `{:#x}`. -/
def hexLiteral (n : ℕ) : String := "0x" ++ String.ofList (Nat.toDigits 16 n)

/-- The loop of `lz77_decode`, on what is left of the tokens, with the output so far. -/
def lz77Tokens : Bytes → Bytes → Except ScpPipelineError Bytes
  | [], out => .ok out
  | flag :: rest, out =>
    if flag = lz77FlagLiteral then
      match rest with
      | [] => .error (.decompressionFailed "LZ77 stream truncated after literal flag")
      | byte :: rest => lz77Tokens rest (out ++ [byte])
    else if flag = lz77FlagMatch then
      match rest with
      | offsetLo :: offsetHi :: storedLen :: rest =>
        let offset := offsetLo.toNat ||| (offsetHi.toNat <<< 8)
        let length := storedLen.toNat + lz77MinMatch
        if offset = 0 then .error (.decompressionFailed "LZ77 back-reference has zero offset")
        else if offset > out.length then
          .error (.decompressionFailed ("LZ77 back-reference offset " ++ toString offset ++
            " > output length " ++ toString out.length))
        else lz77Tokens rest (Repeats.copyBack 0 out offset length)
      | _ => .error (.decompressionFailed "LZ77 stream truncated inside back-reference")
    else .error (.decompressionFailed ("LZ77 unknown flag byte: " ++ hexLiteral flag.toNat))

def lz77Decode (data : Bytes) : Except ScpPipelineError Bytes := lz77Tokens data []

/-! ### Differences, and keys -/

/-- The loop of `delta_encode`. -/
def deltaDifferences : UInt8 → Bytes → Bytes
  | _, [] => []
  | prev, b :: rest => (b - prev) :: deltaDifferences b rest

def deltaEncode (data : Bytes) (base : UInt8) : Bytes :=
  match data with
  | [] => []
  | first :: rest => (first - base) :: deltaDifferences first rest

/-- The loop of `delta_decode`. -/
def deltaSums : UInt8 → Bytes → Bytes
  | _, [] => []
  | prev, d :: rest => (d + prev) :: deltaSums (d + prev) rest

def deltaDecode (data : Bytes) (base : UInt8) : Bytes :=
  match data with
  | [] => []
  | first :: rest => (first + base) :: deltaSums (first + base) rest

def xorTransform (data key : Bytes) : Bytes :=
  if key = [] then data else data.mapIdx fun i b => b ^^^ key.getD (i % key.length) 0

/-! ### Stages by their names -/

/-- `str::starts_with`. -/
def startsWith (s pattern : String) : Bool := pattern.toList.isPrefixOf s.toList

/-- `str::trim_start_matches`, for a pattern that is not empty. -/
def trimStartMatches (pattern : List Char) : ℕ → List Char → List Char
  | 0, s => s
  | fuel + 1, s =>
    if pattern.isPrefixOf s then trimStartMatches pattern fuel (s.drop pattern.length) else s

/-- `str::trim_end_matches`. -/
def trimEndMatches (ch : Char) (s : List Char) : List Char :=
  s.rdropWhile (· = ch)

/-- What is between a pattern and the closing brackets. -/
def innerOf (s pattern : String) : List Char :=
  trimEndMatches ')' (trimStartMatches pattern.toList s.length s.toList)

/-- `str::parse::<u8>`. -/
def parseU8 (s : List Char) : Option UInt8 :=
  let digits := match s with
    | '+' :: rest => rest
    | _ => s
  if digits ≠ [] ∧ digits.all Char.isDigit ∧ Nat.ofDigitChars 10 digits 0 < 256 then
    some (UInt8.ofNat (Nat.ofDigitChars 10 digits 0))
  else none

/-- `ScpCompressionAlgorithm::name`. -/
def name : ScpCompressionAlgorithm → String
  | .none => "none"
  | .rle => "rle"
  | .lz77 windowSize => "lz77(" ++ toString windowSize ++ ")"
  | .delta baseValue => "delta(" ++ toString baseValue.toNat ++ ")"
  | .xor key => "xor(" ++ toString key.length ++ ")"

def applyAlgorithm (data : Bytes) : ScpCompressionAlgorithm → Except ScpPipelineError Bytes
  | .none => .ok data
  | .rle => .ok (rleEncode data)
  | .lz77 windowSize => .ok (lz77Encode data windowSize)
  | .delta baseValue => .ok (deltaEncode data baseValue)
  | .xor key =>
    if key = [] then .error (.invalidConfiguration "XOR key must not be empty")
    else .ok (xorTransform data key)

section Hex

variable [HexCrate]

def unapplyAlgorithm (data : Bytes) (algoName : String) : Except ScpPipelineError Bytes :=
  if algoName = "none" then .ok data
  else if algoName = "rle" then rleDecode data
  else if startsWith algoName "lz77(" then lz77Decode data
  else if startsWith algoName "delta(" then
    match parseU8 (innerOf algoName "delta(") with
    | none => .error (.decompressionFailed
        ("Cannot parse delta base from stage name: " ++ algoName))
    | some base => .ok (deltaDecode data base)
  else if startsWith algoName "xor(" then
    match HexCrate.decode (String.ofList (innerOf algoName "xor(")) with
    | .error _ => .error (.decompressionFailed
        ("Cannot decode XOR key from stage name: " ++ algoName))
    | .ok key => .ok (xorTransform data key)
  else .error (.decompressionFailed ("Unknown stage name in stages_applied: " ++ algoName))

def stageNameForStorage : ScpCompressionAlgorithm → String
  | .xor key => "xor(" ++ HexCrate.encode key ++ ")"
  | other => name other

/-! ### The pipeline -/

/-- One stage of `compress_with_stages`: the data, and the names of the stages applied so far. -/
def applyStage (s : Bytes × List String) (stage : CompressionStage) :
    Except ScpPipelineError (Bytes × List String) :=
  if ¬stage.enabled then .ok s
  else if s.1.length < stage.minSizeBytes then .ok s
  else (applyAlgorithm s.1 stage.algorithm).map fun compressed =>
    (compressed, s.2 ++ [stageNameForStorage stage.algorithm])

def compressWithStages (config : ScpPipelineConfig) (data : Bytes)
    (stages : List CompressionStage) : Except ScpPipelineError CompressedBlock :=
  if data.length > config.maxInputSize then .error (.inputTooLarge data.length)
  else
    (stages.foldlM applyStage (data, [])).map fun s =>
      let checksum := if config.enableChecksum then fnv1a s.1 else 0
      let current := if config.enableChecksum then s.1 ++ toLeBytes checksum else s.1
      { originalSize := data.length
        compressedSize := current.length
        stagesApplied := s.2
        data := current
        checksum := checksum }

def compress (config : ScpPipelineConfig) (data : Bytes) :
    Except ScpPipelineError CompressedBlock :=
  compressWithStages config data config.stages

/-- `u64::from_le_bytes`. -/
def fromLeBytes (bytes : Bytes) : UInt64 := UInt64.ofNat (LittleEndian.decode bytes)

/-- What `decompress` makes of the checksum. -/
def checkedPayload (config : ScpPipelineConfig) (data : Bytes) : Except ScpPipelineError Bytes :=
  if config.enableChecksum then
    if data.length < 8 then
      .error (.decompressionFailed "Block too small to contain checksum")
    else
      let payload := data.take (data.length - 8)
      let storedCs := fromLeBytes (data.drop (data.length - 8))
      let computedCs := fnv1a payload
      if storedCs ≠ computedCs then .error (.checksumMismatch storedCs computedCs)
      else .ok payload
  else .ok data

def decompress (config : ScpPipelineConfig) (block : CompressedBlock) :
    Except ScpPipelineError Bytes :=
  (checkedPayload config block.data).bind fun payload =>
    block.stagesApplied.reverse.foldlM unapplyAlgorithm payload

end Hex

/-! ### The round trips of the algorithms -/

theorem length_rleRounds (fuel : ℕ) (data : Bytes) : (rleRounds fuel data).length % 2 = 0 := by
  induction fuel generalizing data with
  | zero => rfl
  | succ fuel ih =>
    cases data with
    | nil => rfl
    | cons byte rest =>
      rw [rleRounds, List.length_cons, List.length_cons, Nat.add_assoc, Nat.add_mod_right]
      exact ih _

variable {fuel pos effectiveWindow : ℕ} {data : Bytes} {s : String} {a : Char} {as : List Char}

theorem rlePairs_rleRounds (h : data.length ≤ fuel) :
    rlePairs (rleRounds fuel data) = .ok data := by
  induction fuel generalizing data with
  | zero =>
    rw [List.length_eq_zero_iff.mp (Nat.le_zero.mp h)]
    rfl
  | succ fuel ih =>
    cases data with
    | nil => rfl
    | cons byte rest =>
      -- the count of a run fits into a byte, and is not 0
      have hmore : Repeats.runLength byte 254 rest ≤ 254 := Repeats.runLength_le_bound byte 254 rest
      have hcount : (UInt8.ofNat (1 + Repeats.runLength byte 254 rest)).toNat =
          Repeats.runLength byte 254 rest + 1 := by
        rw [UInt8.toNat_ofNat', Nat.add_comm]
        omega
      have hne : UInt8.ofNat (1 + Repeats.runLength byte 254 rest) ≠ 0 := by
        intro hzero
        rw [hzero] at hcount
        exact absurd hcount (Nat.succ_ne_zero _).symm
      have hrest : (rest.drop (Repeats.runLength byte 254 rest)).length ≤ fuel := by
        rw [List.length_drop]
        exact le_trans (Nat.sub_le _ _) (Nat.le_of_succ_le_succ h)
      rw [rleRounds, rlePairs, if_neg hne, ih hrest, hcount]
      show Except.ok (byte :: (List.replicate (Repeats.runLength byte 254 rest) byte ++
        rest.drop (Repeats.runLength byte 254 rest))) = _
      rw [Repeats.replicate_runLength_append]

/-- **Run-length encoding decodes.** -/
theorem rleDecode_rleEncode (data : Bytes) : rleDecode (rleEncode data) = .ok data := by
  have heven : (rleEncode data).length % 2 = 0 := length_rleRounds data.length data
  rw [rleDecode, if_neg (not_not_intro heven)]
  exact rlePairs_rleRounds le_rfl

/-- What is found in the window is a match. -/
structure IsMatch (data : Bytes) (pos : ℕ) (found : ℕ × ℕ) : Prop where
  offset_pos : 0 < found.1
  offset_le : found.1 ≤ pos
  length_le_offset : found.2 ≤ found.1
  length_le : found.2 ≤ 257
  within : pos + found.2 ≤ data.length
  agrees : ∀ k < found.2, data[pos - found.1 + k]? = data[pos + k]?

theorem isMatch_lz77Candidate {start : ℕ} (hpos : pos < data.length) (hstart : start < pos) :
    IsMatch data pos (lz77Candidate data pos start) := by
  have hbound := Repeats.matchLength_le_bound
    (min (min (pos - start) (min (pos + 258) data.length - pos)) (255 + lz77MinMatch - 1))
    (data.drop start) (data.drop pos)
  have hbound : (lz77Candidate data pos start).2 ≤
      min (min (pos - start) (min (pos + 258) data.length - pos)) 257 := hbound
  have hoffset : (lz77Candidate data pos start).1 = pos - start := rfl
  constructor
  case offset_pos => omega
  case offset_le => omega
  case length_le_offset => omega
  case length_le => omega
  case within => omega
  case agrees =>
    intro k hk
    have hsame := Repeats.getElem?_of_lt_matchLength hk
    rw [List.getElem?_drop, List.getElem?_drop] at hsame
    rw [hoffset, Nat.sub_sub_self (Nat.le_of_lt hstart)]
    exact hsame

theorem isMatch_lz77Search (hpos : pos < data.length)
    (hfound : (lz77Search data effectiveWindow pos).2 ≠ 0) :
    IsMatch data pos (lz77Search data effectiveWindow pos) := by
  obtain h | ⟨start, hstart, h⟩ := Repeats.foldl_best (lz77Candidate data pos)
    (fun found best => found.2 > best.2)
    (List.range' (pos - effectiveWindow) (pos - (pos - effectiveWindow))) (0, 0)
  · exact absurd (congrArg Prod.snd h) hfound
  · have h : lz77Search data effectiveWindow pos = lz77Candidate data pos start := h
    rw [h]
    refine isMatch_lz77Candidate hpos ?_
    have hrange := (List.mem_range'_1.mp hstart).2
    omega

theorem offset_toBytes {offset : ℕ} (h : offset ≤ 65535) :
    (UInt16.ofNat offset &&& 0xFF).toUInt8.toNat |||
      ((UInt16.ofNat offset >>> 8).toUInt8.toNat <<< 8) = offset := by
  have hlo : (UInt16.ofNat offset &&& 0xFF).toUInt8.toNat = offset % 256 := by
    have hmask : (offset % 65536) &&& 255 = offset % 65536 % 2 ^ 8 :=
      Nat.and_two_pow_sub_one_eq_mod _ 8
    rw [UInt16.toNat_toUInt8, UInt16.toNat_and, UInt16.toNat_ofNat']
    show ((offset % 65536) &&& 255) % 256 = _
    omega
  have hhi : (UInt16.ofNat offset >>> 8).toUInt8.toNat = offset / 256 := by
    have hshift : (offset % 65536) >>> 8 = offset % 65536 / 2 ^ 8 := Nat.shiftRight_eq_div_pow _ 8
    rw [UInt16.toNat_toUInt8, UInt16.toNat_shiftRight, UInt16.toNat_ofNat']
    show ((offset % 65536) >>> 8) % 256 = _
    omega
  have hbyte : offset % 2 ^ 8 < 2 ^ 8 := Nat.mod_lt offset (by decide)
  have hadd := Nat.shiftLeft_add_eq_or_of_lt hbyte (offset / 256)
  have hshift : (offset / 256) <<< 8 = offset / 256 * 2 ^ 8 := Nat.shiftLeft_eq _ 8
  rw [hlo, hhi, Nat.or_comm]
  show (offset / 256) <<< 8 ||| offset % 2 ^ 8 = offset
  omega

/-- A back-reference to a match puts the match behind the data that it is found in. -/
theorem lz77Tokens_match {rest : Bytes} {found : ℕ × ℕ} (hmatch : IsMatch data pos found)
    (hlong : 3 ≤ found.2) (hoffset : found.1 ≤ 65535) :
    lz77Tokens
        (lz77FlagMatch :: (UInt16.ofNat found.1 &&& 0xFF).toUInt8 ::
          (UInt16.ofNat found.1 >>> 8).toUInt8 :: UInt8.ofNat (found.2 - lz77MinMatch) :: rest)
        (data.take pos) =
      lz77Tokens rest (data.take (pos + found.2)) := by
  have hbefore := hmatch.offset_le
  have hle := hmatch.within
  -- the length fits into a byte
  have hlength : (UInt8.ofNat (found.2 - lz77MinMatch)).toNat + lz77MinMatch = found.2 := by
    have hsmall := hmatch.length_le
    rw [UInt8.toNat_ofNat', lz77MinMatch]
    omega
  have hback : ¬found.1 > (data.take pos).length := by
    rw [List.length_take]
    omega
  rw [lz77Tokens, if_neg (by decide), if_pos rfl]
  dsimp only
  rw [offset_toBytes hoffset, hlength, if_neg (Nat.ne_of_gt hmatch.offset_pos), if_neg hback,
    Repeats.copyBack_take hmatch.offset_pos hbefore hle]
  -- the copy does not overlap what it writes
  intro k hk
  rw [Nat.mod_eq_of_lt (lt_of_lt_of_le hk hmatch.length_le_offset)]
  exact hmatch.agrees k hk

/-- **The tokens from a position on continue the data up to there.** -/
theorem lz77Tokens_lz77Rounds (hpos : pos ≤ data.length) (hfuel : data.length ≤ pos + fuel) :
    lz77Tokens (lz77Rounds data effectiveWindow fuel pos) (data.take pos) = .ok data := by
  induction fuel generalizing pos with
  | zero =>
    rw [List.take_of_length_le (by omega)]
    rfl
  | succ fuel ih =>
    rw [lz77Rounds]
    split
    · next hlt =>
      dsimp only
      split
      · next hfound =>
        -- a match, which is copied from the data before `pos`
        have hlong : 3 ≤ (lz77Search data effectiveWindow pos).2 := hfound.1
        have hmatch := isMatch_lz77Search hlt (Nat.ne_of_gt (lt_of_lt_of_le (by decide) hlong))
        rw [lz77Tokens_match hmatch hlong hfound.2]
        exact ih hmatch.within (by omega)
      · rw [lz77Tokens, if_pos rfl, List.take_append_getElem hlt]
        exact ih hlt (by omega)
    · next hge =>
      rw [List.take_of_length_le (Nat.le_of_not_lt hge)]
      rfl

/-- **Back-references decode**, whatever the window. -/
theorem lz77Decode_lz77Encode (data : Bytes) (windowSize : ℕ) :
    lz77Decode (lz77Encode data windowSize) = .ok data :=
  lz77Tokens_lz77Rounds (Nat.zero_le _) (Nat.zero_add _).ge

theorem deltaSums_deltaDifferences (prev : UInt8) (data : Bytes) :
    deltaSums prev (deltaDifferences prev data) = data := by
  induction data generalizing prev with
  | nil => rfl
  | cons b rest ih => rw [deltaDifferences, deltaSums, UInt8.sub_add_cancel, ih]

/-- **Differences add up.** -/
theorem deltaDecode_deltaEncode (data : Bytes) (base : UInt8) :
    deltaDecode (deltaEncode data base) base = data := by
  cases data with
  | nil => rfl
  | cons first rest =>
    show (first - base + base) :: deltaSums (first - base + base) (deltaDifferences first rest) = _
    rw [UInt8.sub_add_cancel, deltaSums_deltaDifferences]

/-- **A key undoes itself.** -/
theorem xorTransform_xorTransform (data key : Bytes) :
    xorTransform (xorTransform data key) key = data := by
  unfold xorTransform
  split
  · rfl
  · rw [List.mapIdx_mapIdx, List.mapIdx_eq_iff]
    intro i
    -- both rounds meet a byte with the same byte of the key
    have hid : ((fun b => b ^^^ key.getD (i % key.length) 0) ∘
        fun b => b ^^^ key.getD (i % key.length) 0) = id := by
      funext b
      show b ^^^ key.getD (i % key.length) 0 ^^^ key.getD (i % key.length) 0 = b
      rw [UInt8.xor_assoc, UInt8.xor_self, UInt8.xor_zero]
    rw [hid, Option.map_id, id]

/-! ### Reading the names -/

theorem startsWith_append (s pattern : String) : startsWith (pattern ++ s) pattern = true := by
  rw [startsWith, String.toList_append, List.isPrefixOf_iff_prefix]
  exact List.prefix_append ..

theorem not_startsWith {pattern : String} {b : Char} {bs : List Char} (hs : s.toList = a :: as)
    (hpattern : pattern.toList = b :: bs) (hne : b ≠ a) : ¬startsWith s pattern = true := by
  rw [startsWith, hs, hpattern, List.isPrefixOf_iff_prefix]
  exact fun h => hne (List.cons_prefix_cons.mp h).1

/-- What is between the brackets of a name, when no character of it could be taken for the start or
for the end. -/
theorem innerOf_eq {s pattern : String} {a : Char} {as inner : List Char}
    (hpattern : pattern.toList = a :: as) (hs : s.toList = a :: as ++ inner ++ [')'])
    (ha : a ∉ inner) (hclose : ')' ∉ inner) (hne : a ≠ ')') : innerOf s pattern = inner := by
  have hlength : s.length = (as ++ inner).length + 1 + 1 := by
    rw [← String.length_toList, hs, List.length_append, List.cons_append, List.length_cons]
    rfl
  have hfirst : (a :: as).isPrefixOf s.toList = true := by
    rw [hs, List.isPrefixOf_iff_prefix, List.append_assoc]
    exact List.prefix_append ..
  have hrest : s.toList.drop (a :: as).length = inner ++ [')'] := by
    rw [hs, List.append_assoc]
    exact List.drop_left
  -- the pattern does not come again
  have hagain : (a :: as).isPrefixOf (inner ++ [')']) = false := by
    rw [← Bool.not_eq_true, List.isPrefixOf_iff_prefix]
    intro h
    have hmem : a ∈ inner ++ [')'] := h.subset List.mem_cons_self
    obtain hmem | hmem := List.mem_append.mp hmem
    · exact ha hmem
    · exact hne (List.mem_singleton.mp hmem)
  -- so the loop of `trim_start_matches` ends after one round
  have hstart : trimStartMatches (a :: as) s.length s.toList = inner ++ [')'] := by
    rw [hlength, trimStartMatches, if_pos hfirst, hrest, trimStartMatches, hagain]
    rfl
  rw [innerOf, hpattern, hstart, trimEndMatches, List.rdropWhile_concat_pos _ _ _ (by simp),
    List.rdropWhile_eq_self_iff]
  intro hnil hlast
  exact hclose (of_decide_eq_true hlast ▸ List.getLast_mem hnil)

/-- **A number is read as it is written.** -/
theorem parseU8_toString (n : UInt8) : parseU8 (toString n.toNat).toList = some n := by
  have hdigits : (toString n.toNat).toList = Nat.toDigits 10 n.toNat := by
    rw [Nat.toString_eq_repr, Nat.toList_repr]
  have hall : ∀ ch ∈ Nat.toDigits 10 n.toNat, ch.isDigit = true :=
    fun ch hch => Nat.isDigit_of_mem_toDigits (by decide) (by decide) hch
  have hplus : ∀ rest, Nat.toDigits 10 n.toNat ≠ '+' :: rest := by
    intro rest h
    -- a number does not start with a sign
    have hsign := hall '+' (by rw [h]; exact List.mem_cons_self)
    exact absurd hsign (by decide)
  rw [hdigits, parseU8]
  · have hvalue : Nat.ofDigitChars 10 (Nat.toDigits 10 n.toNat) 0 = n.toNat :=
      Nat.ofDigitChars_ten_toDigits
    rw [hvalue, if_pos ⟨Nat.toDigits_ne_nil, List.all_eq_true.mpr hall, n.toNat_lt⟩,
      UInt8.ofNat_toNat]
  · exact hplus

theorem ne_of_head {t : String} (hs : s.toList = a :: as) (ht : t.toList.head? ≠ some a) :
    s ≠ t := by
  rintro rfl
  rw [hs] at ht
  exact ht rfl

theorem toList_brackets (pattern inner : String) :
    (pattern ++ inner ++ ")").toList = pattern.toList ++ inner.toList ++ [')'] := by
  rw [String.toList_append, String.toList_append]
  rfl

section Stages

variable [HexCrate]

theorem unapply_lz77 (data : Bytes) (windowSize : ℕ) :
    unapplyAlgorithm data (stageNameForStorage (.lz77 windowSize)) = lz77Decode data := by
  show unapplyAlgorithm data ("lz77(" ++ toString windowSize ++ ")") = _
  have hlist : ("lz77(" ++ toString windowSize ++ ")").toList = 'l' :: _ := toList_brackets ..
  rw [unapplyAlgorithm, if_neg (ne_of_head hlist (by decide)),
    if_neg (ne_of_head hlist (by decide)), String.append_assoc, if_pos (startsWith_append ..)]

theorem unapply_delta (data : Bytes) (baseValue : UInt8) :
    unapplyAlgorithm data (stageNameForStorage (.delta baseValue)) =
      .ok (deltaDecode data baseValue) := by
  show unapplyAlgorithm data ("delta(" ++ toString baseValue.toNat ++ ")") = _
  have hlist : ("delta(" ++ toString baseValue.toNat ++ ")").toList =
      'd' :: "elta(".toList ++ (toString baseValue.toNat).toList ++ [')'] := toList_brackets ..
  have hdigits : ∀ ch ∈ (toString baseValue.toNat).toList, ch.isDigit = true := by
    intro ch hch
    rw [Nat.toString_eq_repr, Nat.toList_repr] at hch
    exact Nat.isDigit_of_mem_toDigits (by decide) (by decide) hch
  have hinner : innerOf ("delta(" ++ toString baseValue.toNat ++ ")") "delta(" =
      (toString baseValue.toNat).toList :=
    innerOf_eq (a := 'd') rfl hlist (fun h => absurd (hdigits 'd' h) (by decide))
      (fun h => absurd (hdigits ')' h) (by decide)) (by decide)
  rw [unapplyAlgorithm, if_neg (ne_of_head hlist (by decide)),
    if_neg (ne_of_head hlist (by decide)),
    if_neg (not_startsWith (b := 'l') hlist rfl (by decide)), hinner, parseU8_toString,
    String.append_assoc, if_pos (startsWith_append ..)]

variable [LawfulHexCrate]

theorem unapply_xor (data key : Bytes) :
    unapplyAlgorithm data (stageNameForStorage (.xor key)) = .ok (xorTransform data key) := by
  show unapplyAlgorithm data ("xor(" ++ HexCrate.encode key ++ ")") = _
  have hlist : ("xor(" ++ HexCrate.encode key ++ ")").toList =
      'x' :: "or(".toList ++ (HexCrate.encode key).toList ++ [')'] := toList_brackets ..
  have hdigits := LawfulHexCrate.encode_digits key
  have hinner : innerOf ("xor(" ++ HexCrate.encode key ++ ")") "xor(" =
      (HexCrate.encode key).toList :=
    innerOf_eq (a := 'x') rfl hlist (fun h => absurd (hdigits 'x' h) (by decide))
      (fun h => absurd (hdigits ')' h) (by decide)) (by decide)
  rw [unapplyAlgorithm, if_neg (ne_of_head hlist (by decide)),
    if_neg (ne_of_head hlist (by decide)),
    if_neg (not_startsWith (b := 'l') hlist rfl (by decide)),
    if_neg (not_startsWith (b := 'd') hlist rfl (by decide)), hinner, String.ofList_toList,
    LawfulHexCrate.decode_encode, String.append_assoc, if_pos (startsWith_append ..)]

variable {data : Bytes} {s s' : Bytes × List String} {config : ScpPipelineConfig}

/-- **A stage is undone by its name.** -/
theorem unapply_apply {out : Bytes} {algorithm : ScpCompressionAlgorithm}
    (h : applyAlgorithm data algorithm = .ok out) :
    unapplyAlgorithm out (stageNameForStorage algorithm) = .ok data := by
  cases algorithm with
  | none =>
    obtain rfl := Except.ok.inj h
    exact if_pos rfl
  | rle =>
    obtain rfl := Except.ok.inj h
    exact rleDecode_rleEncode data
  | lz77 windowSize =>
    obtain rfl := Except.ok.inj h
    rw [unapply_lz77, lz77Decode_lz77Encode]
  | delta baseValue =>
    obtain rfl := Except.ok.inj h
    rw [unapply_delta, deltaDecode_deltaEncode]
  | xor key =>
    rw [applyAlgorithm] at h
    split at h
    · cases h
    · obtain rfl := Except.ok.inj h
      rw [unapply_xor, xorTransform_xorTransform]

/-! ### The round trip of the pipeline -/

/-- What the names undo. -/
def Undoes (data : Bytes) (s : Bytes × List String) : Prop :=
  s.2.reverse.foldlM unapplyAlgorithm s.1 = .ok data

theorem Undoes.applyStage {stage : CompressionStage} (h : Undoes data s)
    (hstage : ScpStorageCompressionPipeline.applyStage s stage = .ok s') : Undoes data s' := by
  rw [ScpStorageCompressionPipeline.applyStage] at hstage
  split at hstage
  · -- a stage that is not enabled, or whose data is too short, leaves no name
    obtain rfl := Except.ok.inj hstage
    exact h
  · split at hstage
    · obtain rfl := Except.ok.inj hstage
      exact h
    · cases happly : applyAlgorithm s.1 stage.algorithm with
      | error e =>
        rw [happly] at hstage
        cases hstage
      | ok out =>
        rw [happly] at hstage
        obtain rfl := Except.ok.inj hstage
        -- the last stage is the first one to be undone
        show (s.2 ++ [stageNameForStorage stage.algorithm]).reverse.foldlM unapplyAlgorithm out = _
        rw [List.reverse_append, List.reverse_singleton, List.singleton_append, List.foldlM_cons,
          unapply_apply happly]
        exact h

theorem Undoes.foldlM {stages : List CompressionStage} (h : Undoes data s)
    (hstages : stages.foldlM ScpStorageCompressionPipeline.applyStage s = .ok s') :
    Undoes data s' := by
  induction stages generalizing s with
  | nil =>
    obtain rfl := Except.ok.inj hstages
    exact h
  | cons stage stages ih =>
    rw [List.foldlM_cons] at hstages
    cases hstage : ScpStorageCompressionPipeline.applyStage s stage with
    | error e =>
      rw [hstage] at hstages
      cases hstages
    | ok t =>
      rw [hstage] at hstages
      exact ih (h.applyStage hstage) hstages

omit [HexCrate] [LawfulHexCrate] in
theorem toLeBytes_eq (x : UInt64) : toLeBytes x = LittleEndian.encode 8 x.toNat := by
  rw [LittleEndian.encode_eq_map, toLeBytes]
  refine List.map_congr_left fun i hi => ?_
  have hi : i < 8 := List.mem_range.mp hi
  have hshift : (UInt64.ofNat (8 * i)).toNat % 64 = 8 * i := by
    rw [UInt64.toNat_ofNat']
    omega
  refine UInt8.toNat_inj.mp ?_
  rw [UInt64.toNat_toUInt8, UInt64.toNat_shiftRight, hshift, UInt8.toNat_ofNat',
    Nat.shiftRight_eq_div_pow, pow_mul]
  rfl

omit [HexCrate] [LawfulHexCrate] in
theorem fromLeBytes_toLeBytes (x : UInt64) : fromLeBytes (toLeBytes x) = x := by
  have hx : x.toNat < 256 ^ 8 := x.toNat_lt
  rw [fromLeBytes, toLeBytes_eq, LittleEndian.decode_encode, Nat.mod_eq_of_lt hx,
    UInt64.ofNat_toNat]

omit [HexCrate] [LawfulHexCrate] in
theorem checkedPayload_append (h : config.enableChecksum = true) (payload : Bytes) :
    checkedPayload config (payload ++ toLeBytes (fnv1a payload)) = .ok payload := by
  have hlength : (toLeBytes (fnv1a payload)).length = 8 := by
    rw [toLeBytes_eq, LittleEndian.length_encode]
  have hpayload : (payload ++ toLeBytes (fnv1a payload)).length - 8 = payload.length := by
    rw [List.length_append, hlength, Nat.add_sub_cancel]
  have hlong : ¬(payload ++ toLeBytes (fnv1a payload)).length < 8 := by
    rw [List.length_append, hlength]
    omega
  rw [checkedPayload, if_pos h, if_neg hlong]
  dsimp only
  rw [hpayload, List.take_left, List.drop_left, fromLeBytes_toLeBytes, if_neg (not_not_intro rfl)]

/-- **What has been compressed decompresses to the same bytes**, by any pipeline that agrees on
whether there is a checksum. -/
theorem decompress_compress {config' : ScpPipelineConfig} {block : CompressedBlock}
    (hcompress : compress config data = .ok block)
    (hchecksum : config'.enableChecksum = config.enableChecksum) :
    decompress config' block = .ok data := by
  rw [compress, compressWithStages] at hcompress
  split at hcompress
  · cases hcompress
  cases hstages : config.stages.foldlM applyStage (data, []) with
  | error e =>
    rw [hstages] at hcompress
    cases hcompress
  | ok s =>
    rw [hstages] at hcompress
    obtain rfl := Except.ok.inj hcompress
    have hundoes : Undoes data s := Undoes.foldlM (s := (data, [])) rfl hstages
    rw [decompress]
    dsimp only
    -- what is behind the checksum is what the stages have left
    cases henabled : config.enableChecksum with
    | false =>
      rw [if_neg Bool.false_ne_true, checkedPayload, hchecksum, henabled,
        if_neg Bool.false_ne_true]
      exact hundoes
    | true =>
      rw [if_pos rfl, if_pos rfl, checkedPayload_append (hchecksum.trans henabled)]
      exact hundoes

end Stages

/-! ### Lower-case digits -/

namespace Sample

/-- The value of a hexadecimal digit. -/
def hexValue (ch : Char) : Option ℕ :=
  if '0' ≤ ch ∧ ch ≤ '9' then some (ch.toNat - 48)
  else if 'a' ≤ ch ∧ ch ≤ 'f' then some (ch.toNat - 87)
  else if 'A' ≤ ch ∧ ch ≤ 'F' then some (ch.toNat - 55)
  else none

/-- Bytes from pairs of digits. -/
def hexPairs : List Char → Except String Bytes
  | [] => .ok []
  | [_] => .error "Odd number of digits"
  | hi :: lo :: rest =>
    match hexValue hi, hexValue lo with
    | some h, some l => (hexPairs rest).map (UInt8.ofNat (16 * h + l) :: ·)
    | _, _ => .error "Invalid character"

/-- Two digits for each byte. -/
def hexDigits (data : Bytes) : List Char :=
  data.flatMap fun b => [Nat.digitChar (b.toNat / 16), Nat.digitChar (b.toNat % 16)]

/-- The `hex` crate. -/
abbrev hex : HexCrate where
  encode data := String.ofList (hexDigits data)
  decode s := hexPairs s.toList

theorem hexValue_digitChar : ∀ n < 16, hexValue (Nat.digitChar n) = some n := by decide

theorem digitChar_mem : ∀ n < 16, Nat.digitChar n ∈ "0123456789abcdef".toList := by decide

theorem hexPairs_hexDigits (data : Bytes) : hexPairs (hexDigits data) = .ok data := by
  induction data with
  | nil => rfl
  | cons b data ih =>
    have hlt : b.toNat < 256 := b.toNat_lt
    have hhi := hexValue_digitChar (b.toNat / 16) (by omega)
    have hlo := hexValue_digitChar (b.toNat % 16) (by omega)
    show hexPairs (Nat.digitChar (b.toNat / 16) :: Nat.digitChar (b.toNat % 16) ::
      hexDigits data) = _
    rw [hexPairs, hhi, hlo]
    dsimp only
    rw [ih, Nat.div_add_mod, UInt8.ofNat_toNat]
    rfl

theorem lawful_hex : @LawfulHexCrate hex := by
  let _ := hex
  constructor
  case decode_encode =>
    intro data
    show hexPairs (String.ofList (hexDigits data)).toList = _
    rw [String.toList_ofList, hexPairs_hexDigits]
  case encode_digits =>
    intro data ch hch
    have hch : ch ∈ (String.ofList (hexDigits data)).toList := hch
    rw [String.toList_ofList, hexDigits, List.mem_flatMap] at hch
    obtain ⟨b, -, hch⟩ := hch
    have hlt : b.toNat < 256 := b.toNat_lt
    obtain rfl | hch := List.mem_cons.mp hch
    · exact digitChar_mem _ (by omega)
    · obtain rfl := List.mem_singleton.mp hch
      exact digitChar_mem _ (by omega)

end Sample

theorem decompress_compress_mixed :
    let _ := Sample.hex
    let config : ScpPipelineConfig :=
      ⟨[⟨.rle, true, 0⟩, ⟨.lz77 4, true, 2⟩, ⟨.delta 5, true, 0⟩, ⟨.xor [1, 2], true, 0⟩], 100,
        true⟩
    ∃ block, compress config [7, 7, 0, 7, 7, 0, 7, 7, 0] = .ok block ∧
      decompress ⟨[], 0, true⟩ block = .ok [7, 7, 0, 7, 7, 0, 7, 7, 0] := by
  intro _ config
  have := Sample.lawful_hex
  obtain ⟨block, hblock⟩ : ∃ block, compress config [7, 7, 0, 7, 7, 0, 7, 7, 0] = .ok block :=
    ⟨_, rfl⟩
  exact ⟨block, hblock, decompress_compress hblock rfl⟩

end ScpStorageCompressionPipeline

end Ipfrs
