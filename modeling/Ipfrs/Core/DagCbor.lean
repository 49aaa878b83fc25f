import Ipfrs.Lib.ByteStream
import Ipfrs.Core.Ipld

/-!
# The DAG-CBOR codec

`encode_dag_cbor` and `decode_dag_cbor` (`ipfrs-core/src/ipld.rs`).

The encoder pushes onto a buffer and never fails, so `encodeDagCbor` is the bytes it pushes. The
decoder reads from a byte stream and returns what it leaves unread. It calls itself once for every
nested item, each time after reading at least one byte; `decodeAux` counts these calls down from the
number of unread bytes, and `decodeDagCbor_eq` says that the count is never noticed:
`decodeDagCbor` satisfies the recursion of the source, with no count in it.

A length is read before the buffer for it is allocated. Here every buffer can be had, so a length
beyond the input is the error that `read_exact` gives. The program panics before it gets that far if
the buffer would be longer than a vector can be: `Ipld.tryFromDagCbor` is the decoder with that
panic, and `Ipld.tryFromDagCbor_eq` says that nothing else tells the two apart. This decoder stands
where a panic and an error come to the same, or where a statement is about decoding that succeeds.
-/

namespace Ipfrs

/-! ### UTF-8 -/

/-- The bytes of a string (`str::as_bytes`). -/
def utf8 (s : String) : Bytes := s.toByteArray.data.toList

/-- `String::from_utf8`. -/
def fromUtf8 (b : Bytes) : Option String := String.fromUTF8? ⟨b.toArray⟩

@[simp] theorem fromUtf8_utf8 (s : String) : fromUtf8 (utf8 s) = some s := by
  have hba : (⟨(utf8 s).toArray⟩ : ByteArray) = s.toByteArray := by simp [utf8]
  rw [fromUtf8, hba, String.fromUTF8?, dif_pos s.isValidUTF8]
  rfl

theorem utf8_of_fromUtf8 {b : Bytes} {s : String} (h : fromUtf8 b = some s) : utf8 s = b := by
  rw [fromUtf8, String.fromUTF8?] at h
  split at h
  · obtain rfl := Option.some.inj h
    rfl
  · exact absurd h (by simp)

@[simp] theorem length_utf8 (s : String) : (utf8 s).length = s.utf8ByteSize := rfl

/-! ### Encoding -/

/-- The cast `as u64` of an `i128`. -/
def asU64 (i : ℤ) : UInt64 := UInt64.ofNat (i % 2 ^ 64).toNat

/-- `encode_cbor_length`: a major type with its argument, in the shortest of five widths. -/
def encodeCborLength (majorType : UInt8) (length : UInt64) : Bytes :=
  let mt := majorType <<< 5
  if length < 24 then [mt ||| length.toUInt8]
  else if length < 256 then [mt ||| 24, length.toUInt8]
  else if length < 65536 then (mt ||| 25) :: BigEndian.encode 2 length.toNat
  else if length < 4294967296 then (mt ||| 26) :: BigEndian.encode 4 length.toNat
  else (mt ||| 27) :: BigEndian.encode 8 length.toNat

def encodeCborInteger (value : ℤ) : Bytes :=
  if value ≥ 0 then encodeCborLength 0 (asU64 value)
  else encodeCborLength 1 (asU64 (-1 - value))

/-- `CID_TAG`. -/
def cidTag : UInt64 := 42

def encodeCborTag (tag : UInt64) : Bytes := encodeCborLength 6 tag

section Codec

variable [CidCrate]

mutual

def encodeDagCbor : Ipld → Bytes
  | .null => [0xf6]
  | .bool b => [if b then 0xf5 else 0xf4]
  | .integer i => encodeCborInteger i
  | .float f => 0xfb :: BigEndian.encode 8 f.toNat
  | .string s => encodeCborLength 3 (UInt64.ofNat (utf8 s).length) ++ utf8 s
  | .bytes b => encodeCborLength 2 (UInt64.ofNat b.length) ++ b
  | .list l => encodeCborLength 4 (UInt64.ofNat l.length) ++ encodeItems l
  | .map m => encodeCborLength 5 (UInt64.ofNat m.length) ++ encodeEntries m
  | .link c =>
    -- the CID bytes with the multibase identity prefix
    let prefixed := 0x00 :: CidCrate.toBytes c
    encodeCborTag cidTag ++ encodeCborLength 2 (UInt64.ofNat prefixed.length) ++ prefixed

/-- The loop of `encode_dag_cbor` over the items of a list. -/
def encodeItems : List Ipld → Bytes
  | [] => []
  | x :: xs => encodeDagCbor x ++ encodeItems xs

/-- The loop of `encode_dag_cbor` over the entries of a map. -/
def encodeEntries : List (String × Ipld) → Bytes
  | [] => []
  | (k, x) :: xs =>
    encodeCborLength 3 (UInt64.ofNat (utf8 k).length) ++ utf8 k ++ encodeDagCbor x
      ++ encodeEntries xs

end

def Ipld.toDagCbor (x : Ipld) : Except Error Bytes := .ok (encodeDagCbor x)

end Codec

/-! ### Decoding: headers and floats -/

/-- `read_exact` on the stream, with the message `what` of the error. -/
def readExact (what : String) (n : ℕ) (input : Bytes) : Except Error (Bytes × Bytes) :=
  match ByteStream.readExact n input with
  | some r => .ok r
  | none => .error (.deserialization (what ++ ": failed to fill whole buffer"))

/-- An unsigned big-endian number of `n` bytes. -/
def readUint (what : String) (n : ℕ) (input : Bytes) : Except Error (UInt64 × Bytes) := do
  let (buf, input) ← readExact what n input
  return (UInt64.ofNat (BigEndian.decode buf), input)

def decodeCborUint (additionalInfo : UInt8) (input : Bytes) : Except Error (UInt64 × Bytes) :=
  if additionalInfo ≤ 23 then .ok (additionalInfo.toUInt64, input)
  else if additionalInfo = 24 then readUint "Failed to read u8" 1 input
  else if additionalInfo = 25 then readUint "Failed to read u16" 2 input
  else if additionalInfo = 26 then readUint "Failed to read u32" 4 input
  else if additionalInfo = 27 then readUint "Failed to read u64" 8 input
  else .error (.deserialization
    ("Invalid additional info for integer: " ++ toString additionalInfo.toNat))

/-- Shift `f` left until the bit `top` is set, counting the exponent `e` down. -/
def normalizeFraction (top : UInt64) : ℕ → UInt64 → ℤ → UInt64 × ℤ
  | 0, f, e => (f, e)
  | n + 1, f, e => if f &&& top = 0 then normalizeFraction top n (f <<< 1) (e - 1) else (f, e)

/-- `f16_to_f64`, on bit patterns. -/
def f16ToF64 (bits : UInt64) : UInt64 :=
  let sign := (bits >>> 15) &&& 1
  let exp := (bits >>> 10) &&& 0x1f
  let frac := bits &&& 0x3ff
  if exp = 0 then
    if frac = 0 then sign <<< 63
    else
      -- every subnormal number is a normal one as an `f64`
      let (f, e) := normalizeFraction 0x400 10 frac (-14)
      (sign <<< 63) ||| (asU64 (e + 1023) <<< 52) ||| ((f &&& 0x3ff) <<< 42)
  else if exp = 31 then
    if frac = 0 then (sign <<< 63) ||| ((0x7ff : UInt64) <<< 52)
    else (sign <<< 63) ||| ((0x7ff : UInt64) <<< 52) ||| (frac <<< 42)
  else (sign <<< 63) ||| ((exp - 15 + 1023) <<< 52) ||| (frac <<< 42)

/-- The cast `as f64` of an `f32`, on bit patterns (a NaN becomes quiet). -/
def f32ToF64 (bits : UInt64) : UInt64 :=
  let sign := (bits >>> 31) &&& 1
  let exp := (bits >>> 23) &&& 0xff
  let frac := bits &&& 0x7fffff
  if exp = 0 then
    if frac = 0 then sign <<< 63
    else
      let (f, e) := normalizeFraction 0x800000 23 frac (-126)
      (sign <<< 63) ||| (asU64 (e + 1023) <<< 52) ||| ((f &&& 0x7fffff) <<< 29)
  else if exp = 255 then
    if frac = 0 then (sign <<< 63) ||| ((0x7ff : UInt64) <<< 52)
    else (sign <<< 63) ||| ((0x7ff : UInt64) <<< 52) ||| ((0x8 : UInt64) <<< 48) ||| (frac <<< 29)
  else (sign <<< 63) ||| ((exp - 127 + 1023) <<< 52) ||| (frac <<< 29)

/-! ### Decoding: items -/

section Decode

variable [CidCrate] (item : Bytes → Except Error (Ipld × Bytes))

/-- The loop `for _ in 0..len` over the items of an array. -/
def decodeItems : ℕ → Bytes → Except Error (List Ipld × Bytes)
  | 0, input => .ok ([], input)
  | n + 1, input => do
    let (x, input) ← item input
    let (xs, input) ← decodeItems n input
    return (x :: xs, input)

/-- The loop `for _ in 0..len` over the entries of a map. -/
def decodeEntries : ℕ → List (String × Ipld) → Bytes →
    Except Error (List (String × Ipld) × Bytes)
  | 0, map, input => .ok (map, input)
  | n + 1, map, input => do
    let (key, input) ← item input
    match key with
    | .string keyStr =>
      let (value, input) ← item input
      -- a key that comes twice keeps its last value
      decodeEntries n (SortedMap.insert keyStr value map) input
    | _ => .error (.deserialization "Map keys must be strings in IPLD")

/-- The byte string under tag 42, read as a CID. -/
def decodeLink : Ipld → Except Error Ipld
  | .bytes bytes =>
    -- remove the multibase identity prefix
    let bytes := if bytes.head? = some 0x00 then bytes.tail else bytes
    match CidCrate.tryFrom bytes with
    | .ok cid => .ok (.link cid)
    | .error e => .error (.deserialization ("Invalid CID: " ++ e))
  | _ => .error (.deserialization "CID tag must wrap bytes")

/-- Simple values and floats (major type 7). -/
def decodeSimple (additionalInfo : UInt8) (input : Bytes) : Except Error (Ipld × Bytes) :=
  if additionalInfo = 20 then .ok (.bool false, input)
  else if additionalInfo = 21 then .ok (.bool true, input)
  else if additionalInfo = 22 then .ok (.null, input)
  else if additionalInfo = 25 then do
    let (bits, input) ← readUint "Failed to read f16" 2 input
    return (.float (f16ToF64 bits), input)
  else if additionalInfo = 26 then do
    let (bits, input) ← readUint "Failed to read f32" 4 input
    return (.float (f32ToF64 bits), input)
  else if additionalInfo = 27 then do
    let (bits, input) ← readUint "Failed to read f64" 8 input
    return (.float bits, input)
  else .error (.deserialization ("Unknown simple value: " ++ toString additionalInfo.toNat))

/-- The match of `decode_dag_cbor` on the major type. -/
def decodeMajor (majorType additionalInfo : UInt8) (input : Bytes) :
    Except Error (Ipld × Bytes) :=
  match majorType.toNat with
  | 0 => do
    let (value, input) ← decodeCborUint additionalInfo input
    return (.integer value.toNat, input)
  | 1 => do
    let (value, input) ← decodeCborUint additionalInfo input
    -- in `i128`, where nothing overflows
    return (.integer (-1 - value.toNat), input)
  | 2 => do
    let (len, input) ← decodeCborUint additionalInfo input
    let (bytes, input) ← readExact "Failed to read bytes" len.toNat input
    return (.bytes bytes, input)
  | 3 => do
    let (len, input) ← decodeCborUint additionalInfo input
    let (bytes, input) ← readExact "Failed to read string" len.toNat input
    match fromUtf8 bytes with
    | some s => return (.string s, input)
    | none => .error (.deserialization "Invalid UTF-8")
  | 4 => do
    let (len, input) ← decodeCborUint additionalInfo input
    let (list, input) ← decodeItems item len.toNat input
    return (.list list, input)
  | 5 => do
    let (len, input) ← decodeCborUint additionalInfo input
    let (map, input) ← decodeEntries item len.toNat [] input
    return (.map map, input)
  | 6 => do
    let (tag, input) ← decodeCborUint additionalInfo input
    if tag = cidTag then
      let (bytesIpld, input) ← item input
      let link ← decodeLink bytesIpld
      return (link, input)
    else
      -- unknown tag, just decode the content
      item input
  | 7 => decodeSimple additionalInfo input
  | m => .error (.deserialization ("Unknown CBOR major type: " ++ toString m))

/-- The body of `decode_dag_cbor`; `item` is its recursive call. -/
def decodeBody : Bytes → Except Error (Ipld × Bytes)
  | [] => .error (.deserialization "Failed to read CBOR: failed to fill whole buffer")
  | firstByte :: input => decodeMajor item (firstByte >>> 5) (firstByte &&& 0x1f) input

end Decode

section Codec

variable [CidCrate]

/-- `decode_dag_cbor` with at most `fuel` nested calls. -/
def decodeAux : ℕ → Bytes → Except Error (Ipld × Bytes)
  | 0 => fun _ => .error (.deserialization "Failed to read CBOR: failed to fill whole buffer")
  | fuel + 1 => decodeBody (decodeAux fuel)

/-- `decode_dag_cbor`: the value at the head of the stream, and the rest of the stream. -/
def decodeDagCbor (input : Bytes) : Except Error (Ipld × Bytes) :=
  decodeAux input.length input

/-- `Ipld::from_dag_cbor`, except for its panic. What follows the value is not looked at. -/
def Ipld.fromDagCbor (data : Bytes) : Except Error Ipld := do
  let (x, _) ← decodeDagCbor data
  return x

end Codec

/-! ### The decoder consumes its input

Every item takes at least one byte from the stream. That is why the count of `decodeAux` is always
enough, and it is all that the fixed-point equation needs. -/

theorem readExact_eq_ok {what : String} {n : ℕ} {input a rest : Bytes}
    (h : readExact what n input = .ok (a, rest)) : a.length = n ∧ input = a ++ rest := by
  unfold readExact at h
  split at h
  · next r hr =>
    obtain rfl := Except.ok.inj h
    exact ByteStream.readExact_eq_some hr
  · exact absurd h (by simp)

variable {v : UInt64}

theorem readUint_length_le {what : String} {n : ℕ} {input rest : Bytes}
    (h : readUint what n input = .ok (v, rest)) : rest.length ≤ input.length := by
  obtain ⟨⟨buf, r⟩, hread, hret⟩ := Except.bind_eq_ok_iff.mp h
  obtain ⟨-, rfl⟩ := Prod.mk.inj (Except.ok.inj hret)
  obtain ⟨-, rfl⟩ := readExact_eq_ok hread
  simp

theorem decodeCborUint_length_le {info : UInt8} {input rest : Bytes}
    (h : decodeCborUint info input = .ok (v, rest)) : rest.length ≤ input.length := by
  unfold decodeCborUint at h
  split at h
  · -- the value is in the first byte
    obtain ⟨-, rfl⟩ := Prod.mk.inj (Except.ok.inj h)
    exact le_rfl
  all_goals
    repeat' split at h
    all_goals first
      | exact readUint_length_le h
      | exact absurd h (by simp)

section Consume

variable [CidCrate] {item item' : Bytes → Except Error (Ipld × Bytes)}

/-- A reader that never puts bytes back. -/
def NonGrowing (item : Bytes → Except Error (Ipld × Bytes)) : Prop :=
  ∀ {input x rest}, item input = .ok (x, rest) → rest.length ≤ input.length

omit [CidCrate] in
theorem decodeItems_succ_eq_ok {n : ℕ} {input rest : Bytes} {ys : List Ipld} :
    decodeItems item (n + 1) input = .ok (ys, rest) ↔
      ∃ x r xs, item input = .ok (x, r) ∧ decodeItems item n r = .ok (xs, rest) ∧ ys = x :: xs := by
  constructor
  · intro h
    obtain ⟨⟨x, r⟩, hx, h⟩ := Except.bind_eq_ok_iff.mp h
    obtain ⟨⟨xs, r'⟩, hxs, h⟩ := Except.bind_eq_ok_iff.mp h
    obtain ⟨rfl, rfl⟩ := Prod.mk.inj (Except.ok.inj h)
    exact ⟨x, r, xs, hx, hxs, rfl⟩
  · rintro ⟨x, r, xs, hx, hxs, rfl⟩
    rw [decodeItems, hx]
    change (decodeItems item n r >>= _) = _
    rw [hxs]
    rfl

omit [CidCrate] in
theorem decodeEntries_succ_eq_ok {n : ℕ} {m m' : List (String × Ipld)} {input rest : Bytes} :
    decodeEntries item (n + 1) m input = .ok (m', rest) ↔
      ∃ key r value r', item input = .ok (.string key, r) ∧ item r = .ok (value, r') ∧
        decodeEntries item n (SortedMap.insert key value m) r' = .ok (m', rest) := by
  constructor
  · intro h
    obtain ⟨⟨key, r⟩, hkey, h⟩ := Except.bind_eq_ok_iff.mp h
    cases key with
    | string keyStr =>
      obtain ⟨⟨value, r'⟩, hvalue, h⟩ := Except.bind_eq_ok_iff.mp h
      exact ⟨keyStr, r, value, r', hkey, hvalue, h⟩
    | _ => exact absurd h (by simp)
  · rintro ⟨key, r, value, r', hkey, hvalue, h⟩
    rw [decodeEntries, hkey]
    change (item r >>= _) = _
    rw [hvalue]
    exact h

omit [CidCrate] in
theorem decodeItems_length_le (hi : NonGrowing item) :
    ∀ {n : ℕ} {input rest : Bytes} {xs : List Ipld},
      decodeItems item n input = .ok (xs, rest) → rest.length ≤ input.length := by
  intro n
  induction n with
  | zero =>
    intro input rest xs h
    obtain ⟨-, rfl⟩ := Prod.mk.inj (Except.ok.inj h)
    exact le_rfl
  | succ n ih =>
    intro input rest xs h
    obtain ⟨x, r, xs', hx, hxs, -⟩ := decodeItems_succ_eq_ok.mp h
    exact (ih hxs).trans (hi hx)

omit [CidCrate] in
theorem decodeEntries_length_le (hi : NonGrowing item) :
    ∀ {n : ℕ} {m m' : List (String × Ipld)} {input rest : Bytes},
      decodeEntries item n m input = .ok (m', rest) → rest.length ≤ input.length := by
  intro n
  induction n with
  | zero =>
    intro m m' input rest h
    obtain ⟨-, rfl⟩ := Prod.mk.inj (Except.ok.inj h)
    exact le_rfl
  | succ n ih =>
    intro m m' input rest h
    obtain ⟨key, r, value, r', hkey, hvalue, h⟩ := decodeEntries_succ_eq_ok.mp h
    exact ((ih h).trans (hi hvalue)).trans (hi hkey)

variable {info : UInt8} {fuel k : ℕ}

omit [CidCrate] in
theorem decodeSimple_length_le {input rest : Bytes} {x : Ipld}
    (h : decodeSimple info input = .ok (x, rest)) : rest.length ≤ input.length := by
  have hfloat : ∀ {what n} {f : UInt64 → UInt64},
      (do let (bits, input) ← readUint what n input; return (Ipld.float (f bits), input))
        = Except.ok (x, rest) → rest.length ≤ input.length := by
    intro what n f h
    obtain ⟨⟨bits, r⟩, hr, h⟩ := Except.bind_eq_ok_iff.mp h
    obtain ⟨-, rfl⟩ := Prod.mk.inj (Except.ok.inj h)
    exact readUint_length_le hr
  unfold decodeSimple at h
  repeat' split at h
  all_goals first
    | exact hfloat h
    | exact hfloat (f := id) h
    | exact le_of_eq (congrArg List.length (Prod.mk.inj (Except.ok.inj h)).2.symm)
    | exact absurd h (by simp)

omit [CidCrate] in
theorem decodeCborUint_bind_length_le {α : Type} {input rest : Bytes} {x : α}
    {f : UInt64 × Bytes → Except Error (α × Bytes)}
    (hf : ∀ v r, f (v, r) = .ok (x, rest) → rest.length ≤ r.length)
    (h : (decodeCborUint info input >>= f) = .ok (x, rest)) : rest.length ≤ input.length := by
  obtain ⟨⟨v, r⟩, hv, hr⟩ := Except.bind_eq_ok_iff.mp h
  exact (hf v r hr).trans (decodeCborUint_length_le hv)

theorem decodeMajor_length_le (hi : NonGrowing item) {mt : UInt8} {input rest : Bytes} {x : Ipld}
    (h : decodeMajor item mt info input = .ok (x, rest)) : rest.length ≤ input.length := by
  unfold decodeMajor at h
  split at h
  case h_1 | h_2 =>
    -- an integer is its header
    refine decodeCborUint_bind_length_le (fun v r h => ?_) h
    obtain ⟨-, rfl⟩ := Prod.mk.inj (Except.ok.inj h)
    exact le_rfl
  case h_3 =>
    -- a byte string
    refine decodeCborUint_bind_length_le (fun v r h => ?_) h
    obtain ⟨⟨bytes, r₂⟩, h₂, h⟩ := Except.bind_eq_ok_iff.mp h
    obtain ⟨-, rfl⟩ := Prod.mk.inj (Except.ok.inj h)
    obtain ⟨-, rfl⟩ := readExact_eq_ok h₂
    simp
  case h_4 =>
    -- a text string, which may fail to be UTF-8
    refine decodeCborUint_bind_length_le (fun v r h => ?_) h
    obtain ⟨⟨bytes, r₂⟩, h₂, h₃⟩ := Except.bind_eq_ok_iff.mp h
    obtain ⟨-, hr⟩ := readExact_eq_ok h₂
    dsimp only at h₃
    split at h₃
    · obtain ⟨-, rfl⟩ := Prod.mk.inj (Except.ok.inj h₃)
      simp [hr]
    · exact absurd h₃ (by simp)
  case h_5 =>
    -- a list
    refine decodeCborUint_bind_length_le (fun v r h => ?_) h
    obtain ⟨⟨list, r₂⟩, h₂, h⟩ := Except.bind_eq_ok_iff.mp h
    obtain ⟨-, rfl⟩ := Prod.mk.inj (Except.ok.inj h)
    exact decodeItems_length_le hi h₂
  case h_6 =>
    -- a map
    refine decodeCborUint_bind_length_le (fun v r h => ?_) h
    obtain ⟨⟨map, r₂⟩, h₂, h⟩ := Except.bind_eq_ok_iff.mp h
    obtain ⟨-, rfl⟩ := Prod.mk.inj (Except.ok.inj h)
    exact decodeEntries_length_le hi h₂
  case h_7 =>
    -- a tag: a link, or the item under it
    refine decodeCborUint_bind_length_le (fun v r h => ?_) h
    dsimp only at h
    split at h
    · obtain ⟨⟨bytesIpld, r₂⟩, h₂, h⟩ := Except.bind_eq_ok_iff.mp h
      obtain ⟨link, -, h⟩ := Except.bind_eq_ok_iff.mp h
      obtain ⟨-, rfl⟩ := Prod.mk.inj (Except.ok.inj h)
      exact hi h₂
    · exact hi h
  case h_8 => exact decodeSimple_length_le h
  case h_9 => exact absurd h (by simp)

theorem decodeBody_length_lt (hi : NonGrowing item) {input rest : Bytes} {x : Ipld}
    (h : decodeBody item input = .ok (x, rest)) : rest.length < input.length := by
  cases input with
  | nil => exact absurd h (by simp [decodeBody])
  | cons b input => exact Nat.lt_succ_of_le (decodeMajor_length_le hi h)

theorem decodeAux_length_lt {input rest : Bytes} {x : Ipld}
    (h : decodeAux fuel input = .ok (x, rest)) : rest.length < input.length := by
  induction fuel generalizing input rest x with
  | zero => exact absurd h (by simp [decodeAux])
  | succ fuel ih => exact decodeBody_length_lt (fun h' => (ih h').le) h

/-! ### The count is never noticed -/

/-- Two readers that agree on streams of at most `n` bytes. -/
def AgreeUpTo (n : ℕ) (item item' : Bytes → Except Error (Ipld × Bytes)) : Prop :=
  ∀ input : Bytes, input.length ≤ n → item input = item' input

omit [CidCrate] in
theorem decodeItems_congr (hi : NonGrowing item) (ha : AgreeUpTo k item item') :
    ∀ (n : ℕ) {input : Bytes}, input.length ≤ k →
      decodeItems item n input = decodeItems item' n input := by
  intro n
  induction n with
  | zero => intro input _; rfl
  | succ n ih =>
    intro input hk
    rw [decodeItems, decodeItems, ← ha input hk]
    refine Except.bind_congr_ok fun ⟨x, r⟩ hx => ?_
    simp only [ih ((hi hx).trans hk)]

omit [CidCrate] in
theorem decodeEntries_congr (hi : NonGrowing item) (ha : AgreeUpTo k item item') :
    ∀ (n : ℕ) (m : List (String × Ipld)) {input : Bytes}, input.length ≤ k →
      decodeEntries item n m input = decodeEntries item' n m input := by
  intro n
  induction n with
  | zero => intro m input _; rfl
  | succ n ih =>
    intro m input hk
    rw [decodeEntries, decodeEntries, ← ha input hk]
    refine Except.bind_congr_ok fun ⟨key, r⟩ hkey => ?_
    -- what is left after the key is no longer than the stream
    have hr := (hi hkey).trans hk
    cases key with
    | string keyStr =>
      simp only [← ha r hr]
      refine Except.bind_congr_ok fun ⟨value, r'⟩ hvalue => ?_
      exact ih _ ((hi hvalue).trans hr)
    | _ => rfl

theorem decodeMajor_congr (hi : NonGrowing item) (ha : AgreeUpTo k item item') (mt info : UInt8)
    {input : Bytes} (hk : input.length ≤ k) :
    decodeMajor item mt info input = decodeMajor item' mt info input := by
  unfold decodeMajor
  split
  -- only lists, maps and tags read items, from what their header leaves
  case h_5 =>
    refine Except.bind_congr_ok fun ⟨len, r⟩ hlen => ?_
    simp only [decodeItems_congr hi ha _ ((decodeCborUint_length_le hlen).trans hk)]
  case h_6 =>
    refine Except.bind_congr_ok fun ⟨len, r⟩ hlen => ?_
    simp only [decodeEntries_congr hi ha _ _ ((decodeCborUint_length_le hlen).trans hk)]
  case h_7 =>
    refine Except.bind_congr_ok fun ⟨tag, r⟩ htag => ?_
    simp only [ha r ((decodeCborUint_length_le htag).trans hk)]
  all_goals rfl

theorem decodeBody_congr (hi : NonGrowing item) (ha : AgreeUpTo k item item') {input : Bytes}
    (hk : input.length ≤ k + 1) : decodeBody item input = decodeBody item' input := by
  cases input with
  | nil => rfl
  | cons b input => exact decodeMajor_congr hi ha _ _ (Nat.le_of_succ_le_succ hk)

/-- Any count that is at least the number of unread bytes gives the same answer. -/
theorem decodeAux_congr {fuel' : ℕ} {input : Bytes} (h : input.length ≤ fuel)
    (h' : input.length ≤ fuel') : decodeAux fuel input = decodeAux fuel' input := by
  induction fuel generalizing fuel' input with
  | zero =>
    -- nothing is left to read, and both sides report just that
    obtain rfl : input = [] := List.eq_nil_of_length_eq_zero (Nat.le_zero.mp h)
    cases fuel' <;> rfl
  | succ fuel ih =>
    cases fuel' with
    | zero =>
      obtain rfl : input = [] := List.eq_nil_of_length_eq_zero (Nat.le_zero.mp h')
      rfl
    | succ fuel' =>
      -- the nested calls see at most `min fuel fuel'` bytes
      have hagree : AgreeUpTo (min fuel fuel') (decodeAux fuel) (decodeAux fuel') :=
        fun inp hinp => ih (hinp.trans (min_le_left _ _)) (hinp.trans (min_le_right _ _))
      exact decodeBody_congr (fun hx => (decodeAux_length_lt hx).le) hagree (by omega)

/-- **The recursion of the source.** `decodeDagCbor` is its own recursive call. -/
theorem decodeDagCbor_eq (input : Bytes) :
    decodeDagCbor input = decodeBody decodeDagCbor input := by
  have hagree : AgreeUpTo input.length (decodeAux input.length) decodeDagCbor :=
    fun inp hinp => decodeAux_congr hinp le_rfl
  calc decodeDagCbor input
      = decodeAux (input.length + 1) input := decodeAux_congr le_rfl (Nat.le_succ _)
    _ = decodeBody (decodeAux input.length) input := rfl
    _ = decodeBody decodeDagCbor input :=
      decodeBody_congr (fun hx => (decodeAux_length_lt hx).le) hagree (Nat.le_succ _)

theorem decodeDagCbor_length_lt {input rest : Bytes} {x : Ipld}
    (h : decodeDagCbor input = .ok (x, rest)) : rest.length < input.length :=
  decodeAux_length_lt h

end Consume

end Ipfrs
