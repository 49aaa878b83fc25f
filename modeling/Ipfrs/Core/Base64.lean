import Mathlib.Tactic.IntervalCases
import Ipfrs.Core.Jose

/-!
# Base64

The codec in `ipfrs-core/src/jose.rs` that is written by hand: three bytes are four characters of
six bits, and the last one or two bytes are filled up with `=`.

* `sextets_back` — four sextets have the bits of three bytes;
* `base64_roundTrip` — what is encoded reads back, and is padded at its end only.
-/

namespace Ipfrs

/-- The 64 characters. -/
def base64Alphabet : List Char :=
  "ABCDEFGHIJKLMNOPQRSTUVWXYZabcdefghijklmnopqrstuvwxyz0123456789+/".toList

/-! ### One character -/

/-- Six bits of the number that three bytes make. -/
def sextet (n : UInt32) (shift : UInt32) : UInt32 := (n >>> shift) &&& 0x3f

theorem sextet_lt (n shift : UInt32) : (sextet n shift).toNat < 64 := by
  rw [sextet, UInt32.toNat_and]
  exact Nat.lt_succ_of_le Nat.and_le_right

theorem b64char_spec : ∀ k < 64, b64char (UInt32.ofNat k) ∈ base64Alphabet ∧
    (b64char (UInt32.ofNat k)).utf8Size = 1 ∧
    (b64char (UInt32.ofNat k)).toUInt8 ≠ '='.toUInt8 ∧
    b64decodeChar (b64char (UInt32.ofNat k)).toUInt8 = .ok (UInt32.ofNat k).toUInt8 := by
  decide +kernel

theorem b64char_sextet (n shift : UInt32) : b64char (sextet n shift) ∈ base64Alphabet ∧
    (b64char (sextet n shift)).utf8Size = 1 ∧
    (b64char (sextet n shift)).toUInt8 ≠ '='.toUInt8 ∧
    b64decodeChar (b64char (sextet n shift)).toUInt8 = .ok (sextet n shift).toUInt8 := by
  have h := b64char_spec _ (sextet_lt n shift)
  rwa [UInt32.ofNat_toNat] at h

/-! ### Three bytes -/

section Sextets

variable (b1 b2 b3 : UInt8)

/-- The number that three bytes make. -/
def threeBytes : UInt32 := (b1.toUInt32 <<< 16) ||| (b2.toUInt32 <<< 8) ||| b3.toUInt32

/-- **Four sextets** have the bits of the three bytes, in order. -/
theorem sextets_back :
    ((sextet (threeBytes b1 b2 b3) 18).toUInt8 <<< 2) |||
        ((sextet (threeBytes b1 b2 b3) 12).toUInt8 >>> 4) = b1 ∧
      ((sextet (threeBytes b1 b2 b3) 12).toUInt8 <<< 4) |||
        ((sextet (threeBytes b1 b2 b3) 6).toUInt8 >>> 2) = b2 ∧
      ((sextet (threeBytes b1 b2 b3) 6).toUInt8 <<< 6) |||
        (sextet (threeBytes b1 b2 b3) 0).toUInt8 = b3 := by
  refine ⟨?_, ?_, ?_⟩ <;> apply UInt8.toBitVec_inj.mp
  -- bit by bit, every shift is by a number
  all_goals
    simp only [sextet, threeBytes, UInt8.toBitVec_or, UInt8.toBitVec_shiftLeft,
      UInt8.toBitVec_shiftRight, UInt32.toBitVec_toUInt8, UInt32.toBitVec_and,
      UInt32.toBitVec_shiftRight, UInt32.toBitVec_or, UInt32.toBitVec_shiftLeft,
      UInt8.toBitVec_toUInt32]
    ext i hi
    interval_cases i <;> simp

theorem base64EncodeChunk_one : base64EncodeChunk [b1] =
    [b64char (sextet (threeBytes b1 0 0) 18), b64char (sextet (threeBytes b1 0 0) 12), '=', '='] :=
  rfl

theorem base64EncodeChunk_two : base64EncodeChunk [b1, b2] =
    [b64char (sextet (threeBytes b1 b2 0) 18), b64char (sextet (threeBytes b1 b2 0) 12),
      b64char (sextet (threeBytes b1 b2 0) 6), '='] :=
  rfl

theorem base64EncodeChunk_three : base64EncodeChunk [b1, b2, b3] =
    [b64char (sextet (threeBytes b1 b2 b3) 18), b64char (sextet (threeBytes b1 b2 b3) 12),
      b64char (sextet (threeBytes b1 b2 b3) 6), b64char (sextet (threeBytes b1 b2 b3) 0)] := by
  have hzero : threeBytes b1 b2 b3 >>> 0 = threeBytes b1 b2 b3 := by
    apply UInt32.toBitVec_inj.mp
    simp
  rw [sextet, sextet, sextet, sextet, hzero]
  rfl

end Sextets

/-! ### The text -/

/-- The characters of the encoding. -/
def base64Chars (data : Bytes) : List Char := (ListChunks.chunks 3 data).flatMap base64EncodeChunk

theorem toList_base64Encode (data : Bytes) : (base64Encode data).toList = base64Chars data :=
  String.toList_ofList

theorem base64Chars_nil : base64Chars [] = [] := by
  rw [base64Chars, ListChunks.chunks_nil]
  rfl

theorem base64Chars_last {data : Bytes} (hne : data ≠ []) (hle : data.length ≤ 3) :
    base64Chars data = base64EncodeChunk data := by
  rw [base64Chars, ListChunks.chunks_of_length_le hne hle, List.flatMap_singleton]

theorem base64Chars_cons (b1 b2 b3 : UInt8) (rest : Bytes) :
    base64Chars (b1 :: b2 :: b3 :: rest) = base64EncodeChunk [b1, b2, b3] ++ base64Chars rest := by
  have hchunks : ListChunks.chunks 3 (b1 :: b2 :: b3 :: rest)
      = [b1, b2, b3] :: ListChunks.chunks 3 rest :=
    ListChunks.chunks_append (l := [b1, b2, b3]) (by simp) rfl rest
  rw [base64Chars, hchunks, List.flatMap_cons]
  rfl

theorem utf8_ofList {cs : List Char} (h : ∀ c ∈ cs, c.utf8Size = 1) :
    utf8 (String.ofList cs) = cs.map Char.toUInt8 := by
  have hflat : cs.flatMap String.utf8EncodeChar = cs.map Char.toUInt8 := by
    induction cs with
    | nil => rfl
    | cons c cs ih =>
      rw [List.flatMap_cons, List.map_cons,
        String.utf8EncodeChar_eq_singleton (h c List.mem_cons_self),
        ih fun d hd => h d (List.mem_cons_of_mem _ hd)]
      rfl
  rw [utf8, String.toByteArray_ofList, List.utf8Encode, hflat]
  simp

/-- Where the characters come from: the alphabet, and `=` in the last two places. -/
theorem base64Chars_spec (data : Bytes) : ∀ i c, (base64Chars data)[i]? = some c →
    c ∈ base64Alphabet ∨ c = '=' ∧ (base64Chars data).length ≤ i + 2 := by
  match data with
  | [] => simp [base64Chars_nil]
  | [b1] =>
    intro i c hc
    rw [base64Chars_last (by simp) (by simp), base64EncodeChunk_one] at hc ⊢
    obtain _ | _ | _ | _ | i := i
    · exact .inl (Option.some.inj hc ▸ (b64char_sextet _ _).1)
    · exact .inl (Option.some.inj hc ▸ (b64char_sextet _ _).1)
    · exact .inr ⟨(Option.some.inj hc).symm, le_rfl⟩
    · exact .inr ⟨(Option.some.inj hc).symm, by simp⟩
    · simp at hc
  | [b1, b2] =>
    intro i c hc
    rw [base64Chars_last (by simp) (by simp), base64EncodeChunk_two] at hc ⊢
    obtain _ | _ | _ | _ | i := i
    · exact .inl (Option.some.inj hc ▸ (b64char_sextet _ _).1)
    · exact .inl (Option.some.inj hc ▸ (b64char_sextet _ _).1)
    · exact .inl (Option.some.inj hc ▸ (b64char_sextet _ _).1)
    · exact .inr ⟨(Option.some.inj hc).symm, by simp⟩
    · simp at hc
  | b1 :: b2 :: b3 :: rest =>
    intro i c hc
    rw [base64Chars_cons, base64EncodeChunk_three] at hc ⊢
    obtain _ | _ | _ | _ | i := i
    · exact .inl (Option.some.inj hc ▸ (b64char_sextet _ _).1)
    · exact .inl (Option.some.inj hc ▸ (b64char_sextet _ _).1)
    · exact .inl (Option.some.inj hc ▸ (b64char_sextet _ _).1)
    · exact .inl (Option.some.inj hc ▸ (b64char_sextet _ _).1)
    · -- behind the first four characters
      refine (base64Chars_spec rest i c hc).imp_right (And.imp_right fun hle => ?_)
      simp only [List.length_append, List.length_cons, List.length_nil]
      omega

theorem utf8Size_of_mem_base64Chars {data : Bytes} : ∀ c ∈ base64Chars data, c.utf8Size = 1 := by
  have hall : base64Alphabet.all (fun c => c.utf8Size == 1) = true := by decide
  intro c hc
  obtain ⟨i, hi⟩ := List.mem_iff_getElem?.mp hc
  obtain hmem | ⟨rfl, -⟩ := base64Chars_spec data i c hi
  · exact eq_of_beq (List.all_eq_true.mp hall c hmem)
  · rfl

/-! ### The round trip -/

theorem base64Decode_eq (s : String) :
    base64Decode s = base64DecodeChunks (ListChunks.chunks 4 (utf8 s)) [] := by
  rw [base64Decode]
  split
  · next hempty =>
    obtain rfl := String.isEmpty_iff.mp hempty
    rw [show utf8 "" = [] from rfl, ListChunks.chunks_nil]
    rfl
  · rfl

/-- The bytes of the text. -/
def base64Bytes (cs : List Char) : Bytes := cs.map Char.toUInt8

theorem decode_sextet (n shift : UInt32) :
    b64decodeChar (b64char (sextet n shift)).toUInt8 = .ok (sextet n shift).toUInt8 :=
  (b64char_sextet n shift).2.2.2

/-- **The loop of the decoder** gives the bytes back, chunk by chunk. -/
theorem base64DecodeChunks_encode (data result : Bytes) :
    base64DecodeChunks (ListChunks.chunks 4 (base64Bytes (base64Chars data))) result
      = .ok (result ++ data) := by
  match data with
  | [] =>
    rw [base64Chars_nil, base64Bytes, List.map_nil, ListChunks.chunks_nil, List.append_nil]
    rfl
  | [b1] =>
    have hback := sextets_back b1 0 0
    rw [base64Chars_last (by simp) (by simp), base64EncodeChunk_one, base64Bytes,
      ListChunks.chunks_of_length_le (by simp) (by simp)]
    simp [base64DecodeChunks, decode_sextet, hback.1]
  | [b1, b2] =>
    have hback := sextets_back b1 b2 0
    have hthird := (b64char_sextet (threeBytes b1 b2 0) 6).2.2.1
    rw [base64Chars_last (by simp) (by simp), base64EncodeChunk_two, base64Bytes,
      ListChunks.chunks_of_length_le (by simp) (by simp)]
    simp [base64DecodeChunks, decode_sextet, hback.1, hback.2.1, hthird]
  | b1 :: b2 :: b3 :: rest =>
    have hback := sextets_back b1 b2 b3
    have hthird := (b64char_sextet (threeBytes b1 b2 b3) 6).2.2.1
    have hfourth := (b64char_sextet (threeBytes b1 b2 b3) 0).2.2.1
    have ih := base64DecodeChunks_encode rest (result ++ [b1, b2, b3])
    rw [base64Chars_cons, base64EncodeChunk_three, base64Bytes, List.map_append,
      ListChunks.chunks_append (by decide) (by simp)]
    rw [List.append_assoc] at ih
    simpa [base64Bytes, base64DecodeChunks, decode_sextet, hback, hthird, hfourth]
      using ih

/-- **Base64.** What is encoded reads back. The text has characters of the alphabet, and `=` at most
in its last two places. -/
theorem base64_roundTrip (data : Bytes) :
    base64Decode (base64Encode data) = .ok data ∧
      ∀ i c, (base64Encode data).toList[i]? = some c →
        c ∈ base64Alphabet ∨ c = '=' ∧ (base64Encode data).toList.length ≤ i + 2 := by
  constructor
  · have hutf8 : utf8 (base64Encode data) = base64Bytes (base64Chars data) :=
      utf8_ofList utf8Size_of_mem_base64Chars
    rw [base64Decode_eq, hutf8, base64DecodeChunks_encode, List.nil_append]
  · rw [toList_base64Encode]
    exact base64Chars_spec data

end Ipfrs
