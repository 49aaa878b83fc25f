import Ipfrs.Core.CidReference
import Ipfrs.Core.DagCbor

/-!
# Decoding what was encoded

`decode_dag_cbor` run on the output of `encode_dag_cbor` stops where the output stops, and finds the
value again, up to what the encoder did to its integers: `encode_cbor_integer` casts an `i128` to
`u64`, which keeps only the low 64 bits of its magnitude. `Ipld.narrow` is the value with every
integer cut down like that.

* `decodeDagCbor_encodeDagCbor` — decoding finds `narrow x`, for every value;
* `dagCbor_roundTrip` — it finds `x` itself when the integers of `x` fit;
* `encodeDagCbor_eq_iff` — two values have the same encoding exactly when `narrow` makes them equal.
-/

namespace Ipfrs

/-! ### Integers cut to 64 bits -/

/-- The integer that is read back for `i`. -/
def narrowInt (i : ℤ) : ℤ :=
  if 0 ≤ i then i % 2 ^ 64 else -1 - (-1 - i) % 2 ^ 64

namespace Ipld

mutual

/-- The value with every integer cut down by `narrowInt`. -/
def narrow : Ipld → Ipld
  | integer i => integer (narrowInt i)
  | list l => list (narrowList l)
  | map m => map (narrowMap m)
  | null => null
  | bool b => bool b
  | float f => float f
  | string s => string s
  | bytes b => bytes b
  | link c => link c

/-- `narrow` on the items of a list. -/
def narrowList : List Ipld → List Ipld
  | [] => []
  | x :: xs => narrow x :: narrowList xs

/-- `narrow` on the values of a map. -/
def narrowMap : List (String × Ipld) → List (String × Ipld)
  | [] => []
  | (k, x) :: xs => (k, narrow x) :: narrowMap xs

end

mutual

/-- All integers in the value lie in `[-2^64, 2^64 - 1]`. -/
def IntsFit : Ipld → Prop
  | integer i => -2 ^ 64 ≤ i ∧ i ≤ 2 ^ 64 - 1
  | list l => IntsFitList l
  | map m => IntsFitMap m
  | _ => True

/-- `IntsFit` for every item. -/
def IntsFitList : List Ipld → Prop
  | [] => True
  | x :: xs => IntsFit x ∧ IntsFitList xs

/-- `IntsFit` for every value. -/
def IntsFitMap : List (String × Ipld) → Prop
  | [] => True
  | (_, x) :: xs => IntsFit x ∧ IntsFitMap xs

end

mutual

/-- `IntsFit` can be computed. -/
def decIntsFit : (x : Ipld) → Decidable (IntsFit x)
  | integer i => inferInstanceAs (Decidable (-2 ^ 64 ≤ i ∧ i ≤ 2 ^ 64 - 1))
  | list l => decIntsFitList l
  | map m => decIntsFitMap m
  | null => inferInstanceAs (Decidable True)
  | bool _ => inferInstanceAs (Decidable True)
  | float _ => inferInstanceAs (Decidable True)
  | string _ => inferInstanceAs (Decidable True)
  | bytes _ => inferInstanceAs (Decidable True)
  | link _ => inferInstanceAs (Decidable True)

/-- `decIntsFit` on the items of a list. -/
def decIntsFitList : (l : List Ipld) → Decidable (IntsFitList l)
  | [] => inferInstanceAs (Decidable True)
  | x :: xs =>
    have := decIntsFit x
    have := decIntsFitList xs
    inferInstanceAs (Decidable (IntsFit x ∧ IntsFitList xs))

/-- `decIntsFit` on the values of a map. -/
def decIntsFitMap : (m : List (String × Ipld)) → Decidable (IntsFitMap m)
  | [] => inferInstanceAs (Decidable True)
  | (_, x) :: xs =>
    have := decIntsFit x
    have := decIntsFitMap xs
    inferInstanceAs (Decidable (IntsFit x ∧ IntsFitMap xs))

end

instance : DecidablePred IntsFit := decIntsFit

theorem narrowList_eq_map (l : List Ipld) : narrowList l = l.map narrow := by
  induction l with
  | nil => rfl
  | cons x xs ih => rw [narrowList, ih, List.map_cons]

theorem narrowMap_eq_map (m : List (String × Ipld)) :
    narrowMap m = m.map fun e => (e.1, narrow e.2) := by
  induction m with
  | nil => rfl
  | cons e es ih =>
    obtain ⟨k, x⟩ := e
    rw [narrowMap, ih, List.map_cons]

theorem intsFitList_iff {l : List Ipld} : IntsFitList l ↔ ∀ x ∈ l, IntsFit x := by
  induction l with
  | nil => simp [IntsFitList]
  | cons x xs ih => simp [IntsFitList, ih]

variable {m : List (String × Ipld)}

theorem intsFitMap_iff : IntsFitMap m ↔ ∀ e ∈ m, IntsFit e.2 := by
  induction m with
  | nil => simp [IntsFitMap]
  | cons e es ih =>
    obtain ⟨k, x⟩ := e
    simp [IntsFitMap, ih]

theorem narrowInt_of_fit {i : ℤ} (h : -2 ^ 64 ≤ i ∧ i ≤ 2 ^ 64 - 1) : narrowInt i = i := by
  unfold narrowInt
  split <;> omega

theorem narrow_of_intsFit {x : Ipld} (h : x.IntsFit) : x.narrow = x := by
  induction x with
  | integer i => rw [narrow, narrowInt_of_fit h]
  | list l ih =>
    rw [IntsFit, intsFitList_iff] at h
    rw [narrow, narrowList_eq_map, List.map_congr_left fun x hx => ih x hx (h x hx), List.map_id']
  | map m ih =>
    rw [IntsFit, intsFitMap_iff] at h
    have hm : ∀ e ∈ m, (e.1, narrow e.2) = e := fun e he => by rw [ih e he (h e he)]
    rw [narrow, narrowMap_eq_map, List.map_congr_left hm, List.map_id']
  | _ => rfl

theorem valid_u64 (n : UInt64) :
    (Ipld.integer n.toNat).Valid ∧ (Ipld.integer n.toNat).IntsFit := by
  have h := n.toNat_lt
  exact ⟨⟨by omega, by omega⟩, by omega, by omega⟩

theorem narrowMap_sorted (h : SortedMap.Sorted m) : SortedMap.Sorted (narrowMap m) := by
  rw [narrowMap_eq_map, SortedMap.Sorted, List.pairwise_map]
  exact h

end Ipld

theorem asU64_toNat (i : ℤ) : ((asU64 i).toNat : ℤ) = i % 2 ^ 64 := by
  have hlt : (i % 2 ^ 64).toNat < 2 ^ 64 := by omega
  rw [asU64, UInt64.toNat_ofNat_of_lt' hlt]
  omega

theorem asU64_emod (i : ℤ) : asU64 (i % 2 ^ 64) = asU64 i := by
  rw [asU64, asU64, Int.emod_emod]

theorem encodeCborInteger_narrowInt (i : ℤ) :
    encodeCborInteger (narrowInt i) = encodeCborInteger i := by
  unfold narrowInt
  split
  · next h =>
    have hpos : i % 2 ^ 64 ≥ 0 := Int.emod_nonneg _ (by norm_num)
    rw [encodeCborInteger, encodeCborInteger, if_pos hpos, if_pos h, asU64_emod]
  · next h =>
    have hpos : (-1 - i) % 2 ^ 64 ≥ 0 := Int.emod_nonneg _ (by norm_num)
    have hneg : ¬ (-1 - (-1 - i) % 2 ^ 64 ≥ 0) := by omega
    have hcancel : -1 - (-1 - (-1 - i) % 2 ^ 64) = (-1 - i) % 2 ^ 64 := by ring
    rw [encodeCborInteger, encodeCborInteger, if_neg hneg, if_neg h, hcancel, asU64_emod]

/-! ### Headers -/

theorem header_halves : ∀ mt : Fin 8, ∀ info : Fin 32,
    let b := (UInt8.ofNat mt.val) <<< 5 ||| UInt8.ofNat info.val
    b >>> 5 = UInt8.ofNat mt.val ∧ b &&& 0x1f = UInt8.ofNat info.val := by
  decide

theorem header_split {mt info : UInt8} (hmt : mt.toNat < 8) (hinfo : info.toNat < 32) :
    (mt <<< 5 ||| info) >>> 5 = mt ∧ (mt <<< 5 ||| info) &&& 0x1f = info := by
  have h := header_halves ⟨mt.toNat, hmt⟩ ⟨info.toNat, hinfo⟩
  simpa using h

variable {what : String} {n : ℕ}

theorem readUint_encode {v : ℕ} (h : v < 256 ^ n) (rest : Bytes) :
    readUint what n (BigEndian.encode n v ++ rest) = .ok (UInt64.ofNat v, rest) := by
  rw [readUint, readExact, ByteStream.readExact_append (BigEndian.length_encode n v)]
  simp [Nat.mod_eq_of_lt h]

theorem readUint_encode_toNat {len : UInt64} (h : len.toNat < 256 ^ n) (rest : Bytes) :
    readUint what n (BigEndian.encode n len.toNat ++ rest) = .ok (len, rest) := by
  rw [readUint_encode h, UInt64.ofNat_toNat]

/-- **A header reads back.** `encode_cbor_length` writes one byte that carries the major type, and
`decode_cbor_uint` finds the argument from the rest of that byte and the bytes that follow. The case
split is over the five widths. -/
theorem encodeCborLength_spec (mt : UInt8) (len : UInt64) :
    ∃ info tail, encodeCborLength mt len = (mt <<< 5 ||| info) :: tail ∧ info.toNat < 32 ∧
      ∀ rest, decodeCborUint info (tail ++ rest) = .ok (len, rest) := by
  have hlen := len.toNat_lt
  unfold encodeCborLength
  dsimp only
  by_cases h24 : len < 24
  · -- the argument is in the first byte
    rw [if_pos h24]
    have h24' : len.toNat < 24 := UInt64.lt_iff_toNat_lt.mp h24
    refine ⟨len.toUInt8, [], rfl, ?_, fun rest => ?_⟩
    · rw [UInt64.toNat_toUInt8]; omega
    · have hle : len.toUInt8 ≤ 23 := by
        rw [UInt8.le_iff_toNat_le, UInt64.toNat_toUInt8]
        change len.toNat % 256 ≤ 23
        omega
      have hval : len.toUInt8.toUInt64 = len := by
        apply UInt64.toNat_inj.mp
        rw [UInt8.toNat_toUInt64, UInt64.toNat_toUInt8]
        omega
      rw [decodeCborUint, if_pos hle, hval]
      rfl
  rw [if_neg h24]
  by_cases h256 : len < 256
  · -- one more byte
    rw [if_pos h256]
    have h256' : len.toNat < 256 := UInt64.lt_iff_toNat_lt.mp h256
    have hbyte : [len.toUInt8] = BigEndian.encode 1 len.toNat := by
      simp [BigEndian.encode]
    refine ⟨24, [len.toUInt8], rfl, by decide, fun rest => ?_⟩
    rw [hbyte]
    exact readUint_encode_toNat (by omega) rest
  rw [if_neg h256]
  by_cases h16 : len < 65536
  · -- two more bytes
    rw [if_pos h16]
    have h16' : len.toNat < 65536 := UInt64.lt_iff_toNat_lt.mp h16
    exact ⟨25, _, rfl, by decide, readUint_encode_toNat (by omega)⟩
  rw [if_neg h16]
  by_cases h32 : len < 4294967296
  · -- four more bytes
    rw [if_pos h32]
    have h32' : len.toNat < 4294967296 := UInt64.lt_iff_toNat_lt.mp h32
    exact ⟨26, _, rfl, by decide, readUint_encode_toNat (by omega)⟩
  · -- eight more bytes hold every argument
    rw [if_neg h32]
    exact ⟨27, _, rfl, by decide, readUint_encode_toNat (by omega)⟩

theorem length_encodeCborLength_pos (mt : UInt8) (len : UInt64) :
    0 < (encodeCborLength mt len).length := by
  obtain ⟨info, tail, h, -⟩ := encodeCborLength_spec mt len
  simp [h]

theorem length_encodeCborLength_le (mt : UInt8) (len : UInt64) :
    (encodeCborLength mt len).length ≤ 9 := by
  unfold encodeCborLength
  dsimp only
  repeat' split
  all_goals simp

theorem length_encodeDagCbor_pos [CidCrate] (x : Ipld) : 0 < (encodeDagCbor x).length := by
  have hheader : ∀ mt len (tail : Bytes), 0 < (encodeCborLength mt len ++ tail).length := by
    intro mt len tail
    have := length_encodeCborLength_pos mt len
    rw [List.length_append]
    omega
  cases x with
  | integer i =>
    rw [encodeDagCbor, encodeCborInteger]
    split <;> exact length_encodeCborLength_pos _ _
  | link c =>
    rw [encodeDagCbor, encodeCborTag, List.append_assoc]
    exact hheader _ _ _
  | null => simp [encodeDagCbor]
  | bool b => simp [encodeDagCbor]
  | float f => simp [encodeDagCbor]
  | string s => exact hheader _ _ _
  | bytes b => exact hheader _ _ _
  | list l => exact hheader _ _ _
  | map m => exact hheader _ _ _

theorem length_le_encodeItems [CidCrate] (l : List Ipld) : l.length ≤ (encodeItems l).length := by
  induction l with
  | nil => exact Nat.zero_le _
  | cons x xs ih =>
    have hpos := length_encodeDagCbor_pos x
    rw [encodeItems, List.length_append, List.length_cons]
    omega

theorem length_encodeItems_le [CidCrate] {k : ℕ} {l : List Ipld}
    (h : ∀ x ∈ l, (encodeDagCbor x).length ≤ k) : (encodeItems l).length ≤ k * l.length := by
  induction l with
  | nil => exact Nat.zero_le _
  | cons x xs ih =>
    obtain ⟨hx, hxs⟩ := List.forall_mem_cons.mp h
    have hrest := ih hxs
    rw [encodeItems, List.length_append, List.length_cons, Nat.mul_succ]
    omega

theorem length_le_encodeEntries [CidCrate] (m : List (String × Ipld)) :
    m.length ≤ (encodeEntries m).length := by
  induction m with
  | nil => exact Nat.zero_le _
  | cons e es ih =>
    obtain ⟨k, x⟩ := e
    have hpos := length_encodeDagCbor_pos x
    simp only [encodeEntries, List.length_append, List.length_cons]
    omega

/-- The encoding of a map is at least as long as each of its keys. -/
theorem key_le_encodeEntries [CidCrate] {m : List (String × Ipld)} {e : String × Ipld}
    (he : e ∈ m) : e.1.utf8ByteSize ≤ (encodeEntries m).length := by
  induction m with
  | nil => exact absurd he List.not_mem_nil
  | cons e' es ih =>
    obtain ⟨k, x⟩ := e'
    simp only [encodeEntries, List.length_append]
    rcases List.mem_cons.mp he with rfl | he
    · have hkey : (utf8 k).length = k.utf8ByteSize := length_utf8 k
      simp only
      omega
    · have hle := ih he
      omega

/-! ### Items -/

section RoundTrip

variable [CidCrate] (item : Bytes → Except Error (Ipld × Bytes))

/-- After a header the decoder is in the branch of its major type, with the argument still to be
read from `input`. -/
theorem decodeBody_encodeCborLength {mt : UInt8} (hmt : mt.toNat < 8) (len : UInt64)
    (rest : Bytes) :
    ∃ info input, decodeCborUint info input = .ok (len, rest) ∧
      decodeBody item (encodeCborLength mt len ++ rest) = decodeMajor item mt info input := by
  obtain ⟨info, tail, henc, hinfo, hdec⟩ := encodeCborLength_spec mt len
  obtain ⟨h₁, h₂⟩ := header_split hmt hinfo
  refine ⟨info, tail ++ rest, hdec rest, ?_⟩
  rw [henc, List.cons_append, decodeBody, h₁, h₂]

theorem decodeBody_integer (i : ℤ) (rest : Bytes) :
    decodeBody item (encodeCborInteger i ++ rest) = .ok (.integer (narrowInt i), rest) := by
  unfold encodeCborInteger narrowInt
  split
  · obtain ⟨info, input, hlen, hdec⟩ :=
      decodeBody_encodeCborLength item (show (0 : UInt8).toNat < 8 by decide) (asU64 i) rest
    rw [hdec]
    simp [decodeMajor, hlen, asU64_toNat]
  · obtain ⟨info, input, hlen, hdec⟩ :=
      decodeBody_encodeCborLength item (show (1 : UInt8).toNat < 8 by decide) (asU64 (-1 - i)) rest
    rw [hdec]
    simp [decodeMajor, hlen, asU64_toNat]

theorem decodeBody_bytes {b : Bytes} (hb : b.length < 2 ^ 64) (rest : Bytes) :
    decodeBody item (encodeCborLength 2 (UInt64.ofNat b.length) ++ b ++ rest)
      = .ok (.bytes b, rest) := by
  obtain ⟨info, input, hlen, hdec⟩ :=
    decodeBody_encodeCborLength item (show (2 : UInt8).toNat < 8 by decide)
      (UInt64.ofNat b.length) (b ++ rest)
  rw [List.append_assoc, hdec]
  simp [decodeMajor, hlen, readExact, UInt64.toNat_ofNat_of_lt' hb, ByteStream.readExact_append]

theorem decodeBody_string {s : String} (hs : s.utf8ByteSize < 2 ^ 64) (rest : Bytes) :
    decodeBody item (encodeCborLength 3 (UInt64.ofNat (utf8 s).length) ++ utf8 s ++ rest)
      = .ok (.string s, rest) := by
  obtain ⟨info, input, hlen, hdec⟩ :=
    decodeBody_encodeCborLength item (show (3 : UInt8).toNat < 8 by decide)
      (UInt64.ofNat (utf8 s).length) (utf8 s ++ rest)
  have hread := ByteStream.readExact_append (length_utf8 s) rest
  rw [List.append_assoc, hdec]
  simp only [length_utf8] at hlen
  simp [decodeMajor, hlen, readExact, UInt64.toNat_ofNat_of_lt' hs, hread]

variable {fuel : ℕ} {x : Ipld}

omit item in
/-- The items of a list are read back one by one, each with the same count. -/
theorem decodeItems_encodeItems {l : List Ipld}
    (ih : ∀ x ∈ l, ∀ rest, (encodeDagCbor x).length ≤ fuel →
      decodeAux fuel (encodeDagCbor x ++ rest) = .ok (x.narrow, rest))
    (hfuel : (encodeItems l).length ≤ fuel) (rest : Bytes) :
    decodeItems (decodeAux fuel) l.length (encodeItems l ++ rest)
      = .ok (Ipld.narrowList l, rest) := by
  induction l with
  | nil => rfl
  | cons x xs ihl =>
    rw [encodeItems, List.length_append] at hfuel
    have hx := ih x List.mem_cons_self (encodeItems xs ++ rest) (by omega)
    have hxs := ihl (fun y hy => ih y (List.mem_cons_of_mem _ hy)) (by omega)
    rw [encodeItems, List.append_assoc, List.length_cons, decodeItems, hx]
    simp [hxs, Ipld.narrowList]

omit item in
/-- The entries of a map are read back one by one. The decoder inserts them into the map it has so
far, so the induction is over the entries still to come, with `m` the map read so far. -/
theorem decodeEntries_encodeEntries {es : List (String × Ipld)}
    (hkeys : ∀ e ∈ es, e.1.utf8ByteSize < 2 ^ 64)
    (ih : ∀ e ∈ es, ∀ rest, (encodeDagCbor e.2).length ≤ fuel →
      decodeAux fuel (encodeDagCbor e.2 ++ rest) = .ok (e.2.narrow, rest))
    (hfuel : (encodeEntries es).length ≤ fuel) (m : List (String × Ipld)) (rest : Bytes) :
    decodeEntries (decodeAux fuel) es.length m (encodeEntries es ++ rest)
      = .ok ((Ipld.narrowMap es).foldl (fun acc e => SortedMap.insert e.1 e.2 acc) m, rest) := by
  induction es generalizing m with
  | nil => rfl
  | cons e es ihes =>
    obtain ⟨k, x⟩ := e
    have hpos := length_encodeCborLength_pos 3 (UInt64.ofNat (utf8 k).length)
    simp only [encodeEntries, List.length_append] at hfuel
    -- the key: a string, for which one more call of the body is enough
    obtain ⟨fuel', rfl⟩ : ∃ fuel', fuel = fuel' + 1 := ⟨fuel - 1, by omega⟩
    have hk := decodeBody_string (decodeAux fuel') (hkeys (k, x) List.mem_cons_self)
      (encodeDagCbor x ++ (encodeEntries es ++ rest))
    have hx := ih (k, x) List.mem_cons_self (encodeEntries es ++ rest) (by simp only; omega)
    have hes := ihes (fun e he => hkeys e (List.mem_cons_of_mem _ he))
      (fun e he => ih e (List.mem_cons_of_mem _ he)) (by omega)
      (SortedMap.insert k x.narrow m)
    have hassoc : encodeEntries ((k, x) :: es) ++ rest
        = encodeCborLength 3 (UInt64.ofNat (utf8 k).length) ++ utf8 k
          ++ (encodeDagCbor x ++ (encodeEntries es ++ rest)) := by
      simp [encodeEntries]
    have hkey : decodeAux (fuel' + 1) (encodeEntries ((k, x) :: es) ++ rest)
        = .ok (.string k, encodeDagCbor x ++ (encodeEntries es ++ rest)) := by
      rw [hassoc]
      exact hk
    rw [List.length_cons, decodeEntries, hkey, Except.ok_bind]
    simp only [hx, Except.ok_bind]
    rw [hes]
    rfl

omit item in
theorem decodeBody_link [LawfulCidCrate] (c : Cid) (fuel : ℕ) (rest : Bytes) :
    decodeBody (decodeAux (fuel + 1)) (encodeDagCbor (.link c) ++ rest) = .ok (.link c, rest) := by
  set bytes := 0x00 :: CidCrate.toBytes c with hbytes
  have hlt : bytes.length < 2 ^ 64 := by
    have := LawfulCidCrate.length_toBytes c
    rw [hbytes, List.length_cons]
    omega
  set inner := encodeCborLength 2 (UInt64.ofNat bytes.length) ++ bytes ++ rest with hinner
  obtain ⟨info, input, htag, hdec⟩ :=
    decodeBody_encodeCborLength (decodeAux (fuel + 1)) (show (6 : UInt8).toNat < 8 by decide) cidTag
      inner
  have hassoc : encodeDagCbor (.link c) ++ rest = encodeCborLength 6 cidTag ++ inner := by
    simp [encodeDagCbor, encodeCborTag, hbytes, hinner]
  -- under the tag is a byte string, and in it the CID
  have hitem : decodeAux (fuel + 1) inner = .ok (.bytes bytes, rest) :=
    decodeBody_bytes (decodeAux fuel) hlt rest
  have hlink : decodeLink (.bytes bytes) = .ok (.link c) := by
    simp [decodeLink, hbytes, LawfulCidCrate.tryFrom_toBytes c]
  rw [hassoc, hdec]
  simp [decodeMajor, htag, hitem, hlink]

omit item in
/-- Every value takes a byte, so a call that may read it may make one more call. -/
theorem decodeAux_of_decodeBody {rest : Bytes} {r : Except Error (Ipld × Bytes)}
    (h : ∀ n, (encodeDagCbor x).length ≤ n + 1 →
      decodeBody (decodeAux n) (encodeDagCbor x ++ rest) = r)
    (hfuel : (encodeDagCbor x).length ≤ fuel) : decodeAux fuel (encodeDagCbor x ++ rest) = r := by
  have hpos := length_encodeDagCbor_pos x
  obtain ⟨n, rfl⟩ : ∃ n, fuel = n + 1 := ⟨fuel - 1, by omega⟩
  exact h n hfuel

omit item in
/-- **Decoding undoes encoding, up to the cast.** The induction is over the value; the count only
has to cover the bytes of the value. -/
theorem decodeBody_encodeDagCbor [LawfulCidCrate] (hx : x.Valid) {n : ℕ}
    (hn : (encodeDagCbor x).length ≤ n + 1) (rest : Bytes) :
    decodeBody (decodeAux n) (encodeDagCbor x ++ rest) = .ok (x.narrow, rest) := by
  induction x generalizing n rest with
  | null => rfl
  | bool b => cases b <;> rfl
  | integer i => exact decodeBody_integer (decodeAux n) i rest
  | float f =>
    have hf := f.toNat_lt
    have hread : readUint "Failed to read f64" 8 (BigEndian.encode 8 f.toNat ++ rest)
        = .ok (f, rest) := readUint_encode_toNat (by omega) rest
    -- the first byte 0xfb is major type 7 with additional info 27
    change decodeMajor (decodeAux n) 7 27 (BigEndian.encode 8 f.toNat ++ rest) = _
    simp [decodeMajor, decodeSimple, hread, Ipld.narrow]
  | string s => exact decodeBody_string (decodeAux n) hx rest
  | bytes b => exact decodeBody_bytes (decodeAux n) hx rest
  | list l ih =>
    have hpos := length_encodeCborLength_pos 4 (UInt64.ofNat l.length)
    rw [encodeDagCbor, List.length_append] at hn
    obtain ⟨hlen, hl⟩ := hx
    rw [Ipld.validList_iff] at hl
    -- the items have what the header leaves of the count
    have hitems := decodeItems_encodeItems
      (fun y hy r hf => decodeAux_of_decodeBody (fun _ hk => ih y hy (hl y hy) hk r) hf)
      (show (encodeItems l).length ≤ n by omega) rest
    obtain ⟨info, input, hhead, hdec⟩ :=
      decodeBody_encodeCborLength (decodeAux n) (show (4 : UInt8).toNat < 8 by decide)
        (UInt64.ofNat l.length) (encodeItems l ++ rest)
    rw [encodeDagCbor, List.append_assoc, hdec]
    simp [decodeMajor, hhead, UInt64.toNat_ofNat_of_lt' hlen, hitems, Ipld.narrow]
  | map m ih =>
    have hpos := length_encodeCborLength_pos 5 (UInt64.ofNat m.length)
    rw [encodeDagCbor, List.length_append] at hn
    obtain ⟨hlen, hsorted, hm⟩ := hx
    rw [Ipld.validMap_iff] at hm
    have hentries := decodeEntries_encodeEntries (fun e he => (hm e he).1)
      (fun e he r hf => decodeAux_of_decodeBody (fun _ hk => ih e he (hm e he).2 hk r) hf)
      (show (encodeEntries m).length ≤ n by omega) [] rest
    -- the keys come in order, so inserting them rebuilds the list of entries
    rw [SortedMap.foldl_insert_eq (Ipld.narrowMap_sorted hsorted)] at hentries
    obtain ⟨info, input, hhead, hdec⟩ :=
      decodeBody_encodeCborLength (decodeAux n) (show (5 : UInt8).toNat < 8 by decide)
        (UInt64.ofNat m.length) (encodeEntries m ++ rest)
    rw [encodeDagCbor, List.append_assoc, hdec]
    simp [decodeMajor, hhead, UInt64.toNat_ofNat_of_lt' hlen, hentries, Ipld.narrow]
  | link c =>
    -- two calls: one for the tag, one for the byte string under it
    have hpos := length_encodeCborLength_pos 6 cidTag
    have hn' := hn
    simp only [encodeDagCbor, encodeCborTag, List.length_append, List.length_cons] at hn'
    obtain ⟨k, rfl⟩ : ∃ k, n = k + 1 := ⟨n - 1, by omega⟩
    exact decodeBody_link c k rest

omit item in
theorem decodeAux_encodeDagCbor [LawfulCidCrate] (hx : x.Valid)
    (hfuel : (encodeDagCbor x).length ≤ fuel) (rest : Bytes) :
    decodeAux fuel (encodeDagCbor x ++ rest) = .ok (x.narrow, rest) :=
  decodeAux_of_decodeBody (fun _ hn => decodeBody_encodeDagCbor hx hn rest) hfuel

omit item in
theorem decodeDagCbor_encodeDagCbor [LawfulCidCrate] (hx : x.Valid) (rest : Bytes) :
    decodeDagCbor (encodeDagCbor x ++ rest) = .ok (x.narrow, rest) :=
  decodeAux_encodeDagCbor hx (by simp) rest

omit item in
theorem encodeDagCbor_narrow (x : Ipld) : encodeDagCbor x.narrow = encodeDagCbor x := by
  induction x with
  | integer i => exact encodeCborInteger_narrowInt i
  | list l ih =>
    -- only integers are narrowed, and they keep their encoding
    have hitems : ∀ l : List Ipld, (∀ x ∈ l, encodeDagCbor x.narrow = encodeDagCbor x) →
        encodeItems (Ipld.narrowList l) = encodeItems l := by
      intro l hl
      induction l with
      | nil => rfl
      | cons x xs ihl =>
        rw [Ipld.narrowList, encodeItems, encodeItems, hl x List.mem_cons_self,
          ihl fun y hy => hl y (List.mem_cons_of_mem _ hy)]
    rw [Ipld.narrow, encodeDagCbor, encodeDagCbor, hitems l ih, Ipld.narrowList_eq_map,
      List.length_map]
  | map m ih =>
    have hentries : ∀ m : List (String × Ipld),
        (∀ e ∈ m, encodeDagCbor e.2.narrow = encodeDagCbor e.2) →
        encodeEntries (Ipld.narrowMap m) = encodeEntries m := by
      intro m hm
      induction m with
      | nil => rfl
      | cons e es ihm =>
        obtain ⟨k, x⟩ := e
        rw [Ipld.narrowMap, encodeEntries, encodeEntries, hm (k, x) List.mem_cons_self,
          ihm fun y hy => hm y (List.mem_cons_of_mem _ hy)]
    rw [Ipld.narrow, encodeDagCbor, encodeDagCbor, hentries m ih, Ipld.narrowMap_eq_map,
      List.length_map]
  | _ => rfl

omit item in
/-- **When two values share an encoding**: exactly when they differ in nothing but integers that the
cast to `u64` identifies. -/
theorem encodeDagCbor_eq_iff [LawfulCidCrate] {y : Ipld} (hx : x.Valid) (hy : y.Valid) :
    encodeDagCbor x = encodeDagCbor y ↔ x.narrow = y.narrow := by
  constructor
  · intro h
    have hdx := decodeDagCbor_encodeDagCbor hx []
    have hdy := decodeDagCbor_encodeDagCbor hy []
    rw [h, hdy] at hdx
    exact (Prod.mk.inj (Except.ok.inj hdx)).1.symm
  · intro h
    rw [← encodeDagCbor_narrow x, h, encodeDagCbor_narrow y]

omit item in
theorem fromDagCbor_encodeDagCbor [LawfulCidCrate] (hx : x.Valid) (hfit : x.IntsFit) :
    Ipld.fromDagCbor (encodeDagCbor x) = .ok x := by
  have h := decodeDagCbor_encodeDagCbor hx []
  rw [List.append_nil, Ipld.narrow_of_intsFit hfit] at h
  simp [Ipld.fromDagCbor, h]

omit item in
/-- **DAG-CBOR round trip.** The decoder finds the value that was encoded and leaves exactly what
follows it, for every value whose integers lie in `[-2^64, 2^64 - 1]`. -/
theorem dagCbor_roundTrip [LawfulCidCrate] (hx : x.Valid) (hfit : x.IntsFit) (rest : Bytes) :
    ∃ bytes, x.toDagCbor = .ok bytes ∧ decodeDagCbor (bytes ++ rest) = .ok (x, rest) := by
  refine ⟨encodeDagCbor x, rfl, ?_⟩
  rw [decodeDagCbor_encodeDagCbor hx rest, Ipld.narrow_of_intsFit hfit]

end RoundTrip

section Reference

open scoped CidReference

/-- A CID of 32 equal bytes, and a value with a link to it, a nested list and a negative integer at
the limit. -/
def sampleValue : Ipld :=
  .map [("cid", .link (Cid.newV1 Codec.raw ⟨0x12, List.replicate 32 7, by decide⟩)),
    ("list", .list [.integer (-2 ^ 64), .integer 24, .string "é", .null]),
    ("size", .integer (2 ^ 64 - 1))]

theorem dagCbor_roundTrip_sampleValue :
    ∃ bytes, sampleValue.toDagCbor = .ok bytes ∧
      decodeDagCbor (bytes ++ [1, 2, 3]) = .ok (sampleValue, [1, 2, 3]) :=
  dagCbor_roundTrip (by decide +kernel) (by decide +kernel) [1, 2, 3]

end Reference

end Ipfrs
