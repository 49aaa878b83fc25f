import Ipfrs.Lib.Metered
import Ipfrs.Core.CidReference
import Ipfrs.Core.DagCbor

/-!
# The buffers that the DAG-CBOR decoder asks for

`decode_dag_cbor` once more, with its buffers. For a byte string and for a text it makes a vector of
the announced length before it reads the bytes, and for an array a vector with room for the
announced number of items before it reads the first one. Nothing compares the announced number with
what is left of the input.

* `decodesLike_decodeAux` — as long as every announced number fits, the buffers make no difference.
* `fromDagCbor_alloc_iff` — the requests stay within the input exactly for the inputs in which
  decoding arrives at no header that announces more than what follows it.
* `headersFit_of_decodes` — every input that decodes is one of these, unless it is too long for the
  machine.
* `Ipld.tryFromDagCbor_eq` — with the panic or as `Ipld.fromDagCbor` has it: there is no third
  outcome. What has to know of the panic is modelled over `Ipld.tryFromDagCbor`.

The memory is not bounded: a vector is refused only if it would be longer than a vector can be.
Fixed arrays on the stack and the texts of errors are not counted.
-/

namespace Ipfrs

/-! ### Vectors -/

/-- `isize::MAX`, the largest size in bytes of a vector. -/
def isizeMax : ℕ := 2 ^ 63 - 1

/-- A vector that is asked for: the number of its elements and the size of one, and the bytes of the
input that have not been read yet. -/
structure Request where
  count : ℕ
  size : ℕ
  unread : ℕ
  deriving DecidableEq, Repr

/-- An error of the decoder, or the panic of a vector that cannot be. -/
inductive Stop where
  | error (e : Error)
  | capacityOverflow
  deriving DecidableEq

/-- The request for a vector is granted. -/
def Request.Granted (r : Request) : Prop := r.count * r.size ≤ isizeMax

instance (r : Request) : Decidable r.Granted := inferInstanceAs (Decidable (_ ≤ _))

/-- Each element of the vector can come from a byte of its own. -/
def Request.Within (r : Request) : Prop := r.count ≤ r.unread

/-- A computation of the decoder. -/
abbrev Decoding (α : Type) : Type := Metered Request Stop α

/-- What needs no vector. -/
def plain {α : Type} (x : Except Error α) : Decoding α := Metered.ofExcept .error x

/-- `vec![0; count]` and `Vec::with_capacity(count)`, with `input` still to be read. -/
def allocate (count size : ℕ) (input : Bytes) : Decoding Unit :=
  Metered.request ⟨count, size, input.length⟩ (Request.Granted ⟨count, size, input.length⟩)
    .capacityOverflow

/-! ### The decoder -/

namespace Decoding

section Decode

variable [CidCrate] (itemSize : ℕ) (item : Bytes → Decoding (Ipld × Bytes))

/-- The loop `for _ in 0..len` over the items of an array. -/
def decodeItems : ℕ → Bytes → Decoding (List Ipld × Bytes)
  | 0, input => pure ([], input)
  | n + 1, input => do
    let (x, input) ← item input
    let (xs, input) ← decodeItems n input
    return (x :: xs, input)

/-- The loop `for _ in 0..len` over the entries of a map. -/
def decodeEntries : ℕ → List (String × Ipld) → Bytes → Decoding (List (String × Ipld) × Bytes)
  | 0, map, input => pure (map, input)
  | n + 1, map, input => do
    let (key, input) ← item input
    match key with
    | .string keyStr =>
      let (value, input) ← item input
      decodeEntries n (SortedMap.insert keyStr value map) input
    | _ => plain (.error (.deserialization "Map keys must be strings in IPLD"))

/-- The match of `decode_dag_cbor` on the major type. -/
def decodeMajor (majorType additionalInfo : UInt8) (input : Bytes) : Decoding (Ipld × Bytes) :=
  match majorType.toNat with
  | 0 => do
    let (value, input) ← plain (decodeCborUint additionalInfo input)
    return (.integer value.toNat, input)
  | 1 => do
    let (value, input) ← plain (decodeCborUint additionalInfo input)
    return (.integer (-1 - value.toNat), input)
  | 2 => do
    let (len, input) ← plain (decodeCborUint additionalInfo input)
    allocate len.toNat 1 input
    let (bytes, input) ← plain (readExact "Failed to read bytes" len.toNat input)
    return (.bytes bytes, input)
  | 3 => do
    let (len, input) ← plain (decodeCborUint additionalInfo input)
    allocate len.toNat 1 input
    let (bytes, input) ← plain (readExact "Failed to read string" len.toNat input)
    match fromUtf8 bytes with
    | some s => return (.string s, input)
    | none => plain (.error (.deserialization "Invalid UTF-8"))
  | 4 => do
    let (len, input) ← plain (decodeCborUint additionalInfo input)
    allocate len.toNat itemSize input
    let (list, input) ← decodeItems item len.toNat input
    return (.list list, input)
  | 5 => do
    -- a `BTreeMap` grows with its entries
    let (len, input) ← plain (decodeCborUint additionalInfo input)
    let (map, input) ← decodeEntries item len.toNat [] input
    return (.map map, input)
  | 6 => do
    let (tag, input) ← plain (decodeCborUint additionalInfo input)
    if tag = cidTag then
      let (bytesIpld, input) ← item input
      let link ← plain (decodeLink bytesIpld)
      return (link, input)
    else
      item input
  | 7 => plain (decodeSimple additionalInfo input)
  | m => plain (.error (.deserialization ("Unknown CBOR major type: " ++ toString m)))

/-- The body of `decode_dag_cbor`; `item` is its recursive call. -/
def decodeBody : Bytes → Decoding (Ipld × Bytes)
  | [] => plain (.error (.deserialization "Failed to read CBOR: failed to fill whole buffer"))
  | firstByte :: input => decodeMajor itemSize item (firstByte >>> 5) (firstByte &&& 0x1f) input

end Decode

variable [CidCrate]

/-- `decode_dag_cbor` with at most `fuel` nested calls. `itemSize` is `size_of::<Ipld>()`. -/
def decodeAux (itemSize : ℕ) : ℕ → Bytes → Decoding (Ipld × Bytes)
  | 0 => fun _ =>
    plain (.error (.deserialization "Failed to read CBOR: failed to fill whole buffer"))
  | fuel + 1 => decodeBody itemSize (decodeAux itemSize fuel)

/-- `Ipld::from_dag_cbor` with at most `fuel` nested calls. -/
def fromDagCbor (itemSize fuel : ℕ) (data : Bytes) : Decoding Ipld := do
  let (x, _) ← decodeAux itemSize fuel data
  return x

end Decoding

/-- `Ipld::from_dag_cbor`, which panics with a vector that cannot be. -/
def Ipld.tryFromDagCbor [CidCrate] (itemSize : ℕ) (data : Bytes) : Except Fault Ipld :=
  (Decoding.fromDagCbor itemSize data.length data).result.mapError fun
    | .error e => .error e
    | .capacityOverflow => .panic "capacity overflow"

/-- The bytes announce a vector that cannot be. -/
def Ipld.Overflows [CidCrate] (itemSize : ℕ) (data : Bytes) : Prop :=
  (Decoding.fromDagCbor itemSize data.length data).result = .error .capacityOverflow

instance [CidCrate] (itemSize : ℕ) (data : Bytes) : Decidable (Ipld.Overflows itemSize data) :=
  match h : (Decoding.fromDagCbor itemSize data.length data).result with
  | .ok _ => isFalse fun hno => absurd (h.symm.trans hno) (by simp)
  | .error (.error _) => isFalse fun hno => absurd (h.symm.trans hno) (by simp)
  | .error .capacityOverflow => isTrue h

/-! ### Where decoding arrives -/

section Arrives

variable [CidCrate]

/-- The vector for an item with this major type and announced number. -/
def announced (itemSize : ℕ) (majorType : UInt8) (len : UInt64) (input : Bytes) : Option Request :=
  match majorType.toNat with
  | 2 => some ⟨len.toNat, 1, input.length⟩
  | 3 => some ⟨len.toNat, 1, input.length⟩
  | 4 => some ⟨len.toNat, itemSize, input.length⟩
  | _ => none

/-- The vector for the item at the head of the input, if it needs one, can be had and is no longer
than what follows the header. -/
def HeadFits (itemSize : ℕ) : Bytes → Prop
  | [] => True
  | firstByte :: input => ∀ len rest, decodeCborUint (firstByte &&& 0x1f) input = .ok (len, rest) →
    ∀ r ∈ announced itemSize (firstByte >>> 5) len rest, r.Granted ∧ r.Within

/-- Under a header with this major type and announced number, an item is decoded from `inner`. -/
def Nested (majorType : UInt8) (len : UInt64) (input inner : Bytes) : Prop :=
  match majorType.toNat with
  | 4 => ∃ k < len.toNat, ∃ xs, decodeItems decodeDagCbor k input = .ok (xs, inner)
  | 5 => ∃ k < len.toNat, ∃ map rest, decodeEntries decodeDagCbor k [] input = .ok (map, rest) ∧
      (inner = rest ∨ ∃ key, decodeDagCbor rest = .ok (.string key, inner))
  | 6 => inner = input
  | _ => False

/-- `decode_dag_cbor` on the first stream calls itself on the second one. -/
def Calls : Bytes → Bytes → Prop
  | [], _ => False
  | firstByte :: input, inner => ∃ len rest,
    decodeCborUint (firstByte &&& 0x1f) input = .ok (len, rest) ∧
      Nested (firstByte >>> 5) len rest inner

/-- Decoding the first stream arrives at the second one, at any depth. -/
def Arrives : Bytes → Bytes → Prop := Relation.ReflTransGen Calls

/-- Whatever a header announces on the way, it fits. -/
def HeadersFit (itemSize : ℕ) (input : Bytes) : Prop :=
  ∀ inner, Arrives input inner → HeadFits itemSize inner

variable {itemSize : ℕ} {input : Bytes}

theorem headersFit_iff :
    HeadersFit itemSize input ↔
      HeadFits itemSize input ∧ ∀ inner, Calls input inner → HeadersFit itemSize inner :=
  Metered.everywhere_iff

theorem headersFit_nil (itemSize : ℕ) : HeadersFit itemSize [] :=
  headersFit_iff.mpr ⟨trivial, fun _ h => h.elim⟩

theorem headersFit_cons_iff {firstByte : UInt8} :
    HeadersFit itemSize (firstByte :: input) ↔
      ∀ len rest, decodeCborUint (firstByte &&& 0x1f) input = .ok (len, rest) →
        (∀ r ∈ announced itemSize (firstByte >>> 5) len rest, r.Granted ∧ r.Within) ∧
          ∀ inner, Nested (firstByte >>> 5) len rest inner → HeadersFit itemSize inner := by
  rw [headersFit_iff]
  constructor
  · rintro ⟨hhead, hnested⟩ len rest hlen
    exact ⟨hhead len rest hlen, fun inner h => hnested inner ⟨len, rest, hlen, h⟩⟩
  · intro h
    refine ⟨fun len rest hlen => (h len rest hlen).1, ?_⟩
    rintro inner ⟨len, rest, hlen, hinner⟩
    exact (h len rest hlen).2 inner hinner

end Arrives

/-! ### The two decoders -/

section Follows

/-- The decoder with vectors, against the one without. -/
abbrev DecodesLike {α : Type} (t : Decoding α) (x : Except Error α) (C : Prop) : Prop :=
  Metered.Follows Request.Granted Request.Within Stop.capacityOverflow Stop.error t x C

variable {α : Type} {input : Bytes}

theorem decodesLike_plain (x : Except Error α) : DecodesLike (plain x) x True :=
  Metered.follows_ofExcept x

/-- What cannot ask for a vector, and then a computation that does not either. -/
theorem decodesLike_plain_bind {β : Type} {x : Except Error α} {f : α → Decoding β}
    {g : α → Except Error β} (h : ∀ a, DecodesLike (f a) (g a) True) :
    DecodesLike (plain x >>= f) (x >>= g) True :=
  ((decodesLike_plain x).bind fun a _ => h a).congr (iff_true_intro ⟨trivial, fun _ _ => trivial⟩)

theorem decodesLike_header {info : UInt8} {f : UInt64 × Bytes → Decoding α}
    {g : UInt64 × Bytes → Except Error α} {C : UInt64 → Bytes → Prop}
    (h : ∀ len rest, decodeCborUint info input = .ok (len, rest) →
      DecodesLike (f (len, rest)) (g (len, rest)) (C len rest)) :
    DecodesLike (plain (decodeCborUint info input) >>= f) (decodeCborUint info input >>= g)
      (∀ len rest, decodeCborUint info input = .ok (len, rest) → C len rest) := by
  have hbind := (decodesLike_plain (decodeCborUint info input)).bind (D := fun p => C p.1 p.2)
    fun p hp => h p.1 p.2 hp
  exact hbind.congr ⟨fun hC len rest hlen => hC.2 (len, rest) hlen,
    fun hC => ⟨trivial, fun p hp => hC p.1 p.2 hp⟩⟩

theorem decodesLike_allocate_bind {count size : ℕ} {t : Decoding α} {x : Except Error α} {C : Prop}
    (h : DecodesLike t x C) :
    DecodesLike (allocate count size input >>= fun _ => t) x
      ((Request.Granted ⟨count, size, input.length⟩ ∧ Request.Within ⟨count, size, input.length⟩)
        ∧ C) := by
  have hrequest : DecodesLike (allocate count size input) (.ok ()) (Request.Granted
      ⟨count, size, input.length⟩ ∧ Request.Within ⟨count, size, input.length⟩) :=
    Metered.follows_request _
  have hbind := hrequest.bind (f := fun _ => t) (g := fun _ => x) (D := fun _ => C) fun _ _ => h
  exact hbind.congr ⟨fun hC => ⟨hC.1, hC.2 () rfl⟩, fun hC => ⟨hC.1, fun _ _ => hC.2⟩⟩

section Items

variable [CidCrate] {item : Bytes → Except Error (Ipld × Bytes)}
  {itemT : Bytes → Decoding (Ipld × Bytes)} {P : Bytes → Prop} {k : ℕ}

omit [CidCrate] in
theorem decodesLike_decodeItems (hi : NonGrowing item)
    (hitem : ∀ input, input.length ≤ k → DecodesLike (itemT input) (item input) (P input)) :
    ∀ (n : ℕ) {input : Bytes}, input.length ≤ k →
      DecodesLike (Decoding.decodeItems itemT n input) (decodeItems item n input)
        (∀ j < n, ∀ xs rest, decodeItems item j input = .ok (xs, rest) → P rest) := by
  intro n
  induction n with
  | zero =>
    intro input _
    exact (Metered.follows_pure _).congr
      ⟨fun _ j hj => absurd hj (Nat.not_lt_zero j), fun _ => trivial⟩
  | succ n ih =>
    intro input hk
    -- the first item, and then the others on what is left
    have hbind := (hitem input hk).bind fun p hp =>
      (ih ((hi hp).trans hk)).bind fun q _ => Metered.follows_pure (p.1 :: q.1, q.2)
    refine hbind.congr ⟨?_, fun h => ⟨h 0 (Nat.succ_pos n) [] input rfl, ?_⟩⟩
    · rintro ⟨hfirst, hrest⟩ j hj xs rest hxs
      cases j with
      | zero =>
        obtain ⟨-, rfl⟩ := Prod.mk.inj (Except.ok.inj hxs)
        exact hfirst
      | succ j =>
        obtain ⟨x, r, xs', hx, hxs', -⟩ := decodeItems_succ_eq_ok.mp hxs
        exact (hrest _ hx).1 j (Nat.lt_of_succ_lt_succ hj) xs' rest hxs'
    · rintro ⟨x, r⟩ hx
      refine ⟨fun j hj xs rest hxs => ?_, fun _ _ => trivial⟩
      exact h (j + 1) (Nat.succ_lt_succ hj) (x :: xs) rest
        (decodeItems_succ_eq_ok.mpr ⟨x, r, xs, hx, hxs, rfl⟩)

omit [CidCrate] in
theorem decodesLike_decodeEntries (hi : NonGrowing item)
    (hitem : ∀ input, input.length ≤ k → DecodesLike (itemT input) (item input) (P input)) :
    ∀ (n : ℕ) (m : List (String × Ipld)) {input : Bytes}, input.length ≤ k →
      DecodesLike (Decoding.decodeEntries itemT n m input) (decodeEntries item n m input)
        (∀ j < n, ∀ m' rest, decodeEntries item j m input = .ok (m', rest) →
          P rest ∧ ∀ key inner, item rest = .ok (.string key, inner) → P inner) := by
  intro n
  induction n with
  | zero =>
    intro m input _
    exact (Metered.follows_pure _).congr
      ⟨fun _ j hj => absurd hj (Nat.not_lt_zero j), fun _ => trivial⟩
  | succ n ih =>
    intro m input hk
    -- what is decoded after the key, if that is a string
    have hentry : ∀ p, item input = .ok p → DecodesLike
        (match p.1 with
          | .string s => itemT p.2 >>= fun q =>
            Decoding.decodeEntries itemT n (SortedMap.insert s q.1 m) q.2
          | _ => plain (.error (.deserialization "Map keys must be strings in IPLD")))
        (match p.1 with
          | .string s => item p.2 >>= fun q => decodeEntries item n (SortedMap.insert s q.1 m) q.2
          | _ => .error (.deserialization "Map keys must be strings in IPLD"))
        (∀ s, p.1 = .string s → P p.2 ∧ ∀ q, item p.2 = .ok q → ∀ j < n, ∀ m' rest,
          decodeEntries item j (SortedMap.insert s q.1 m) q.2 = .ok (m', rest) →
            P rest ∧ ∀ key inner, item rest = .ok (.string key, inner) → P inner) := by
      rintro ⟨key, r⟩ hp
      have hr : r.length ≤ k := (hi hp).trans hk
      cases key with
      | string s =>
        have hvalue := (hitem r hr).bind fun q hq =>
          ih (SortedMap.insert s q.1 m) ((hi hq).trans hr)
        exact hvalue.congr ⟨fun hC s' hs => Ipld.string.inj hs ▸ hC, fun hC => hC s rfl⟩
      | _ =>
        -- an error, before the value is looked at
        exact (Metered.follows_ofExcept _).congr
          ⟨fun _ s hs => (by cases hs), fun _ => trivial⟩
    refine ((hitem input hk).bind hentry).congr ⟨?_, fun h => ⟨?_, ?_⟩⟩
    · rintro ⟨hfirst, hrest⟩ j hj m' rest hm
      cases j with
      | zero =>
        obtain ⟨-, rfl⟩ := Prod.mk.inj (Except.ok.inj hm)
        exact ⟨hfirst, fun key inner hkey => (hrest _ hkey key rfl).1⟩
      | succ j =>
        obtain ⟨key, r, value, r', hkey, hvalue, hm⟩ := decodeEntries_succ_eq_ok.mp hm
        exact (hrest _ hkey key rfl).2 _ hvalue j (Nat.lt_of_succ_lt_succ hj) m' rest hm
    · exact (h 0 (Nat.succ_pos n) m input rfl).1
    · rintro ⟨key, r⟩ hkey s rfl
      refine ⟨(h 0 (Nat.succ_pos n) m input rfl).2 s r hkey, ?_⟩
      rintro ⟨value, r'⟩ hvalue j hj m' rest hm
      exact h (j + 1) (Nat.succ_lt_succ hj) m' rest
        (decodeEntries_succ_eq_ok.mpr ⟨s, r, value, r', hkey, hvalue, hm⟩)

variable {input : Bytes}

omit [CidCrate] in
theorem decodesLike_array (hi : NonGrowing item)
    (hitem : ∀ input, input.length ≤ k → DecodesLike (itemT input) (item input) (P input))
    (itemSize n : ℕ) (hk : input.length ≤ k) :
    DecodesLike
      (allocate n itemSize input >>= fun _ =>
        Decoding.decodeItems itemT n input >>= fun p => pure (Ipld.list p.1, p.2))
      (decodeItems item n input >>= fun p => .ok (Ipld.list p.1, p.2))
      ((Request.Granted ⟨n, itemSize, input.length⟩ ∧ Request.Within ⟨n, itemSize, input.length⟩) ∧
        ∀ inner, (∃ j < n, ∃ xs, decodeItems item j input = .ok (xs, inner)) → P inner) := by
  have hitems := (decodesLike_decodeItems hi hitem n hk).bind fun p _ =>
    Metered.follows_pure (Ipld.list p.1, p.2)
  refine (decodesLike_allocate_bind hitems).congr (and_congr_right fun _ => ?_)
  constructor
  · rintro ⟨hall, -⟩ inner ⟨j, hj, xs, hxs⟩
    exact hall j hj xs inner hxs
  · intro hall
    exact ⟨fun j hj xs inner hxs => hall inner ⟨j, hj, xs, hxs⟩, fun _ _ => trivial⟩

omit [CidCrate] in
/-- The entries of a map: decoding goes on at every key, and behind it at the value. -/
theorem decodesLike_map (hi : NonGrowing item)
    (hitem : ∀ input, input.length ≤ k → DecodesLike (itemT input) (item input) (P input)) (n : ℕ)
    (hk : input.length ≤ k) :
    DecodesLike (Decoding.decodeEntries itemT n [] input >>= fun p => pure (Ipld.map p.1, p.2))
      (decodeEntries item n [] input >>= fun p => .ok (Ipld.map p.1, p.2))
      (∀ inner, (∃ j < n, ∃ map rest, decodeEntries item j [] input = .ok (map, rest) ∧
        (inner = rest ∨ ∃ key, item rest = .ok (.string key, inner))) → P inner) := by
  have hentries := (decodesLike_decodeEntries hi hitem n [] hk).bind fun p _ =>
    Metered.follows_pure (Ipld.map p.1, p.2)
  refine hentries.congr ⟨?_, fun hall => ⟨fun j hj map rest hmap => ⟨?_, ?_⟩, fun _ _ => trivial⟩⟩
  · rintro ⟨hall, -⟩ inner ⟨j, hj, map, rest, hmap, hinner⟩
    obtain ⟨hkey, hvalue⟩ := hall j hj map rest hmap
    rcases hinner with rfl | ⟨key, hkey'⟩
    · exact hkey
    · exact hvalue key inner hkey'
  · exact hall rest ⟨j, hj, map, rest, hmap, Or.inl rfl⟩
  · intro key inner hkey
    exact hall inner ⟨j, hj, map, rest, hmap, Or.inr ⟨key, hkey⟩⟩

end Items

section Whole

variable [CidCrate] {itemSize : ℕ}
variable {input data : Bytes} {fuel : ℕ} {x : Ipld}

theorem decodesLike_decodeMajor {itemT : Bytes → Decoding (Ipld × Bytes)} {k : ℕ}
    (hitem : ∀ input, input.length ≤ k →
      DecodesLike (itemT input) (decodeDagCbor input) (HeadersFit itemSize input))
    (majorType info : UInt8) (hk : input.length ≤ k) :
    DecodesLike (Decoding.decodeMajor itemSize itemT majorType info input)
      (decodeMajor decodeDagCbor majorType info input)
      (∀ len rest, decodeCborUint info input = .ok (len, rest) →
        (∀ r ∈ announced itemSize majorType len rest, r.Granted ∧ r.Within) ∧
          ∀ inner, Nested majorType len rest inner → HeadersFit itemSize inner) := by
  have hgrow : NonGrowing decodeDagCbor := fun h => (decodeDagCbor_length_lt h).le
  have hrest : ∀ {len rest}, decodeCborUint info input = .ok (len, rest) → rest.length ≤ k :=
    fun h => (decodeCborUint_length_le h).trans hk
  unfold Decoding.decodeMajor decodeMajor announced Nested
  generalize majorType.toNat = m
  match m with
  | 0 | 1 =>
    -- a number needs no vector, and nothing is under it
    refine decodesLike_header fun len rest _ => ?_
    exact (Metered.follows_pure _).congr (by simp)
  | 2 =>
    refine decodesLike_header fun len rest _ => ?_
    have hread := decodesLike_plain_bind (x := readExact "Failed to read bytes" len.toNat rest)
      fun p => Metered.follows_pure (Ipld.bytes p.1, p.2)
    exact (decodesLike_allocate_bind hread).congr (by simp)
  | 3 =>
    refine decodesLike_header fun len rest _ => ?_
    have hread : DecodesLike _ _ True :=
      decodesLike_plain_bind (x := readExact "Failed to read string" len.toNat rest)
        (f := fun p => match fromUtf8 p.1 with
          | some s => pure (Ipld.string s, p.2)
          | none => plain (.error (.deserialization "Invalid UTF-8")))
        (g := fun p => match fromUtf8 p.1 with
          | some s => .ok (Ipld.string s, p.2)
          | none => .error (.deserialization "Invalid UTF-8")) fun p => by
        -- the text is checked after the bytes were read
        cases fromUtf8 p.1 with
        | some s => exact Metered.follows_pure _
        | none => exact decodesLike_plain _
    exact (decodesLike_allocate_bind hread).congr (by simp)
  | 4 =>
    refine decodesLike_header fun len rest hlen => ?_
    exact (decodesLike_array hgrow hitem itemSize len.toNat (hrest hlen)).congr (by simp)
  | 5 =>
    refine decodesLike_header fun len rest hlen => ?_
    exact (decodesLike_map hgrow hitem len.toNat (hrest hlen)).congr (by simp)
  | 6 =>
    refine decodesLike_header fun tag rest hlen => ?_
    have htagged := hitem rest (hrest hlen)
    dsimp only
    split
    · -- a link is checked after its item was decoded
      have hlink := htagged.bind fun p _ =>
        decodesLike_plain_bind (x := decodeLink p.1) fun link => Metered.follows_pure (link, p.2)
      exact hlink.congr (by simp)
    · exact htagged.congr (by simp)
  | 7 => exact (decodesLike_plain _).congr (by simp)
  | m + 8 => exact (decodesLike_plain _).congr (by simp)

/-- **The two decoders**, with any count of nested calls that is at least the number of bytes. -/
theorem decodesLike_decodeAux (h : input.length ≤ fuel) :
    DecodesLike (Decoding.decodeAux itemSize fuel input) (decodeDagCbor input)
      (HeadersFit itemSize input) := by
  induction fuel generalizing input with
  | zero =>
    obtain rfl : input = [] := List.eq_nil_of_length_eq_zero (Nat.le_zero.mp h)
    exact (decodesLike_plain _).congr (iff_of_true trivial (headersFit_nil itemSize))
  | succ fuel ih =>
    rw [decodeDagCbor_eq]
    cases input with
    | nil => exact (decodesLike_plain _).congr (iff_of_true trivial (headersFit_nil itemSize))
    | cons firstByte input =>
      exact (decodesLike_decodeMajor (fun _ => ih) _ _ (Nat.le_of_succ_le_succ h)).congr
        headersFit_cons_iff.symm

theorem decodesLike_fromDagCbor (h : data.length ≤ fuel) :
    DecodesLike (Decoding.fromDagCbor itemSize fuel data) (Ipld.fromDagCbor data)
      (HeadersFit itemSize data) := by
  have haux : DecodesLike (Decoding.decodeAux itemSize fuel data) _ _ := decodesLike_decodeAux h
  exact (haux.bind fun p _ => Metered.follows_pure p.1).congr
    ⟨fun hfit => hfit.1, fun hfit => ⟨hfit, fun _ _ => trivial⟩⟩

/-- **Requests within the input.** `Ipld::from_dag_cbor` returns, and no vector that it asks for has
more elements than there are unread bytes, if and only if no header that decoding arrives at
announces more than what follows it (or more than a vector can hold). -/
theorem fromDagCbor_alloc_iff (h : data.length ≤ fuel) :
    ((Decoding.fromDagCbor itemSize fuel data).result ≠ .error .capacityOverflow ∧
        ∀ r ∈ (Decoding.fromDagCbor itemSize fuel data).requests, r.count ≤ r.unread) ↔
      HeadersFit itemSize data :=
  (decodesLike_fromDagCbor h).safe_iff fun _ => Stop.noConfusion

/-- **With the panic**: `Ipld::from_dag_cbor` either panics or does what `Ipld.fromDagCbor` does. -/
theorem Ipld.tryFromDagCbor_eq (itemSize : ℕ) (data : Bytes) :
    Ipld.tryFromDagCbor itemSize data =
      if Ipld.Overflows itemSize data then .error (.panic "capacity overflow")
      else liftResult (Ipld.fromDagCbor data) := by
  have hlike : DecodesLike (Decoding.fromDagCbor itemSize data.length data) _ _ :=
    decodesLike_fromDagCbor le_rfl
  unfold Ipld.tryFromDagCbor
  split
  · next hover =>
    rw [show (Decoding.fromDagCbor itemSize data.length data).result = _ from hover]
    rfl
  · next hfit =>
    -- nothing was refused, so the vectors made no difference
    rcases hlike.result with ⟨hrefused, -⟩ | ⟨hresult, -⟩
    · exact absurd hrefused hfit
    · rw [hresult]
      cases Ipld.fromDagCbor data <;> rfl

/-! ### Inputs that decode -/

section Decodes

variable {item : Bytes → Except Error (Ipld × Bytes)}
variable {j n : ℕ} {input inner : Bytes} {xs : List Ipld}

omit [CidCrate] in
theorem item_of_decodeItems {rest : Bytes} {ys : List Ipld} (hj : j < n)
    (h : decodeItems item n input = .ok (ys, rest))
    (hxs : decodeItems item j input = .ok (xs, inner)) : ∃ x r, item inner = .ok (x, r) := by
  induction j generalizing n input xs ys with
  | zero =>
    obtain ⟨n, rfl⟩ := Nat.exists_eq_succ_of_ne_zero (Nat.ne_of_gt hj)
    obtain ⟨-, rfl⟩ := Prod.mk.inj (Except.ok.inj hxs)
    obtain ⟨x, r, -, hx, -⟩ := decodeItems_succ_eq_ok.mp h
    exact ⟨x, r, hx⟩
  | succ j ih =>
    obtain ⟨n, rfl⟩ := Nat.exists_eq_succ_of_ne_zero (Nat.ne_zero_of_lt hj)
    obtain ⟨x, r, ys', hx, hys, -⟩ := decodeItems_succ_eq_ok.mp h
    obtain ⟨x', r', xs', hx', hxs', -⟩ := decodeItems_succ_eq_ok.mp hxs
    obtain ⟨-, rfl⟩ := Prod.mk.inj (Except.ok.inj (hx.symm.trans hx'))
    exact ih (Nat.lt_of_succ_lt_succ hj) hys hxs'

omit [CidCrate] in
theorem item_of_decodeEntries {rest : Bytes} {m m' m'' : List (String × Ipld)} (hj : j < n)
    (h : decodeEntries item n m input = .ok (m', rest))
    (hj' : decodeEntries item j m input = .ok (m'', inner)) :
    ∃ key r, item inner = .ok (.string key, r) ∧ ∃ x r', item r = .ok (x, r') := by
  induction j generalizing n input m with
  | zero =>
    obtain ⟨n, rfl⟩ := Nat.exists_eq_succ_of_ne_zero (Nat.ne_of_gt hj)
    obtain ⟨-, rfl⟩ := Prod.mk.inj (Except.ok.inj hj')
    obtain ⟨key, r, value, r', hkey, hvalue, -⟩ := decodeEntries_succ_eq_ok.mp h
    exact ⟨key, r, hkey, value, r', hvalue⟩
  | succ j ih =>
    obtain ⟨n, rfl⟩ := Nat.exists_eq_succ_of_ne_zero (Nat.ne_zero_of_lt hj)
    obtain ⟨key, r, value, r', hkey, hvalue, h⟩ := decodeEntries_succ_eq_ok.mp h
    obtain ⟨key₁, r₁, value₁, r₁', hkey₁, hvalue₁, hj'⟩ := decodeEntries_succ_eq_ok.mp hj'
    -- the first entry is the same one
    have hkeys := hkey.symm.trans hkey₁
    simp only [Except.ok.injEq, Prod.mk.injEq, Ipld.string.injEq] at hkeys
    obtain ⟨rfl, rfl⟩ := hkeys
    obtain ⟨rfl, rfl⟩ := Prod.mk.inj (Except.ok.inj (hvalue.symm.trans hvalue₁))
    exact ih (Nat.lt_of_succ_lt_succ hj) h hj'

theorem count_le_of_decodeItems {rest : Bytes}
    (h : decodeItems decodeDagCbor n input = .ok (xs, rest)) : n ≤ input.length := by
  induction n generalizing input xs with
  | zero => exact Nat.zero_le _
  | succ n ih =>
    obtain ⟨x, r, xs', hx, hxs, -⟩ := decodeItems_succ_eq_ok.mp h
    exact (ih hxs).trans_lt (decodeDagCbor_length_lt hx)

end Decodes

theorem nested_of_decodeMajor (itemSize : ℕ) {majorType info : UInt8} {r rest : Bytes}
    {len : UInt64} (hhead : decodeCborUint info input = .ok (len, r))
    (h : decodeMajor decodeDagCbor majorType info input = .ok (x, rest)) :
    (∀ q ∈ announced itemSize majorType len r,
      q.count ≤ r.length ∧ q.unread = r.length ∧ (q.size = 1 ∨ q.size = itemSize)) ∧
    ∀ inner, Nested majorType len r inner →
      inner.length ≤ r.length ∧ ∃ y s, decodeDagCbor inner = .ok (y, s) := by
  have hgrow : NonGrowing decodeDagCbor := fun h => (decodeDagCbor_length_lt h).le
  have hafter : ∀ {α : Type} {f : UInt64 × Bytes → Except Error α} {a : α},
      (decodeCborUint info input >>= f) = .ok a → f (len, r) = .ok a := fun h => by
    rwa [hhead] at h
  unfold decodeMajor at h
  unfold announced Nested
  generalize majorType.toNat = m at h ⊢
  match m with
  | 0 | 1 | 7 => exact ⟨fun q hq => absurd hq (by simp), fun inner hinner => hinner.elim⟩
  | 2 | 3 =>
    -- the bytes are all there
    obtain ⟨⟨bytes, r'⟩, hread, -⟩ := Except.bind_eq_ok_iff.mp (hafter h)
    obtain ⟨hlen, rfl⟩ := readExact_eq_ok hread
    refine ⟨fun q hq => ?_, fun inner hinner => hinner.elim⟩
    obtain rfl := Option.some.inj hq
    refine ⟨?_, rfl, Or.inl rfl⟩
    rw [List.length_append, hlen]
    exact Nat.le_add_right _ _
  | 4 =>
    obtain ⟨⟨xs, r'⟩, hitems, -⟩ := Except.bind_eq_ok_iff.mp (hafter h)
    constructor
    · intro q hq
      obtain rfl := Option.some.inj hq
      exact ⟨count_le_of_decodeItems hitems, rfl, Or.inr rfl⟩
    · rintro inner ⟨j, hj, ys, hys⟩
      exact ⟨decodeItems_length_le hgrow hys, item_of_decodeItems hj hitems hys⟩
  | 5 =>
    obtain ⟨⟨m, r'⟩, hentries, -⟩ := Except.bind_eq_ok_iff.mp (hafter h)
    refine ⟨fun q hq => absurd hq (by simp), ?_⟩
    rintro inner ⟨j, hj, m', s, hm', hinner⟩
    have hs := decodeEntries_length_le hgrow hm'
    obtain ⟨key, t, hkey, value, t', hvalue⟩ := item_of_decodeEntries hj hentries hm'
    rcases hinner with rfl | ⟨key', hkey'⟩
    · exact ⟨hs, _, t, hkey⟩
    · obtain ⟨-, rfl⟩ := Prod.mk.inj (Except.ok.inj (hkey.symm.trans hkey'))
      exact ⟨(hgrow hkey).trans hs, value, t', hvalue⟩
  | 6 =>
    refine ⟨fun q hq => absurd hq (by simp), ?_⟩
    rintro inner rfl
    refine ⟨le_rfl, ?_⟩
    -- a link, or the item under an unknown tag
    have htagged := hafter h
    dsimp only at htagged
    split at htagged
    · obtain ⟨⟨y, s⟩, hy, -⟩ := Except.bind_eq_ok_iff.mp htagged
      exact ⟨y, s, hy⟩
    · exact ⟨x, rest, htagged⟩
  | m + 8 => exact ⟨fun q hq => absurd hq (by simp), fun inner hinner => hinner.elim⟩

/-- **Inputs that decode** ask for nothing beyond the input, if vectors of their length can be. -/
theorem headersFit_of_decodes {n : ℕ} (hbyte : n ≤ isizeMax) (hitem : n * itemSize ≤ isizeMax)
    {rest : Bytes} (hn : input.length ≤ n) (h : decodeDagCbor input = .ok (x, rest)) :
    HeadersFit itemSize input := by
  induction hlen : input.length using Nat.strongRecOn generalizing input rest x with
  | ind l ih =>
    subst hlen
    cases input with
    | nil => exact headersFit_nil itemSize
    | cons firstByte input =>
      rw [headersFit_cons_iff]
      intro len r hhead
      rw [decodeDagCbor_eq] at h
      obtain ⟨hannounced, hnested⟩ := nested_of_decodeMajor itemSize hhead h
      have hr := decodeCborUint_length_le hhead
      have hrn : r.length ≤ n := hr.trans (Nat.le_of_succ_le hn)
      constructor
      · intro q hq
        obtain ⟨hcount, hunread, hsize⟩ := hannounced q hq
        refine ⟨?_, hcount.trans_eq hunread.symm⟩
        have hsize' : n * q.size ≤ isizeMax := by
          rcases hsize with hsize | hsize
          · rwa [hsize, Nat.mul_one]
          · rwa [hsize]
        exact (Nat.mul_le_mul_right _ (hcount.trans hrn)).trans hsize'
      · intro inner hinner
        obtain ⟨hle, y, s, hy⟩ := hnested inner hinner
        exact ih _ (Nat.lt_succ_of_le (hle.trans hr)) (hle.trans hrn) hy rfl

end Whole

end Follows

section Sample

open scoped CidReference

theorem fromDagCbor_alloc_array :
    (Decoding.fromDagCbor 112 3 [0x81, 0x41, 0x07]).result ≠ .error .capacityOverflow ∧
      ∀ r ∈ (Decoding.fromDagCbor 112 3 [0x81, 0x41, 0x07]).requests, r.count ≤ r.unread := by
  have hdecode : decodeDagCbor [0x81, 0x41, 0x07] = .ok (.list [.bytes [0x07]], []) := rfl
  exact (fromDagCbor_alloc_iff le_rfl).mpr
    (headersFit_of_decodes (n := 3) (by decide) (by decide) le_rfl hdecode)

/-- Nine bytes that announce an array of the largest length, whatever the size of an item is. -/
theorem not_forall_fromDagCbor_alloc :
    ¬ ∃ itemSize, ∀ (fuel : ℕ) (data : Bytes), data.length ≤ fuel →
      (Decoding.fromDagCbor itemSize fuel data).result ≠ .error .capacityOverflow ∧
        ∀ r ∈ (Decoding.fromDagCbor itemSize fuel data).requests, r.count ≤ r.unread := by
  rintro ⟨itemSize, hall⟩
  have hlike : DecodesLike (Decoding.fromDagCbor itemSize 9
    [0x9b, 0xff, 0xff, 0xff, 0xff, 0xff, 0xff, 0xff, 0xff]) _ _ := decodesLike_fromDagCbor le_rfl
  have hfit := (hlike.safe_iff fun _ => Stop.noConfusion).mp (hall 9 _ le_rfl)
  have hlen : decodeCborUint (0x9b &&& 0x1f) [0xff, 0xff, 0xff, 0xff, 0xff, 0xff, 0xff, 0xff]
      = .ok (UInt64.ofNat (2 ^ 64 - 1), []) := by decide +kernel
  obtain ⟨-, hwithin⟩ := hfit _ .refl _ _ hlen _ rfl
  exact absurd hwithin (show ¬ (UInt64.ofNat (2 ^ 64 - 1)).toNat ≤ 0 by decide)

end Sample

end Ipfrs
