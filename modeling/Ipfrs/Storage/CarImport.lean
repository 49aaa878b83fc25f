import Ipfrs.Core.DagCborAlloc
import Ipfrs.Storage.BlockStore
import Ipfrs.Storage.Car

/-!
# Importing a CAR file

`import_from_car`, and the reader below it once more with the buffers that it asks for
(`ipfrs-storage/src/car.rs`).

`open` makes a buffer of the announced length of the header before it reads the header, and
`read_block` one for a record; `read_cbor_roots` makes a vector with room for the announced number
of roots. Nothing compares these numbers with what is left of the file. A skipped value may run past
the end of the header, and then the next slice panics. And the data of a record are not compared
with its CID.

* `noPanic_skipCborValue_iff` — what is passed over, as a walk from value to value (`Spot.Next`);
* `importsLike_fromCbor` — the header: what `from_cbor` announces and passes over (`HeaderFits`).

Copies of bytes that have been read are no longer than these and are not counted. Memory is not
bounded: a buffer is refused only if it would be longer than one can be.
-/

namespace Ipfrs.Storage

/-- What an import does: it asks for a buffer of some bytes, or a block gets into the store. -/
inductive CarEvent where
  | buffer (size : ℕ)
  | stored (block : Block)
  deriving DecidableEq

/-- A computation of the import. -/
abbrev Import (α : Type) : Type := Metered CarEvent Fault α

namespace Import

/-- What asks for nothing. -/
def lift {α : Type} (x : Except Fault α) : Import α := Metered.ofExcept id x

/-- `vec![0; size]`, or `Vec::with_capacity` for `size` bytes. -/
def buffer (size : ℕ) : Import Unit :=
  Metered.request (.buffer size) (size ≤ isizeMax) (.panic "capacity overflow")

/-! ### The reader -/

section Read

variable [CidCrate] (itemSize : ℕ)

/-- `read_cbor_roots`. `itemSize` is `size_of::<Cid>()`. -/
def readCborRoots (data : Bytes) : Import (List Cid × ℕ) :=
  match data with
  | [] => lift (.error (.error (.invalidData "Unexpected end")))
  | b :: _ =>
    if b >>> 5 ≠ 4 then lift (.error (.error (.invalidData "Expected array")))
    else do
      let (arrLen, headerLen) ← lift (liftResult (readCborLen data))
      buffer (arrLen * itemSize)
      lift (liftResult (readCborRootsLoop data arrLen headerLen []))

/-- The loop of `from_cbor` over the entries of the map, with `count` rounds left. -/
def fromCborLoop (data : Bytes) : ℕ → ℕ → CarHeader → Import CarHeader
  | 0, _, h => pure h
  | count + 1, pos, h => do
    let slice ← lift (sliceFrom data pos)
    let (key, keyLen) ← lift (liftResult (readCborText slice))
    let pos := pos + keyLen
    if key = "version" then
      if pos ≥ data.length then lift (.error (.error (.invalidData "Unexpected end")))
      else
        let (v, len) ← lift (liftResult (readCborUint (data.drop pos)))
        fromCborLoop data count (pos + len) { h with version := v }
    else if key = "roots" then
      let slice ← lift (sliceFrom data pos)
      let (r, len) ← readCborRoots itemSize slice
      fromCborLoop data count (pos + len) { h with roots := r }
    else
      let slice ← lift (sliceFrom data pos)
      let len ← lift (skipCborValue (data.length + 1) slice)
      fromCborLoop data count (pos + len) h

/-- `CarHeader::from_cbor`. -/
def fromCbor (data : Bytes) : Import CarHeader :=
  match data with
  | [] => lift (.error (.error (.invalidData "Expected CBOR map")))
  | b :: _ =>
    if b &&& 0xe0 ≠ 0xa0 then lift (.error (.error (.invalidData "Expected CBOR map")))
    else if b = 0xa2 then fromCborLoop itemSize data 2 1 ⟨1, []⟩
    else lift (.error (.error (.invalidData "Expected map(2)")))

/-- `CarReader::open`. -/
def «open» (file : Bytes) : Import CarReader := do
  let (headerLenBuf, input) ← lift (liftResult (CarReader.readHeaderLen 10 file))
  let (headerLen, _) ← lift (liftResult (decodeVarint headerLenBuf))
  buffer headerLen.toNat
  let (headerBytes, input) ←
    lift (liftResult (CarReader.readBuffer "header" headerLen.toNat input))
  let header ← fromCbor itemSize headerBytes
  return ⟨input, header, 0, headerLenBuf.length + headerLen.toNat⟩

omit itemSize in
/-- `CarReader::read_block`. -/
def readBlock (r : CarReader) : Import (Option Block × CarReader) := do
  match ← lift (liftResult (CarReader.readBlockLen 10 r.reader)) with
  | none => return (none, r)
  | some (lenBuf, input) =>
    let (blockLen, _) ← lift (liftResult (decodeVarint lenBuf))
    buffer blockLen.toNat
    let (blockData, input) ←
      lift (liftResult (CarReader.readBuffer "block data" blockLen.toNat input))
    let block ← lift (CarReader.parseRecord blockData)
    return (some block, { r with
      reader := input
      blocksRead := r.blocksRead + 1
      bytesRead := r.bytesRead + (lenBuf.length + blockLen.toNat) })

variable {S : Type} [BlockStore S]

omit itemSize in
/-- The loop of `import_from_car`, with at most `rounds` rounds. -/
def importLoop : ℕ → S → CarReader → Import (S × CarReadStats)
  | 0, _, _ => lift (.error (.panic "out of rounds"))
  | rounds + 1, store, r => do
    match ← readBlock r with
    | (none, r) => return (store, r.stats)
    | (some block, r) =>
      let store ← lift (liftResult (BlockStore.put store block))
      Metered.request (.stored block) True (.panic "refused")
      importLoop rounds store r

/-- `import_from_car`. Every round reads at least one byte. -/
def importFromCar (store : S) (file : Bytes) : Import (S × CarReadStats) := do
  let r ← «open» itemSize file
  importLoop (r.reader.length + 1) store r

end Read

end Import

/-! ### Places in the header -/

/-- The buffer can be had, and is no larger than the file, which has `bound` bytes. -/
def BufferFits (bound size : ℕ) : Prop := size ≤ isizeMax ∧ size ≤ bound

/-- The major type of the next value. -/
def majorAt : Bytes → Option UInt8
  | [] => none
  | b :: _ => some (b >>> 5)

/-- A place in a header: in front of `count` entries of the map, or of `skip` values that are passed
over and then `count` entries. -/
inductive Spot where
  | entries (count : ℕ) (rest : Bytes)
  | values (skip count : ℕ) (rest : Bytes)

/-- The bytes of a value behind its head, without the values in it. -/
def inlineLength (major : UInt8) (len : ℕ) : ℕ := if major = 2 ∨ major = 3 then len else 0

/-- The values in a value. -/
def innerValues (major : UInt8) (len : ℕ) : ℕ :=
  if major = 4 then len else if major = 5 then 2 * len else if major = 6 then 1 else 0

/-- How `from_cbor` gets on: behind an entry that it reads, to the value of a key that it does not
know, and from one value to the next. -/
inductive Spot.Next [CidCrate] : Spot → Spot → Prop
  | version {count keyLen len : ℕ} {rest : Bytes} {v : UInt64}
    (hkey : readCborText rest = .ok ("version", keyLen))
    (hvalue : readCborUint (rest.drop keyLen) = .ok (v, len)) :
    Next (.entries (count + 1) rest) (.entries count (rest.drop (keyLen + len)))
  | roots {count keyLen len : ℕ} {rest : Bytes} {roots : List Cid}
    (hkey : readCborText rest = .ok ("roots", keyLen))
    (hvalue : readCborRoots (rest.drop keyLen) = .ok (roots, len)) :
    Next (.entries (count + 1) rest) (.entries count (rest.drop (keyLen + len)))
  | unknown {count keyLen : ℕ} {rest : Bytes} {key : String}
    (hkey : readCborText rest = .ok (key, keyLen)) (hversion : key ≠ "version")
    (hroots : key ≠ "roots") :
    Next (.entries (count + 1) rest) (.values 1 count (rest.drop keyLen))
  | value {skip count len headerLen : ℕ} {rest : Bytes} {major : UInt8}
    (hmajor : majorAt rest = some major) (hlen : readCborLen rest = .ok (len, headerLen))
    (hinside : headerLen + inlineLength major len ≤ rest.length) :
    Next (.values (skip + 1) count rest)
      (.values (innerValues major len + skip) count
        (rest.drop (headerLen + inlineLength major len)))
  | skipped {count : ℕ} {rest : Bytes} : Next (.values 0 count rest) (.entries count rest)

/-- The next step at a place does no harm: the announced roots fit in a buffer, and a string that is
passed over ends inside the header, unless nothing is read behind it. -/
def Spot.Fits (itemSize bound : ℕ) : Spot → Prop
  | .entries (_ + 1) rest => ∀ keyLen arrLen headerLen, readCborText rest = .ok ("roots", keyLen) →
    majorAt (rest.drop keyLen) = some 4 →
    readCborLen (rest.drop keyLen) = .ok (arrLen, headerLen) → BufferFits bound (arrLen * itemSize)
  | .values (skip + 1) count rest => ∀ major len headerLen, majorAt rest = some major →
    readCborLen rest = .ok (len, headerLen) →
    headerLen + inlineLength major len ≤ rest.length ∨ skip = 0 ∧ count = 0
  | _ => True

/-- The header does no harm, wherever `from_cbor` gets in it. -/
def HeaderFits [CidCrate] (itemSize bound : ℕ) (data : Bytes) : Prop :=
  data.head? = some 0xa2 →
    Metered.Everywhere Spot.Next (Spot.Fits itemSize bound) (.entries 2 (data.drop 1))

/-! ### Lengths -/

section Lengths

variable {data rest : Bytes} {len headerLen : ℕ}

theorem readCborLenBytes_bounds {k : ℕ} (h : readCborLenBytes k rest = .ok (len, headerLen)) :
    headerLen = k + 1 ∧ k ≤ rest.length := by
  unfold readCborLenBytes at h
  cases hread : ByteStream.readExact k rest with
  | none =>
    rw [hread] at h
    exact absurd h (by simp)
  | some p =>
    rw [hread] at h
    obtain ⟨-, rfl⟩ := Prod.mk.inj (Except.ok.inj h)
    obtain ⟨hlen, rfl⟩ := ByteStream.readExact_eq_some hread
    rw [List.length_append, hlen]
    exact ⟨rfl, Nat.le_add_right _ _⟩

theorem readCborLen_bounds (h : readCborLen data = .ok (len, headerLen)) :
    1 ≤ headerLen ∧ headerLen ≤ data.length := by
  cases data with
  | nil => exact absurd h (by simp [readCborLen])
  | cons b rest =>
    have hbytes : ∀ {k}, readCborLenBytes k rest = .ok (len, headerLen) →
        1 ≤ headerLen ∧ headerLen ≤ (b :: rest).length := by
      intro k hk
      obtain ⟨rfl, hle⟩ := readCborLenBytes_bounds hk
      exact ⟨Nat.le_add_left 1 k, Nat.succ_le_succ hle⟩
    unfold readCborLen at h
    dsimp only at h
    split at h
    · -- the length is in the first byte
      obtain ⟨-, rfl⟩ := Prod.mk.inj (Except.ok.inj h)
      exact ⟨le_rfl, Nat.le_add_left 1 _⟩
    split at h
    · exact hbytes h
    split at h
    · exact hbytes h
    split at h
    · exact hbytes h
    · exact absurd h (by simp)

theorem readCborText_bounds {key : String} {keyLen : ℕ}
    (h : readCborText data = .ok (key, keyLen)) : keyLen ≤ data.length := by
  unfold readCborText at h
  split at h
  · exact absurd h (by simp)
  split at h
  · exact absurd h (by simp)
  obtain ⟨⟨len, headerLen⟩, -, h⟩ := Except.bind_eq_ok_iff.mp h
  dsimp only at h
  split at h
  · exact absurd h (by simp)
  · next hlong =>
    split at h
    · obtain ⟨-, rfl⟩ := Prod.mk.inj (Except.ok.inj h)
      exact Nat.le_of_not_lt hlong
    · exact absurd h (by simp)

theorem readCborUint_bounds {v : UInt64} (h : readCborUint data = .ok (v, len)) :
    len ≤ data.length := by
  unfold readCborUint at h
  split at h
  · exact absurd h (by simp)
  split at h
  · exact absurd h (by simp)
  obtain ⟨⟨val, n⟩, hlen, h⟩ := Except.bind_eq_ok_iff.mp h
  obtain ⟨-, rfl⟩ := Prod.mk.inj (Except.ok.inj h)
  exact (readCborLen_bounds hlen).2

section Roots

variable [CidCrate] {pos pos' : ℕ}

theorem readCborRoot_bounds {cid : Cid} (h : readCborRoot data pos = .ok (cid, pos')) :
    pos' ≤ data.length := by
  unfold readCborRoot at h
  dsimp only at h
  generalize (if data[pos]? = some 0xd8 then pos + 2 else pos) = start at h
  split at h
  · exact absurd h (by simp)
  split at h
  · exact absurd h (by simp)
  obtain ⟨⟨len, header⟩, -, h⟩ := Except.bind_eq_ok_iff.mp h
  dsimp only at h
  split at h
  · exact absurd h (by simp)
  · next hlong =>
    split at h
    · obtain ⟨-, rfl⟩ := Prod.mk.inj (Except.ok.inj h)
      exact Nat.le_of_not_lt hlong
    · exact absurd h (by simp)

variable {roots : List Cid}

theorem readCborRootsLoop_bounds {count : ℕ} {acc : List Cid} (hpos : pos ≤ data.length)
    (h : readCborRootsLoop data count pos acc = .ok (roots, pos')) : pos' ≤ data.length := by
  induction count generalizing pos acc with
  | zero =>
    obtain ⟨-, rfl⟩ := Prod.mk.inj (Except.ok.inj h)
    exact hpos
  | succ count ih =>
    unfold readCborRootsLoop at h
    obtain ⟨⟨cid, pos₁⟩, hroot, h⟩ := Except.bind_eq_ok_iff.mp h
    exact ih (readCborRoot_bounds hroot) h

theorem readCborRoots_bounds (h : readCborRoots data = .ok (roots, len)) : len ≤ data.length := by
  unfold readCborRoots at h
  split at h
  · exact absurd h (by simp)
  split at h
  · exact absurd h (by simp)
  obtain ⟨⟨arrLen, headerLen⟩, hlen, h⟩ := Except.bind_eq_ok_iff.mp h
  exact readCborRootsLoop_bounds (readCborLen_bounds hlen).2 h

end Roots

end Lengths

/-! ### No panic -/

/-- `x` does not panic, and `K` holds of what it returns. -/
def NoPanic {α : Type} (x : Except Fault α) (K : α → Prop) : Prop :=
  match x with
  | .ok a => K a
  | .error (.error _) => True
  | .error (.panic _) => False

section NoPanic

variable {α β : Type} {K : β → Prop}

theorem noPanic_bind_iff {x : Except Fault α} {f : α → Except Fault β} :
    NoPanic (x >>= f) K ↔ NoPanic x fun a => NoPanic (f a) K := by
  rcases x with (e | msg) | a
  · exact Iff.rfl
  · exact Iff.rfl
  · exact Iff.rfl

theorem liftResult_bind {x : Except Error α} {f : α → Except Error β} :
    liftResult (x >>= f) = liftResult x >>= fun a => liftResult (f a) := by
  cases x <;> rfl

theorem noPanic_liftResult_iff {x : Except Error β} :
    NoPanic (liftResult x) K ↔ ∀ b, x = .ok b → K b := by
  cases x with
  | error e => exact iff_of_true trivial fun b hb => absurd hb (by simp)
  | ok b => exact ⟨fun h b' hb' => Except.ok.inj hb' ▸ h, fun h => h b rfl⟩

theorem noPanic_sliceFrom_iff {data : Bytes} {pos : ℕ} {K : Bytes → Prop} :
    NoPanic (sliceFrom data pos) K ↔ pos ≤ data.length ∧ K (data.drop pos) := by
  unfold sliceFrom
  split
  · next h => exact ⟨fun hK => ⟨h, hK⟩, fun hK => hK.2⟩
  · next h => exact iff_of_false id fun hK => h hK.1

theorem noPanic_congr {x : Except Fault β} {K' : β → Prop} (h : ∀ b, x = .ok b → (K b ↔ K' b)) :
    NoPanic x K ↔ NoPanic x K' := by
  rcases x with (e | msg) | b
  · exact Iff.rfl
  · exact Iff.rfl
  · exact h b rfl

end NoPanic

/-! ### Values that are passed over -/

theorem shiftRight_five_lt (b : UInt8) : b >>> 5 < 8 := by
  have hb := b.toNat_lt
  rw [UInt8.lt_iff_toNat_lt, UInt8.toNat_shiftRight]
  show b.toNat >>> 5 < 8
  rw [Nat.shiftRight_eq_div_pow]
  omega

section Skip

variable [CidCrate] {itemSize bound : ℕ} {data rest : Bytes} {skip count pos : ℕ}

/-- The header does no harm from the position on, where `skip` values and `count` entries are still
to be read; or it has ended before, and there are none. -/
def RestFits (itemSize bound : ℕ) (data : Bytes) (pos skip count : ℕ) : Prop :=
  pos ≤ data.length ∧
      Metered.Everywhere Spot.Next (Spot.Fits itemSize bound)
        (.values skip count (data.drop pos)) ∨
    data.length < pos ∧ skip = 0 ∧ count = 0

theorem restFits_of_le (h : pos ≤ data.length) : RestFits itemSize bound data pos skip count ↔
    Metered.Everywhere Spot.Next (Spot.Fits itemSize bound) (.values skip count (data.drop pos)) :=
  ⟨fun hfits => hfits.elim And.right fun hbehind => absurd h (Nat.not_le.mpr hbehind.1),
    fun hfits => Or.inl ⟨h, hfits⟩⟩

theorem restFits_of_lt (h : data.length < pos) :
    RestFits itemSize bound data pos skip count ↔ skip = 0 ∧ count = 0 :=
  ⟨fun hfits => hfits.elim (fun hinside => absurd hinside.1 (Nat.not_le.mpr h)) And.right,
    fun hnone => Or.inr ⟨h, hnone⟩⟩

theorem restFits_drop_iff {len : ℕ} (h : pos ≤ data.length) :
    RestFits itemSize bound (data.drop pos) len skip count ↔
      RestFits itemSize bound data (pos + len) skip count := by
  unfold RestFits
  rw [List.drop_drop, List.length_drop]
  have hle : len ≤ data.length - pos ↔ pos + len ≤ data.length := by omega
  have hlt : data.length - pos < len ↔ data.length < pos + len := by omega
  rw [hle, hlt]

theorem everywhere_values_zero_iff :
    Metered.Everywhere Spot.Next (Spot.Fits itemSize bound) (.values 0 count rest) ↔
      Metered.Everywhere Spot.Next (Spot.Fits itemSize bound) (.entries count rest) := by
  rw [Metered.everywhere_iff]
  constructor
  · rintro ⟨-, hnext⟩
    exact hnext _ .skipped
  · intro h
    refine ⟨trivial, fun spot hnext => ?_⟩
    cases hnext
    exact h

/-- **One value is passed over**: then the values in it, and what stands behind it. -/
theorem everywhere_value_iff {major : UInt8} {len headerLen : ℕ}
    (hmajor : majorAt rest = some major) (hlen : readCborLen rest = .ok (len, headerLen)) :
    Metered.Everywhere Spot.Next (Spot.Fits itemSize bound) (.values (skip + 1) count rest) ↔
      RestFits itemSize bound rest (headerLen + inlineLength major len)
        (innerValues major len + skip) count := by
  rw [Metered.everywhere_iff]
  have hhead := (readCborLen_bounds hlen).2
  constructor
  · rintro ⟨hfits, hnext⟩
    by_cases hinside : headerLen + inlineLength major len ≤ rest.length
    · exact (restFits_of_le hinside).mpr (hnext _ (.value hmajor hlen hinside))
    · obtain ⟨rfl, rfl⟩ := (hfits major len headerLen hmajor hlen).resolve_left hinside
      refine (restFits_of_lt (Nat.lt_of_not_le hinside)).mpr ⟨?_, rfl⟩
      -- only a string has bytes of its own, and there is no value in it
      unfold inlineLength at hinside
      unfold innerValues
      split at hinside
      · next hstring =>
        obtain rfl | rfl := hstring
        · rfl
        · rfl
      · exact absurd hhead hinside
  · intro h
    -- there is one way to go on, that of the head
    constructor
    · intro major' len' headerLen' hmajor' hlen'
      obtain rfl := Option.some.inj (hmajor.symm.trans hmajor')
      obtain ⟨rfl, rfl⟩ := Prod.mk.inj (Except.ok.inj (hlen.symm.trans hlen'))
      by_cases hinside : headerLen + inlineLength major len ≤ rest.length
      · exact Or.inl hinside
      · obtain ⟨hskip, hcount⟩ := (restFits_of_lt (Nat.lt_of_not_le hinside)).mp h
        exact Or.inr ⟨(Nat.add_eq_zero_iff.mp hskip).2, hcount⟩
    · intro spot hnext
      cases hnext with
      | value hmajor' hlen' hinside =>
        obtain rfl := Option.some.inj (hmajor.symm.trans hmajor')
        obtain ⟨rfl, rfl⟩ := Prod.mk.inj (Except.ok.inj (hlen.symm.trans hlen'))
        exact (restFits_of_le hinside).mp h

theorem everywhere_value_of_error {e : Error} (hlen : readCborLen rest = .error e) :
    Metered.Everywhere Spot.Next (Spot.Fits itemSize bound) (.values (skip + 1) count rest) := by
  rw [Metered.everywhere_iff]
  constructor
  · intro major len headerLen _ hlen'
    exact absurd (hlen.symm.trans hlen') (by simp)
  · intro spot hnext
    cases hnext with
    | value _ hlen' _ => exact absurd (hlen.symm.trans hlen') (by simp)

variable {fuel : ℕ}

theorem noPanic_skipCborValues_iff (hvalue : ∀ {rest skip}, rest.length < fuel →
      (NoPanic (skipCborValue fuel rest) (fun len => RestFits itemSize bound rest len skip count) ↔
        Metered.Everywhere Spot.Next (Spot.Fits itemSize bound) (.values (skip + 1) count rest)))
    (n : ℕ) (hpos : pos ≤ data.length) (hfuel : data.length - pos < fuel) :
    NoPanic (skipCborValues fuel n data pos)
        (fun pos' => RestFits itemSize bound data pos' skip count) ↔
      Metered.Everywhere Spot.Next (Spot.Fits itemSize bound)
        (.values (n + skip) count (data.drop pos)) := by
  induction n generalizing pos with
  | zero =>
    rw [skipCborValues, Nat.zero_add]
    exact restFits_of_le hpos
  | succ n ih =>
    have hslice : (data.drop pos).length < fuel := by
      rw [List.length_drop]
      exact hfuel
    have hshift : n + 1 + skip = n + skip + 1 := by omega
    rw [skipCborValues, noPanic_bind_iff, noPanic_sliceFrom_iff, noPanic_bind_iff, hshift,
      ← hvalue hslice]
    rw [and_iff_right hpos]
    refine noPanic_congr fun len _ => ?_
    rw [restFits_drop_iff hpos]
    by_cases hinside : pos + len ≤ data.length
    · rw [ih hinside (by omega), restFits_of_le hinside]
    · -- the next slice panics, if there is one
      have hbehind := Nat.lt_of_not_le hinside
      rw [restFits_of_lt hbehind]
      cases n with
      | zero =>
        rw [skipCborValues, Nat.zero_add]
        exact restFits_of_lt hbehind
      | succ n =>
        rw [skipCborValues, noPanic_bind_iff, noPanic_sliceFrom_iff]
        exact iff_of_false (fun h => hinside h.1) (fun h => by omega)

/-- **What is passed over**: `skip_cbor_value` does not panic, and leaves what does no harm, just if
there is no harm from the value on. Every level of nesting has a byte of its own. -/
theorem noPanic_skipCborValue_iff (hfuel : rest.length < fuel) :
    NoPanic (skipCborValue fuel rest) (fun len => RestFits itemSize bound rest len skip count) ↔
      Metered.Everywhere Spot.Next (Spot.Fits itemSize bound)
        (.values (skip + 1) count rest) := by
  induction fuel generalizing rest skip with
  | zero => exact absurd hfuel (Nat.not_lt_zero _)
  | succ fuel ih =>
    cases rest with
    | nil =>
      have herror : readCborLen [] = .error (.invalidData "Unexpected end") := rfl
      rw [skipCborValue]
      exact iff_of_true trivial (everywhere_value_of_error herror)
    | cons b tail =>
      rw [skipCborValue, noPanic_bind_iff, noPanic_liftResult_iff]
      cases hlen : readCborLen (b :: tail) with
      | error e =>
        exact iff_of_true (fun p hp => absurd hp (by simp)) (everywhere_value_of_error hlen)
      | ok p =>
        obtain ⟨len, headerLen⟩ := p
        obtain ⟨hfirst, hinside⟩ := readCborLen_bounds hlen
        have hmajor : majorAt (b :: tail) = some (b >>> 5) := rfl
        rw [everywhere_value_iff hmajor hlen]
        simp only [Except.ok.injEq, forall_eq']
        -- a value with values in it, and one without
        have hnested : ∀ n, innerValues (b >>> 5) len = n → inlineLength (b >>> 5) len = 0 →
            (NoPanic (skipCborValues fuel n (b :: tail) headerLen)
              (fun pos => RestFits itemSize bound (b :: tail) pos skip count) ↔
              RestFits itemSize bound (b :: tail) (headerLen + inlineLength (b >>> 5) len)
                (innerValues (b >>> 5) len + skip) count) := by
          intro n hinner hinline
          rw [hinner, hinline, Nat.add_zero, restFits_of_le hinside]
          exact noPanic_skipCborValues_iff ih n hinside (by omega)
        have hflat : ∀ k, innerValues (b >>> 5) len = 0 → inlineLength (b >>> 5) len = k →
            (NoPanic (pure (headerLen + k) : Except Fault ℕ)
              (fun pos => RestFits itemSize bound (b :: tail) pos skip count) ↔
              RestFits itemSize bound (b :: tail) (headerLen + inlineLength (b >>> 5) len)
                (innerValues (b >>> 5) len + skip) count) := by
          intro k hinner hinline
          rw [hinner, hinline, Nat.zero_add]
          exact Iff.rfl
        have hlt : b >>> 5 < 8 := shiftRight_five_lt b
        generalize b >>> 5 = major at hnested hflat hlt ⊢
        split
        · -- integers and simple values end with their head
          next h =>
          obtain rfl | rfl | rfl := h
          all_goals exact hflat 0 rfl rfl
        split
        · -- strings have their bytes behind it
          next h =>
          obtain rfl | rfl := h
          all_goals exact hflat len rfl rfl
        split
        · -- an array
          next h =>
          subst h
          exact hnested len rfl rfl
        split
        · -- a map has two values for an entry
          next h =>
          subst h
          exact hnested (2 * len) rfl rfl
        · -- a tag is the only one that is left
          obtain rfl : major = 6 := by grind
          exact hnested 1 rfl rfl

end Skip

/-! ### The header -/

/-- The import ends with a panic. -/
def Panics (fault : Fault) : Prop := ∃ msg, fault = .panic msg

section Header

variable [HashCrate]

/-- The hash in the CID is that of the data, under one of the algorithms. -/
def Hashed (block : Block) : Prop := ∃ a : HashAlgorithm, block.cid.hash = a.multihash block.data

/-- A buffer is no larger than the file, and a block that is stored has the data of its CID. -/
def CarEvent.Within (bound : ℕ) : CarEvent → Prop
  | .buffer size => size ≤ bound
  | .stored block => Hashed block

/-- The import is safe just if `C` holds, and then it returns what the reader returns. -/
abbrev ImportsLike {α : Type} (bound : ℕ) (t : Import α) (x : Except Fault α) (C : Prop) : Prop :=
  Metered.SafeWhen (CarEvent.Within bound) Panics id t x C

variable {α β : Type} {bound : ℕ}

theorem importsLike_lift (x : Except Fault α) :
    ImportsLike bound (Import.lift x) x (NoPanic x fun _ => True) := by
  refine (Metered.safeWhen_ofExcept x).congr ?_
  rcases x with (e | msg) | a
  · refine iff_of_true ?_ trivial
    rintro _ ⟨⟩ ⟨msg, hmsg⟩
    cases hmsg
  · exact iff_of_false (fun h => h _ rfl ⟨msg, rfl⟩) id
  · exact iff_of_true (fun e he => absurd he (by simp)) trivial

theorem importsLike_lift_bind {x : Except Fault α} {f : α → Import β} {g : α → Except Fault β}
    {D : α → Prop} (h : ∀ a, x = .ok a → ImportsLike bound (f a) (g a) (D a)) :
    ImportsLike bound (Import.lift x >>= f) (x >>= g) (NoPanic x D) := by
  refine ((importsLike_lift x).bind h).congr ?_
  rcases x with (e | msg) | a
  · exact iff_of_true ⟨trivial, fun a ha => absurd ha (by simp)⟩ trivial
  · exact iff_of_false And.left id
  · exact ⟨fun hD => hD.2 a rfl, fun hD => ⟨trivial, fun a' ha' => Except.ok.inj ha' ▸ hD⟩⟩

theorem importsLike_buffer (size : ℕ) :
    ImportsLike bound (Import.buffer size) (.ok ()) (BufferFits bound size) := by
  unfold Import.buffer
  exact Metered.safeWhen_request (CarEvent.buffer size) ⟨_, rfl⟩

theorem importsLike_buffer_bind {size : ℕ} {t : Import β} {x : Except Fault β} {C : Prop}
    (h : ImportsLike bound t x C) :
    ImportsLike bound (Import.buffer size >>= fun _ => t) x (BufferFits bound size ∧ C) := by
  have hbind := (importsLike_buffer size).bind (f := fun _ => t) (g := fun _ => x)
    (D := fun _ => C) fun _ _ => h
  exact hbind.congr (and_congr_right fun _ => ⟨fun hC => hC () rfl, fun hC _ _ => hC⟩)

variable [CidCrate] {itemSize : ℕ}

theorem importsLike_readCborRoots (data : Bytes) :
    ImportsLike bound (Import.readCborRoots itemSize data) (liftResult (readCborRoots data))
      (∀ arrLen headerLen, majorAt data = some 4 → readCborLen data = .ok (arrLen, headerLen) →
        BufferFits bound (arrLen * itemSize)) := by
  unfold Import.readCborRoots readCborRoots
  cases data with
  | nil =>
    refine (importsLike_lift _).congr (iff_of_true trivial fun _ _ h _ => ?_)
    exact absurd h (by simp [majorAt])
  | cons b rest =>
    dsimp only
    split
    · next hmajor =>
      refine (importsLike_lift _).congr (iff_of_true trivial fun _ _ h _ => ?_)
      exact absurd (Option.some.inj h) hmajor
    · next hmajor =>
      have hfour : majorAt (b :: rest) = some 4 := congrArg some (not_not.mp hmajor)
      rw [liftResult_bind]
      refine (importsLike_lift_bind fun p _ => importsLike_buffer_bind (importsLike_lift
        (liftResult (readCborRootsLoop (b :: rest) p.1 p.2 [])))).congr ?_
      rw [noPanic_liftResult_iff]
      -- the roots are read into the vector, without a panic
      constructor
      · intro h arrLen headerLen _ hlen
        exact (h (arrLen, headerLen) hlen).1
      · rintro h ⟨arrLen, headerLen⟩ hlen
        exact ⟨h arrLen headerLen hfour hlen, noPanic_liftResult_iff.mpr fun _ _ => trivial⟩

variable {count pos : ℕ} {data : Bytes}

omit [HashCrate] in
/-- **One entry is read**: its key, and then its value as the key says. -/
theorem everywhere_entry_iff {rest : Bytes} :
    Metered.Everywhere Spot.Next (Spot.Fits itemSize bound) (.entries (count + 1) rest) ↔
      ∀ key keyLen, readCborText rest = .ok (key, keyLen) →
        if key = "version" then
          ∀ v len, readCborUint (rest.drop keyLen) = .ok (v, len) →
            Metered.Everywhere Spot.Next (Spot.Fits itemSize bound)
              (.entries count (rest.drop (keyLen + len)))
        else if key = "roots" then
          (∀ arrLen headerLen, majorAt (rest.drop keyLen) = some 4 →
            readCborLen (rest.drop keyLen) = .ok (arrLen, headerLen) →
            BufferFits bound (arrLen * itemSize)) ∧
          ∀ roots len, readCborRoots (rest.drop keyLen) = .ok (roots, len) →
            Metered.Everywhere Spot.Next (Spot.Fits itemSize bound)
              (.entries count (rest.drop (keyLen + len)))
        else
          Metered.Everywhere Spot.Next (Spot.Fits itemSize bound)
            (.values 1 count (rest.drop keyLen)) := by
  rw [Metered.everywhere_iff]
  constructor
  · rintro ⟨hfits, hnext⟩ key keyLen hkey
    split
    · next h =>
      subst h
      exact fun v len hvalue => hnext _ (.version hkey hvalue)
    · next hversion =>
      split
      · next h =>
        subst h
        exact ⟨fun arrLen headerLen => hfits keyLen arrLen headerLen hkey,
          fun roots len hvalue => hnext _ (.roots hkey hvalue)⟩
      · next hroots => exact hnext _ (.unknown hkey hversion hroots)
  · intro h
    -- each way to go on belongs to one key
    constructor
    · intro keyLen arrLen headerLen hkey
      have hroots := h _ _ hkey
      rw [if_neg (by decide), if_pos rfl] at hroots
      exact hroots.1 arrLen headerLen
    · intro spot hnext
      cases hnext with
      | version hkey hvalue =>
        have hversion := h _ _ hkey
        rw [if_pos rfl] at hversion
        exact hversion _ _ hvalue
      | roots hkey hvalue =>
        have hroots := h _ _ hkey
        rw [if_neg (by decide), if_pos rfl] at hroots
        exact hroots.2 _ _ hvalue
      | unknown hkey hversion hroots =>
        have hunknown := h _ _ hkey
        rw [if_neg hversion, if_neg hroots] at hunknown
        exact hunknown

omit [HashCrate] in
theorem restFits_zero (data : Bytes) (pos : ℕ) : RestFits itemSize bound data pos 0 0 := by
  by_cases hpos : pos ≤ data.length
  · rw [restFits_of_le hpos, everywhere_values_zero_iff, Metered.everywhere_iff]
    refine ⟨trivial, fun spot hnext => ?_⟩
    cases hnext
  · exact (restFits_of_lt (Nat.lt_of_not_le hpos)).mpr ⟨rfl, rfl⟩

omit [HashCrate] in
/-- The value of a key, which stands at the position, and what is behind it. -/
def ValueFits (itemSize bound : ℕ) (data : Bytes) (pos count : ℕ) (key : String) : Prop :=
  if key = "version" then
    ∀ v len, readCborUint (data.drop pos) = .ok (v, len) →
      RestFits itemSize bound data (pos + len) 0 count
  else if key = "roots" then
    NoPanic (sliceFrom data pos) fun slice =>
      (∀ arrLen headerLen, majorAt slice = some 4 → readCborLen slice = .ok (arrLen, headerLen) →
        BufferFits bound (arrLen * itemSize)) ∧
      ∀ roots len, readCborRoots slice = .ok (roots, len) →
        RestFits itemSize bound data (pos + len) 0 count
  else
    NoPanic (sliceFrom data pos) fun slice =>
      NoPanic (skipCborValue (data.length + 1) slice) fun len =>
        RestFits itemSize bound data (pos + len) 0 count

omit [HashCrate] in
theorem restFits_entries_iff (h : pos ≤ data.length) :
    RestFits itemSize bound data pos 0 count ↔
      Metered.Everywhere Spot.Next (Spot.Fits itemSize bound) (.entries count (data.drop pos)) := by
  rw [restFits_of_le h, everywhere_values_zero_iff]

omit [HashCrate] in
/-- Behind a key that was read, the value is the one that the next step of the reading is about. -/
theorem restFits_succ_iff (hpos : pos ≤ data.length) :
    RestFits itemSize bound data pos 0 (count + 1) ↔
      ∀ key keyLen, readCborText (data.drop pos) = .ok (key, keyLen) →
        ValueFits itemSize bound data (pos + keyLen) count key := by
  rw [restFits_entries_iff hpos, everywhere_entry_iff]
  refine forall_congr' fun key => forall_congr' fun keyLen => forall_congr' fun hkey => ?_
  have hinside : pos + keyLen ≤ data.length := by
    have hle := readCborText_bounds hkey
    rw [List.length_drop] at hle
    omega
  -- a value that was read ends inside the data
  have hbehind : ∀ {len}, len ≤ (data.drop (pos + keyLen)).length →
      (RestFits itemSize bound data (pos + keyLen + len) 0 count ↔
        Metered.Everywhere Spot.Next (Spot.Fits itemSize bound)
          (.entries count (data.drop (pos + (keyLen + len))))) := by
    intro len hlen
    rw [List.length_drop] at hlen
    rw [restFits_entries_iff (by omega), Nat.add_assoc]
  unfold ValueFits
  simp only [List.drop_drop]
  split
  · refine forall_congr' fun v => forall_congr' fun len => forall_congr' fun hvalue => ?_
    exact (hbehind (readCborUint_bounds hvalue)).symm
  split
  · rw [noPanic_sliceFrom_iff, and_iff_right hinside]
    refine and_congr_right fun _ => ?_
    refine forall_congr' fun roots => forall_congr' fun len => forall_congr' fun hvalue => ?_
    exact (hbehind (readCborRoots_bounds hvalue)).symm
  · have hfuel : (data.drop (pos + keyLen)).length < data.length + 1 := by
      rw [List.length_drop]
      omega
    rw [noPanic_sliceFrom_iff, and_iff_right hinside, ← noPanic_skipCborValue_iff hfuel]
    exact noPanic_congr fun len _ => restFits_drop_iff hinside

/-- **The entries of the header**, from a position on. -/
theorem importsLike_fromCborLoop (data : Bytes) (count pos : ℕ) (h : CarHeader) :
    ImportsLike bound (Import.fromCborLoop itemSize data count pos h)
      (CarHeader.fromCborLoop data count pos h) (RestFits itemSize bound data pos 0 count) := by
  induction count generalizing pos h with
  | zero => exact (Metered.safeWhen_pure h).congr (iff_of_true trivial (restFits_zero data pos))
  | succ count ih =>
    unfold Import.fromCborLoop CarHeader.fromCborLoop
    refine (importsLike_lift_bind (D := fun slice => NoPanic (liftResult (readCborText slice))
      fun p => ValueFits itemSize bound data (pos + p.2) count p.1)
      fun slice _ => importsLike_lift_bind ?_).congr ?_
    · -- the value, as its key says
      rintro ⟨key, keyLen⟩ -
      dsimp only
      unfold ValueFits
      split
      · -- the version is looked for only before the end of the data
        split
        · next hend =>
          have hnil : data.drop (pos + keyLen) = [] := List.drop_eq_nil_of_le hend
          refine (importsLike_lift _).congr (iff_of_true trivial fun v len hvalue => ?_)
          rw [hnil] at hvalue
          exact absurd hvalue (by simp [readCborUint])
        · refine (importsLike_lift_bind fun q _ => ih _ _).congr ?_
          rw [noPanic_liftResult_iff, Prod.forall]
      split
      · refine importsLike_lift_bind fun slice _ => ?_
        refine ((importsLike_readCborRoots slice).bind fun q _ => ih _ _).congr ?_
        refine and_congr_right fun _ => ?_
        simp only [liftResult_eq_ok, Prod.forall]
      · exact importsLike_lift_bind fun slice _ => importsLike_lift_bind fun len _ => ih _ _
    · -- the slice for the next key panics behind the end of the data
      rw [noPanic_sliceFrom_iff]
      by_cases hpos : pos ≤ data.length
      · rw [and_iff_right hpos, restFits_succ_iff hpos, noPanic_liftResult_iff, Prod.forall]
      · rw [restFits_of_lt (Nat.lt_of_not_le hpos)]
        exact iff_of_false (fun hfits => hpos hfits.1) fun hnone => Nat.succ_ne_zero count hnone.2

/-- **The header**: `from_cbor` does no harm just if no place in it does. -/
theorem importsLike_fromCbor (data : Bytes) :
    ImportsLike bound (Import.fromCbor itemSize data) (CarHeader.fromCbor data)
      (HeaderFits itemSize bound data) := by
  unfold Import.fromCbor CarHeader.fromCbor HeaderFits
  cases data with
  | nil => exact (importsLike_lift _).congr (iff_of_true trivial fun h => absurd h (by simp))
  | cons b rest =>
    dsimp only
    split
    · next hmap =>
      refine (importsLike_lift _).congr (iff_of_true trivial fun h => absurd ?_ hmap)
      obtain rfl := Option.some.inj h
      decide
    split
    · next htwo =>
      subst htwo
      refine (importsLike_fromCborLoop _ 2 1 _).congr ?_
      rw [restFits_entries_iff (Nat.le_add_left 1 _)]
      exact ⟨fun h _ => h, fun h => h rfl⟩
    · next htwo =>
      refine (importsLike_lift _).congr (iff_of_true trivial fun h => absurd ?_ htwo)
      exact Option.some.inj h

end Header

end Ipfrs.Storage
