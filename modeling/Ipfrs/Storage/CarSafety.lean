import Ipfrs.Storage.CarImport

/-!
# What a CAR file can do to its importer

The records of a file and the file as a whole, behind the header (`Ipfrs.Storage.CarImport`).

A record does harm where it announces more bytes than the file has, or where its data are not those
of its CID and the store takes them. The slice behind the CID is inside the record, since a CID is
no longer than the bytes that it was parsed from (`BoundedCidCrate`).

* `importLoop_safe_iff` — the records, one after the other (`RecordFits`);
* `importFromCar_safe_iff` — the whole file (`FileFits`).
-/

namespace Ipfrs.Storage

/-- What the CID crate documents of parsing: the CID is read from the front of the bytes, so its
binary form is no longer than they are. -/
class BoundedCidCrate [CidCrate] : Prop where
  length_le : ∀ {data : Bytes} {c : Cid}, CidCrate.tryFrom data = .ok c →
    (CidCrate.toBytes c).length ≤ data.length

/-! ### Records -/

section Records

variable {S : Type} [CidCrate] [BlockStore S]

omit [CidCrate] in
/-- The file goes on with a record of `len` bytes, which begins with `tail`. -/
def Announces (input : Bytes) (len : ℕ) (tail : Bytes) : Prop :=
  ∃ buf v n, CarReader.readBlockLen 10 input = .ok (some (buf, tail)) ∧
    decodeVarint buf = .ok (v, n) ∧ v.toNat = len

/-- The file goes on with a record that is all there and has a CID and data. -/
def HasRecord (input : Bytes) (block : Block) (rest : Bytes) : Prop :=
  ∃ len tail body, Announces input len tail ∧
    ByteStream.readExact len tail = some (body, rest) ∧
    CidCrate.tryFrom body = .ok block.cid ∧
    block.data = body.drop (CidCrate.toBytes block.cid).length

/-- One round of the import: the store takes the block of the next record. -/
def Stores : S × Bytes → S × Bytes → Prop
  | (store, input), (store', rest) =>
    ∃ block, HasRecord input block rest ∧ BlockStore.put store block = .ok store'

/-- The next record does no harm: its bytes fit in a buffer, and if the store takes its block, the
data are those of the CID. -/
def RecordFits [HashCrate] (bound : ℕ) : S × Bytes → Prop
  | (store, input) => (∀ len tail, Announces input len tail → BufferFits bound len) ∧
    ∀ block rest store', HasRecord input block rest → BlockStore.put store block = .ok store' →
      Hashed block

end Records

section ReadBlock

variable {input tail rest : Bytes} {buf : Bytes} {block : Block} {r r' : CarReader}

theorem readBlockLen_length_le {rounds : ℕ}
    (h : CarReader.readBlockLen rounds input = .ok (some (buf, tail))) :
    tail.length ≤ input.length ∧ (0 < rounds → tail.length < input.length) := by
  induction rounds generalizing input buf with
  | zero =>
    obtain ⟨-, rfl⟩ := Prod.mk.inj (Option.some.inj (Except.ok.inj h))
    exact ⟨le_rfl, fun hpos => absurd hpos (Nat.lt_irrefl 0)⟩
  | succ rounds ih =>
    cases input with
    | nil =>
      unfold CarReader.readBlockLen at h
      split at h
      · exact absurd h (by simp)
      · exact absurd h (by simp)
    | cons b input =>
      suffices hle : tail.length ≤ input.length from
        ⟨hle.trans (Nat.le_succ _), fun _ => Nat.lt_succ_of_le hle⟩
      unfold CarReader.readBlockLen at h
      split at h
      · obtain ⟨-, rfl⟩ := Prod.mk.inj (Option.some.inj (Except.ok.inj h))
        exact le_rfl
      · obtain ⟨found, hread, h⟩ := Except.bind_eq_ok_iff.mp h
        cases found with
        | none => exact absurd h (by simp)
        | some p =>
          obtain ⟨-, rfl⟩ := Prod.mk.inj (Option.some.inj (Except.ok.inj h))
          exact (ih hread).1

theorem readBuffer_eq_ok_iff {what : String} {n : ℕ} {p : Bytes × Bytes} :
    CarReader.readBuffer what n input = .ok p ↔ ByteStream.readExact n input = some p := by
  unfold CarReader.readBuffer
  cases ByteStream.readExact n input <;> simp

variable [CidCrate]

theorem HasRecord.length_lt (h : HasRecord input block rest) : rest.length < input.length := by
  obtain ⟨len, tail, body, ⟨buf, v, n, hlen, -, -⟩, hread, -, -⟩ := h
  have htail := (readBlockLen_length_le hlen).2 (by decide)
  obtain ⟨-, rfl⟩ := ByteStream.readExact_eq_some hread
  rw [List.length_append] at htail
  omega

theorem parseRecord_eq [BoundedCidCrate] (body : Bytes) :
    CarReader.parseRecord body = match CidCrate.tryFrom body with
      | .ok cid => .ok ⟨cid, body.drop (CidCrate.toBytes cid).length⟩
      | .error e => .error (.error (.cid ("Invalid CID in CAR: " ++ e))) := by
  unfold CarReader.parseRecord
  cases hcid : CidCrate.tryFrom body with
  | error e => rfl
  | ok cid =>
    simp only [Except.mapError, liftResult, Except.ok_bind]
    rw [sliceFrom, if_pos (BoundedCidCrate.length_le hcid)]
    rfl

variable [BoundedCidCrate]

/-- **One record**: `read_block` returns the block of the next record, if there is one. -/
theorem readBlock_eq_some_iff : (∃ r', r.readBlock = .ok (some block, r') ∧ r'.reader = rest) ↔
    HasRecord r.reader block rest := by
  constructor
  · -- every step of `read_block` has succeeded
    rintro ⟨r', h, rfl⟩
    unfold CarReader.readBlock at h
    obtain ⟨found, hlen, h⟩ := Except.bind_eq_ok_iff.mp h
    cases found with
    | none =>
      -- the end of the file
      obtain ⟨hnone, -⟩ := Prod.mk.inj (Except.ok.inj h)
      cases hnone
    | some p =>
      obtain ⟨⟨v, n⟩, hv, h⟩ := Except.bind_eq_ok_iff.mp h
      obtain ⟨⟨body, input⟩, hbody, h⟩ := Except.bind_eq_ok_iff.mp h
      obtain ⟨block', hparse, h⟩ := Except.bind_eq_ok_iff.mp h
      obtain ⟨hblock, rfl⟩ := Prod.mk.inj (Except.ok.inj h)
      obtain rfl := Option.some.inj hblock
      rw [liftResult_eq_ok] at hlen hv hbody
      refine ⟨_, _, body, ⟨_, v, n, hlen, hv, rfl⟩, readBuffer_eq_ok_iff.mp hbody, ?_⟩
      rw [parseRecord_eq] at hparse
      split at hparse
      · next cid hcid =>
        obtain rfl := Except.ok.inj hparse
        exact ⟨hcid, rfl⟩
      · exact absurd hparse (by simp)
  · rintro ⟨len, tail, body, ⟨buf, v, n, hlen, hv, rfl⟩, hread, hcid, hdata⟩
    have hbuffer : CarReader.readBuffer "block data" v.toNat tail = .ok (body, rest) :=
      readBuffer_eq_ok_iff.mpr hread
    have hparse : CarReader.parseRecord body = .ok block := by
      rw [parseRecord_eq, hcid]
      dsimp only
      rw [← hdata]
    refine ⟨{ r with
      reader := rest
      blocksRead := r.blocksRead + 1
      bytesRead := r.bytesRead + (buf.length + v.toNat) }, ?_, rfl⟩
    unfold CarReader.readBlock
    rw [hlen]
    simp only [liftResult, Except.ok_bind, hv, hbuffer, hparse]
    rfl

end ReadBlock

/-! ### The import -/

section Import

variable {S : Type} [CidCrate] [BoundedCidCrate] [HashCrate] [BlockStore S] {bound : ℕ}

omit [HashCrate] [BlockStore S] in
theorem noPanic_parseRecord (body : Bytes) :
    NoPanic (CarReader.parseRecord body) fun _ => True := by
  rw [parseRecord_eq]
  cases CidCrate.tryFrom body <;> trivial

theorem importsLike_readBlock (r : CarReader) :
    ImportsLike bound (Import.readBlock r) r.readBlock
      (∀ len tail, Announces r.reader len tail → BufferFits bound len) := by
  unfold Import.readBlock CarReader.readBlock
  refine (importsLike_lift_bind (D := fun found => ∀ buf tail v n, found = some (buf, tail) →
    decodeVarint buf = .ok (v, n) → BufferFits bound v.toNat) ?_).congr ?_
  · rintro (_ | ⟨buf, tail⟩) -
    · exact (Metered.safeWhen_pure _).congr
        (iff_of_true trivial fun _ _ _ _ h => absurd h (by simp))
    · refine (importsLike_lift_bind fun p _ => importsLike_buffer_bind
        (importsLike_lift_bind fun q _ => importsLike_lift_bind fun block _ =>
          Metered.safeWhen_pure _)).congr ?_
      rw [noPanic_liftResult_iff]
      constructor
      · intro h buf' tail' v n hsome hv
        obtain ⟨rfl, rfl⟩ := Prod.mk.inj (Option.some.inj hsome)
        exact (h (v, n) hv).1
      · rintro h ⟨v, n⟩ hv
        exact ⟨h buf tail v n rfl hv, noPanic_liftResult_iff.mpr fun q _ => noPanic_parseRecord q.1⟩
  · rw [noPanic_liftResult_iff]
    constructor
    · rintro h len tail ⟨buf, v, n, hlen, hv, rfl⟩
      exact h _ hlen buf tail v n rfl hv
    · rintro h found hlen buf tail v n rfl hv
      exact h _ tail ⟨buf, v, n, hlen, hv, rfl⟩

variable {α : Type} {store : S}

omit [CidCrate] [BoundedCidCrate] in
/-- The store is asked to take a block, and if it does, the import goes on. -/
theorem put_safe_iff {block : Block} {next : S → Import α} :
    (Import.lift (liftResult (BlockStore.put store block)) >>= fun store' =>
      Metered.request (.stored block) True (.panic "refused") >>= fun _ => next store').Safe
        (CarEvent.Within bound) Panics ↔
      ∀ store', BlockStore.put store block = .ok store' →
        Hashed block ∧ (next store').Safe (CarEvent.Within bound) Panics := by
  have hstored : ImportsLike bound (Metered.request (.stored block) True (.panic "refused"))
      (.ok ()) (True ∧ Hashed block) := Metered.safeWhen_request (CarEvent.stored block) ⟨_, rfl⟩
  rw [(importsLike_lift _).safe_bind_iff, noPanic_liftResult_iff]
  rw [and_iff_right fun _ _ => trivial]
  refine forall_congr' fun store' => ?_
  rw [liftResult_eq_ok, hstored.safe_bind_iff, true_and]
  exact imp_congr_right fun _ => and_congr_right fun _ => ⟨fun h => h () rfl, fun h _ _ => h⟩

/-- **The records**, one after the other: the rounds are enough, and no harm is done just if no
record that the import gets to does any. -/
theorem importLoop_safe_iff {rounds : ℕ} {r : CarReader} (hrounds : r.reader.length < rounds) :
    (Import.importLoop rounds store r).Safe (CarEvent.Within bound) Panics ↔
      Metered.Everywhere Stores (RecordFits bound) (store, r.reader) := by
  induction rounds generalizing store r with
  | zero => exact absurd hrounds (Nat.not_lt_zero _)
  | succ rounds ih =>
    unfold Import.importLoop
    rw [(importsLike_readBlock r).safe_bind_iff, Metered.everywhere_iff]
    constructor
    · rintro ⟨hbuffer, hblock⟩
      -- a record that the store takes is what `read_block` returns
      have hput : ∀ block rest store', HasRecord r.reader block rest →
          BlockStore.put store block = .ok store' → Hashed block ∧
            Metered.Everywhere Stores (RecordFits bound) (store', rest) := by
        intro block rest store' hrecord hstore
        have hshort := hrecord.length_lt
        obtain ⟨r', hread, rfl⟩ := readBlock_eq_some_iff.mpr hrecord
        obtain ⟨hhashed, hnext⟩ := put_safe_iff.mp (hblock _ hread) store' hstore
        exact ⟨hhashed, (ih (by omega)).mp hnext⟩
      refine ⟨⟨hbuffer, fun block rest store' hrecord hstore => ?_⟩, ?_⟩
      · exact (hput block rest store' hrecord hstore).1
      · rintro ⟨store', rest⟩ ⟨block, hrecord, hstore⟩
        exact (hput block rest store' hrecord hstore).2
    · rintro ⟨⟨hbuffer, hhashed⟩, hnext⟩
      refine ⟨hbuffer, ?_⟩
      rintro ⟨_ | block, r'⟩ hread
      · -- the end of the file
        have hend : ImportsLike bound (pure (store, r'.stats)) (.ok (store, r'.stats)) True :=
          Metered.safeWhen_pure _
        exact hend.safe_iff.mpr trivial
      · have hrecord := readBlock_eq_some_iff.mp ⟨r', hread, rfl⟩
        have hshort := hrecord.length_lt
        refine put_safe_iff.mpr fun store' hstore => ⟨hhashed block _ store' hrecord hstore, ?_⟩
        exact (ih (by omega)).mpr (hnext (store', r'.reader) ⟨block, hrecord, hstore⟩)

/-! ### The file -/

omit [BoundedCidCrate] in
/-- **What the importer relies on**: the announced length of the header fits in a buffer, and where
the header is all there it does no harm, nor does, if the header decodes, any record behind it. -/
def FileFits (itemSize : ℕ) (store : S) (file : Bytes) : Prop :=
  ∀ buf input, CarReader.readHeaderLen 10 file = .ok (buf, input) →
    ∀ v n, decodeVarint buf = .ok (v, n) →
      BufferFits file.length v.toNat ∧
      ∀ headerBytes rest, ByteStream.readExact v.toNat input = some (headerBytes, rest) →
        HeaderFits itemSize file.length headerBytes ∧
        ∀ header, CarHeader.fromCbor headerBytes = .ok header →
          Metered.Everywhere Stores (RecordFits file.length) (store, rest)

omit [CidCrate] [BoundedCidCrate] [BlockStore S] in
theorem lift_bind_safe_iff {β : Type} {x : Except Error α} {f : α → Import β} :
    (Import.lift (liftResult x) >>= f).Safe (CarEvent.Within bound) Panics ↔
      ∀ a, x = .ok a → (f a).Safe (CarEvent.Within bound) Panics := by
  rw [(importsLike_lift _).safe_bind_iff, noPanic_liftResult_iff, and_iff_right fun _ _ => trivial]
  exact forall_congr' fun a => by rw [liftResult_eq_ok]

omit [CidCrate] [BoundedCidCrate] [BlockStore S] in
theorem buffer_bind_safe_iff {size : ℕ} {t : Import α} :
    (Import.buffer size >>= fun _ => t).Safe (CarEvent.Within bound) Panics ↔
      BufferFits bound size ∧ t.Safe (CarEvent.Within bound) Panics := by
  rw [(importsLike_buffer size).safe_bind_iff]
  exact and_congr_right fun _ => ⟨fun h => h () rfl, fun h _ _ => h⟩

omit [BoundedCidCrate] [BlockStore S] in
theorem open_bind_safe_iff {itemSize : ℕ} {file : Bytes} {next : CarReader → Import α} :
    (Import.open itemSize file >>= next).Safe (CarEvent.Within bound) Panics ↔
      ∀ buf input, CarReader.readHeaderLen 10 file = .ok (buf, input) →
        ∀ v n, decodeVarint buf = .ok (v, n) →
          BufferFits bound v.toNat ∧
          ∀ headerBytes rest, ByteStream.readExact v.toNat input = some (headerBytes, rest) →
            HeaderFits itemSize bound headerBytes ∧
            ∀ header, CarHeader.fromCbor headerBytes = .ok header →
              (next ⟨rest, header, 0, buf.length + v.toNat⟩).Safe
                (CarEvent.Within bound) Panics := by
  unfold Import.open
  simp only [bind_assoc, pure_bind]
  rw [lift_bind_safe_iff, Prod.forall]
  refine forall_congr' fun buf => forall_congr' fun input => imp_congr_right fun _ => ?_
  rw [lift_bind_safe_iff, Prod.forall]
  refine forall_congr' fun v => forall_congr' fun n => imp_congr_right fun _ => ?_
  rw [buffer_bind_safe_iff, lift_bind_safe_iff, Prod.forall]
  refine and_congr_right fun _ => forall_congr' fun headerBytes => forall_congr' fun rest => ?_
  rw [readBuffer_eq_ok_iff, (importsLike_fromCbor headerBytes).safe_bind_iff]

/-- **A whole file**: the import does not panic, asks for no buffer that is larger than the file and
stores only blocks with the data of their CIDs, just if the file does no harm. -/
theorem importFromCar_safe_iff (itemSize : ℕ) (store : S) (file : Bytes) :
    ((∀ msg, (Import.importFromCar itemSize store file).result ≠ .error (.panic msg)) ∧
      (∀ size, .buffer size ∈ (Import.importFromCar itemSize store file).requests →
        size ≤ file.length) ∧
      ∀ block, .stored block ∈ (Import.importFromCar itemSize store file).requests →
        Hashed block) ↔ FileFits itemSize store file := by
  have hloop : ∀ (rest : Bytes) (header : CarHeader) (n : ℕ),
      (Import.importLoop (rest.length + 1) store ⟨rest, header, 0, n⟩).Safe
        (CarEvent.Within file.length) Panics ↔
      Metered.Everywhere Stores (RecordFits file.length) (store, rest) :=
    fun rest header n => importLoop_safe_iff (Nat.lt_succ_self rest.length)
  have hsafe : (Import.importFromCar itemSize store file).Safe (CarEvent.Within file.length)
      Panics ↔ FileFits itemSize store file := by
    unfold Import.importFromCar FileFits
    rw [open_bind_safe_iff]
    simp only [hloop]
  rw [← hsafe]
  constructor
  · rintro ⟨hpanic, hbuffer, hstored⟩
    constructor
    · rintro _ hresult ⟨msg, rfl⟩
      exact hpanic msg hresult
    · rintro (size | block) hmem
      · exact hbuffer size hmem
      · exact hstored block hmem
  · rintro ⟨hresult, hwithin⟩
    exact ⟨fun msg hmsg => hresult _ hmsg ⟨msg, rfl⟩, fun size hmem => hwithin _ hmem,
      fun block hmem => hwithin _ hmem⟩

end Import

/-! ### Four files -/

section Sample

open scoped CidReference

/-- The binary form of the CID specification is read from the front. -/
theorem boundedCidCrate_reference : BoundedCidCrate where
  length_le := by
    intro data c h
    obtain ⟨⟨cid, rest⟩, hread, rfl⟩ := Except.map_eq_ok_iff.mp h
    exact le_trans (Nat.le_add_right _ _) (CidReference.length_toBytes_le_of_readBytes hread)

/-- A file without roots and with one record: the CID of the byte 0 or 1, and data. -/
def sampleFile (hash : HashCrate) (byte : UInt8) (data : Bytes) : Bytes :=
  [0x11, 0xa2, 0x67, 0x76, 0x65, 0x72, 0x73, 0x69, 0x6f, 0x6e, 0x01, 0x65, 0x72, 0x6f, 0x6f, 0x74,
    0x73, 0x80, 0x25] ++ CidReference.toBytes (Cid.ofData Codec.raw .sha256 [byte]) ++ data

theorem importFromCar_safe_sampleFile :
    let hash := CidReference.byteHash
    FileFits 96 MemoryBlockStore.new (sampleFile hash 0 [0]) := by
  let hash := CidReference.byteHash
  have := boundedCidCrate_reference
  intro _
  have hok :
      (Import.importFromCar 96 MemoryBlockStore.new (sampleFile hash 0 [0])).result.isOk := by
    decide +kernel
  have hrequests : (Import.importFromCar 96 MemoryBlockStore.new (sampleFile hash 0 [0])).requests =
      [.buffer 17, .buffer 0, .buffer 37, .stored ⟨Cid.ofData Codec.raw .sha256 [0], [0]⟩] := by
    decide +kernel
  have hlength : (sampleFile hash 0 [0]).length = 56 := by
    decide +kernel
  refine (importFromCar_safe_iff 96 _ _).mp ⟨fun msg hmsg => ?_, fun size hmem => ?_,
    fun block hmem => ?_⟩
  · rw [hmsg] at hok
    exact absurd hok Bool.false_ne_true
  · rw [hrequests] at hmem
    rw [hlength]
    simp only [List.mem_cons, CarEvent.buffer.injEq, reduceCtorEq, List.not_mem_nil, or_false]
      at hmem
    omega
  · rw [hrequests] at hmem
    simp only [List.mem_cons, CarEvent.stored.injEq, reduceCtorEq, List.not_mem_nil, or_false,
      false_or] at hmem
    subst hmem
    exact ⟨.sha256, rfl⟩

theorem skipCborValue_announced :
    skipCborValue 9 [0x5a, 0xff, 0xff, 0xff, 0xff] = .ok 4294967300 := by
  rw [skipCborValue]
  decide +kernel

/-- The value of a key that is not known ends far behind the header, where the next key is read. -/
theorem fromCbor_announced : ∃ msg,
    Import.fromCbor 96 [0xa2, 0x61, 0x78, 0x5a, 0xff, 0xff, 0xff, 0xff] =
      ⟨[], .error (.panic msg)⟩ := by
  have hfirst : Import.fromCbor 96 [0xa2, 0x61, 0x78, 0x5a, 0xff, 0xff, 0xff, 0xff] =
      Import.lift (skipCborValue 9 [0x5a, 0xff, 0xff, 0xff, 0xff]) >>= fun len =>
        Import.fromCborLoop 96 [0xa2, 0x61, 0x78, 0x5a, 0xff, 0xff, 0xff, 0xff] 1 (3 + len)
          ⟨1, []⟩ := by
    rfl
  rw [hfirst, skipCborValue_announced]
  exact ⟨_, rfl⟩

/-- A file whose header skips what is not there, so that the import panics; one of five bytes that
announces a header of four gigabytes; and one whose block has the CID of another one and is stored.
-/
theorem not_importFromCar_safe :
    let hash := CidReference.byteHash
    (∃ msg, (Import.importFromCar 96 MemoryBlockStore.new
      [0x08, 0xa2, 0x61, 0x78, 0x5a, 0xff, 0xff, 0xff, 0xff]).result = .error (.panic msg)) ∧
    .buffer (2 ^ 32 - 1) ∈ (Import.importFromCar 96 MemoryBlockStore.new
      [0xff, 0xff, 0xff, 0xff, 0x0f]).requests ∧
    ∃ block, .stored block ∈ (Import.importFromCar 96 MemoryBlockStore.new
      (sampleFile hash 1 [0])).requests ∧ ¬ Hashed block := by
  let hash := CidReference.byteHash
  refine ⟨?_, ?_, ⟨Cid.ofData Codec.raw .sha256 [1], [0]⟩, ?_, ?_⟩
  · obtain ⟨msg, hpanic⟩ := fromCbor_announced
    refine ⟨msg, ?_⟩
    have hopen : Import.open 96 [0x08, 0xa2, 0x61, 0x78, 0x5a, 0xff, 0xff, 0xff, 0xff] =
        Import.buffer 8 >>= fun _ =>
          Import.fromCbor 96 [0xa2, 0x61, 0x78, 0x5a, 0xff, 0xff, 0xff, 0xff] >>= fun header =>
            pure ⟨[], header, 0, 9⟩ := by
      rfl
    unfold Import.importFromCar
    rw [hopen, hpanic]
    rfl
  · have hrequests : (Import.importFromCar 96 MemoryBlockStore.new
        [0xff, 0xff, 0xff, 0xff, 0x0f]).requests = [.buffer (2 ^ 32 - 1)] := by
      decide +kernel
    rw [hrequests]
    exact List.mem_singleton_self _
  · have hrequests :
        (Import.importFromCar 96 MemoryBlockStore.new (sampleFile hash 1 [0])).requests =
        [.buffer 17, .buffer 0, .buffer 37, .stored ⟨Cid.ofData Codec.raw .sha256 [1], [0]⟩] := by
      decide +kernel
    rw [hrequests]
    simp
  · -- no algorithm gives this hash to the data
    rintro ⟨a, ha⟩
    cases a
    all_goals exact absurd ha (by decide +kernel)

end Sample

end Ipfrs.Storage
