import Ipfrs.Core.Manifest
import Ipfrs.Storage.VcsGraph

/-!
# The identity of a commit

When two commits with the same contents have the same CID.

The metadata of a commit are a `HashMap`, and `oxicode` writes them last and in the order in which
the map iterates (`OrderedCommitCodec`). So the encodings differ as soon as the orders do, and the
CID is one of the commit only up to that order, also for the commit that `from_block` has read back.
-/

namespace Ipfrs.Vcs

/-- The order of the encoding: what stands before the metadata, with their number at its end, and
then the entries as the map iterates. An entry says where it ends. -/
class OrderedCommitCodec [CommitCodec] where
  encodeHead : (parents : List Cid) → (root : Cid) → (message : String) → (author : Author) →
    (timestamp : UInt64) → (count : ℕ) → Except String Bytes
  encodeEntry : (key value : String) → Bytes
  encode_eq : ∀ c : Commit, CommitCodec.encodeCommit c =
    (encodeHead c.parents c.root c.message c.author c.timestamp c.metadata.entries.length).map
      fun head => head ++ c.metadata.entries.flatMap fun entry => encodeEntry entry.1 entry.2
  encodeEntry_inj : ∀ {key key' value value' : String} {rest rest' : Bytes},
    encodeEntry key value ++ rest = encodeEntry key' value' ++ rest' →
      key = key' ∧ value = value' ∧ rest = rest'

namespace Commit

variable [CommitCodec] [OrderedCommitCodec] {c c' : Commit} {data data' : Bytes}

/-- The entries of a map, as they are written. -/
def entriesBytes (entries : List (Sigma fun _ : String => String)) : Bytes :=
  entries.flatMap fun entry => OrderedCommitCodec.encodeEntry entry.1 entry.2

theorem encodeEntry_ne_nil (key value : String) :
    OrderedCommitCodec.encodeEntry key value ≠ [] := by
  intro hnil
  -- an entry of no bytes would be the head of any other
  have hkey : ∀ other, key = other := by
    intro other
    have heq : OrderedCommitCodec.encodeEntry key value ++
        (OrderedCommitCodec.encodeEntry other value ++ []) =
        OrderedCommitCodec.encodeEntry other value ++ [] := by
      rw [hnil, List.nil_append]
    exact (OrderedCommitCodec.encodeEntry_inj heq).1
  exact absurd ((hkey "a").symm.trans (hkey "b")) (by decide)

theorem entriesBytes_injective : Function.Injective entriesBytes := by
  intro entries
  induction entries with
  | nil =>
    rintro (_ | ⟨⟨key, value⟩, entries'⟩) h
    · rfl
    · exact absurd (List.append_eq_nil_iff.mp h.symm).1 (encodeEntry_ne_nil key value)
  | cons entry entries ih =>
    obtain ⟨key, value⟩ := entry
    rintro (_ | ⟨⟨key', value'⟩, entries'⟩) h
    · exact absurd (List.append_eq_nil_iff.mp h).1 (encodeEntry_ne_nil key value)
    · obtain ⟨rfl, rfl, hrest⟩ := OrderedCommitCodec.encodeEntry_inj h
      rw [ih hrest]

omit [CommitCodec] [OrderedCommitCodec] in
theorem Same.perm (h : c.Same c') : c.metadata.entries.Perm c'.metadata.entries :=
  List.lookup_ext c.metadata.nodupKeys c'.metadata.nodupKeys fun key value => by
    have hkey := h.metadata key
    unfold AList.lookup at hkey
    rw [hkey]

/-- What two commits with the same contents are encoded to: the same error, or the same bytes up to
the metadata, and then the entries of each. -/
theorem Same.encode_cases (h : c.Same c') :
    (∃ e, CommitCodec.encodeCommit c = .error e ∧ CommitCodec.encodeCommit c' = .error e) ∨
      ∃ head, CommitCodec.encodeCommit c = .ok (head ++ entriesBytes c.metadata.entries) ∧
        CommitCodec.encodeCommit c' = .ok (head ++ entriesBytes c'.metadata.entries) := by
  have hhead := OrderedCommitCodec.encode_eq c
  rw [OrderedCommitCodec.encode_eq c', ← h.parents, ← h.root, ← h.message, ← h.author,
    ← h.timestamp, ← h.perm.length_eq]
  rw [hhead]
  cases OrderedCommitCodec.encodeHead c.parents c.root c.message c.author c.timestamp
    c.metadata.entries.length with
  | error e => exact Or.inl ⟨e, rfl, rfl⟩
  | ok head => exact Or.inr ⟨head, rfl, rfl⟩

theorem Same.length_entriesBytes (h : c.Same c') :
    (entriesBytes c.metadata.entries).length = (entriesBytes c'.metadata.entries).length :=
  (h.perm.flatMap_right _).length_eq

section Blocks

variable [HashCrate]

omit [OrderedCommitCodec] in
theorem finalize_map_snd (c : Commit) : c.finalize.map Prod.snd = c.toBlock.map Block.cid := by
  unfold finalize
  cases c.toBlock <;> rfl

omit [OrderedCommitCodec] in
theorem toBlock_of_encode (h : CommitCodec.encodeCommit c = .ok data) :
    c.toBlock = Block.new data := by
  rw [toBlock, h]

omit [OrderedCommitCodec] in
theorem toBlock_of_error {e : String} (h : CommitCodec.encodeCommit c = .error e) :
    c.toBlock = .error (.serialization ("Failed to serialize commit: " ++ e)) := by
  rw [toBlock, h]

omit [CommitCodec] [OrderedCommitCodec] in
/-- Blocks from data of one length have the same CID, or there is none for the same reason, just if
the data are the same or have no size for a block. -/
theorem blockNew_cid_eq_iff {S : Set Bytes} (hfree : HashCrate.CollisionFree .sha256 S)
    (hdata : data ∈ S) (hdata' : data' ∈ S) (hlen : data.length = data'.length) :
    (Block.new data).map Block.cid = (Block.new data').map Block.cid ↔
      data = data' ∨ ¬ (minBlockSize ≤ data.length ∧ data.length ≤ maxBlockSize) := by
  by_cases hsize : minBlockSize ≤ data.length ∧ data.length ≤ maxBlockSize
  · have hsize' := hsize
    rw [hlen] at hsize'
    rw [Block.new_of_size hsize.1 hsize.2, Block.new_of_size hsize'.1 hsize'.2]
    constructor
    · intro heq
      exact Or.inl (hfree.eq_of_ofData hdata hdata' (Except.ok.inj heq)).2
    · rintro (rfl | hnot)
      · rfl
      · exact absurd hsize hnot
  · refine iff_of_true ?_ (Or.inr hsize)
    -- the error has the size only
    obtain ⟨e, he⟩ : ∃ e, Block.validateSize data.length = .error e := by
      cases hvalid : Block.validateSize data.length with
      | error e => exact ⟨e, rfl⟩
      | ok _ => exact absurd (Block.validateSize_eq_ok.mp hvalid) hsize
    have he' := he
    rw [hlen] at he'
    unfold Block.new
    rw [he, he']
    rfl

/-- Two commits with the same contents have the same CID just if their metadata iterate in the same
order, or the encoding is too long for a block. -/
theorem Same.finalize_eq_iff (h : c.Same c')
    (hfree : HashCrate.CollisionFree .sha256 {data | CommitCodec.encodeCommit c = .ok data ∨
      CommitCodec.encodeCommit c' = .ok data}) :
    c.finalize.map Prod.snd = c'.finalize.map Prod.snd ↔
      c.metadata.entries = c'.metadata.entries ∨
        ∀ data, CommitCodec.encodeCommit c = .ok data → maxBlockSize < data.length := by
  rw [finalize_map_snd, finalize_map_snd]
  obtain ⟨e, he, he'⟩ | ⟨head, hdata, hdata'⟩ := h.encode_cases
  · -- neither can be encoded, and for the same reason
    rw [toBlock_of_error he, toBlock_of_error he']
    exact iff_of_true rfl (Or.inr fun data hdata => absurd (he.symm.trans hdata) (by simp))
  have hlen : (head ++ entriesBytes c.metadata.entries).length =
      (head ++ entriesBytes c'.metadata.entries).length := by
    rw [List.length_append, List.length_append, h.length_entriesBytes]
  rw [toBlock_of_encode hdata, toBlock_of_encode hdata',
    blockNew_cid_eq_iff hfree (Or.inl hdata) (Or.inr hdata') hlen, List.append_cancel_left_eq,
    entriesBytes_injective.eq_iff]
  constructor
  · rintro (heq | hsize)
    · exact Or.inl heq
    rcases not_and_or.mp hsize with hmin | hmax
    · -- no bytes at all, so no entries
      have hnil : head ++ entriesBytes c.metadata.entries = [] :=
        List.length_eq_zero_iff.mp (Nat.lt_one_iff.mp (Nat.not_le.mp hmin))
      have hnil' : head ++ entriesBytes c'.metadata.entries = [] := by
        rw [← List.length_eq_zero_iff, ← hlen, hnil, List.length_nil]
      left
      apply entriesBytes_injective
      rw [(List.append_eq_nil_iff.mp hnil).2, (List.append_eq_nil_iff.mp hnil').2]
    · right
      intro data hdata₁
      obtain rfl := Except.ok.inj (hdata.symm.trans hdata₁)
      exact Nat.not_le.mp hmax
  · rintro (heq | hlong)
    · exact Or.inl heq
    · exact Or.inr fun hsize => absurd hsize.2 (Nat.not_le.mpr (hlong _ hdata))

/-- **When the CID is one of the contents.** Two commits with the same contents have the same CID
just if their metadata iterate in the same order, or if the encoding is too long for a block and
neither has one; and the commit that `from_block` reads back has the CID of its block just if its
metadata iterate as those of the commit in the block. -/
theorem finalize_same_iff (hsame : c.Same c')
    (hfree : HashCrate.CollisionFree .sha256 {data | CommitCodec.encodeCommit c = .ok data ∨
      CommitCodec.encodeCommit c' = .ok data}) :
    (c.finalize.map Prod.snd = c'.finalize.map Prod.snd ↔
      c.metadata.entries = c'.metadata.entries ∨
        ∀ data, CommitCodec.encodeCommit c = .ok data → maxBlockSize < data.length) ∧
    ∀ block, c.toBlock = .ok block → fromBlock block = .ok c' →
      (c'.finalize.map Prod.snd = .ok block.cid ↔ c.metadata.entries = c'.metadata.entries) := by
  refine ⟨hsame.finalize_eq_iff hfree, fun block hblock _ => ?_⟩
  -- there is a block, so the encoding is not too long
  have hcid : c.finalize.map Prod.snd = .ok block.cid := by
    rw [finalize_map_snd, hblock]
    rfl
  rw [← hcid, eq_comm, hsame.finalize_eq_iff hfree]
  refine or_iff_left fun hlong => ?_
  obtain ⟨e, he, -⟩ | ⟨head, hdata, -⟩ := hsame.encode_cases
  · exact absurd ((toBlock_of_error he).symm.trans hblock) (by simp)
  · rw [toBlock_of_encode hdata] at hblock
    exact absurd (Block.new_eq_ok.mp hblock).1.2 (Nat.not_le.mpr (hlong _ hdata))

end Blocks

end Commit

/-! ### Two orders of the same metadata -/

namespace Sample

/-- A length: one byte below 251. -/
def lengthBytes (n : ℕ) : Bytes := if n < 251 then [n.toUInt8] else 251 :: Leb128.encode n

/-- A string, after its length. -/
def stringBytes (s : String) : Bytes := lengthBytes (utf8 s).length ++ utf8 s

theorem lengthBytes_inj {n n' : ℕ} {rest rest' : Bytes}
    (h : lengthBytes n ++ rest = lengthBytes n' ++ rest') : n = n' ∧ rest = rest' := by
  have hbyte : ∀ m < 251, (m.toUInt8).toNat = m := fun m hm =>
    UInt8.toNat_ofNat_of_lt' (show m < 256 by omega)
  unfold lengthBytes at h
  split at h <;> split at h
  · next hn hn' =>
    obtain ⟨hhead, htail⟩ := List.cons.inj h
    have hnat := congrArg UInt8.toNat hhead
    rw [hbyte n hn, hbyte n' hn'] at hnat
    exact ⟨hnat, htail⟩
  · next hn _ =>
    have hnat := congrArg UInt8.toNat (List.cons.inj h).1
    rw [hbyte n hn] at hnat
    exact absurd hn (by rw [hnat]; decide)
  · next _ hn' =>
    have hnat := congrArg UInt8.toNat (List.cons.inj h).1
    rw [hbyte n' hn'] at hnat
    exact absurd hn' (by rw [← hnat]; decide)
  · have hbytes : Leb128.encode n ++ rest = Leb128.encode n' ++ rest' := (List.cons.inj h).2
    have hdecode := congrArg Leb128.decode hbytes
    rw [Leb128.decode_encode_append, Leb128.decode_encode_append] at hdecode
    exact Prod.mk.inj (Option.some.inj hdecode)

theorem stringBytes_inj {s s' : String} {rest rest' : Bytes}
    (h : stringBytes s ++ rest = stringBytes s' ++ rest') : s = s' ∧ rest = rest' := by
  unfold stringBytes at h
  rw [List.append_assoc, List.append_assoc] at h
  obtain ⟨hlen, hbytes⟩ := lengthBytes_inj h
  obtain ⟨htext, hrest⟩ := List.append_inj hbytes hlen
  exact ⟨Manifest.utf8_injective htext, hrest⟩

/-- What stands before the entries. -/
def headBytes (parents : List Cid) (root : Cid) (message : String) (author : Author)
    (timestamp : UInt64) (count : ℕ) : Bytes :=
  parents.length.toUInt8 :: parents.flatMap cidBytes ++ cidBytes root ++ text message
    ++ text author.name ++ text author.email ++ [timestamp.toUInt8, count.toUInt8]

def orderedBytes (c : Commit) : Bytes :=
  headBytes c.parents c.root c.message c.author c.timestamp c.metadata.entries.length ++
    c.metadata.entries.flatMap fun entry => stringBytes entry.1 ++ stringBytes entry.2

/-- A commit with the metadata `a = 1` and `b = 2`, in this order. -/
def taggedCommit : Commit :=
  .new [] rootCid "m" author (AList.insert "a" "1" (AList.insert "b" "2" ∅)) 0

/-- The same commit in a map that iterates the other way. -/
def turnedCommit : Commit :=
  .new [] rootCid "m" author (AList.insert "b" "2" (AList.insert "a" "1" ∅)) 0

/-- The encoding of these commits; the map that is filled on reading iterates the other way. -/
@[reducible]
def orderedCodec : CommitCodec where
  encodeCommit c := .ok (orderedBytes c)
  decodeCommit data :=
    if data = orderedBytes taggedCommit then .ok turnedCommit
    else if data = orderedBytes turnedCommit then .ok taggedCommit
    else .error "not a sample"
  encodeRef r := .ok (refBytes r)

@[reducible]
def orderedEntries : let _ := orderedCodec; OrderedCommitCodec :=
  let _ := orderedCodec
  { encodeHead := fun parents root message author timestamp count =>
      .ok (headBytes parents root message author timestamp count)
    encodeEntry := fun key value => stringBytes key ++ stringBytes value
    encode_eq := fun _ => rfl
    encodeEntry_inj := by
      intro key key' value value' rest rest' h
      rw [List.append_assoc, List.append_assoc] at h
      obtain ⟨hkey, h⟩ := stringBytes_inj h
      obtain ⟨hvalue, hrest⟩ := stringBytes_inj h
      exact ⟨hkey, hvalue, hrest⟩ }

def taggedDigest : Bytes :=
  BigEndian.encode 32 0x1f8692e9b1971db728715598cd173da36434a2659724395b19c384bb74265d91

def turnedDigest : Bytes :=
  BigEndian.encode 32 0x35a002b2126e1a09a7685871dc4935d2368dea042432535b1943108933ec3687

/-- The SHA2-256 digests of the two encodings, and of the root block. -/
def orderedDigest (data : Bytes) : Bytes :=
  if data = orderedBytes taggedCommit then taggedDigest
  else if data = orderedBytes turnedCommit then turnedDigest
  else rootDigest

theorem length_orderedDigest (data : Bytes) : (orderedDigest data).length = 32 := by
  unfold orderedDigest
  split
  · rfl
  · split <;> rfl

/-- The hash crate on these inputs. -/
@[reducible]
def orderedHash : HashCrate := CidReference.hashOf orderedDigest length_orderedDigest

theorem tagged_same_turned : taggedCommit.Same turnedCommit where
  parents := rfl
  root := rfl
  message := rfl
  author := rfl
  timestamp := rfl
  metadata _ := AList.perm_lookup (List.Perm.swap _ _ _)

def taggedCid : Cid := rawOf taggedDigest (by decide)
def turnedCid : Cid := rawOf turnedDigest (by decide)

section

attribute [local instance] orderedCodec orderedHash

theorem toBlock_tagged :
    taggedCommit.toBlock = .ok ⟨taggedCid, orderedBytes taggedCommit⟩ := by
  have hencode : CommitCodec.encodeCommit taggedCommit = .ok (orderedBytes taggedCommit) := rfl
  rw [Commit.toBlock_of_encode hencode,
    Block.new_of_size (by decide +kernel) (by decide +kernel)]
  decide +kernel

theorem toBlock_turned (cid : Option Cid) :
    Commit.toBlock { turnedCommit with cid := cid } =
      .ok ⟨turnedCid, orderedBytes turnedCommit⟩ := by
  have hencode : CommitCodec.encodeCommit { turnedCommit with cid := cid } =
      .ok (orderedBytes turnedCommit) := rfl
  rw [Commit.toBlock_of_encode hencode,
    Block.new_of_size (by decide +kernel) (by decide +kernel)]
  decide +kernel

/-- The digests of the two encodings differ. -/
theorem collisionFree_orderedHash : HashCrate.CollisionFree .sha256
    {data | CommitCodec.encodeCommit taggedCommit = .ok data ∨
      CommitCodec.encodeCommit turnedCommit = .ok data} := by
  have htwo : ∀ d ∈ [orderedBytes taggedCommit, orderedBytes turnedCommit],
      ∀ d' ∈ [orderedBytes taggedCommit, orderedBytes turnedCommit],
        orderedDigest d = orderedDigest d' → d = d' := by
    decide +kernel
  have hmem : ∀ d, (CommitCodec.encodeCommit taggedCommit = .ok d ∨
      CommitCodec.encodeCommit turnedCommit = .ok d) →
      d ∈ [orderedBytes taggedCommit, orderedBytes turnedCommit] := by
    rintro d (hd | hd)
    · exact List.mem_cons.mpr (Or.inl (Except.ok.inj hd).symm)
    · exact List.mem_cons_of_mem _ (List.mem_singleton.mpr (Except.ok.inj hd).symm)
  intro d hd d' hd' heq
  exact htwo d (hmem d hd) d' (hmem d' hd') (congrArg Subtype.val heq)

end

end Sample

/-- The same commit, with metadata that iterate the other way, has another CID; and it is the commit
that is read back. -/
theorem Commit.finalize_same_turned :
    let _ := Sample.orderedCodec
    let _ := Sample.orderedHash
    Sample.taggedCommit.finalize.map Prod.snd ≠ Sample.turnedCommit.finalize.map Prod.snd ∧
      ∃ block c', Sample.taggedCommit.toBlock = .ok block ∧ fromBlock block = .ok c' ∧
        c'.finalize.map Prod.snd ≠ .ok block.cid := by
  let := Sample.orderedCodec
  let := Sample.orderedEntries
  let := Sample.orderedHash
  have horder : Sample.taggedCommit.metadata.entries ≠ Sample.turnedCommit.metadata.entries := by
    decide
  have hshort : (Sample.orderedBytes Sample.taggedCommit).length ≤ maxBlockSize := by
    decide +kernel
  refine ⟨fun heq => ?_, _, { Sample.turnedCommit with cid := some Sample.taggedCid },
    Sample.toBlock_tagged, rfl, fun heq => ?_⟩
  · obtain hentries | hlong := (finalize_same_iff Sample.tagged_same_turned
        Sample.collisionFree_orderedHash).1.mp heq
    · exact horder hentries
    · exact absurd hshort (Nat.not_le.mpr (hlong _ rfl))
  · -- the commit that is read back, and its metadata iterate as those of the other one
    have hread : Sample.taggedCommit.Same
        { Sample.turnedCommit with cid := some Sample.taggedCid } :=
      ⟨rfl, rfl, rfl, rfl, rfl, Sample.tagged_same_turned.metadata⟩
    exact horder (((finalize_same_iff hread Sample.collisionFree_orderedHash).2 _
      Sample.toBlock_tagged rfl).mp heq)

/-- One commit can have two CIDs, and so can one that has been read back. -/
theorem Commit.not_forall_finalize_same :
    let _ := Sample.orderedCodec
    let _ := Sample.orderedHash
    (¬ ∀ c c' : Commit, c.Same c' → c.finalize.map Prod.snd = c'.finalize.map Prod.snd) ∧
      ¬ ∀ (c c' : Commit) (block : Block), c.toBlock = .ok block → fromBlock block = .ok c' →
        c'.finalize.map Prod.snd = .ok block.cid := by
  let := Sample.orderedCodec
  let := Sample.orderedHash
  have hne : Sample.taggedCid ≠ Sample.turnedCid := by
    decide +kernel
  constructor
  · intro hall
    have heq := hall _ _ Sample.tagged_same_turned
    have hturned : Sample.turnedCommit.toBlock = .ok ⟨_, _⟩ := Sample.toBlock_turned none
    rw [finalize_map_snd, finalize_map_snd, Sample.toBlock_tagged, hturned] at heq
    exact hne (Except.ok.inj heq)
  · intro hall
    have heq := hall _ { Sample.turnedCommit with cid := some Sample.taggedCid } _
      Sample.toBlock_tagged rfl
    rw [finalize_map_snd, Sample.toBlock_turned] at heq
    exact hne (Except.ok.inj heq).symm

end Ipfrs.Vcs
