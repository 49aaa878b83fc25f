import Ipfrs.Core.Cid

/-!
# Blocks

Content-addressed data blocks (`ipfrs-core/src/block.rs`).

`Block::new` and `BlockBuilder::build` check the size and compute the CID; `Block::from_parts` does
neither, so the type itself does not say that the CID is the hash of the data.
-/

namespace Ipfrs

/-- `MAX_BLOCK_SIZE`: 2 MiB. -/
def maxBlockSize : ℕ := 2 * 1024 * 1024

/-- `MIN_BLOCK_SIZE`. -/
def minBlockSize : ℕ := 1

/-- `Block`. The structure itself is `Block::from_parts`. -/
structure Block where
  cid : Cid
  data : Bytes
  deriving DecidableEq

def Block.validateSize (size : ℕ) : Except Error Unit :=
  if size < minBlockSize then
    .error (.invalidData ("Block size " ++ toString size ++ " is below minimum "
      ++ toString minBlockSize))
  else if size > maxBlockSize then
    .error (.invalidData ("Block size " ++ toString size ++ " exceeds maximum "
      ++ toString maxBlockSize ++ " (2 MiB)"))
  else .ok ()

structure BlockBuilder where
  cidBuilder : CidBuilder := .new
  deriving DecidableEq, Repr

section Build

variable [HashCrate]

def BlockBuilder.build (b : BlockBuilder) (data : Bytes) : Except Error Block := do
  Block.validateSize data.length
  let cid ← b.cidBuilder.build data
  return ⟨cid, data⟩

def Block.new (data : Bytes) : Except Error Block := do
  Block.validateSize data.length
  let cid ← CidBuilder.new.build data
  return ⟨cid, data⟩

def Block.verify (b : Block) : Except Error Bool := do
  let computedCid ← CidBuilder.new.build b.data
  return computedCid == b.cid

end Build

theorem Block.validateSize_eq_ok {size : ℕ} :
    Block.validateSize size = .ok () ↔ minBlockSize ≤ size ∧ size ≤ maxBlockSize := by
  unfold Block.validateSize
  split
  · next h => simp [Nat.not_le.mpr h]
  · next h =>
    split
    · next h' => simp [Nat.not_le.mpr h']
    · next h' => simp [Nat.le_of_not_lt h, Nat.le_of_not_lt h']

section Spec

variable [HashCrate]

/-- The builder succeeds on data of a valid size, with the CID its CID builder gives. -/
theorem BlockBuilder.build_eq_ok {b : BlockBuilder} {data : Bytes} {blk : Block} :
    b.build data = .ok blk ↔
      (minBlockSize ≤ data.length ∧ data.length ≤ maxBlockSize) ∧
        b.cidBuilder.build data = .ok blk.cid ∧ blk.data = data := by
  rw [← Block.validateSize_eq_ok]
  obtain ⟨cid, d⟩ := blk
  cases hv : Block.validateSize data.length with
  | error e => simp [BlockBuilder.build, hv, bind, Except.bind]
  | ok u =>
    cases hc : b.cidBuilder.build data with
    | error e => simp [BlockBuilder.build, hv, hc, bind, Except.bind]
    | ok c =>
      simp only [BlockBuilder.build, hv, hc, bind, Except.bind, pure, Except.pure,
        Except.ok.injEq, Block.mk.injEq, true_and]
      exact and_congr_right fun _ => eq_comm

theorem Block.new_eq_build (data : Bytes) : Block.new data = BlockBuilder.build {} data := rfl

/-- **What `Block::new` makes**: a raw SHA2-256 block, from data of a valid size. -/
theorem Block.new_eq_ok {data : Bytes} {b : Block} :
    Block.new data = .ok b ↔
      (minBlockSize ≤ data.length ∧ data.length ≤ maxBlockSize) ∧
        b = ⟨Cid.ofData Codec.raw .sha256 data, data⟩ := by
  obtain ⟨cid, d⟩ := b
  rw [Block.new_eq_build, BlockBuilder.build_eq_ok]
  simp only [CidBuilder.build_new, Except.ok.injEq, Block.mk.injEq]
  exact and_congr_right fun _ => and_congr_left fun _ => eq_comm

theorem Block.new_of_size {data : Bytes} (hmin : minBlockSize ≤ data.length)
    (hmax : data.length ≤ maxBlockSize) :
    Block.new data = .ok ⟨Cid.ofData Codec.raw .sha256 data, data⟩ :=
  Block.new_eq_ok.mpr ⟨⟨hmin, hmax⟩, rfl⟩

end Spec

/-! ### Content addressing -/

/-- The data are among `D`, and the hash in the CID is theirs. -/
structure Addressed [HashCrate] (D : Set Bytes) (c : Cid) (data : Bytes) : Prop where
  mem : data ∈ D
  hashed : ∃ a : HashAlgorithm, c.hash = a.multihash data

section Addressed

variable [HashCrate] {D : Set Bytes} {c : Cid} {d d' : Bytes}

/-- **A CID determines the data**, where no two of them collide. -/
theorem Addressed.unique (hfree : ∀ a, HashCrate.CollisionFree a D) (h : Addressed D c d)
    (h' : Addressed D c d') : d = d' := by
  obtain ⟨hmem, a, ha⟩ := h
  obtain ⟨hmem', a', ha'⟩ := h'
  have heq : a.multihash d = a'.multihash d' := ha.symm.trans ha'
  obtain rfl : a = a' := HashAlgorithm.code_injective (congrArg Multihash.code heq)
  exact hfree a hmem hmem' (Subtype.ext (congrArg Multihash.digest heq))

theorem addressed_ofData (codec : UInt64) (a : HashAlgorithm) (h : d ∈ D) :
    Addressed D (Cid.ofData codec a d) d :=
  ⟨h, a, rfl⟩

end Addressed

end Ipfrs
