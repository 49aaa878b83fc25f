import Mathlib.Data.Finset.Union
import Ipfrs.Core.DagCborRoundTrip
import Ipfrs.Storage.BlockStore
import Ipfrs.Node.Pin

/-!
# The node: storing and fetching DAG nodes

The state of a node, with the operations on single blocks and DAG nodes
(`ipfrs/src/node/dag_ops.rs`, `ipfrs/src/node/block_ops.rs`). A node here has a block store and a
pin manager. It has no network, so `get` does not look for providers and nothing is announced;
metrics and logs are left out.

`Node::dag_put` stores the DAG-CBOR form of a value as a raw block, and its CID is meant to stand
for the value. It does so as far as the encoder keeps values apart: `encode_cbor_integer` keeps the
low 64 bits of an integer only, so two values that differ in the bits above get one CID
(`dagPut_separates_iff`).
-/

namespace Ipfrs

/-! ### The link graph of a store -/

section Links

variable {S : Type} [StoreView S] [CidCrate]

/-- The block stored under `c` links to `d`. -/
def Link (s : S) (c d : Cid) : Prop :=
  ∃ data ipld, view s c = some data ∧ Ipld.fromDagCbor data = .ok ipld ∧ d ∈ ipld.links

/-- The links of the block stored under a CID, in order. A block that is missing or is not DAG-CBOR
has none. -/
def storedLinks (s : S) (c : Cid) : List Cid :=
  match view s c with
  | some data =>
    match Ipld.fromDagCbor data with
    | .ok ipld => ipld.links
    | .error _ => []
  | none => []

theorem mem_storedLinks_iff {s : S} {c d : Cid} : d ∈ storedLinks s c ↔ Link s c d := by
  unfold storedLinks Link
  cases hv : view s c with
  | none => simp
  | some data => cases hx : Ipld.fromDagCbor data <;> simp [hx]

theorem exists_linked [BlockStore S] [LawfulBlockStore S] (s : S) :
    ∃ V : Finset Cid, ∀ d, d ∈ V ↔ ∃ c, Link s c d := by
  refine ⟨(LawfulBlockStore.finite s).toFinset.biUnion fun c => (storedLinks s c).toFinset,
    fun d => ?_⟩
  simp only [Finset.mem_biUnion, Set.Finite.mem_toFinset, Set.mem_ofPred_eq, List.mem_toFinset,
    mem_storedLinks_iff]
  refine exists_congr fun c => and_iff_right_of_imp fun h => ?_
  obtain ⟨data, ipld, hv, -, -⟩ := h
  exact Option.isSome_iff_exists.mpr ⟨data, hv⟩

end Links

/-- `Node`. The storage is there once the node has been started. -/
structure Node (S : Type) where
  storage : Option S
  pinManager : PinManager := .new

namespace Node

section Model

variable {S : Type}

variable (n : Node S)

/-- `Node::storage`. -/
def getStorage : Except Error S :=
  match n.storage with
  | some s => .ok s
  | none => .error (.initialization "Node not started - call start() first")

variable [BlockStore S]

/-- `Node::get`, without a network. -/
def get (cid : Cid) : Except Error (Option Bytes) := do
  let s ← n.getStorage
  let block ← BlockStore.get s cid
  return block.map Block.data

variable [HashCrate]

/-- `Node::add_file` on the contents of the file. -/
def addFile (data : Bytes) : Except Error (Node S × Cid) := do
  let s ← n.getStorage
  let block ← Block.new data
  let s' ← BlockStore.put s block
  return ({ n with storage := some s' }, block.cid)

variable [CidCrate]

def dagPut (data : Ipld) : Except Error (Node S × Cid) := do
  let s ← n.getStorage
  let bytes ← data.toDagCbor
  let block ← Block.new bytes
  let s' ← BlockStore.put s block
  return ({ n with storage := some s' }, block.cid)

omit [HashCrate] in
def dagGet (cid : Cid) : Except Error (Option Ipld) := do
  let s ← n.getStorage
  match ← BlockStore.get s cid with
  | some block =>
    let ipld ← Ipld.fromDagCbor block.data
    return some ipld
  | none => return none

end Model

/-! ### What the operations do -/

section Spec

variable {S : Type} [BlockStore S] [HashCrate]

theorem addFile_eq_ok {n n' : Node S} {data : Bytes} {c : Cid}
    (h : n.addFile data = .ok (n', c)) :
    ∃ s s', n.storage = some s ∧ (minBlockSize ≤ data.length ∧ data.length ≤ maxBlockSize) ∧
      BlockStore.put s ⟨c, data⟩ = .ok s' ∧ c = Cid.ofData Codec.raw .sha256 data ∧
        n' = { n with storage := some s' } := by
  obtain ⟨s, hs, h⟩ := Except.bind_eq_ok_iff.mp h
  obtain ⟨block, hb, h⟩ := Except.bind_eq_ok_iff.mp h
  obtain ⟨hsize, rfl⟩ := Block.new_eq_ok.mp hb
  obtain ⟨s', hput, h⟩ := Except.bind_eq_ok_iff.mp h
  obtain ⟨rfl, rfl⟩ := Prod.mk.inj (Except.ok.inj h)
  unfold getStorage at hs
  split at hs
  · next s₀ hs₀ =>
    obtain rfl := Except.ok.inj hs
    exact ⟨s₀, s', hs₀, hsize, hput, rfl, rfl⟩
  · exact absurd hs (by simp)

/-- A DAG node is stored the way a file is, with its DAG-CBOR form as contents. -/
theorem dagPut_eq_addFile [CidCrate] (n : Node S) (x : Ipld) :
    n.dagPut x = n.addFile (encodeDagCbor x) := rfl

/-- **Content addresses separate values** exactly as far as 64 bits of every integer do. Two valid
values have different encodings if and only if they still differ after every integer has been
narrowed, and the same holds of the CIDs that `dag_put` gives them, provided that the two encodings
do not collide. -/
theorem dagPut_separates_iff [CidCrate] [LawfulCidCrate] {x y : Ipld} (hx : x.Valid)
    (hy : y.Valid) :
    (x.toDagCbor ≠ y.toDagCbor ↔ x.narrow ≠ y.narrow) ∧
      ∀ {n n₁ n' n₁' : Node S} {cx cy : Cid}, n.dagPut x = .ok (n₁, cx) →
        n'.dagPut y = .ok (n₁', cy) →
          HashCrate.CollisionFree .sha256 {encodeDagCbor x, encodeDagCbor y} →
            (cx ≠ cy ↔ x.narrow ≠ y.narrow) := by
  have hbytes := encodeDagCbor_eq_iff hx hy
  refine ⟨?_, ?_⟩
  · -- the encoder never fails
    rw [Ipld.toDagCbor, Ipld.toDagCbor, Ne, Except.ok.injEq, hbytes]
  · -- the CIDs are those of the encodings, which do not collide
    intro n n₁ n' n₁' cx cy hpx hpy hfree
    rw [dagPut_eq_addFile] at hpx hpy
    obtain ⟨-, -, -, -, -, rfl, -⟩ := addFile_eq_ok hpx
    obtain ⟨-, -, -, -, -, rfl, -⟩ := addFile_eq_ok hpy
    rw [not_iff_not, ← hbytes]
    refine ⟨fun heq => ?_, fun heq => by rw [heq]⟩
    exact (hfree.eq_of_ofData (Set.mem_insert _ _)
      (Set.mem_insert_of_mem _ (Set.mem_singleton _)) heq).2

end Spec

section Sample

open scoped CidReference

/-- A started node with an empty store. -/
def emptyNode : Node MemoryBlockStore := { storage := some .new }

theorem dagPut_separates_one :
    letI := CidReference.byteHash
    Ipld.toDagCbor (.integer 1) ≠ Ipld.toDagCbor (.integer (2 ^ 64 + 2)) ∧
      ∃ n₁ n₂ cx cy, emptyNode.dagPut (.integer 1) = .ok (n₁, cx) ∧
        emptyNode.dagPut (.integer (2 ^ 64 + 2)) = .ok (n₂, cy) ∧ cx ≠ cy := by
  let := CidReference.byteHash
  have h := @dagPut_separates_iff MemoryBlockStore _ _ _ _ (.integer 1) (.integer (2 ^ 64 + 2))
    (by decide +kernel) (by decide +kernel)
  have hnarrow : (Ipld.integer 1).narrow ≠ (Ipld.integer (2 ^ 64 + 2)).narrow := by decide +kernel
  obtain ⟨n₁, cx, hx⟩ : ∃ n₁ cx, emptyNode.dagPut (.integer 1) = .ok (n₁, cx) := ⟨_, _, rfl⟩
  obtain ⟨n₂, cy, hy⟩ : ∃ n₂ cy, emptyNode.dagPut (.integer (2 ^ 64 + 2)) = .ok (n₂, cy) :=
    ⟨_, _, rfl⟩
  refine ⟨h.1.mpr hnarrow, n₁, n₂, cx, cy, hx, hy, (h.2 hx hy ?_).mpr hnarrow⟩
  rintro d hd d' hd' heq
  have hne : CidReference.byteDigest [1] ≠ CidReference.byteDigest [2] := by decide +kernel
  have henc : encodeDagCbor (.integer 1) = [1] ∧ encodeDagCbor (.integer (2 ^ 64 + 2)) = [2] := by
    decide +kernel
  rw [henc.1, henc.2] at hd hd'
  have heq' : CidReference.byteDigest d = CidReference.byteDigest d' := congrArg Subtype.val heq
  rcases hd with rfl | rfl <;> rcases hd' with rfl | rfl
  · rfl
  · exact absurd heq' hne
  · exact absurd heq'.symm hne
  · rfl

theorem toDagCbor_not_injective :
    ¬ ∀ x y : Ipld, x.Valid → y.Valid → x ≠ y →
      ∀ bx bz, x.toDagCbor = .ok bx → y.toDagCbor = .ok bz → bx ≠ bz := by
  intro h
  have hne := h (.integer 0) (.integer (2 ^ 64)) (by decide +kernel) (by decide +kernel)
    (by decide +kernel) _ _ rfl rfl
  exact hne (by decide +kernel)

end Sample

end Node

end Ipfrs
