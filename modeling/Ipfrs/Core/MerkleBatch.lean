import Mathlib.Data.List.AList
import Ipfrs.Lib.Fallible
import Ipfrs.Core.Fnv

/-!
# Merkle batch proofs

Inclusion proofs for several leaves at once (`ipfrs-core/src/merkle_batch.rs`).

The prover pads the leaf hashes with zeros to a power of two. `prove_batch` lists the nodes next to
those that lie above the leaves in question, level by level, and never lists the same hash twice for
a level. `verify_batch` goes through the same positions and takes one hash from the proof for each
of them, so it misses one wherever the prover has left one out.

A `BTreeSet` is the list of its elements in ascending order, a `HashMap` an association list. A
`usize` is a natural number: positions stay below the size of the tree or below an index of the
proof.
-/

namespace Ipfrs

inductive MerkleError where
  | emptyTree
  | leafIndexOutOfBounds (index treeSize : ℕ)
  | invalidProof (reason : String)
  | duplicateLeaf (index : ℕ)
  deriving DecidableEq, Repr

structure BatchProof where
  leafIndices : List ℕ
  siblingHashes : List (ℕ × UInt64)
  root : UInt64
  deriving DecidableEq, Repr

structure MerkleBatchProver where
  leaves : List UInt64
  deriving DecidableEq, Repr

/-! ### Helpers -/

/-- `BTreeSet::insert`. -/
def btreeInsert (x : ℕ) : List ℕ → List ℕ
  | [] => [x]
  | y :: ys => if x < y then x :: y :: ys else if x = y then y :: ys else y :: btreeInsert x ys

/-- Collecting into a `BTreeSet`. -/
def btreeCollect (xs : List ℕ) : List ℕ := xs.foldl (fun s x => btreeInsert x s) []

/-- The loop of `next_power_of_two`. -/
def doubleUntil (n : ℕ) : ℕ → ℕ → ℕ
  | 0, p => p
  | fuel + 1, p => if p < n then doubleUntil n fuel (p <<< 1) else p

def nextPowerOfTwo (n : ℕ) : ℕ := if n ≤ 1 then 1 else doubleUntil n n 1

/-- `usize::trailing_zeros`, of a positive number. -/
def trailingZeros (n : ℕ) : ℕ := ((List.range n).find? n.testBit).getD 0

/-- The position next to `pos`. -/
def siblingOf (pos : ℕ) : ℕ := if pos % 2 = 0 then pos + 1 else pos - 1

namespace MerkleBatchProver

def leafHash (data : Bytes) : UInt64 := fnv1a data

def combine (left right : UInt64) : UInt64 := fnv1a (toLeBytes left ++ toLeBytes right)

def new (data : List Bytes) : Except MerkleError MerkleBatchProver :=
  if data = [] then .error .emptyTree else .ok ⟨data.map leafHash⟩

variable (prover : MerkleBatchProver)

def treeSize : ℕ := nextPowerOfTwo prover.leaves.length

/-! ### The tree -/

/-- The leaf level, padded to `size` with zeros. -/
def paddedLeaves (leaves : List UInt64) (size : ℕ) : List UInt64 :=
  (List.range size).map fun i => leaves.getD i 0

/-- `level.chunks(2).map(..)`. A level has one node or an even number of them. -/
def combinePairs : List UInt64 → List UInt64
  | left :: right :: level => combine left right :: combinePairs level
  | _ => []

/-- The loop of `build_tree`. -/
def levelsFrom : ℕ → List UInt64 → List (List UInt64)
  | 0, level => [level]
  | fuel + 1, level =>
    if level.length > 1 then level :: levelsFrom fuel (combinePairs level) else [level]

def buildTree (leaves : List UInt64) (size : ℕ) : List (List UInt64) :=
  levelsFrom size (paddedLeaves leaves size)

/-- The loop of `root`. -/
def topFrom : ℕ → List UInt64 → List UInt64
  | 0, level => level
  | fuel + 1, level => if level.length > 1 then topFrom fuel (combinePairs level) else level

def root : UInt64 :=
  (topFrom prover.treeSize (paddedLeaves prover.leaves prover.treeSize)).getD 0 0

/-! ### Proving -/

/-- The body of the inner loop of `prove_batch`, on `next_covered` and `sibling_hashes`. -/
def proveStep (level : ℕ) (levelNodes : List UInt64) (covered : List ℕ)
    (st : List ℕ × List (ℕ × UInt64)) (pos : ℕ) : List ℕ × List (ℕ × UInt64) :=
  let nextCovered := btreeInsert (pos / 2) st.1
  if siblingOf pos ∈ covered then (nextCovered, st.2)
  else
    let entry := (level, levelNodes.getD (siblingOf pos) 0)
    -- the same hash is emitted once for each level
    if entry ∈ st.2 then (nextCovered, st.2) else (nextCovered, st.2 ++ [entry])

/-- The body of the outer loop of `prove_batch`, on `covered` and `sibling_hashes`. -/
def proveLevel (st : List ℕ × List (ℕ × UInt64)) (level : ℕ × List UInt64) :
    List ℕ × List (ℕ × UInt64) :=
  st.1.foldl (proveStep level.1 level.2 st.1) ([], st.2)

/-- The bounds check of `prove_batch`. -/
def checkBounds (n : ℕ) : List ℕ → Except MerkleError Unit
  | [] => .ok ()
  | idx :: sorted =>
    if idx ≥ n then .error (.leafIndexOutOfBounds idx n) else checkBounds n sorted

/-- The check for duplicates of `prove_batch`, on the pairs of neighbours. -/
def checkDuplicates : List ℕ → Except MerkleError Unit
  | idx :: idx' :: sorted =>
    if idx = idx' then .error (.duplicateLeaf idx) else checkDuplicates (idx' :: sorted)
  | _ => .ok ()

def proveBatch (indices : List ℕ) : Except MerkleError BatchProof := do
  let sorted := indices.insertionSort (· ≤ ·)
  checkBounds prover.leaves.length sorted
  checkDuplicates sorted
  let tree := buildTree prover.leaves prover.treeSize
  let height := tree.length - 1
  let levels := (List.range height).zip tree
  return {
    leafIndices := sorted
    siblingHashes := (levels.foldl proveLevel (btreeCollect sorted, [])).2
    root := prover.root }

/-! ### Verifying -/

/-- `HashMap<(usize, usize), u64>`: hashes by level and position. -/
abbrev Known := AList fun _ : ℕ × ℕ => UInt64

/-- `HashMap<usize, u64>`: the hashes of one level. -/
abbrev LevelKnown := AList fun _ : ℕ => UInt64

/-- The leaf hashes. A later leaf replaces an earlier one with the same index. -/
def leafKnown (leafIndices : List ℕ) (dataItems : List Bytes) : Known :=
  (leafIndices.zip dataItems).foldl
    (fun known item => known.insert (0, item.1) (leafHash item.2)) ∅

/-- The variables of the loop that takes the hashes out of the proof. -/
structure Pull where
  nextCovered : List ℕ
  siblings : List (ℕ × UInt64)
  known : Known

/-- The body of its inner loop. -/
def pullStep (level : ℕ) (covered : List ℕ) (st : Pull) (pos : ℕ) : Except MerkleError Pull :=
  let nextCovered := btreeInsert (pos / 2) st.nextCovered
  if siblingOf pos ∈ covered then .ok { st with nextCovered }
  else
    match st.siblings with
    | (_, sibHash) :: siblings =>
      .ok ⟨nextCovered, siblings, st.known.insert (level, siblingOf pos) sibHash⟩
    | [] => .error (.invalidProof "not enough sibling hashes in proof")

/-- The body of its outer loop: `next_covered` becomes `covered`. -/
def pullLevel (st : Pull) (level : ℕ) : Except MerkleError Pull :=
  st.nextCovered.foldlM (pullStep level st.nextCovered) { st with nextCovered := [] }

/-- The hashes of one level, added to those that were computed for it. -/
def mergeLevel (level : ℕ) (known : Known) (current : LevelKnown) : LevelKnown :=
  known.entries.foldl
    (fun current e => if e.1.1 = level then current.insert e.1.2 e.2 else current) current

/-- The body of the loop over the positions of a level, on `next_level` and
`processed_parents`. -/
def parentStep (current : LevelKnown) (st : LevelKnown × Finset ℕ) (pos : ℕ) :
    LevelKnown × Finset ℕ :=
  let parent := pos / 2
  if parent ∈ st.2 then st
  else
    match current.lookup (parent * 2), current.lookup (parent * 2 + 1) with
    | some left, some right => (st.1.insert parent (combine left right), insert parent st.2)
    | _, _ => st

/-- The parents of the known nodes of a level. The keys of a map are distinct, so `dedup` leaves the
sorted list of them as it is. -/
def nextLevel (current : LevelKnown) : LevelKnown :=
  ((current.keys.insertionSort (· ≤ ·)).foldl (parentStep current) (∅, ∅)).1

/-- The hashes of the topmost level. -/
def propagate (height : ℕ) (known : Known) : LevelKnown :=
  (List.range height).foldl (fun current level => nextLevel (mergeLevel level known current))
    (mergeLevel 0 known ∅)

/-- The end of `verify_batch`: the node at position 0 of the topmost level is the root. -/
def checkRoot (root : UInt64) : Option UInt64 → Except MerkleError Bool
  | some reconstructedRoot => .ok (reconstructedRoot == root)
  | none => .error (.invalidProof "could not reconstruct root from proof")

def verifyBatch (proof : BatchProof) (dataItems : List Bytes) : Except MerkleError Bool :=
  if dataItems.length ≠ proof.leafIndices.length then
    .error (.invalidProof ("data_items length " ++ toString dataItems.length
      ++ " does not match leaf_indices length " ++ toString proof.leafIndices.length))
  else do
    let height := trailingZeros prover.treeSize
    let st ← (List.range height).foldlM pullLevel
      ⟨btreeCollect proof.leafIndices, proof.siblingHashes,
        leafKnown proof.leafIndices dataItems⟩
    checkRoot proof.root ((propagate height st.known).lookup 0)

end MerkleBatchProver

end Ipfrs
