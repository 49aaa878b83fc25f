import Ipfrs.Lib.BreadthFirst
import Ipfrs.Node.DagOps

/-!
# Traversing a DAG

`Node::dag_traverse` (`ipfrs/src/node/dag_ops.rs`) walks breadth-first through the blocks that a
root links to. It fetches every block it returns with `dag_get`, so a block that is not DAG-CBOR,
such as the contents of a file, ends the whole call: a traversal succeeds if and only if every
block within the depth limit can be read as a DAG node, and then it returns the CIDs that it should
(`dagTraverse_iff`).
-/

namespace Ipfrs

namespace Node

section Model

variable {S : Type} [BlockStore S] [CidCrate]

/-- The links to follow from a block. A block that is missing has none. -/
def expand (n : Node S) (cid : Cid) : Except Error (List Cid) := do
  match ← n.dagGet cid with
  | some ipld => return ipld.links
  | none => return []

/-- `Node::dag_traverse`. `none` says that the loop went round more than `fuel` times. -/
def dagTraverse (n : Node S) (root : Cid) (maxDepth : Option ℕ) (fuel : ℕ) :
    Option (Except Error (List Cid)) :=
  WhileLoop.run (BreadthFirst.step n.expand maxDepth) fuel (BreadthFirst.start root)

end Model

section Spec

variable {S : Type} [BlockStore S] [StoreView S] [LawfulBlockStore S] [CidCrate]

/-- The store answers for `c`, with a DAG-CBOR block or with none. -/
def ReadsAsDag (s : S) (c : Cid) : Prop :=
  (∃ r, BlockStore.get s c = .ok r) ∧
    ∀ data, view s c = some data → ∃ ipld, Ipld.fromDagCbor data = .ok ipld

variable {n : Node S} {s : S} {c : Cid}

/-- A block that can be read as a DAG node has links, and they are those of the store. -/
theorem expand_eq_ok_iff (hs : n.storage = some s) {links : List Cid} :
    n.expand c = .ok links ↔ ReadsAsDag s c ∧ links = storedLinks s c := by
  have hstorage : n.getStorage = .ok s := by rw [getStorage, hs]
  unfold expand dagGet ReadsAsDag storedLinks
  rw [hstorage, Except.ok_bind]
  cases hget : BlockStore.get s c with
  | error e => simp
  | ok r =>
    obtain rfl := LawfulBlockStore.get_ok hget
    cases hview : view s c with
    | none => simp [eq_comm]
    | some data => cases hipld : Ipld.fromDagCbor data <;> simp [hipld, eq_comm]

theorem exists_expand_iff (hs : n.storage = some s) :
    (∃ links, n.expand c = .ok links) ↔ ReadsAsDag s c := by
  simp only [expand_eq_ok_iff hs, exists_and_left, exists_eq, and_true]

/-- Following the links of a block is following the links of the store. -/
theorem expand_computes (hs : n.storage = some s) : BreadthFirst.Computes n.expand (Link s) := by
  intro c links hlinks d
  obtain ⟨-, rfl⟩ := (expand_eq_ok_iff hs).mp hlinks
  exact mem_storedLinks_iff

/-- **When a traversal succeeds.** It ends on every store. It returns the CIDs whose distance from
the root is within the depth limit, each once and nearer ones first, if and only if every one of
them can be read as a DAG node or is missing. -/
theorem dagTraverse_iff (hs : n.storage = some s) (root : Cid) (maxDepth : Option ℕ) :
    (∃ fuel r, n.dagTraverse root maxDepth fuel = some r) ∧
      ((∃ fuel result, n.dagTraverse root maxDepth fuel = some (.ok result) ∧
          BreadthFirst.Traversal (Link s) maxDepth root result) ↔
        ∀ c k, BreadthFirst.Dist (Link s) root k c → BreadthFirst.Within maxDepth k →
          ReadsAsDag s c) := by
  -- the search stays among the root and the CIDs that the store links to
  obtain ⟨V, hV⟩ := exists_linked s
  have hU : ∀ c ∈ insert root V, ∀ links, n.expand c = .ok links → ∀ d ∈ links,
      d ∈ insert root V := by
    intro c _ links hlinks d hd
    refine Finset.mem_insert_of_mem ((hV d).mpr ⟨c, ?_⟩)
    exact (expand_computes hs c links hlinks d).mp hd
  have hroot := Finset.mem_insert_self root V
  refine ⟨BreadthFirst.exists_run maxDepth _ hroot hU, ?_⟩
  have hiff := BreadthFirst.returns_traversal_iff maxDepth (expand_computes hs) _ hroot hU
  simp only [exists_expand_iff hs] at hiff
  rw [← hiff]
  constructor
  · rintro ⟨fuel, result, hrun, htrav⟩
    exact ⟨result, ⟨fuel, hrun⟩, htrav⟩
  · rintro ⟨result, ⟨fuel, hrun⟩, htrav⟩
    exact ⟨fuel, result, hrun, htrav⟩

end Spec

section Sample

open scoped CidReference

/-- The SHA2-256 digests of the byte `0xff`, of a list with a link to it, of two lists with a link
to that, and of one with links to both. -/
def leafDigest (data : Bytes) : Bytes :=
  if data = [0xff] then
    BigEndian.encode 32 0xa8100ae6aa1940d0b663bb31cd466142ebbdbd5187131b92d93818987832eb89
  else if data.length = 43 then
    BigEndian.encode 32 0x7adaae7788315ae75ada26ed4733fc50f4ca853315367862f7b72a7d5858836b
  else if data.length = 44 then
    BigEndian.encode 32 0x3d0ecf4c94e0839004e385af43d3b8482e8302f3aead4ab3f3b84e9f3a7e7795
  else if data.length = 83 then
    BigEndian.encode 32 0xbce04bbf4660185f5a367ce0be60679787b19a1c04a1a33054be399819d8e0dc
  else
    BigEndian.encode 32 0x86eb46c327fba330494343b00ebdc78ab3821ca1a324aedf16f2bee15b7c0fec

theorem length_leafDigest (data : Bytes) : (leafDigest data).length = 32 := by
  unfold leafDigest
  repeat' split
  all_goals rfl

/-- The hash crate on these blocks. -/
@[reducible]
def leafHash : HashCrate := CidReference.hashOf leafDigest length_leafDigest

/-- The CID of the file with the byte `0xff`, which is no DAG-CBOR. -/
def leafCid : Cid :=
  letI := leafHash
  Cid.ofData Codec.raw .sha256 [0xff]

/-- The CID of a list with a link to that file. -/
def leafRoot : Cid :=
  letI := leafHash
  Cid.ofData Codec.raw .sha256 (encodeDagCbor (.list [.link leafCid]))

/-- The store after the file and then the list have been added. -/
def leafStore : MemoryBlockStore :=
  (MemoryBlockStore.new.insert ⟨leafCid, [0xff]⟩).insert
    ⟨leafRoot, encodeDagCbor (.list [.link leafCid])⟩

/-- Two lists that link to that list, and a list that links to both. -/
def diamondLeft : Ipld := .list [.link leafRoot, .integer 0]

def diamondRight : Ipld := .list [.link leafRoot, .integer 24]

/-- The CID under which a value is stored. -/
def dagCid (ipld : Ipld) : Cid :=
  letI := leafHash
  Cid.ofData Codec.raw .sha256 (encodeDagCbor ipld)

def diamondTop : Ipld := .list [.link (dagCid diamondLeft), .link (dagCid diamondRight)]

/-- The store with all of them. -/
def diamondStore : MemoryBlockStore :=
  [diamondLeft, diamondRight, diamondTop].foldl
    (fun s ipld => s.insert ⟨dagCid ipld, encodeDagCbor ipld⟩) leafStore

/-- The list is shared by two others, and with a depth limit of 3 the traversal stays away from the
file below it. -/
theorem dagTraverse_diamond_three :
    ∃ fuel result, ({ storage := some diamondStore } : Node MemoryBlockStore).dagTraverse
        (dagCid diamondTop) (some 3) fuel = some (.ok result) ∧
      BreadthFirst.Traversal (Link diamondStore) (some 3) (dagCid diamondTop) result := by
  have hview : ∀ c ∈ [(dagCid diamondTop, diamondTop), (dagCid diamondLeft, diamondLeft),
      (dagCid diamondRight, diamondRight), (leafRoot, .list [.link leafCid])],
      view diamondStore c.1 = some (encodeDagCbor c.2) ∧
        Ipld.fromDagCbor (encodeDagCbor c.2) = .ok c.2 := by
    decide +kernel
  simp only [List.forall_mem_cons] at hview
  obtain ⟨htop, hleft, hright, hlist, -⟩ := hview
  have hreads : ∀ c ipld, view diamondStore c = some (encodeDagCbor ipld) ∧
      Ipld.fromDagCbor (encodeDagCbor ipld) = .ok ipld → ReadsAsDag diamondStore c := by
    rintro c ipld ⟨hc, hipld⟩
    refine ⟨⟨_, rfl⟩, fun data hdata => ⟨ipld, ?_⟩⟩
    obtain rfl := Option.some.inj (hc.symm.trans hdata)
    exact hipld
  have hlinks : ∀ c d ipld, view diamondStore c = some (encodeDagCbor ipld) ∧
      Ipld.fromDagCbor (encodeDagCbor ipld) = .ok ipld → Link diamondStore c d →
        d ∈ ipld.links := by
    rintro c d ipld ⟨hc, hipld⟩ hlink
    have hmem := mem_storedLinks_iff.mpr hlink
    rw [storedLinks, hc] at hmem
    dsimp only at hmem
    rwa [hipld] at hmem
  refine (dagTraverse_iff (n := { storage := some diamondStore }) rfl _ (some 3)).2.mpr ?_
  intro c k hc hk
  have hk : k < 3 := hk 3 rfl
  -- a walk of at most two links
  cases hc.1 with
  | nil => exact hreads _ _ htop
  | @snoc k y _ hwalk hlink =>
    cases hwalk with
    | nil =>
      rcases List.mem_pair.mp (hlinks _ c _ htop hlink) with rfl | rfl
      · exact hreads _ _ hleft
      · exact hreads _ _ hright
    | @snoc k x _ hwalk hlink' =>
      obtain rfl : k = 0 := by omega
      cases hwalk
      have hlist' : c = leafRoot := by
        rcases List.mem_pair.mp (hlinks _ y _ htop hlink') with rfl | rfl
        · exact List.mem_singleton.mp (hlinks _ c _ hleft hlink)
        · exact List.mem_singleton.mp (hlinks _ c _ hright hlink)
      rw [hlist']
      exact hreads _ _ hlist

/-- A list with a link to a file that is no DAG-CBOR cannot be traversed. -/
theorem not_forall_dagTraverse :
    ¬ ∀ (s : MemoryBlockStore) (root : Cid) (maxDepth : Option ℕ), ∃ fuel result,
      ({ storage := some s } : Node MemoryBlockStore).dagTraverse root maxDepth fuel
          = some (.ok result) ∧
        BreadthFirst.Traversal (Link s) maxDepth root result := by
  intro h
  obtain ⟨fuel, result, hrun, -⟩ := h leafStore leafRoot none
  -- the second round reads the file as DAG-CBOR
  have hrun' : (({ storage := some leafStore } : Node MemoryBlockStore).dagTraverse leafRoot
      none 2).map Except.isOk = some false := by
    decide +kernel
  obtain ⟨r, hr, hbad⟩ := Option.map_eq_some_iff.mp hrun'
  obtain rfl := WhileLoop.Returns.unique ⟨fuel, hrun⟩ ⟨2, hr⟩
  exact absurd hbad (by simp [Except.isOk, Except.toBool])

end Sample

end Node

end Ipfrs
