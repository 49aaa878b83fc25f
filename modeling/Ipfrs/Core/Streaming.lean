import Ipfrs.Lib.AssocMap
import Ipfrs.Core.Chunking

/-!
# Reading chunked files

Fetching blocks and reading a chunked file back (`ipfrs-core/src/streaming.rs`).

`readChunkedFile` walks the DAG with a queue. What it appends is in the order of a breadth-first
walk, which is the order of the file only when all leaves are at one depth.
-/

namespace Ipfrs

class BlockFetcher (F : Type) where
  fetch : F → Cid → Except Error Block

export BlockFetcher (fetch)

/-! ### The in-memory fetcher -/

structure MemoryBlockFetcher where
  blocks : AList fun _ : Cid => Block

namespace MemoryBlockFetcher

def new : MemoryBlockFetcher := ⟨∅⟩

def addBlock (f : MemoryBlockFetcher) (block : Block) : MemoryBlockFetcher :=
  ⟨f.blocks.insert block.cid block⟩

def addBlocks (f : MemoryBlockFetcher) (blocks : List Block) : MemoryBlockFetcher :=
  blocks.foldl addBlock f

instance [CidText] : BlockFetcher MemoryBlockFetcher where
  fetch f c :=
    match f.blocks.lookup c with
    | some block => .ok block
    | none => .error (.blockNotFound (CidText.toString c))

variable {f : MemoryBlockFetcher} {blocks : List Block} {c : Cid} {b : Block}

theorem mem_of_lookup_addBlocks (h : (f.addBlocks blocks).blocks.lookup c = some b) :
    b ∈ blocks ∧ b.cid = c ∨ f.blocks.lookup c = some b := by
  induction blocks generalizing f with
  | nil => exact Or.inr h
  | cons b' blocks ih =>
    rcases ih h with ⟨hmem, hc⟩ | h
    · exact Or.inl ⟨List.mem_cons_of_mem _ hmem, hc⟩
    · obtain ⟨rfl, rfl⟩ | ⟨-, h⟩ := AssocMap.lookup_insert_eq_some.mp h
      · exact Or.inl ⟨List.mem_cons_self, rfl⟩
      · exact Or.inr h

theorem isSome_lookup_addBlocks (h : (∃ b ∈ blocks, b.cid = c) ∨ (f.blocks.lookup c).isSome) :
    ((f.addBlocks blocks).blocks.lookup c).isSome := by
  induction blocks generalizing f with
  | nil => simpa [addBlocks] using h
  | cons b' blocks ih =>
    refine ih ?_
    by_cases hc : c = b'.cid
    · subst hc
      exact Or.inr (Option.isSome_iff_exists.mpr ⟨b', AList.lookup_insert _⟩)
    · rcases h with ⟨b, hb, rfl⟩ | h
      · rcases List.mem_cons.mp hb with rfl | hb
        · exact absurd rfl hc
        · exact Or.inl ⟨b, hb, rfl⟩
      · exact Or.inr (by rwa [addBlock, AList.lookup_insert_ne hc])

/-- A fetcher filled with blocks that have one CID each finds every one of them. -/
theorem fetch_addBlocks [CidText] (hinj : ∀ b ∈ blocks, ∀ b' ∈ blocks, b.cid = b'.cid → b = b')
    (hb : b ∈ blocks) : fetch (new.addBlocks blocks) b.cid = .ok b := by
  obtain ⟨b', hb'⟩ := Option.isSome_iff_exists.mp
    (isSome_lookup_addBlocks (f := new) (Or.inl ⟨b, hb, rfl⟩))
  rcases mem_of_lookup_addBlocks hb' with ⟨hmem, hc⟩ | hnone
  · obtain rfl := hinj b' hmem b hb hc
    simp only [fetch, hb']
  · exact absurd hnone (by simp [new])

end MemoryBlockFetcher

/-! ### Nodes in IPLD -/

theorem DagLink.toIpld_eq (link : DagLink) :
    ∃ m, link.toIpld = .map m ∧ SortedMap.get? "cid" m = some (.link link.cid) ∧
      SortedMap.get? "size" m = some (.integer link.size.toNat) := by
  obtain ⟨cid, size, name⟩ := link
  cases name <;> exact ⟨_, rfl, rfl, rfl⟩

/-- A node has its links, and its data if there is any, under their names. -/
theorem DagNode.toIpld_eq (node : DagNode) :
    ∃ m, node.toIpld = .map m ∧
      SortedMap.get? "links" m = some (.list (node.links.map DagLink.toIpld)) ∧
        SortedMap.get? "data" m = node.data.map .bytes := by
  obtain ⟨links, totalSize, data⟩ := node
  cases data <;> exact ⟨_, rfl, rfl, rfl⟩

/-! ### The reader -/

section Reader

variable [CidCrate] {F : Type} [BlockFetcher F]

/-- What `read_chunked_file` does with one link of a node: leaf data goes to the result, an inner
node to the end of the queue. -/
def readLink (fetcher : F) (st : Bytes × List Ipld) (linkIpld : Ipld) :
    Except Error (Bytes × List Ipld) :=
  match linkIpld with
  | .map linkMap =>
    match SortedMap.get? "cid" linkMap with
    | some (.link cid) => do
      let block ← fetch fetcher cid
      if block.cid.codec = Codec.raw then return (st.1 ++ block.data, st.2)
      else
        let child ← Ipld.fromDagCbor block.data
        return (st.1, st.2 ++ [child])
    | _ => .ok st
  | _ => .ok st

/-- One round of the queue loop of `read_chunked_file`, on `result` and `queue`. -/
def readStep (fetcher : F) :
    Bytes × List Ipld → (Bytes × List Ipld) ⊕ Except Error Bytes
  | (result, []) => .inr (.ok result)
  | (result, .map map :: queue) =>
    let result :=
      match SortedMap.get? "data" map with
      | some (.bytes data) => result ++ data
      | _ => result
    match SortedMap.get? "links" map with
    | some (.list links) =>
      match links.foldlM (readLink fetcher) (result, queue) with
      | .ok st => .inl st
      | .error e => .inr (.error e)
    | _ => .inl (result, queue)
  | (result, _ :: queue) => .inl (result, queue)

/-- `read_chunked_file`, with at most `fuel` rounds of the queue loop. -/
def readChunkedFile (fuel : ℕ) (fetcher : F) (rootCid : Cid) : Option (Except Error Bytes) :=
  match fetch fetcher rootCid with
  | .error e => some (.error e)
  | .ok rootBlock =>
    if rootBlock.cid.codec = Codec.raw then some (.ok rootBlock.data)
    else
      match Ipld.fromDagCbor rootBlock.data with
      | .error e => some (.error e)
      | .ok rootIpld => WhileLoop.run (readStep fetcher) fuel ([], [rootIpld])

/-- What the reader does with a link of a node, when its block is there. -/
theorem readLink_toIpld {fetcher : F} {link : DagLink} {b : Block}
    (hfetch : fetch fetcher link.cid = .ok b) (st : Bytes × List Ipld) :
    readLink fetcher st link.toIpld =
      if b.cid.codec = Codec.raw then .ok (st.1 ++ b.data, st.2)
      else do
        let child ← Ipld.fromDagCbor b.data
        return (st.1, st.2 ++ [child]) := by
  obtain ⟨m, hm, hcid, -⟩ := link.toIpld_eq
  simp only [readLink, hm, hcid, hfetch, Except.ok_bind]
  rfl

/-- A round of the queue loop on a node: its own data first, and then its links in order. -/
theorem readStep_toIpld (fetcher : F) (node : DagNode) (result : Bytes) (queue : List Ipld) :
    readStep fetcher (result, node.toIpld :: queue) =
      match (node.links.map DagLink.toIpld).foldlM (readLink fetcher)
        (result ++ node.data.getD [], queue) with
      | .ok st => .inl st
      | .error e => .inr (.error e) := by
  obtain ⟨m, hm, hlinks, hdata⟩ := node.toIpld_eq
  rw [hm]
  simp only [readStep, hlinks, hdata]
  cases node.data with
  | none => simp only [Option.map_none, Option.getD_none, List.append_nil]
  | some data => rfl

end Reader

end Ipfrs
