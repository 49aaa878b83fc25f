import Ipfrs.Lib.LevelOrder
import Ipfrs.Core.Streaming
import Ipfrs.Core.CidReference

/-!
# Streaming a DAG

`DagChunkStream` (`ipfrs-core/src/streaming.rs`), the second reader of chunked files. It keeps the
links still to be followed and puts the links of a node in front of them, so it reads depth-first;
`read_chunked_file` keeps parsed nodes in a queue, and so it reads level by level.

A DAG stands for a forest of byte strings (`Represents`): a raw block is a piece, and a node is a
node over the pieces and nodes that it links to, with its own data as a piece in front.

* `returns_readStep` — `read_chunked_file` reads the forest in level order;
* `drains_of_represents` — the stream reads it in depth-first order;
* `readers_agree_iff` — so the two agree if and only if the level order of the pieces is the same
  text as their depth-first order.
-/

namespace Ipfrs

/-! ### The stream -/

section Model

variable [CidCrate] {F : Type} [BlockFetcher F]

/-- The links that `next_chunk` takes out of the list under `links`. -/
def newLinks (links : List Ipld) : List DagLink :=
  links.filterMap fun linkIpld =>
    match linkIpld with
    | .map linkMap =>
      match SortedMap.get? "cid" linkMap, SortedMap.get? "size" linkMap with
      | some (.link cid), some (.integer size) => some (DagLink.new cid (asU64 size))
      | _, _ => none
    | _ => none

/-- One round of the loop of `DagChunkStream::next_chunk` on the pending links. The loop leaves with
what `next_chunk` returns and the links that are still pending. -/
def streamStep (fetcher : F) :
    List DagLink → List DagLink ⊕ (Option (Except Error Bytes) × List DagLink)
  | [] => .inr (none, [])
  | link :: pendingLinks =>
    match fetch fetcher link.cid with
    | .error e => .inr (some (.error e), pendingLinks)
    | .ok block =>
      if block.cid.codec = Codec.raw then .inr (some (.ok block.data), pendingLinks)
      else
        match Ipld.fromDagCbor block.data with
        | .error e => .inr (some (.error e), pendingLinks)
        | .ok (.map map) =>
          let pendingLinks :=
            match SortedMap.get? "links" map with
            | some (.list links) => newLinks links ++ pendingLinks
            | _ => pendingLinks
          match SortedMap.get? "data" map with
          | some (.bytes data) => .inr (some (.ok data), pendingLinks)
          | _ => .inl pendingLinks
        | .ok _ => .inl pendingLinks

/-- `DagChunkStream::next_chunk`, with at most `fuel` rounds of its loop. -/
def nextChunk (fuel : ℕ) (fetcher : F) (pendingLinks : List DagLink) :
    Option (Option (Except Error Bytes) × List DagLink) :=
  WhileLoop.run (streamStep fetcher) fuel pendingLinks

/-- All chunks of a stream: `next_chunk` is called until it has no chunk left, or until the first
error. -/
def drain (fetcher : F) : ℕ → List DagLink → Option (Except Error (List Bytes))
  | 0, _ => none
  | fuel + 1, pendingLinks =>
    match nextChunk (fuel + 1) fetcher pendingLinks with
    | none => none
    | some (none, _) => some (.ok [])
    | some (some (.error e), _) => some (.error e)
    | some (some (.ok chunk), pendingLinks) =>
      (drain fetcher fuel pendingLinks).map fun r => r.map (chunk :: ·)

end Model

/-! ### What a DAG stands for -/

/-- A piece for the data of a node, if it has any, and then the rest. -/
def withData : Option Bytes → Forest Bytes → Forest Bytes
  | some data, f => .piece data f
  | none, f => f

section Order

variable [CidCrate] {F : Type} [BlockFetcher F]

/-- The DAGs under the CIDs stand for a forest of byte strings. Every block is there; a block with
the raw codec is a piece, and any other block is a node as `DagNode::to_ipld` makes them. -/
inductive Represents (fetcher : F) : List Cid → Forest Bytes → Prop
  | nil : Represents fetcher [] .nil
  | raw {cid : Cid} {cids : List Cid} {block : Block} {rest : Forest Bytes}
      (hfetch : fetch fetcher cid = .ok block) (hcodec : block.cid.codec = Codec.raw)
      (hrest : Represents fetcher cids rest) :
      Represents fetcher (cid :: cids) (.piece block.data rest)
  | node {cid : Cid} {cids : List Cid} {block : Block} {node : DagNode}
      {children rest : Forest Bytes}
      (hfetch : fetch fetcher cid = .ok block) (hcodec : block.cid.codec ≠ Codec.raw)
      (hdecode : Ipld.fromDagCbor block.data = .ok node.toIpld)
      (hchildren : Represents fetcher (node.links.map DagLink.cid) children)
      (hrest : Represents fetcher cids rest) :
      Represents fetcher (cid :: cids) (.node (withData node.data children) rest)

variable {fetcher : F}
variable {f : Forest Bytes} {root : Cid} {pendingLinks rest : List DagLink} {chunks : List Bytes}

theorem Represents.append {cids cids' : List Cid} {g : Forest Bytes}
    (hf : Represents fetcher cids f) (hg : Represents fetcher cids' g) :
    Represents fetcher (cids ++ cids') (f.append g) := by
  induction hf with
  | nil => exact hg
  | raw hfetch hcodec _ ih => exact .raw hfetch hcodec ih
  | node hfetch hcodec hdecode hchildren _ _ ih => exact .node hfetch hcodec hdecode hchildren ih

/-! ### The queue reader -/

/-- `x` is a node that stands for the forest `f`. -/
def NodeStandsFor (fetcher : F) (x : Ipld) (f : Forest Bytes) : Prop :=
  ∃ node children, x = DagNode.toIpld node ∧
    Represents fetcher (node.links.map DagLink.cid) children ∧ f = withData node.data children

/-- The result is what the pieces make up, and the queue stands for the forests. -/
def Follows (fetcher : F) (s : List Bytes × List (Forest Bytes)) (t : Bytes × List Ipld) : Prop :=
  s.1.flatten = t.1 ∧ List.Forall₂ (NodeStandsFor fetcher) t.2 s.2

/-- The links of a node: the data of the raw blocks is appended, and the nodes go to the queue. -/
theorem foldlM_readLink {links : List DagLink} (h : Represents fetcher (links.map DagLink.cid) f)
    (result : Bytes) (queue : List Ipld) :
    ∃ children, List.Forall₂ (NodeStandsFor fetcher) children f.inner ∧
      (links.map DagLink.toIpld).foldlM (readLink fetcher) (result, queue)
        = .ok (result ++ f.top.flatten, queue ++ children) := by
  induction links generalizing f result queue with
  | nil =>
    cases h
    exact ⟨[], .nil, by simp [Forest.top]⟩
  | cons link links ih =>
    rw [List.map_cons] at h
    rw [List.map_cons, List.foldlM_cons]
    cases h with
    | @raw _ _ block rest hfetch hcodec hrest =>
      -- a raw block is data
      obtain ⟨children, hchildren, hfold⟩ := ih hrest (result ++ block.data) queue
      refine ⟨children, hchildren, ?_⟩
      rw [readLink_toIpld hfetch, if_pos hcodec, Except.ok_bind, hfold, Forest.top,
        List.flatten_cons, List.append_assoc]
    | @node _ _ block node inner rest hfetch hcodec hdecode hinner hrest =>
      -- a node waits in the queue
      obtain ⟨children, hchildren, hfold⟩ := ih hrest result (queue ++ [node.toIpld])
      refine ⟨node.toIpld :: children, .cons ⟨node, inner, rfl, hinner, rfl⟩ hchildren, ?_⟩
      rw [readLink_toIpld hfetch, if_neg hcodec, hdecode]
      change List.foldlM _ (result, queue ++ [node.toIpld]) _ = _
      rw [hfold, Forest.top, List.append_assoc, List.singleton_append]

/-- **The queue loop reads in level order.** Round by round it follows the loop that reads the
forests of the queue. -/
theorem returns_readStep {x : Ipld} (hx : NodeStandsFor fetcher x f) :
    WhileLoop.Returns (readStep fetcher) ([], [x]) (.ok f.levelOrder.flatten) := by
  have hnext : ∀ s t s', Follows fetcher s t → Forest.step s = .inl s' →
      ∃ t', readStep fetcher t = .inl t' ∧ Follows fetcher s' t' := by
    rintro ⟨out, queue⟩ ⟨result, xs⟩ s' ⟨rfl, hqueue⟩ hstep
    cases hqueue with
    | nil => exact absurd hstep (by simp [Forest.step])
    | @cons x f xs queue hx hqueue =>
      obtain rfl := Sum.inl.inj hstep
      obtain ⟨node, children, rfl, hchildren, rfl⟩ := hx
      obtain ⟨ys, hys, hfold⟩ :=
        foldlM_readLink hchildren (out.flatten ++ node.data.getD []) xs
      refine ⟨_, by rw [readStep_toIpld, hfold], ?_, ?_⟩
      · -- its own data, and then that of the raw blocks
        cases node.data <;> simp [withData, Forest.top]
      · cases node.data <;> exact List.rel_append hqueue hys
  have hdone : ∀ s t r, Follows fetcher s t → Forest.step s = .inr r →
      ∃ r', readStep fetcher t = .inr r' ∧ .ok r.flatten = r' := by
    rintro ⟨out, queue⟩ ⟨result, xs⟩ r ⟨rfl, hqueue⟩ hstep
    cases hqueue with
    | nil =>
      obtain rfl := Sum.inr.inj hstep
      exact ⟨_, rfl, rfl⟩
    | cons => exact absurd hstep (by simp [Forest.step])
  obtain ⟨r, hr, rfl⟩ := (Forest.returns_levelOrder f).simulate (Follows fetcher)
    (fun out r => .ok out.flatten = r) hnext hdone (t := ([], [x])) ⟨rfl, .cons hx .nil⟩
  exact hr

theorem readChunkedFile_of_represents (h : Represents fetcher [root] f) :
    ∃ n, ∀ fuel ≥ n, readChunkedFile fuel fetcher root = some (.ok f.levelOrder.flatten) := by
  cases h with
  | @raw _ _ block rest hfetch hcodec hrest =>
    cases hrest
    refine ⟨0, fun fuel _ => ?_⟩
    simp only [readChunkedFile, hfetch, if_pos hcodec]
    simp [Forest.levelOrder, Forest.height]
  | @node _ _ block node children rest hfetch hcodec hdecode hchildren hrest =>
    cases hrest
    obtain ⟨n, hn⟩ := returns_readStep
      ⟨node, children, rfl, hchildren, rfl⟩
    refine ⟨n, fun fuel hfuel => ?_⟩
    simp only [readChunkedFile, hfetch, if_neg hcodec, hdecode, Forest.levelOrder_node_nil]
    exact WhileLoop.run_mono hfuel hn

/-! ### The stream reader -/

omit [CidCrate] in
theorem newLinks_map_cid (links : List DagLink) :
    (newLinks (links.map DagLink.toIpld)).map DagLink.cid = links.map DagLink.cid := by
  induction links with
  | nil => rfl
  | cons link links ih =>
    obtain ⟨m, hm, hcid, hsize⟩ := link.toIpld_eq
    have hcons : newLinks ((link :: links).map DagLink.toIpld)
        = DagLink.new link.cid (asU64 link.size.toNat)
          :: newLinks (links.map DagLink.toIpld) := by
      simp only [newLinks, List.map_cons, List.filterMap_cons, hm, hcid, hsize]
    rw [hcons, List.map_cons, ih, List.map_cons]
    rfl

/-- With enough fuel, the stream ends without an error and its chunks are `chunks`. -/
def Drains (fetcher : F) (pendingLinks : List DagLink) (chunks : List Bytes) : Prop :=
  ∃ n, ∀ fuel ≥ n, drain fetcher fuel pendingLinks = some (.ok chunks)

theorem drain_mono {fuel fuel' : ℕ} {r : Except Error (List Bytes)} (hle : fuel ≤ fuel')
    (h : drain fetcher fuel pendingLinks = some r) : drain fetcher fuel' pendingLinks = some r := by
  induction fuel generalizing fuel' pendingLinks r with
  | zero => exact absurd h (by simp [drain])
  | succ fuel ih =>
    obtain ⟨k, rfl⟩ : ∃ k, fuel' = k + 1 := ⟨fuel' - 1, by omega⟩
    rw [drain] at h ⊢
    cases hnext : nextChunk (fuel + 1) fetcher pendingLinks with
    | none => exact absurd h (by simp [hnext])
    | some res =>
      have hnext' : nextChunk (k + 1) fetcher pendingLinks = some res :=
        WhileLoop.run_mono hle hnext
      rw [hnext] at h
      rw [hnext']
      obtain ⟨_ | _ | chunk, rest⟩ := res
      · exact h
      · exact h
      · -- the same chunk, and then the rest of the stream
        obtain ⟨r', hr', rfl⟩ := Option.map_eq_some_iff.mp h
        exact Option.map_eq_some_iff.mpr ⟨r', ih (by omega) hr', rfl⟩

theorem Drains.of_drain (fuel : ℕ) (h : drain fetcher fuel pendingLinks = some (.ok chunks)) :
    Drains fetcher pendingLinks chunks :=
  ⟨fuel, fun _ hle => drain_mono hle h⟩

theorem Drains.nil : Drains fetcher [] [] := .of_drain 1 rfl

theorem Drains.of_chunk {chunk : Bytes}
    (hstep : streamStep fetcher pendingLinks = .inr (some (.ok chunk), rest))
    (h : Drains fetcher rest chunks) : Drains fetcher pendingLinks (chunk :: chunks) := by
  obtain ⟨n, hn⟩ := h
  refine .of_drain (n + 1) ?_
  have hnext : nextChunk (n + 1) fetcher pendingLinks = some (some (.ok chunk), rest) :=
    WhileLoop.run_succ_of_done hstep n
  rw [drain, hnext]
  change (drain fetcher n rest).map _ = _
  rw [hn n le_rfl]
  rfl

theorem Drains.of_next (hstep : streamStep fetcher pendingLinks = .inl rest)
    (h : Drains fetcher rest chunks) : Drains fetcher pendingLinks chunks := by
  obtain ⟨n, hn⟩ := h
  have hdrain := hn (n + 1) (Nat.le_succ n)
  refine .of_drain (n + 2) ?_
  have hnext : nextChunk (n + 2) fetcher pendingLinks = nextChunk (n + 1) fetcher rest :=
    WhileLoop.run_succ_of_next hstep (n + 1)
  rw [drain] at hdrain ⊢
  rw [hnext]
  cases hres : nextChunk (n + 1) fetcher rest with
  | none => exact absurd hdrain (by simp [hres])
  | some res =>
    rw [hres] at hdrain
    obtain ⟨_ | _ | chunk, rest'⟩ := res
    · exact hdrain
    · exact hdrain
    · obtain ⟨r', hr', heq⟩ := Option.map_eq_some_iff.mp hdrain
      exact Option.map_eq_some_iff.mpr ⟨r', drain_mono (Nat.le_succ n) hr', heq⟩

/-- **The stream reads in depth-first order.** The links of a node go in front of the pending ones,
so what is pending stands for the children of the node and then the rest of the forest. -/
theorem drains_of_represents (pendingLinks : List DagLink)
    (h : Represents fetcher (pendingLinks.map DagLink.cid) f) :
    Drains fetcher pendingLinks f.pieces := by
  generalize hm : f.size = m
  induction m using Nat.strong_induction_on generalizing pendingLinks f with
  | _ m ih =>
    cases pendingLinks with
    | nil =>
      cases h
      exact .nil
    | cons link pendingLinks =>
      rw [List.map_cons] at h
      cases h with
      | @raw _ _ block rest hfetch hcodec hrest =>
        refine .of_chunk ?_ (ih rest.size ?_ _ hrest rfl)
        · simp only [streamStep, hfetch, if_pos hcodec]
        · rw [← hm, Forest.size]
          exact Nat.lt_succ_self _
      | @node _ _ block node children rest hfetch hcodec hdecode hchildren hrest =>
        obtain ⟨m', hm', hlinks, hdata⟩ := node.toIpld_eq
        -- what is pending after the node has been expanded
        have hpending : Represents fetcher
            ((newLinks (node.links.map DagLink.toIpld) ++ pendingLinks).map DagLink.cid)
            (children.append rest) := by
          rw [List.map_append, newLinks_map_cid]
          exact hchildren.append hrest
        have hsmall : (children.append rest).size < m := by
          rw [← hm, Forest.size_append, Forest.size]
          cases node.data <;> simp only [withData, Forest.size] <;> omega
        have hdrains := ih _ hsmall _ hpending rfl
        rw [Forest.pieces_append] at hdrains
        cases hd : node.data with
        | none =>
          refine .of_next ?_ hdrains
          simp only [streamStep, hfetch, if_neg hcodec, hdecode, hm', hlinks, hdata, hd,
            Option.map_none]
        | some data =>
          refine .of_chunk ?_ hdrains
          simp only [streamStep, hfetch, if_neg hcodec, hdecode, hm', hlinks, hdata, hd,
            Option.map_some]

/-! ### The two readers -/

omit [CidCrate] in
theorem flatten_filter_nonempty (pieces : List Bytes) :
    (pieces.filter (· ≠ [])).flatten = pieces.flatten := by
  induction pieces with
  | nil => rfl
  | cons piece pieces ih =>
    by_cases h : piece = []
    · rw [List.filter_cons_of_neg (by simpa using h), ih, h, List.flatten_cons, List.nil_append]
    · rw [List.filter_cons_of_pos (by simpa using h), List.flatten_cons, ih, List.flatten_cons]

/-- **When the two readers agree.** Both end without an error on every DAG with all its blocks.
They give the same bytes if and only if the level order of its pieces makes up the same bytes as
their depth-first order; this is so when the non-empty pieces, taken depth-first, never go up to a
smaller depth. -/
theorem readers_agree_iff (h : Represents fetcher [root] f) (size : UInt64) :
    ∃ bytes chunks,
      (∃ n, ∀ fuel ≥ n, readChunkedFile fuel fetcher root = some (.ok bytes)) ∧
      (∃ n, ∀ fuel ≥ n, drain fetcher fuel [DagLink.new root size] = some (.ok chunks)) ∧
      (bytes = chunks.flatten ↔ f.levelOrder.flatten = f.pieces.flatten) ∧
      (((f.labelled 0).filter (·.2 ≠ [])).Pairwise (fun p q => p.1 ≤ q.1) →
        bytes = chunks.flatten) := by
  refine ⟨f.levelOrder.flatten, f.pieces, readChunkedFile_of_represents h,
    drains_of_represents [DagLink.new root size] h, Iff.rfl, fun hsorted => ?_⟩
  have horder := Forest.levelOrder_filter_of_sorted f (fun piece => decide (piece ≠ [])) hsorted
  rw [← flatten_filter_nonempty f.levelOrder, horder, flatten_filter_nonempty]

end Order

section Sample

open scoped CidReference

/-- The SHA2-256 digests of the blocks of two lopsided DAGs. -/
def lopsidedDigest (data : Bytes) : Bytes :=
  if data.length = 71 then
    BigEndian.encode 32 0xcd9c1c47d717b0625cd5a6eb6696927d255517bedda2a7722d33ac8ec5a2ebd7
  else if data.length = 123 then
    BigEndian.encode 32 0x9680af18bf93653d46c249581d5fee7dc43b3ee2541037d78cc97ac1691feccb
  else if data.length = 175 then
    BigEndian.encode 32 0x217fc3cfb1688e1bf246eaa472a6869c26897f07be929091cddd4b56f2cbf7e9
  else CidReference.byteDigest data

theorem length_lopsidedDigest (data : Bytes) : (lopsidedDigest data).length = 32 := by
  unfold lopsidedDigest
  split
  · rfl
  · split
    · rfl
    · split
      · rfl
      · exact CidReference.length_byteDigest data

/-- The hash crate on these blocks. -/
@[reducible]
def lopsidedHash : HashCrate := CidReference.hashOf lopsidedDigest length_lopsidedDigest

/-- A node over a leaf with the byte 1. -/
def lopsidedInner : List DagLink :=
  letI := lopsidedHash
  [Chunker.leafLink [1]]

/-- A node over that node and a leaf with the byte 2. -/
def lopsidedRoot : List DagLink :=
  letI := lopsidedHash
  [Chunker.nodeLink lopsidedInner, Chunker.leafLink [2]]

/-- The other way round: that node comes last, behind leaves with the bytes 2 and 0. -/
def sortedRoot : List DagLink :=
  letI := lopsidedHash
  [Chunker.leafLink [2], Chunker.leafLink [0], Chunker.nodeLink lopsidedInner]

/-- The blocks of both. -/
def lopsidedBlocks : MemoryBlockFetcher :=
  letI := lopsidedHash
  MemoryBlockFetcher.new.addBlocks [Chunker.leafBlock [0], Chunker.leafBlock [1],
    Chunker.leafBlock [2], Chunker.nodeBlock lopsidedInner, Chunker.nodeBlock lopsidedRoot,
    Chunker.nodeBlock sortedRoot]

theorem represents_lopsidedInner :
    letI := lopsidedHash
    Represents lopsidedBlocks [(Chunker.nodeBlock lopsidedInner).cid]
      (.node (.piece [1] .nil) .nil) := by
  let := lopsidedHash
  have hleaf : fetch lopsidedBlocks (Chunker.leafBlock [1]).cid = .ok (Chunker.leafBlock [1]) := by
    decide +kernel
  have hnode : fetch lopsidedBlocks (Chunker.nodeBlock lopsidedInner).cid
      = .ok (Chunker.nodeBlock lopsidedInner) := by
    decide +kernel
  have hdecode : Ipld.fromDagCbor (Chunker.nodeBlock lopsidedInner).data
      = .ok (DagNode.intermediate lopsidedInner).toIpld := by
    decide +kernel
  exact .node hnode (by decide) hdecode
    (.raw hleaf rfl .nil) .nil

theorem readers_agree_sorted :
    letI := lopsidedHash
    ∃ bytes chunks,
      (∃ n, ∀ fuel ≥ n, readChunkedFile fuel lopsidedBlocks
        (Chunker.nodeBlock sortedRoot).cid = some (.ok bytes)) ∧
      (∃ n, ∀ fuel ≥ n, drain lopsidedBlocks fuel
        [DagLink.new (Chunker.nodeBlock sortedRoot).cid 3] = some (.ok chunks)) ∧
      bytes = chunks.flatten := by
  let := lopsidedHash
  have hleaf₀ : fetch lopsidedBlocks (Chunker.leafBlock [0]).cid = .ok (Chunker.leafBlock [0]) := by
    decide +kernel
  have hleaf₂ : fetch lopsidedBlocks (Chunker.leafBlock [2]).cid = .ok (Chunker.leafBlock [2]) := by
    decide +kernel
  have hnode : fetch lopsidedBlocks (Chunker.nodeBlock sortedRoot).cid
      = .ok (Chunker.nodeBlock sortedRoot) := by
    decide +kernel
  have hdecode : Ipld.fromDagCbor (Chunker.nodeBlock sortedRoot).data
      = .ok (DagNode.intermediate sortedRoot).toIpld := by
    decide +kernel
  have hroot : Represents lopsidedBlocks [(Chunker.nodeBlock sortedRoot).cid]
      (.node (.piece [2] (.piece [0] (.node (.piece [1] .nil) .nil))) .nil) :=
    .node hnode (by decide) hdecode
      (.raw hleaf₂ rfl (.raw hleaf₀ rfl represents_lopsidedInner)) .nil
  obtain ⟨bytes, chunks, hbytes, hchunks, -, hsorted⟩ := readers_agree_iff hroot 3
  exact ⟨bytes, chunks, hbytes, hchunks, hsorted (by decide)⟩

/-- In the lopsided DAG the leaf with the byte 2 is nearer to the root than the one before it, so
`read_chunked_file` returns it first. -/
theorem not_forall_readers_agree :
    letI := lopsidedHash
    ¬ ∀ (fetcher : MemoryBlockFetcher) (root : Cid) (size : UInt64),
      (∃ f, Represents fetcher [root] f) →
        ∃ bytes chunks,
          (∃ n, ∀ fuel ≥ n, readChunkedFile fuel fetcher root = some (.ok bytes)) ∧
          (∃ n, ∀ fuel ≥ n, drain fetcher fuel [DagLink.new root size] = some (.ok chunks)) ∧
          bytes = chunks.flatten := by
  let := lopsidedHash
  intro h
  have hleaf : fetch lopsidedBlocks (Chunker.leafBlock [2]).cid = .ok (Chunker.leafBlock [2]) := by
    decide +kernel
  have hnode : fetch lopsidedBlocks (Chunker.nodeBlock lopsidedRoot).cid
      = .ok (Chunker.nodeBlock lopsidedRoot) := by
    decide +kernel
  have hdecode : Ipld.fromDagCbor (Chunker.nodeBlock lopsidedRoot).data
      = .ok (DagNode.intermediate lopsidedRoot).toIpld := by
    decide +kernel
  have hroot : Represents lopsidedBlocks [(Chunker.nodeBlock lopsidedRoot).cid]
      (.node (.node (.piece [1] .nil) (.piece [2] .nil)) .nil) :=
    .node hnode (by decide) hdecode
      (represents_lopsidedInner.append (.raw hleaf rfl .nil)) .nil
  obtain ⟨bytes, chunks, ⟨n, hn⟩, ⟨m, hm⟩, heq⟩ :=
    h lopsidedBlocks (Chunker.nodeBlock lopsidedRoot).cid 2 ⟨_, hroot⟩
  -- the queue gives 2 and then 1, the stream 1 and then 2
  obtain ⟨n', hn'⟩ := readChunkedFile_of_represents hroot
  obtain ⟨m', hm'⟩ := drains_of_represents
    [DagLink.new (Chunker.nodeBlock lopsidedRoot).cid 2] hroot
  have hbytes := (hn (max n n') (le_max_left ..)).symm.trans (hn' (max n n') (le_max_right ..))
  have hchunks := (hm (max m m') (le_max_left ..)).symm.trans (hm' (max m m') (le_max_right ..))
  obtain rfl := Except.ok.inj (Option.some.inj hbytes)
  obtain rfl := Except.ok.inj (Option.some.inj hchunks)
  exact absurd heq (by decide)

end Sample

end Ipfrs
