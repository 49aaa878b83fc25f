import Ipfrs.Lib.WhileLoop
import Ipfrs.Storage.BlockStore

/-!
# Version control

`Commit`, `Ref` and `VersionControl` (`ipfrs-storage/src/vcs.rs`), over any block store.

Commits and refs are encoded by the `oxicode` crate, which is a parameter here (`CommitCodec`); that
a commit reads back is `LawfulCommitCodec`. The CID of a commit is that of its encoding and is not
encoded itself. A `HashMap` is a list of its entries in the order of iteration, so two maps with the
same entries can have different encodings, but one value has one.

The three searches of the module are one loop (`walkStep`): a commit is popped, skipped if it was
visited, tested, and otherwise read and its parents pushed. The number of rounds is a parameter.
-/

namespace Ipfrs.Vcs

structure Author where
  name : String
  email : String
  deriving DecidableEq, Repr

structure Commit where
  cid : Option Cid
  parents : List Cid
  root : Cid
  message : String
  author : Author
  timestamp : UInt64
  metadata : AList fun _ : String => String

inductive RefType where
  | branch
  | tag
  deriving DecidableEq, Repr

structure Ref where
  name : String
  commit : Cid
  refType : RefType
  deriving DecidableEq

inductive MergeStrategy where
  | fastForward
  | threeWay
  | ours
  | theirs
  deriving DecidableEq, Repr

inductive MergeResult where
  | fastForward (target : Cid)
  | mergeCommit (commit : Cid)
  | conflicts (conflicts : List String)
  deriving DecidableEq

/-- The `oxicode` crate on commits and refs: `encode_to_vec` and `decode_owned_from_slice`. -/
class CommitCodec where
  encodeCommit : Commit → Except String Bytes
  decodeCommit : Bytes → Except String Commit
  encodeRef : Ref → Except String Bytes

/-- Two commits with the same contents. -/
structure Commit.Same (c c' : Commit) : Prop where
  parents : c.parents = c'.parents
  root : c.root = c'.root
  message : c.message = c'.message
  author : c.author = c'.author
  timestamp : c.timestamp = c'.timestamp
  metadata : ∀ key, c.metadata.lookup key = c'.metadata.lookup key

/-- The CID is skipped, and what has been encoded decodes to the same contents. -/
class LawfulCommitCodec [CommitCodec] : Prop where
  encode_skip : ∀ (c : Commit) (cid : Option Cid),
    CommitCodec.encodeCommit { c with cid := cid } = CommitCodec.encodeCommit c
  decode_encode : ∀ {c : Commit} {data : Bytes}, CommitCodec.encodeCommit c = .ok data →
    ∃ c', CommitCodec.decodeCommit data = .ok c' ∧ c'.Same c

section Model

variable [CommitCodec] [HashCrate]

/-- `Commit::new`, at the time `now`. -/
def Commit.new (parents : List Cid) (root : Cid) (message : String) (author : Author)
    (metadata : AList fun _ : String => String) (now : UInt64) : Commit where
  cid := none
  parents := parents
  root := root
  message := message
  author := author
  timestamp := now
  metadata := metadata

def Commit.toBlock (c : Commit) : Except Error Block :=
  match CommitCodec.encodeCommit c with
  | .error e => .error (.serialization ("Failed to serialize commit: " ++ e))
  | .ok bytes => Block.new bytes

/-- `Commit::finalize`, which encodes the commit as `to_block` does. -/
def Commit.finalize (c : Commit) : Except Error (Commit × Cid) :=
  match c.toBlock with
  | .error e => .error e
  | .ok block => .ok ({ c with cid := some block.cid }, block.cid)

omit [HashCrate] in
def Commit.fromBlock (block : Block) : Except Error Commit :=
  match CommitCodec.decodeCommit block.data with
  | .error e => .error (.serialization ("Failed to deserialize commit: " ++ e))
  | .ok commit => .ok { commit with cid := some block.cid }

def Ref.toBlock (r : Ref) : Except Error Block :=
  match CommitCodec.encodeRef r with
  | .error e => .error (.serialization ("Failed to serialize ref: " ++ e))
  | .ok bytes => Block.new bytes

end Model

structure VersionControl (S : Type) where
  store : S
  currentBranch : String
  head : Option Cid
  refsCache : AList fun _ : String => Cid

namespace VersionControl

variable {S : Type}

/-- The naming convention for tags: a name that starts with `refs/tags/` or contains `/tags/`. -/
def namesTag (name : String) : Bool :=
  "refs/tags/".toList.isPrefixOf name.toList || name.toList.tails.any ("/tags/".toList.isPrefixOf ·)

def new (store : S) : VersionControl S where
  store := store
  currentBranch := "main"
  head := none
  refsCache := ∅

section Queries

variable [BlockStore S] [CommitCodec] [CidText]

/-- How a commit is read: the block of the CID, which has to be there and to decode. `what` is the
name that the error has for it. -/
def loadCommit (store : S) (what : String) (cid : Cid) : Except Error Commit :=
  match BlockStore.get store cid with
  | .error e => .error e
  | .ok none => .error (.notFound (what ++ " not found: " ++ CidText.toString cid))
  | .ok (some block) => Commit.fromBlock block

/-- One round of the searches, on the stack of commits and the ones that have been visited. The
search ends at a commit that passes the test, or with an empty stack; the visited commits are
returned as well. -/
def walkStep (store : S) (found : Cid → Bool) :
    List Cid × List Cid → (List Cid × List Cid) ⊕ Except Error (Option Cid × List Cid)
  | ([], visited) => .inr (.ok (none, visited))
  | (cid :: queue, visited) =>
    if cid ∈ visited then .inl (queue, visited)
    else if found cid then .inr (.ok (some cid, visited ++ [cid]))
    else
      match loadCommit store "Commit" cid with
      | .error e => .inr (.error e)
      | .ok commit => .inl (commit.parents.reverse ++ queue, visited ++ [cid])

/-- A search from one commit, with at most `fuel` rounds. -/
def walk (store : S) (found : Cid → Bool) (fuel : ℕ) (start : Cid) :
    Option (Except Error (Option Cid × List Cid)) :=
  WhileLoop.run (walkStep store found) fuel ([start], [])

variable (vc : VersionControl S)

def findCommonAncestor (fuel : ℕ) (commit₁ commit₂ : Cid) : Option (Except Error (Option Cid)) :=
  -- all ancestors of the first commit
  match walk vc.store (fun _ => false) fuel commit₁ with
  | none => none
  | some (.error e) => some (.error e)
  | some (.ok (_, ancestors₁)) =>
    match walk vc.store (fun cid => cid ∈ ancestors₁) fuel commit₂ with
    | none => none
    | some (.error e) => some (.error e)
    | some (.ok (result, _)) => some (.ok result)

def isAncestor (fuel : ℕ) (ancestor descendant : Cid) : Option (Except Error Bool) :=
  if ancestor = descendant then some (.ok true)
  else
    match walk vc.store (fun cid => cid = ancestor) fuel descendant with
    | none => none
    | some (.error e) => some (.error e)
    | some (.ok (result, _)) => some (.ok result.isSome)

def checkout (commitCid : Cid) : VersionControl S × Except Error Cid :=
  match loadCommit vc.store "Commit" commitCid with
  | .error e => (vc, .error e)
  | .ok commit => ({ vc with head := some commitCid }, .ok commit.root)

omit [BlockStore S] [CommitCodec] [CidText] in
/-- `get_ref`. The type of the ref is read off its name. -/
def getRef (name : String) : Except Error Ref :=
  match vc.refsCache.lookup name with
  | some commitCid => .ok ⟨name, commitCid, if namesTag name then .tag else .branch⟩
  | none => .error (.notFound ("Ref not found: " ++ name))

def checkoutRef (refName : String) : VersionControl S × Except Error Cid :=
  match vc.getRef refName with
  | .error e => (vc, .error e)
  | .ok refObj =>
    let vc := if refObj.refType = .branch then { vc with currentBranch := refName } else vc
    vc.checkout refObj.commit

end Queries

section Updates

variable [BlockStore S] [CommitCodec] [HashCrate]

variable (vc : VersionControl S)

/-- `update_ref`. The ref is in the cache before anything can fail. -/
def updateRef (name : String) (commit : Cid) (refType : RefType) :
    VersionControl S × Except Error Unit :=
  let vc := { vc with refsCache := vc.refsCache.insert name commit }
  match Ref.toBlock ⟨name, commit, refType⟩ with
  | .error e => (vc, .error e)
  | .ok refBlock =>
    match BlockStore.put vc.store refBlock with
    | .error e => (vc, .error e)
    | .ok store => ({ vc with store := store }, .ok ())

def commit (root : Cid) (message : String) (author : Author)
    (metadata : AList fun _ : String => String) (now : UInt64) :
    VersionControl S × Except Error Cid :=
  match (Commit.new vc.head.toList root message author metadata now).finalize with
  | .error e => (vc, .error e)
  | .ok (commit, commitCid) =>
    match commit.toBlock with
    | .error e => (vc, .error e)
    | .ok commitBlock =>
      match BlockStore.put vc.store commitBlock with
      | .error e => (vc, .error e)
      | .ok store =>
        let vc := { vc with store := store, head := some commitCid }
        match vc.updateRef vc.currentBranch commitCid .branch with
        | (vc, .error e) => (vc, .error e)
        | (vc, .ok ()) => (vc, .ok commitCid)

/-- `create_branch` and `create_tag`, at the current HEAD. -/
def createRef (name : String) (refType : RefType) : VersionControl S × Except Error Unit :=
  match vc.head with
  | none => (vc, .error (.storage "No HEAD commit"))
  | some head => vc.updateRef name head refType

def createBranch (branchName : String) : VersionControl S × Except Error Unit :=
  vc.createRef branchName .branch

def createTag (tagName : String) : VersionControl S × Except Error Unit :=
  vc.createRef tagName .tag

omit [BlockStore S] [CommitCodec] [HashCrate] in
/-- HEAD and the current branch move. -/
def moveTo (store : S) (target : Cid) : VersionControl S :=
  { vc with
    store := store
    head := some target
    refsCache := vc.refsCache.insert vc.currentBranch target }

/-- The merge commit of `merge`: the strategy picks the root. -/
def mergeCommit (headCid branchCid : Cid) (headCommit branchCommit : Commit) (message : String)
    (author : Author) (strategy : MergeStrategy) (now : UInt64) : Commit :=
  let mergeRoot := if strategy = .ours then headCommit.root else branchCommit.root
  .new [headCid, branchCid] mergeRoot message author ∅ now

def merge [CidText] (vc : VersionControl S) (fuel : ℕ) (branchCid : Cid) (message : String)
    (author : Author) (strategy : MergeStrategy) (now : UInt64) :
    Option (VersionControl S × Except Error MergeResult) :=
  match vc.head with
  | none => some (vc, .error (.storage "No HEAD commit"))
  | some headCid =>
    if headCid = branchCid then some (vc, .ok (.fastForward headCid))
    else
      match vc.isAncestor fuel headCid branchCid with
      | none => none
      | some (.error e) => some (vc, .error e)
      | some (.ok true) => some (vc.moveTo vc.store branchCid, .ok (.fastForward branchCid))
      | some (.ok false) =>
        if strategy = .fastForward then
          some (vc, .error (.storage "Fast-forward not possible, branches have diverged"))
        else
          match loadCommit vc.store "HEAD commit" headCid with
          | .error e => some (vc, .error e)
          | .ok headCommit =>
            match loadCommit vc.store "Branch commit" branchCid with
            | .error e => some (vc, .error e)
            | .ok branchCommit =>
              match (mergeCommit headCid branchCid headCommit branchCommit message author strategy
                now).finalize with
              | .error e => some (vc, .error e)
              | .ok (commit, mergeCid) =>
                match commit.toBlock with
                | .error e => some (vc, .error e)
                | .ok mergeBlock =>
                  match BlockStore.put vc.store mergeBlock with
                  | .error e => some (vc, .error e)
                  | .ok store => some (vc.moveTo store mergeCid, .ok (.mergeCommit mergeCid))

end Updates

end VersionControl

end Ipfrs.Vcs
