import Mathlib.Data.List.AList
import Ipfrs.Core.Manifest
import Ipfrs.Lib.StableSort
import Ipfrs.Lib.WhileLoop

/-!
# The versioned object store

`ObjectVersionStore` (`ipfrs-storage/src/object_version_store.rs`): versions of objects, each with a
link to the version that it was made from, branches that point to versions, and a collector that
removes versions by a policy. A `HashMap` is a list of entries without repeated keys, in its order
of iteration. Sums are checked, as in a debug build. A loop is given as many rounds as it can need,
and `VsFault.rounds` says that it wanted more. What only `get` looks for is left out.
-/

namespace Ipfrs.Storage

/-! ### Data -/

inductive VsError where
  | versionNotFound (version : ℕ)
  | branchNotFound (branch : String)
  | branchAlreadyExists (branch : String)
  | maxVersionsReached
  | maxBranchesReached
  deriving DecidableEq, Repr

/-- How an operation can end without a result: with an error, with a panic, or not at all. -/
inductive VsFault where
  | error (e : VsError)
  | panic (msg : String)
  | rounds
  deriving DecidableEq, Repr

structure OvsObjectVersion where
  version : ℕ
  cid : String
  data : Bytes
  parentVersion : Option ℕ
  createdAt : ℕ
  tags : List String
  sizeBytes : ℕ
  deriving DecidableEq, Repr

structure VersionBranch where
  name : String
  headVersion : ℕ
  createdAt : ℕ
  parentBranch : Option String
  deriving DecidableEq, Repr

inductive OvsGcPolicy where
  | keepAll
  | keepLast (n : ℕ)
  | keepSince (t : ℕ)
  | keepTagged
  deriving DecidableEq, Repr

structure VersionStoreConfig where
  maxVersions : ℕ := 10000
  maxBranches : ℕ := 100
  gcPolicy : OvsGcPolicy := .keepAll
  deriving DecidableEq, Repr

structure ObjectVersionStore where
  config : VersionStoreConfig
  versions : AList fun _ : ℕ => OvsObjectVersion
  branches : AList fun _ : String => VersionBranch
  nextVersion : ℕ
  totalBytes : ℕ
  deletedVersions : ℕ

/-- A sum of `u64`s. -/
def addCounter (a b : ℕ) : Except VsFault ℕ :=
  if a + b < 2 ^ 64 then .ok (a + b) else .error (.panic "attempt to add with overflow")

/-- What a loop returns. -/
def ofRounds {α : Type} : Option α → Except VsFault α
  | some a => .ok a
  | none => .error .rounds

namespace ObjectVersionStore

def new (config : VersionStoreConfig) : ObjectVersionStore where
  config := config
  versions := ∅
  branches := AList.singleton "main" ⟨"main", 0, 0, none⟩
  nextVersion := 1
  totalBytes := 0
  deletedVersions := 0

/-! ### Collection -/

/-- The parent of a version, if it is there and has one. -/
def parentsAt (versions : AList fun _ : ℕ => OvsObjectVersion) (v : ℕ) : List ℕ :=
  match versions.lookup v with
  | some ver => ver.parentVersion.toList
  | none => []

/-- The body of the loop of `reachable_from_heads`, with the queue and the reachable versions. -/
def reachStep (versions : AList fun _ : ℕ => OvsObjectVersion) :
    List ℕ × List ℕ → (List ℕ × List ℕ) ⊕ List ℕ
  | ([], reachable) => .inr reachable
  | (v :: queue, reachable) =>
    if v ∈ reachable then .inl (queue, reachable)
    else .inl (queue ++ parentsAt versions v, reachable ++ [v])

variable (s : ObjectVersionStore)

/-- The branch heads, without the sentinel. -/
def heads : List ℕ :=
  (s.branches.entries.map fun entry => entry.2.headVersion).filter fun v => v ≠ 0

def reachableFromHeads : Except VsFault (List ℕ) :=
  ofRounds <| WhileLoop.run (reachStep s.versions)
    (2 * s.versions.entries.length + s.branches.entries.length + 1) (s.heads, [])

/-- One round of the loop of `remove_versions`, with the number of versions that are removed. -/
def removeStep (st : ObjectVersionStore × ℕ) (v : ℕ) : ObjectVersionStore × ℕ :=
  match st.1.versions.lookup v with
  | some ov =>
    ({ st.1 with
        versions := st.1.versions.erase v
        totalBytes := st.1.totalBytes - ov.sizeBytes }, st.2 + 1)
  | none => st

def removeVersions (toDelete : List ℕ) : Except VsFault (ObjectVersionStore × ℕ) := do
  let (s, count) := toDelete.foldl removeStep (s, 0)
  let deletedVersions ← addCounter s.deletedVersions count
  return ({ s with deletedVersions }, count)

/-- `sort_unstable`, of version numbers. -/
def sortUnstable (l : List ℕ) : List ℕ := StableSort.sortBy id l

def gc : Except VsFault (ObjectVersionStore × ℕ) :=
  match s.config.gcPolicy with
  | .keepAll => .ok (s, 0)
  | .keepLast n => do
    let reachable ← s.reachableFromHeads
    let candidates := sortUnstable (s.versions.keys.filter fun v => v ∉ reachable)
    let allSorted := sortUnstable s.versions.keys
    let keepThreshold ← if allSorted.length > n then
        match allSorted[allSorted.length - n]? with
        | some v => .ok v
        | none => .error (.panic "index out of bounds")
      else .ok 0
    s.removeVersions (candidates.filter fun v => v < keepThreshold)
  | .keepSince t => do
    let reachable ← s.reachableFromHeads
    s.removeVersions ((s.versions.entries.filter fun entry =>
      entry.2.createdAt < t ∧ entry.1 ∉ reachable).map Sigma.fst)
  | .keepTagged => do
    let reachable ← s.reachableFromHeads
    s.removeVersions ((s.versions.entries.filter fun entry =>
      entry.2.tags = [] ∧ entry.1 ∉ reachable).map Sigma.fst)

/-! ### Versions and branches -/

def insertVersion (data : Bytes) (tags : List String) (parentVersion : Option ℕ) (now : ℕ) :
    Except VsFault (ObjectVersionStore × ℕ) := do
  let sizeBytes := data.length
  let version := s.nextVersion
  let nextVersion ← addCounter s.nextVersion 1
  let totalBytes ← addCounter s.totalBytes sizeBytes
  return ({ s with
    versions := s.versions.insert version
      ⟨version, Manifest.fnv1aHex data, data, parentVersion, now, tags, sizeBytes⟩
    nextVersion, totalBytes }, version)

def branchHead (branchName : String) : Option ℕ :=
  (s.branches.lookup branchName).map VersionBranch.headVersion

def setBranchHead (branchName : String) (version : ℕ) : ObjectVersionStore :=
  match s.branches.lookup branchName with
  | some b => { s with branches := s.branches.replace branchName { b with headVersion := version } }
  | none => s

/-- The collection before a version is inserted. -/
def gcWhenFull : Except VsFault ObjectVersionStore :=
  if s.versions.entries.length ≥ s.config.maxVersions then s.gc.map Prod.fst else .ok s

def put (data : Bytes) (tags : List String) (now : ℕ) :
    Except VsFault (ObjectVersionStore × ℕ) := do
  let s ← s.gcWhenFull
  let parent := (s.branchHead "main").filter fun v => v ≠ 0
  let (s, version) ← s.insertVersion data tags parent now
  return (s.setBranchHead "main" version, version)

def putOnBranch (branch : String) (data : Bytes) (tags : List String) (now : ℕ) :
    Except VsFault (ObjectVersionStore × ℕ) :=
  if branch ∉ s.branches then .error (.error (.branchNotFound branch))
  else do
    let s ← s.gcWhenFull
    let parent := (s.branchHead branch).filter fun v => v ≠ 0
    let (s, version) ← s.insertVersion data tags parent now
    return (s.setBranchHead branch version, version)

def createBranch (name : String) (fromVersion now : ℕ) : Except VsFault ObjectVersionStore :=
  if name ∈ s.branches then .error (.error (.branchAlreadyExists name))
  else if fromVersion ∉ s.versions then .error (.error (.versionNotFound fromVersion))
  else if s.branches.entries.length ≥ s.config.maxBranches then
    .error (.error .maxBranchesReached)
  else .ok { s with branches := s.branches.insert name ⟨name, fromVersion, now, none⟩ }

def mergeBranch (source target : String) (now : ℕ) : Except VsFault (ObjectVersionStore × ℕ) :=
  match s.branchHead source with
  | none => .error (.error (.branchNotFound source))
  | some sourceHead =>
    if target ∉ s.branches then .error (.error (.branchNotFound target))
    else
      match s.versions.lookup sourceHead with
      | none => .error (.error (.versionNotFound sourceHead))
      | some srcVer => do
        let s ← s.gcWhenFull
        let (s, version) ← s.insertVersion srcVer.data srcVer.tags (some sourceHead) now
        return (s.setBranchHead target version, version)

/-! ### History -/

/-- The body of the loop of `history`, with the current version, those that were visited, and the
result. -/
def historyStep (versions : AList fun _ : ℕ => OvsObjectVersion) :
    Option ℕ × List ℕ × List OvsObjectVersion →
      (Option ℕ × List ℕ × List OvsObjectVersion) ⊕ List OvsObjectVersion
  | (none, _, result) => .inr result
  | (some v, visited, result) =>
    if v ∈ visited then .inr result
    else
      match versions.lookup v with
      | some ver => .inl (ver.parentVersion, v :: visited, result ++ [ver])
      | none => .inr result

def history (branch : String) : Except VsFault (List OvsObjectVersion) :=
  match s.branchHead branch with
  | none => .error (.error (.branchNotFound branch))
  | some head =>
    let current := if head = 0 then none else some head
    ofRounds <| WhileLoop.run (historyStep s.versions) (s.versions.entries.length + 1)
      (current, [], [])

/-! ### Runs -/

/-- A step of a run: an operation that returns, or another order of iteration. -/
inductive Step (s : ObjectVersionStore) : ObjectVersionStore → Prop
  | put {s' : ObjectVersionStore} {data : Bytes} {tags : List String} {now version : ℕ}
      (h : s.put data tags now = .ok (s', version)) : Step s s'
  | putOnBranch {s' : ObjectVersionStore} {branch : String} {data : Bytes} {tags : List String}
      {now version : ℕ} (h : s.putOnBranch branch data tags now = .ok (s', version)) : Step s s'
  | createBranch {s' : ObjectVersionStore} {name : String} {fromVersion now : ℕ}
      (h : s.createBranch name fromVersion now = .ok s') : Step s s'
  | mergeBranch {s' : ObjectVersionStore} {source target : String} {now version : ℕ}
      (h : s.mergeBranch source target now = .ok (s', version)) : Step s s'
  | gc {s' : ObjectVersionStore} {count : ℕ} (h : s.gc = .ok (s', count)) : Step s s'
  | reorder {versions : AList fun _ : ℕ => OvsObjectVersion}
      {branches : AList fun _ : String => VersionBranch}
      (hversions : versions.entries.Perm s.versions.entries)
      (hbranches : branches.entries.Perm s.branches.entries) :
      Step s { s with versions, branches }

/-- The states that a store with this configuration can come to. -/
def Reachable (config : VersionStoreConfig) (s : ObjectVersionStore) : Prop :=
  Relation.ReflTransGen Step (new config) s

end ObjectVersionStore

end Ipfrs.Storage
