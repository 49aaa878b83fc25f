import Ipfrs.Lib.FileSystem
import Ipfrs.Node.DagOps

/-!
# Directories

`Node::add_directory` and `Node::get_directory` (`ipfrs/src/node/block_ops.rs`): a directory tree is
stored as blocks and written back. A file is stored as it is, a directory as a map from names to
links, and a link does not say which of the two it leads to. `get_directory` finds out by reading
the bytes of every entry as DAG-CBOR: the bytes of a file that are no DAG-CBOR make it fail, and
those that begin with a map make it write a directory (`getDirectory_addDirectory_iff`).

Names are strings, so the error for names that are not UTF-8 does not occur. A path is the list of
its names; `join` appends one.
-/

namespace Ipfrs

namespace Node

/-- A directory tree of files. -/
abbrev Tree := FileTree String Bytes

/-- The file system. -/
abbrev Fs := FileSystem String Bytes

/-- An error of the file system, as an `Error`. -/
def liftIo {α : Type} : Except String α → Except Error α
  | .ok a => .ok a
  | .error e => .error (.io e)

section Model

variable {S : Type} [BlockStore S] [HashCrate] [CidCrate]

mutual

def addDirectory (n : Node S) (dirPath : String) : Tree → Except Error (Node S × Cid)
  | .dir dirEntries => do
    let (n, entries) ← addEntries n dirPath dirEntries []
    n.dagPut (.map entries)
  | _ => .error (.invalidData ("Path is not a directory: " ++ dirPath))

/-- The loop of `add_directory` over the entries it has listed. -/
def addEntries (n : Node S) (dirPath : String) :
    List (String × Tree) → List (String × Ipld) → Except Error (Node S × List (String × Ipld))
  | [], entries => .ok (n, entries)
  | (fileName, .file data) :: dirEntries, entries => do
    let (n, cid) ← n.addFile data
    addEntries n dirPath dirEntries (SortedMap.insert fileName (.link cid) entries)
  | (fileName, .dir subEntries) :: dirEntries, entries => do
    let (n, subdirCid) ← addDirectory n (dirPath ++ "/" ++ fileName) (.dir subEntries)
    addEntries n dirPath dirEntries (SortedMap.insert fileName (.link subdirCid) entries)
  -- symbolic links and the like are skipped
  | (_, .other) :: dirEntries, entries => addEntries n dirPath dirEntries entries

end

omit [HashCrate]

variable [CidText]

/-- The body of the loop of `get_directory`, for a link. The recursive call is an argument. -/
def getEntry (n : Node S) (getDirectory : Cid → List String → Fs → Option (Except Error Fs))
    (link : Cid) (entryPath : List String) (fs : Fs) : Option (Except Error Fs) :=
  match n.dagGet link with
  -- the `?` after `dag_get`: bytes that are no DAG-CBOR end the whole call
  | .error e => some (.error e)
  | .ok none => some (.ok fs)
  | .ok (some (.map _)) => getDirectory link entryPath fs
  | .ok (some _) =>
    match n.get link with
    | .error e => some (.error e)
    | .ok (some bytes) => some (liftIo (fs.write entryPath bytes))
    | .ok none => some (.ok fs)

/-- The loop of `get_directory` over the entries of a map. -/
def getEntries (n : Node S) (getDirectory : Cid → List String → Fs → Option (Except Error Fs))
    (outputPath : List String) : List (String × Ipld) → Fs → Option (Except Error Fs)
  | [], fs => some (.ok fs)
  | (name, .link link) :: entries, fs =>
    match getEntry n getDirectory link (outputPath ++ [name]) fs with
    | some (.ok fs) => getEntries n getDirectory outputPath entries fs
    | r => r
  | (name, _) :: _, _ =>
    some (.error (.invalidData ("Unexpected value type in directory for entry: " ++ name)))

/-- `Node::get_directory`. `none` says that the recursion went deeper than `fuel`. -/
def getDirectory (n : Node S) : ℕ → Cid → List String → Fs → Option (Except Error Fs)
  | 0, _, _, _ => none
  | fuel + 1, cid, outputPath, fs =>
    match liftIo (fs.createDirAll outputPath) with
    | .error e => some (.error e)
    | .ok fs =>
      match n.dagGet cid with
      | .error e => some (.error e)
      | .ok none => some (.error (.notFound ("Directory not found: " ++ CidText.toString cid)))
      | .ok (some (.map entries)) => getEntries n (getDirectory n fuel) outputPath entries fs
      | .ok (some _) => some (.error (.invalidData
          ("CID does not point to a directory structure: " ++ CidText.toString cid)))

end Model

/-! ### What a tree is stored as -/

section Stored

variable [HashCrate] [CidCrate]

mutual

/-- The data of the block that stands for a tree. -/
def blockData : Tree → Bytes
  | .file data => data
  | .dir entries => encodeDagCbor (.map (dirLinks entries []))
  | .other => []

/-- The links to the entries of a directory, added to a map. -/
def dirLinks : List (String × Tree) → List (String × Ipld) → List (String × Ipld)
  | [], links => links
  | (name, .file data) :: entries, links =>
    dirLinks entries
      (SortedMap.insert name (.link (Cid.ofData Codec.raw .sha256 (blockData (.file data)))) links)
  | (name, .dir sub) :: entries, links =>
    dirLinks entries
      (SortedMap.insert name (.link (Cid.ofData Codec.raw .sha256 (blockData (.dir sub)))) links)
  | (_, .other) :: entries, links => dirLinks entries links

end

/-- The CID of a tree. -/
def treeCid (t : Tree) : Cid := Cid.ofData Codec.raw .sha256 (blockData t)

/-- The data of the blocks that a tree is stored as. -/
inductive IsBlock : Tree → Bytes → Prop
  | file (data : Bytes) : IsBlock (.file data) data
  | dir (entries : List (String × Tree)) : IsBlock (.dir entries) (blockData (.dir entries))
  | entry {entries : List (String × Tree)} {e : String × Tree} {data : Bytes}
      (he : e ∈ entries) (h : IsBlock e.2 data) : IsBlock (.dir entries) data

theorem dirLinks_cons {name : String} {t : Tree} (ht : t ≠ .other)
    (entries : List (String × Tree)) (links : List (String × Ipld)) :
    dirLinks ((name, t) :: entries) links
      = dirLinks entries (SortedMap.insert name (.link (treeCid t)) links) := by
  cases t with
  | file data => rfl
  | dir sub => rfl
  | other => exact absurd rfl ht

variable {entries : List (String × Tree)} {links : List (String × Ipld)}

theorem dirLinks_sorted (h : SortedMap.Sorted links) :
    SortedMap.Sorted (dirLinks entries links) := by
  induction entries generalizing links with
  | nil => exact h
  | cons e entries ih =>
    obtain ⟨name, t⟩ := e
    by_cases ht : t = .other
    · rw [ht]
      exact ih h
    · rw [dirLinks_cons ht]
      exact ih (h.insert _ _)

/-- A directory links to its files and directories, each under its name. -/
theorem mem_dirLinks_iff (hnodup : (entries.map Prod.fst).Nodup)
    (hnew : ∀ e ∈ entries, ∀ e' ∈ links, e'.1 ≠ e.1) (name : String) (x : Ipld) :
    (name, x) ∈ dirLinks entries links ↔
      (name, x) ∈ links ∨ ∃ t, (name, t) ∈ entries ∧ t ≠ .other ∧ x = .link (treeCid t) := by
  induction entries generalizing links with
  | nil => simp [dirLinks]
  | cons e entries ih =>
    obtain ⟨name', t'⟩ := e
    rw [List.map_cons, List.nodup_cons] at hnodup
    have hnew' : ∀ e ∈ entries, ∀ e' ∈ links, e'.1 ≠ e.1 :=
      fun e he => hnew e (List.mem_cons_of_mem _ he)
    by_cases ht : t' = .other
    · -- a skipped entry has no link
      subst ht
      change (name, x) ∈ dirLinks entries links ↔ _
      rw [ih hnodup.2 hnew']
      refine or_congr_right (exists_congr fun t => ?_)
      rw [List.mem_cons, Prod.mk.injEq, or_and_right]
      refine (or_iff_right ?_).symm
      rintro ⟨⟨-, rfl⟩, hne, -⟩
      exact hne rfl
    · -- the link of the first entry is new, and the rest goes by induction
      rw [dirLinks_cons ht, ih hnodup.2, SortedMap.mem_insert_iff_of_new
        (hnew _ List.mem_cons_self), or_comm (a := (name, x) = _), or_assoc]
      · refine or_congr_right ?_
        simp only [List.mem_cons, Prod.mk.injEq]
        constructor
        · rintro (⟨rfl, rfl⟩ | ⟨t, hmem, hne, rfl⟩)
          exacts [⟨t', Or.inl ⟨rfl, rfl⟩, ht, rfl⟩, ⟨t, Or.inr hmem, hne, rfl⟩]
        · rintro ⟨t, ⟨rfl, rfl⟩ | hmem, hne, rfl⟩
          exacts [Or.inl ⟨rfl, rfl⟩, Or.inr ⟨t, hmem, hne, rfl⟩]
      · intro e he e' he'
        rcases SortedMap.mem_insert he' with rfl | he'
        · rintro heq
          exact hnodup.1 (List.mem_map.mpr ⟨e, he, heq.symm⟩)
        · exact hnew' e he e' he'

theorem fromDagCbor_dir [LawfulCidCrate] (hnodup : (entries.map Prod.fst).Nodup)
    (hsize : (blockData (.dir entries)).length ≤ maxBlockSize) :
    Ipld.fromDagCbor (blockData (.dir entries)) = .ok (.map (dirLinks entries [])) := by
  -- the values are links, so what is left to bound are the keys and their number
  have hlinks : ∀ e ∈ dirLinks entries [], ∃ c, e.2 = .link c := by
    rintro ⟨name, x⟩ he
    rcases (mem_dirLinks_iff hnodup (by simp) name x).mp he with he | ⟨t, -, -, rfl⟩
    exacts [absurd he List.not_mem_nil, ⟨_, rfl⟩]
  have hle : (encodeEntries (dirLinks entries [])).length < 2 ^ 64 := by
    rw [blockData, encodeDagCbor, List.length_append] at hsize
    have hmax : maxBlockSize < 2 ^ 64 := by decide
    omega
  have hvalid : (Ipld.map (dirLinks entries [])).Valid := by
    refine ⟨lt_of_le_of_lt (length_le_encodeEntries _) hle, dirLinks_sorted List.Pairwise.nil, ?_⟩
    refine Ipld.validMap_iff.mpr fun e he => ⟨lt_of_le_of_lt (key_le_encodeEntries he) hle, ?_⟩
    obtain ⟨c, hc⟩ := hlinks e he
    rw [hc]
    trivial
  have hfit : (Ipld.map (dirLinks entries [])).IntsFit := by
    refine Ipld.intsFitMap_iff.mpr fun e he => ?_
    obtain ⟨c, hc⟩ := hlinks e he
    rw [hc]
    trivial
  exact fromDagCbor_encodeDagCbor hvalid hfit

end Stored

/-! ### Adding a directory -/

section Add

variable [HashCrate] {S : Type} [StoreView S]

/-- The data of a store is among `D`, and whatever is stored under the CID of a raw SHA2-256 block
hashes to it. -/
def Intact (s : S) (D : Set Bytes) : Prop :=
  ∀ {c : Cid} {data : Bytes}, view s c = some data →
    data ∈ D ∧ ∀ d, Cid.ofData Codec.raw .sha256 d = c → Cid.ofData Codec.raw .sha256 data = c

/-- The data is stored as a raw SHA2-256 block. -/
def Holds (s : S) (data : Bytes) : Prop := view s (Cid.ofData Codec.raw .sha256 data) = some data

/-- How a store grows while blocks with data among `D` are put. -/
structure Grows (D : Set Bytes) (s s' : S) : Prop where
  intact : Intact s' D
  keeps : ∀ d ∈ D, Holds s d → Holds s' d

variable {D : Set Bytes} {s s' : S} {n n' : Node S} {t : Tree}

omit [HashCrate] in
theorem Grows.trans [HashCrate] {s₁ s₂ s₃ : S} (h : Grows D s₁ s₂) (h' : Grows D s₂ s₃) :
    Grows D s₁ s₃ :=
  ⟨h'.intact, fun d hd hs => h'.keeps d hd (h.keeps d hd hs)⟩

variable [BlockStore S] [LawfulBlockStore S]

/-- Putting a raw block into an intact store. A store that keeps a block it has already keeps the
same data, unless two data collide. -/
theorem Intact.put (hfree : HashCrate.CollisionFree .sha256 D) (hs : Intact s D) {data : Bytes}
    (hdata : data ∈ D)
    (hput : BlockStore.put s ⟨Cid.ofData Codec.raw .sha256 data, data⟩ = .ok s') :
    Grows D s s' ∧ Holds s' data := by
  obtain ⟨hnew, hother⟩ := LawfulBlockStore.put_ok hput
  have hholds : Holds s' data := by
    rcases hnew with hnew | ⟨hsome, hkept⟩
    · exact hnew
    · -- the block that was there already hashes to the same CID
      obtain ⟨data', hview⟩ := Option.isSome_iff_exists.mp hsome
      obtain ⟨hdata', hcid⟩ := hs hview
      obtain rfl := (hfree.eq_of_ofData hdata' hdata (hcid data rfl)).2
      exact hkept.trans hview
  refine ⟨⟨fun {c d} hview => ?_, fun d hd hsd => ?_⟩, hholds⟩
  · -- the store is intact: at the new CID, and elsewhere as before
    by_cases hc : c = Cid.ofData Codec.raw .sha256 data
    · subst hc
      obtain rfl := Option.some.inj (hholds.symm.trans hview)
      exact ⟨hdata, fun _ _ => rfl⟩
    · rw [hother c hc] at hview
      exact hs hview
  · -- what was held is held
    by_cases hc : Cid.ofData Codec.raw .sha256 d = Cid.ofData Codec.raw .sha256 data
    · obtain rfl := (hfree.eq_of_ofData hd hdata hc).2
      exact hholds
    · exact (hother _ hc).trans hsd

theorem addFile_spec (hfree : HashCrate.CollisionFree .sha256 D) (hn : n.storage = some s)
    (hs : Intact s D) {data : Bytes} (hdata : data ∈ D) {c : Cid}
    (h : n.addFile data = .ok (n', c)) :
    c = Cid.ofData Codec.raw .sha256 data ∧ ∃ s', n'.storage = some s' ∧ Grows D s s' ∧
      Holds s' data ∧ data.length ≤ maxBlockSize := by
  obtain ⟨s₀, s', hn₀, hsize, hput, rfl, rfl⟩ := addFile_eq_ok h
  obtain rfl := Option.some.inj (hn.symm.trans hn₀)
  obtain ⟨hgrows, hholds⟩ := hs.put hfree hdata hput
  exact ⟨rfl, s', rfl, hgrows, hholds, hsize.2⟩

variable [CidCrate]

/-- The blocks of a tree are all stored. -/
def TreeStored (s : S) (t : Tree) : Prop :=
  ∀ d, IsBlock t d → Holds s d ∧ d.length ≤ maxBlockSize

omit [BlockStore S] [LawfulBlockStore S] in
theorem TreeStored.mono (h : TreeStored s t) (ht : ∀ d, IsBlock t d → d ∈ D)
    (hgrows : Grows D s s') : TreeStored s' t :=
  fun d hd => ⟨hgrows.keeps d (ht d hd) (h d hd).1, (h d hd).2⟩

/-- What adding a tree does to the node. -/
def AddsTree (D : Set Bytes) (t : Tree) : Prop :=
  ∀ {n n' : Node S} {s : S} {dirPath : String} {c : Cid}, n.storage = some s → Intact s D →
    n.addDirectory dirPath t = .ok (n', c) →
      c = treeCid t ∧ ∃ s', n'.storage = some s' ∧ Grows D s s' ∧ TreeStored s' t

theorem addEntries_spec (hfree : HashCrate.CollisionFree .sha256 D)
    {dirEntries : List (String × Tree)} (ih : ∀ e ∈ dirEntries, AddsTree (S := S) D e.2)
    (hD : ∀ e ∈ dirEntries, ∀ d, IsBlock e.2 d → d ∈ D) {dirPath : String}
    {entries entries' : List (String × Ipld)} (hn : n.storage = some s) (hs : Intact s D)
    (h : n.addEntries dirPath dirEntries entries = .ok (n', entries')) :
    entries' = dirLinks dirEntries entries ∧ ∃ s', n'.storage = some s' ∧ Grows D s s' ∧
      ∀ e ∈ dirEntries, TreeStored s' e.2 := by
  induction dirEntries generalizing n s entries with
  | nil =>
    obtain ⟨rfl, rfl⟩ := Prod.mk.inj (Except.ok.inj h)
    exact ⟨rfl, s, hn, ⟨hs, fun _ _ h => h⟩, fun _ he => absurd he List.not_mem_nil⟩
  | cons e dirEntries ihs =>
    obtain ⟨name, t⟩ := e
    have hDt := hD _ List.mem_cons_self
    -- one entry, whichever way it is stored, and the rest
    suffices hentry : ∀ (n₁ : Node S) c s₁, c = treeCid t → n₁.storage = some s₁ → Grows D s s₁ →
        TreeStored s₁ t →
        n₁.addEntries dirPath dirEntries (SortedMap.insert name (.link c) entries)
          = .ok (n', entries') → t ≠ .other →
        entries' = dirLinks ((name, t) :: dirEntries) entries ∧ ∃ s', n'.storage = some s' ∧
          Grows D s s' ∧ ∀ e ∈ (name, t) :: dirEntries, TreeStored s' e.2 by
      cases t with
      | file data =>
        obtain ⟨⟨n₁, c⟩, hadd, h⟩ := Except.bind_eq_ok_iff.mp h
        obtain ⟨hc, s₁, hn₁, hgrows, hholds, hsize⟩ :=
          addFile_spec hfree hn hs (hDt data (.file data)) hadd
        refine hentry n₁ c s₁ hc hn₁ hgrows (fun d hd => ?_) h (by simp)
        -- a file is one block
        cases hd
        exact ⟨hholds, hsize⟩
      | dir sub =>
        obtain ⟨⟨n₁, c⟩, hadd, h⟩ := Except.bind_eq_ok_iff.mp h
        obtain ⟨hc, s₁, hn₁, hgrows, hstored⟩ := ih _ List.mem_cons_self hn hs hadd
        exact hentry n₁ c s₁ hc hn₁ hgrows hstored h (by simp)
      | other =>
        obtain ⟨rfl, s', hn', hgrows, hstored⟩ :=
          ihs (fun e he => ih e (List.mem_cons_of_mem _ he))
            (fun e he => hD e (List.mem_cons_of_mem _ he)) hn hs h
        refine ⟨rfl, s', hn', hgrows, List.forall_mem_cons.mpr ⟨fun d hd => ?_, hstored⟩⟩
        cases hd
    intro n₁ c s₁ hc hn₁ hgrows₁ hstored₁ h hne
    obtain ⟨rfl, s', hn', hgrows, hstored⟩ :=
      ihs (fun e he => ih e (List.mem_cons_of_mem _ he))
        (fun e he => hD e (List.mem_cons_of_mem _ he)) hn₁ hgrows₁.intact h
    refine ⟨by rw [dirLinks_cons hne, hc], s', hn', hgrows₁.trans hgrows, ?_⟩
    exact List.forall_mem_cons.mpr ⟨hstored₁.mono hDt hgrows, hstored⟩

/-- **Adding a directory** stores the blocks of its tree, and returns the CID of the tree. -/
theorem addDirectory_spec (hfree : HashCrate.CollisionFree .sha256 D)
    (hD : ∀ d, IsBlock t d → d ∈ D) : AddsTree (S := S) D t := by
  induction t using FileTree.ind with
  | file data =>
    intro n n' s dirPath c hn hs h
    exact absurd h (by simp [addDirectory])
  | other =>
    intro n n' s dirPath c hn hs h
    exact absurd h (by simp [addDirectory])
  | dir dirEntries ih =>
    intro n n' s dirPath c hn hs h
    obtain ⟨⟨n₁, entries⟩, hentries, h⟩ := Except.bind_eq_ok_iff.mp h
    have hDe : ∀ e ∈ dirEntries, ∀ d, IsBlock e.2 d → d ∈ D :=
      fun e he d hd => hD d (.entry he hd)
    obtain ⟨rfl, s₁, hn₁, hgrows₁, hstored₁⟩ :=
      addEntries_spec hfree (fun e he => ih e he (hDe e he)) hDe hn hs hentries
    -- the map of the directory is stored last
    change n₁.dagPut (.map (dirLinks dirEntries [])) = .ok (n', c) at h
    rw [dagPut_eq_addFile] at h
    obtain ⟨hc, s', hn', hgrows, hholds, hsize⟩ :=
      addFile_spec hfree hn₁ hgrows₁.intact (hD _ (.dir dirEntries)) h
    refine ⟨hc, s', hn', hgrows₁.trans hgrows, fun d hd => ?_⟩
    cases hd with
    | dir => exact ⟨hholds, hsize⟩
    | entry he hd => exact (hstored₁ _ he).mono (hDe _ he) hgrows d hd

end Add

/-! ### What getting a directory writes -/

section Frame

variable {S : Type} [BlockStore S] [CidCrate] {n : Node S}
  {get : Cid → List String → Fs → Option (Except Error Fs)}

open FileSystem

omit [BlockStore S] [CidCrate] in
theorem liftIo_eq_ok {α : Type} {r : Except String α} {a : α} : liftIo r = .ok a ↔ r = .ok a := by
  cases r <;> simp [liftIo]

/-- `get` writes at its path only. -/
def Framed (get : Cid → List String → Fs → Option (Except Error Fs)) : Prop :=
  ∀ {c : Cid} {path : List String} {fs fs' : Fs}, get c path fs = some (.ok fs') →
    FileSystem.Frame path fs fs'

theorem getEntry_frame (hget : Framed get) {c : Cid} {path : List String} {fs fs' : Fs}
    (h : n.getEntry get c path fs = some (.ok fs')) : FileSystem.Frame path fs fs' := by
  unfold getEntry at h
  -- nothing is written, a directory is gone into, or one file is written
  split at h
  · simp at h
  · obtain rfl := Except.ok.inj (Option.some.inj h)
    exact fun q _ => Or.inl rfl
  · exact hget h
  · split at h
    · simp at h
    · exact write_frame (liftIo_eq_ok.mp (Option.some.inj h))
    · obtain rfl := Except.ok.inj (Option.some.inj h)
      exact fun q _ => Or.inl rfl

variable {name : String} {entries : List (String × Ipld)}

/-- The first entry is a link, and the loop goes on with what it has written. -/
theorem getEntries_cons_eq_ok {path : List String} {x : Ipld} {fs fs' : Fs}
    (h : n.getEntries get path ((name, x) :: entries) fs = some (.ok fs')) :
    ∃ link fs₁, x = .link link ∧ n.getEntry get link (path ++ [name]) fs = some (.ok fs₁) ∧
      n.getEntries get path entries fs₁ = some (.ok fs') := by
  -- every other value is an error
  cases x with
  | link link =>
    rw [getEntries] at h
    split at h
    · next fs₁ hentry => exact ⟨link, fs₁, rfl, hentry, h⟩
    · next hno => exact absurd h (hno fs')
  | _ => simp [getEntries] at h

theorem getEntries_frame (hget : Framed get) {path : List String} {fs fs' : Fs}
    (h : n.getEntries get path entries fs = some (.ok fs')) :
    FileSystem.Frame path fs fs' ∧
      (∀ name, name ∉ entries.map Prod.fst →
        ∀ q, fs' (path ++ name :: q) = fs (path ++ name :: q)) ∧
        (fs path = some .dir → fs' path = some .dir) := by
  induction entries generalizing fs with
  | nil =>
    obtain rfl := Except.ok.inj (Option.some.inj h)
    exact ⟨fun q _ => Or.inl rfl, fun _ _ _ => rfl, id⟩
  | cons e entries ih =>
    obtain ⟨name, x⟩ := e
    obtain ⟨link, fs₁, -, hentry, h⟩ := getEntries_cons_eq_ok h
    have hframe := getEntry_frame hget hentry
    obtain ⟨hframe', hother, hdir⟩ := ih h
    refine ⟨hframe.of_entry.trans hframe', fun name' hname' q => ?_, fun hpath => ?_⟩
    · -- another name is written neither now nor later
      rw [List.map_cons, List.mem_cons, not_or] at hname'
      rw [hother name' hname'.2 q]
      exact hframe.entry_ne (Ne.symm hname'.1) q
    · exact hdir (hframe.entry_dir (List.prefix_refl path) hpath)

theorem getEntries_entry (hget : Framed get) {path : List String}
    (hnodup : (entries.map Prod.fst).Nodup) {fs fs' : Fs}
    (h : n.getEntries get path entries fs = some (.ok fs')) {link : Cid}
    (hmem : (name, .link link) ∈ entries) :
    ∃ fs₁ fs₂, n.getEntry get link (path ++ [name]) fs₁ = some (.ok fs₂) ∧
      ∀ q, fs' (path ++ name :: q) = fs₂ (path ++ name :: q) := by
  induction entries generalizing fs with
  | nil => exact absurd hmem List.not_mem_nil
  | cons e entries ih =>
    obtain ⟨name', x⟩ := e
    rw [List.map_cons, List.nodup_cons] at hnodup
    obtain ⟨link', fs₁, hx, hentry, hrest⟩ := getEntries_cons_eq_ok h
    rcases List.mem_cons.mp hmem with heq | hmem
    · -- written now, and left alone by the rest of the loop
      obtain ⟨rfl, rfl⟩ := Prod.mk.inj heq
      obtain rfl := Ipld.link.inj hx
      exact ⟨fs, fs₁, hentry, (getEntries_frame hget hrest).2.1 _ hnodup.1⟩
    · exact ih hnodup.2 hrest hmem

variable [CidText]

theorem getDirectory_eq_ok {fuel : ℕ} {c : Cid} {path : List String} {fs fs' : Fs}
    (h : n.getDirectory fuel c path fs = some (.ok fs')) :
    ∃ fuel' fs₁ entries, fuel = fuel' + 1 ∧ fs.createDirAll path = .ok fs₁ ∧
      n.dagGet c = .ok (some (.map entries)) ∧
        n.getEntries (n.getDirectory fuel') path entries fs₁ = some (.ok fs') := by
  cases fuel with
  | zero => exact absurd h (by simp [getDirectory])
  | succ fuel =>
    -- all branches but one are errors
    rw [getDirectory] at h
    split at h
    · simp at h
    · next fs₁ hcreate =>
      split at h
      · simp at h
      · simp at h
      · next entries hdag => exact ⟨fuel, fs₁, entries, rfl, liftIo_eq_ok.mp hcreate, hdag, h⟩
      · simp at h

/-- **Getting a directory** writes at its path only, and leaves a directory there. -/
theorem getDirectory_frame (fuel : ℕ) :
    Framed (n.getDirectory fuel) ∧
      ∀ {c : Cid} {path : List String} {fs fs' : Fs},
        n.getDirectory fuel c path fs = some (.ok fs') → fs' path = some .dir := by
  induction fuel with
  | zero =>
    refine ⟨?_, ?_⟩
    · intro c path fs fs' h
      exact absurd h (by simp [getDirectory])
    · intro c path fs fs' h
      exact absurd h (by simp [getDirectory])
  | succ fuel ih =>
    have hstep {c : Cid} {path : List String} {fs fs' : Fs}
        (h : n.getDirectory (fuel + 1) c path fs = some (.ok fs')) :
        FileSystem.Frame path fs fs' ∧ fs' path = some .dir := by
      obtain ⟨fuel', fs₁, entries, hfuel, hcreate, -, hentries⟩ := getDirectory_eq_ok h
      obtain rfl : fuel = fuel' := by omega
      obtain ⟨hframe, -, hdir⟩ := getEntries_frame ih.1 hentries
      -- the directory is made first, and the entries are below it
      refine ⟨(createDirAll_frame hcreate).trans hframe, hdir ?_⟩
      rw [createDirAll_eq_ok hcreate]
      exact if_pos (List.prefix_refl path)
    exact ⟨fun h => (hstep h).1, fun h => (hstep h).2⟩

end Frame

/-! ### The round trip -/

section RoundTrip

variable [HashCrate] [CidCrate] {S : Type} [BlockStore S] [StoreView S] [LawfulBlockStore S]
  [ReliableBlockStore S] {n : Node S} {s : S}

open FileSystem

omit [HashCrate] [CidCrate] in
theorem get_of_view (hn : n.storage = some s) {c : Cid} {data : Bytes}
    (hview : view s c = some data) : n.get c = .ok (some data) := by
  rw [get, getStorage, hn, Except.ok_bind, BlockStore.get_eq, hview]
  rfl

omit [HashCrate] in
theorem dagGet_of_view (hn : n.storage = some s) {c : Cid} {data : Bytes}
    (hview : view s c = some data) : n.dagGet c = (Ipld.fromDagCbor data).map some := by
  rw [dagGet, getStorage, hn, Except.ok_bind, BlockStore.get_eq, hview]
  change (Ipld.fromDagCbor data >>= fun ipld => pure (some ipld)) = _
  cases Ipld.fromDagCbor data <;> rfl

/-- The bytes begin with a DAG-CBOR item, which is not a map. -/
def ReadsAsFile (data : Bytes) : Prop :=
  ∃ x, Ipld.fromDagCbor data = .ok x ∧ x.isMap = false

/-- Every file of the tree reads as one. -/
def Readable (t : Tree) : Prop :=
  ∀ path data, t.entryAt path = some (.file data) → ReadsAsFile data

variable {get : Cid → List String → Fs → Option (Except Error Fs)} {entries : List (String × Tree)}
  {t : Tree} {fuel : ℕ}

/-- An entry for a file is written when its bytes read as a file. -/
theorem getEntry_file (hn : n.storage = some s) {data : Bytes} (hdata : Holds s data)
    (hfile : ReadsAsFile data) (path : List String) (fs : Fs) :
    n.getEntry get (Cid.ofData Codec.raw .sha256 data) path fs
      = some (liftIo (fs.write path data)) := by
  obtain ⟨x, hx, hmap⟩ := hfile
  unfold getEntry
  rw [dagGet_of_view hn hdata, hx, get_of_view hn hdata]
  cases x <;> first | rfl | simp [Ipld.isMap] at hmap

/-- When the entry for a file has become a file, its bytes read as one. -/
theorem readsAsFile_of_getEntry
    (hget : ∀ {c path fs fs'}, get c path fs = some (.ok fs') → fs' path = some .dir)
    (hn : n.storage = some s) {data : Bytes} (hdata : Holds s data) {path : List String}
    {fs fs' : Fs} (h : n.getEntry get (Cid.ofData Codec.raw .sha256 data) path fs = some (.ok fs'))
    (hfs' : fs' path ≠ some .dir) : ReadsAsFile data := by
  unfold getEntry at h
  rw [dagGet_of_view hn hdata] at h
  cases hx : Ipld.fromDagCbor data with
  | error e =>
    rw [hx] at h
    simp [Except.map] at h
  | ok x =>
    refine ⟨x, hx, Bool.eq_false_iff.mpr fun hmap => ?_⟩
    cases x with
    | map m =>
      -- a map would have been gone into, and would have left a directory
      rw [hx] at h
      exact hfs' (hget h)
    | _ => simp [Ipld.isMap] at hmap

variable [LawfulCidCrate]

/-- The block of a directory is read back as the map of its links. -/
theorem dagGet_dir (hn : n.storage = some s) (hnodup : (entries.map Prod.fst).Nodup)
    (hs : TreeStored s (.dir entries)) :
    n.dagGet (treeCid (.dir entries)) = .ok (some (.map (dirLinks entries []))) := by
  obtain ⟨hholds, hsize⟩ := hs _ (.dir entries)
  rw [treeCid, dagGet_of_view hn hholds, fromDagCbor_dir hnodup hsize]
  rfl

theorem getEntry_dir (hn : n.storage = some s) (hnodup : (entries.map Prod.fst).Nodup)
    (hs : TreeStored s (.dir entries)) (path : List String) (fs : Fs) :
    n.getEntry get (treeCid (.dir entries)) path fs = get (treeCid (.dir entries)) path fs := by
  unfold getEntry
  rw [dagGet_dir hn hnodup hs]

omit [BlockStore S] [LawfulBlockStore S] [ReliableBlockStore S] [LawfulCidCrate] in
theorem TreeStored.entry (hs : TreeStored s (.dir entries)) {e : String × Tree} (he : e ∈ entries) :
    TreeStored s e.2 :=
  fun d hd => hs d (.entry he hd)

variable [CidText]

/-- If getting the tree recreates it, then every file of it reads as one. -/
theorem readable_of_getDirectory (hn : n.storage = some s) (hwf : t.Wf) (hs : TreeStored s t)
    {path : List String} {fs fs' : Fs}
    (h : n.getDirectory fuel (treeCid t) path fs = some (.ok fs')) (hfs' : Recreates fs' path t)
    (ht : t = .dir entries) : Readable t := by
  induction t using FileTree.ind generalizing fuel path fs fs' entries with
  | file data => exact absurd ht (by simp)
  | other => exact absurd ht (by simp)
  | dir dirEntries ih =>
    obtain ⟨hnodup, hwfs⟩ := hwf.of_dir
    intro q data hfile
    cases q with
    | nil => exact absurd hfile (by simp [FileTree.entryAt])
    | cons name q =>
      obtain ⟨fuel', fs₁, links, -, -, hdag, hentries⟩ := getDirectory_eq_ok h
      rw [dagGet_dir hn hnodup hs] at hdag
      obtain rfl : dirLinks dirEntries [] = links := by simpa using hdag
      -- the file is in an entry, and the entry has a link
      obtain ⟨t, hmem, hat⟩ := FileTree.mem_of_entryAt_dir hfile
      have hne : t ≠ .other := by
        rintro rfl
        simp at hat
      have hlink : (name, .link (treeCid t)) ∈ dirLinks dirEntries [] :=
        (mem_dirLinks_iff hnodup (by simp) name _).mpr (Or.inr ⟨t, hmem, hne, rfl⟩)
      obtain ⟨hframed, hleaves⟩ := @getDirectory_frame S _ _ n _ fuel'
      obtain ⟨fs₂, fs₃, hentry, hagree⟩ := getEntries_entry hframed
        (dirLinks_sorted List.Pairwise.nil).nodup_keys hentries hlink
      have hst : TreeStored s t := hs.entry hmem
      -- what this entry has written is still there at the end
      have hrec : Recreates fs₃ (path ++ [name]) t := by
        intro r
        rw [List.append_assoc]
        change fs₃ (path ++ name :: r) = _
        rw [← hagree, hfs', FileTree.entryAt_dir_of_mem hnodup hmem]
      -- a file is the entry itself, and in a directory it goes by induction
      cases t with
      | file data' =>
        cases q with
        | cons a q => simp [FileTree.entryAt] at hat
        | nil =>
          obtain rfl : data' = data := by simpa [FileTree.entryAt] using hat
          have hthere := hrec []
          rw [List.append_nil] at hthere
          refine readsAsFile_of_getEntry hleaves hn (hst _ (.file _)).1 hentry ?_
          simp [hthere, FileTree.entryAt]
      | dir sub =>
        have hwf' : (FileTree.dir sub).Wf := hwfs _ hmem
        rw [getEntry_dir hn hwf'.of_dir.1 hst] at hentry
        exact ih _ hmem hwf' hst hentry hrec rfl q data hat
      | other => exact absurd rfl hne

/-- Getting the entry for `t` at a new path succeeds and recreates `t` there. -/
def EntryRecreated (n : Node S) (fuel : ℕ) (t : Tree) : Prop :=
  ∀ (path : List String) (fs : Fs), fs path.dropLast = some .dir → fs path = none →
    Clear fs path → ∃ fs', n.getEntry (n.getDirectory fuel) (treeCid t) path fs = some (.ok fs') ∧
      Recreates fs' path t

omit [StoreView S] [LawfulBlockStore S] [ReliableBlockStore S] [LawfulCidCrate] in
theorem getEntries_recreates {dirEntries : List (String × Tree)}
    (hnames : (dirEntries.map Prod.fst).Nodup) {links : List (String × Ipld)}
    (hnodup : (links.map Prod.fst).Nodup)
    (hlinks : ∀ e ∈ links, ∃ t, (e.1, t) ∈ dirEntries ∧ e.2 = .link (treeCid t) ∧
      EntryRecreated n fuel t) {path : List String} {fs : Fs}
    (hdirs : ∀ above, above <+: path → fs above = some .dir)
    (hnew : ∀ e ∈ links, ∀ q, fs (path ++ e.1 :: q) = none) :
    ∃ fs', n.getEntries (n.getDirectory fuel) path links fs = some (.ok fs') ∧
      ∀ e ∈ links, ∀ t, (e.1, t) ∈ dirEntries → Recreates fs' (path ++ [e.1]) t := by
  induction links generalizing fs with
  | nil => exact ⟨fs, rfl, fun e he => absurd he List.not_mem_nil⟩
  | cons e links ih =>
    obtain ⟨name, x⟩ := e
    rw [List.map_cons, List.nodup_cons] at hnodup
    obtain ⟨t, hmem, rfl, hrec⟩ := hlinks _ List.mem_cons_self
    have hnew₀ := hnew _ List.mem_cons_self
    have hparent : fs (path ++ [name]).dropLast = some .dir := by
      rw [List.dropLast_concat]
      exact hdirs path (List.prefix_refl path)
    obtain ⟨fs₁, hentry, hfs₁⟩ := hrec _ _ hparent (hnew₀ []) (clear_entry hdirs hnew₀)
    have hframe := getEntry_frame (getDirectory_frame fuel).1 hentry
    -- the other entries are still to be written
    have hne : ∀ e ∈ links, name ≠ e.1 := by
      rintro e he rfl
      exact hnodup.1 (List.mem_map.mpr ⟨e, he, rfl⟩)
    obtain ⟨fs', hrest, hall⟩ := ih hnodup.2 (fun e he => hlinks e (List.mem_cons_of_mem _ he))
      (fun above habove => hframe.entry_dir habove (hdirs above habove))
      (fun e he q => by
        rw [hframe.entry_ne (hne e he)]
        exact hnew e (List.mem_cons_of_mem _ he) q)
    refine ⟨fs', ?_, List.forall_mem_cons.mpr ⟨fun t' hmem' q => ?_, hall⟩⟩
    · rw [getEntries, hentry]
      exact hrest
    · obtain rfl : t' = t := congrArg Prod.snd (List.inj_on_of_nodup_map hnames hmem' hmem rfl)
      -- the entries after it have other names
      have hkeep := (getEntries_frame (getDirectory_frame fuel).1 hrest).2.1 name hnodup.1 q
      rw [← hfs₁ q, List.append_assoc]
      exact hkeep

theorem entryRecreated (hn : n.storage = some s) (hs : TreeStored s t) (hwf : t.Wf)
    (hread : Readable t) (hne : t ≠ .other)
    (hdir : ∀ sub, t = .dir sub → ∀ (path : List String) (fs : Fs), Clear fs path →
      ∃ fs', n.getDirectory fuel (treeCid t) path fs = some (.ok fs') ∧ Recreates fs' path t) :
    EntryRecreated n fuel t := by
  intro path fs hparent hnone hclear
  cases t with
  | file data =>
    -- the bytes read as a file, so they are written
    have hfile := hread [] data (by rw [FileTree.entryAt])
    refine ⟨_, ?_, recreates_write hclear data⟩
    change n.getEntry _ (Cid.ofData Codec.raw .sha256 data) path fs = _
    rw [getEntry_file hn (hs _ (.file data)).1 hfile, write_of_dir hparent hnone]
    rfl
  | dir sub =>
    -- its block reads as a map
    rw [getEntry_dir hn hwf.of_dir.1 hs]
    exact hdir sub rfl path fs hclear
  | other => exact absurd rfl hne

/-- If every file of a tree reads as one, then getting the tree recreates it. -/
theorem getDirectory_recreates (hn : n.storage = some s) (hwf : t.Wf) (hs : TreeStored s t)
    (hread : Readable t) (hfuel : sizeOf t ≤ fuel) {path : List String} {fs : Fs}
    (hclear : Clear fs path) (ht : t = .dir entries) :
    ∃ fs', n.getDirectory fuel (treeCid t) path fs = some (.ok fs') ∧ Recreates fs' path t := by
  induction t using FileTree.ind generalizing fuel path fs entries with
  | file data => exact absurd ht (by simp)
  | other => exact absurd ht (by simp)
  | dir dirEntries ih =>
    obtain ⟨hnodup, hwfs⟩ := hwf.of_dir
    obtain ⟨fuel, rfl⟩ : ∃ k, fuel = k + 1 := ⟨fuel - 1, by
      rw [FileTree.dir.sizeOf_spec] at hfuel
      omega⟩
    -- the entries are smaller trees, so less fuel is enough for them
    have hentries : ∀ e ∈ dirEntries, e.2 ≠ .other → EntryRecreated n fuel e.2 := by
      rintro ⟨name, t⟩ hmem hne
      have hst : TreeStored s t := hs.entry hmem
      have hreadt : Readable t := fun q data hat =>
        hread (name :: q) data (by rw [FileTree.entryAt_dir_of_mem hnodup hmem, hat])
      have hsize := FileTree.sizeOf_lt_of_mem hmem
      refine entryRecreated hn hst (hwfs _ hmem) hreadt hne fun sub hsub path fs hclear => ?_
      exact ih _ hmem (hwfs _ hmem) hst hreadt (by omega) hclear hsub
    -- the directory is made, and has no entries yet
    obtain ⟨fs₁, hcreate, hdirs, hnew⟩ := createDirAll_of_clear hclear
    have hlinks (e : String × Ipld) (he : e ∈ dirLinks dirEntries []) :
        ∃ t, (e.1, t) ∈ dirEntries ∧ e.2 = .link (treeCid t) ∧ EntryRecreated n fuel t := by
      obtain hnil | ⟨t, hmem, hne, hx⟩ := (mem_dirLinks_iff hnodup (by simp) e.1 e.2).mp he
      · exact absurd hnil List.not_mem_nil
      · exact ⟨t, hmem, hx, hentries _ hmem hne⟩
    have hkeys : ((dirLinks dirEntries []).map Prod.fst).Nodup :=
      (dirLinks_sorted List.Pairwise.nil).nodup_keys
    obtain ⟨fs', hrun, hall⟩ :=
      getEntries_recreates hnodup hkeys hlinks hdirs fun e _ q => hnew e.1 q
    obtain ⟨-, hother, hdir⟩ := getEntries_frame (getDirectory_frame fuel).1 hrun
    refine ⟨fs', ?_, recreates_dir hnodup (hdir (hdirs path (List.prefix_refl path))) ?_ ?_⟩
    · rw [getDirectory, hcreate]
      simp only [liftIo, dagGet_dir hn hnodup hs]
      exact hrun
    · -- a file or a directory has a link
      intro name t hmem hne
      exact hall _ ((mem_dirLinks_iff hnodup (by simp) name _).mpr
        (Or.inr ⟨t, hmem, hne, rfl⟩)) t hmem
    · -- no other entry has one
      intro name hnone q
      rw [hother name _ q, hnew]
      intro hname
      obtain ⟨⟨name, x⟩, he, rfl⟩ := List.mem_map.mp hname
      obtain hnil | ⟨t, hmem, hne, -⟩ := (mem_dirLinks_iff hnodup (by simp) name x).mp he
      · exact List.not_mem_nil hnil
      · exact hne (hnone t hmem)

/-- **The directory round trip.** Let `add_directory` have stored a tree, in a store where no data
collides. Then `get_directory` at a clear path succeeds and recreates exactly the files and
directories of the tree, if and only if the bytes of every file begin with a DAG-CBOR item that is
not a map. -/
theorem getDirectory_addDirectory_iff {n' : Node S} (hn : n.storage = some s) (hwf : t.Wf)
    (hfree : HashCrate.CollisionFree .sha256
      ({d | IsBlock t d} ∪ {d | ∃ c, view s c = some d}))
    (hs : ∀ {c data d}, view s c = some data → Cid.ofData Codec.raw .sha256 d = c →
      Cid.ofData Codec.raw .sha256 data = c) {dirPath : String} {cid : Cid}
    (hadd : n.addDirectory dirPath t = .ok (n', cid)) {outputPath : List String} {fs : Fs}
    (hclear : Clear fs outputPath) :
    (∃ N, ∀ fuel ≥ N, ∃ fs', n'.getDirectory fuel cid outputPath fs = some (.ok fs') ∧
      Recreates fs' outputPath t) ↔ Readable t := by
  -- the blocks of the tree are stored, next to what was there
  have hintact : Intact s ({d | IsBlock t d} ∪ {d | ∃ c, view s c = some d}) :=
    fun hview => ⟨Or.inr ⟨_, hview⟩, fun d hd => hs hview hd⟩
  obtain ⟨rfl, s', hn', -, hstored⟩ :=
    addDirectory_spec hfree (fun d hd => Or.inl hd) hn hintact hadd
  obtain ⟨entries, ht⟩ : ∃ entries, t = .dir entries := by
    cases t with
    | dir entries => exact ⟨entries, rfl⟩
    | _ => simp [addDirectory] at hadd
  constructor
  · -- one run that recreates the tree is enough
    rintro ⟨N, hrun⟩
    obtain ⟨fs', hget, hrec⟩ := hrun N le_rfl
    exact readable_of_getDirectory hn' hwf hstored hget hrec ht
  · -- the size of the tree bounds the depth of the recursion
    intro hread
    exact ⟨sizeOf t, fun fuel hfuel =>
      getDirectory_recreates hn' hwf hstored hread hfuel hclear ht⟩

end RoundTrip

section Sample

open scoped CidReference

/-- The SHA2-256 digests of the blocks of the trees below. -/
def treeDigest (data : Bytes) : Bytes :=
  if data = [0] then
    BigEndian.encode 32 0x6e340b9cffb37a989ca544e6bb780a2c78901d3fb33738768511a30617afa01d
  else if data = [0xa0] then
    BigEndian.encode 32 0xc19a797fa1fd590cd2e5b42d1cf5f246e29b91684e2f87404b81dc345c7a56a0
  else if data = [0x68, 0x69] then
    BigEndian.encode 32 0x8f434346648f6b96df89dda901c5176b10a6d83961dd3c1ac88b59b2dc327aa4
  else if data.length = 87 then
    BigEndian.encode 32 0x4ba13cc47a3c7a788ba9d7a53674e199e6907f2e17e2e5d97fbbc150ef3f99dc
  else
    BigEndian.encode 32 0x775c10ccb154c5a799a2d232404886c5b118088f4ce28254e48b2a8386393333

theorem length_treeDigest (data : Bytes) : (treeDigest data).length = 32 := by
  unfold treeDigest
  repeat' split
  all_goals rfl

/-- The hash crate on these blocks. -/
@[reducible]
def treeHash : HashCrate := CidReference.hashOf treeDigest length_treeDigest

/-- A file with the byte 0, and an empty directory. -/
def zeroTree : Tree := .dir [("b", .dir []), ("a", .file [0])]

/-- A file with the text "hi". -/
def textTree : Tree := .dir [("a", .file [0x68, 0x69])]

/-- The blocks of both trees. -/
def sampleBlocks : List Bytes :=
  letI := treeHash
  [[0], [0xa0], [0x68, 0x69], blockData zeroTree, blockData textTree]

theorem collisionFree_sampleBlocks {D : Set Bytes} (hD : ∀ d ∈ D, d ∈ sampleBlocks) :
    letI := treeHash
    HashCrate.CollisionFree .sha256 D := by
  have hdistinct : ∀ d ∈ sampleBlocks, ∀ d' ∈ sampleBlocks,
      treeDigest d = treeDigest d' → d = d' := by
    decide +kernel
  intro d hd d' hd' heq
  exact hdistinct d (hD d hd) d' (hD d' hd') (congrArg Subtype.val heq)

theorem isBlock_zeroTree {d : Bytes}
    (h : letI := treeHash; IsBlock zeroTree d) : d ∈ sampleBlocks := by
  cases h with
  | dir => decide +kernel
  | entry he h =>
    rcases List.mem_pair.mp he with rfl | rfl
    · cases h with
      | dir => decide +kernel
      | entry he => exact absurd he List.not_mem_nil
    · cases h
      decide +kernel

theorem isBlock_textTree {d : Bytes}
    (h : letI := treeHash; IsBlock textTree d) : d ∈ sampleBlocks := by
  cases h with
  | dir => decide +kernel
  | entry he h =>
    obtain rfl := List.mem_singleton.mp he
    cases h
    decide +kernel

theorem entryAt_singleton {name : String} {content data : Bytes} {path : List String}
    (h : FileTree.entryAt (.dir [(name, .file content)]) path = some (.file data)) :
    data = content := by
  cases path with
  | nil => simp [FileTree.entryAt] at h
  | cons a path =>
    obtain ⟨t, hmem, hat⟩ := FileTree.mem_of_entryAt_dir h
    obtain ⟨rfl, rfl⟩ := Prod.mk.inj (List.mem_singleton.mp hmem)
    cases path with
    | nil => simpa [FileTree.entryAt] using hat.symm
    | cons a path => simp [FileTree.entryAt] at hat

theorem exists_addDirectory :
    letI := treeHash
    ∀ t ∈ [zeroTree, textTree], ∃ n' cid, emptyNode.addDirectory "in" t = .ok (n', cid) := by
  let := treeHash
  have hok : ∀ t ∈ [zeroTree, textTree], (emptyNode.addDirectory "in" t).isOk = true := by
    simp only [List.forall_mem_cons]
    exact ⟨by decide +kernel, by decide +kernel, by simp⟩
  intro t ht
  cases hadd : emptyNode.addDirectory "in" t with
  | ok r => exact ⟨r.1, r.2, rfl⟩
  | error e => exact absurd (hok t ht) (by rw [hadd]; exact Bool.false_ne_true)

theorem getDirectory_zeroTree :
    letI := treeHash
    ∃ n' cid, emptyNode.addDirectory "in" zeroTree = .ok (n', cid) ∧
      ∃ N, ∀ fuel ≥ N, ∃ fs',
        n'.getDirectory fuel cid ["out"] (fun _ => none) = some (.ok fs') ∧
          FileSystem.Recreates fs' ["out"] zeroTree := by
  let := treeHash
  obtain ⟨n', cid, hadd⟩ := exists_addDirectory zeroTree List.mem_cons_self
  have hempty (c : Cid) : view MemoryBlockStore.new c = none := rfl
  have hwf : zeroTree.Wf := by
    refine .dir (by decide) ?_
    simp only [List.forall_mem_cons]
    exact ⟨.dir (by decide) (by simp), .file [0], by simp⟩
  refine ⟨n', cid, hadd, (getDirectory_addDirectory_iff (s := .new) rfl hwf ?_ ?_ hadd ?_).mpr ?_⟩
  · refine collisionFree_sampleBlocks ?_
    rintro d (hd | ⟨c, hd⟩)
    · exact isBlock_zeroTree hd
    · simp [hempty] at hd
  · intro c data d hview
    simp [hempty] at hview
  · exact ⟨fun _ _ _ => by simp, fun _ _ => rfl⟩
  · intro path data hfile
    -- the only file is the one with the byte 0
    obtain rfl : data = [0] := by
      cases path with
      | nil => simp [zeroTree, FileTree.entryAt] at hfile
      | cons name path =>
        obtain ⟨t, hmem, hat⟩ := FileTree.mem_of_entryAt_dir hfile
        rcases List.mem_pair.mp hmem with heq | heq
        · obtain ⟨rfl, rfl⟩ := Prod.mk.inj heq
          cases path <;> simp [FileTree.entryAt] at hat
        · obtain ⟨rfl, rfl⟩ := Prod.mk.inj heq
          cases path with
          | nil => simpa [FileTree.entryAt] using hat.symm
          | cons a path => simp [FileTree.entryAt] at hat
    exact ⟨.integer 0, by decide +kernel, rfl⟩

theorem getDirectory_fails_on_text :
    letI := treeHash
    ¬ ∀ t : Tree, t.Wf → (∀ path data, t.entryAt path = some (.file data) →
        1 ≤ data.length ∧ data.length ≤ maxBlockSize) →
      ∀ (n' : Node MemoryBlockStore) (cid : Cid), emptyNode.addDirectory "in" t = .ok (n', cid) →
        ∃ N, ∀ fuel ≥ N, ∃ fs',
          n'.getDirectory fuel cid ["out"] (fun _ => none) = some (.ok fs') ∧
            FileSystem.Recreates fs' ["out"] t := by
  let := treeHash
  intro hall
  have hwf : textTree.Wf := .dir (by decide) (by simpa using .file [0x68, 0x69])
  obtain ⟨n', cid, hadd⟩ :=
    exists_addDirectory textTree (List.mem_cons_of_mem _ List.mem_cons_self)
  have hsize (path : List String) (data : Bytes)
      (hfile : textTree.entryAt path = some (.file data)) :
      1 ≤ data.length ∧ data.length ≤ maxBlockSize := by
    obtain rfl := entryAt_singleton hfile
    decide
  obtain ⟨N, hrun⟩ := hall textTree hwf hsize n' cid hadd
  obtain ⟨fs', hget, hrec⟩ := hrun N le_rfl
  have hfree := collisionFree_sampleBlocks fun d (hd : IsBlock textTree d) => isBlock_textTree hd
  have hintact : Intact MemoryBlockStore.new {d | IsBlock textTree d} := by
    intro c data hview
    exact absurd (show (none : Option Bytes) = some data from hview) (by simp)
  obtain ⟨rfl, s', hn', -, hstored⟩ := addDirectory_spec hfree (fun _ hd => hd) rfl hintact hadd
  obtain ⟨x, hx, -⟩ := readable_of_getDirectory hn' hwf hstored hget hrec rfl ["a"] [0x68, 0x69]
    (by decide +kernel)
  -- 0x68 announces a text of eight bytes
  have hfail : (Ipld.fromDagCbor [0x68, 0x69]).isOk = false := by decide +kernel
  rw [hx] at hfail
  exact absurd hfail (by simp [Except.isOk, Except.toBool])

end Sample

end Node

end Ipfrs
