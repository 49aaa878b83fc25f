import Ipfrs.Storage.VcsGraph

/-!
# Tags and branches

Whether tags stay where they are and branches move forward only, in runs of `VersionControl`.

`commit` and `merge` move the ref that has the name of the current branch, whatever it is. That name
can be a tag's: `get_ref` takes a ref for a branch unless its name says otherwise, so `checkout_ref`
of a tag called `v1.0` makes it the current branch. And after a checkout of an older commit the
current branch is not where HEAD is, so the next commit takes it to a commit that does not have its
old target as an ancestor.

`Meets` is the condition under which neither happens, on the state before a commit or a merge. What
the tags were created for is recorded beside the state (`Tags`).
-/

namespace Ipfrs.Vcs.VersionControl

/-- The commits that tags were created for. -/
abbrev Tags := String → Option Cid

/-- The operations on a repository. -/
inductive Op where
  | commit (root : Cid) (message : String) (author : Author)
      (metadata : AList fun _ : String => String) (now : UInt64)
  | checkout (commitCid : Cid)
  | checkoutRef (refName : String)
  | createTag (tagName : String)
  | createBranch (branchName : String)
  | merge (branchCid : Cid) (message : String) (author : Author) (strategy : MergeStrategy)
      (now : UInt64)

variable {S : Type} [BlockStore S] [StoreView S] [CommitCodec] [HashCrate] [CidText]

/-- One operation, whatever it answers. New tags and branches have names that no ref has. -/
inductive Step : VersionControl S × Tags → Op → VersionControl S × Tags → Prop
  | commit {vc vc' : VersionControl S} {tags root message author metadata now r}
      (h : vc.commit root message author metadata now = (vc', r)) :
      Step (vc, tags) (.commit root message author metadata now) (vc', tags)
  | checkout {vc vc' : VersionControl S} {tags commitCid r}
      (h : vc.checkout commitCid = (vc', r)) : Step (vc, tags) (.checkout commitCid) (vc', tags)
  | checkoutRef {vc vc' : VersionControl S} {tags refName r}
      (h : vc.checkoutRef refName = (vc', r)) : Step (vc, tags) (.checkoutRef refName) (vc', tags)
  | createTag {vc vc' : VersionControl S} {tags tagName r}
      (hfresh : vc.refsCache.lookup tagName = none) (h : vc.createTag tagName = (vc', r)) :
      Step (vc, tags) (.createTag tagName) (vc', Function.update tags tagName vc.head)
  | createBranch {vc vc' : VersionControl S} {tags branchName r}
      (hfresh : vc.refsCache.lookup branchName = none)
      (h : vc.createBranch branchName = (vc', r)) :
      Step (vc, tags) (.createBranch branchName) (vc', tags)
  | merge {vc vc' : VersionControl S} {tags fuel branchCid message author strategy now r}
      (h : vc.merge fuel branchCid message author strategy now = some (vc', r)) :
      Step (vc, tags) (.merge branchCid message author strategy now) (vc', tags)

variable (vc : VersionControl S)

omit [StoreView S] in
theorem Step.of_commit (tags : Tags) (root : Cid) (message : String) (author : Author)
    (metadata : AList fun _ : String => String) (now : UInt64) :
    Step (vc, tags) (.commit root message author metadata now)
      ((vc.commit root message author metadata now).1, tags) :=
  .commit rfl

omit [StoreView S] in
theorem Step.of_checkout (tags : Tags) (commitCid : Cid) :
    Step (vc, tags) (.checkout commitCid) ((vc.checkout commitCid).1, tags) :=
  .checkout rfl

omit [StoreView S] in
theorem Step.of_checkoutRef (tags : Tags) (refName : String) :
    Step (vc, tags) (.checkoutRef refName) ((vc.checkoutRef refName).1, tags) :=
  .checkoutRef rfl

/-- The current branch has no tag's name, and its ref, if there is one, targets a commit of `P`. -/
def Movable (tags : Tags) (P : Cid → Prop) : Prop :=
  tags vc.currentBranch = none ∧ ∀ old, vc.refsCache.lookup vc.currentBranch = some old → P old

/-- `c` is an ancestor of HEAD. -/
def BelowHead (c : Cid) : Prop :=
  ∃ headCid, vc.head = some headCid ∧ Ancestor vc.store c headCid

/-- **The condition on a commit or a merge**: the current branch has no tag's name, and it is where
HEAD is or behind; for a merge, or behind the merged commit. -/
def Meets (tags : Tags) : Op → Prop
  | .commit .. => Movable vc tags (BelowHead vc)
  | .merge branchCid .. => vc.head ≠ some branchCid →
      Movable vc tags fun c => BelowHead vc c ∨ Ancestor vc.store c branchCid
  | _ => True

/-- What an operation may write is among `D`. -/
def OpWithin (D : Set Bytes) (vc : VersionControl S) : Op → Prop
  | .commit root message author metadata now =>
    let commit := Commit.new vc.head.toList root message author metadata now
    Within D (CommitCodec.encodeCommit commit) ∧ ∀ block, commit.toBlock = .ok block →
      Within D (CommitCodec.encodeRef ⟨vc.currentBranch, block.cid, .branch⟩)
  | .createTag name => ∀ c ∈ vc.head, Within D (CommitCodec.encodeRef ⟨name, c, .tag⟩)
  | .createBranch name => ∀ c ∈ vc.head, Within D (CommitCodec.encodeRef ⟨name, c, .branch⟩)
  | .merge branchCid message author strategy now =>
    ∀ c ∈ vc.head, MergeWithin D vc.store c branchCid message author strategy now
  | _ => True

/-- The states of a repository in use, when every operation meets a condition. -/
inductive Reachable (meets : VersionControl S → Tags → Op → Prop) (D : Set Bytes) :
    VersionControl S × Tags → Prop
  | new {store : S} (h : StoresOwn D store) : Reachable meets D (new store, fun _ => none)
  | step {vc vc' : VersionControl S} {tags tags' : Tags} {op : Op}
      (h : Reachable meets D (vc, tags)) (hstep : Step (vc, tags) op (vc', tags'))
      (hD : OpWithin D vc op) (hmeets : meets vc tags op) : Reachable meets D (vc', tags')

/-! ### What an operation does to the store and the refs -/

section Updates

variable [LawfulBlockStore S] [LawfulCommitCodec] {D : Set Bytes} {vc vc' : VersionControl S}
  {store store' : S}

/-- Blocks have been put, of data among `D`. -/
structure Grows (D : Set Bytes) (store store' : S) : Prop where
  own : StoresOwn D store'
  ancestor : ∀ a c, Ancestor store a c → Ancestor store' a c

omit [BlockStore S] [CidText] [LawfulBlockStore S] [LawfulCommitCodec] in
theorem Grows.refl (h : StoresOwn D store) : Grows D store store := ⟨h, fun _ _ h => h⟩

omit [BlockStore S] [CidText] [LawfulBlockStore S] [LawfulCommitCodec] in
theorem Grows.trans {store'' : S} (h : Grows D store store') (h' : Grows D store' store'') :
    Grows D store store'' :=
  ⟨h'.own, fun a c hpath => h'.ancestor a c (h.ancestor a c hpath)⟩

omit [CidText] [LawfulCommitCodec] in
theorem Grows.put (hfree : HashCrate.CollisionFree .sha256 D) (h : StoresOwn D store)
    {bytes : Bytes} (hbytes : bytes ∈ D)
    (hput : BlockStore.put store ⟨Cid.ofData Codec.raw .sha256 bytes, bytes⟩ = .ok store') :
    Grows D store store' :=
  ⟨h.put hfree hbytes hput, fun _ _ hpath => hpath.put (h bytes hbytes) hput⟩

variable {name : String} {refType : RefType}

omit [CidText] [LawfulCommitCodec] in
/-- **`update_ref`** sets one ref, whatever it answers. -/
theorem updateRef_spec (hfree : HashCrate.CollisionFree .sha256 D) (hown : StoresOwn D vc.store)
    {commit : Cid} {r : Except Error Unit}
    (hD : Within D (CommitCodec.encodeRef ⟨name, commit, refType⟩))
    (h : vc.updateRef name commit refType = (vc', r)) :
    vc'.refsCache = vc.refsCache.insert name commit ∧ vc'.head = vc.head ∧
      Grows D vc.store vc'.store := by
  unfold updateRef Ref.toBlock at h
  cases hencode : CommitCodec.encodeRef ⟨name, commit, refType⟩ with
  | error e =>
    rw [hencode] at h
    obtain ⟨rfl, -⟩ := Prod.mk.inj h
    exact ⟨rfl, rfl, .refl hown⟩
  | ok bytes =>
    rw [hencode] at h hD
    dsimp only at h
    cases hnew : Block.new bytes with
    | error e =>
      rw [hnew] at h
      obtain ⟨rfl, -⟩ := Prod.mk.inj h
      exact ⟨rfl, rfl, .refl hown⟩
    | ok block =>
      obtain ⟨-, rfl⟩ := Block.new_eq_ok.mp hnew
      rw [hnew] at h
      dsimp only at h
      -- the ref is set before its block is stored, so it stays when that fails
      split at h
      · obtain ⟨rfl, -⟩ := Prod.mk.inj h
        exact ⟨rfl, rfl, .refl hown⟩
      · next store hput =>
        obtain ⟨rfl, -⟩ := Prod.mk.inj h
        exact ⟨rfl, rfl, .put hfree hown hD hput⟩

/-- **`commit`** does nothing, or it moves the current branch to a new commit on HEAD. -/
theorem commit_spec (hfree : HashCrate.CollisionFree .sha256 D) (hown : StoresOwn D vc.store)
    {root : Cid} {message : String} {author : Author} {metadata : AList fun _ : String => String}
    {now : UInt64} {r : Except Error Cid}
    (hD : OpWithin D vc (.commit root message author metadata now))
    (h : vc.commit root message author metadata now = (vc', r)) :
    vc' = vc ∨ ∃ newCid, vc'.refsCache = vc.refsCache.insert vc.currentBranch newCid ∧
      (∀ c ∈ vc.head, Ancestor vc'.store c newCid) ∧ Grows D vc.store vc'.store := by
  unfold VersionControl.commit at h
  split at h
  · exact Or.inl (Prod.mk.inj h).1.symm
  next commit' commitCid hfinalize =>
  obtain ⟨block, hblock, hblock', rfl⟩ := finalize_eq_ok hfinalize
  rw [hblock'] at h
  dsimp only at h
  split at h
  · exact Or.inl (Prod.mk.inj h).1.symm
  next store hput =>
  obtain ⟨hcommit, href⟩ := hD
  -- the commit is stored with HEAD as its parent, and then the branch is moved to it
  obtain ⟨bytes, hbytes, -, heq⟩ := toBlock_eq_ok hblock hcommit
  have hgrows : Grows D vc.store store := .put hfree hown hbytes (heq ▸ hput)
  have hparents : parentsAt store block.cid = vc.head.toList :=
    parentsAt_put hown hblock hcommit hput
  cases hupdate : ({ vc with store := store, head := some block.cid } : VersionControl S).updateRef
      vc.currentBranch block.cid .branch with
  | mk vc₁ r₁ =>
    obtain ⟨hrefs, -, hgrows₁⟩ := updateRef_spec hfree hgrows.own (href block hblock) hupdate
    rw [hupdate] at h
    obtain rfl : vc₁ = vc' := by
      cases r₁ with
      | error e => exact (Prod.mk.inj h).1
      | ok u => exact (Prod.mk.inj h).1
    refine Or.inr ⟨block.cid, hrefs, fun c hc => hgrows₁.ancestor _ _ ?_, hgrows.trans hgrows₁⟩
    refine Ancestor.of_parent ?_
    show c ∈ parentsAt store block.cid
    rw [hparents]
    exact Option.mem_toList.mpr hc

/-- **`merge`** does nothing, or it moves the current branch to a commit that has HEAD and the
merged commit as ancestors. -/
theorem merge_spec (hfree : HashCrate.CollisionFree .sha256 D) (hown : StoresOwn D vc.store)
    {fuel : ℕ} {branchCid : Cid} {message : String} {author : Author} {strategy : MergeStrategy}
    {now : UInt64} {r : Except Error MergeResult}
    (hD : OpWithin D vc (.merge branchCid message author strategy now))
    (h : vc.merge fuel branchCid message author strategy now = some (vc', r)) :
    vc' = vc ∨ vc.head ≠ some branchCid ∧ ∃ newCid,
      vc'.refsCache = vc.refsCache.insert vc.currentBranch newCid ∧
      (∀ c ∈ vc.head, Ancestor vc'.store c newCid) ∧ Ancestor vc'.store branchCid newCid ∧
      Grows D vc.store vc'.store := by
  cases r with
  | error e => exact Or.inl (eq_of_merge_error h)
  | ok result =>
    cases hhead : vc.head with
    | none =>
      unfold merge at h
      rw [hhead] at h
      exact absurd h (by simp)
    | some headCid =>
      obtain ⟨-, rfl⟩ | ⟨hne, hancestor, rfl⟩ |
        ⟨hne, headCommit, branchCommit, block, store, hheadCommit, hbranchCommit, hblock, hput,
          rfl⟩ := merge_eq_ok hhead h
      · exact Or.inl rfl
      · -- a fast-forward: the merged commit has HEAD as an ancestor
        refine Or.inr ⟨fun heq => hne (Option.some.inj heq), branchCid, rfl, ?_, .refl _ _,
          .refl hown⟩
        intro c hc
        obtain rfl := Option.some.inj hc
        exact hancestor
      · -- a new commit with the two as its parents
        have hwithin := hD headCid hhead headCommit branchCommit hheadCommit hbranchCommit
        obtain ⟨bytes, hbytes, -, heq⟩ := toBlock_eq_ok hblock hwithin
        have hparents : parentsAt store block.cid = [headCid, branchCid] :=
          parentsAt_put hown hblock hwithin hput
        refine Or.inr ⟨fun heq => hne (Option.some.inj heq), block.cid, rfl, fun c hc => ?_, ?_,
          .put hfree hown hbytes (heq ▸ hput)⟩
        · obtain rfl := Option.some.inj hc
          refine Ancestor.of_parent ?_
          show headCid ∈ parentsAt store block.cid
          rw [hparents]
          exact List.mem_cons_self
        · refine Ancestor.of_parent ?_
          show branchCid ∈ parentsAt store block.cid
          rw [hparents]
          exact List.mem_cons_of_mem _ List.mem_cons_self

omit [StoreView S] [HashCrate] [LawfulBlockStore S] [LawfulCommitCodec] in
theorem checkout_spec {commitCid : Cid} {r : Except Error Cid}
    (h : vc.checkout commitCid = (vc', r)) :
    vc'.refsCache = vc.refsCache ∧ vc'.store = vc.store := by
  unfold checkout at h
  split at h
  · obtain ⟨rfl, -⟩ := Prod.mk.inj h
    exact ⟨rfl, rfl⟩
  · obtain ⟨rfl, -⟩ := Prod.mk.inj h
    exact ⟨rfl, rfl⟩

omit [StoreView S] [HashCrate] [LawfulBlockStore S] [LawfulCommitCodec] in
theorem checkoutRef_spec {refName : String} {r : Except Error Cid}
    (h : vc.checkoutRef refName = (vc', r)) :
    vc'.refsCache = vc.refsCache ∧ vc'.store = vc.store := by
  unfold checkoutRef at h
  split at h
  · obtain ⟨rfl, -⟩ := Prod.mk.inj h
    exact ⟨rfl, rfl⟩
  · next refObj hrefObj =>
    have hcheckout := checkout_spec h
    split at hcheckout
    · exact hcheckout
    · exact hcheckout

omit [CidText] [LawfulCommitCodec] in
theorem createRef_spec (hfree : HashCrate.CollisionFree .sha256 D) (hown : StoresOwn D vc.store)
    {r : Except Error Unit}
    (hD : ∀ c ∈ vc.head, Within D (CommitCodec.encodeRef ⟨name, c, refType⟩))
    (h : vc.createRef name refType = (vc', r)) :
    vc.head = none ∧ vc' = vc ∨ ∃ headCid, vc.head = some headCid ∧
      vc'.refsCache = vc.refsCache.insert name headCid ∧ Grows D vc.store vc'.store := by
  unfold createRef at h
  cases hhead : vc.head with
  | none =>
    rw [hhead] at h
    exact Or.inl ⟨rfl, (Prod.mk.inj h).1.symm⟩
  | some headCid =>
    rw [hhead] at h
    obtain ⟨hrefs, -, hgrows⟩ := updateRef_spec hfree hown (hD headCid hhead) h
    exact Or.inr ⟨headCid, rfl, hrefs, hgrows⟩

end Updates

/-! ### Runs -/

section Runs

variable [LawfulBlockStore S] [LawfulCommitCodec] {D : Set Bytes} {vc vc' : VersionControl S}
  {tags tags' : Tags} {op : Op}

/-- Every tag refers to the commit it was created for. -/
def TagsKept (vc : VersionControl S) (tags : Tags) : Prop :=
  ∀ name c, tags name = some c → vc.refsCache.lookup name = some c

/-- Every ref that was there is still there, and its target is an ancestor of the new one. -/
def Forward (vc vc' : VersionControl S) : Prop :=
  ∀ name old, vc.refsCache.lookup name = some old →
    ∃ new, vc'.refsCache.lookup name = some new ∧ Ancestor vc'.store old new

/-- What a step leaves, for the tags and for the refs. -/
structure Kept (D : Set Bytes) (vc vc' : VersionControl S) (tags tags' : Tags) : Prop where
  own : StoresOwn D vc'.store
  unchanged : ∀ name c, tags name = some c → tags' name = some c
  tags : TagsKept vc' tags'
  forward : Forward vc vc'

variable {name : String}

omit [BlockStore S] [StoreView S] [CommitCodec] [HashCrate] [CidText] [LawfulBlockStore S]
  [LawfulCommitCodec] in
theorem TagsKept.eq_none (h : TagsKept vc tags) (hfresh : vc.refsCache.lookup name = none) :
    tags name = none := by
  cases htag : tags name with
  | none => rfl
  | some c =>
    rw [h name c htag] at hfresh
    exact absurd hfresh (by simp)

omit [BlockStore S] [CidText] [LawfulBlockStore S] [LawfulCommitCodec] in
theorem Kept.of_same (hown : StoresOwn D vc.store) (htags : TagsKept vc tags)
    (hrefs : vc'.refsCache = vc.refsCache) (hstore : vc'.store = vc.store) :
    Kept D vc vc' tags tags := by
  refine ⟨by rw [hstore]; exact hown, fun _ _ h => h, fun name c h => ?_, fun name old h => ?_⟩
  · rw [hrefs]
    exact htags name c h
  · rw [hrefs]
    exact ⟨old, h, .refl _ _⟩

omit [BlockStore S] [CidText] [LawfulBlockStore S] [LawfulCommitCodec] in
/-- **The current branch moves** to a commit that is not behind it, and is no tag. -/
theorem Kept.of_moved {P : Cid → Prop} {newCid : Cid} (htags : TagsKept vc tags)
    (hrefs : vc'.refsCache = vc.refsCache.insert vc.currentBranch newCid)
    (hgrows : Grows D vc.store vc'.store) (hmovable : Movable vc tags P)
    (hP : ∀ c, P c → Ancestor vc'.store c newCid) : Kept D vc vc' tags tags := by
  obtain ⟨hnotag, htarget⟩ := hmovable
  refine ⟨hgrows.own, fun _ _ h => h, fun name c h => ?_, fun name old h => ?_⟩
  · -- the branch that moves is no tag
    have hne : name ≠ vc.currentBranch := by
      rintro rfl
      rw [hnotag] at h
      exact absurd h (by simp)
    rw [hrefs, AList.lookup_insert_ne hne]
    exact htags name c h
  · rw [hrefs]
    by_cases hname : name = vc.currentBranch
    · subst hname
      exact ⟨newCid, AList.lookup_insert _, hP old (htarget old h)⟩
    · rw [AList.lookup_insert_ne hname]
      exact ⟨old, h, .refl _ _⟩

omit [BlockStore S] [CidText] [LawfulBlockStore S] [LawfulCommitCodec] in
/-- A ref is made under a name that no ref has; the tags are as they were, or have the new one. -/
theorem Kept.of_created {headCid : Cid} (htags : TagsKept vc tags)
    (hfresh : vc.refsCache.lookup name = none)
    (hrefs : vc'.refsCache = vc.refsCache.insert name headCid) (hgrows : Grows D vc.store vc'.store)
    (htags' : tags' = tags ∨ tags' = Function.update tags name (some headCid)) :
    Kept D vc vc' tags tags' := by
  -- the refs that were there are as they were
  have hother : ∀ name' c, vc.refsCache.lookup name' = some c →
      vc'.refsCache.lookup name' = some c := by
    intro name' c h
    have hne : name' ≠ name := by
      rintro rfl
      rw [hfresh] at h
      exact absurd h (by simp)
    rw [hrefs, AList.lookup_insert_ne hne]
    exact h
  have hnotag : tags name = none := htags.eq_none hfresh
  refine ⟨hgrows.own, fun name' c h => ?_, fun name' c h => ?_, fun name' old h => ?_⟩
  · obtain rfl | rfl := htags'
    · exact h
    · have hne : name' ≠ name := by
        rintro rfl
        rw [hnotag] at h
        exact absurd h (by simp)
      rw [Function.update_of_ne hne]
      exact h
  · obtain rfl | rfl := htags'
    · exact hother name' c (htags name' c h)
    · by_cases hname : name' = name
      · subst hname
        rw [Function.update_self] at h
        obtain rfl := Option.some.inj h
        rw [hrefs, AList.lookup_insert]
      · rw [Function.update_of_ne hname] at h
        exact hother name' c (htags name' c h)
  · exact ⟨old, hother name' old h, .refl _ _⟩

/-- **One step** that meets the condition. -/
theorem Step.kept (hfree : HashCrate.CollisionFree .sha256 D) (hown : StoresOwn D vc.store)
    (htags : TagsKept vc tags) (hstep : Step (vc, tags) op (vc', tags'))
    (hD : OpWithin D vc op) (hmeets : Meets vc tags op) : Kept D vc vc' tags tags' := by
  cases hstep with
  | commit h =>
    obtain rfl | ⟨newCid, hrefs, hhead, hgrows⟩ := commit_spec hfree hown hD h
    · exact .of_same hown htags rfl rfl
    · refine .of_moved htags hrefs hgrows hmeets ?_
      rintro c ⟨headCid, hheadCid, hbelow⟩
      exact (hgrows.ancestor _ _ hbelow).trans (hhead headCid hheadCid)
  | checkout h =>
    obtain ⟨hrefs, hstore⟩ := checkout_spec h
    exact .of_same hown htags hrefs hstore
  | checkoutRef h =>
    obtain ⟨hrefs, hstore⟩ := checkoutRef_spec h
    exact .of_same hown htags hrefs hstore
  | createTag hfresh h =>
    obtain ⟨hhead, rfl⟩ | ⟨headCid, hhead, hrefs, hgrows⟩ := createRef_spec hfree hown hD h
    · -- no HEAD, no tag
      rw [hhead, ← htags.eq_none hfresh, Function.update_eq_self]
      exact .of_same hown htags rfl rfl
    · rw [hhead]
      exact .of_created htags hfresh hrefs hgrows (Or.inr rfl)
  | createBranch hfresh h =>
    obtain ⟨-, rfl⟩ | ⟨headCid, -, hrefs, hgrows⟩ := createRef_spec hfree hown hD h
    · exact .of_same hown htags rfl rfl
    · exact .of_created htags hfresh hrefs hgrows (Or.inl rfl)
  | merge h =>
    obtain rfl | ⟨hne, newCid, hrefs, hhead, hbranch, hgrows⟩ := merge_spec hfree hown hD h
    · exact .of_same hown htags rfl rfl
    · refine .of_moved htags hrefs hgrows (hmeets hne) ?_
      rintro c (⟨headCid, hheadCid, hbelow⟩ | hbelow)
      · exact (hgrows.ancestor _ _ hbelow).trans (hhead headCid hheadCid)
      · exact (hgrows.ancestor _ _ hbelow).trans hbranch

theorem Reachable.inv (hfree : HashCrate.CollisionFree .sha256 D)
    {st : VersionControl S × Tags} (h : Reachable Meets D st) :
    StoresOwn D st.1.store ∧ TagsKept st.1 st.2 := by
  induction h with
  | new hown => exact ⟨hown, fun name c h => absurd h (by simp)⟩
  | step _ hstep hD hmeets ih =>
    have hkept := hstep.kept hfree ih.1 ih.2 hD hmeets
    exact ⟨hkept.own, hkept.tags⟩

/-- **Tags are immutable and branches only move forward**, in every run in which each commit and
merge meets the condition: every tag refers to the commit it was created for, and whatever the next
operation is, the tags keep their commits and the target of every ref is an ancestor of the new
one. -/
theorem Reachable.tags_immutable (hfree : HashCrate.CollisionFree .sha256 D)
    (h : Reachable Meets D (vc, tags)) :
    TagsKept vc tags ∧ ∀ op vc' tags', Step (vc, tags) op (vc', tags') → OpWithin D vc op →
      Meets vc tags op → (∀ name c, tags name = some c → tags' name = some c) ∧
        TagsKept vc' tags' ∧ Forward vc vc' := by
  obtain ⟨hown, htags⟩ := h.inv hfree
  refine ⟨htags, fun op vc' tags' hstep hD hmeets => ?_⟩
  have hkept := hstep.kept hfree hown htags hD hmeets
  exact ⟨hkept.unchanged, hkept.tags, hkept.forward⟩

end Runs

end Ipfrs.Vcs.VersionControl

/-! ### Runs on the small repository -/

namespace Ipfrs.Vcs.Sample

open VersionControl

/-- What is hashed in the runs below. -/
def inputs : Set Bytes := {data | data ∈ digests.map Prod.fst}

instance (data : Bytes) : Decidable (data ∈ inputs) :=
  inferInstanceAs (Decidable (data ∈ digests.map Prod.fst))

theorem inputs_collisionFree : hash.CollisionFree .sha256 inputs := by
  have hpairs : ∀ x ∈ digests.map Prod.fst, ∀ y ∈ digests.map Prod.fst,
      digestOf x = digestOf y → x = y := by
    decide +kernel
  intro x hx y hy heq
  exact hpairs x hx y hy (congrArg Subtype.val heq)

instance (e : Except String Bytes) : Decidable (Within inputs e) :=
  match e with
  | .ok bytes => inferInstanceAs (Decidable (bytes ∈ inputs))
  | .error _ => .isTrue trivial

section Runs

open scoped CidReference

local instance : CommitCodec := codec
local instance : HashCrate := hash

/-- A new repository. -/
def emptyRepo : VersionControl MemoryBlockStore := .new .new

/-- The first commit, on `main`. -/
def firstRepo : VersionControl MemoryBlockStore :=
  (emptyRepo.commit rootCid "first" author ∅ 1700000000).1

/-- The first commit is tagged. -/
def taggedRepo : VersionControl MemoryBlockStore := (firstRepo.createTag "v1.0").1

/-- The tag is checked out. -/
def checkedOutRepo : VersionControl MemoryBlockStore := (taggedRepo.checkoutRef "v1.0").1

/-- The second commit, on `v1.0`. -/
def movedTagRepo : VersionControl MemoryBlockStore :=
  (checkedOutRepo.commit rootCid "second" author ∅ 1700000000).1

/-- The second commit, on `main`. -/
def secondRepo : VersionControl MemoryBlockStore :=
  (firstRepo.commit rootCid "second" author ∅ 1700000000).1

/-- The first commit is checked out. -/
def detachedRepo : VersionControl MemoryBlockStore := (secondRepo.checkout firstCid).1

/-- The third commit, on `main`. -/
def movedBranchRepo : VersionControl MemoryBlockStore :=
  (detachedRepo.commit rootCid "third" author ∅ 1700000000).1

theorem opWithin_commit {vc : VersionControl MemoryBlockStore} {parents : List Cid}
    {message : String} (c : Commit) (hhead : vc.head.toList = parents)
    (hc : Commit.new parents rootCid message author ∅ 1700000000 = c)
    (hencode : codec.encodeCommit c = .ok (commitBytes c)) (hbytes : commitBytes c ∈ inputs)
    (href : refBytes ⟨vc.currentBranch, Cid.ofData Codec.raw .sha256 (commitBytes c), .branch⟩ ∈
      inputs) :
    OpWithin inputs vc (.commit rootCid message author ∅ 1700000000) := by
  -- the commit and the ref to it are among the inputs
  have hwithin : Within inputs (CommitCodec.encodeCommit c) := by
    change Within inputs (codec.encodeCommit c)
    rw [hencode]
    exact hbytes
  subst hhead
  refine ⟨hc ▸ hwithin, fun block hblock => ?_⟩
  rw [hc] at hblock
  obtain ⟨bytes, -, hbytes', rfl⟩ := toBlock_eq_ok hblock hwithin
  obtain rfl := Except.ok.inj (hencode.symm.trans hbytes')
  exact href

variable {meets : VersionControl MemoryBlockStore → Tags → Op → Prop}

theorem reachable_firstRepo (h : meets emptyRepo (fun _ => none)
      (.commit rootCid "first" author ∅ 1700000000)) :
    Reachable meets inputs (firstRepo, fun _ => none) := by
  refine .step (.new fun data _ d hview => ?_) (.commit rfl) ?_ h
  · exact absurd hview (by simp [view, MemoryBlockStore.new])
  · exact opWithin_commit firstCommit rfl rfl encode_first (by decide +kernel) (by decide +kernel)

/-- The tag has been created. -/
def tags : Tags := Function.update (fun _ => none) "v1.0" firstRepo.head

theorem reachable_taggedRepo (hfirst : meets emptyRepo (fun _ => none)
      (.commit rootCid "first" author ∅ 1700000000))
    (h : meets firstRepo (fun _ => none) (.createTag "v1.0")) :
    Reachable meets inputs (taggedRepo, tags) := by
  refine .step (reachable_firstRepo hfirst) (.createTag (by decide +kernel) rfl) ?_ h
  intro c hc
  have hhead : firstRepo.head = some firstCid := by decide +kernel
  obtain rfl := Option.some.inj (hhead.symm.trans hc)
  exact (by decide +kernel : Within inputs (codec.encodeRef ⟨"v1.0", firstCid, .tag⟩))

theorem reachable_movedTagRepo :
    Reachable (fun _ _ _ => True) inputs (movedTagRepo, tags) := by
  refine .step (.step (reachable_taggedRepo trivial trivial) (.of_checkoutRef ..) trivial trivial)
    (.of_commit ..) ?_ trivial
  exact opWithin_commit secondCommit (by decide +kernel) rfl encode_second (by decide +kernel)
    (by decide +kernel)

theorem reachable_detachedRepo :
    Reachable (fun _ _ _ => True) inputs (detachedRepo, fun _ => none) := by
  refine .step (.step (reachable_firstRepo trivial) (.of_commit ..) ?_ trivial) (.of_checkout ..)
    trivial trivial
  exact opWithin_commit secondCommit (by decide +kernel) rfl encode_second (by decide +kernel)
    (by decide +kernel)

theorem meets_taggedRepo :
    Meets taggedRepo tags (.commit rootCid "second" author ∅ 1700000000) := by
  refine ⟨by decide +kernel, fun old hold => ?_⟩
  have hmain : taggedRepo.refsCache.lookup taggedRepo.currentBranch = some firstCid := by
    decide +kernel
  obtain rfl := Option.some.inj (hmain.symm.trans hold)
  exact ⟨firstCid, by decide +kernel, .refl _ _⟩

end Runs

end Ipfrs.Vcs.Sample

namespace Ipfrs.Vcs.VersionControl

open Sample

open scoped CidReference in
/-- The first commit is tagged, and the second one moves `main`. -/
theorem Reachable.tags_immutable_two :
    let _ := codec
    let _ := hash
    taggedRepo.refsCache.lookup "v1.0" = some firstCid ∧ Forward taggedRepo
      (taggedRepo.commit rootCid "second" author ∅ 1700000000).1 := by
  intro _ _
  have := lawful_codec
  -- the first commit makes the branch, so that it meets the condition
  have hnone : emptyRepo.refsCache.lookup emptyRepo.currentBranch = none := by decide +kernel
  have hreach : Reachable Meets inputs (taggedRepo, tags) :=
    reachable_taggedRepo ⟨rfl, fun old hold => absurd (hnone.symm.trans hold) (by simp)⟩ trivial
  obtain ⟨htags, hnext⟩ := Reachable.tags_immutable inputs_collisionFree hreach
  refine ⟨htags "v1.0" firstCid (by decide +kernel), ?_⟩
  have hwithin : OpWithin inputs taggedRepo (.commit rootCid "second" author ∅ 1700000000) :=
    opWithin_commit secondCommit (by decide +kernel) rfl encode_second (by decide +kernel)
      (by decide +kernel)
  exact (hnext _ _ _ (.of_commit ..) hwithin meets_taggedRepo).2.2

open scoped CidReference in
/-- Without the condition a commit moves the tag that has been checked out, and takes the branch
away from its target after a checkout of an older commit. -/
theorem not_forall_tags_immutable :
    let _ := codec
    let _ := hash
    (∃ (vc : VersionControl MemoryBlockStore) (tags : Tags),
      Reachable (fun _ _ _ => True) inputs (vc, tags) ∧ ¬ TagsKept vc tags) ∧
    ∃ (vc vc' : VersionControl MemoryBlockStore) (tags : Tags) (op : Op),
      Reachable (fun _ _ _ => True) inputs (vc, tags) ∧ Step (vc, tags) op (vc', tags) ∧
      OpWithin inputs vc op ∧ ¬ Forward vc vc' := by
  intro _ _
  have := lawful_codec
  have hthird : OpWithin inputs detachedRepo (.commit rootCid "third" author ∅ 1700000000) :=
    opWithin_commit thirdCommit (by decide +kernel) rfl encode_third (by decide +kernel)
      (by decide +kernel)
  refine ⟨⟨movedTagRepo, Sample.tags, reachable_movedTagRepo, fun h => ?_⟩, detachedRepo,
    movedBranchRepo, fun _ => none, _, reachable_detachedRepo, .of_commit .., hthird, fun h => ?_⟩
  · -- the tag was created for the first commit
    have htag : movedTagRepo.refsCache.lookup "v1.0" = some firstCid :=
      h "v1.0" firstCid (by decide +kernel)
    have hmoved : movedTagRepo.refsCache.lookup "v1.0" = some secondCid := by decide +kernel
    have hne : firstCid ≠ secondCid := by decide +kernel
    exact hne (Option.some.inj (htag.symm.trans hmoved))
  · -- the third commit has the first one as its only parent
    obtain ⟨newCid, hnew, hpath⟩ := h "main" secondCid (by decide +kernel)
    have hmoved : movedBranchRepo.refsCache.lookup "main" = some thirdCid := by decide +kernel
    obtain rfl := Option.some.inj (hmoved.symm.trans hnew)
    have hparents : parentsAt movedBranchRepo.store thirdCid = [firstCid] :=
      parentsAt_of_commitAt (commitAt_of_view (by decide +kernel) decode_third)
    have hroot : parentsAt movedBranchRepo.store firstCid = [] :=
      parentsAt_of_commitAt (commitAt_of_view (by decide +kernel) decode_first)
    have hne : secondCid ≠ thirdCid ∧ secondCid ≠ firstCid := by decide +kernel
    obtain heq | ⟨p, hp, hpath⟩ := hpath.eq_or_parent
    · exact hne.1 heq
    rw [hparents] at hp
    obtain rfl := List.mem_singleton.mp hp
    obtain heq | ⟨p, hp, -⟩ := hpath.eq_or_parent
    · exact hne.2 heq
    · rw [hroot] at hp
      exact absurd hp List.not_mem_nil

end Ipfrs.Vcs.VersionControl
