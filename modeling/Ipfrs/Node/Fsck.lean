import Ipfrs.Lib.DepthFirst
import Ipfrs.Core.CarRoundTrip
import Ipfrs.Core.ChunkRead
import Ipfrs.Core.DagCborAlloc
import Ipfrs.Node.DagOps

/-!
# Checking a repository

`FilesystemChecker` (`ipfrs/src/fsck.rs`): every stored block is checked against its CID, and the
links of every sound block are followed to find what is missing.

Both checks say less than they should. `check_block` makes the block anew with `Block::new`, so it
accepts raw SHA2-256 blocks only and calls every other block corrupt, whatever its data
(`mem_blocksCorrupt_iff`). `check_references` compares its depth limit with the number of CIDs that
have been checked anywhere in the repository, so after that many no block is entered any more, at
whatever depth (`check_missing_iff`).

A check decodes every block that passes and every block that it comes to on the way, and decoding
panics over nine bytes that announce an array of 2^64 - 1 items. One such block anywhere leaves the
repository without a report, so the decoder here is the one with its panic,
`Ipld.tryFromDagCbor`, and "nothing that is decoded overflows" is a part of each condition.

* `checkReferences_follows` — the walk over references is `DepthFirst.visit` on the link graph of
  the store: it reports the newly marked CIDs that are not stored, unless it has come to a block
  that overflows.
* `checkCids_checks`, `check_ends` — a check is a walk from the stored CIDs that pass, and it
  returns a report if and only if no block that it decodes overflows.
* `check_eq_ok` — over a store of raw SHA2-256 blocks this is a walk from all stored CIDs.

The invariant behind all of them is `Follows`: it relates the outcome of a part of the walk to the
marks before and after it, and outcomes of consecutive parts compose (`Follows.trans`).
-/

namespace Ipfrs

structure FsckResult where
  blocksChecked : ℕ := 0
  blocksValid : ℕ := 0
  blocksCorrupt : List Cid := []
  blocksMissing : List Cid := []
  ipldInvalid : List Cid := []
  deriving DecidableEq

def FsckResult.isHealthy (r : FsckResult) : Bool :=
  r.blocksCorrupt.isEmpty && r.blocksMissing.isEmpty

theorem FsckResult.isHealthy_iff {result : FsckResult} (h : result.blocksCorrupt = []) :
    result.isHealthy = true ↔ ∀ c, c ∉ result.blocksMissing := by
  rw [FsckResult.isHealthy, h, List.isEmpty_nil, Bool.true_and, List.isEmpty_iff,
    List.eq_nil_iff_forall_not_mem]

/-- `FsckConfig`, with the values of its `Default`. -/
structure FsckConfig where
  checkIpld : Bool := true
  verifyReferences : Bool := true
  maxDepth : Option ℕ := some 100
  deriving DecidableEq, Repr

namespace FilesystemChecker

section Model

variable {S : Type} [BlockStore S]

def checkBlock [HashCrate] [CidText] (s : S) (cid : Cid) : Except Error Bool := do
  match ← BlockStore.get s cid with
  | some block =>
    -- version 1, raw and SHA2-256, whatever the CID says
    let recomputedBlock ← Block.new block.data
    return recomputedBlock.cid == block.cid
  | none => .error (.notFound ("Block not found: " ++ CidText.toString cid))

/-- `looks_like_ipld`: the data starts like a map or an array. -/
def looksLikeIpld : Bytes → Bool
  | [] => false
  | firstByte :: _ =>
    let majorType := firstByte >>> 5
    majorType = 4 || majorType = 5

variable [CidCrate] (itemSize : ℕ)

/-- What `check_references` returns: the missing CIDs, with the CIDs that are checked by then, or a
panic. Its `Result` is never an error. `none` says that the recursion went deeper than `fuel`. -/
abbrev References : Type := Option (Except Fault (List Cid × Finset Cid))

/-- The body of the loop of `check_references`, for a link that has just been marked as checked. The
recursive call is an argument. -/
def checkLink (s : S) (checkReferences : Ipld → Finset Cid → References) (linkCid : Cid)
    (checked : Finset Cid) : References :=
  match BlockStore.has s linkCid with
  | .ok true =>
    match BlockStore.get s linkCid with
    | .ok (some block) =>
      match Ipld.tryFromDagCbor itemSize block.data with
      | .ok childIpld => checkReferences childIpld checked
      | .error (.error _) => some (.ok ([], checked))
      | .error (.panic msg) => some (.error (.panic msg))
    | _ => some (.ok ([], checked))
  -- an error counts as missing too
  | _ => some (.ok ([linkCid], checked))

/-- The loop of `check_references` over links. -/
def checkLinks (s : S) (checkReferences : Ipld → Finset Cid → References) :
    List Cid → Finset Cid → References
  | [], checked => some (.ok ([], checked))
  | linkCid :: links, checked =>
    if linkCid ∈ checked then checkLinks s checkReferences links checked
    else
      match checkLink itemSize s checkReferences linkCid (insert linkCid checked) with
      | some (.ok (missing, checked)) =>
        (checkLinks s checkReferences links checked).map
          (Except.map fun (missing', checked) => (missing ++ missing', checked))
      | r => r

def checkReferences (s : S) (maxDepth : Option ℕ) : ℕ → Ipld → Finset Cid → References
  | 0, _, checked =>
    if DepthFirst.LimitReached maxDepth checked then some (.ok ([], checked)) else none
  | fuel + 1, ipld, checked =>
    -- the limit on the depth is compared with the number of checked CIDs
    if DepthFirst.LimitReached maxDepth checked then some (.ok ([], checked))
    else checkLinks itemSize s (checkReferences s maxDepth fuel) ipld.links checked

variable [HashCrate] [CidText]

/-- The body of the loop of `FilesystemChecker::check`, on the result so far and the checked
references. -/
def checkCid (fuel : ℕ) (s : S) (config : FsckConfig) (cid : Cid) :
    FsckResult × Finset Cid → Option (Except Fault (FsckResult × Finset Cid))
  | (result, checkedRefs) =>
    match checkBlock s cid with
    | .ok true =>
      let result := { result with blocksValid := result.blocksValid + 1 }
      if config.checkIpld || config.verifyReferences then
        match BlockStore.get s cid with
        | .error e => some (.error (.error e))
        | .ok none => some (.ok (result, checkedRefs))
        | .ok (some block) =>
          match Ipld.tryFromDagCbor itemSize block.data with
          | .ok ipld =>
            if config.verifyReferences then
              (checkReferences itemSize s config.maxDepth fuel ipld checkedRefs).map
                (Except.map fun (missing, checkedRefs) =>
                  ({ result with blocksMissing := result.blocksMissing ++ missing }, checkedRefs))
            else some (.ok (result, checkedRefs))
          | .error (.error _) =>
            if config.checkIpld && looksLikeIpld block.data then
              some (.ok ({ result with ipldInvalid := result.ipldInvalid ++ [cid] }, checkedRefs))
            else some (.ok (result, checkedRefs))
          | .error (.panic msg) => some (.error (.panic msg))
      else some (.ok (result, checkedRefs))
    -- an error of the check counts as corrupt too
    | _ => some (.ok
        ({ result with blocksCorrupt := result.blocksCorrupt ++ [cid] }, checkedRefs))

/-- The loop of `FilesystemChecker::check`. -/
def checkCids (fuel : ℕ) (s : S) (config : FsckConfig) :
    List Cid → FsckResult × Finset Cid → Option (Except Fault (FsckResult × Finset Cid))
  | [], st => some (.ok st)
  | cid :: cids, st =>
    match checkCid itemSize fuel s config cid st with
    | some (.ok st') => checkCids fuel s config cids st'
    | r => r

def check (fuel : ℕ) (s : S) (config : FsckConfig) : Option (Except Fault FsckResult) :=
  match BlockStore.listCids s with
  | .error e => some (.error (.error e))
  | .ok allCids =>
    (checkCids itemSize fuel s config allCids ({ blocksChecked := allCids.length }, ∅)).map
      (Except.map Prod.fst)

end Model

/-! ### References -/

section References

variable [CidCrate] {S : Type} [BlockStore S]

/-- The links of the block that the store gives for a CID. -/
def getLinks (s : S) (c : Cid) : List Cid :=
  match BlockStore.get s c with
  | .ok (some block) =>
    match Ipld.fromDagCbor block.data with
    | .ok ipld => ipld.links
    | .error _ => []
  | _ => []

/-- The links that the walk over references finds behind a CID. -/
def fetchLinks (s : S) (c : Cid) : List Cid :=
  match BlockStore.has s c with
  | .ok true => getLinks s c
  | _ => []

omit [CidCrate] in
/-- The CIDs that are newly marked and not stored, each once. -/
def NewMissing (s : S) (marked marked' : Finset Cid) (missing : List Cid) : Prop :=
  missing.Nodup ∧ ∀ c, c ∈ missing ↔ (c ∈ marked' ∧ c ∉ marked) ∧ BlockStore.has s c ≠ .ok true

namespace NewMissing

variable {s : S} {m m₁ m₂ : Finset Cid} {missing missing' : List Cid}

omit [CidCrate]

theorem refl (s : S) (m : Finset Cid) : NewMissing s m m [] :=
  ⟨List.nodup_nil, by simp⟩

theorem insert_stored {c : Cid} (hc : BlockStore.has s c = .ok true) (m : Finset Cid) :
    NewMissing s m (insert c m) [] := by
  refine ⟨List.nodup_nil, fun d => ⟨fun h => absurd h List.not_mem_nil, ?_⟩⟩
  rintro ⟨⟨hd, hnew⟩, hmiss⟩
  obtain rfl := (Finset.mem_insert.mp hd).resolve_right hnew
  exact absurd hc hmiss

theorem insert_missing {c : Cid} (hc : BlockStore.has s c ≠ .ok true) (hnew : c ∉ m) :
    NewMissing s m (insert c m) [c] := by
  refine ⟨List.nodup_singleton c, fun d => ?_⟩
  rw [List.mem_singleton]
  constructor
  · rintro rfl
    exact ⟨⟨Finset.mem_insert_self d m, hnew⟩, hc⟩
  · rintro ⟨⟨hd, hdm⟩, -⟩
    exact (Finset.mem_insert.mp hd).resolve_right hdm

theorem trans (hsub : m ⊆ m₁) (hsub' : m₁ ⊆ m₂) (h : NewMissing s m m₁ missing)
    (h' : NewMissing s m₁ m₂ missing') : NewMissing s m m₂ (missing ++ missing') := by
  refine ⟨List.nodup_append.mpr ⟨h.1, h'.1, ?_⟩, fun c => ?_⟩
  · -- what the first walk has marked is not new in the second
    rintro c hc c' hc' rfl
    exact ((h'.2 c).mp hc').1.2 ((h.2 c).mp hc).1.1
  · rw [List.mem_append, h.2, h'.2]
    constructor
    · rintro (⟨⟨hc, hnew⟩, hmiss⟩ | ⟨⟨hc, hnew⟩, hmiss⟩)
      exacts [⟨⟨hsub' hc, hnew⟩, hmiss⟩, ⟨⟨hc, fun hcm => hnew (hsub hcm)⟩, hmiss⟩]
    · rintro ⟨⟨hc, hnew⟩, hmiss⟩
      by_cases hc₁ : c ∈ m₁
      exacts [Or.inl ⟨⟨hc₁, hnew⟩, hmiss⟩, Or.inr ⟨⟨hc, hc₁⟩, hmiss⟩]

end NewMissing

variable (itemSize : ℕ)

/-- The store gives a block for the CID, and decoding it panics. -/
def Bursts (s : S) (c : Cid) : Prop :=
  ∃ block, BlockStore.get s c = .ok (some block) ∧ Ipld.Overflows itemSize block.data

/-- The walk over references comes to such a block when it marks the CID. -/
def LinkBursts (s : S) (c : Cid) : Prop := BlockStore.has s c = .ok true ∧ Bursts itemSize s c

variable {s : S} {r : Ipld → Finset Cid → References} {limit : Option ℕ} {fuel : ℕ} {d : Cid}

theorem bursts_iff {c : Cid} {block : Block} (hget : BlockStore.get s c = .ok (some block)) :
    Bursts itemSize s c ↔ Ipld.Overflows itemSize block.data := by
  refine ⟨?_, fun hover => ⟨block, hget, hover⟩⟩
  rintro ⟨block', hget', hover⟩
  obtain rfl := Option.some.inj (Except.ok.inj (hget.symm.trans hget'))
  exact hover

/-- **What a part of the walk over references does** while the marks grow from `m` to `m'`. It
reports what is newly marked and not stored, or it panics over a newly marked CID. -/
inductive Follows (s : S) (m m' : Finset Cid) : Except Fault (List Cid × Finset Cid) → Prop
  | ok {missing : List Cid} (hmissing : NewMissing s m m' missing)
      (hfit : ∀ c ∈ m', c ∉ m → ¬ LinkBursts itemSize s c) : Follows s m m' (.ok (missing, m'))
  | panic {c : Cid} {msg : String} (hc : c ∈ m') (hnew : c ∉ m)
      (hbursts : LinkBursts itemSize s c) : Follows s m m' (.error (.panic msg))

namespace Follows

variable {itemSize} {s : S} {m m₁ m₂ : Finset Cid} {missing : List Cid}
  {r : Except Fault (List Cid × Finset Cid)}

theorem refl (s : S) (m : Finset Cid) : Follows itemSize s m m (.ok ([], m)) :=
  .ok (.refl s m) fun _ hc hnew => absurd hc hnew

theorem trans (hsub : m ⊆ m₁) (hsub' : m₁ ⊆ m₂)
    (h : Follows itemSize s m m₁ (.ok (missing, m₁))) (h' : Follows itemSize s m₁ m₂ r) :
    Follows itemSize s m m₂ (r.map fun (missing', checked) => (missing ++ missing', checked)) := by
  cases h with
  | ok hmissing hfit =>
    cases h' with
    | ok hmissing' hfit' =>
      refine .ok (hmissing.trans hsub hsub' hmissing') fun c hc hnew => ?_
      by_cases hc₁ : c ∈ m₁
      exacts [hfit c hc₁ hnew, hfit' c hc hc₁]
    | panic hc hnew hbursts => exact .panic hc (fun hm => hnew (hsub hm)) hbursts

theorem mono_of_error {f : Fault} (hsub : m₁ ⊆ m₂) (h : Follows itemSize s m m₁ (.error f)) :
    Follows itemSize s m m₂ (.error f) := by
  cases h with
  | panic hc hnew hbursts => exact .panic (hsub hc) hnew hbursts

/-- A stored CID that is marked, and then what is done behind it. -/
theorem of_insert {c : Cid} (hc : BlockStore.has s c = .ok true) (hfit : ¬ Bursts itemSize s c)
    (hsub : insert c m ⊆ m₂) (h : Follows itemSize s (insert c m) m₂ r) :
    Follows itemSize s m m₂ r := by
  have hmark : Follows itemSize s m (insert c m) (.ok ([], insert c m)) := by
    refine .ok (NewMissing.insert_stored hc m) fun d hd hnew hbursts => hfit ?_
    exact (Finset.mem_insert.mp hd).resolve_right hnew ▸ hbursts.2
  have htrans := hmark.trans (Finset.subset_insert c m) hsub h
  cases r <;> exact htrans

end Follows

variable {itemSize}

/-- What a function that checks references does, compared with entering a node of the link graph. -/
def Simulates (itemSize : ℕ) (s : S) (r : Ipld → Finset Cid → References)
    (v : Cid → Finset Cid → Option (DepthFirst.Result Cid)) : Prop :=
  ∀ {ipld x m m' t}, ipld.links = fetchLinks s x → v x m = some (m', t) →
    ∃ out, r ipld m = some out ∧ Follows itemSize s m m' out

theorem checkLink_follows (hr : Simulates itemSize s r (DepthFirst.visit (fetchLinks s) limit fuel))
    {c : Cid} {m m' : Finset Cid} {t : List (Cid × ℕ)} (hc : c ∉ m)
    (h : DepthFirst.visit (fetchLinks s) limit fuel c (insert c m) = some (m', t)) :
    ∃ out, checkLink itemSize s r c (insert c m) = some out ∧ Follows itemSize s m m' out := by
  have hsub := (DepthFirst.visit_marks h).subset
  -- a block without links is entered in vain
  have hleaf (hnil : fetchLinks s c = []) : m' = insert c m := DepthFirst.visit_of_succ_nil hnil h
  unfold checkLink
  split
  · next hhas =>
    split
    · next block hget =>
      rw [Ipld.tryFromDagCbor_eq]
      by_cases hover : Ipld.Overflows itemSize block.data
      · rw [if_pos hover]
        exact ⟨_, rfl, .panic (hsub (Finset.mem_insert_self c m)) hc ⟨hhas, block, hget, hover⟩⟩
      · have hfit : ¬ Bursts itemSize s c := mt (bursts_iff itemSize hget).mp hover
        rw [if_neg hover]
        cases hdec : Ipld.fromDagCbor block.data with
        | ok childIpld =>
          have hlinks : childIpld.links = fetchLinks s c := by
            simp only [fetchLinks, getLinks, hhas, hget, hdec]
          obtain ⟨out, hrun, hfollows⟩ := hr hlinks h
          exact ⟨out, hrun, .of_insert hhas hfit hsub hfollows⟩
        | error e =>
          obtain rfl := hleaf (by simp only [fetchLinks, getLinks, hhas, hget, hdec])
          exact ⟨_, rfl, .of_insert hhas hfit hsub (.refl s _)⟩
    · next hget =>
      obtain rfl := hleaf (by simp only [fetchLinks, getLinks, hhas])
      refine ⟨_, rfl, .of_insert hhas ?_ hsub (.refl s _)⟩
      rintro ⟨block, hget', -⟩
      exact hget block hget'
  · -- not in the store, so it has no links there
    next hhas =>
    obtain rfl : m' = insert c m := by
      refine hleaf ?_
      unfold fetchLinks
      split
      · next htrue => exact absurd htrue hhas
      · rfl
    refine ⟨_, rfl, .ok (NewMissing.insert_missing hhas hc) fun d hd hnew hbursts => ?_⟩
    obtain rfl := (Finset.mem_insert.mp hd).resolve_right hnew
    exact hhas hbursts.1

theorem checkLinks_follows
    (hr : Simulates itemSize s r (DepthFirst.visit (fetchLinks s) limit fuel)) {links : List Cid}
    {m m' : Finset Cid} {t : List (Cid × ℕ)}
    (h : DepthFirst.visitList (DepthFirst.visit (fetchLinks s) limit fuel) links m = some (m', t)) :
    ∃ out, checkLinks itemSize s r links m = some out ∧ Follows itemSize s m m' out := by
  induction links generalizing m t with
  | nil =>
    obtain ⟨rfl, rfl⟩ := Prod.mk.inj (Option.some.inj h)
    exact ⟨_, rfl, .refl s m⟩
  | cons c links ih =>
    obtain ⟨hc, hl⟩ | ⟨hc, m₁, t₁, t₂, hv, hl, rfl⟩ := DepthFirst.visitList_cons_eq_some h
    · -- checked before
      obtain ⟨out, hrun, hfollows⟩ := ih hl
      exact ⟨out, by rw [checkLinks, if_pos hc, hrun], hfollows⟩
    · obtain ⟨out₁, hrun₁, hfollows₁⟩ := checkLink_follows hr hc hv
      have hsub₁ := (Finset.subset_insert c m).trans (DepthFirst.visit_marks hv).subset
      have hsub₂ := (DepthFirst.visitList_marks DepthFirst.visit_marks hl).subset
      cases out₁ with
      | error f => exact ⟨_, by rw [checkLinks, if_neg hc, hrun₁], hfollows₁.mono_of_error hsub₂⟩
      | ok p =>
        -- the missing CIDs of the link, then those of the links after it
        obtain ⟨missing₁, m₁'⟩ := p
        obtain rfl : m₁' = m₁ := by
          cases hfollows₁
          rfl
        obtain ⟨out₂, hrun₂, hfollows₂⟩ := ih hl
        refine ⟨_, ?_, hfollows₁.trans hsub₁ hsub₂ hfollows₂⟩
        rw [checkLinks, if_neg hc, hrun₁]
        simp only [hrun₂, Option.map_some]

/-- **The walk over references** enters the nodes that a depth-first walk with the same limit
enters, as long as no block on the way overflows. -/
theorem checkReferences_follows (itemSize : ℕ) (s : S) (limit : Option ℕ) (fuel : ℕ) :
    Simulates itemSize s (checkReferences itemSize s limit fuel)
      (DepthFirst.visit (fetchLinks s) limit fuel) := by
  induction fuel with
  | zero =>
    intro ipld x m m' t hlinks h
    by_cases hlim : DepthFirst.LimitReached limit m
    · rw [DepthFirst.visit_of_limitReached _ _ hlim] at h
      obtain ⟨rfl, rfl⟩ := Prod.mk.inj (Option.some.inj h)
      exact ⟨_, by rw [checkReferences, if_pos hlim], .refl s m⟩
    · obtain ⟨_, _, hfuel, -⟩ := DepthFirst.visit_eq_some hlim h
      exact absurd hfuel (by omega)
  | succ fuel ih =>
    intro ipld x m m' t hlinks h
    by_cases hlim : DepthFirst.LimitReached limit m
    · -- at the limit both return at once
      rw [DepthFirst.visit_of_limitReached _ _ hlim] at h
      obtain ⟨rfl, rfl⟩ := Prod.mk.inj (Option.some.inj h)
      exact ⟨_, by rw [checkReferences, if_pos hlim], .refl s m⟩
    · obtain ⟨fuel', t', hfuel, hl, rfl⟩ := DepthFirst.visit_eq_some hlim h
      obtain rfl : fuel = fuel' := by omega
      rw [checkReferences, if_neg hlim, hlinks]
      exact checkLinks_follows ih hl

variable [StoreView S] [LawfulBlockStore S]

/-- The links that the store gives are those of the block stored there. -/
theorem link_of_mem_getLinks {c : Cid} (h : d ∈ getLinks s c) : Link s c d := by
  unfold getLinks at h
  split at h
  · next block hget =>
    split at h
    · next ipld hdec =>
      obtain ⟨data, hdata, rfl⟩ := Option.map_eq_some_iff.mp (LawfulBlockStore.get_ok hget).symm
      exact ⟨data, ipld, hdata, hdec, h⟩
    · exact absurd h List.not_mem_nil
  · exact absurd h List.not_mem_nil

theorem link_of_mem_fetchLinks {c : Cid} (h : d ∈ fetchLinks s c) : Link s c d := by
  unfold fetchLinks at h
  split at h
  · exact link_of_mem_getLinks h
  · exact absurd h List.not_mem_nil

end References

/-! ### A whole check -/

section Check

variable [HashCrate] [CidCrate] [CidText] {S : Type} [BlockStore S]

/-- The marks of the walk over references, when the blocks listed first have left the marks `m` and
those in `cids` are still to be checked. A panic is left out: what overflows has no links. -/
def marks (s : S) (config : FsckConfig) (fuel : ℕ) : List Cid → Finset Cid → Option (Finset Cid)
  | [], m => some m
  | c :: cids, m =>
    if config.verifyReferences = true ∧ checkBlock s c = .ok true ∧
        ¬ DepthFirst.LimitReached config.maxDepth m then do
      let (m, _) ←
        DepthFirst.visitList (DepthFirst.visit (fetchLinks s) config.maxDepth fuel) (getLinks s c) m
      marks s config fuel cids m
    else marks s config fuel cids m

/-- The blocks that are decoded when `cids` are checked and the marks grow from `m` to `m'`: those
of `cids` that pass, and those that are newly marked. -/
def DecodedBy (s : S) (config : FsckConfig) (cids : List Cid) (m m' : Finset Cid) (c : Cid) :
    Prop :=
  (config.checkIpld || config.verifyReferences) = true ∧ c ∈ cids ∧ checkBlock s c = .ok true ∨
    BlockStore.has s c = .ok true ∧ c ∈ m' ∧ c ∉ m

/-- The blocks that a check decodes. -/
def Decoded (s : S) (config : FsckConfig) (c : Cid) : Prop :=
  ∃ allCids fuel marked, BlockStore.listCids s = .ok allCids ∧
    marks s config fuel allCids ∅ = some marked ∧ DecodedBy s config allCids ∅ marked c

variable {s : S} {config : FsckConfig} {fuel : ℕ} {c : Cid} {cids : List Cid}
  {m m₁ m' : Finset Cid}

theorem marks_cons_eq_some (h : marks s config fuel (c :: cids) m = some m') :
    ∃ m₁, marks s config fuel [c] m = some m₁ ∧ marks s config fuel cids m₁ = some m' := by
  unfold marks at h
  split at h
  · next hwalk =>
    obtain ⟨⟨m₁, t⟩, hvisit, h⟩ := Option.bind_eq_some_iff.mp h
    exact ⟨m₁, by rw [marks, if_pos hwalk, hvisit]; rfl, h⟩
  · next hskip => exact ⟨m, by rw [marks, if_neg hskip]; rfl, h⟩

theorem subset_of_marks (h : marks s config fuel cids m = some m') : m ⊆ m' := by
  induction cids generalizing m with
  | nil =>
    obtain rfl := Option.some.inj h
    exact Finset.Subset.refl m
  | cons c cids ih =>
    unfold marks at h
    split at h
    · obtain ⟨⟨m₁, t⟩, hvisit, h⟩ := Option.bind_eq_some_iff.mp h
      exact (DepthFirst.visitList_marks DepthFirst.visit_marks hvisit).subset.trans (ih h)
    · exact ih h

theorem marks_mono {fuel' : ℕ} (hle : fuel ≤ fuel') (h : marks s config fuel cids m = some m') :
    marks s config fuel' cids m = some m' := by
  induction cids generalizing m with
  | nil => exact h
  | cons c cids ih =>
    unfold marks at h ⊢
    split at h
    · next hwalk =>
      obtain ⟨⟨m₁, t⟩, hvisit, h⟩ := Option.bind_eq_some_iff.mp h
      rw [if_pos hwalk, DepthFirst.visitList_mono (DepthFirst.visit_mono hle) hvisit]
      exact ih h
    · next hskip =>
      rw [if_neg hskip]
      exact ih h

theorem exists_marks [StoreView S] [LawfulBlockStore S] {V : Finset Cid}
    (hV : ∀ d, d ∈ V ↔ ∃ c, Link s c d) (hfuel : V.card ≤ fuel) (cids : List Cid)
    (m : Finset Cid) : ∃ m', marks s config fuel cids m = some m' := by
  induction cids generalizing m with
  | nil => exact ⟨m, rfl⟩
  | cons c cids ih =>
    unfold marks
    split
    · have hsucc : ∀ x, ∀ y ∈ fetchLinks s x, y ∈ V :=
        fun x y hy => (hV y).mpr ⟨x, link_of_mem_fetchLinks hy⟩
      have hcard : (V \ m).card ≤ fuel := (Finset.card_le_card Finset.sdiff_subset).trans hfuel
      obtain ⟨⟨m₁, t⟩, hvisit⟩ : ∃ r, DepthFirst.visitList
          (DepthFirst.visit (fetchLinks s) config.maxDepth fuel) (getLinks s c) m = some r :=
        DepthFirst.exists_visitList (DepthFirst.exists_visit hsucc)
          (fun h => (DepthFirst.visit_marks h).subset)
          (fun y hy => (hV y).mpr ⟨c, link_of_mem_getLinks hy⟩) hcard
      obtain ⟨m', hm'⟩ := ih m₁
      exact ⟨m', by rw [hvisit]; exact hm'⟩
    · exact ih m

omit [CidCrate] in
theorem decodedBy_cons (hsub : m ⊆ m₁) (hsub' : m₁ ⊆ m') {d : Cid} :
    DecodedBy s config (c :: cids) m m' d ↔
      DecodedBy s config [c] m m₁ d ∨ DecodedBy s config cids m₁ m' d := by
  unfold DecodedBy
  rw [List.mem_cons, List.mem_singleton]
  constructor
  · rintro (⟨hconfig, rfl | hd, hpass⟩ | ⟨hhas, hd, hnew⟩)
    · exact Or.inl (Or.inl ⟨hconfig, rfl, hpass⟩)
    · exact Or.inr (Or.inl ⟨hconfig, hd, hpass⟩)
    · by_cases hd₁ : d ∈ m₁
      exacts [Or.inl (Or.inr ⟨hhas, hd₁, hnew⟩), Or.inr (Or.inr ⟨hhas, hd, hd₁⟩)]
  · rintro ((⟨hconfig, hd, hpass⟩ | ⟨hhas, hd, hnew⟩) | ⟨hconfig, hd, hpass⟩ | ⟨hhas, hd, hnew⟩)
    exacts [Or.inl ⟨hconfig, Or.inl hd, hpass⟩, Or.inr ⟨hhas, hsub' hd, hnew⟩,
      Or.inl ⟨hconfig, Or.inr hd, hpass⟩, Or.inr ⟨hhas, hd, fun hm => hnew (hsub hm)⟩]

variable (itemSize : ℕ)

/-- **What the check of some CIDs does** while the marks grow from `m` to `m'`: it adds the newly
marked CIDs that are not stored to the result, or it panics over a block that it decodes. -/
inductive Checks (s : S) (config : FsckConfig) (cids : List Cid) (m m' : Finset Cid)
    (result : FsckResult) : Except Fault (FsckResult × Finset Cid) → Prop
  | ok {result' : FsckResult} {missing : List Cid}
      (happend : result'.blocksMissing = result.blocksMissing ++ missing)
      (hmissing : NewMissing s m m' missing)
      (hfit : ∀ c, DecodedBy s config cids m m' c → ¬ Bursts itemSize s c) :
      Checks s config cids m m' result (.ok (result', m'))
  | panic {c : Cid} {msg : String} (hc : DecodedBy s config cids m m' c)
      (hbursts : Bursts itemSize s c) :
      Checks s config cids m m' result (.error (.panic msg))

variable {itemSize} {result result₁ : FsckResult}

theorem Checks.cons (hsub : m ⊆ m₁) (hsub' : m₁ ⊆ m')
    (h : Checks itemSize s config [c] m m₁ result (.ok (result₁, m₁)))
    {out : Except Fault (FsckResult × Finset Cid)}
    (h' : Checks itemSize s config cids m₁ m' result₁ out) :
    Checks itemSize s config (c :: cids) m m' result out := by
  cases h with
  | ok happend hmissing hfit =>
    cases h' with
    | ok happend' hmissing' hfit' =>
      refine .ok (by rw [happend', happend, List.append_assoc])
        (hmissing.trans hsub hsub' hmissing') fun d hd => ?_
      exact ((decodedBy_cons hsub hsub').mp hd).elim (hfit d) (hfit' d)
    | panic hc hbursts => exact .panic ((decodedBy_cons hsub hsub').mpr (Or.inr hc)) hbursts

theorem Checks.cons_of_error (hsub : m ⊆ m₁) (hsub' : m₁ ⊆ m') {f : Fault}
    (h : Checks itemSize s config [c] m m₁ result (.error f)) :
    Checks itemSize s config (c :: cids) m m' result (.error f) := by
  cases h with
  | panic hc hbursts => exact .panic ((decodedBy_cons hsub hsub').mpr (Or.inl hc)) hbursts

omit [CidCrate] in
theorem exists_get_of_pass (hpass : checkBlock s c = .ok true) :
    ∃ block, BlockStore.get s c = .ok (some block) := by
  obtain ⟨r, hget, hr⟩ := Except.bind_eq_ok_iff.mp hpass
  cases r with
  | none => exact absurd hr (by simp)
  | some block => exact ⟨block, hget⟩

theorem Checks.skip {result' : FsckResult} (hmissing : result'.blocksMissing = result.blocksMissing)
    (hfit : (config.checkIpld || config.verifyReferences) = true → checkBlock s c = .ok true →
      ¬ Bursts itemSize s c) : Checks itemSize s config [c] m m result (.ok (result', m)) := by
  refine .ok (by rw [hmissing, List.append_nil]) (.refl s m) ?_
  rintro d (⟨hconfig, hd, hpass⟩ | ⟨-, hd, hnew⟩)
  · obtain rfl := List.mem_singleton.mp hd
    exact hfit hconfig hpass
  · exact absurd hd hnew

theorem Checks.of_follows (result₁ : FsckResult) (hfit : ¬ Bursts itemSize s c)
    {out : Except Fault (List Cid × Finset Cid)} (h : Follows itemSize s m m' out) :
    Checks itemSize s config [c] m m' result (out.map fun (missing, checkedRefs) =>
      ({ result₁ with blocksMissing := result.blocksMissing ++ missing }, checkedRefs)) := by
  cases h with
  | ok hmissing hfit' =>
    refine .ok rfl hmissing ?_
    rintro d (⟨-, hd, -⟩ | ⟨hhas, hd, hnew⟩) hbursts
    · exact hfit (List.mem_singleton.mp hd ▸ hbursts)
    · exact hfit' d hd hnew ⟨hhas, hbursts⟩
  | panic hc hnew hbursts => exact .panic (Or.inr ⟨hbursts.1, hc, hnew⟩) hbursts.2

/-- **One listed CID.** -/
theorem checkCid_checks (hm : marks s config fuel [c] m = some m') (result : FsckResult) :
    ∃ out, checkCid itemSize (fuel + 1) s config c (result, m) = some out ∧
      Checks itemSize s config [c] m m' result out := by
  have hskip (hno : ¬ (config.verifyReferences = true ∧ checkBlock s c = .ok true ∧
      ¬ DepthFirst.LimitReached config.maxDepth m)) : m' = m := by
    rw [marks, if_neg hno] at hm
    exact (Option.some.inj hm).symm
  by_cases hpass : checkBlock s c = .ok true
  · obtain ⟨block, hget⟩ := exists_get_of_pass hpass
    by_cases hconfig : (config.checkIpld || config.verifyReferences) = true
    · simp only [checkCid, hpass, hconfig, if_true, hget, Ipld.tryFromDagCbor_eq]
      by_cases hover : Ipld.Overflows itemSize block.data
      · rw [if_pos hover]
        exact ⟨_, rfl, .panic (Or.inl ⟨hconfig, List.mem_singleton_self c, hpass⟩)
          ⟨block, hget, hover⟩⟩
      · have hfit : ¬ Bursts itemSize s c := mt (bursts_iff itemSize hget).mp hover
        rw [if_neg hover]
        cases hdec : Ipld.fromDagCbor block.data with
        | ok ipld =>
          dsimp only [liftResult]
          by_cases hverify : config.verifyReferences = true
          · -- the walk over the links of the block
            suffices hrefs : ∃ out, checkReferences itemSize s config.maxDepth (fuel + 1) ipld m
                = some out ∧ Follows itemSize s m m' out by
              obtain ⟨out, hrun, hfollows⟩ := hrefs
              exact ⟨_, by rw [if_pos hverify, hrun]; rfl,
                .of_follows { result with blocksValid := result.blocksValid + 1 } hfit hfollows⟩
            by_cases hlim : DepthFirst.LimitReached config.maxDepth m
            · obtain rfl := hskip fun hno => hno.2.2 hlim
              exact ⟨_, by rw [checkReferences, if_pos hlim], .refl s m'⟩
            · rw [marks, if_pos ⟨hverify, hpass, hlim⟩] at hm
              obtain ⟨⟨m₁, t⟩, hvisit, hm⟩ := Option.bind_eq_some_iff.mp hm
              obtain rfl := Option.some.inj hm
              have hlinks : getLinks s c = ipld.links := by simp only [getLinks, hget, hdec]
              rw [hlinks] at hvisit
              rw [checkReferences, if_neg hlim]
              exact checkLinks_follows (checkReferences_follows itemSize s _ fuel) hvisit
          · obtain rfl := hskip fun hno => hverify hno.1
            refine ⟨_, if_neg hverify, .skip ?_ fun _ _ => hfit⟩
            rfl
        | error e =>
          -- a block that is not DAG-CBOR has no links
          obtain rfl : m' = m := by
            have hnil : getLinks s c = [] := by simp only [getLinks, hget, hdec]
            unfold marks at hm
            rw [hnil] at hm
            split at hm <;> exact (Option.some.inj hm).symm
          dsimp only [liftResult]
          split
          · exact ⟨_, rfl, .skip rfl fun _ _ => hfit⟩
          · exact ⟨_, rfl, .skip rfl fun _ _ => hfit⟩
    · -- nothing is decoded
      obtain rfl := hskip fun hno => hconfig (by rw [hno.1, Bool.or_true])
      simp only [checkCid, hpass, if_neg hconfig]
      exact ⟨_, rfl, .skip rfl fun hno => absurd hno hconfig⟩
  · obtain rfl := hskip fun hno => hpass hno.2.1
    have hrun : checkCid itemSize (fuel + 1) s config c (result, m') = some (.ok
        ({ result with blocksCorrupt := result.blocksCorrupt ++ [c] }, m')) := by
      simp only [checkCid]
    exact ⟨_, hrun, .skip rfl fun _ hno => absurd hno hpass⟩

theorem checkCids_checks (hm : marks s config fuel cids m = some m') (result : FsckResult) :
    ∃ out, checkCids itemSize (fuel + 1) s config cids (result, m) = some out ∧
      Checks itemSize s config cids m m' result out := by
  induction cids generalizing m result with
  | nil =>
    obtain rfl := Option.some.inj hm
    refine ⟨_, rfl, .ok (List.append_nil _).symm (.refl s m) ?_⟩
    rintro d (⟨-, hd, -⟩ | ⟨-, hd, hnew⟩)
    exacts [absurd hd List.not_mem_nil, absurd hd hnew]
  | cons c cids ih =>
    obtain ⟨m₁, hm₁, hm⟩ := marks_cons_eq_some hm
    have hsub := subset_of_marks hm₁
    have hsub' := subset_of_marks hm
    obtain ⟨out₁, hrun₁, hchecks₁⟩ := checkCid_checks hm₁ result
    cases out₁ with
    | error f => exact ⟨_, by rw [checkCids, hrun₁], hchecks₁.cons_of_error hsub hsub'⟩
    | ok st =>
      obtain ⟨result₁, m₁'⟩ := st
      obtain rfl : m₁' = m₁ := by
        cases hchecks₁
        rfl
      obtain ⟨out, hrun, hchecks⟩ := ih hm result₁
      exact ⟨out, by rw [checkCids, hrun₁]; exact hrun, hchecks₁.cons hsub hsub' hchecks⟩

/-- **A check ends**, over whatever links the store has, and it returns a report if and only if no
block that it decodes overflows. -/
theorem check_ends (itemSize : ℕ) [StoreView S] [LawfulBlockStore S] (s : S) (config : FsckConfig)
    {allCids : List Cid} (hlist : BlockStore.listCids s = .ok allCids) :
    ∃ n, ∀ fuel ≥ n, ∃ r, check itemSize fuel s config = some r ∧
      ((∃ result, r = .ok result) ↔ ∀ c, Decoded s config c → ¬ Bursts itemSize s c) := by
  obtain ⟨V, hV⟩ := exists_linked s
  refine ⟨V.card + 1, fun fuel hfuel => ?_⟩
  obtain ⟨fuel, rfl⟩ : ∃ k, fuel = k + 1 := ⟨fuel - 1, by omega⟩
  obtain ⟨marked, hmarked⟩ : ∃ marked, marks s config fuel allCids ∅ = some marked :=
    exists_marks hV (by omega) allCids ∅
  obtain ⟨out, hrun, hchecks⟩ : ∃ out, checkCids itemSize (fuel + 1) s config allCids
      ({ blocksChecked := allCids.length }, ∅) = some out ∧
        Checks itemSize s config allCids ∅ marked { blocksChecked := allCids.length } out :=
    checkCids_checks hmarked _
  -- the marks do not depend on the fuel
  have hdecoded (c : Cid) : Decoded s config c ↔ DecodedBy s config allCids ∅ marked c := by
    refine ⟨?_, fun hc => ⟨allCids, fuel, marked, hlist, hmarked, hc⟩⟩
    rintro ⟨allCids', fuel', marked', hlist', hmarked', hc⟩
    obtain rfl := Except.ok.inj (hlist.symm.trans hlist')
    have hmax := marks_mono (Nat.le_max_left fuel fuel') hmarked
    have hmax' := marks_mono (Nat.le_max_right fuel fuel') hmarked'
    obtain rfl := Option.some.inj (hmax.symm.trans hmax')
    exact hc
  simp only [check, hlist, hrun, Option.map_some]
  refine ⟨_, rfl, ?_⟩
  simp only [hdecoded]
  cases hchecks with
  | ok _ _ hfit => exact iff_of_true ⟨_, rfl⟩ hfit
  | panic hc hbursts =>
    refine iff_of_false ?_ fun hfit => hfit _ hc hbursts
    rintro ⟨result, hr⟩
    exact absurd hr (by simp [Except.map])

end Check

section Fits

variable [CidCrate] {S : Type} [StoreView S]

/-- No stored block overflows. -/
def Fits (itemSize : ℕ) (s : S) : Prop :=
  ∀ {c : Cid} {data : Bytes}, view s c = some data → ¬ Ipld.Overflows itemSize data

theorem Fits.not_bursts [BlockStore S] [LawfulBlockStore S] {itemSize : ℕ} {s : S}
    (hfits : Fits itemSize s) (c : Cid) : ¬ Bursts itemSize s c := by
  rintro ⟨block, hget, hover⟩
  obtain ⟨data, hdata, rfl⟩ := Option.map_eq_some_iff.mp (LawfulBlockStore.get_ok hget).symm
  exact hfits hdata hover

end Fits

/-! ### Corrupt blocks -/

section Corrupt

variable [HashCrate]

/-- Hashing `data` with the version, the codec and the hash algorithm of `c` gives `c`. -/
def Verifies (c : Cid) (data : Bytes) : Prop :=
  ∃ a : HashAlgorithm, CidBuilder.build ⟨c.version, c.codec, a⟩ data = .ok c

/-- The parameters of the blocks that `Block::new` makes. -/
def DefaultParams (c : Cid) : Prop :=
  c.version = .v1 ∧ c.codec = Codec.raw ∧ c.hash.code = HashAlgorithm.sha256.code

/-- What `Block::new` computes is what the CID says, for CIDs with these parameters. -/
theorem eq_ofData_iff {c : Cid} {data : Bytes} :
    Cid.ofData Codec.raw .sha256 data = c ↔ DefaultParams c ∧ Verifies c data := by
  constructor
  · rintro rfl
    exact ⟨⟨rfl, rfl, rfl⟩, .sha256, CidBuilder.build_v1 rfl data⟩
  · rintro ⟨⟨hversion, hcodec, hcode⟩, a, hbuild⟩
    -- the code of the multihash says which algorithm it was
    have hhash := (CidBuilder.build_eq_ok hbuild).1
    rw [hhash] at hcode
    obtain rfl : a = .sha256 := HashAlgorithm.code_injective hcode
    rw [CidBuilder.build_v1 hversion, hcodec, Except.ok.injEq] at hbuild
    exact hbuild

variable [CidText] {S : Type} [BlockStore S] [StoreView S] [LawfulBlockStore S]
variable {s : S} {fuel : ℕ} {config : FsckConfig} {st st' : FsckResult × Finset Cid}
  {cids : List Cid} {result : FsckResult}

/-- A stored block passes when `Block::new` makes it from its data. -/
theorem checkBlock_eq_true_iff {c : Cid} {data : Bytes} (hview : view s c = some data)
    (hread : ∃ r, BlockStore.get s c = .ok r) :
    checkBlock s c = .ok true ↔
      (minBlockSize ≤ data.length ∧ data.length ≤ maxBlockSize) ∧
        Cid.ofData Codec.raw .sha256 data = c := by
  obtain ⟨r, hr⟩ := hread
  have hget : BlockStore.get s c = .ok (some ⟨c, data⟩) := by
    rw [hr, LawfulBlockStore.get_ok hr, hview]
    rfl
  have hcheck : checkBlock s c = do
      let recomputedBlock ← Block.new data
      return recomputedBlock.cid == c := by
    rw [checkBlock, hget]
    rfl
  rw [hcheck, Except.bind_eq_ok_iff]
  constructor
  · -- `Block::new` succeeded, with the same CID
    rintro ⟨b, hb, hcid⟩
    obtain ⟨hsize, rfl⟩ := Block.new_eq_ok.mp hb
    exact ⟨hsize, by simpa using hcid⟩
  · rintro ⟨hsize, rfl⟩
    exact ⟨_, Block.new_of_size hsize.1 hsize.2, by simp⟩

variable [CidCrate] {itemSize : ℕ}

omit [StoreView S] [LawfulBlockStore S] in
theorem checkCid_blocksCorrupt {c : Cid}
    (h : checkCid itemSize fuel s config c st = some (.ok st')) :
    st'.1.blocksCorrupt =
      if checkBlock s c = .ok true then st.1.blocksCorrupt else st.1.blocksCorrupt ++ [c] := by
  obtain ⟨result, checkedRefs⟩ := st
  simp only [checkCid] at h
  split at h
  · next hpass =>
    rw [if_pos hpass]
    -- none of the branches for a sound block touches the list
    split at h
    · split at h
      · simp at h
      · obtain rfl := Except.ok.inj (Option.some.inj h)
        rfl
      · split at h
        · split at h
          · obtain ⟨p, -, h⟩ := Option.map_eq_some_iff.mp h
            obtain ⟨q, -, rfl⟩ := Except.map_eq_ok_iff.mp h
            rfl
          · obtain rfl := Except.ok.inj (Option.some.inj h)
            rfl
        · split at h <;> obtain rfl := Except.ok.inj (Option.some.inj h) <;> rfl
        · simp at h
    · obtain rfl := Except.ok.inj (Option.some.inj h)
      rfl
  · next hfail =>
    rw [if_neg hfail]
    obtain rfl := Except.ok.inj (Option.some.inj h)
    rfl

omit [StoreView S] [LawfulBlockStore S] in
theorem checkCids_cons_eq_ok {c : Cid}
    (h : checkCids itemSize fuel s config (c :: cids) st = some (.ok st')) :
    ∃ st₁, checkCid itemSize fuel s config c st = some (.ok st₁) ∧
      checkCids itemSize fuel s config cids st₁ = some (.ok st') := by
  unfold checkCids at h
  split at h
  · next st₁ h₁ => exact ⟨st₁, h₁, h⟩
  · next hno => exact absurd h (hno st')

omit [StoreView S] [LawfulBlockStore S] in
theorem checkCids_blocksCorrupt (h : checkCids itemSize fuel s config cids st = some (.ok st'))
    (c : Cid) :
    c ∈ st'.1.blocksCorrupt ↔
      c ∈ st.1.blocksCorrupt ∨ c ∈ cids ∧ checkBlock s c ≠ .ok true := by
  induction cids generalizing st with
  | nil =>
    obtain rfl := Except.ok.inj (Option.some.inj h)
    simp
  | cons c' cids ih =>
    obtain ⟨st₁, h₁, h⟩ := checkCids_cons_eq_ok h
    rw [ih h, checkCid_blocksCorrupt h₁, List.mem_cons]
    split
    · -- a block that passes is not added, and none is called for
      next hpass =>
      constructor
      · rintro (hc | ⟨hc, hne⟩)
        exacts [Or.inl hc, Or.inr ⟨Or.inr hc, hne⟩]
      · rintro (hc | ⟨rfl | hc, hne⟩)
        exacts [Or.inl hc, absurd hpass hne, Or.inr ⟨hc, hne⟩]
    · -- a block that fails is added
      next hfail =>
      rw [List.mem_append, List.mem_singleton]
      constructor
      · rintro ((hc | rfl) | ⟨hc, hne⟩)
        exacts [Or.inl hc, Or.inr ⟨Or.inl rfl, hfail⟩, Or.inr ⟨Or.inr hc, hne⟩]
      · rintro (hc | ⟨rfl | hc, hne⟩)
        exacts [Or.inl (Or.inl hc), Or.inl (Or.inr rfl), Or.inr ⟨hc, hne⟩]

omit [StoreView S] [LawfulBlockStore S] in
theorem check_eq_some_ok (h : check itemSize fuel s config = some (.ok result)) :
    ∃ allCids st, BlockStore.listCids s = .ok allCids ∧
      checkCids itemSize fuel s config allCids ({ blocksChecked := allCids.length }, ∅)
        = some (.ok st) ∧ result = st.1 := by
  unfold check at h
  split at h
  · simp at h
  · next allCids hlist =>
    obtain ⟨r, hr, h⟩ := Option.map_eq_some_iff.mp h
    obtain ⟨st, rfl, rfl⟩ := Except.map_eq_ok_iff.mp h
    exact ⟨allCids, st, hlist, hr, rfl⟩

theorem mem_blocksCorrupt_iff_of_ok (h : check itemSize fuel s config = some (.ok result)) {c : Cid}
    {data : Bytes} (hview : view s c = some data) :
    (c ∈ result.blocksCorrupt ↔ ¬ Verifies c data) ↔
      ¬ Verifies c data ∨ (∃ r, BlockStore.get s c = .ok r) ∧
        DefaultParams c ∧ minBlockSize ≤ data.length ∧ data.length ≤ maxBlockSize := by
  obtain ⟨allCids, st, hlist, hloop, rfl⟩ := check_eq_some_ok h
  have hmem : c ∈ allCids :=
    ((LawfulBlockStore.listCids_ok hlist).2 c).mpr (Option.isSome_iff_exists.mpr ⟨data, hview⟩)
  have hcorrupt : c ∈ st.1.blocksCorrupt ↔ ¬ checkBlock s c = .ok true := by
    rw [checkCids_blocksCorrupt hloop]
    simp [hmem]
  rw [hcorrupt, not_iff_not]
  by_cases hread : ∃ r, BlockStore.get s c = .ok r
  · -- the verdict is right unless the block verifies and does not pass
    rw [checkBlock_eq_true_iff hview hread, eq_ofData_iff]
    by_cases hv : Verifies c data
    · simp only [hv, hread, and_true, true_and, iff_true, not_true_eq_false, false_or]
      exact and_comm
    · simp [hv]
  · -- a block that cannot be read does not pass
    have hfail : ¬ checkBlock s c = .ok true := by
      cases hget : BlockStore.get s c with
      | ok r => exact absurd ⟨r, hget⟩ hread
      | error e => simp [checkBlock, hget]
    simp [hread, hfail]

/-- **The integrity verdict.** A check of a store that can be listed ends. For a stored block, it
returns a report that calls the block corrupt exactly when its data does not hash to its CID under
the parameters of the CID, if and only if no block that the check decodes overflows and the data
does not, or the block can be read, its CID has the parameters of `Block::new` and the data is of a
valid size. -/
theorem mem_blocksCorrupt_iff (itemSize : ℕ) (s : S) (config : FsckConfig) {allCids : List Cid}
    (hlist : BlockStore.listCids s = .ok allCids) :
    ∃ n, ∀ fuel ≥ n, ∃ r, check itemSize fuel s config = some r ∧
      ∀ {c : Cid} {data : Bytes}, view s c = some data →
        ((∃ result, r = .ok result ∧ (c ∈ result.blocksCorrupt ↔ ¬ Verifies c data)) ↔
          (∀ d, Decoded s config d → ¬ Bursts itemSize s d) ∧
            (¬ Verifies c data ∨ (∃ r, BlockStore.get s c = .ok r) ∧
              DefaultParams c ∧ minBlockSize ≤ data.length ∧ data.length ≤ maxBlockSize)) := by
  obtain ⟨n, hends⟩ := check_ends itemSize s config hlist
  refine ⟨n, fun fuel hfuel => ?_⟩
  obtain ⟨r, hrun, hreturns⟩ := hends fuel hfuel
  refine ⟨r, hrun, fun hview => ?_⟩
  rw [← hreturns]
  constructor
  · rintro ⟨result, rfl, hverdict⟩
    exact ⟨⟨result, rfl⟩, (mem_blocksCorrupt_iff_of_ok hrun hview).mp hverdict⟩
  · rintro ⟨⟨result, rfl⟩, hcond⟩
    exact ⟨result, rfl, (mem_blocksCorrupt_iff_of_ok hrun hview).mpr hcond⟩

end Corrupt

section Sample

open scoped CidReference

/-- A store with the given blocks. -/
def storeOf (blocks : List Block) : MemoryBlockStore := blocks.foldl MemoryBlockStore.insert .new

variable {blocks : List Block}

theorem mem_of_view_storeOf {c : Cid} {data : Bytes} (h : view (storeOf blocks) c = some data) :
    ⟨c, data⟩ ∈ blocks := by
  suffices hfold : ∀ (s : MemoryBlockStore), view (blocks.foldl MemoryBlockStore.insert s) c
      = some data → ⟨c, data⟩ ∈ blocks ∨ view s c = some data by
    exact (hfold .new h).resolve_right (by simp [view, MemoryBlockStore.new])
  clear h
  induction blocks with
  | nil => exact fun s h => Or.inr h
  | cons b blocks ih =>
    intro s h
    rcases ih _ h with h | h
    · exact Or.inl (List.mem_cons_of_mem _ h)
    · -- it was there after `b` was put: it is `b`, or it was there before
      change ((s.blocks.insert b.cid b).lookup c).map Block.data = some data at h
      by_cases hc : c = b.cid
      · rw [hc, AList.lookup_insert] at h
        obtain rfl := Option.some.inj h
        exact Or.inl (by rw [hc]; exact List.mem_cons_self)
      · rw [AList.lookup_insert_ne hc] at h
        exact Or.inr h

theorem fits_storeOf {itemSize : ℕ} (h : ∀ b ∈ blocks, ¬ Ipld.Overflows itemSize b.data) :
    Fits itemSize (storeOf blocks) :=
  fun hview => h _ (mem_of_view_storeOf hview)

theorem mem_blocksCorrupt_zeros :
    letI := zerosHash
    ∃ n, ∀ fuel ≥ n, ∃ result,
      check 112 fuel (storeOf zerosFile.blocks) {} = some (.ok result) ∧
        ((Chunker.leafBlock [0]).cid ∈ result.blocksCorrupt ↔
          ¬ Verifies (Chunker.leafBlock [0]).cid [0]) := by
  let := zerosHash
  have hfits : Fits 112 (storeOf zerosFile.blocks) := fits_storeOf (by decide +kernel)
  have hview : view (storeOf zerosFile.blocks) (Chunker.leafBlock [0]).cid = some [0] := by
    decide +kernel
  obtain ⟨n, hcheck⟩ := mem_blocksCorrupt_iff 112 (storeOf zerosFile.blocks) {} rfl
  refine ⟨n, fun fuel hfuel => ?_⟩
  obtain ⟨r, hrun, hverdict⟩ := hcheck fuel hfuel
  obtain ⟨result, rfl, hiff⟩ := (hverdict hview).mpr ⟨fun d _ => hfits.not_bursts d, Or.inr
    ⟨⟨_, rfl⟩, ⟨rfl, rfl, rfl⟩, by decide, by decide⟩⟩
  exact ⟨result, hrun, hiff⟩

theorem check_flags_zerosRoot :
    letI := zerosHash
    ¬ ∀ (s : MemoryBlockStore) (fuel : ℕ) (result : FsckResult),
      check 112 fuel s {} = some (.ok result) → ∀ (c : Cid) (data : Bytes), view s c = some data →
        (c ∈ result.blocksCorrupt ↔ ¬ Verifies c data) := by
  let := zerosHash
  intro hall
  let root := Chunker.nodeBlock zerosLinks
  have hcheck : check 112 1 (storeOf zerosFile.blocks) {} = some (.ok
      { blocksChecked := 3, blocksValid := 2, blocksCorrupt := [root.cid] }) := by
    decide +kernel
  have hview : view (storeOf zerosFile.blocks) root.cid = some root.data := by
    decide +kernel
  -- the data is right under the codec of the CID
  have hverifies : Verifies root.cid root.data := ⟨.sha256, by decide +kernel⟩
  have hflag := hall _ _ _ hcheck _ _ hview
  exact hflag.mp List.mem_cons_self hverifies

end Sample

/-! ### Missing blocks -/

section Missing

variable [HashCrate] {S : Type} [StoreView S]

/-- Every block of the store is one that `Block::new` makes. -/
def RawStore (s : S) : Prop :=
  ∀ {c : Cid} {data : Bytes}, view s c = some data →
    (minBlockSize ≤ data.length ∧ data.length ≤ maxBlockSize) ∧
      Cid.ofData Codec.raw .sha256 data = c

variable [CidCrate]

omit [HashCrate] in
/-- A stored block links to `c`, and `c` is not stored. -/
def Dangling (s : S) (c : Cid) : Prop := (∃ p, Link s p c) ∧ view s c = none

omit [HashCrate] in
/-- The result of a check lists the dangling links, each once, and is healthy when there is none. -/
structure ReportsDangling (s : S) (result : FsckResult) : Prop where
  nodup : result.blocksMissing.Nodup
  mem_iff : ∀ c, c ∈ result.blocksMissing ↔ Dangling s c
  isHealthy_iff : result.isHealthy = true ↔ ∀ c, ¬ Dangling s c

variable {s : S} {config : FsckConfig} {fuel : ℕ} {allCids : List Cid}

omit [HashCrate] in
theorem ReportsDangling.of_mem_iff {result : FsckResult} (hcorrupt : result.blocksCorrupt = [])
    (hnodup : result.blocksMissing.Nodup)
    (hmem_iff : ∀ c, c ∈ result.blocksMissing ↔ Dangling s c) : ReportsDangling s result := by
  refine ⟨hnodup, hmem_iff, ?_⟩
  rw [FsckResult.isHealthy_iff hcorrupt]
  exact forall_congr' fun c => not_congr (hmem_iff c)

variable [BlockStore S]

omit [HashCrate] in
/-- The depth-first walk from the listed CIDs, with no limit on it, enters `p` when `k` different
CIDs have been linked from the blocks before. -/
def Entered (s : S) (p : Cid) (k : ℕ) : Prop :=
  ∃ allCids fuel marked t, BlockStore.listCids s = .ok allCids ∧
    DepthFirst.walk (storedLinks s) none fuel allCids ∅ = some (marked, t) ∧ (p, k) ∈ t

variable [CidText] [LawfulBlockStore S] [ReliableBlockStore S] {itemSize : ℕ}

omit [HashCrate] [CidText] in
theorem getLinks_eq_storedLinks (s : S) : getLinks s = storedLinks s := by
  funext c
  unfold getLinks storedLinks
  rw [BlockStore.get_eq]
  cases view s c <;> rfl

omit [HashCrate] [CidText] in
theorem fetchLinks_eq_storedLinks (s : S) : fetchLinks s = storedLinks s := by
  funext c
  unfold fetchLinks
  rw [BlockStore.has_eq, getLinks_eq_storedLinks]
  cases hview : view s c with
  | none => simp only [storedLinks, hview, Option.isSome_none]
  | some data => rfl

omit [HashCrate] [CidCrate] [CidText] in
theorem has_ne_true_iff {c : Cid} : BlockStore.has s c ≠ .ok true ↔ view s c = none := by
  rw [BlockStore.has_eq]
  cases view s c <;> simp

omit [CidCrate] in
theorem RawStore.checkBlock_eq (hraw : RawStore s) {c : Cid} (hc : (view s c).isSome = true) :
    checkBlock s c = .ok true := by
  obtain ⟨data, hview⟩ := Option.isSome_iff_exists.mp hc
  exact (checkBlock_eq_true_iff hview (ReliableBlockStore.get s c)).mpr (hraw hview)

/-- Over a store of raw blocks, the walk of a check starts from every listed CID. -/
theorem marks_of_walk (hraw : RawStore s) (hverify : config.verifyReferences = true)
    {cids : List Cid} (hcids : ∀ c ∈ cids, (view s c).isSome = true) {m m' : Finset Cid}
    {t : List (Cid × ℕ)}
    (h : DepthFirst.walk (storedLinks s) config.maxDepth (fuel + 1) cids m = some (m', t)) :
    marks s config fuel cids m = some m' := by
  induction cids generalizing m t with
  | nil =>
    obtain ⟨rfl, -⟩ := Prod.mk.inj (Option.some.inj h)
    rfl
  | cons c cids ih =>
    obtain ⟨m₁, t₁, t₂, hv, hw, -⟩ := DepthFirst.walk_cons_eq_some h
    have hrest := ih (fun d hd => hcids d (List.mem_cons_of_mem _ hd)) hw
    by_cases hlim : DepthFirst.LimitReached config.maxDepth m
    · -- the CID is not entered
      rw [DepthFirst.visit_of_limitReached _ _ hlim] at hv
      obtain ⟨rfl, -⟩ := Prod.mk.inj (Option.some.inj hv)
      rw [marks, if_neg fun hno => hno.2.2 hlim]
      exact hrest
    · obtain ⟨fuel', t', hfuel, hl, -⟩ := DepthFirst.visit_eq_some hlim hv
      obtain rfl : fuel = fuel' := by omega
      rw [marks, if_pos ⟨hverify, hraw.checkBlock_eq (hcids c List.mem_cons_self), hlim⟩,
        fetchLinks_eq_storedLinks, getLinks_eq_storedLinks, hl]
      exact hrest

/-- **A check of a store of raw blocks** is a depth-first walk from all stored CIDs. It decodes
every stored block, so it returns if and only if none overflows; then it calls no block corrupt, and
reports what the walk marks and the store does not have. -/
theorem check_eq_ok (hraw : RawStore s) (config : FsckConfig)
    (hverify : config.verifyReferences = true) (hlist : BlockStore.listCids s = .ok allCids)
    {m : Finset Cid} {t : List (Cid × ℕ)}
    (h : DepthFirst.walk (storedLinks s) config.maxDepth (fuel + 1) allCids ∅ = some (m, t)) :
    ∃ r, check itemSize (fuel + 1) s config = some r ∧
      ((∃ result, r = .ok result) ↔ Fits itemSize s) ∧
        ∀ result, r = .ok result → result.blocksCorrupt = [] ∧ result.blocksMissing.Nodup ∧
          ∀ c, c ∈ result.blocksMissing ↔ (∃ e ∈ t, Link s e.1 c) ∧ view s c = none := by
  have hstored : ∀ c ∈ allCids, (view s c).isSome = true :=
    fun c hc => ((LawfulBlockStore.listCids_ok hlist).2 c).mp hc
  have hmarks := marks_of_walk hraw hverify hstored h
  obtain ⟨out, hrun, hchecks⟩ : ∃ out, checkCids itemSize (fuel + 1) s config allCids
      ({ blocksChecked := allCids.length }, ∅) = some out ∧ Checks itemSize s config allCids ∅ m
        { blocksChecked := allCids.length } out :=
    checkCids_checks hmarks _
  refine ⟨out.map Prod.fst, by simp only [check, hlist, hrun, Option.map_some], ?_⟩
  cases hchecks with
  | panic hc hbursts =>
    constructor
    · refine iff_of_false ?_ fun hfits => hfits.not_bursts _ hbursts
      rintro ⟨result, hr⟩
      exact absurd hr (by simp [Except.map])
    · exact fun result hr => absurd hr (by simp [Except.map])
  | @ok result missing happend hmissing hfit =>
    constructor
    · refine iff_of_true ⟨result, rfl⟩ fun {c data} hview hover => ?_
      -- every stored block is listed and passes
      have hsome := Option.isSome_iff_exists.mpr ⟨data, hview⟩
      refine hfit c (Or.inl ⟨by rw [hverify, Bool.or_true],
        ((LawfulBlockStore.listCids_ok hlist).2 c).mpr hsome, hraw.checkBlock_eq hsome⟩) ?_
      exact ⟨⟨c, data⟩, by rw [BlockStore.get_eq, hview]; rfl, hover⟩
    · rintro result' hr
      obtain rfl := Except.ok.inj hr
      obtain rfl : result.blocksMissing = missing := happend
      refine ⟨?_, hmissing.1, fun c => ?_⟩
      · rw [List.eq_nil_iff_forall_not_mem]
        intro c hc
        rcases (checkCids_blocksCorrupt hrun c).mp hc with hc | ⟨hc, hfail⟩
        exacts [absurd hc List.not_mem_nil, hfail (hraw.checkBlock_eq (hstored c hc))]
      · rw [hmissing.2, has_ne_true_iff, (DepthFirst.walk_marks h).mem_iff]
        simp only [mem_storedLinks_iff, Finset.notMem_empty, not_false_eq_true, and_true]

omit [HashCrate] [CidText] [LawfulBlockStore S] [ReliableBlockStore S] in
/-- What the walk without a limit enters does not depend on the fuel. -/
theorem entered_iff (hlist : BlockStore.listCids s = .ok allCids) {m : Finset Cid}
    {t : List (Cid × ℕ)} (h : DepthFirst.walk (storedLinks s) none fuel allCids ∅ = some (m, t))
    {p : Cid} {k : ℕ} : Entered s p k ↔ (p, k) ∈ t := by
  refine ⟨?_, fun hp => ⟨allCids, fuel, m, t, hlist, h, hp⟩⟩
  rintro ⟨allCids', fuel', m', t', hlist', h', hp⟩
  obtain rfl := Except.ok.inj (hlist.symm.trans hlist')
  -- with the larger fuel both walks have the same answer
  have hmax := DepthFirst.walk_mono (Nat.le_max_left fuel fuel') h
  have hmax' := DepthFirst.walk_mono (Nat.le_max_right fuel fuel') h'
  obtain ⟨rfl, rfl⟩ := Prod.mk.inj (Option.some.inj (hmax.symm.trans hmax'))
  exact hp

omit [HashCrate] [CidText] in
/-- The walk without a limit ends, enters every stored block, and marks what they link to. -/
theorem exists_entered (s : S) :
    ∃ (V : Finset Cid) (allCids : List Cid), (∀ d, d ∈ V ↔ ∃ c, Link s c d) ∧
      BlockStore.listCids s = .ok allCids ∧ ∀ fuel > V.card, ∃ m t,
        DepthFirst.walk (storedLinks s) none fuel allCids ∅ = some (m, t) ∧
          ∀ p c, Link s p c → ∃ k, (p, k) ∈ t := by
  obtain ⟨V, hV⟩ := exists_linked s
  obtain ⟨allCids, hlist⟩ := ReliableBlockStore.listCids s
  refine ⟨V, allCids, hV, hlist, fun fuel hfuel => ?_⟩
  have hsucc : ∀ x, ∀ y ∈ storedLinks s x, y ∈ V :=
    fun x y hy => (hV y).mpr ⟨x, mem_storedLinks_iff.mp hy⟩
  obtain ⟨⟨m, t⟩, hwalk⟩ :
      ∃ r, DepthFirst.walk (storedLinks s) none fuel allCids ∅ = some r :=
    DepthFirst.exists_walk hsucc hfuel allCids ∅
  refine ⟨m, t, hwalk, fun p c hlink => ?_⟩
  obtain ⟨data, ipld, hview, -, -⟩ := hlink
  exact DepthFirst.walk_enters hwalk
    (((LawfulBlockStore.listCids_ok hlist).2 p).mpr (Option.isSome_iff_exists.mpr ⟨data, hview⟩))

/-- **The missing references.** In a store of raw SHA2-256 blocks, a check with the default
configuration ends, and it returns a report of the dangling links, each once, if and only if no
stored block overflows and each dangling CID is linked from a block that the depth-first walk enters
while fewer than 100 different CIDs have been linked. -/
theorem check_missing_iff (itemSize : ℕ) (hraw : RawStore s) :
    ∃ n, ∀ fuel ≥ n, ∃ r, check itemSize fuel s {} = some r ∧
      ((∃ result, r = .ok result ∧ ReportsDangling s result) ↔
        Fits itemSize s ∧
          ∀ c, Dangling s c → ∃ p k, Entered s p k ∧ k < 100 ∧ Link s p c) := by
  obtain ⟨V, allCids, -, hlist, hwalks⟩ := exists_entered s
  refine ⟨V.card + 1, fun fuel hfuel => ?_⟩
  obtain ⟨fuel, rfl⟩ : ∃ k, fuel = k + 1 := ⟨fuel - 1, by omega⟩
  obtain ⟨m, t, hwalk, -⟩ := hwalks (fuel + 1) (by omega)
  obtain ⟨m', hlimited⟩ : ∃ m', DepthFirst.walk (storedLinks s) (some 100) (fuel + 1) allCids ∅
      = some (m', t.filter (·.2 < 100)) := DepthFirst.walk_limited (Or.inl rfl) hwalk
  obtain ⟨r, hcheck, hreturns, hreport⟩ := check_eq_ok hraw {} rfl hlist hlimited
  refine ⟨r, hcheck, ?_⟩
  rw [← hreturns]
  -- what is reported is what the blocks entered in time link to
  have hreported (result : FsckResult) (hr : r = .ok result) (c : Cid) :
      c ∈ result.blocksMissing ↔
        (∃ p k, Entered s p k ∧ k < 100 ∧ Link s p c) ∧ view s c = none := by
    rw [(hreport result hr).2.2]
    refine and_congr_left' ⟨?_, ?_⟩
    · rintro ⟨⟨p, k⟩, he, hlink⟩
      obtain ⟨he, hk⟩ := List.mem_filter.mp he
      exact ⟨p, k, (entered_iff hlist hwalk).mpr he, of_decide_eq_true hk, hlink⟩
    · rintro ⟨p, k, he, hk, hlink⟩
      have hmem' := (entered_iff hlist hwalk).mp he
      exact ⟨(p, k), List.mem_filter.mpr ⟨hmem', decide_eq_true hk⟩, hlink⟩
  constructor
  · rintro ⟨result, hr, h⟩
    exact ⟨⟨result, hr⟩, fun c hc => ((hreported result hr c).mp ((h.mem_iff c).mpr hc)).1⟩
  · rintro ⟨⟨result, hr⟩, h⟩
    obtain ⟨hcorrupt, hnodup, -⟩ := hreport result hr
    refine ⟨result, hr, .of_mem_iff hcorrupt hnodup fun c => ?_⟩
    rw [hreported result hr]
    constructor
    · rintro ⟨⟨p, -, -, -, hlink⟩, hnone⟩
      exact ⟨⟨p, hlink⟩, hnone⟩
    · exact fun hc => ⟨h c hc, hc.2⟩

omit [HashCrate] [CidText] in
/-- With at most 100 different CIDs linked in the whole store, every dangling link is linked from a
block that is entered in time. -/
theorem entered_of_card_le {V : Finset Cid} (hV : ∀ d, d ∈ V ↔ ∃ c, Link s c d)
    (hcard : V.card ≤ 100) {c : Cid} (hdangling : Dangling s c) :
    ∃ p k, Entered s p k ∧ k < 100 ∧ Link s p c := by
  obtain ⟨⟨p, hlink⟩, -⟩ := hdangling
  obtain ⟨V', allCids, -, hlist, hwalks⟩ := exists_entered s
  obtain ⟨m, t, hwalk, henters⟩ := hwalks _ (Nat.lt_succ_self V'.card)
  have hmarks := DepthFirst.walk_marks hwalk
  obtain ⟨k, hp⟩ := henters p c hlink
  have hm : c ∈ m := hmarks.succ_mem _ hp c (mem_storedLinks_iff.mpr hlink)
  have hsub : m ⊆ V := by
    intro d hd
    obtain ⟨e, -, he⟩ := (hmarks.mem_iff d).mp hd
    exact (hV d).mpr ⟨e.1, mem_storedLinks_iff.mp he⟩
  -- the block that marked `c` was entered while there was room for it
  obtain hnil | ⟨⟨p', k'⟩, he, hc, hlt⟩ := hmarks.first c hm (Finset.notMem_empty c)
  · exact absurd hnil List.not_mem_nil
  · have hle := Finset.card_le_card hsub
    exact ⟨p', k', (entered_iff hlist hwalk).mpr he, by simp only at hlt; omega,
      mem_storedLinks_iff.mp hc⟩

/-- **Without a limit**, every dangling link is reported, unless a stored block overflows. -/
theorem check_missing_of_noLimit (itemSize : ℕ) (hraw : RawStore s)
    (hverify : config.verifyReferences = true) (hlimit : config.maxDepth = none) :
    ∃ n, ∀ fuel ≥ n, ∃ r, check itemSize fuel s config = some r ∧
      ((∃ result, r = .ok result ∧ ReportsDangling s result) ↔ Fits itemSize s) := by
  obtain ⟨V, allCids, -, hlist, hwalks⟩ := exists_entered s
  refine ⟨V.card + 1, fun fuel hfuel => ?_⟩
  obtain ⟨fuel, rfl⟩ : ∃ k, fuel = k + 1 := ⟨fuel - 1, by omega⟩
  obtain ⟨m, t, hwalk, henters⟩ := hwalks (fuel + 1) (by omega)
  rw [← hlimit] at hwalk
  obtain ⟨r, hcheck, hreturns, hreport⟩ := check_eq_ok hraw config hverify hlist hwalk
  refine ⟨r, hcheck, ?_⟩
  rw [← hreturns]
  refine ⟨fun ⟨result, hr, _⟩ => ⟨result, hr⟩, fun ⟨result, hr⟩ => ?_⟩
  obtain ⟨hcorrupt, hnodup, hmem⟩ := hreport result hr
  refine ⟨result, hr, .of_mem_iff hcorrupt hnodup fun c => ?_⟩
  -- every block is entered, so every link is seen
  rw [hmem]
  refine and_congr_left' ⟨fun ⟨e, _, hlink⟩ => ⟨e.1, hlink⟩, ?_⟩
  rintro ⟨p, hlink⟩
  obtain ⟨k, hp⟩ := henters p c hlink
  exact ⟨_, hp, hlink⟩

end Missing

section Sample

open scoped CidReference

/-- A CID with a digest of one byte. -/
def tinyCid (b : UInt8) : Cid := Cid.newV1 Codec.raw ⟨0, [b], by simp⟩

/-- The SHA2-256 digests of the blocks below. -/
def linksDigest (data : Bytes) : Bytes :=
  if data.length = 902 then
    BigEndian.encode 32 0x1fcbeb3b02224970ebab7a42b63ff27744eb52e4b436bc3799090bcd41fdccba
  else
    BigEndian.encode 32 0x7af10d728de1991a7410fa833948aa46f39ff45503856a28bf7060fbd785d934

theorem length_linksDigest (data : Bytes) : (linksDigest data).length = 32 := by
  unfold linksDigest
  split <;> rfl

/-- The hash crate on these blocks. -/
@[reducible]
def linksHash : HashCrate := CidReference.hashOf linksDigest length_linksDigest

/-- A raw block with a value in DAG-CBOR form. -/
def ipldBlock (x : Ipld) : Block :=
  letI := linksHash
  ⟨Cid.ofData Codec.raw .sha256 (encodeDagCbor x), encodeDagCbor x⟩

/-- A block with one link. -/
def oneLink : Block := ipldBlock (.link (tinyCid 100))

/-- A block with a hundred other links. -/
def hundredLinks : Block :=
  ipldBlock (.list ((List.range 100).map fun i => .link (tinyCid (UInt8.ofNat i))))

theorem rawStore_storeOf [HashCrate] {blocks : List Block}
    (h : ∀ b ∈ blocks, (minBlockSize ≤ b.data.length ∧ b.data.length ≤ maxBlockSize) ∧
      Cid.ofData Codec.raw .sha256 b.data = b.cid) : RawStore (storeOf blocks) :=
  fun hview => h _ (mem_of_view_storeOf hview)

/-- A hundred links are as many as a check looks at, and these are all reported. -/
theorem check_missing_hundredLinks :
    letI := linksHash
    ∃ n, ∀ fuel ≥ n, ∃ result, check 112 fuel (storeOf [hundredLinks]) {} = some (.ok result) ∧
      ReportsDangling (storeOf [hundredLinks]) result := by
  let := linksHash
  have hraw : RawStore (storeOf [hundredLinks]) := rawStore_storeOf (by decide +kernel)
  have hfits : Fits 112 (storeOf [hundredLinks]) := fits_storeOf (by decide +kernel)
  -- all links are links of the only block
  have hlinked (d : Cid) : d ∈ (storedLinks (storeOf [hundredLinks]) hundredLinks.cid).toFinset ↔
      ∃ c, Link (storeOf [hundredLinks]) c d := by
    rw [List.mem_toFinset, mem_storedLinks_iff]
    refine ⟨fun h => ⟨_, h⟩, ?_⟩
    rintro ⟨c, hlink⟩
    obtain ⟨data, ipld, hview, -, -⟩ := id hlink
    obtain rfl : c = hundredLinks.cid :=
      congrArg Block.cid (List.mem_singleton.mp (mem_of_view_storeOf hview))
    exact hlink
  have hcard : (storedLinks (storeOf [hundredLinks]) hundredLinks.cid).toFinset.card ≤ 100 :=
    (List.toFinset_card_le _).trans (by decide +kernel)
  obtain ⟨n, hrun⟩ := check_missing_iff 112 hraw
  refine ⟨n, fun fuel hfuel => ?_⟩
  obtain ⟨r, hcheck, hiff⟩ := hrun fuel hfuel
  obtain ⟨result, rfl, hreport⟩ := hiff.mpr ⟨hfits, fun c => entered_of_card_le hlinked hcard⟩
  exact ⟨result, hcheck, hreport⟩

theorem check_missing_of_noLimit_links :
    letI := linksHash
    ∃ n, ∀ fuel ≥ n, ∃ result,
      check 112 fuel (storeOf [oneLink, hundredLinks]) { maxDepth := none } = some (.ok result) ∧
        ReportsDangling (storeOf [oneLink, hundredLinks]) result := by
  let := linksHash
  have hraw : RawStore (storeOf [oneLink, hundredLinks]) := rawStore_storeOf (by decide +kernel)
  have hfits : Fits 112 (storeOf [oneLink, hundredLinks]) := fits_storeOf (by decide +kernel)
  obtain ⟨n, hrun⟩ := check_missing_of_noLimit 112 hraw
    (rfl : ({ maxDepth := none } : FsckConfig).verifyReferences = true) rfl
  refine ⟨n, fun fuel hfuel => ?_⟩
  obtain ⟨r, hcheck, hiff⟩ := hrun fuel hfuel
  obtain ⟨result, rfl, hreport⟩ := hiff.mpr hfits
  exact ⟨result, hcheck, hreport⟩

-- one block of nine bytes, and there is no report
example :
    letI := CidReference.byteHash
    check 112 1 (storeOf [Chunker.leafBlock
      [0x9b, 0xff, 0xff, 0xff, 0xff, 0xff, 0xff, 0xff, 0xff]]) {}
        = some (.error (.panic "capacity overflow")) := by
  decide +kernel

/-- After the block with a hundred links, no other link is looked at. -/
theorem check_misses_link :
    letI := linksHash
    ¬ ∀ s : MemoryBlockStore, RawStore s → ∀ (fuel : ℕ) (result : FsckResult),
      check 112 fuel s {} = some (.ok result) → ReportsDangling s result := by
  let := linksHash
  intro hall
  let s := storeOf [oneLink, hundredLinks]
  have hraw : RawStore s := rawStore_storeOf (by decide +kernel)
  -- the hundred links of the block listed first use up the limit
  have hrun : (check 112 2 s {}).map (Except.map fun r => decide (tinyCid 100 ∈ r.blocksMissing))
      = some (.ok false) := by
    decide +kernel
  obtain ⟨r, hcheck, hr⟩ := Option.map_eq_some_iff.mp hrun
  cases r with
  | error e => simp [Except.map] at hr
  | ok result =>
    have hnot : tinyCid 100 ∉ result.blocksMissing := of_decide_eq_false (Except.ok.inj hr)
    refine hnot (((hall s hraw 2 result hcheck).mem_iff _).mpr ⟨⟨oneLink.cid, ?_⟩, ?_⟩)
    · exact ⟨oneLink.data, .link (tinyCid 100), by decide +kernel, by decide +kernel,
        List.mem_singleton.mpr rfl⟩
    · decide +kernel

end Sample

end FilesystemChecker

end Ipfrs
