import Mathlib.Algebra.BigOperators.Group.Finset.Basic
import Ipfrs.Core.DagCborAlloc
import Ipfrs.Lib.Worklist
import Ipfrs.Node.DagOps

/-!
# Mark-and-sweep garbage collection

`GarbageCollector` of the node (`ipfrs/src/gc.rs`), over any block store.

The mark phase is a graph search from the pins along the links of the stored DAG-CBOR blocks; it is
`Worklist.step` on this graph. The sweep phase goes through the stored CIDs and deletes what is not
marked, up to a limit. What it deletes is a function of the marked set and of the store as it was
(`victims`), which is why a dry run reports what a real run does.

* `markReachable_iff` — a block is marked when it is live.
* `sweep_spec` — the sweep removes the victims and nothing else.
* `collect_spec` — live blocks survive, all others go, and the counts are right.
* `exists_collect` — a collection ends on every store, whatever the shape of its link graph. It
  panics only over a live block that announces a vector that cannot be.

Counters are natural numbers, and the duration of a run is left out.
-/

namespace Ipfrs

structure GcConfig where
  minAgeSeconds : ℕ := 3600
  /-- Zero is no limit. -/
  maxBlocksPerRun : ℕ := 0
  dryRun : Bool := false
  deriving DecidableEq, Repr

/-- `GcStats`, without the duration. -/
structure GcStats where
  blocksCollected : ℕ
  bytesFreed : ℕ
  blocksMarked : ℕ
  blocksScanned : ℕ
  cancelled : Bool
  deriving DecidableEq, Repr

namespace GarbageCollector

section Model

variable {S : Type} [BlockStore S] [CidCrate] (itemSize : ℕ)

/-- The links of the block stored under a CID. A block that is missing or is not DAG-CBOR has
none. -/
def linksOf (s : S) (cid : Cid) : Except Fault (List Cid) := do
  match ← liftResult (BlockStore.get s cid) with
  | some block =>
    match Ipld.tryFromDagCbor itemSize block.data with
    | .ok ipld => return ipld.links
    | .error (.error _) => return []
    | .error (.panic msg) => .error (.panic msg)
  | none => return []

/-- `GarbageCollector::mark_reachable`, with at most `fuel` rounds of its loop. -/
def markReachable (fuel : ℕ) (s : S) (pinManager : PinManager) :
    Option (Except Fault (Finset Cid)) :=
  -- the pins are marked as they are pushed, so the last one is on top
  let pins := pinManager.list.map PinInfo.cid
  WhileLoop.run (Worklist.step (linksOf itemSize s)) fuel (pins.reverse, pins.toFinset)

omit [CidCrate] in
/-- The sweep loop of `GarbageCollector::collect`, on the CIDs still to be looked at. It returns the
store also when it fails, since what has been deleted stays deleted. -/
def sweep (config : GcConfig) (reachable : Finset Cid) :
    List Cid → S → ℕ → ℕ → S × Except Error (ℕ × ℕ)
  | [], s, collected, freed => (s, .ok (collected, freed))
  | cid :: cids, s, collected, freed =>
    if config.maxBlocksPerRun > 0 ∧ collected ≥ config.maxBlocksPerRun then
      (s, .ok (collected, freed))
    else if cid ∈ reachable then sweep config reachable cids s collected freed
    else
      match BlockStore.get s cid with
      | .error e => (s, .error e)
      -- listed, but gone in the meantime
      | .ok none => sweep config reachable cids s collected freed
      | .ok (some block) =>
        if config.dryRun then
          sweep config reachable cids s (collected + 1) (freed + block.data.length)
        else
          match BlockStore.delete s cid with
          | .error e => (s, .error e)
          | .ok s' => sweep config reachable cids s' (collected + 1) (freed + block.data.length)

def collect (fuel : ℕ) (s : S) (pinManager : PinManager) (config : GcConfig) :
    Option (S × Except Fault GcStats) :=
  (markReachable itemSize fuel s pinManager).map fun
    | .error f => (s, .error f)
    | .ok reachable =>
      match BlockStore.listCids s with
      | .error e => (s, .error (.error e))
      | .ok allCids =>
        let (s', r) := sweep config reachable allCids s 0 0
        (s', liftResult (r.map fun (collected, freed) =>
          ⟨collected, freed, reachable.card, allCids.length, false⟩))

end Model

/-! ### The mark phase -/

section Mark

variable {S : Type} [StoreView S] [CidCrate]

/-- `c` is pinned, or can be reached from a pinned CID through the links of stored blocks. -/
def Live (s : S) (pinManager : PinManager) (c : Cid) : Prop :=
  ∃ pin ∈ pinManager.list, Relation.ReflTransGen (Link s) pin.cid c

variable [BlockStore S] [LawfulBlockStore S] {itemSize : ℕ}
variable {s : S} {c : Cid} {ls : List Cid} {pinManager : PinManager}

/-- Where the store can be read and nothing overflows, the mark phase sees its link graph. -/
theorem linksOf_eq_ok (h : linksOf itemSize s c = .ok ls) : ls = storedLinks s c := by
  obtain ⟨r, hget, h⟩ := Except.bind_eq_ok_iff.mp h
  obtain rfl := LawfulBlockStore.get_ok (liftResult_eq_ok.mp hget)
  unfold storedLinks
  cases hv : view s c with
  | none =>
    rw [hv] at h
    exact (Except.ok.inj h).symm
  | some data =>
    rw [hv] at h
    simp only [Option.map_some, Ipld.tryFromDagCbor_eq] at h
    split at h
    · next ipld hx =>
      split at hx
      · exact absurd hx (by simp)
      · simp only [liftResult_eq_ok.mp hx]
        exact (Except.ok.inj h).symm
    · next e hx =>
      split at hx
      · exact absurd hx (by simp)
      · cases hdec : Ipld.fromDagCbor data with
        | ok ipld => exact absurd hx (by simp [hdec, liftResult])
        | error e =>
          simp only [hdec]
          exact (Except.ok.inj h).symm
    · exact absurd h (by simp)

theorem overflows_of_linksOf {msg : String} (h : linksOf itemSize s c = .error (.panic msg)) :
    ∃ data, view s c = some data ∧ Ipld.Overflows itemSize data := by
  unfold linksOf at h
  cases hget : BlockStore.get s c with
  | error e => exact absurd h (by simp [hget, liftResult, bind, Except.bind])
  | ok r =>
    obtain rfl := LawfulBlockStore.get_ok hget
    cases hv : view s c with
    | none => exact absurd h (by simp [hget, hv, liftResult, bind, Except.bind, pure, Except.pure])
    | some data =>
      refine ⟨data, rfl, ?_⟩
      by_contra hfit
      rw [hget, hv] at h
      simp only [liftResult, Option.map_some, Except.ok_bind, Ipld.tryFromDagCbor_eq, if_neg hfit]
        at h
      cases hdec : Ipld.fromDagCbor data <;> simp [hdec, pure, Except.pure] at h

theorem mem_linksOf_iff (h : linksOf itemSize s c = .ok ls) (d : Cid) : d ∈ ls ↔ Link s c d := by
  rw [linksOf_eq_ok h, mem_storedLinks_iff]

omit [BlockStore S] [LawfulBlockStore S] [StoreView S] [CidCrate] in
theorem mem_pins_iff (pinManager : PinManager) (x : Cid) :
    x ∈ (pinManager.list.map PinInfo.cid).reverse ↔
      x ∈ (pinManager.list.map PinInfo.cid).toFinset := by
  rw [List.mem_reverse, List.mem_toFinset]

theorem live_of_reachable
    (h : Worklist.Reachable (linksOf itemSize s) (pinManager.list.map PinInfo.cid).toFinset c) :
    Live s pinManager c := by
  obtain ⟨r, hr, hpath⟩ := h
  obtain ⟨pin, hpin, rfl⟩ := List.mem_map.mp (List.mem_toFinset.mp hr)
  -- an edge of the search is a link of the store
  have hedge : Worklist.Edge (linksOf itemSize s) ≤ Link s := by
    rintro a b ⟨ls, hls, hb⟩
    exact (mem_linksOf_iff hls b).mp hb
  exact ⟨pin, hpin, Relation.ReflTransGen.mono hedge _ _ hpath⟩

/-- **The mark phase marks what is live.** -/
theorem markReachable_iff {fuel : ℕ} {marked : Finset Cid}
    (h : markReachable itemSize fuel s pinManager = some (.ok marked)) (c : Cid) :
    c ∈ marked ↔ Live s pinManager c := by
  have hstack := mem_pins_iff pinManager
  have hreach := Worklist.run_ok_iff_reachable hstack h
  constructor
  · exact fun hc => live_of_reachable ((hreach c).mp hc)
  · rintro ⟨pin, hpin, hpath⟩
    -- every marked block could be read, so a link of one is an edge of the search
    induction hpath with
    | refl =>
      exact (hreach _).mpr
        ⟨pin.cid, List.mem_toFinset.mpr (List.mem_map_of_mem hpin), Relation.ReflTransGen.refl⟩
    | tail _ hlink ih =>
      obtain ⟨ls, hls⟩ := Worklist.succ_ok_of_run_ok hstack h ih
      obtain ⟨r, hr, hpath⟩ := (hreach _).mp ih
      exact (hreach _).mpr ⟨r, hr, hpath.tail ⟨ls, hls, (mem_linksOf_iff hls _).mpr hlink⟩⟩

end Mark

/-! ### The sweep phase -/

/-- What a sweep collects: the stored CIDs that are not marked, up to the limit. `collected` is the
number that has been collected before. -/
def victims (maxBlocks : ℕ) (reachable : Finset Cid) (contents : Cid → Option Bytes) :
    List Cid → ℕ → List Cid
  | [], _ => []
  | cid :: cids, collected =>
    if maxBlocks > 0 ∧ collected ≥ maxBlocks then []
    else if cid ∈ reachable then victims maxBlocks reachable contents cids collected
    else if (contents cid).isSome then
      cid :: victims maxBlocks reachable contents cids (collected + 1)
    else victims maxBlocks reachable contents cids collected

/-- The size of the data stored under a CID. -/
def sizeOf (contents : Cid → Option Bytes) (c : Cid) : ℕ := ((contents c).getD []).length

section Victims

variable {maxBlocks : ℕ} {reachable : Finset Cid} {contents : Cid → Option Bytes}
variable {c : Cid} {cids : List Cid} {collected : ℕ}

theorem victims_cons_of_skip (hlim : ¬(maxBlocks > 0 ∧ collected ≥ maxBlocks))
    (hskip : c ∈ reachable ∨ contents c = none) :
    victims maxBlocks reachable contents (c :: cids) collected
      = victims maxBlocks reachable contents cids collected := by
  rw [victims, if_neg hlim]
  rcases hskip with hmark | hnone
  · rw [if_pos hmark]
  · rw [hnone]
    simp

theorem victims_cons_of_collect (hlim : ¬(maxBlocks > 0 ∧ collected ≥ maxBlocks))
    (hmark : c ∉ reachable) (hsome : (contents c).isSome) :
    victims maxBlocks reachable contents (c :: cids) collected
      = c :: victims maxBlocks reachable contents cids (collected + 1) := by
  rw [victims, if_neg hlim, if_neg hmark, if_pos hsome]

theorem victims_sublist (cids : List Cid) (collected : ℕ) :
    (victims maxBlocks reachable contents cids collected).Sublist cids := by
  -- along the branches of the definition: nothing, skipped, taken, skipped
  induction cids generalizing collected with
  | nil => exact List.Sublist.refl _
  | cons c cids ih =>
    unfold victims
    split
    · exact List.nil_sublist _
    · split
      · exact (ih _).cons c
      · split
        · exact (ih _).cons_cons c
        · exact (ih _).cons c

theorem of_mem_victims (h : c ∈ victims maxBlocks reachable contents cids collected) :
    c ∉ reachable ∧ (contents c).isSome := by
  induction cids generalizing collected with
  | nil => exact absurd h List.not_mem_nil
  | cons c' cids ih =>
    unfold victims at h
    split at h
    · exact absurd h List.not_mem_nil
    · split at h
      · exact ih h
      · next hr =>
        split at h
        · next hc =>
          rcases List.mem_cons.mp h with rfl | h
          · exact ⟨hr, hc⟩
          · exact ih h
        · exact ih h

theorem mem_victims_of_unlimited (hc : c ∈ cids) (hr : c ∉ reachable) (hs : (contents c).isSome) :
    c ∈ victims 0 reachable contents cids collected := by
  induction cids generalizing collected with
  | nil => exact absurd hc List.not_mem_nil
  | cons c' cids ih =>
    unfold victims
    rw [if_neg (by omega)]
    rcases List.mem_cons.mp hc with rfl | hc
    · rw [if_neg hr, if_pos hs]
      exact List.mem_cons_self
    · -- whatever becomes of the first CID, `c` is still to come
      split
      · exact ih hc
      · split
        · exact List.mem_cons_of_mem _ (ih hc)
        · exact ih hc

end Victims

section Sweep

variable {S : Type} [BlockStore S] [StoreView S] [LawfulBlockStore S]
variable {config : GcConfig} {reachable : Finset Cid} {cids : List Cid} {s s' : S}
  {collected freed : ℕ} {r : ℕ × ℕ}

/-- **What the sweep does with one CID**: it stops at the limit, passes over what is marked or
missing, and otherwise collects the block. -/
theorem sweep_cons_eq_ok {c : Cid}
    (h : sweep config reachable (c :: cids) s collected freed = (s', .ok r)) :
    ((config.maxBlocksPerRun > 0 ∧ collected ≥ config.maxBlocksPerRun) ∧ s' = s ∧
        r = (collected, freed)) ∨
      ¬(config.maxBlocksPerRun > 0 ∧ collected ≥ config.maxBlocksPerRun) ∧
        ((c ∈ reachable ∨ view s c = none) ∧
            sweep config reachable cids s collected freed = (s', .ok r) ∨
          c ∉ reachable ∧ ∃ data s₁, view s c = some data ∧
            (config.dryRun = true → s₁ = s) ∧
              (config.dryRun = false → view s₁ c = none ∧ ∀ c', c' ≠ c → view s₁ c' = view s c') ∧
                sweep config reachable cids s₁ (collected + 1) (freed + data.length)
                  = (s', .ok r)) := by
  unfold sweep at h
  split at h
  · -- the limit is reached
    next hlim =>
    obtain ⟨hs, hr⟩ := Prod.mk.inj h
    exact Or.inl ⟨hlim, hs.symm, (Except.ok.inj hr).symm⟩
  · next hlim =>
    refine Or.inr ⟨hlim, ?_⟩
    split at h
    · next hmark => exact Or.inl ⟨Or.inl hmark, h⟩
    · next hmark =>
      split at h
      · exact absurd h (by simp)
      · -- nothing is stored there
        next hget =>
        have hnone := LawfulBlockStore.get_ok hget
        exact Or.inl ⟨Or.inr (Option.map_eq_none_iff.mp hnone.symm), h⟩
      · next block hget =>
        -- what the store returned is what it has
        obtain ⟨data, hdata, rfl⟩ :=
          Option.map_eq_some_iff.mp (LawfulBlockStore.get_ok hget).symm
        refine Or.inr ⟨hmark, data, ?_⟩
        split at h
        · next hdry =>
          exact ⟨s, hdata, fun _ => rfl, fun hnot => absurd (hdry.symm.trans hnot) (by decide), h⟩
        · -- a real run deletes the block, and goes on only if that succeeded
          next hdry =>
          split at h
          · exact absurd h (by simp)
          · next s₁ hdel =>
            exact ⟨s₁, hdata, fun hd => absurd hd hdry,
              fun _ => LawfulBlockStore.delete_ok hdel, h⟩

/-- **The sweep removes the victims, and counts them.** The induction is over the CIDs still to be
looked at; what has been deleted is not among them, so their contents are those of the start. -/
theorem sweep_spec {contents : Cid → Option Bytes} (hnodup : cids.Nodup)
    (hcontents : ∀ c ∈ cids, view s c = contents c)
    (h : sweep config reachable cids s collected freed = (s', .ok r)) :
    let vs := victims config.maxBlocksPerRun reachable contents cids collected
    r = (collected + vs.length, freed + (vs.map (sizeOf contents)).sum) ∧
      (config.dryRun = true → s' = s) ∧
        (config.dryRun = false → ∀ c, view s' c = if c ∈ vs then none else view s c) := by
  induction cids generalizing s collected freed with
  | nil =>
    obtain ⟨hs, hr⟩ := Prod.mk.inj h
    obtain rfl := Except.ok.inj hr
    subst hs
    simp [victims]
  | cons c cids ih =>
    obtain ⟨hc, hnodup⟩ := List.nodup_cons.mp hnodup
    have hhead := hcontents c List.mem_cons_self
    have htail : ∀ c' ∈ cids, view s c' = contents c' :=
      fun c' hc' => hcontents c' (List.mem_cons_of_mem _ hc')
    obtain ⟨hlim, rfl, rfl⟩ | ⟨hlim, ⟨hskip, h⟩ | ⟨hmark, data, s₁, hdata, hdry, hreal, h⟩⟩ :=
      sweep_cons_eq_ok h
    · -- the limit is reached: nothing more is collected
      rw [victims, if_pos hlim]
      simp
    · -- the CID is passed over
      rw [hhead] at hskip
      rw [victims_cons_of_skip hlim hskip]
      exact ih hnodup htail h
    · -- the block is collected, and in a real run it is gone
      have hsome : contents c = some data := hhead.symm.trans hdata
      have hsize : sizeOf contents c = data.length := by rw [sizeOf, hsome, Option.getD_some]
      -- `c` is not listed twice, so what is still to come is as it was
      have htail₁ : ∀ c' ∈ cids, view s₁ c' = contents c' := by
        intro c' hc'
        rw [← htail c' hc']
        cases hd : config.dryRun with
        | true => rw [hdry hd]
        | false => exact (hreal hd).2 c' fun he => hc (he ▸ hc')
      obtain ⟨rfl, hdry', hreal'⟩ := ih hnodup htail₁ h
      rw [victims_cons_of_collect hlim hmark (by rw [hsome]; rfl)]
      refine ⟨?_, fun hd => (hdry' hd).trans (hdry hd), fun hd c' => ?_⟩
      · rw [List.length_cons, List.map_cons, List.sum_cons, hsize, Prod.mk.injEq]
        omega
      · rw [hreal' hd]
        by_cases hcc : c' = c
        · subst hcc
          simp [(hreal hd).1]
        · simp [hcc, (hreal hd).2 c' hcc]

end Sweep

/-! ### A whole collection -/

section Collect

variable {S : Type} [BlockStore S] [StoreView S] [LawfulBlockStore S] [CidCrate] {itemSize : ℕ}
variable {fuel : ℕ} {s s' : S} {pinManager : PinManager} {config : GcConfig} {stats : GcStats}

/-- A collection that succeeds has marked the live blocks and removed the victims. -/
theorem collect_eq_ok (h : collect itemSize fuel s pinManager config = some (s', .ok stats)) :
    ∃ marked allCids, (∀ c, c ∈ marked ↔ Live s pinManager c) ∧
      BlockStore.listCids s = .ok allCids ∧
        let vs := victims config.maxBlocksPerRun marked (view s) allCids 0
        stats = ⟨vs.length, (vs.map (sizeOf (view s))).sum, marked.card, allCids.length, false⟩ ∧
          (config.dryRun = true → s' = s) ∧
            (config.dryRun = false → ∀ c, view s' c = if c ∈ vs then none else view s c) := by
  obtain ⟨r, hmark, h⟩ := Option.map_eq_some_iff.mp h
  cases r with
  | error e => exact absurd (Prod.mk.inj h).2 (by simp)
  | ok marked =>
    refine ⟨marked, ?_⟩
    cases hlist : BlockStore.listCids s with
    | error e =>
      simp only [hlist] at h
      exact absurd (Prod.mk.inj h).2 (by simp)
    | ok allCids =>
      refine ⟨allCids, markReachable_iff hmark, rfl, ?_⟩
      simp only [hlist] at h
      obtain ⟨hs, hr⟩ := Prod.mk.inj h
      -- the statistics are those of a sweep that succeeded
      cases hres : (sweep config marked allCids s 0 0).2 with
      | error e => exact absurd hr (by simp [hres, Except.map, liftResult])
      | ok r =>
        have hsweep : sweep config marked allCids s 0 0 = (s', .ok r) := by
          rw [← hs, ← hres]
        obtain ⟨rfl, hdry, hreal⟩ :=
          sweep_spec (LawfulBlockStore.listCids_ok hlist).1 (fun _ _ => rfl) hsweep
        rw [hres] at hr
        refine ⟨?_, hdry, hreal⟩
        simpa using (Except.ok.inj hr).symm

/-- **Mark-and-sweep.** After a collection that succeeded: when it was not a dry run, every live
block is there with the same data, without a limit every other block is gone, and the counts are the
number and the total size of the blocks that are gone; when it was a dry run, the store is the same
and a real run that succeeds reports the same. -/
theorem collect_spec (h : collect itemSize fuel s pinManager config = some (s', .ok stats)) :
    (config.dryRun = false →
      (∀ c data, view s c = some data → Live s pinManager c → view s' c = some data) ∧
        (config.maxBlocksPerRun = 0 → ∀ c, ¬ Live s pinManager c → view s' c = none) ∧
          ∃ removed : Finset Cid,
            (∀ c, c ∈ removed ↔ (view s c).isSome ∧ view s' c = none) ∧
              stats.blocksCollected = removed.card ∧
                stats.bytesFreed = ∑ c ∈ removed, sizeOf (view s) c) ∧
      (config.dryRun = true → s' = s ∧
        ∀ fuel' s'' stats', collect itemSize fuel' s pinManager { config with dryRun := false }
          = some (s'', .ok stats') → stats' = stats) := by
  obtain ⟨marked, allCids, hmarked, hlist, rfl, hdry, hreal⟩ := collect_eq_ok h
  obtain ⟨hnodup, hmem⟩ := LawfulBlockStore.listCids_ok hlist
  set vs := victims config.maxBlocksPerRun marked (view s) allCids 0 with hvs
  refine ⟨fun hd => ⟨?_, ?_, vs.toFinset, ?_, ?_, ?_⟩, fun hd => ⟨hdry hd, ?_⟩⟩
  · -- a live block is marked, so it is no victim
    intro c data hc hlive
    rw [hreal hd, if_neg, hc]
    intro hv
    exact (of_mem_victims hv).1 ((hmarked c).mpr hlive)
  · -- without a limit, a stored block that is not live is a victim
    intro hmax c hdead
    rw [hreal hd]
    split
    · rfl
    · next hv =>
      by_contra hne
      have hs : (view s c).isSome := Option.ne_none_iff_isSome.mp hne
      refine hv ?_
      rw [hvs, hmax]
      exact mem_victims_of_unlimited ((hmem c).mpr hs) (fun hc => hdead ((hmarked c).mp hc)) hs
  · -- what is gone is exactly the victims
    intro c
    rw [List.mem_toFinset, hreal hd]
    constructor
    · intro hv
      exact ⟨(of_mem_victims hv).2, if_pos hv⟩
    · rintro ⟨hs, hgone⟩
      by_contra hv
      rw [if_neg hv] at hgone
      rw [hgone] at hs
      exact absurd hs (by simp)
  · -- the victims are different, so the counts are those of a set
    rw [List.toFinset_card_of_nodup ((victims_sublist _ _).nodup hnodup)]
  · rw [List.sum_toFinset _ ((victims_sublist _ _).nodup hnodup)]
  · intro fuel' s'' stats' h'
    -- the victims do not depend on whether the run is dry
    obtain ⟨marked', allCids', hmarked', hlist', rfl, -, -⟩ := collect_eq_ok h'
    obtain rfl := Except.ok.inj (hlist.symm.trans hlist')
    obtain rfl : marked' = marked := Finset.ext fun c => (hmarked' c).trans (hmarked c).symm
    rfl

/-- **A collection ends** on every store: the link graph is finite, even when it has cycles. When it
panics, a live block has made the decoder panic. -/
theorem exists_collect (itemSize : ℕ) (s : S) (pinManager : PinManager) (config : GcConfig) :
    ∃ fuel r, collect itemSize fuel s pinManager config = some r ∧
      ∀ msg, r.2 = .error (.panic msg) → ∃ c data, Live s pinManager c ∧
        view s c = some data ∧ Ipld.Overflows itemSize data := by
  -- the search stays among the pins and the CIDs that are linked from somewhere
  obtain ⟨V, hV⟩ := exists_linked s
  set roots := (pinManager.list.map PinInfo.cid).toFinset with hroots
  have hclosed : ∀ c ∈ roots ∪ V, ∀ ls, linksOf itemSize s c = .ok ls → ∀ d ∈ ls, d ∈ roots ∪ V :=
    fun c _ ls hls d hd =>
      Finset.mem_union_right _ ((hV d).mpr ⟨c, (mem_linksOf_iff hls d).mp hd⟩)
  have hstack : ∀ c ∈ (pinManager.list.map PinInfo.cid).reverse, c ∈ roots ∪ V := fun c hc =>
    Finset.mem_union_left _ ((mem_pins_iff pinManager c).mp hc)
  obtain ⟨fuel, r, hr⟩ :=
    Worklist.exists_run (roots ∪ V) Finset.subset_union_left hclosed hstack
  have hmark : markReachable itemSize fuel s pinManager = some r := hr
  refine ⟨fuel, _, by rw [collect, hmark]; rfl, fun msg hmsg => ?_⟩
  cases r with
  | error f =>
    obtain rfl := Except.error.inj hmsg
    obtain ⟨c, hreach, hc⟩ := Worklist.exists_error_of_run_error (mem_pins_iff pinManager) hr
    obtain ⟨data, hview, hover⟩ := overflows_of_linksOf hc
    exact ⟨c, data, live_of_reachable hreach, hview, hover⟩
  | ok reachable =>
    -- neither the listing nor the sweep panics
    exfalso
    dsimp only at hmsg
    split at hmsg
    · exact absurd hmsg (by simp)
    · exact absurd hmsg (liftResult_ne_panic _ _)

end Collect

section Sample

open scoped CidReference
open PinManager (sampleRoot sampleDep)

/-- A CID that nothing links to. -/
def sampleOrphan : Cid := Cid.newV1 Codec.raw ⟨0x12, List.replicate 32 3, by decide⟩

/-- A block that links to itself and to a second one, the second one, and an orphan. -/
def sampleStore : MemoryBlockStore :=
  ((MemoryBlockStore.new.insert
    ⟨sampleRoot, encodeDagCbor (.list [.link sampleRoot, .link sampleDep])⟩).insert
      ⟨sampleDep, [1]⟩).insert ⟨sampleOrphan, [2, 3]⟩

/-- The self-link of the pin does not keep the search going, and nothing overflows. -/
theorem exists_collect_sampleStore :
    ∃ fuel r, collect 112 fuel sampleStore (PinManager.new.pin sampleRoot .recursive none 0) {}
      = some r ∧ ∀ msg, r.2 ≠ .error (.panic msg) := by
  obtain ⟨fuel, r, hrun, hpanic⟩ :=
    exists_collect 112 sampleStore (PinManager.new.pin sampleRoot .recursive none 0) {}
  refine ⟨fuel, r, hrun, fun msg hmsg => ?_⟩
  obtain ⟨c, data, -, hview, hover⟩ := hpanic msg hmsg
  have hstored : ∀ e ∈ sampleStore.blocks.entries, ¬ Ipld.Overflows 112 e.2.data := by
    decide +kernel
  obtain ⟨block, hblock, rfl⟩ := Option.map_eq_some_iff.mp hview
  exact hstored _ (AList.mem_lookup_iff.mp hblock) hover

theorem collect_spec_sampleStore :
    ∃ s', collect 112 3 sampleStore (PinManager.new.pin sampleRoot .recursive none 0) {}
        = some (s', .ok ⟨1, 2, 2, 3, false⟩) ∧ view s' sampleDep = some [1] := by
  have hrun : ((collect 112 3 sampleStore (PinManager.new.pin sampleRoot .recursive none 0) {}).map
      Prod.snd) = some (.ok ⟨1, 2, 2, 3, false⟩) := by
    decide +kernel
  obtain ⟨⟨s', r⟩, h, rfl⟩ := Option.map_eq_some_iff.mp hrun
  -- `sampleDep` is one link away from the pin
  refine ⟨s', h, ((collect_spec h).1 rfl).1 sampleDep [1] (by decide +kernel) ?_⟩
  refine ⟨⟨sampleRoot, .recursive, none, 0⟩, by decide +kernel, Relation.ReflTransGen.single ?_⟩
  exact ⟨encodeDagCbor (.list [.link sampleRoot, .link sampleDep]),
    .list [.link sampleRoot, .link sampleDep], by decide +kernel, by decide +kernel,
      by decide +kernel⟩

end Sample

end GarbageCollector

end Ipfrs
