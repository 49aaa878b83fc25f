import Ipfrs.Storage.Gc
import Ipfrs.Storage.PinAccounts

/-!
# What a collection keeps

The mark phase goes on from a block only if it can resolve its links, and from a pinned block only
if it is a root: an indirect pin is marked from the beginning, and so never pushed. So what it marks
are the blocks that are *covered* (`Covered`): those that are pinned, and those that a direct or
recursive pin reaches without passing through an indirect pin or through a block that cannot be
resolved.

* `markPhase_spec` — a mark phase that is not cancelled marks what is covered;
* `collect_keeps` — a collection keeps what is covered, whenever it is interrupted;
* `collect_uninterrupted` — one that is not interrupted is a walk over the stored blocks that are
  not covered (`sweepOne`), whatever the batches are;
* `collect_deletes` — and so it deletes what is not covered.
-/

namespace Ipfrs.Storage.GarbageCollector

open StackWalk

/-! ### What is covered -/

/-- A direct or recursive pin. -/
def IsRoot (m : PinManager) (c : Cid) : Prop :=
  ∃ info, m.pins.lookup c = some info ∧ (info.pinType = .direct ∨ info.pinType = .recursive)

/-- An indirect pin. -/
def IsIndirect (m : PinManager) (c : Cid) : Prop :=
  ∃ info, m.pins.lookup c = some info ∧ info.pinType = .indirect

/-- `y` is a link of `x` that can be resolved, and `x` is not an indirect pin. -/
def Expands (linkResolver : Cid → Except Error (List Cid)) (m : PinManager) (x y : Cid) : Prop :=
  (∃ links, linkResolver x = .ok links ∧ y ∈ links) ∧ ¬ IsIndirect m x

/-- Pinned, or reached from a root without passing through an indirect pin. -/
def Covered (linkResolver : Cid → Except Error (List Cid)) (m : PinManager) (c : Cid) : Prop :=
  m.isPinned c = true ∨
    ∃ root, IsRoot m root ∧ Relation.ReflTransGen (Expands linkResolver m) root c

variable {m : PinManager} {c : Cid}

theorem mem_listPins_iff {info : PinInfo} :
    (c, info) ∈ m.listPins ↔ m.pins.lookup c = some info := by
  unfold PinManager.listPins
  rw [← Option.mem_def, AList.mem_lookup_iff]
  constructor
  · intro h
    obtain ⟨⟨c', info'⟩, he, heq⟩ := List.mem_map.mp h
    obtain ⟨rfl, rfl⟩ := Prod.mk.inj heq
    exact he
  · intro h
    exact List.mem_map.mpr ⟨_, h, rfl⟩

theorem mem_rootsOf_iff : c ∈ rootsOf m.listPins ↔ IsRoot m c := by
  unfold rootsOf IsRoot
  rw [List.mem_map]
  constructor
  · rintro ⟨⟨c', info⟩, hmem, rfl⟩
    obtain ⟨hmem, htype⟩ := List.mem_filter.mp hmem
    exact ⟨info, mem_listPins_iff.mp hmem, of_decide_eq_true htype⟩
  · rintro ⟨info, hlookup, htype⟩
    refine ⟨(c, info), List.mem_filter.mpr ⟨mem_listPins_iff.mpr hlookup, ?_⟩, rfl⟩
    exact decide_eq_true htype

/-- What is marked before the search. -/
def pinnedSet (m : PinManager) : Finset Cid := (m.listPins.map Prod.fst).toFinset

theorem mem_pinnedSet_iff : c ∈ pinnedSet m ↔ m.isPinned c = true := by
  unfold pinnedSet PinManager.isPinned
  rw [List.mem_toFinset, List.mem_map, Option.isSome_iff_exists]
  constructor
  · rintro ⟨⟨c', info⟩, hmem, rfl⟩
    exact ⟨info, mem_listPins_iff.mp hmem⟩
  · rintro ⟨info, hlookup⟩
    exact ⟨(c, info), mem_listPins_iff.mpr hlookup, rfl⟩

theorem IsRoot.isPinned (h : IsRoot m c) : m.isPinned c = true := by
  obtain ⟨info, hlookup, -⟩ := h
  unfold PinManager.isPinned
  rw [hlookup]
  rfl

theorem IsRoot.not_isIndirect (h : IsRoot m c) : ¬ IsIndirect m c := by
  rintro ⟨info, hlookup, htype⟩
  obtain ⟨info', hlookup', htype'⟩ := h
  rw [hlookup] at hlookup'
  obtain rfl := Option.some.inj hlookup'
  rw [htype] at htype'
  rcases htype' with h | h
  · exact absurd h (by decide)
  · exact absurd h (by decide)

theorem isRoot_of_isPinned (h : m.isPinned c = true) (hindirect : ¬ IsIndirect m c) :
    IsRoot m c := by
  obtain ⟨info, hlookup⟩ := Option.isSome_iff_exists.mp h
  refine ⟨info, hlookup, ?_⟩
  cases htype : info.pinType with
  | direct => exact Or.inl rfl
  | recursive => exact Or.inr rfl
  | indirect => exact absurd ⟨info, hlookup, htype⟩ hindirect

theorem not_isIndirect_of_not_isPinned (h : ¬ m.isPinned c = true) : ¬ IsIndirect m c := by
  rintro ⟨info, hlookup, -⟩
  exact h (Option.isSome_iff_exists.mpr ⟨info, hlookup⟩)

/-! ### The mark phase -/

section Mark

variable [CidText] {linkResolver : Cid → Except Error (List Cid)} {moments : Moments}
  {m : PinManager}

/-- The links that the mark phase gets to see: none, when they cannot be resolved. -/
def linksOf (linkResolver : Cid → Except Error (List Cid)) (c : Cid) : List Cid :=
  (linkResolver c).toOption.getD []

variable {c : Cid} {st : MarkState}

omit [CidText] in
theorem linksOf_of_ok {links : List Cid} (h : linkResolver c = .ok links) :
    linksOf linkResolver c = links := by
  unfold linksOf
  rw [h]
  rfl

omit [CidText] in
theorem linksOf_of_error {e : Error} (h : linkResolver c = .error e) :
    linksOf linkResolver c = [] := by
  unfold linksOf
  rw [h]
  rfl

omit [CidText] in
theorem mem_linksOf_iff {x y : Cid} :
    y ∈ linksOf linkResolver x ↔ ∃ links, linkResolver x = .ok links ∧ y ∈ links := by
  unfold linksOf
  cases linkResolver x with
  | error e => simp [Except.toOption]
  | ok links => simp [Except.toOption]

omit [CidText] in
/-- **The trail of the mark phase is what is covered and not pinned.** -/
theorem covered_iff :
    Covered linkResolver m c ↔ m.isPinned c = true ∨
      ∃ root ∈ (rootsOf m.listPins).reverse, Relation.TransGen
        (FreshEdge (linksOf linkResolver) (pinnedSet m)) root c := by
  constructor
  · rintro (hpin | ⟨root, hroot, hpath⟩)
    · exact Or.inl hpin
    induction hpath with
    | refl => exact Or.inl hroot.isPinned
    | @tail x y _ hedge ih =>
      by_cases hy : m.isPinned y = true
      · exact Or.inl hy
      have hfresh : FreshEdge (linksOf linkResolver) (pinnedSet m) x y :=
        ⟨mem_linksOf_iff.mpr hedge.1, fun h => hy (mem_pinnedSet_iff.mp h)⟩
      rcases ih with hx | ⟨r, hr, hpath⟩
      · -- a pin that is gone on from is a root
        have hxroot := isRoot_of_isPinned hx hedge.2
        exact Or.inr ⟨x, List.mem_reverse.mpr (mem_rootsOf_iff.mpr hxroot), .single hfresh⟩
      · exact Or.inr ⟨r, hr, hpath.tail hfresh⟩
  · rintro (hpin | ⟨root, hroot, hpath⟩)
    · exact Or.inl hpin
    have hisRoot : IsRoot m root := mem_rootsOf_iff.mp (List.mem_reverse.mp hroot)
    refine Or.inr ⟨root, hisRoot, ?_⟩
    induction hpath with
    | single hedge => exact .single ⟨mem_linksOf_iff.mp hedge.1, hisRoot.not_isIndirect⟩
    | @tail x y hx hedge ih =>
      -- a block on the way was not pinned
      have hnot : x ∉ pinnedSet m := by
        cases hx with
        | single hedge => exact hedge.2
        | tail _ hedge => exact hedge.2
      refine ih.tail ⟨mem_linksOf_iff.mp hedge.1, not_isIndirect_of_not_isPinned fun h => ?_⟩
      exact hnot (mem_pinnedSet_iff.mpr h)

omit [CidText] in
theorem markLinks_eq (links : List Cid) (st : MarkState) :
    markLinks links st =
      { st with
        toProcess := (firstNew links st.marked).reverse ++ st.toProcess
        marked := st.marked ∪ (firstNew links st.marked).toFinset } := by
  induction links generalizing st with
  | nil =>
    unfold markLinks firstNew
    rw [List.toFinset_nil, Finset.union_empty]
    rfl
  | cons link links ih =>
    unfold markLinks firstNew
    split
    · exact ih st
    · rw [ih, List.reverse_cons, List.append_assoc, List.toFinset_cons, Finset.insert_union,
        Finset.union_insert]
      rfl

/-- What the mark phase knows at the head of its loop. -/
structure MarkState.Inv (linkResolver : Cid → Except Error (List Cid)) (m : PinManager)
    (st : MarkState) (trail : List Cid) : Prop where
  push : PushInv (linksOf linkResolver) (rootsOf m.listPins).reverse
    (pinnedSet m) st.toProcess trail
  marked : st.marked = pinnedSet m ∪ trail.toFinset
  errors : (∀ c, ∃ links, linkResolver c = .ok links) → st.errors = []

omit [CidText] in
theorem MarkState.Inv.initial : MarkState.Inv linkResolver m (markStart m.listPins) [] where
  push := PushInv.initial _ _ _
  marked := (Finset.union_empty _).symm
  errors _ := rfl

/-- One round: the links of a block are marked, none when they cannot be resolved. -/
theorem MarkState.Inv.next {st' : MarkState} {trail : List Cid}
    (hI : MarkState.Inv linkResolver m st trail)
    (hstep : markStep linkResolver moments st = .inl st') :
    ∃ x stack, st.toProcess = x :: stack ∧
      st'.toProcess = (firstNew (linksOf linkResolver x) st.marked).reverse ++ stack ∧
      st'.marked = st.marked ∪ (firstNew (linksOf linkResolver x) st.marked).toFinset ∧
      MarkState.Inv linkResolver m st' (trail ++ firstNew (linksOf linkResolver x) st.marked) := by
  have hpush := hI.push
  have hmarked : ∀ y, y ∈ st.marked ↔ y ∈ pinnedSet m ∨ y ∈ trail := by
    intro y
    rw [hI.marked, Finset.mem_union, List.mem_toFinset]
  unfold markStep at hstep
  cases hstack : st.toProcess with
  | nil =>
    rw [hstack] at hstep
    exact absurd hstep (by simp)
  | cons x stack =>
    rw [hstack] at hstep hpush
    dsimp only at hstep
    have hnext := hpush.next hmarked
    have hunion : st.marked ∪ (firstNew (linksOf linkResolver x) st.marked).toFinset =
        pinnedSet m ∪
          (trail ++ firstNew (linksOf linkResolver x) st.marked).toFinset := by
      rw [hI.marked, List.toFinset_append, Finset.union_assoc]
    refine ⟨x, stack, rfl, ?_⟩
    split at hstep
    · exact absurd hstep (by simp)
    · cases hlinks : linkResolver x with
      | ok links =>
        rw [hlinks] at hstep
        obtain rfl := Sum.inl.inj hstep
        rw [linksOf_of_ok hlinks] at hnext hunion ⊢
        rw [markLinks_eq]
        exact ⟨rfl, rfl, hnext, hunion, hI.errors⟩
      | error e =>
        -- the error is noted, and the block is taken to have no links
        rw [hlinks] at hstep
        obtain rfl := Sum.inl.inj hstep
        rw [linksOf_of_error hlinks] at hnext hunion ⊢
        refine ⟨rfl, (Finset.union_empty _).symm, hnext, ?_, fun htotal => ?_⟩
        · rw [← hunion]
          exact (Finset.union_empty _).symm
        · obtain ⟨links, hok⟩ := htotal x
          rw [hlinks] at hok
          exact absurd hok (by simp)

/-- **What the mark phase marks**, unless it was cancelled, and then the flag is still set when it
has returned. -/
theorem markPhase_spec {fuel : ℕ} (h : markPhase linkResolver moments fuel m = some st) :
    moments.cancelled st.tick = true ∨
      (∀ c, c ∈ st.marked ↔ Covered linkResolver m c) ∧
        ((∀ c, ∃ links, linkResolver c = .ok links) → st.errors = []) := by
  refine WhileLoop.run_inv (fun st => ∃ trail, MarkState.Inv linkResolver m st trail)
    (fun st => moments.cancelled st.tick = true ∨
      (∀ c, c ∈ st.marked ↔ Covered linkResolver m c) ∧
        ((∀ c, ∃ links, linkResolver c = .ok links) → st.errors = []))
    (fun st st' ⟨trail, hI⟩ hstep => ?_) (fun st r ⟨trail, hI⟩ hstep => ?_)
    ⟨[], MarkState.Inv.initial⟩ h
  · obtain ⟨x, stack, -, -, -, hI'⟩ := hI.next hstep
    exact ⟨_, hI'⟩
  · unfold markStep at hstep
    cases hstack : st.toProcess with
    | nil =>
      rw [hstack] at hstep
      obtain rfl := Sum.inr.inj hstep
      have hpush := hI.push
      rw [hstack] at hpush
      refine Or.inr ⟨fun c => ?_, hI.errors⟩
      rw [hI.marked, Finset.mem_union, List.mem_toFinset, hpush.mem_trail_iff, mem_pinnedSet_iff,
        covered_iff]
    | cons x stack =>
      rw [hstack] at hstep
      dsimp only at hstep
      split at hstep
      · next hcancelled =>
        -- the flag stays set
        obtain rfl := Sum.inr.inj hstep
        exact Or.inl (moments.cancelled_mono _ _ (Nat.le_succ st.tick) hcancelled)
      · cases hlinks : linkResolver x with
        | ok links => simp [hlinks] at hstep
        | error e => simp [hlinks] at hstep

/-- **The mark phase ends** when only finitely many blocks can be reached. -/
theorem exists_markPhase (moments : Moments)
    (hfin : {c | ∃ root, IsRoot m root ∧
      Relation.ReflTransGen (fun x y => y ∈ linksOf linkResolver x) root c}.Finite) :
    ∃ fuel st, markPhase linkResolver moments fuel m = some st := by
  have hU : ∀ c, c ∈ pinnedSet m ∪ hfin.toFinset ↔
      m.isPinned c = true ∨ ∃ root, IsRoot m root ∧
        Relation.ReflTransGen (fun x y => y ∈ linksOf linkResolver x) root c := by
    intro c
    rw [Finset.mem_union, mem_pinnedSet_iff, hfin.mem_toFinset]
    rfl
  -- what has been marked in the course of the walk can be reached
  have hreach : ∀ st trail, MarkState.Inv linkResolver m st trail →
      ∀ c, c ∈ st.toProcess ∨ c ∈ trail →
      ∃ root, IsRoot m root ∧
        Relation.ReflTransGen (fun x y => y ∈ linksOf linkResolver x) root c := by
    intro st trail hI c hc
    have hstart : c ∈ (rootsOf m.listPins).reverse ∨ c ∈ trail := by
      rcases hc with hc | hc
      · exact hI.push.stack_sub c hc
      · exact Or.inr hc
    rcases hstart with hc | hc
    · exact ⟨c, mem_rootsOf_iff.mp (List.mem_reverse.mp hc), .refl⟩
    · obtain ⟨root, hroot, hpath⟩ := hI.push.sound c hc
      refine ⟨root, mem_rootsOf_iff.mp (List.mem_reverse.mp hroot), ?_⟩
      exact Relation.ReflTransGen.mono (fun _ _ hedge => hedge.1) _ _ hpath.to_reflTransGen
  have hends := WhileLoop.run_of_measure
    (fun st => ∃ trail, MarkState.Inv linkResolver m st trail)
    (fun st => pushMeasure (pinnedSet m ∪ hfin.toFinset) st.marked
      st.toProcess)
    (fun st st' ⟨trail, hI⟩ (hstep : markStep linkResolver moments st = .inl st') => by
      obtain ⟨x, stack, hstack, htop, hmarked, hI'⟩ := hI.next hstep
      refine ⟨⟨_, hI'⟩, ?_⟩
      rw [htop, hmarked, hstack]
      refine pushMeasure_lt x (fun c hc => (hU c).mpr (Or.inr ?_)) (fun c hc => (hU c).mpr ?_)
      · obtain ⟨root, hroot, hpath⟩ :=
          hreach st trail hI x (Or.inl (by rw [hstack]; exact List.mem_cons_self))
        exact ⟨root, hroot, hpath.tail (mem_firstNew.mp hc).1⟩
      · rw [hI.marked, Finset.mem_union, mem_pinnedSet_iff, List.mem_toFinset] at hc
        exact hc.imp_right fun hc => hreach st trail hI c (Or.inr hc))
    ⟨[], MarkState.Inv.initial⟩
  obtain ⟨st, hst⟩ := hends
  exact ⟨_, st, hst⟩

end Mark

/-! ### The sweep phase -/

section Sweep

variable {S : Type} [BlockStore S] [StoreView S] [CidText] {config : GcConfig}
  {moments : Moments} {marked : Finset Cid}

omit [StoreView S] [CidText] in
theorem addSize_interrupted (store : S) (cid : Cid) (result : GcResult) :
    (addSize store cid result).interrupted = result.interrupted := by
  unfold addSize
  split <;> rfl

omit [StoreView S] in
theorem deleteOne_interrupted (st : S × GcResult) (cid : Cid) :
    (deleteOne st cid).2.interrupted = st.2.interrupted := by
  unfold deleteOne
  dsimp only
  split
  · exact addSize_interrupted _ _ _
  · exact addSize_interrupted _ _ _

omit [StoreView S] in
theorem deleteBatch_interrupted (cids : List Cid) (st : S × GcResult) :
    (deleteBatch cids st).2.interrupted = st.2.interrupted := by
  unfold deleteBatch
  induction cids generalizing st with
  | nil => rfl
  | cons cid cids ih =>
    rw [List.foldl_cons, ih]
    exact deleteOne_interrupted st cid

/-! #### What a sweep leaves alone -/

section Lawful

variable [LawfulBlockStore S]
variable {c cid : Cid} {cids : List Cid} {data : Option Bytes} {st : SweepState S}

theorem view_deleteOne {st : S × GcResult} (hc : c ≠ cid) :
    view (deleteOne st cid).1 c = view st.1 c := by
  unfold deleteOne
  dsimp only
  cases hdelete : BlockStore.delete st.1 cid with
  | ok store => exact (LawfulBlockStore.delete_ok hdelete).2 c hc
  | error e => rfl

theorem view_deleteBatch {st : S × GcResult} (hc : c ∉ cids) :
    view (deleteBatch cids st).1 c = view st.1 c := by
  unfold deleteBatch
  induction cids generalizing st with
  | nil => rfl
  | cons cid cids ih =>
    rw [List.mem_cons, not_or] at hc
    obtain ⟨hne, hc⟩ := hc
    rw [List.foldl_cons, ih hc]
    exact view_deleteOne hne

/-- The store has what it had for `c`, and `c` is not on the list of blocks to delete. -/
structure Spares (c : Cid) (data : Option Bytes) (st : SweepState S) : Prop where
  view_eq : view st.store c = data
  notMem : c ∉ st.toDelete

omit [LawfulBlockStore S] [CidText] in
theorem Spares.collectBlock (h : Spares c data st) (hc : c ≠ cid) :
    Spares c data (collectBlock config cid st) := by
  unfold GarbageCollector.collectBlock
  split
  · exact ⟨h.view_eq, h.notMem⟩
  · refine ⟨h.view_eq, fun hmem => ?_⟩
    rcases List.mem_append.mp hmem with hmem | hmem
    · exact h.notMem hmem
    · exact hc (List.mem_singleton.mp hmem)

theorem Spares.flush (h : Spares c data st) : Spares c data (flush config st) := by
  unfold GarbageCollector.flush
  split
  · refine ⟨?_, List.not_mem_nil⟩
    change view (deleteBatch st.toDelete (st.store, st.result)).1 c = data
    rw [view_deleteBatch h.notMem]
    exact h.view_eq
  · exact h

theorem Spares.endBatch (h : Spares c data st) : Spares c data (endBatch config st) := by
  have hcounted : Spares c data { st with batchCount := st.batchCount + 1 } :=
    ⟨h.view_eq, h.notMem⟩
  unfold GarbageCollector.endBatch
  dsimp only
  split
  · exact ⟨hcounted.flush.view_eq, hcounted.flush.notMem⟩
  · exact hcounted

/-- **A sweep leaves marked blocks alone**, wherever it stops. -/
theorem Spares.sweepLoop (hmarked : c ∈ marked) (h : Spares c data st) :
    Spares c data (sweepLoop config moments marked cids st) := by
  induction cids generalizing st with
  | nil => exact h
  | cons cid cids ih =>
    have hpolled : Spares c data { st with tick := st.tick + 2 } := ⟨h.view_eq, h.notMem⟩
    unfold GarbageCollector.sweepLoop
    dsimp only
    split
    · exact ⟨h.view_eq, h.notMem⟩
    · split
      · exact ⟨h.view_eq, h.notMem⟩
      · split
        · exact ih hpolled
        · next hcid =>
          have hne : c ≠ cid := fun heq => hcid (heq ▸ hmarked)
          exact ih (hpolled.collectBlock hne).endBatch

theorem view_sweepPhase {store store' : S} {result result' : GcResult} {tick : ℕ}
    (h : sweepPhase config moments marked store result tick = .ok (store', result'))
    (hmarked : c ∈ marked) : view store' c = view store c := by
  obtain ⟨allCids, -, h⟩ := Except.bind_eq_ok_iff.mp h
  obtain ⟨rfl, -⟩ := Prod.mk.inj (Except.ok.inj h)
  have hspares : Spares c (view store c) (S := S)
      { store := store, result := { result with blocksScanned := allCids.length }, tick := tick } :=
    ⟨rfl, List.not_mem_nil⟩
  exact (hspares.sweepLoop hmarked).flush.view_eq

end Lawful

/-! #### A sweep that is not interrupted -/

/-- An unmarked block, without batches: counted in a dry run, and deleted otherwise. -/
def sweepOne (dryRun : Bool) (st : S × GcResult) (cid : Cid) : S × GcResult :=
  if dryRun then
    let result := addSize st.1 cid st.2
    (st.1, { result with blocksCollected := result.blocksCollected + 1 })
  else deleteOne st cid

/-- The store and the result as they are once the list of blocks to delete is empty. -/
def pending (st : SweepState S) : S × GcResult :=
  deleteBatch st.toDelete (st.store, st.result)

variable {st : SweepState S}

omit [StoreView S] in
/-- **To put a block on the list is to delete it later.** -/
theorem pending_collectBlock (config : GcConfig) (cid : Cid)
    (hdry : config.dryRun = true → st.toDelete = []) :
    pending (collectBlock config cid st) = sweepOne config.dryRun (pending st) cid ∧
      (config.dryRun = true → (collectBlock config cid st).toDelete = []) := by
  unfold collectBlock sweepOne
  by_cases hd : config.dryRun = true
  · rw [if_pos hd, if_pos hd]
    refine ⟨?_, fun _ => hdry hd⟩
    unfold pending
    dsimp only
    rw [hdry hd]
    rfl
  · rw [if_neg hd, if_neg hd]
    refine ⟨?_, fun h => absurd h hd⟩
    unfold pending deleteBatch
    rw [List.foldl_append]
    rfl

omit [StoreView S] in
theorem pending_flush (config : GcConfig) (st : SweepState S) :
    pending (flush config st) = pending st ∧
    (config.dryRun = true → st.toDelete = [] → (flush config st).toDelete = []) := by
  unfold flush
  split
  · exact ⟨rfl, fun _ _ => rfl⟩
  · exact ⟨rfl, fun _ h => h⟩

omit [StoreView S] in
theorem flush_eq_pending (hdry : config.dryRun = true → st.toDelete = []) :
    ((flush config st).store, (flush config st).result) = pending st := by
  unfold flush pending
  by_cases hnil : st.toDelete = []
  · rw [hnil]
    simp [deleteBatch]
  · have hd : config.dryRun = false := by
      by_contra hd
      exact hnil (hdry (by simpa using hd))
    rw [if_pos (by simp [hd, hnil])]

omit [StoreView S] in
theorem pending_endBatch (hdry : config.dryRun = true → st.toDelete = []) :
    pending (endBatch config st) = pending st ∧
      (config.dryRun = true → (endBatch config st).toDelete = []) := by
  have hflush := pending_flush config { st with batchCount := st.batchCount + 1 }
  unfold endBatch
  dsimp only
  split
  · exact ⟨hflush.1, fun hd => hflush.2 hd (hdry hd)⟩
  · exact ⟨rfl, hdry⟩

omit [StoreView S] in
/-- **A sweep that is not interrupted is a walk over the unmarked blocks**, in the order of the
list. The batches do not matter. -/
theorem pending_sweepLoop (hmax : config.maxBlocksPerRun = 0) {cids : List Cid}
    (hdry : config.dryRun = true → st.toDelete = [])
    (h : (sweepLoop config moments marked cids st).result.interrupted = false) :
    pending (sweepLoop config moments marked cids st) =
        (cids.filter (· ∉ marked)).foldl (sweepOne config.dryRun) (pending st) ∧
      (config.dryRun = true → (sweepLoop config moments marked cids st).toDelete = []) := by
  induction cids generalizing st with
  | nil => exact ⟨rfl, hdry⟩
  | cons cid cids ih =>
    unfold sweepLoop at h ⊢
    dsimp only at h ⊢
    by_cases hstop : (moments.cancelled st.tick || shouldStop config moments (st.tick + 1)) = true
    · rw [if_pos hstop] at h
      exact absurd h (by simp)
    rw [if_neg hstop] at h ⊢
    rw [if_neg (by simp [hmax])] at h ⊢
    by_cases hmarked : cid ∈ marked
    · rw [if_pos hmarked] at h ⊢
      rw [List.filter_cons_of_neg (by simpa using hmarked)]
      exact ih hdry h
    · rw [if_neg hmarked] at h ⊢
      rw [List.filter_cons_of_pos (by simpa using hmarked), List.foldl_cons]
      -- an unmarked block is collected, and the batch may be full then
      have hpolled : config.dryRun = true →
          ({ st with tick := st.tick + 2 } : SweepState S).toDelete = [] := hdry
      have hcollect := pending_collectBlock config cid hpolled
      have hbatch := pending_endBatch hcollect.2
      obtain ⟨hpending, hnil⟩ := ih hbatch.2 h
      rw [hpending, hbatch.1, hcollect.1]
      exact ⟨rfl, hnil⟩

omit [StoreView S] in
theorem flush_interrupted (config : GcConfig) (st : SweepState S) :
    (flush config st).result.interrupted = st.result.interrupted := by
  unfold flush
  split
  · exact deleteBatch_interrupted st.toDelete (st.store, st.result)
  · rfl

omit [StoreView S] in
theorem sweepPhase_uninterrupted (hmax : config.maxBlocksPerRun = 0) {store store' : S}
    {result result' : GcResult} {tick : ℕ}
    (h : sweepPhase config moments marked store result tick = .ok (store', result'))
    (hint : result'.interrupted = false) :
    ∃ allCids, BlockStore.listCids store = .ok allCids ∧
      (store', result') = (allCids.filter (· ∉ marked)).foldl (sweepOne config.dryRun)
        (store, { result with blocksScanned := allCids.length }) := by
  obtain ⟨allCids, hlist, h⟩ := Except.bind_eq_ok_iff.mp h
  refine ⟨allCids, hlist, ?_⟩
  set start : SweepState S :=
    { store := store, result := { result with blocksScanned := allCids.length }, tick := tick }
  have hst : ((flush config (sweepLoop config moments marked allCids start)).store,
      (flush config (sweepLoop config moments marked allCids start)).result) = (store', result') :=
    Except.ok.inj h
  have hloop : (sweepLoop config moments marked allCids start).result.interrupted = false := by
    rw [← flush_interrupted config, (Prod.mk.inj hst).2]
    exact hint
  obtain ⟨hpending, hnil⟩ := pending_sweepLoop hmax (fun _ => rfl) hloop
  rw [← hst, flush_eq_pending hnil, hpending]
  rfl

end Sweep

/-! ### Collections -/

section Collect

variable {S : Type} [BlockStore S] [StoreView S] [CidText]
  {linkResolver : Cid → Except Error (List Cid)} {config : GcConfig} {moments : Moments}
  {m : PinManager} {s s' : S} {fuel : ℕ}
variable {outcome : Except Error GcResult} {c : Cid} {result : GcResult}

omit [StoreView S] in
/-- **How a collection ends**: stopped after the mark phase, without the list of the stored blocks,
or after a sweep. -/
theorem collect_cases (h : collect linkResolver config moments fuel s m = some (s', outcome)) :
    ∃ st, markPhase linkResolver moments fuel m = some st ∧
      ((shouldStop config moments st.tick = true ∧ s' = s ∧
          ∃ result, outcome = .ok result ∧ result.interrupted = true) ∨
        (shouldStop config moments st.tick = false ∧
          ((s' = s ∧ ∃ e, outcome = .error e) ∨
            ∃ result, outcome = .ok result ∧
              sweepPhase config moments st.marked s
                { blocksMarked := st.marked.card, errors := st.errors } (st.tick + 1) =
                  .ok (s', result)))) := by
  obtain ⟨st, hmark, h⟩ := Option.map_eq_some_iff.mp h
  refine ⟨st, hmark, ?_⟩
  dsimp only at h
  cases hstop : shouldStop config moments st.tick with
  | true =>
    rw [hstop, if_pos rfl] at h
    obtain ⟨rfl, rfl⟩ := Prod.mk.inj h
    exact Or.inl ⟨rfl, rfl, _, rfl, rfl⟩
  | false =>
    rw [hstop, if_neg (by simp)] at h
    -- the sweep returns, or the blocks cannot be listed
    refine Or.inr ⟨rfl, ?_⟩
    split at h
    · next store result hsweep =>
      obtain ⟨rfl, rfl⟩ := Prod.mk.inj h
      exact Or.inr ⟨result, rfl, hsweep⟩
    · next e hsweep =>
      obtain ⟨rfl, rfl⟩ := Prod.mk.inj h
      exact Or.inl ⟨rfl, e, rfl⟩

/-- A collection that was not stopped after the mark phase has marked what is covered. -/
theorem marked_of_not_shouldStop {st : MarkState}
    (hmark : markPhase linkResolver moments fuel m = some st)
    (hstop : shouldStop config moments st.tick = false) :
    (∀ c, c ∈ st.marked ↔ Covered linkResolver m c) ∧
      ((∀ c, ∃ links, linkResolver c = .ok links) → st.errors = []) := by
  rcases markPhase_spec hmark with hcancelled | hspec
  · -- the flag that stopped the marking stops the collection
    unfold shouldStop at hstop
    rw [hcancelled] at hstop
    exact absurd hstop (by simp)
  · exact hspec

/-- **A collection keeps what is covered**, at whatever moments it is cancelled or runs out of
time. -/
theorem collect_keeps [LawfulBlockStore S] (hc : Covered linkResolver m c)
    (h : collect linkResolver config moments fuel s m = some (s', outcome)) :
    view s' c = view s c := by
  obtain ⟨st, hmark, ⟨-, rfl, -⟩ | ⟨hstop, ⟨rfl, -⟩ | ⟨result, -, hsweep⟩⟩⟩ := collect_cases h
  · rfl
  · rfl
  · exact view_sweepPhase hsweep (((marked_of_not_shouldStop hmark hstop).1 c).mpr hc)

omit [StoreView S] in
/-- **A collection that is not interrupted**, and has no limit on its blocks, goes through the
stored blocks that are not covered, one by one. -/
theorem collect_uninterrupted (hmax : config.maxBlocksPerRun = 0)
    (h : collect linkResolver config moments fuel s m = some (s', .ok result))
    (hint : result.interrupted = false) :
    ∃ (marked : Finset Cid) (errors : List String) (allCids : List Cid),
      (∀ c, c ∈ marked ↔ Covered linkResolver m c) ∧
      ((∀ c, ∃ links, linkResolver c = .ok links) → errors = []) ∧
      BlockStore.listCids s = .ok allCids ∧
      (s', result) = (allCids.filter (· ∉ marked)).foldl (sweepOne config.dryRun)
        (s, { blocksMarked := marked.card, errors := errors,
              blocksScanned := allCids.length }) := by
  obtain ⟨st, hmark, ⟨-, -, r, hr, hstopped⟩ | ⟨hstop, ⟨-, e, he⟩ | ⟨r, hr, hsweep⟩⟩⟩ :=
    collect_cases h
  · obtain rfl := Except.ok.inj hr
    rw [hint] at hstopped
    exact absurd hstopped (by simp)
  · exact absurd he (by simp)
  · obtain rfl := Except.ok.inj hr
    obtain ⟨hcovered, herrors⟩ := marked_of_not_shouldStop hmark hstop
    obtain ⟨allCids, hlist, heq⟩ := sweepPhase_uninterrupted hmax hsweep hint
    exact ⟨st.marked, st.errors, allCids, hcovered, herrors, hlist, heq⟩

/-- A walk that deletes leaves no block it goes to, when no operation of the store fails. -/
theorem view_deleteBatch_of_mem [LawfulBlockStore S] [ReliableBlockStore S] {cids : List Cid}
    {st : S × GcResult} (hc : c ∈ cids) : view (deleteBatch cids st).1 c = none := by
  induction cids generalizing st with
  | nil => exact absurd hc List.not_mem_nil
  | cons cid cids ih =>
    change view (deleteBatch cids (deleteOne st cid)).1 c = none
    by_cases hrest : c ∈ cids
    · exact ih hrest
    · obtain rfl : c = cid := (List.mem_cons.mp hc).resolve_right hrest
      rw [view_deleteBatch hrest]
      obtain ⟨store, hdelete⟩ := ReliableBlockStore.delete st.1 c
      unfold deleteOne
      dsimp only
      rw [hdelete]
      exact (LawfulBlockStore.delete_ok hdelete).1

/-- **An uninterrupted collection deletes what is not covered.** -/
theorem collect_deletes [LawfulBlockStore S] [ReliableBlockStore S]
    (hmax : config.maxBlocksPerRun = 0) (hdry : config.dryRun = false)
    (h : collect linkResolver config moments fuel s m = some (s', .ok result))
    (hint : result.interrupted = false) (hc : ¬ Covered linkResolver m c) : view s' c = none := by
  obtain ⟨marked, errors, allCids, hcovered, -, hlist, heq⟩ := collect_uninterrupted hmax h hint
  rw [hdry] at heq
  have hs' : s' = (deleteBatch (allCids.filter (· ∉ marked))
      (s, { blocksMarked := marked.card, errors := errors, blocksScanned := allCids.length })).1 :=
    congrArg Prod.fst heq
  rw [hs']
  by_cases hmem : c ∈ allCids
  · refine view_deleteBatch_of_mem (List.mem_filter.mpr ⟨hmem, decide_eq_true fun hmarked => ?_⟩)
    exact hc ((hcovered c).mp hmarked)
  · rw [view_deleteBatch fun hmem' => hmem (List.mem_filter.mp hmem').1]
    -- it was not there to begin with
    have hnone := mt ((LawfulBlockStore.listCids_ok hlist).2 c).mpr hmem
    simpa using hnone

/-! #### Collections that nobody interrupts -/

/-- No cancellation, and no time passes. -/
def Moments.quiet : Moments := ⟨fun _ => false, fun _ _ _ h => h, fun _ => 0⟩

omit [StoreView S] [CidText] in
theorem collectBlock_interrupted (config : GcConfig) (cid : Cid) (st : SweepState S) :
    (collectBlock config cid st).result.interrupted = st.result.interrupted := by
  unfold collectBlock
  split
  · exact addSize_interrupted _ _ _
  · rfl

omit [StoreView S] in
theorem endBatch_interrupted (config : GcConfig) (st : SweepState S) :
    (endBatch config st).result.interrupted = st.result.interrupted := by
  unfold endBatch
  dsimp only
  split
  · exact flush_interrupted config _
  · rfl

omit [StoreView S] in
theorem sweepLoop_quiet (marked : Finset Cid) (cids : List Cid) (st : SweepState S) :
    (sweepLoop {} Moments.quiet marked cids st).result.interrupted = st.result.interrupted := by
  induction cids generalizing st with
  | nil => rfl
  | cons cid cids ih =>
    unfold sweepLoop
    dsimp only
    rw [if_neg (by simp [Moments.quiet, shouldStop]), if_neg (by simp)]
    split
    · exact ih _
    · rw [ih, endBatch_interrupted, collectBlock_interrupted]

omit [StoreView S] in
/-- **A collection ends** when only finitely many blocks can be reached, and is not interrupted when
nobody does. -/
theorem exists_collect_ok [ReliableBlockStore S] (s : S)
    (hfin : {c | ∃ root, IsRoot m root ∧
      Relation.ReflTransGen (fun x y => y ∈ linksOf linkResolver x) root c}.Finite) :
    ∃ fuel s' result, collect linkResolver {} Moments.quiet fuel s m = some (s', .ok result) ∧
      result.interrupted = false := by
  obtain ⟨fuel, st, hmark⟩ := exists_markPhase Moments.quiet hfin
  obtain ⟨allCids, hlist⟩ := ReliableBlockStore.listCids s
  refine ⟨fuel, ?_⟩
  unfold collect sweepPhase
  rw [hmark, hlist]
  refine ⟨_, _, rfl, ?_⟩
  rw [flush_interrupted, sweepLoop_quiet]

end Collect

end Ipfrs.Storage.GarbageCollector
