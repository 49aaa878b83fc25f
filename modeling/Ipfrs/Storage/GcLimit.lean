import Ipfrs.Storage.GcProtected

/-!
# Collections with a limit on their blocks

The sweep compares its limit with the number of blocks that have been *deleted*, and blocks are
deleted batch by batch, or all at the end. So a sweep stops at the end of a batch only
(`sweepLoop_stops`), while a dry run, which counts a block at once, stops at the limit
(`sweepLoop_dry`).

* `collect_limit_iff` — a collection deletes as many blocks as its limit says, and as many as a dry
  run reports, if and only if there is an end of a batch at which that many have been deleted. On a
  store that works: nothing is beyond the limit, or the limit is a multiple of the batch size.
-/

namespace Ipfrs.Storage.GarbageCollector

/-! ### Deleting blocks one by one -/

section Deletes

variable {S : Type} [BlockStore S]

variable (st : S × ℕ)

/-- A store, and how many blocks have been deleted from it. -/
def deleteCounted (cid : Cid) : S × ℕ :=
  match BlockStore.delete st.1 cid with
  | .ok store => (store, st.2 + 1)
  | .error _ => st

def deleteAll (cids : List Cid) : S × ℕ := cids.foldl deleteCounted st

/-- How many of the first `k` blocks can be deleted, one after the other. -/
def deletable (s : S) (cids : List Cid) (k : ℕ) : ℕ := (deleteAll (s, 0) (cids.take k)).2

theorem deleteAll_append (cids cids' : List Cid) :
    deleteAll st (cids ++ cids') = deleteAll (deleteAll st cids) cids' :=
  List.foldl_append

theorem deleteAll_bounds (cids : List Cid) :
    st.2 ≤ (deleteAll st cids).2 ∧ (deleteAll st cids).2 ≤ st.2 + cids.length := by
  induction cids generalizing st with
  | nil => exact ⟨Nat.le_refl _, Nat.le_refl _⟩
  | cons cid cids ih =>
    obtain ⟨hle, hlt⟩ := ih (deleteCounted st cid)
    have hone : st.2 ≤ (deleteCounted st cid).2 ∧ (deleteCounted st cid).2 ≤ st.2 + 1 := by
      unfold deleteCounted
      split
      · exact ⟨Nat.le_succ _, Nat.le_refl _⟩
      · exact ⟨Nat.le_refl _, Nat.le_succ _⟩
    change st.2 ≤ (deleteAll (deleteCounted st cid) cids).2 ∧
      (deleteAll (deleteCounted st cid) cids).2 ≤ st.2 + (cids.length + 1)
    omega

theorem deletable_zero (s : S) (cids : List Cid) : deletable s cids 0 = 0 := rfl

variable {k : ℕ}

theorem deletable_mono (s : S) (cids : List Cid) {l : ℕ} (h : k ≤ l) :
    deletable s cids k ≤ deletable s cids l := by
  obtain ⟨d, rfl⟩ := Nat.exists_eq_add_of_le h
  unfold deletable
  rw [List.take_add, deleteAll_append]
  exact (deleteAll_bounds _ _).1

theorem deletable_le (s : S) (cids : List Cid) (k : ℕ) : deletable s cids k ≤ k := by
  have hle := (deleteAll_bounds (s, 0) (cids.take k)).2
  rw [List.length_take, Nat.zero_add] at hle
  exact hle.trans (min_le_left _ _)

theorem deletable_eq [ReliableBlockStore S] (s : S) {cids : List Cid} (h : k ≤ cids.length) :
    deletable s cids k = k := by
  have hall : ∀ (st : S × ℕ) (cids : List Cid),
      (deleteAll st cids).2 = st.2 + cids.length := by
    intro st cids
    induction cids generalizing st with
    | nil => rfl
    | cons cid cids ih =>
      obtain ⟨store, hdelete⟩ := ReliableBlockStore.delete st.1 cid
      change (deleteAll (deleteCounted st cid) cids).2 = _
      rw [ih, deleteCounted, hdelete, List.length_cons, Nat.add_assoc, Nat.add_comm 1]
  rw [deletable, hall, List.length_take, min_eq_left h, Nat.zero_add]

theorem addSize_blocksCollected (store : S) (cid : Cid) (result : GcResult) :
    (addSize store cid result).blocksCollected = result.blocksCollected := by
  unfold addSize
  split <;> rfl

theorem deleteBatch_counted [CidText] (cids : List Cid) (st : S × GcResult) :
    ((deleteBatch cids st).1, (deleteBatch cids st).2.blocksCollected) =
      deleteAll (st.1, st.2.blocksCollected) cids := by
  induction cids generalizing st with
  | nil => rfl
  | cons cid cids ih =>
    change ((deleteBatch cids (deleteOne st cid)).1,
        (deleteBatch cids (deleteOne st cid)).2.blocksCollected) =
      deleteAll (deleteCounted (st.1, st.2.blocksCollected) cid) cids
    rw [ih]
    congr 1
    unfold deleteOne deleteCounted
    dsimp only
    cases BlockStore.delete st.1 cid with
    | ok store => simp only [addSize_blocksCollected]
    | error e => simp only [addSize_blocksCollected]

end Deletes

/-! ### Where a sweep stops -/

section Sweep

variable {S : Type} [BlockStore S] [CidText] {config : GcConfig} {moments : Moments}
  {marked : Finset Cid} {s : S} {unmarked : List Cid}

/-- A batch is full with this many blocks. -/
def batchLength (config : GcConfig) : ℕ := max config.batchSize 1

/-- The `l` blocks that a sweep has come to so far end a batch, of `total` blocks in all. -/
def BatchEnd (config : GcConfig) (total l : ℕ) : Prop :=
  l = total ∨ config.incremental = true ∧ batchLength config ∣ l ∧ l ≤ total

/-- Where a sweep that deletes stops: the first end of a batch at which as many blocks have been
deleted as the limit allows, or the end of the list. -/
structure StopsAt (config : GcConfig) (s : S) (unmarked : List Cid) (stop : ℕ) : Prop where
  batchEnd : BatchEnd config unmarked.length stop
  reached : stop = unmarked.length ∨ config.maxBlocksPerRun ≤ deletable s unmarked stop
  below : ∀ l < stop, config.incremental = true → batchLength config ∣ l →
    deletable s unmarked l < config.maxBlocksPerRun

theorem flush_counted (hdry : config.dryRun = false) (st : SweepState S) :
    ((flush config st).store, (flush config st).result.blocksCollected) =
        deleteAll (st.store, st.result.blocksCollected) st.toDelete ∧
      (flush config st).toDelete = [] := by
  unfold flush
  by_cases hnil : st.toDelete = []
  · rw [if_neg (by simp [hnil]), hnil]
    exact ⟨rfl, rfl⟩
  · rw [if_pos (by simp [hdry, hnil])]
    exact ⟨deleteBatch_counted st.toDelete (st.store, st.result), rfl⟩

/-- What a sweep that deletes knows when it has come to `k` unmarked blocks: the first `done` of
them have been dealt with, and the others are on the list. -/
structure Swept (config : GcConfig) (s : S) (unmarked : List Cid) (k done : ℕ)
    (st : SweepState S) : Prop where
  done_le : done ≤ k
  le_length : k ≤ unmarked.length
  counted : (st.store, st.result.blocksCollected) = deleteAll (s, 0) (unmarked.take done)
  take_eq : unmarked.take k = unmarked.take done ++ st.toDelete
  batchCount : st.batchCount = k - done
  /-- At the end of every earlier batch fewer blocks had been deleted than the limit allows. -/
  below : ∀ l < done, config.incremental = true → batchLength config ∣ l →
    deletable s unmarked l < config.maxBlocksPerRun
  /-- The limit is reached at the end of a batch only. -/
  limit : deletable s unmarked done < config.maxBlocksPerRun ∨ k = done
  batch : config.incremental = true → batchLength config ∣ done ∧ k - done < batchLength config
  single : config.incremental = false → done = 0

namespace Swept

variable {k done : ℕ} {st : SweepState S}

omit [CidText] in
theorem blocksCollected (h : Swept config s unmarked k done st) :
    st.result.blocksCollected = deletable s unmarked done :=
  congrArg Prod.snd h.counted

omit [CidText] in
theorem of_eq (h : Swept config s unmarked k done st) {st' : SweepState S}
    (hcounted : (st'.store, st'.result.blocksCollected) = (st.store, st.result.blocksCollected))
    (htoDelete : st'.toDelete = st.toDelete) (hbatchCount : st'.batchCount = st.batchCount) :
    Swept config s unmarked k done st' where
  done_le := h.done_le
  le_length := h.le_length
  counted := hcounted.trans h.counted
  take_eq := by rw [htoDelete, h.take_eq]
  batchCount := hbatchCount.trans h.batchCount
  below := h.below
  limit := h.limit
  batch := h.batch
  single := h.single

omit [CidText] in
/-- Between the beginning of a batch and what the sweep has come to, no batch ends. -/
theorem le_done (h : Swept config s unmarked k done st) {l : ℕ} (hinc : config.incremental = true)
    (hdvd : batchLength config ∣ l) (hl : l ≤ k) : l ≤ done := by
  obtain ⟨hdone, hlt⟩ := h.batch hinc
  by_contra hgt
  -- the distance is a multiple of the batch length
  have hle := Nat.le_of_dvd (by omega) (Nat.dvd_sub hdvd hdone)
  omega

theorem flush_eq (h : Swept config s unmarked k done st) (hdry : config.dryRun = false) :
    ((flush config st).store, (flush config st).result.blocksCollected) =
      deleteAll (s, 0) (unmarked.take k) := by
  rw [(flush_counted hdry st).1, h.counted, h.take_eq, deleteAll_append]

/-- **One more block**: it is put on the list, and the list is dealt with at the end of a batch. -/
theorem collect (h : Swept config s unmarked k done st) (hdry : config.dryRun = false)
    (hlimit : deletable s unmarked done < config.maxBlocksPerRun) {cid : Cid}
    (hcid : unmarked[k]? = some cid) (tick : ℕ) :
    ∃ done', Swept config s unmarked (k + 1) done'
      (endBatch config (collectBlock config cid { st with tick := tick })) := by
  obtain ⟨hlt, rfl⟩ := List.getElem?_eq_some_iff.mp hcid
  have hlist : collectBlock config unmarked[k] { st with tick := tick } =
      { st with tick := tick, toDelete := st.toDelete ++ [unmarked[k]] } :=
    if_neg (by simp [hdry])
  have htake : unmarked.take (k + 1) = unmarked.take done ++ (st.toDelete ++ [unmarked[k]]) := by
    rw [List.take_add_one, List.getElem?_eq_getElem hlt, h.take_eq, List.append_assoc]
    rfl
  have hcount := h.batchCount
  have hle := h.done_le
  rw [hlist, endBatch]
  dsimp only
  split
  · next hfull =>
    -- the batch is full: it is deleted, and nothing is left on the list
    obtain ⟨hinc, hfull⟩ := hfull
    obtain ⟨hdone, hroom⟩ := h.batch hinc
    have hlen : k + 1 = done + batchLength config := by
      unfold batchLength at hroom ⊢
      omega
    obtain ⟨hflush, hnil⟩ := flush_counted hdry (S := S) { st with
      tick := tick, toDelete := st.toDelete ++ [unmarked[k]], batchCount := st.batchCount + 1 }
    refine ⟨k + 1, Nat.le_refl _, hlt, ?_, ?_, (Nat.sub_self _).symm, ?_, Or.inr rfl, ?_, ?_⟩
    · rw [htake, deleteAll_append, ← h.counted]
      exact hflush
    · dsimp only
      rw [hnil, List.append_nil]
    · -- the only new end of a batch is `done`, where the limit had not been reached
      intro l hl hinc' hdvd
      rcases (h.le_done hinc' hdvd (Nat.le_of_lt_succ hl)).lt_or_eq with hl | rfl
      · exact h.below l hl hinc' hdvd
      · exact hlimit
    · intro _
      rw [Nat.sub_self, hlen]
      exact ⟨Nat.dvd_add_self_right.mpr hdone, (Nat.zero_le _).trans_lt hroom⟩
    · intro hsingle
      rw [hinc] at hsingle
      cases hsingle
  · next hroom =>
    -- the batch goes on
    refine ⟨done, hle.trans (Nat.le_succ k), hlt, h.counted, htake, ?_, h.below, Or.inl hlimit, ?_,
      h.single⟩
    · dsimp only
      omega
    · intro hinc
      refine ⟨(h.batch hinc).1, ?_⟩
      have hroom' : ¬ config.batchSize ≤ st.batchCount + 1 := fun hfull => hroom ⟨hinc, hfull⟩
      unfold batchLength
      omega

end Swept

/-- Nobody interrupts the collection. -/
def Undisturbed (config : GcConfig) (moments : Moments) : Prop :=
  config.timeLimit = none ∧ ∀ tick, moments.cancelled tick = false

omit [BlockStore S] [CidText] in
theorem Undisturbed.goes_on (h : Undisturbed config moments) (tick tick' : ℕ) :
    (moments.cancelled tick || shouldStop config moments tick') = false := by
  rw [h.2, shouldStop, h.2, h.1]
  rfl

variable {cids : List Cid} {st : SweepState S}

/-- **A sweep that deletes** has dealt with the blocks before its stop, and with no other one. -/
theorem sweepLoop_stops (hdry : config.dryRun = false) (hmax : 0 < config.maxBlocksPerRun)
    (hquiet : Undisturbed config moments) {k done : ℕ} (h : Swept config s unmarked k done st)
    (hrest : unmarked.drop k = cids.filter (· ∉ marked)) :
    ∃ stop, StopsAt config s unmarked stop ∧
      ((flush config (sweepLoop config moments marked cids st)).store,
          (flush config (sweepLoop config moments marked cids st)).result.blocksCollected) =
        deleteAll (s, 0) (unmarked.take stop) := by
  induction cids generalizing k done st with
  | nil =>
    -- the last batch ends here, full or not
    have hk : k = unmarked.length :=
      Nat.le_antisymm h.le_length (List.drop_eq_nil_iff.mp hrest)
    refine ⟨k, ⟨Or.inl hk, Or.inl hk, fun l hl hinc hdvd => ?_⟩, h.flush_eq hdry⟩
    rcases (h.le_done hinc hdvd hl.le).lt_or_eq with hlt | rfl
    · exact h.below l hlt hinc hdvd
    · exact h.limit.resolve_right hl.ne'
  | cons cid cids ih =>
    unfold sweepLoop
    dsimp only
    rw [if_neg (by simp [hquiet.goes_on])]
    by_cases hstop : config.maxBlocksPerRun ≤ deletable s unmarked done
    · -- the limit is reached, so a batch has just ended
      rw [if_pos ⟨hmax, h.blocksCollected ▸ hstop⟩]
      obtain rfl := h.limit.resolve_left (Nat.not_lt.mpr hstop)
      have hpolled : Swept config s unmarked k k
          { st with
            tick := st.tick + 2
            result := { st.result with interrupted := true } } :=
        h.of_eq rfl rfl rfl
      refine ⟨k, ⟨Or.inr ?_, Or.inr hstop, h.below⟩, hpolled.flush_eq hdry⟩
      cases hinc : config.incremental with
      | true => exact ⟨rfl, (h.batch hinc).1, h.le_length⟩
      | false =>
        -- without batches nothing has been deleted yet
        rw [h.single hinc, deletable_zero] at hstop
        exact absurd hmax (Nat.not_lt.mpr hstop)
    · have hlimit := Nat.lt_of_not_le hstop
      rw [if_neg (fun hreached => hstop (h.blocksCollected ▸ hreached.2))]
      by_cases hmarked : cid ∈ marked
      · rw [if_pos hmarked]
        rw [List.filter_cons_of_neg (by simpa using hmarked)] at hrest
        exact ih (h.of_eq rfl rfl rfl) hrest
      · rw [if_neg hmarked]
        rw [List.filter_cons_of_pos (by simpa using hmarked)] at hrest
        -- the block is the next unmarked one
        have hcid : unmarked[k]? = some cid := by
          rw [← List.head?_drop, hrest]
          rfl
        obtain ⟨done', h'⟩ := h.collect hdry hlimit hcid (st.tick + 2)
        refine ih h' ?_
        rw [← List.drop_drop, hrest]
        rfl

/-- **A dry run counts up to the limit.** -/
theorem sweepLoop_dry (hdry : config.dryRun = true) (hmax : 0 < config.maxBlocksPerRun)
    (hquiet : Undisturbed config moments) (h : st.result.blocksCollected ≤ config.maxBlocksPerRun) :
    (flush config (sweepLoop config moments marked cids st)).result.blocksCollected =
      min config.maxBlocksPerRun
        (st.result.blocksCollected + (cids.filter (· ∉ marked)).length) := by
  have hflush : ∀ st : SweepState S, flush config st = st := fun st => if_neg (by simp [hdry])
  rw [hflush]
  induction cids generalizing st with
  | nil => exact (min_eq_right h).symm
  | cons cid cids ih =>
    unfold sweepLoop
    dsimp only
    rw [if_neg (by simp [hquiet.goes_on])]
    by_cases hstop : config.maxBlocksPerRun ≤ st.result.blocksCollected
    · -- a dry run counts one by one, so it is at the limit and not beyond it
      rw [if_pos ⟨hmax, hstop⟩, min_eq_left (hstop.trans (Nat.le_add_right _ _))]
      exact Nat.le_antisymm h hstop
    · rw [if_neg (fun hreached => hstop hreached.2)]
      by_cases hmarked : cid ∈ marked
      · rw [if_pos hmarked, List.filter_cons_of_neg (by simpa using hmarked)]
        exact ih h
      · rw [if_neg hmarked, List.filter_cons_of_pos (by simpa using hmarked)]
        -- the end of a batch has nothing to delete
        have hcount : (endBatch config (collectBlock config cid
            { st with tick := st.tick + 2 })).result.blocksCollected =
              st.result.blocksCollected + 1 := by
          rw [collectBlock, if_pos hdry, endBatch]
          dsimp only
          split
          · rw [hflush]
            exact congrArg (· + 1) (addSize_blocksCollected _ _ _)
          · exact congrArg (· + 1) (addSize_blocksCollected _ _ _)
        rw [ih (by omega), hcount, List.length_cons]
        congr 1
        omega

omit [CidText] in
/-- **What the stop of a sweep has to do with the limit**: as many blocks have been deleted as the
limit allows if that is so at the end of any batch. -/
theorem StopsAt.limit_iff {stop : ℕ} (h : StopsAt config s unmarked stop) :
    deletable s unmarked stop = min config.maxBlocksPerRun unmarked.length ↔
      ∃ l, BatchEnd config unmarked.length l ∧
        deletable s unmarked l = min config.maxBlocksPerRun unmarked.length := by
  refine ⟨fun heq => ⟨stop, h.batchEnd, heq⟩, ?_⟩
  rintro ⟨l, hl, heq⟩
  have hbounds : ∀ {l}, BatchEnd config unmarked.length l → l ≤ unmarked.length :=
    fun h => h.elim Nat.le_of_eq fun h => h.2.2
  have hle := deletable_le s unmarked l
  by_cases hlt : l < stop
  · -- fewer than the limit were deleted at `l`, so all were, and there the sweep ends
    have hend := hbounds h.batchEnd
    have hinc := hl.resolve_left (hlt.trans_le hend).ne
    have hsmall := h.below l hlt hinc.1 hinc.2.1
    omega
  · -- as many were deleted at the stop as at `l`, and no more than the limit
    have hmono := deletable_mono s unmarked (Nat.le_of_not_lt hlt)
    rcases h.reached with rfl | hstop
    · rw [Nat.le_antisymm (hbounds hl) (Nat.le_of_not_lt hlt)] at heq
      exact heq
    · omega

omit [CidText] in
/-- On a store that works, the number of deleted blocks is where the sweep stops. -/
theorem exists_batchEnd_iff [ReliableBlockStore S] :
    (∃ l, BatchEnd config unmarked.length l ∧
        deletable s unmarked l = min config.maxBlocksPerRun unmarked.length) ↔
      unmarked.length ≤ config.maxBlocksPerRun ∨
        config.incremental = true ∧ batchLength config ∣ config.maxBlocksPerRun := by
  constructor
  · rintro ⟨l, hend, heq⟩
    have hle : l ≤ unmarked.length := hend.elim Nat.le_of_eq fun h => h.2.2
    rw [deletable_eq s hle] at heq
    by_cases hall : unmarked.length ≤ config.maxBlocksPerRun
    · exact Or.inl hall
    · rw [min_eq_left (Nat.le_of_not_le hall)] at heq
      obtain ⟨hinc, hdvd, -⟩ := hend.resolve_left (by omega)
      exact Or.inr ⟨hinc, heq ▸ hdvd⟩
  · rintro (hall | ⟨hinc, hdvd⟩)
    · refine ⟨unmarked.length, Or.inl rfl, ?_⟩
      rw [deletable_eq s (Nat.le_refl _), min_eq_right hall]
    · rcases Nat.le_total unmarked.length config.maxBlocksPerRun with hall | hle
      · refine ⟨unmarked.length, Or.inl rfl, ?_⟩
        rw [deletable_eq s (Nat.le_refl _), min_eq_right hall]
      · refine ⟨config.maxBlocksPerRun, Or.inr ⟨hinc, hdvd, hle⟩, ?_⟩
        rw [deletable_eq s hle, min_eq_left hle]

end Sweep

/-! ### The blocks that are gone -/

section Gone

variable {S : Type} [BlockStore S] [StoreView S] [LawfulBlockStore S]

/-- How many of these blocks the store does not have. -/
def gone (s : S) (cids : List Cid) : ℕ := cids.countP fun c => (view s c).isNone

variable {cids : List Cid}

theorem gone_delete {s s' : S} {cid : Cid} (hnodup : cids.Nodup) (hmem : cid ∈ cids)
    (hstored : (view s cid).isSome) (hdelete : BlockStore.delete s cid = .ok s') :
    gone s' cids = gone s cids + 1 := by
  obtain ⟨hnone, hother⟩ := LawfulBlockStore.delete_ok hdelete
  have hperm := List.perm_cons_erase hmem
  have hrest : (cids.erase cid).countP (fun c => (view s' c).isNone) =
      (cids.erase cid).countP fun c => (view s c).isNone := by
    refine List.countP_congr fun c hc => ?_
    rw [hother c ((hnodup.mem_erase_iff).mp hc).1]
  have hsome : (view s cid).isNone = false := by
    rw [← Option.not_isSome, hstored]
    rfl
  rw [gone, gone, hperm.countP_eq, hperm.countP_eq, List.countP_cons_of_pos (by rw [hnone]; rfl),
    List.countP_cons_of_neg (by rw [hsome]; exact Bool.false_ne_true), hrest]

/-- **The counter counts the blocks that are gone.** -/
theorem gone_deleteAll (hnodup : cids.Nodup) {deleted : List Cid} (hdeleted : deleted.Nodup)
    (hsub : ∀ c ∈ deleted, c ∈ cids) {st : S × ℕ} (hstored : ∀ c ∈ deleted, (view st.1 c).isSome) :
    gone (deleteAll st deleted).1 cids + st.2 =
      gone st.1 cids + (deleteAll st deleted).2 := by
  induction deleted generalizing st with
  | nil => rfl
  | cons cid deleted ih =>
    obtain ⟨hnot, hdeleted⟩ := List.nodup_cons.mp hdeleted
    have hrest := fun c hc => hsub c (List.mem_cons_of_mem _ hc)
    change gone (deleteAll (deleteCounted st cid) deleted).1 cids + st.2 =
      gone st.1 cids + (deleteAll (deleteCounted st cid) deleted).2
    cases hdelete : BlockStore.delete st.1 cid with
    | error e =>
      have hsame : deleteCounted st cid = st := by rw [deleteCounted, hdelete]
      rw [hsame]
      exact ih hdeleted hrest fun c hc => hstored c (List.mem_cons_of_mem _ hc)
    | ok store =>
      have hnext : deleteCounted st cid = (store, st.2 + 1) := by rw [deleteCounted, hdelete]
      have hgone := gone_delete hnodup (hsub cid List.mem_cons_self)
        (hstored cid List.mem_cons_self) hdelete
      have hih := @ih hdeleted hrest (store, st.2 + 1) fun c hc => by
        rw [(LawfulBlockStore.delete_ok hdelete).2 c (fun heq => hnot (heq ▸ hc))]
        exact hstored c (List.mem_cons_of_mem _ hc)
      rw [hnext]
      dsimp only at hih ⊢
      omega

end Gone

/-! ### Collections with a limit -/

section Collect

variable {S : Type} [BlockStore S] [CidText] {linkResolver : Cid → Except Error (List Cid)}
  {config : GcConfig} {moments : Moments} {m : PinManager} {s s' : S} {cids : List Cid}

/-- **A collection returns a result** when only finitely many blocks can be reached and the stored
blocks can be listed. -/
theorem exists_collect_of_finite (config : GcConfig) (moments : Moments)
    (hlist : BlockStore.listCids s = .ok cids)
    (hfin : {c | ∃ root, IsRoot m root ∧
      Relation.ReflTransGen (fun x y => y ∈ linksOf linkResolver x) root c}.Finite) :
    ∃ fuel s' result, collect linkResolver config moments fuel s m = some (s', .ok result) := by
  obtain ⟨fuel, st, hmark⟩ := exists_markPhase moments hfin
  unfold collect sweepPhase
  refine ⟨fuel, ?_⟩
  rw [hmark, hlist]
  cases hstop : shouldStop config moments st.tick with
  | true => exact ⟨_, _, by rw [Option.map_some, hstop, if_pos rfl]⟩
  | false => exact ⟨_, _, by rw [Option.map_some, hstop, if_neg Bool.false_ne_true]; rfl⟩

open Classical in
/-- The stored blocks that a collection finds unmarked, in the order of the list. -/
noncomputable def unmarkedOf (linkResolver : Cid → Except Error (List Cid)) (m : PinManager)
    (cids : List Cid) : List Cid :=
  cids.filter fun c => ¬ Covered linkResolver m c

variable {fuel : ℕ} {result : GcResult}

/-- A collection that nobody disturbs is a sweep over the unmarked blocks. -/
theorem collect_undisturbed (hquiet : Undisturbed config moments)
    (hlist : BlockStore.listCids s = .ok cids)
    (h : collect linkResolver config moments fuel s m = some (s', .ok result)) :
    ∃ (marked : Finset Cid) (start : SweepState S),
      unmarkedOf linkResolver m cids = cids.filter (· ∉ marked) ∧
      start.store = s ∧ start.result.blocksCollected = 0 ∧ start.toDelete = [] ∧
      start.batchCount = 0 ∧
      s' = (flush config (sweepLoop config moments marked cids start)).store ∧
      result = (flush config (sweepLoop config moments marked cids start)).result := by
  obtain ⟨st, hmark, ⟨hstop, -⟩ | ⟨hstop, ⟨-, e, he⟩ | ⟨r, hr, hsweep⟩⟩⟩ := collect_cases h
  · have hgoes := hquiet.goes_on st.tick st.tick
    rw [hstop, Bool.or_true] at hgoes
    cases hgoes
  · cases he
  · obtain rfl := Except.ok.inj hr
    obtain ⟨hcovered, -⟩ := marked_of_not_shouldStop hmark hstop
    obtain ⟨allCids, hlist', hsweep⟩ := Except.bind_eq_ok_iff.mp hsweep
    obtain rfl := Except.ok.inj (hlist.symm.trans hlist')
    have hst := Prod.mk.inj (Except.ok.inj hsweep)
    refine ⟨st.marked, _, ?_, rfl, rfl, rfl, rfl, hst.1.symm, hst.2.symm⟩
    refine List.filter_congr fun c _ => ?_
    rw [decide_eq_decide, hcovered c]

/-- **Where a collection that deletes stops.** -/
theorem collect_stops (config : GcConfig) (hdry : config.dryRun = false)
    (hmax : 0 < config.maxBlocksPerRun) (hquiet : Undisturbed config moments)
    (hlist : BlockStore.listCids s = .ok cids)
    (h : collect linkResolver config moments fuel s m = some (s', .ok result)) :
    ∃ stop, StopsAt config s (unmarkedOf linkResolver m cids) stop ∧
      (s', result.blocksCollected) =
        deleteAll (s, 0) ((unmarkedOf linkResolver m cids).take stop) := by
  obtain ⟨marked, start, hunmarked, hstore, hzero, hnil, hbatch, rfl, rfl⟩ :=
    collect_undisturbed hquiet hlist h
  suffices hstart : Swept config s (unmarkedOf linkResolver m cids) 0 0 start from
    sweepLoop_stops hdry hmax hquiet hstart hunmarked
  refine ⟨Nat.le_refl 0, Nat.zero_le _, ?_, ?_, hbatch, fun l hl => absurd hl (Nat.not_lt_zero l),
    Or.inr rfl, fun _ => ⟨Nat.dvd_zero _, ?_⟩, fun _ => rfl⟩
  · rw [hstore, hzero]
    rfl
  · rw [hnil]
    rfl
  · exact Nat.lt_of_lt_of_le Nat.one_pos (le_max_right _ _)

theorem collect_dry (config : GcConfig) (hdry : config.dryRun = true)
    (hmax : 0 < config.maxBlocksPerRun) (hquiet : Undisturbed config moments)
    (hlist : BlockStore.listCids s = .ok cids)
    (h : collect linkResolver config moments fuel s m = some (s', .ok result)) :
    result.blocksCollected =
      min config.maxBlocksPerRun (unmarkedOf linkResolver m cids).length := by
  obtain ⟨marked, start, hunmarked, -, hzero, -, -, -, rfl⟩ := collect_undisturbed hquiet hlist h
  rw [sweepLoop_dry hdry hmax hquiet (hzero ▸ Nat.zero_le _), hzero, Nat.zero_add, hunmarked]

end Collect

section Limit

variable {S : Type} [BlockStore S] [StoreView S] [LawfulBlockStore S] [CidText]

/-- **When a collection keeps to its limit.** Let two collections with the same configuration run,
neither cancelled nor limited in time, one that deletes and a dry run. The first one deletes as many
blocks as the limit allows, and as many as the dry run reports, if and only if some batch ends when
that many have been deleted. On a store that works this means that no more are unmarked than the
limit allows, or that the sweep is incremental with batches whose length divides the limit. -/
theorem collect_limit_iff (linkResolver : Cid → Except Error (List Cid)) (config : GcConfig)
    (m : PinManager) (s : S) (cids : List Cid) (hmax : 0 < config.maxBlocksPerRun)
    (htime : config.timeLimit = none) (hlist : BlockStore.listCids s = .ok cids) :
    ({c | ∃ root, IsRoot m root ∧
        Relation.ReflTransGen (fun x y => y ∈ linksOf linkResolver x) root c}.Finite →
      ∀ dryRun moments, ∃ fuel s' result,
        collect linkResolver { config with dryRun := dryRun } moments fuel s m =
          some (s', .ok result)) ∧
    ∀ moments moments' fuel fuel' s' s'' real dry, (∀ tick, moments.cancelled tick = false) →
      (∀ tick, moments'.cancelled tick = false) →
      collect linkResolver { config with dryRun := false } moments fuel s m =
        some (s', .ok real) →
      collect linkResolver { config with dryRun := true } moments' fuel' s m =
        some (s'', .ok dry) →
      (gone s' cids = min config.maxBlocksPerRun (unmarkedOf linkResolver m cids).length ∧
          real.blocksCollected = gone s' cids ∧ dry.blocksCollected = real.blocksCollected ↔
        ∃ l, BatchEnd config (unmarkedOf linkResolver m cids).length l ∧
          deletable s (unmarkedOf linkResolver m cids) l =
            min config.maxBlocksPerRun (unmarkedOf linkResolver m cids).length) ∧
      (ReliableBlockStore S →
        ((∃ l, BatchEnd config (unmarkedOf linkResolver m cids).length l ∧
          deletable s (unmarkedOf linkResolver m cids) l =
            min config.maxBlocksPerRun (unmarkedOf linkResolver m cids).length) ↔
          (unmarkedOf linkResolver m cids).length ≤ config.maxBlocksPerRun ∨
            config.incremental = true ∧ batchLength config ∣ config.maxBlocksPerRun)) := by
  refine ⟨fun hfin dryRun moments => exists_collect_of_finite _ moments hlist hfin, ?_⟩
  intro moments moments' fuel fuel' s' s'' real dry hquiet hquiet' hreal hdry
  refine ⟨?_, fun _ => exists_batchEnd_iff⟩
  obtain ⟨hnodup, hstored⟩ := LawfulBlockStore.listCids_ok hlist
  have hcount := collect_dry { config with dryRun := true } rfl hmax ⟨htime, hquiet'⟩ hlist hdry
  obtain ⟨stop, hstops, heq⟩ :=
    collect_stops { config with dryRun := false } rfl hmax ⟨htime, hquiet⟩ hlist hreal
  have hcollected : real.blocksCollected = deletable s (unmarkedOf linkResolver m cids) stop :=
    congrArg Prod.snd heq
  -- every block is in store at first, so those that are gone have been deleted
  have hsub : ∀ c ∈ (unmarkedOf linkResolver m cids).take stop, c ∈ cids :=
    fun c hc => List.mem_of_mem_filter (List.mem_of_mem_take hc)
  have hgone : gone s' cids = real.blocksCollected := by
    have hnodup' : ((unmarkedOf linkResolver m cids).take stop).Nodup :=
      (List.take_sublist _ _).nodup (hnodup.filter _)
    have hnone : gone s cids = 0 := by
      refine List.countP_eq_zero.mpr fun c hc => ?_
      rw [← Option.not_isSome, (hstored c).mp hc]
      exact Bool.false_ne_true
    have hsum := @gone_deleteAll _ _ _ _ _ hnodup _ hnodup' hsub (s, 0)
      fun c hc => (hstored c).mp (hsub c hc)
    rw [← heq, hnone] at hsum
    simpa using hsum
  rw [hgone, hcount, eq_self_iff_true, true_and, eq_comm (b := real.blocksCollected), and_self,
    hcollected]
  exact hstops.limit_iff

end Limit

section Sample

open Storage.PinManager (sampleCid)
open scoped CidReference

/-- Two blocks that nothing links to. -/
def twoBlocks : MemoryBlockStore :=
  (MemoryBlockStore.new.insert ⟨sampleCid 1, [1]⟩).insert ⟨sampleCid 2, [2]⟩

/-- Five of them. -/
def fiveBlocks : MemoryBlockStore :=
  ((twoBlocks.insert ⟨sampleCid 3, [3]⟩).insert ⟨sampleCid 4, [4]⟩).insert ⟨sampleCid 5, [5]⟩

/-- An incremental collection that is limited to four blocks, in batches of two, deletes four of the
five. -/
theorem collect_limit_fiveBlocks : ∃ fuel s' real,
    collect (fun _ => .ok []) { maxBlocksPerRun := 4, incremental := true, batchSize := 2 }
        Moments.quiet fuel fiveBlocks .new = some (s', .ok real) ∧
      gone s' [sampleCid 5, sampleCid 4, sampleCid 3, sampleCid 2, sampleCid 1] = 4 := by
  have hlist : BlockStore.listCids fiveBlocks =
      .ok [sampleCid 5, sampleCid 4, sampleCid 3, sampleCid 2, sampleCid 1] := by decide +kernel
  have hroot : ∀ root, ¬ IsRoot .new root := by
    rintro root ⟨info, hlookup, -⟩
    cases hlookup
  have hfin : {c | ∃ root, IsRoot .new root ∧
      Relation.ReflTransGen (fun x y => y ∈ linksOf (fun _ => .ok []) x) root c}.Finite :=
    Set.finite_empty.subset fun c ⟨root, h, _⟩ => absurd h (hroot root)
  obtain ⟨hreturns, hlimit⟩ := collect_limit_iff (fun _ => .ok [])
    { maxBlocksPerRun := 4, incremental := true, batchSize := 2 } .new fiveBlocks _ (by decide) rfl
    hlist
  obtain ⟨fuel, s', real, hreal⟩ := hreturns hfin false Moments.quiet
  obtain ⟨fuel', s'', dry, hdry⟩ := hreturns hfin true Moments.quiet
  obtain ⟨hiff, hreliable⟩ := hlimit _ _ _ _ _ _ _ _ (fun _ => rfl) (fun _ => rfl) hreal hdry
  refine ⟨fuel, s', real, hreal,
    (hiff.mpr ((hreliable inferInstance).mpr (Or.inr ⟨rfl, by decide⟩))).1.trans ?_⟩
  -- nothing is pinned, so all are unmarked
  have hcovered : ∀ c, ¬ Covered (fun _ => .ok []) .new c := by
    rintro c (h | ⟨root, h, -⟩)
    · cases h
    · exact hroot root h
  rw [unmarkedOf, List.filter_eq_self.mpr fun c _ => by simp [hcovered c]]
  rfl

/-- How many blocks a collection of the two reports, with a limit of one. -/
def collectedOfTwo (dryRun : Bool) : Option (Option ℕ) :=
  (collect (fun _ => .ok []) { maxBlocksPerRun := 1, dryRun := dryRun } Moments.quiet 1 twoBlocks
    .new).map fun r => r.2.toOption.map GcResult.blocksCollected

/-- **A collection that is limited to one block deletes two.** The dry run reports one. -/
theorem collect_exceeds_limit :
    ¬ ∀ (linkResolver : Cid → Except Error (List Cid)) (config : GcConfig) (m : PinManager)
      (s : MemoryBlockStore) (cids : List Cid), 0 < config.maxBlocksPerRun →
      config.timeLimit = none → BlockStore.listCids s = .ok cids →
      ∀ moments moments' fuel fuel' s' s'' real dry, (∀ tick, moments.cancelled tick = false) →
        (∀ tick, moments'.cancelled tick = false) →
        collect linkResolver { config with dryRun := false } moments fuel s m =
          some (s', .ok real) →
        collect linkResolver { config with dryRun := true } moments' fuel' s m =
          some (s'', .ok dry) →
        gone s' cids = min config.maxBlocksPerRun (unmarkedOf linkResolver m cids).length ∧
          real.blocksCollected = gone s' cids ∧ dry.blocksCollected = real.blocksCollected := by
  intro hall
  have hruns : ∀ dryRun n, collectedOfTwo dryRun = some (some n) → ∃ s' result,
      collect (fun _ => .ok []) { maxBlocksPerRun := 1, dryRun := dryRun } Moments.quiet 1 twoBlocks
        .new = some (s', .ok result) ∧ result.blocksCollected = n := by
    intro dryRun n h
    obtain ⟨⟨s', outcome⟩, hrun, hn⟩ := Option.map_eq_some_iff.mp h
    cases outcome with
    | error e => cases hn
    | ok result => exact ⟨s', result, hrun, Option.some.inj hn⟩
  -- two blocks are deleted, and the dry run reports one
  obtain ⟨s', real, hreal, htwo⟩ := hruns false 2 (by decide +kernel)
  obtain ⟨s'', dry, hdry, hone⟩ := hruns true 1 (by decide +kernel)
  have hlist : BlockStore.listCids twoBlocks = .ok [sampleCid 2, sampleCid 1] := by decide +kernel
  have hsame := (hall (fun _ => .ok []) { maxBlocksPerRun := 1 } .new twoBlocks _ Nat.one_pos rfl
    hlist Moments.quiet Moments.quiet 1 1 s' s'' real dry (fun _ => rfl) (fun _ => rfl) hreal
    hdry).2.2
  rw [hone, htwo] at hsame
  cases hsame

end Sample

end Ipfrs.Storage.GarbageCollector
