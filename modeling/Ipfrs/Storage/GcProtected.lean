import Ipfrs.Storage.GcSafety

/-!
# When a collection deletes no live block

A block is *live* when it can be reached from a direct or recursive pin (`Live`). A collection keeps
what is covered, and one that nobody interrupts deletes everything else, so it is safe exactly when
the live blocks that are stored are covered. There are two ways in which a live block is not:

* it is below an indirect pin whose own links are not pinned (`collect_safe`). Such a pin is left
  behind when a block that was pinned indirectly is pinned as well, and then the recursive pin above
  it is undone;
* it is below a block whose links could not be resolved (`collect_safe_unresolved`). The error is
  noted in the result, and the sweep goes ahead.
-/

namespace Ipfrs.Storage.GarbageCollector

open Storage.PinManager (sampleCid)

/-- Reached from a direct or recursive pin. -/
def Live (links : Cid → List Cid) (m : PinManager) (c : Cid) : Prop :=
  ∃ root, IsRoot m root ∧ PinManager.Reaches links root c

variable {m : PinManager} {c : Cid} {U : Cid → Prop}

/-- What holds of the roots and is kept along the links holds of every live block. -/
theorem Live.induct {links : Cid → List Cid} (hroot : ∀ root, IsRoot m root → U root)
    (hlink : ∀ x, U x → ∀ y ∈ links x, U y) (h : Live links m c) : U c := by
  obtain ⟨root, hisRoot, hpath⟩ := h
  induction hpath with
  | refl => exact hroot root hisRoot
  | tail _ hedge ih => exact hlink _ ih _ hedge

/-- What holds of the pins and is kept by expansion holds of what is covered. -/
theorem Covered.induct {linkResolver : Cid → Except Error (List Cid)}
    (hpin : ∀ pin, m.isPinned pin = true → U pin)
    (hexpand : ∀ x y, U x → Expands linkResolver m x y → U y) (h : Covered linkResolver m c) :
    U c := by
  rcases h with hpinned | ⟨root, hroot, hpath⟩
  · exact hpin c hpinned
  induction hpath with
  | refl => exact hpin root hroot.isPinned
  | tail _ hedge ih => exact hexpand _ _ ih hedge

section Safe

variable {S : Type} [BlockStore S] [StoreView S] [CidText]

/-- No collection deletes a stored block of `P`, with a configuration that satisfies `C` and at
whatever moments it is interrupted. -/
def Safe (linkResolver : Cid → Except Error (List Cid)) (m : PinManager) (s : S)
    (C : GcConfig → Prop) (P : Cid → Prop) : Prop :=
  ∀ config moments fuel s' outcome, C config →
    collect linkResolver config moments fuel s m = some (s', outcome) →
    ∀ c, (view s c).isSome → P c → view s' c = view s c

variable [LawfulBlockStore S] {linkResolver : Cid → Except Error (List Cid)} {m : PinManager}
  {s : S} {C : GcConfig → Prop} {P : Cid → Prop}

theorem safe_of_covered
    (hcovered : ∀ c, (view s c).isSome → P c → Covered linkResolver m c) :
    Safe linkResolver m s C P := by
  intro config moments fuel s' outcome _ h c hstored hc
  exact collect_keeps (hcovered c hstored hc) h

/-- A stored block that is not covered goes, in a collection that nobody interrupts. -/
theorem covered_of_safe [ReliableBlockStore S] (hC : C {})
    (hfin : {c | ∃ root, IsRoot m root ∧
      Relation.ReflTransGen (fun x y => y ∈ linksOf linkResolver x) root c}.Finite)
    (hsafe : Safe linkResolver m s C P) :
    ∀ c, (view s c).isSome → P c → Covered linkResolver m c := by
  intro c hstored hc
  obtain ⟨fuel, s', result, hcollect, hint⟩ := exists_collect_ok s hfin
  by_contra hnot
  have hgone := collect_deletes rfl rfl hcollect hint hnot
  rw [← hsafe _ _ _ _ _ hC hcollect c hstored hc, hgone] at hstored
  exact absurd hstored (by simp)

omit [StoreView S] [LawfulBlockStore S] in
theorem foldl_sweepOne_dry (cids : List Cid) (st : S × GcResult) :
    (cids.foldl (sweepOne true) st).1 = st.1 := by
  induction cids generalizing st with
  | nil => rfl
  | cons cid cids ih =>
    rw [List.foldl_cons, ih]
    rfl

omit [StoreView S] [LawfulBlockStore S] in
/-- **Two collections that are not interrupted end alike**, whatever their batches. -/
theorem collect_unique {links : Cid → List Cid} {config config' : GcConfig}
    {moments moments' : Moments} {fuel fuel' : ℕ} {s' s'' : S} {result result' : GcResult}
    (hmax : config.maxBlocksPerRun = 0) (hmax' : config'.maxBlocksPerRun = 0)
    (hdry : config'.dryRun = config.dryRun)
    (h : collect (fun c => .ok (links c)) config moments fuel s m = some (s', .ok result))
    (h' : collect (fun c => .ok (links c)) config' moments' fuel' s m = some (s'', .ok result'))
    (hint : result.interrupted = false) (hint' : result'.interrupted = false) :
    s'' = s' ∧ result' = result := by
  obtain ⟨marked, errors, cids, hmarked, herrors, hlist, heq⟩ := collect_uninterrupted hmax h hint
  obtain ⟨marked', errors', cids', hmarked', herrors', hlist', heq'⟩ :=
    collect_uninterrupted hmax' h' hint'
  -- the marked set is what is covered, and no link resolution fails
  obtain rfl : marked' = marked := by
    ext c
    rw [hmarked', hmarked]
  rw [hlist] at hlist'
  obtain rfl := Except.ok.inj hlist'
  rw [hdry, herrors' fun c => ⟨links c, rfl⟩] at heq'
  rw [herrors fun c => ⟨links c, rfl⟩] at heq
  exact Prod.mk.inj (heq'.trans heq.symm)

end Safe

/-! ### Indirect pins that are not gone on from -/

section Resolved

variable {S : Type} [BlockStore S] [StoreView S] [CidText] [LawfulBlockStore S]

/-- Every live block that is stored is covered. -/
def LiveCovered (linkResolver : Cid → Except Error (List Cid)) (links : Cid → List Cid)
    (m : PinManager) (s : S) : Prop :=
  ∀ c, (view s c).isSome → Live links m c → Covered linkResolver m c

/-- **When storage GC is safe**, with a resolver that never fails. It deletes no pinned block, and
no block that is live, as soon as every stored block that is live is pinned or reached without
passing through an indirect pin; on a store that works and over a finite graph not otherwise. If it
is not interrupted and has no limit on its blocks, it deletes the blocks that are not covered and no
others, and its batches change neither the store it leaves nor its result. -/
theorem collect_safe (links : Cid → List Cid) (m : PinManager) (s : S) :
    (LiveCovered (fun c => .ok (links c)) links m s →
      Safe (fun c => .ok (links c)) m s (fun _ => True)
        fun c => m.isPinned c = true ∨ Live links m c) ∧
    (ReliableBlockStore S → {c | Live links m c}.Finite →
      (Safe (fun c => .ok (links c)) m s (fun _ => True)
          (fun c => m.isPinned c = true ∨ Live links m c) ↔
        LiveCovered (fun c => .ok (links c)) links m s)) ∧
    ∀ config moments fuel s' result, config.maxBlocksPerRun = 0 →
      collect (fun c => .ok (links c)) config moments fuel s m = some (s', .ok result) →
      result.interrupted = false →
      (config.dryRun = true → s' = s) ∧
      (config.dryRun = false → ReliableBlockStore S → ∀ c,
        (Covered (fun c => .ok (links c)) m c → view s' c = view s c) ∧
        (¬ Covered (fun c => .ok (links c)) m c → view s' c = none)) ∧
      ∀ config' moments' fuel' s'' result', config'.maxBlocksPerRun = 0 →
        config'.dryRun = config.dryRun →
        collect (fun c => .ok (links c)) config' moments' fuel' s m = some (s'', .ok result') →
        result'.interrupted = false → s'' = s' ∧ result' = result := by
  have hsafe : LiveCovered (fun c => .ok (links c)) links m s →
      Safe (fun c => .ok (links c)) m s (fun _ => True)
        fun c => m.isPinned c = true ∨ Live links m c := by
    intro hcovered
    refine safe_of_covered fun c hstored hc => ?_
    rcases hc with hpinned | hlive
    · exact Or.inl hpinned
    · exact hcovered c hstored hlive
  refine ⟨hsafe, fun hreliable hfin => ⟨fun hsafe c hstored hlive => ?_, hsafe⟩,
    fun config moments fuel s' result hmax h hint => ⟨fun hdry => ?_,
      fun hdry hreliable c => ⟨fun hc => collect_keeps hc h, collect_deletes hmax hdry h hint⟩, ?_⟩⟩
  · -- where the store works, what is not covered is deleted
    have hedges : {c | ∃ root, IsRoot m root ∧ Relation.ReflTransGen
        (fun x y => y ∈ linksOf (fun c => .ok (links c)) x) root c}.Finite := hfin
    exact covered_of_safe trivial hedges hsafe c hstored (Or.inr hlive)
  · obtain ⟨marked, errors, cids, -, -, -, heq⟩ := collect_uninterrupted hmax h hint
    rw [hdry] at heq
    -- a dry run deletes nothing
    have hs' := congrArg Prod.fst heq
    rw [foldl_sweepOne_dry] at hs'
    exact hs'
  · intro config' moments' fuel' s'' result' hmax' hdry h' hint'
    exact collect_unique hmax hmax' hdry h h' hint hint'

end Resolved

section Stranded

open scoped CidReference

/-- The pins and their types. -/
def pinTypes (m : PinManager) : List (Cid × PinType) := m.listPins.map fun p => (p.1, p.2.pinType)

variable {m : PinManager} {c : Cid} {t : PinType}

theorem mem_pinTypes_iff :
    (c, t) ∈ pinTypes m ↔ ∃ info, m.pins.lookup c = some info ∧ info.pinType = t := by
  unfold pinTypes
  rw [List.mem_map]
  constructor
  · rintro ⟨⟨c', info⟩, hmem, heq⟩
    obtain ⟨rfl, rfl⟩ := Prod.mk.inj heq
    exact ⟨info, mem_listPins_iff.mp hmem, rfl⟩
  · rintro ⟨info, hlookup, rfl⟩
    exact ⟨(c, info), mem_listPins_iff.mpr hlookup, rfl⟩

theorem isPinned_iff_pinTypes : m.isPinned c = true ↔ ∃ t, (c, t) ∈ pinTypes m := by
  unfold PinManager.isPinned
  rw [Option.isSome_iff_exists]
  constructor
  · rintro ⟨info, hlookup⟩
    exact ⟨info.pinType, mem_pinTypes_iff.mpr ⟨info, hlookup, rfl⟩⟩
  · rintro ⟨t, hmem⟩
    obtain ⟨info, hlookup, -⟩ := mem_pinTypes_iff.mp hmem
    exact ⟨info, hlookup⟩

theorem isRoot_of_mem_pinTypes (h : (c, t) ∈ pinTypes m) (ht : t = .direct ∨ t = .recursive) :
    IsRoot m c := by
  obtain ⟨info, hlookup, rfl⟩ := mem_pinTypes_iff.mp h
  exact ⟨info, hlookup, ht⟩

/-- Blocks 0 and 1 link to block 2, and block 2 to block 3. -/
def forkLinks (c : Cid) : List Cid :=
  if c = sampleCid 0 ∨ c = sampleCid 1 then [sampleCid 2]
  else if c = sampleCid 2 then [sampleCid 3] else []

theorem finite_live_forkLinks (m : PinManager) : {c | Live forkLinks m c}.Finite := by
  refine (pinnedSet m ∪ {sampleCid 2, sampleCid 3}).finite_toSet.subset fun c hc => ?_
  refine Live.induct (U := fun c => c ∈ pinnedSet m ∪ {sampleCid 2, sampleCid 3}) ?_ ?_ hc
  · intro root hroot
    exact Finset.mem_union_left _ (mem_pinnedSet_iff.mpr hroot.isPinned)
  · intro x _ y hy
    refine Finset.mem_union_right _ ?_
    rw [Finset.mem_insert, Finset.mem_singleton]
    unfold forkLinks at hy
    split at hy
    · exact Or.inl (List.mem_singleton.mp hy)
    · split at hy
      · exact Or.inr (List.mem_singleton.mp hy)
      · exact absurd hy List.not_mem_nil

/-- Block 3 is in store. -/
def forkStore : MemoryBlockStore := MemoryBlockStore.new.insert ⟨sampleCid 3, [3]⟩

theorem eq_of_isSome_view_forkStore (h : (view forkStore c).isSome) : c = sampleCid 3 := by
  have hkeys : forkStore.blocks.keys = [sampleCid 3] := by decide +kernel
  rw [MemoryBlockStore.isSome_view_iff, hkeys] at h
  exact List.mem_singleton.mp h

/-- Block 0 is pinned recursively. -/
def pinnedFork : PinManager :=
  ((PinManager.new.pinRecursive (fun c => .ok (forkLinks c)) 4 (sampleCid 0) fun _ => 0).map
    Prod.fst).getD .new

theorem collect_safe_pinnedFork :
    Safe (fun c => .ok (forkLinks c)) pinnedFork forkStore (fun _ => True)
      fun c => pinnedFork.isPinned c = true ∨ Live forkLinks pinnedFork c := by
  refine (collect_safe forkLinks pinnedFork forkStore).1 fun c hstored _ => Or.inl ?_
  rw [eq_of_isSome_view_forkStore hstored]
  decide +kernel

/-- Block 2 is pinned as well, then the recursive pin is undone, and block 1 is pinned. -/
def strandedPins : PinManager :=
  let m := (pinnedFork.pin (sampleCid 2) 0).toOption.getD .new
  let m := ((m.unpinRecursive (fun c => .ok (forkLinks c)) 4 (sampleCid 0)).map
    Prod.fst).getD .new
  (m.pin (sampleCid 1) 0).toOption.getD .new

theorem pinTypes_strandedPins :
    pinTypes strandedPins = [(sampleCid 1, .direct), (sampleCid 2, .indirect)] := by
  decide +kernel

/-- Block 3 is below the pin of block 1, and is deleted: block 2 is still an indirect pin. -/
theorem collect_deletes_belowIndirect :
    ¬ ∀ (links : Cid → List Cid) (m : PinManager) (s : MemoryBlockStore),
      Safe (fun c => .ok (links c)) m s (fun _ => True)
        fun c => m.isPinned c = true ∨ Live links m c := by
  intro hsafe
  have hroot : IsRoot strandedPins (sampleCid 1) :=
    isRoot_of_mem_pinTypes (by rw [pinTypes_strandedPins]; exact List.mem_cons_self) (Or.inl rfl)
  have hindirect : IsIndirect strandedPins (sampleCid 2) := by
    refine mem_pinTypes_iff.mp ?_
    rw [pinTypes_strandedPins]
    exact List.mem_cons_of_mem _ List.mem_cons_self
  have hlive : Live forkLinks strandedPins (sampleCid 3) := by
    refine ⟨sampleCid 1, hroot, (Relation.ReflTransGen.single (b := sampleCid 2) ?_).tail ?_⟩
    · decide +kernel
    · decide +kernel
  have hpinned : ∀ c, strandedPins.isPinned c = true → c = sampleCid 1 ∨ c = sampleCid 2 := by
    intro c hc
    obtain ⟨t, hmem⟩ := isPinned_iff_pinTypes.mp hc
    rw [pinTypes_strandedPins, List.mem_cons, List.mem_singleton] at hmem
    exact hmem.imp (fun heq => (Prod.mk.inj heq).1) fun heq => (Prod.mk.inj heq).1
  have hfin : {c | ∃ root, IsRoot strandedPins root ∧ Relation.ReflTransGen
      (fun x y => y ∈ linksOf (fun c => .ok (forkLinks c)) x) root c}.Finite :=
    finite_live_forkLinks strandedPins
  have hcovered := covered_of_safe trivial hfin (hsafe forkLinks strandedPins forkStore)
    (sampleCid 3) (by decide +kernel) (Or.inr hlive)
  -- what is covered is blocks 1 and 2
  have hmem : sampleCid 3 = sampleCid 1 ∨ sampleCid 3 = sampleCid 2 := by
    refine hcovered.induct hpinned fun x y hx hedge => ?_
    rcases hx with rfl | rfl
    · obtain ⟨ls, hok, hmem⟩ := hedge.1
      obtain rfl := Except.ok.inj hok
      exact Or.inr (List.mem_singleton.mp hmem)
    · exact absurd hindirect hedge.2
  revert hmem
  decide +kernel

end Stranded

/-! ### Blocks whose links cannot be resolved -/

section Unresolved

variable {S : Type} [BlockStore S] [StoreView S] [CidText] [LawfulBlockStore S]

/-- **When storage GC keeps live data although links cannot be resolved.** A resolver returns the
links of a block or an error. A collection that deletes keeps every live block as soon as each one
that is stored is pinned, or is reached through blocks that can be resolved and are not indirect
pins; on a store that works and over a finite graph not otherwise. -/
theorem collect_safe_unresolved (links : Cid → List Cid)
    (linkResolver : Cid → Except Error (List Cid))
    (hresolver : ∀ c ls, linkResolver c = .ok ls → ls = links c) (m : PinManager) (s : S) :
    (LiveCovered linkResolver links m s →
      Safe linkResolver m s (fun config => config.dryRun = false) (Live links m)) ∧
    (ReliableBlockStore S → {c | Live links m c}.Finite →
      (Safe linkResolver m s (fun config => config.dryRun = false) (Live links m) ↔
        LiveCovered linkResolver links m s)) := by
  refine ⟨safe_of_covered, fun hreliable hfin => ⟨fun hsafe => ?_, safe_of_covered⟩⟩
  have hedges : {c | ∃ root, IsRoot m root ∧
      Relation.ReflTransGen (fun x y => y ∈ linksOf linkResolver x) root c}.Finite := by
    refine hfin.subset ?_
    rintro c ⟨root, hroot, hpath⟩
    refine ⟨root, hroot, Relation.ReflTransGen.mono (fun x y hedge => ?_) _ _ hpath⟩
    -- what the resolver returns are the links
    obtain ⟨ls, hok, hmem⟩ := mem_linksOf_iff.mp hedge
    rw [hresolver x ls hok] at hmem
    exact hmem
  have hdry : ({} : GcConfig).dryRun = false := rfl
  exact covered_of_safe hdry hedges hsafe

end Unresolved

section Unreadable

open scoped CidReference

/-- Block 1 is pinned, and so block 3 is live. -/
def pinnedOne : PinManager := (PinManager.new.pin (sampleCid 1) 0).toOption.getD .new

theorem pinTypes_pinnedOne : pinTypes pinnedOne = [(sampleCid 1, .direct)] := by decide +kernel

theorem isRoot_pinnedOne : IsRoot pinnedOne (sampleCid 1) :=
  isRoot_of_mem_pinTypes (by rw [pinTypes_pinnedOne]; exact List.mem_cons_self) (Or.inl rfl)

theorem collect_safe_unresolved_leaf :
    Safe (fun c => if c = sampleCid 3 then .error (.io "read error") else .ok (forkLinks c))
      pinnedOne forkStore (fun config => config.dryRun = false) (Live forkLinks pinnedOne) := by
  refine (collect_safe_unresolved forkLinks _ (fun c ls hok => ?_) pinnedOne forkStore).1
    fun c hstored _ => ?_
  · split at hok
    · exact absurd hok (by simp)
    · exact (Except.ok.inj hok).symm
  rw [eq_of_isSome_view_forkStore hstored]
  have hindirect : ∀ c, ¬ IsIndirect pinnedOne c := by
    intro c hc
    have hmem : (c, PinType.indirect) ∈ pinTypes pinnedOne := mem_pinTypes_iff.mpr hc
    rw [pinTypes_pinnedOne, List.mem_singleton] at hmem
    exact absurd (Prod.mk.inj hmem).2 (by simp)
  have hexpands : ∀ n k : UInt8, sampleCid n ≠ sampleCid 3 → sampleCid k ∈ forkLinks (sampleCid n) →
      Expands (fun c => if c = sampleCid 3 then .error (.io "read error") else .ok (forkLinks c))
        pinnedOne (sampleCid n) (sampleCid k) :=
    fun n k hne hmem => ⟨⟨_, if_neg hne, hmem⟩, hindirect _⟩
  have h12 := hexpands 1 2 (by decide +kernel) (by decide +kernel)
  have h23 := hexpands 2 3 (by decide +kernel) (by decide +kernel)
  exact Or.inr ⟨sampleCid 1, isRoot_pinnedOne, (Relation.ReflTransGen.single h12).tail h23⟩

/-- Block 3 is live, and is deleted when the links of block 1 cannot be resolved. -/
theorem collect_deletes_belowUnreadable :
    ¬ ∀ (links : Cid → List Cid) (linkResolver : Cid → Except Error (List Cid)),
      (∀ c ls, linkResolver c = .ok ls → ls = links c) → ∀ (m : PinManager) (s : MemoryBlockStore),
        Safe linkResolver m s (fun config => config.dryRun = false) (Live links m) := by
  intro hsafe
  have hlive : Live forkLinks pinnedOne (sampleCid 3) := by
    refine ⟨sampleCid 1, isRoot_pinnedOne,
      (Relation.ReflTransGen.single (b := sampleCid 2) ?_).tail ?_⟩
    · decide +kernel
    · decide +kernel
  have hfin : {c | ∃ root, IsRoot pinnedOne root ∧ Relation.ReflTransGen
      (fun x y => y ∈ linksOf (fun _ => .error (.io "read error")) x) root c}.Finite := by
    refine (pinnedSet pinnedOne).finite_toSet.subset ?_
    rintro c ⟨root, hroot, hpath⟩
    rcases hpath.cases_head with rfl | ⟨y, hedge, -⟩
    · exact mem_pinnedSet_iff.mpr hroot.isPinned
    · exact absurd hedge List.not_mem_nil
  have hdry : ({} : GcConfig).dryRun = false := rfl
  have hcovered := covered_of_safe hdry hfin
    (hsafe forkLinks (fun _ => .error (.io "read error")) (fun c ls hok => absurd hok (by simp))
      pinnedOne forkStore)
    (sampleCid 3) (by decide +kernel) hlive
  -- nothing is expanded
  have hpinned : pinnedOne.isPinned (sampleCid 3) = true := by
    refine hcovered.induct (U := fun c => pinnedOne.isPinned c = true) (fun _ h => h)
      fun x y _ hedge => ?_
    obtain ⟨ls, hok, -⟩ := hedge.1
    exact absurd hok (by simp)
  revert hpinned
  decide +kernel

end Unreadable

end Ipfrs.Storage.GarbageCollector
