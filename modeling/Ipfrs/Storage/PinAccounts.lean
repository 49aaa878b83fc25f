import Mathlib.Data.Set.Finite.Basic
import Ipfrs.Storage.PinManager

/-!
# The accounts of the pin manager

What the reference counts of a `PinManager` stand for. A `Ledger` has the pins that are outstanding,
the direct ones and the recursive ones, and a block is owed one reference by every direct pin of it
and by every recursive pin from whose root it can be reached (`Ledger.owed`).

Both recursive operations go to every block below their root once, though they walk differently:
`pin_recursive` marks a block when it pushes it, `unpin_recursive` when it pops it
(`pinRecursive_adds`, `unpinRecursive_removes`, by the invariants of `StackWalk`). So every
operation changes the reference counts as it changes what is owed, and `Run.accounts` follows by
induction on the run.
-/

namespace Ipfrs.Storage

open AssocMap StackWalk

/-! ### Reference counts and statistics -/

/-- The number of entries of a type. -/
def ofType (pins : AList fun _ : Cid => PinInfo) (pinType : PinType) : ℕ :=
  (pins.entries.filter fun e => e.2.pinType = pinType).length

/-- The statistics that the entries of the map ask for. -/
def statsOf (pins : AList fun _ : Cid => PinInfo) : PinStats where
  totalPins := .ofNat pins.entries.length
  directPins := .ofNat (ofType pins .direct)
  recursivePins := .ofNat (ofType pins .recursive)
  indirectPins := .ofNat (ofType pins .indirect)

namespace PinStats

@[simp] theorem decrement_increment (stats : PinStats) (t : PinType) :
    (stats.increment t).decrement t = stats := by
  cases t <;> simp [increment, decrement]

@[simp] theorem increment_decrement (stats : PinStats) (t : PinType) :
    (stats.decrement t).increment t = stats := by
  cases t <;> simp [increment, decrement]

end PinStats

variable {pins : AList fun _ : Cid => PinInfo} {cid : Cid} {info : PinInfo}

/-- **One more entry is one more in the statistics of its type.** -/
theorem statsOf_of_perm {rest : AList fun _ : Cid => PinInfo}
    (h : pins.entries.Perm (⟨cid, info⟩ :: rest.entries)) :
    statsOf pins = (statsOf rest).increment info.pinType := by
  have htotal : pins.entries.length = rest.entries.length + 1 := by
    rw [h.length_eq, List.length_cons]
  have htype : ∀ t, ofType pins t = ofType rest t + if info.pinType = t then 1 else 0 := by
    intro t
    unfold ofType
    rw [(h.filter _).length_eq, List.filter_cons]
    split
    · next ht => rw [List.length_cons, if_pos (of_decide_eq_true ht)]
    · next ht =>
      rw [if_neg (fun heq => ht (decide_eq_true heq))]
      rfl
  unfold statsOf
  rw [htotal, htype, htype, htype]
  cases info.pinType <;> simp [PinStats.increment, UInt64.ofNat_add]

theorem statsOf_insert (pins : AList fun _ : Cid => PinInfo) (cid : Cid) (info : PinInfo) :
    statsOf (pins.insert cid info) = (statsOf (pins.erase cid)).increment info.pinType :=
  statsOf_of_perm (List.Perm.of_eq AList.entries_insert)

theorem statsOf_erase (h : pins.lookup cid = some info) :
    statsOf (pins.erase cid) = (statsOf pins).decrement info.pinType := by
  rw [statsOf_of_perm (entries_perm h), PinStats.decrement_increment]

namespace PinManager

/-- The reference count of a CID, and 0 for one that has no entry. -/
def refs (m : PinManager) (cid : Cid) : ℕ :=
  ((m.pins.lookup cid).map PinInfo.refCount).getD 0

/-- No entry has a reference count of 0, and the statistics are those of the entries. -/
structure Sound (m : PinManager) : Prop where
  pos : ∀ cid info, m.pins.lookup cid = some info → 0 < info.refCount
  stats : m.stats = statsOf m.pins

theorem sound_new : Sound new where
  pos cid info h := absurd h (by simp [new])
  stats := rfl

theorem Sound.isPinned_iff {m : PinManager} (h : Sound m) (cid : Cid) :
    m.isPinned cid = true ↔ 0 < m.refs cid := by
  unfold isPinned refs
  cases hlookup : m.pins.lookup cid with
  | none => simp
  | some info => simp [h.pos cid info hlookup]

/-- From `m` to `m'` every CID of `cids` gets one more reference for each time it occurs. -/
structure Adds (m m' : PinManager) (cids : List Cid) : Prop where
  sound : Sound m'
  refs : ∀ c, m'.refs c = m.refs c + cids.count c

theorem Sound.adds_nil {m : PinManager} (h : Sound m) : Adds m m [] :=
  ⟨h, fun c => by rw [List.count_nil, Nat.add_zero]⟩

variable {m'' : PinManager} {cids cids' trail : List Cid} {cid : Cid} {info info' : PinInfo}
  {stats : PinStats} {walk walk' : PinWalk} {links : Cid → List Cid}

theorem Adds.trans {m m' : PinManager} (h : Adds m m' cids) (h' : Adds m' m'' cids') :
    Adds m m'' (cids ++ cids') where
  sound := h'.sound
  refs c := by rw [h'.refs, h.refs, List.count_append, Nat.add_assoc]

/-! ### Single blocks -/

theorem refs_insert (m : PinManager) (cid : Cid) (info : PinInfo) (stats : PinStats) (c : Cid) :
    refs ⟨m.pins.insert cid info, stats⟩ c = if c = cid then info.refCount else m.refs c := by
  unfold refs
  by_cases hc : c = cid
  · subst hc
    rw [AList.lookup_insert, if_pos rfl]
    rfl
  · rw [AList.lookup_insert_ne hc, if_neg hc]

/-- An entry that replaces another keeps the manager sound, when the statistics follow the types. -/
theorem Sound.replace {m : PinManager} (h : Sound m) (hlookup : m.pins.lookup cid = some info)
    (hpos : 0 < info'.refCount)
    (hstats : stats = (m.stats.decrement info.pinType).increment info'.pinType) :
    Sound ⟨m.pins.insert cid info', stats⟩ where
  pos c i hi := by
    obtain ⟨-, rfl⟩ | ⟨-, hi⟩ := lookup_insert_eq_some.mp hi
    · exact hpos
    · exact h.pos c i hi
  stats := by rw [hstats, h.stats, statsOf_insert, statsOf_erase hlookup]

theorem Sound.adds_replace {m : PinManager} (h : Sound m) (hlookup : m.pins.lookup cid = some info)
    (hrefs : info'.refCount = info.refCount + 1)
    (hstats : stats = (m.stats.decrement info.pinType).increment info'.pinType) :
    Adds m ⟨m.pins.insert cid info', stats⟩ [cid] where
  sound := h.replace hlookup (by rw [hrefs]; exact Nat.succ_pos _) hstats
  refs c := by
    rw [refs_insert, List.count_singleton]
    by_cases hc : c = cid
    · subst hc
      simp [refs, hlookup, hrefs]
    · simp [hc, Ne.symm hc]

theorem Sound.adds_new {m : PinManager} (h : Sound m) (hlookup : m.pins.lookup cid = none)
    (hrefs : info.refCount = 1) (hstats : stats = m.stats.increment info.pinType) :
    Adds m ⟨m.pins.insert cid info, stats⟩ [cid] where
  sound := {
    pos c i hi := by
      obtain ⟨-, rfl⟩ | ⟨-, hi⟩ := lookup_insert_eq_some.mp hi
      · rw [hrefs]
        exact Nat.one_pos
      · exact h.pos c i hi
    stats := by rw [hstats, h.stats, statsOf_insert, erase_of_lookup_eq_none hlookup] }
  refs c := by
    rw [refs_insert, List.count_singleton]
    by_cases hc : c = cid
    · subst hc
      simp [refs, hlookup, hrefs]
    · simp [hc, Ne.symm hc]

/-- **`pin_with_type` adds one reference**, whether there is an entry or not. -/
theorem pinWithType_adds {m m' : PinManager} {t : PinType} {name : Option String} {now : ℕ}
    (hm : Sound m) (h : m.pinWithType cid t name now = .ok m') : Adds m m' [cid] := by
  unfold pinWithType at h
  cases hlookup : m.pins.lookup cid with
  | none =>
    rw [hlookup] at h
    obtain rfl := Except.ok.inj h
    exact hm.adds_new hlookup rfl rfl
  | some info =>
    rw [hlookup] at h
    obtain ⟨refCount, hadd, h⟩ := Except.bind_eq_ok_iff.mp h
    obtain ⟨-, rfl⟩ := addU32_eq_ok_iff.mp hadd
    dsimp only at h
    split at h
    · next hup =>
      -- a direct pin becomes a recursive one
      obtain rfl := Except.ok.inj h
      refine hm.adds_replace hlookup rfl ?_
      rw [hup.2]
    · obtain rfl := Except.ok.inj h
      exact hm.adds_replace hlookup rfl (PinStats.increment_decrement _ _).symm

theorem pinIndirect_adds {m m' : PinManager} {parent : Cid} {now : ℕ} (hm : Sound m)
    (h : m.pinIndirect cid parent now = .ok m') : Adds m m' [cid] := by
  unfold pinIndirect at h
  cases hlookup : m.pins.lookup cid with
  | none =>
    rw [hlookup] at h
    obtain rfl := Except.ok.inj h
    exact hm.adds_new hlookup rfl rfl
  | some info =>
    rw [hlookup] at h
    obtain ⟨refCount, hadd, h⟩ := Except.bind_eq_ok_iff.mp h
    obtain ⟨-, rfl⟩ := addU32_eq_ok_iff.mp hadd
    obtain rfl := Except.ok.inj h
    exact hm.adds_replace hlookup rfl (PinStats.increment_decrement _ _).symm

/-- An entry is found or made as long as its reference count has room. -/
theorem exists_pinWithType {m : PinManager} (hroom : m.refs cid + 1 < 2 ^ 32) (t : PinType)
    (name : Option String) (now : ℕ) : ∃ m', m.pinWithType cid t name now = .ok m' := by
  unfold pinWithType
  cases hlookup : m.pins.lookup cid with
  | none => exact ⟨_, rfl⟩
  | some info =>
    have hadd : addU32 info.refCount 1 = .ok (info.refCount + 1) := by
      refine addU32_eq_ok_iff.mpr ⟨?_, rfl⟩
      simpa [refs, hlookup] using hroom
    dsimp only
    rw [hadd, Except.ok_bind]
    split
    · exact ⟨_, rfl⟩
    · exact ⟨_, rfl⟩

theorem exists_pinIndirect {m : PinManager} (hroom : m.refs cid + 1 < 2 ^ 32) (parent : Cid)
    (now : ℕ) : ∃ m', m.pinIndirect cid parent now = .ok m' := by
  unfold pinIndirect
  cases hlookup : m.pins.lookup cid with
  | none => exact ⟨_, rfl⟩
  | some info =>
    have hadd : addU32 info.refCount 1 = .ok (info.refCount + 1) := by
      refine addU32_eq_ok_iff.mpr ⟨?_, rfl⟩
      simpa [refs, hlookup] using hroom
    dsimp only
    rw [hadd]
    exact ⟨_, rfl⟩

/-- From `m` to `m'` every CID of `cids` has one reference less for each time it occurs. -/
structure Removes (m m' : PinManager) (cids : List Cid) : Prop where
  sound : Sound m'
  refs : ∀ c, m'.refs c = m.refs c - cids.count c

theorem Sound.removes_nil {m : PinManager} (h : Sound m) : Removes m m [] :=
  ⟨h, fun c => by rw [List.count_nil, Nat.sub_zero]⟩

theorem Removes.trans {m m' : PinManager} (h : Removes m m' cids) (h' : Removes m' m'' cids') :
    Removes m m'' (cids ++ cids') where
  sound := h'.sound
  refs c := by rw [h'.refs, h.refs, List.count_append, Nat.sub_sub]

/-- **`unpin` takes one reference away**, and the entry with the last one. It never subtracts from a
reference count of 0. -/
theorem exists_unpin {m : PinManager} (hm : Sound m) (cid : Cid) :
    ∃ m' removed, m.unpin cid = (m', .ok removed) ∧ Removes m m' [cid] := by
  unfold unpin
  cases hlookup : m.pins.lookup cid with
  | none =>
    -- there is no entry, and no reference to take away
    refine ⟨m, false, rfl, hm, fun c => ?_⟩
    rw [List.count_singleton]
    by_cases hc : c = cid
    · subst hc
      simp [refs, hlookup]
    · simp [Ne.symm hc]
  | some info =>
    have hpos := hm.pos cid info hlookup
    dsimp only
    by_cases hle : info.refCount ≤ 1
    · -- the last reference
      rw [if_pos hle]
      refine ⟨_, _, rfl, ⟨fun c i hi => hm.pos c i (lookup_of_lookup_erase hi), ?_⟩, fun c => ?_⟩
      · rw [statsOf_erase hlookup, hm.stats]
      · unfold refs
        rw [List.count_singleton]
        by_cases hc : c = cid
        · subst hc
          simp [hlookup, hle]
        · simp [AList.lookup_erase_ne hc, Ne.symm hc]
    · -- one of several
      rw [if_neg hle]
      have hsub : subU32 info.refCount 1 = .ok (info.refCount - 1) := if_pos hpos
      rw [hsub]
      refine ⟨_, _, rfl, hm.replace hlookup (by simp only; omega) ?_, fun c => ?_⟩
      · exact (PinStats.increment_decrement _ _).symm
      · rw [refs_insert, List.count_singleton]
        by_cases hc : c = cid
        · subst hc
          simp [refs, hlookup]
        · simp [hc, Ne.symm hc]

/-! ### Recursive pins -/

/-- A block can be reached from another through links. -/
def Reaches (links : Cid → List Cid) (root c : Cid) : Prop :=
  Relation.ReflTransGen (fun x y => y ∈ links x) root c

/-- **The links of one block**: those that were not seen get a reference, and are pushed. -/
theorem pinLinks_ok {root : Cid} {now : Cid → ℕ} {links : List Cid} (hm : Sound walk.manager)
    (h : pinLinks root now links walk = (walk', .ok ())) :
    walk'.toProcess = (firstNew links walk.seen).reverse ++ walk.toProcess ∧
      walk'.seen = walk.seen ∪ (firstNew links walk.seen).toFinset ∧
      Adds walk.manager walk'.manager (firstNew links walk.seen) ∧
      walk'.pinnedCount = walk.pinnedCount + (firstNew links walk.seen).length := by
  induction links generalizing walk with
  | nil =>
    obtain rfl := (Prod.mk.inj h).1
    refine ⟨rfl, ?_, hm.adds_nil, rfl⟩
    exact (Finset.union_empty _).symm
  | cons link links ih =>
    unfold pinLinks at h
    unfold firstNew
    split at h
    · next hseen =>
      rw [if_pos hseen]
      exact ih hm h
    · next hseen =>
      rw [if_neg hseen]
      cases hpin : walk.manager.pinIndirect link root (now link) with
      | error f =>
        rw [hpin] at h
        exact absurd (Prod.mk.inj h).2 (by simp)
      | ok manager =>
        rw [hpin] at h
        -- a new link gets one reference and goes on the stack
        have hadds := pinIndirect_adds hm hpin
        obtain ⟨hstack, hseen', hrest, hcount⟩ := ih hadds.sound h
        refine ⟨?_, ?_, hadds.trans hrest, ?_⟩
        · rw [hstack, List.reverse_cons, List.append_assoc]
          rfl
        · rw [hseen', List.toFinset_cons, Finset.insert_union, Finset.union_insert]
        · rw [hcount, List.length_cons]
          exact Nat.add_right_comm _ 1 _

/-- The links of one block can be pinned when the new ones have room for a reference. -/
theorem exists_pinLinks {root : Cid} {now : Cid → ℕ} {links : List Cid} (hm : Sound walk.manager)
    (hroom : ∀ c ∈ firstNew links walk.seen, walk.manager.refs c + 1 < 2 ^ 32) :
    ∃ walk', pinLinks root now links walk = (walk', .ok ()) := by
  induction links generalizing walk with
  | nil => exact ⟨walk, rfl⟩
  | cons link links ih =>
    unfold pinLinks
    unfold firstNew at hroom
    split
    · next hseen =>
      rw [if_pos hseen] at hroom
      exact ih hm hroom
    · next hseen =>
      rw [if_neg hseen] at hroom
      obtain ⟨manager, hpin⟩ :=
        exists_pinIndirect (hroom link List.mem_cons_self) root (now link)
      have hadds := pinIndirect_adds hm hpin
      rw [hpin]
      refine ih hadds.sound fun c hc => ?_
      -- a later link is another one, and its count has not changed
      have hne : c ≠ link := by
        rintro rfl
        exact (mem_firstNew.mp hc).2 (Finset.mem_insert_self c _)
      have hcount : [link].count c = 0 := by
        rw [List.count_singleton, if_neg (by simpa using hne.symm)]
      rw [hadds.refs, hcount]
      exact hroom c (List.mem_cons_of_mem _ hc)

/-- What the loop of `pin_recursive` knows after the root is pinned: `trail` are the blocks that
were pinned after it. -/
structure PinWalk.Inv (links : Cid → List Cid) (root : Cid) (m : PinManager) (walk : PinWalk)
    (trail : List Cid) : Prop where
  push : PushInv links [root] {root} walk.toProcess trail
  seen : walk.seen = {root} ∪ trail.toFinset
  adds : Adds m walk.manager trail
  count : walk.pinnedCount = trail.length + 1

theorem PinWalk.Inv.initial {root : Cid} {m : PinManager} (hm : Sound m) :
    PinWalk.Inv links root m ⟨m, [root], {root}, 1⟩ [] where
  push := PushInv.initial links [root] {root}
  seen := (Finset.union_empty _).symm
  adds := hm.adds_nil
  count := rfl

theorem PinWalk.Inv.next {root : Cid} {m : PinManager} {now : Cid → ℕ}
    (hI : PinWalk.Inv links root m walk trail)
    (hstep : pinStep (fun c => .ok (links c)) root now walk = .inl walk') :
    ∃ x stack, walk.toProcess = x :: stack ∧
      walk'.toProcess = (firstNew (links x) walk.seen).reverse ++ stack ∧
      walk'.seen = walk.seen ∪ (firstNew (links x) walk.seen).toFinset ∧
      PinWalk.Inv links root m walk' (trail ++ firstNew (links x) walk.seen) := by
  unfold pinStep at hstep
  cases hstack : walk.toProcess with
  | nil =>
    rw [hstack] at hstep
    exact absurd hstep (by simp)
  | cons x stack =>
    rw [hstack] at hstep
    rcases hlinks : pinLinks root now (links x) { walk with toProcess := stack } with ⟨w, f | u⟩
    · simp [hlinks] at hstep
    · obtain rfl : w = walk' := by simpa [hlinks] using hstep
      have hsound : Sound ({ walk with toProcess := stack } : PinWalk).manager := hI.adds.sound
      obtain ⟨htop, hseen, hadds, hcount⟩ := pinLinks_ok hsound hlinks
      -- what has been seen is the root and what has been pushed
      have hmarked : ∀ y, y ∈ walk.seen ↔ y ∈ ({root} : Finset Cid) ∨ y ∈ trail := by
        intro y
        rw [hI.seen, Finset.mem_union, List.mem_toFinset]
      have hwalk := hI.push
      rw [hstack] at hwalk
      refine ⟨x, stack, rfl, htop, hseen, ?_, ?_, hI.adds.trans hadds, ?_⟩
      · rw [htop]
        exact hwalk.next hmarked
      · rw [hseen, hI.seen, List.toFinset_append, Finset.union_assoc]
      · have hcount' : w.pinnedCount =
            walk.pinnedCount + (firstNew (links x) walk.seen).length := hcount
        rw [hcount', hI.count, List.length_append]
        omega

/-- What is on the trail can be reached, and so can what is on the stack. -/
theorem PinWalk.Inv.reaches {root : Cid} {m : PinManager} (hI : PinWalk.Inv links root m walk trail)
    {c : Cid} (hc : c ∈ walk.toProcess ∨ c ∈ trail) : Reaches links root c :=
  hI.push.reaches hc

section Recursive

variable {links : Cid → List Cid} {root : Cid} {m : PinManager} {now : Cid → ℕ}
variable {walk : PinWalk} {trail : List Cid} {r : PinManager × Except Fault ℕ}

/-- When the loop leaves with a count, nothing is left to process. -/
theorem PinWalk.Inv.done (hI : PinWalk.Inv links root m walk trail)
    (hstep : pinStep (fun c => .ok (links c)) root now walk = .inr r) {n : ℕ} (hn : r.2 = .ok n) :
    PushInv links [root] {root} [] trail ∧ Adds m r.1 trail ∧ n = trail.length + 1 := by
  unfold pinStep at hstep
  cases hstack : walk.toProcess with
  | nil =>
    rw [hstack] at hstep
    obtain rfl := Sum.inr.inj hstep
    obtain rfl := Except.ok.inj hn
    exact ⟨hstack ▸ hI.push, hI.adds, hI.count⟩
  | cons x stack =>
    -- with a block on the stack the loop leaves with an error only
    rw [hstack] at hstep
    rcases hlinks : pinLinks root now (links x) { walk with toProcess := stack } with ⟨w, f | u⟩
    · obtain rfl : (w.manager, .error f) = r := by simpa [hlinks] using hstep
      exact absurd hn (by simp)
    · simp [hlinks] at hstep

/-- **`pin_recursive` adds one reference to every block below the root**, the root included. -/
theorem pinRecursive_adds {m' : PinManager} {fuel n : ℕ} (hm : Sound m)
    (h : pinRecursive (fun c => .ok (links c)) fuel m root now = some (m', .ok n)) :
    ∃ trail : List Cid, trail.Nodup ∧ (∀ c, c ∈ trail ↔ Reaches links root c) ∧
      Adds m m' trail ∧ n = trail.length := by
  unfold pinRecursive at h
  cases hroot : m.pinWithType root .recursive none (now root) with
  | error f =>
    rw [hroot] at h
    exact absurd (Prod.mk.inj (Option.some.inj h)).2 (by simp)
  | ok m₁ =>
    rw [hroot] at h
    have hadds := pinWithType_adds hm hroot
    have hleaves := WhileLoop.run_inv
      (fun walk => ∃ trail, PinWalk.Inv links root m₁ walk trail)
      (fun r => ∀ n, r.2 = .ok n → ∃ trail, PushInv links [root] {root} [] trail ∧
        Adds m₁ r.1 trail ∧ n = trail.length + 1)
      (fun walk walk' ⟨trail, hI⟩ hstep => by
        obtain ⟨x, stack, -, -, -, hI'⟩ := hI.next hstep
        exact ⟨_, hI'⟩)
      (fun walk r ⟨trail, hI⟩ hstep n hn => ⟨trail, hI.done hstep hn⟩)
      ⟨[], PinWalk.Inv.initial hadds.sound⟩ h
    obtain ⟨trail, hpush, hrest, hcount⟩ := hleaves n rfl
    -- the root is on the trail as well
    refine ⟨root :: trail, List.nodup_cons.mpr ⟨fun hroot => ?_, hpush.nodup⟩, fun c => ?_,
      hadds.trans hrest, hcount⟩
    · exact hpush.notMem_init hroot (Finset.mem_singleton_self root)
    · rw [List.mem_cons, hpush.mem_trail_iff]
      simp only [List.mem_singleton, exists_eq_left, transGen_fresh_singleton]
      by_cases hc : c = root
      · subst hc
        exact iff_of_true (Or.inl rfl) .refl
      · simp [hc, Reaches]

/-- With room for a reference everywhere below the root, the loop does not leave with an error. -/
theorem PinWalk.Inv.leaves_ok {m₁ : PinManager}
    (hroom : ∀ c, Reaches links root c → m.refs c + 1 < 2 ^ 32) (hroot : Adds m m₁ [root])
    (hI : PinWalk.Inv links root m₁ walk trail)
    (hstep : pinStep (fun c => .ok (links c)) root now walk = .inr r) :
    ∃ m' n, r = (m', .ok n) := by
  unfold pinStep at hstep
  cases hstack : walk.toProcess with
  | nil =>
    rw [hstack] at hstep
    obtain rfl := Sum.inr.inj hstep
    exact ⟨_, _, rfl⟩
  | cons x stack =>
    have hx : Reaches links root x := hI.reaches (Or.inl (by rw [hstack]; exact List.mem_cons_self))
    have hsound : Sound ({ walk with toProcess := stack } : PinWalk).manager := hI.adds.sound
    obtain ⟨w, hlinks⟩ : ∃ w, pinLinks root now (links x) { walk with toProcess := stack } =
        (w, .ok ()) := by
      refine exists_pinLinks hsound fun c hc => ?_
      -- a link that was not seen has the references it had at the beginning
      obtain ⟨hc, hseen⟩ := mem_firstNew.mp hc
      dsimp only at hseen
      rw [hI.seen, Finset.mem_union, Finset.mem_singleton, List.mem_toFinset, not_or] at hseen
      dsimp only
      rw [hI.adds.refs, hroot.refs, List.count_eq_zero_of_not_mem hseen.2,
        List.count_singleton, if_neg (by simpa using Ne.symm hseen.1)]
      exact hroom c (hx.tail hc)
    rw [hstack] at hstep
    simp [hlinks] at hstep

/-- **`pin_recursive` returns** over a finite graph, as long as every block below the root has room
for a reference. -/
theorem exists_pinRecursive (hm : Sound m) (hfin : {c | Reaches links root c}.Finite)
    (hroom : ∀ c, Reaches links root c → m.refs c + 1 < 2 ^ 32) :
    ∃ fuel m' n, pinRecursive (fun c => .ok (links c)) fuel m root now = some (m', .ok n) := by
  obtain ⟨m₁, hroot⟩ := exists_pinWithType (hroom root .refl) .recursive none (now root)
  have hadds := pinWithType_adds hm hroot
  have hU : ∀ c, c ∈ hfin.toFinset ↔ Reaches links root c := fun c => hfin.mem_toFinset
  -- the loop ends: one block is popped, and each push goes with a mark
  have hends := WhileLoop.run_of_measure
    (fun walk => ∃ trail, PinWalk.Inv links root m₁ walk trail)
    (fun walk => pushMeasure hfin.toFinset walk.seen walk.toProcess)
    (fun walk walk' ⟨trail, hI⟩
        (hstep : pinStep (fun c => .ok (links c)) root now walk = .inl walk') => by
      obtain ⟨x, stack, hstack, htop, hseen, hI'⟩ := hI.next hstep
      have hx : Reaches links root x :=
        hI.reaches (Or.inl (by rw [hstack]; exact List.mem_cons_self))
      refine ⟨⟨_, hI'⟩, ?_⟩
      rw [htop, hseen, hstack]
      refine pushMeasure_lt x (fun c hc => ?_) (fun c hc => ?_)
      · exact (hU c).mpr (hx.tail (mem_firstNew.mp hc).1)
      · rw [hI.seen, Finset.mem_union, Finset.mem_singleton, List.mem_toFinset] at hc
        rcases hc with rfl | hc
        · exact (hU c).mpr .refl
        · exact (hU c).mpr (hI.reaches (Or.inr hc)))
    ⟨[], PinWalk.Inv.initial hadds.sound⟩
  obtain ⟨r, hr⟩ := hends
  obtain ⟨m', n, rfl⟩ := WhileLoop.run_inv
    (fun walk => ∃ trail, PinWalk.Inv links root m₁ walk trail)
    (fun r => ∃ m' n, r = (m', .ok n))
    (fun walk walk' ⟨trail, hI⟩ hstep => by
      obtain ⟨x, stack, -, -, -, hI'⟩ := hI.next hstep
      exact ⟨_, hI'⟩)
    (fun walk r ⟨trail, hI⟩ hstep => hI.leaves_ok hroom hadds hstep)
    ⟨[], PinWalk.Inv.initial hadds.sound⟩ hr
  refine ⟨pushMeasure hfin.toFinset {root} [root] + 1, m', n, ?_⟩
  unfold pinRecursive
  rw [hroot]
  exact hr

/-- What the loop of `unpin_recursive` knows: `trail` are the blocks that were unpinned. -/
structure UnpinWalk.Inv (links : Cid → List Cid) (root : Cid) (m : PinManager) (walk : UnpinWalk)
    (trail : List Cid) : Prop where
  pop : PopInv links [root] walk.toProcess trail
  seen : walk.seen = trail.toFinset
  removes : Removes m walk.manager trail

theorem UnpinWalk.Inv.initial (hm : Sound m) : UnpinWalk.Inv links root m ⟨m, [root], ∅, 0⟩ [] where
  pop := PopInv.initial links [root]
  seen := rfl
  removes := hm.removes_nil

/-- One round: a block is skipped, or it is unpinned and its links are pushed. The round never ends
with an error. -/
theorem UnpinWalk.Inv.next {walk : UnpinWalk} (hI : UnpinWalk.Inv links root m walk trail) :
    (walk.toProcess = [] ∧ unpinStep (fun c => .ok (links c)) walk =
        .inr (walk.manager, .ok walk.unpinnedCount)) ∨
      ∃ x stack walk', walk.toProcess = x :: stack ∧
        unpinStep (fun c => .ok (links c)) walk = .inl walk' ∧
        ((walk'.toProcess = stack ∧ walk'.seen = walk.seen ∧
            UnpinWalk.Inv links root m walk' trail) ∨
          x ∉ walk.seen ∧ walk'.toProcess = (links x).reverse ++ stack ∧
            walk'.seen = insert x walk.seen ∧
            UnpinWalk.Inv links root m walk' (trail ++ [x])) := by
  have hpop := hI.pop
  cases hstack : walk.toProcess with
  | nil =>
    refine Or.inl ⟨rfl, ?_⟩
    unfold unpinStep
    rw [hstack]
  | cons x stack =>
    rw [hstack] at hpop
    refine Or.inr ⟨x, stack, ?_⟩
    unfold unpinStep
    rw [hstack]
    by_cases hseen : x ∈ walk.seen
    · -- seen before
      refine ⟨_, rfl, if_pos hseen, Or.inl ⟨rfl, rfl, ?_, hI.seen, hI.removes⟩⟩
      exact hpop.skip (by rwa [hI.seen, List.mem_toFinset] at hseen)
    · obtain ⟨manager, removed, hunpin, hremoves⟩ := exists_unpin hI.removes.sound x
      dsimp only
      rw [if_neg hseen, hunpin]
      refine ⟨_, rfl, rfl, Or.inr ⟨hseen, rfl, rfl, ?_, ?_, hI.removes.trans hremoves⟩⟩
      · exact hpop.visit (by rwa [hI.seen, List.mem_toFinset] at hseen)
      · dsimp only
        rw [hI.seen, List.toFinset_append, Finset.union_comm]
        rfl

theorem UnpinWalk.Inv.step {walk walk' : UnpinWalk} (hI : UnpinWalk.Inv links root m walk trail)
    (hstep : unpinStep (fun c => .ok (links c)) walk = .inl walk') :
    ∃ trail, UnpinWalk.Inv links root m walk' trail := by
  obtain ⟨-, hdone⟩ | ⟨x, stack, walk'', -, hnext, hcases⟩ := hI.next
  · rw [hdone] at hstep
    exact absurd hstep (by simp)
  · rw [hnext] at hstep
    obtain rfl := Sum.inl.inj hstep
    obtain ⟨-, -, hI'⟩ | ⟨-, -, -, hI'⟩ := hcases
    · exact ⟨_, hI'⟩
    · exact ⟨_, hI'⟩

/-- **`unpin_recursive` takes one reference away from every block below the root**, the root
included. -/
theorem unpinRecursive_removes {m' : PinManager} {fuel : ℕ} {outcome : Except Fault ℕ}
    (hm : Sound m)
    (h : unpinRecursive (fun c => .ok (links c)) fuel m root = some (m', outcome)) :
    (∃ n, outcome = .ok n) ∧ ∃ trail : List Cid, trail.Nodup ∧
      (∀ c, c ∈ trail ↔ Reaches links root c) ∧ Removes m m' trail := by
  refine WhileLoop.run_inv (fun walk => ∃ trail, UnpinWalk.Inv links root m walk trail)
    (fun r => (∃ n, r.2 = .ok n) ∧ ∃ trail : List Cid, trail.Nodup ∧
      (∀ c, c ∈ trail ↔ Reaches links root c) ∧ Removes m r.1 trail)
    (fun walk walk' ⟨trail, hI⟩ hstep => hI.step hstep) (fun walk r ⟨trail, hI⟩ hstep => ?_)
    ⟨[], UnpinWalk.Inv.initial hm⟩ h
  obtain ⟨hstack, hdone⟩ | ⟨x, stack, walk', -, hnext, -⟩ := hI.next
  · rw [hdone] at hstep
    obtain rfl := Sum.inr.inj hstep
    have hpop := hI.pop
    rw [hstack] at hpop
    refine ⟨⟨_, rfl⟩, trail, hpop.nodup, fun c => ?_, hI.removes⟩
    rw [hpop.mem_trail_iff]
    simp [Reaches]
  · rw [hnext] at hstep
    exact absurd hstep (by simp)

/-- **`unpin_recursive` returns** over a finite graph. -/
theorem exists_unpinRecursive (hm : Sound m) (hfin : {c | Reaches links root c}.Finite) :
    ∃ fuel m' n, unpinRecursive (fun c => .ok (links c)) fuel m root = some (m', .ok n) := by
  have hU : ∀ c, c ∈ hfin.toFinset ↔ Reaches links root c := fun c => hfin.mem_toFinset
  have hends := WhileLoop.run_of_measure
    (fun walk => ∃ trail, UnpinWalk.Inv links root m walk trail)
    (fun walk => popMeasure links hfin.toFinset walk.seen walk.toProcess)
    (fun walk walk' ⟨trail, hI⟩
        (hstep : unpinStep (fun c => .ok (links c)) walk = .inl walk') => by
      refine ⟨hI.step hstep, ?_⟩
      obtain ⟨-, hdone⟩ | ⟨x, stack, walk'', hstack, hnext, hcases⟩ := hI.next
      · rw [hdone] at hstep
        exact absurd hstep (by simp)
      · rw [hnext] at hstep
        obtain rfl := Sum.inl.inj hstep
        obtain ⟨htop, hseen, -⟩ | ⟨hnew, htop, hseen, -⟩ := hcases
        · -- skipped: the stack is lower
          rw [htop, hseen, hstack]
          exact Nat.add_lt_add_left (Nat.lt_succ_self _) _
        · rw [htop, hseen, hstack]
          have hx : x ∈ walk.toProcess := by
            rw [hstack]
            exact List.mem_cons_self
          obtain ⟨r, hr, hpath⟩ := hI.pop.sound x (Or.inl hx)
          obtain rfl := List.mem_singleton.mp hr
          exact popMeasure_lt ((hU x).mpr hpath) hnew)
    ⟨[], UnpinWalk.Inv.initial hm⟩
  obtain ⟨⟨m', outcome⟩, hr⟩ := hends
  obtain ⟨⟨n, rfl⟩, -⟩ := unpinRecursive_removes hm hr
  exact ⟨_, m', n, hr⟩

end Recursive

/-! ### Runs -/

/-- The pins that are outstanding, each as often as it was made. -/
structure Ledger where
  direct : Multiset Cid := 0
  recursive : Multiset Cid := 0

open Classical in
/-- The references that a block is owed: by the direct pins of it, and by the recursive pins whose
root reaches it. -/
noncomputable def Ledger.owed (ledger : Ledger) (links : Cid → List Cid) (c : Cid) : ℕ :=
  ledger.direct.count c + ledger.recursive.countP fun root => Reaches links root c

/-- The runs of a manager over a link graph: pins are made, and outstanding pins are undone. -/
inductive Run (links : Cid → List Cid) : Ledger → PinManager → Prop
  | new : Run links {} .new
  | pin {ledger m m' c now} : Run links ledger m → m.pin c now = .ok m' →
      Run links { ledger with direct := c ::ₘ ledger.direct } m'
  | unpin {ledger m m' c removed} : Run links ledger m → c ∈ ledger.direct →
      m.unpin c = (m', .ok removed) →
      Run links { ledger with direct := ledger.direct.erase c } m'
  | pinRecursive {ledger m m' fuel root now n} : Run links ledger m →
      m.pinRecursive (fun c => .ok (links c)) fuel root now = some (m', .ok n) →
      Run links { ledger with recursive := root ::ₘ ledger.recursive } m'
  | unpinRecursive {ledger m m' fuel root n} : Run links ledger m → root ∈ ledger.recursive →
      m.unpinRecursive (fun c => .ok (links c)) fuel root = some (m', .ok n) →
      Run links { ledger with recursive := ledger.recursive.erase root } m'

section Owed

variable {links : Cid → List Cid} (ledger : Ledger) (c : Cid)

theorem Ledger.owed_cons_direct (cid : Cid) :
    Ledger.owed { ledger with direct := cid ::ₘ ledger.direct } links c =
      ledger.owed links c + [cid].count c := by
  unfold Ledger.owed
  rw [Multiset.count_cons, List.count_singleton]
  by_cases hc : c = cid
  · subst hc
    simp [Nat.add_right_comm]
  · simp [hc, Ne.symm hc]

variable {trail : List Cid}

/-- A recursive pin is a reference for every block below its root. -/
theorem Ledger.owed_cons_recursive {root : Cid} (hnodup : trail.Nodup)
    (htrail : ∀ c, c ∈ trail ↔ Reaches links root c) :
    Ledger.owed { ledger with recursive := root ::ₘ ledger.recursive } links c =
      ledger.owed links c + trail.count c := by
  unfold Ledger.owed
  rw [Multiset.countP_cons, hnodup.count]
  by_cases hc : Reaches links root c
  · rw [if_pos hc, if_pos ((htrail c).mpr hc), Nat.add_assoc]
  · rw [if_neg hc, if_neg fun hmem => hc ((htrail c).mp hmem), Nat.add_zero,
      Nat.add_zero]

/-- An outstanding direct pin is a reference that can be taken away. -/
theorem Ledger.owed_erase_direct {cid : Cid} (h : cid ∈ ledger.direct) :
    Ledger.owed { ledger with direct := ledger.direct.erase cid } links c =
      ledger.owed links c - [cid].count c := by
  have hcons := @Ledger.owed_cons_direct links
    { ledger with direct := ledger.direct.erase cid } c cid
  simp only [Multiset.cons_erase h] at hcons
  rw [hcons, Nat.add_sub_cancel]

theorem Ledger.owed_erase_recursive {root : Cid} (hnodup : trail.Nodup)
    (htrail : ∀ c, c ∈ trail ↔ Reaches links root c) (h : root ∈ ledger.recursive) :
    Ledger.owed { ledger with recursive := ledger.recursive.erase root } links c =
      ledger.owed links c - trail.count c := by
  have hcons := Ledger.owed_cons_recursive
    { ledger with recursive := ledger.recursive.erase root } c hnodup htrail
  simp only [Multiset.cons_erase h] at hcons
  rw [hcons, Nat.add_sub_cancel]

end Owed

/-- **In every run the reference counts are what is owed.** -/
theorem Run.sound {ledger : Ledger} {m : PinManager} (h : Run links ledger m) :
    Sound m ∧ ∀ c, m.refs c = ledger.owed links c := by
  induction h with
  | new =>
    refine ⟨sound_new, fun c => ?_⟩
    unfold Ledger.owed
    rfl
  | pin _ hpin ih =>
    have hadds := pinWithType_adds ih.1 hpin
    refine ⟨hadds.sound, fun c => ?_⟩
    rw [hadds.refs, ih.2, Ledger.owed_cons_direct]
  | @unpin ledger m m' cid removed _ hmem hunpin ih =>
    obtain ⟨m'', removed', hunpin', hremoves⟩ := exists_unpin ih.1 cid
    rw [hunpin] at hunpin'
    obtain rfl := (Prod.mk.inj hunpin').1
    refine ⟨hremoves.sound, fun c => ?_⟩
    rw [hremoves.refs, ih.2, Ledger.owed_erase_direct ledger c hmem]
  | pinRecursive _ hpin ih =>
    obtain ⟨trail, hnodup, htrail, hadds, -⟩ := pinRecursive_adds ih.1 hpin
    refine ⟨hadds.sound, fun c => ?_⟩
    rw [hadds.refs, ih.2, Ledger.owed_cons_recursive _ c hnodup htrail]
  | @unpinRecursive ledger m m' fuel root n _ hmem hunpin ih =>
    obtain ⟨-, trail, hnodup, htrail, hremoves⟩ := unpinRecursive_removes ih.1 hunpin
    refine ⟨hremoves.sound, fun c => ?_⟩
    rw [hremoves.refs, ih.2, Ledger.owed_erase_recursive ledger c hnodup htrail hmem]

/-- **The accounts of the pin manager.** Over a finite link graph, in every run that undoes only
outstanding pins: the reference count of a block is what it is owed, the block is pinned exactly
when that is positive, and the statistics are the numbers of entries. An outstanding pin can always
be undone, without a subtraction from 0, and a pin can be made as long as no block below it has all
the references a `u32` can count. -/
theorem Run.accounts (hfin : ∀ root, {c | Reaches links root c}.Finite) {ledger : Ledger}
    {m : PinManager} (h : Run links ledger m) :
    (∀ c, m.refs c = ledger.owed links c) ∧
    (∀ c, m.isPinned c = true ↔ 0 < ledger.owed links c) ∧
    m.stats = statsOf m.pins ∧
    (∀ c ∈ ledger.direct, ∃ m' removed, m.unpin c = (m', .ok removed)) ∧
    (∀ root ∈ ledger.recursive, ∃ fuel m' n,
      m.unpinRecursive (fun c => .ok (links c)) fuel root = some (m', .ok n)) ∧
    (∀ c now, ledger.owed links c + 1 < 2 ^ 32 → ∃ m', m.pin c now = .ok m') ∧
    ∀ root now, (∀ c, Reaches links root c → ledger.owed links c + 1 < 2 ^ 32) →
      ∃ fuel m' n, m.pinRecursive (fun c => .ok (links c)) fuel root now = some (m', .ok n) := by
  obtain ⟨hsound, hrefs⟩ := h.sound
  refine ⟨hrefs, fun c => ?_, hsound.stats, fun c _ => ?_, fun root _ => ?_,
    fun c now hroom => ?_, fun root now hroom => ?_⟩
  · rw [hsound.isPinned_iff, hrefs]
  · obtain ⟨m', removed, hunpin, -⟩ := exists_unpin hsound c
    exact ⟨m', removed, hunpin⟩
  · exact exists_unpinRecursive hsound (hfin root)
  · rw [← hrefs] at hroom
    exact exists_pinWithType hroom .direct none now
  · refine exists_pinRecursive hsound (hfin root) fun c hc => ?_
    rw [hrefs]
    exact hroom c hc

/-- CIDs to try things on. -/
def sampleCid (n : UInt8) : Cid := Cid.newV1 Codec.raw ⟨0x12, List.replicate 32 n, by simp⟩

/-- Block 1 links to block 2. -/
def sampleLinks (c : Cid) : List Cid := if c = sampleCid 1 then [sampleCid 2] else []

theorem Run.accounts_sampleLinks : ∃ m : PinManager, m.refs (sampleCid 2) =
    Ledger.owed { recursive := sampleCid 1 ::ₘ 0 } sampleLinks (sampleCid 2) := by
  have hfin : ∀ root, {c | Reaches sampleLinks root c}.Finite := by
    intro root
    refine ((Set.finite_singleton root).insert (sampleCid 2)).subset fun c hc => ?_
    induction hc with
    | refl => exact Or.inr rfl
    | @tail b c _ hedge _ =>
      unfold sampleLinks at hedge
      split at hedge
      · exact Or.inl (List.mem_singleton.mp hedge)
      · exact absurd hedge List.not_mem_nil
  have hroom : ∀ c, Reaches sampleLinks (sampleCid 1) c → PinManager.new.refs c + 1 < 2 ^ 32 := by
    intro c _
    change 0 + 1 < 2 ^ 32
    decide
  obtain ⟨fuel, m, n, hpin⟩ :=
    @exists_pinRecursive sampleLinks (sampleCid 1) .new (fun _ => 0) sound_new
      (hfin (sampleCid 1)) hroom
  exact ⟨m, (Run.accounts hfin (.pinRecursive .new hpin)).1 _⟩

end PinManager

end Ipfrs.Storage
