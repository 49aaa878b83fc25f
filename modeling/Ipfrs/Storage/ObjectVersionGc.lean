import Mathlib.Algebra.Order.BigOperators.Group.Finset
import Ipfrs.Lib.AssocMap
import Ipfrs.Lib.StackWalk
import Ipfrs.Storage.ObjectVersionStore

/-!
# Collecting versions

What `gc` of the `ObjectVersionStore` leaves, in every state that a store can come to.

* `reachableFromHeads_spec` — the search ends, with what is reachable from the branch heads;
* `kept_keepLast_iff` — a version is among the last ones when it is not below the threshold;
* `gc_spec` — what `gc` leaves, and `gc_keepLast_zero` — where it panics;
* `history_eq` — what is reachable decides the histories;
* `Accounts.step` — what every step of a run keeps;
* `gc_right_iff` — in every reachable state, `gc` does what it should unless it is to keep the last
  no versions of a store that has some.
-/

namespace Ipfrs.Storage

namespace ObjectVersionStore

open StackWalk

variable {s s' : ObjectVersionStore} {v w n : ℕ}

/-! ### Reachable versions -/

/-- Version `w` is the parent of version `v`. -/
def IsParent (s : ObjectVersionStore) (v w : ℕ) : Prop :=
  ∃ ver, s.versions.lookup v = some ver ∧ ver.parentVersion = some w

/-- A version that can be reached from the head of a branch. -/
def FromHead (s : ObjectVersionStore) (v : ℕ) : Prop :=
  ∃ name b, s.branches.lookup name = some b ∧ b.headVersion ≠ 0 ∧
    Relation.ReflTransGen s.IsParent b.headVersion v

theorem mem_parentsAt_iff : w ∈ parentsAt s.versions v ↔ s.IsParent v w := by
  rw [parentsAt, IsParent]
  cases s.versions.lookup v with
  | none => simp
  | some ver => simp

theorem mem_heads_iff : v ∈ s.heads ↔
    ∃ name b, s.branches.lookup name = some b ∧ b.headVersion ≠ 0 ∧ b.headVersion = v := by
  rw [heads, List.mem_filter, List.mem_map]
  constructor
  · rintro ⟨⟨⟨name, b⟩, hentry, rfl⟩, hne⟩
    exact ⟨name, b, AList.mem_lookup_iff.mpr hentry, by simpa using hne, rfl⟩
  · rintro ⟨name, b, hlookup, hne, rfl⟩
    exact ⟨⟨⟨name, b⟩, AList.mem_lookup_iff.mp hlookup, rfl⟩, by simpa using hne⟩

/-- One round of the search keeps the invariant of the walk and lowers its measure. -/
theorem reachStep_next {start queue trail queue' trail' : List ℕ}
    (hI : PopInv (parentsAt s.versions) start queue trail)
    (h : reachStep s.versions (queue, trail) = .inl (queue', trail')) :
    PopInv (parentsAt s.versions) start queue' trail' ∧
      popMeasure (parentsAt s.versions) s.versions.keys.toFinset trail'.toFinset queue' <
        popMeasure (parentsAt s.versions) s.versions.keys.toFinset trail.toFinset queue := by
  cases queue with
  | nil => cases h
  | cons v queue =>
    rw [reachStep] at h
    split at h
    · next hmem =>
      obtain ⟨rfl, rfl⟩ := Prod.mk.inj (Sum.inl.inj h)
      -- met before: the queue gets shorter
      refine ⟨hI.skip hmem, ?_⟩
      simp [popMeasure]
    · next hnew =>
      obtain ⟨rfl, rfl⟩ := Prod.mk.inj (Sum.inl.inj h)
      have hfin : (trail ++ [v]).toFinset = insert v trail.toFinset := by
        ext x
        simp
      refine ⟨(hI.visit hnew).congr fun y => by simp [or_comm], ?_⟩
      have hlen : (queue ++ parentsAt s.versions v).length
          = ((parentsAt s.versions v).reverse ++ queue).length := by
        simp [Nat.add_comm]
      rw [hfin]
      by_cases hlive : v ∈ s.versions.keys.toFinset
      · have hlt := @popMeasure_lt _ _ queue _ (parentsAt s.versions) trail.toFinset _ hlive
          fun h => hnew (List.mem_toFinset.mp h)
        rw [popMeasure, ← hlen] at hlt
        exact hlt
      · -- a version that is gone has no parent
        have hnone : parentsAt s.versions v = [] := by
          have hlookup : s.versions.lookup v = none :=
            AList.lookup_eq_none.mpr fun h => hlive (List.mem_toFinset.mpr h)
          rw [parentsAt, hlookup]
        have hsame : s.versions.keys.toFinset \ insert v trail.toFinset
            = s.versions.keys.toFinset \ trail.toFinset := by
          rw [Finset.sdiff_insert_of_notMem hlive]
        rw [popMeasure, popMeasure, hnone, hsame, List.append_nil, List.length_cons]
        exact Nat.lt_succ_self _

/-- **The search** ends, with what is reachable from the branch heads. -/
theorem reachableFromHeads_spec (s : ObjectVersionStore) :
    ∃ reachable, s.reachableFromHeads = .ok reachable ∧ ∀ v, v ∈ reachable ↔ s.FromHead v := by
  let m : List ℕ × List ℕ → ℕ := fun st =>
    popMeasure (parentsAt s.versions) s.versions.keys.toFinset st.2.toFinset st.1
  let I : List ℕ × List ℕ → Prop := fun st => PopInv (parentsAt s.versions) s.heads st.1 st.2
  have hI : I (s.heads, []) := PopInv.initial _ _
  obtain ⟨reachable, hrun⟩ := WhileLoop.run_of_measure I m
    (fun st st' hI h => reachStep_next hI h) hI
  -- a version has one parent at most
  have hbound : m (s.heads, []) + 1 ≤
      2 * s.versions.entries.length + s.branches.entries.length + 1 := by
    have hsum : ∑ x ∈ s.versions.keys.toFinset, ((parentsAt s.versions x).length + 1)
        ≤ ∑ _x ∈ s.versions.keys.toFinset, 2 := by
      refine Finset.sum_le_sum fun x _ => ?_
      rw [parentsAt]
      cases s.versions.lookup x with
      | none => simp
      | some ver => cases ver.parentVersion <;> simp
    have hcard := List.toFinset_card_le s.versions.keys
    have hkeys := AssocMap.length_keys s.versions
    have hheads : s.heads.length ≤ s.branches.entries.length :=
      (List.length_filter_le _ _).trans (by rw [List.length_map])
    rw [Finset.sum_const_nat fun _ _ => rfl] at hsum
    simp only [m, popMeasure, List.toFinset_nil, Finset.sdiff_empty]
    omega
  refine ⟨reachable, ?_, fun v => ?_⟩
  · rw [reachableFromHeads, WhileLoop.run_mono hbound hrun]
    rfl
  · have hinv := WhileLoop.run_inv I
      (fun reachable => PopInv (parentsAt s.versions) s.heads [] reachable)
      (fun st st' hI h => (reachStep_next hI h).1) (fun st r hI h => ?_) hI hrun
    · rw [hinv.mem_trail_iff]
      simp only [mem_parentsAt_iff, mem_heads_iff]
      constructor
      · rintro ⟨_, ⟨name, b, hlookup, hne, rfl⟩, hpath⟩
        exact ⟨name, b, hlookup, hne, hpath⟩
      · rintro ⟨name, b, hlookup, hne, hpath⟩
        exact ⟨_, ⟨name, b, hlookup, hne, rfl⟩, hpath⟩
    · obtain ⟨queue, trail⟩ := st
      cases queue with
      | nil =>
        obtain rfl := Sum.inr.inj h
        exact hI
      | cons v queue =>
        rw [reachStep] at h
        split at h
        · cases h
        · cases h

/-! ### Histories -/

variable {versions : AList fun _ : ℕ => OvsObjectVersion}

/-- The walk goes on from a live version that it has not been at. -/
theorem historyStep_eq_inl {st st' : Option ℕ × List ℕ × List OvsObjectVersion}
    (h : historyStep versions st = .inl st') :
    ∃ v ver, st.1 = some v ∧ v ∉ st.2.1 ∧ versions.lookup v = some ver ∧
      st' = (ver.parentVersion, v :: st.2.1, st.2.2 ++ [ver]) := by
  obtain ⟨current, visited, result⟩ := st
  cases current with
  | none => cases h
  | some v =>
    rw [historyStep] at h
    split at h
    · cases h
    next hnew =>
    cases hlookup : versions.lookup v with
    | none =>
      rw [hlookup] at h
      cases h
    | some ver =>
      rw [hlookup] at h
      exact ⟨v, ver, rfl, hnew, hlookup, (Sum.inl.inj h).symm⟩

theorem exists_history {branch : String} {head : ℕ} (h : s.branchHead branch = some head) :
    ∃ result, s.history branch = .ok result ∧
      WhileLoop.Returns (historyStep s.versions) (if head = 0 then none else some head, [], [])
        result := by
  let m : Option ℕ × List ℕ × List OvsObjectVersion → ℕ := fun st =>
    (s.versions.keys.toFinset \ st.2.1.toFinset).card
  have hnext : ∀ st st', True → historyStep s.versions st = .inl st' → True ∧ m st' < m st := by
    intro st st' _ hstep
    obtain ⟨v, ver, -, hnew, hlookup, rfl⟩ := historyStep_eq_inl hstep
    have hmem : v ∈ s.versions.keys.toFinset \ st.2.1.toFinset := by
      refine Finset.mem_sdiff.mpr ⟨List.mem_toFinset.mpr ?_, fun h => ?_⟩
      · exact AList.mem_keys.mp (AssocMap.mem_of_lookup hlookup)
      · exact hnew (List.mem_toFinset.mp h)
    refine ⟨trivial, ?_⟩
    show (s.versions.keys.toFinset \ (v :: st.2.1).toFinset).card < _
    rw [List.toFinset_cons, Finset.sdiff_insert]
    exact Finset.card_erase_lt_of_mem hmem
  obtain ⟨result, hrun⟩ := WhileLoop.run_of_measure (fun _ => True) m hnext
    (s := (if head = 0 then none else some head, [], [])) trivial
  have hbound : m (if head = 0 then none else some head, [], []) + 1
      ≤ s.versions.entries.length + 1 := by
    have hcard := List.toFinset_card_le s.versions.keys
    have hkeys := AssocMap.length_keys s.versions
    simp only [m, List.toFinset_nil, Finset.sdiff_empty]
    omega
  refine ⟨result, ?_, _, hrun⟩
  rw [history, h]
  dsimp only
  rw [WhileLoop.run_mono hbound hrun]
  rfl

theorem historyStep_congr {versions' : AList fun _ : ℕ => OvsObjectVersion}
    {st : Option ℕ × List ℕ × List OvsObjectVersion}
    (h : ∀ v ∈ st.1, versions'.lookup v = versions.lookup v) :
    historyStep versions' st = historyStep versions st := by
  obtain ⟨current, visited, result⟩ := st
  cases current with
  | none => rfl
  | some v => rw [historyStep, historyStep, h v rfl]

/-- **Histories** are the same in two stores with the same branches that agree on what can be
reached from them. -/
theorem history_eq (hbranches : s'.branches = s.branches)
    (hagree : ∀ v, s.FromHead v → s'.versions.lookup v = s.versions.lookup v) (branch : String) :
    s'.history branch = s.history branch := by
  have hhead : s'.branchHead branch = s.branchHead branch := by
    rw [branchHead, branchHead, hbranches]
  cases hcase : s.branchHead branch with
  | none => rw [history, history, hhead, hcase]
  | some head =>
    obtain ⟨result, hresult, hreturns⟩ := exists_history hcase
    obtain ⟨result', hresult', hreturns'⟩ := exists_history (hhead.trans hcase)
    -- both walks go through versions that can be reached
    let R : Option ℕ × List ℕ × List OvsObjectVersion →
        Option ℕ × List ℕ × List OvsObjectVersion → Prop :=
      fun st st' => st' = st ∧ ∀ v ∈ st.1, s.FromHead v
    have hstart : R (if head = 0 then none else some head, [], [])
        (if head = 0 then none else some head, [], []) := by
      refine ⟨rfl, fun v hv => ?_⟩
      split at hv
      · cases hv
      · next hne =>
        obtain rfl := Option.some.inj hv
        obtain ⟨b, hlookup, rfl⟩ := Option.map_eq_some_iff.mp hcase
        exact ⟨branch, b, hlookup, hne, .refl⟩
    have hsame : ∀ {st}, (∀ v ∈ st.1, s.FromHead v) →
        historyStep s'.versions st = historyStep s.versions st :=
      fun hfrom => historyStep_congr fun v hv => hagree v (hfrom v hv)
    have hnext : ∀ st st₁ st', R st st₁ → historyStep s.versions st = .inl st' →
        ∃ st₁', historyStep s'.versions st₁ = .inl st₁' ∧ R st' st₁' := by
      rintro st st₁ st' ⟨rfl, hfrom⟩ hstep
      refine ⟨st', (hsame hfrom).trans hstep, rfl, fun w hw => ?_⟩
      obtain ⟨v, ver, hv, -, hlookup, rfl⟩ := historyStep_eq_inl hstep
      obtain ⟨name, b, hb, hne, hpath⟩ := hfrom v hv
      exact ⟨name, b, hb, hne, hpath.tail ⟨ver, hlookup, hw⟩⟩
    have hdone : ∀ st st₁ r, R st st₁ → historyStep s.versions st = .inr r →
        ∃ r', historyStep s'.versions st₁ = .inr r' ∧ r = r' := by
      rintro st st₁ r ⟨rfl, hfrom⟩ hstep
      exact ⟨r, (hsame hfrom).trans hstep, rfl⟩
    obtain ⟨_, hreturns'', rfl⟩ :=
      WhileLoop.Returns.simulate R (fun r r' => r = r') hnext hdone hstart hreturns
    rw [hresult, hresult', hreturns'.unique hreturns'']

/-! ### Removal -/

/-- The sum of the sizes of the live versions. -/
def liveBytes (s : ObjectVersionStore) : ℕ := AssocMap.sum OvsObjectVersion.sizeBytes s.versions

/-- What the accounts of a store say, at every moment of a run. -/
structure Accounts (s : ObjectVersionStore) : Prop where
  total : s.totalBytes = s.liveBytes
  count : s.deletedVersions + s.versions.entries.length + 1 = s.nextVersion
  next_lt : s.nextVersion < 2 ^ 64
  fresh : ∀ v ver, s.versions.lookup v = some ver → ver.version = v ∧ v < s.nextVersion

/-- **What the loop of `remove_versions` does.** -/
theorem foldl_removeStep (toDelete : List ℕ) (count : ℕ) (htotal : s.totalBytes = s.liveBytes) :
    ∃ versions count', toDelete.foldl removeStep (s, count)
        = ({ s with versions, totalBytes := AssocMap.sum OvsObjectVersion.sizeBytes versions },
            count') ∧
      (∀ v, versions.lookup v = if v ∈ toDelete then none else s.versions.lookup v) ∧
      count' + versions.entries.length = count + s.versions.entries.length := by
  induction toDelete generalizing s count with
  | nil =>
    refine ⟨s.versions, count, ?_, by simp, rfl⟩
    rw [List.foldl_nil, ← liveBytes, ← htotal]
  | cons v toDelete ih =>
    rw [List.foldl_cons]
    cases hlookup : s.versions.lookup v with
    | none =>
      have hstep : removeStep (s, count) v = (s, count) := by
        rw [removeStep]
        dsimp only
        rw [hlookup]
      -- a version that is not there, or is listed twice, is passed over
      obtain ⟨versions, count', hfold, hversions, hcount⟩ := ih count htotal
      refine ⟨versions, count', by rw [hstep, hfold], fun w => ?_, hcount⟩
      rw [hversions]
      by_cases hw : w = v
      · subst hw
        simp [hlookup]
      · simp [hw]
    | some ov =>
      let s₁ : ObjectVersionStore :=
        { s with versions := s.versions.erase v, totalBytes := s.totalBytes - ov.sizeBytes }
      have hstep : removeStep (s, count) v = (s₁, count + 1) := by
        rw [removeStep]
        dsimp only
        rw [hlookup]
      have htotal₁ : s₁.totalBytes = s₁.liveBytes := by
        show s.totalBytes - ov.sizeBytes = AssocMap.sum _ (s.versions.erase v)
        rw [htotal, liveBytes, AssocMap.sum_erase _ hlookup, Nat.add_sub_cancel_left]
      obtain ⟨versions, count', hfold, hversions, hcount⟩ := ih (count + 1) htotal₁
      refine ⟨versions, count', by rw [hstep, hfold], fun w => ?_, ?_⟩
      · rw [hversions]
        by_cases hw : w = v
        · subst hw
          simp [s₁, AList.lookup_erase]
        · simp [s₁, hw, AList.lookup_erase_ne hw]
      · have hlen : s.versions.entries.length = s₁.versions.entries.length + 1 :=
          AssocMap.length_erase hlookup
        omega

/-- **Removing versions** keeps the accounts, and cannot overflow. -/
theorem removeVersions_spec (hI : s.Accounts) (toDelete : List ℕ) :
    ∃ s' count, s.removeVersions toDelete = .ok (s', count) ∧
      (∀ v, s'.versions.lookup v = if v ∈ toDelete then none else s.versions.lookup v) ∧
      s'.config = s.config ∧ s'.branches = s.branches ∧ s'.Accounts := by
  obtain ⟨versions, count, hfold, hversions, hcount⟩ := foldl_removeStep toDelete 0 hI.total
  have hlt := hI.next_lt
  have hbefore := hI.count
  -- every version that is gone or there has had its own number, which fits in 64 bits
  have hadd : addCounter s.deletedVersions count = .ok (s.deletedVersions + count) :=
    if_pos (by omega)
  let s' : ObjectVersionStore :=
    { s with
      versions
      totalBytes := AssocMap.sum OvsObjectVersion.sizeBytes versions
      deletedVersions := s.deletedVersions + count }
  have hremove : s.removeVersions toDelete = .ok (s', count) := by
    rw [removeVersions, hfold]
    dsimp only
    rw [hadd]
    rfl
  refine ⟨s', count, hremove, hversions, rfl, rfl, rfl, ?_, hlt, fun v ver h => ?_⟩
  · show s.deletedVersions + count + versions.entries.length + 1 = s.nextVersion
    omega
  · have h : versions.lookup v = some ver := h
    rw [hversions] at h
    split at h
    · cases h
    · exact hI.fresh v ver h

/-! ### Collection -/

/-- A version that the policy keeps: for `KeepLast`, one of the highest. -/
def Kept (s : ObjectVersionStore) (v : ℕ) : Prop :=
  match s.config.gcPolicy with
  | .keepAll => True
  | .keepLast n => (s.versions.keys.filter fun w => v < w).length < n
  | .keepSince t => ∃ ver, s.versions.lookup v = some ver ∧ t ≤ ver.createdAt
  | .keepTagged => ∃ ver, s.versions.lookup v = some ver ∧ ver.tags ≠ []

/-- What a collection leaves: the live versions that are reachable or kept. -/
structure Collected (s s' : ObjectVersionStore) : Prop where
  survivors : ∀ v ver, s'.versions.lookup v = some ver ↔
    s.versions.lookup v = some ver ∧ (s.FromHead v ∨ s.Kept v)
  config : s'.config = s.config
  branches : s'.branches = s.branches
  accounts : s'.Accounts

/-- Removing the live versions that are neither reachable nor kept. -/
theorem collected_of_remove (hI : s.Accounts) {toDelete : List ℕ}
    (h : ∀ v ver, s.versions.lookup v = some ver →
      (v ∈ toDelete ↔ ¬ s.FromHead v ∧ ¬ s.Kept v)) :
    ∃ s' count, s.removeVersions toDelete = .ok (s', count) ∧ s.Collected s' := by
  obtain ⟨s', count, hremove, hlookup, hconfig, hbranches, hI'⟩ := removeVersions_spec hI toDelete
  refine ⟨s', count, hremove, ⟨fun v ver => ?_, hconfig, hbranches, hI'⟩⟩
  rw [hlookup]
  split
  · next hmem =>
    refine iff_of_false (by simp) ?_
    rintro ⟨hlive, hkeep⟩
    obtain ⟨hfrom, hkept⟩ := (h v ver hlive).mp hmem
    exact hkeep.elim hfrom hkept
  · next hnot =>
    refine ⟨fun hlive => ⟨hlive, ?_⟩, And.left⟩
    have hiff := (h v ver hlive).not.mp hnot
    rwa [not_and_or, not_not, not_not] at hiff

theorem mem_keys_iff : v ∈ s.versions.keys ↔ ∃ ver, s.versions.lookup v = some ver := by
  rw [← AList.mem_keys, ← AList.lookup_isSome, Option.isSome_iff_exists]

theorem mem_filter_entries_iff (p : OvsObjectVersion → ℕ → Prop) [∀ ver v, Decidable (p ver v)]
    {ver : OvsObjectVersion} (hlive : s.versions.lookup v = some ver) :
    v ∈ (s.versions.entries.filter fun entry => p entry.2 entry.1).map Sigma.fst ↔ p ver v := by
  rw [List.mem_map]
  constructor
  · rintro ⟨⟨w, ver'⟩, hentry, rfl⟩
    obtain ⟨hentry, hp⟩ := List.mem_filter.mp hentry
    have hlookup := AList.mem_lookup_iff.mpr hentry
    rw [Option.mem_def, hlive] at hlookup
    obtain rfl := Option.some.inj hlookup
    exact of_decide_eq_true hp
  · intro hp
    exact ⟨⟨v, ver⟩, List.mem_filter.mpr ⟨AList.mem_lookup_iff.mp hlive, decide_eq_true hp⟩, rfl⟩

theorem sorted_keys (s : ObjectVersionStore) :
    (sortUnstable s.versions.keys).Pairwise (· < ·) ∧
      (sortUnstable s.versions.keys).Perm s.versions.keys := by
  have hperm : (sortUnstable s.versions.keys).Perm s.versions.keys := StableSort.sortBy_perm _ _
  have hnodup := hperm.nodup_iff.mpr s.versions.keys_nodup
  have hsorted := StableSort.pairwise_sortBy id s.versions.keys
  exact ⟨(hsorted.and hnodup).imp fun h => lt_of_le_of_ne h.1 h.2, hperm⟩

/-- A live version is among the last `n` unless there are more, and it is below the first of the
last `n`. -/
theorem kept_keepLast_iff {n : ℕ} (hpolicy : s.config.gcPolicy = .keepLast n)
    (hmany : n < (sortUnstable s.versions.keys).length) (hpos : 0 < n) {threshold : ℕ}
    (hget : (sortUnstable s.versions.keys)[(sortUnstable s.versions.keys).length - n]?
      = some threshold) : s.Kept v ↔ ¬ v < threshold := by
  obtain ⟨hstrict, hperm⟩ := s.sorted_keys
  rw [Kept, hpolicy, StableSort.lt_iff_le_length_filter hstrict hpos hmany.le hget,
    (hperm.filter _).length_eq, not_le]

/-- Of at most `n` live versions, fewer than `n` are above any of them. -/
theorem kept_of_few {n : ℕ} (hpolicy : s.config.gcPolicy = .keepLast n)
    (hfew : (sortUnstable s.versions.keys).length ≤ n) (hv : v ∈ s.versions.keys) :
    s.Kept v := by
  have hfewer : (s.versions.keys.filter fun w => v < w).length < s.versions.keys.length := by
    rw [List.length_filter_lt_length_iff_exists]
    exact ⟨v, hv, by simp⟩
  rw [s.sorted_keys.2.length_eq] at hfew
  rw [Kept, hpolicy]
  exact hfewer.trans_le hfew

theorem mem_candidates_iff {reachable : List ℕ} (hmem : ∀ v, v ∈ reachable ↔ s.FromHead v)
    (v threshold : ℕ) :
    v ∈ (sortUnstable (s.versions.keys.filter fun v => v ∉ reachable)).filter
      (fun v => v < threshold) ↔ (v ∈ s.versions.keys ∧ ¬ s.FromHead v) ∧ v < threshold := by
  rw [List.mem_filter, sortUnstable, (StableSort.sortBy_perm id _).mem_iff, List.mem_filter,
    ← hmem]
  simp

/-- **The collection** leaves the versions that are reachable or kept, unless it is to keep the last
no versions of some. -/
theorem gc_spec (hI : s.Accounts)
    (h : s.config.gcPolicy ≠ .keepLast 0 ∨ s.versions.entries = []) :
    ∃ s' count, s.gc = .ok (s', count) ∧ s.Collected s' := by
  obtain ⟨reachable, hreach, hmem⟩ := s.reachableFromHeads_spec
  rw [gc]
  cases hpolicy : s.config.gcPolicy with
  | keepAll =>
    refine ⟨s, 0, rfl, ⟨fun v ver => ⟨fun hlive => ⟨hlive, .inr ?_⟩, And.left⟩, rfl, rfl, hI⟩⟩
    rw [Kept, hpolicy]
    trivial
  -- the other policies remove candidates, which are not reachable
  | keepLast n =>
    dsimp only
    rw [hreach, Except.ok_bind]
    by_cases hmany : (sortUnstable s.versions.keys).length > n
    · rw [if_pos hmany]
      have hpos : 0 < n := by
        obtain hne | hempty := h
        · rw [hpolicy] at hne
          exact Nat.pos_of_ne_zero fun hzero => hne (hzero ▸ rfl)
        · rw [s.sorted_keys.2.length_eq, AList.keys, hempty] at hmany
          exact absurd hmany (Nat.not_lt_zero n)
      have hin : (sortUnstable s.versions.keys).length - n
          < (sortUnstable s.versions.keys).length := by omega
      have hget := List.getElem?_eq_getElem hin
      simp only [hget, Except.ok_bind]
      refine collected_of_remove hI fun v ver hlive => ?_
      rw [mem_candidates_iff hmem, kept_keepLast_iff hpolicy hmany hpos hget, not_not]
      exact and_congr_left fun _ => and_iff_right (mem_keys_iff.mpr ⟨ver, hlive⟩)
    · rw [if_neg hmany, Except.ok_bind]
      refine collected_of_remove hI fun v ver hlive => ?_
      have hkept := kept_of_few hpolicy (not_lt.mp hmany) (mem_keys_iff.mpr ⟨ver, hlive⟩)
      rw [mem_candidates_iff hmem]
      exact iff_of_false (fun h => Nat.not_lt_zero v h.2) fun h => h.2 hkept
  | keepSince t =>
    dsimp only
    rw [hreach, Except.ok_bind]
    refine collected_of_remove hI fun v ver hlive => ?_
    rw [mem_filter_entries_iff (fun ver v => ver.createdAt < t ∧ v ∉ reachable) hlive, Kept,
      hpolicy, hmem, and_comm]
    simp [hlive]
  | keepTagged =>
    dsimp only
    rw [hreach, Except.ok_bind]
    refine collected_of_remove hI fun v ver hlive => ?_
    rw [mem_filter_entries_iff (fun ver v => ver.tags = [] ∧ v ∉ reachable) hlive, Kept, hpolicy,
      hmem, and_comm]
    simp [hlive]

/-- **It panics** when it is to keep the last no versions of some. -/
theorem gc_keepLast_zero (hpolicy : s.config.gcPolicy = .keepLast 0)
    (hne : s.versions.entries ≠ []) : s.gc = .error (.panic "index out of bounds") := by
  obtain ⟨reachable, hreach, -⟩ := s.reachableFromHeads_spec
  have hlen : (sortUnstable s.versions.keys).length = s.versions.entries.length := by
    rw [s.sorted_keys.2.length_eq, AssocMap.length_keys]
  have hpos := List.length_pos_of_ne_nil hne
  have hnone : (sortUnstable s.versions.keys)[(sortUnstable s.versions.keys).length - 0]? = none :=
    List.getElem?_eq_none_iff.mpr le_rfl
  rw [gc, hpolicy]
  dsimp only
  rw [hreach, Except.ok_bind]
  rw [if_pos (by omega), hnone]
  rfl

theorem collected_of_gc (hI : s.Accounts) {count : ℕ} (h : s.gc = .ok (s', count)) :
    s.Collected s' := by
  by_cases hbad : s.config.gcPolicy = .keepLast 0 ∧ s.versions.entries ≠ []
  · rw [gc_keepLast_zero hbad.1 hbad.2] at h
    cases h
  · rw [not_and_or, not_not] at hbad
    obtain ⟨s₁, count₁, hgc, hcollected⟩ := gc_spec hI hbad
    rw [h] at hgc
    obtain ⟨rfl, -⟩ := Prod.mk.inj (Except.ok.inj hgc)
    exact hcollected

/-! ### Runs -/

namespace Accounts

theorem new (config : VersionStoreConfig) : (ObjectVersionStore.new config).Accounts where
  total := rfl
  count := rfl
  next_lt := by
    show 1 < 2 ^ 64
    decide
  fresh v ver h := by cases h

theorem of_branches (hI : s.Accounts) (branches : AList fun _ : String => VersionBranch) :
    Accounts { s with branches } :=
  ⟨hI.total, hI.count, hI.next_lt, hI.fresh⟩

theorem setBranchHead (hI : s.Accounts) (branch : String) (version : ℕ) :
    (s.setBranchHead branch version).Accounts := by
  rw [ObjectVersionStore.setBranchHead]
  cases s.branches.lookup branch with
  | none => exact hI
  | some b => exact hI.of_branches _

theorem gcWhenFull (hI : s.Accounts) (h : s.gcWhenFull = .ok s') : s'.Accounts := by
  unfold ObjectVersionStore.gcWhenFull at h
  split at h
  · obtain ⟨⟨s₁, count⟩, hgc, rfl⟩ := Except.map_eq_ok_iff.mp h
    exact (collected_of_gc hI hgc).accounts
  · obtain rfl := Except.ok.inj h
    exact hI

variable {data : Bytes} {tags : List String} {now version : ℕ}

/-- **A version is inserted** under a number that no version has had. -/
theorem insertVersion (hI : s.Accounts) {parent : Option ℕ}
    (h : s.insertVersion data tags parent now = .ok (s', version)) : s'.Accounts := by
  obtain ⟨next, hnext, h⟩ := Except.bind_eq_ok_iff.mp h
  obtain ⟨total, htotal, h⟩ := Except.bind_eq_ok_iff.mp h
  obtain ⟨rfl, rfl⟩ := Prod.mk.inj (Except.ok.inj h)
  unfold addCounter at hnext htotal
  split at hnext
  · next hlt =>
    obtain rfl := Except.ok.inj hnext
    split at htotal
    · obtain rfl := Except.ok.inj htotal
      have hnone : s.versions.lookup s.nextVersion = none := by
        cases hcase : s.versions.lookup s.nextVersion with
        | none => rfl
        | some ver => exact absurd (hI.fresh _ ver hcase).2 (lt_irrefl _)
      have herase := AssocMap.erase_of_lookup_eq_none hnone
      refine ⟨?_, ?_, hlt, fun v ver hv => ?_⟩
      · show s.totalBytes + data.length = AssocMap.sum _ (s.versions.insert _ _)
        rw [AssocMap.sum_insert, herase, hI.total, liveBytes, Nat.add_comm]
      · show s.deletedVersions + (s.versions.insert _ _).entries.length + 1 = s.nextVersion + 1
        rw [AssocMap.length_insert, herase, ← Nat.add_assoc, hI.count]
      · obtain ⟨rfl, rfl⟩ | ⟨-, hold⟩ := AssocMap.lookup_insert_eq_some.mp hv
        · exact ⟨rfl, Nat.lt_succ_self _⟩
        · obtain ⟨hversion, hlt⟩ := hI.fresh v ver hold
          exact ⟨hversion, Nat.lt_succ_of_lt hlt⟩
    · cases htotal
  · cases hnext

/-- What `put`, `put_on_branch` and `merge_branch` have in common. -/
theorem inserted (hI : s.Accounts) {parent : ObjectVersionStore → Option ℕ} {branch : String}
    (h : (do
      let s ← s.gcWhenFull
      let (s, version) ← s.insertVersion data tags (parent s) now
      return (s.setBranchHead branch version, version)) = .ok (s', version)) : s'.Accounts := by
  obtain ⟨s₁, hgc, h⟩ := Except.bind_eq_ok_iff.mp h
  obtain ⟨⟨s₂, version⟩, hinsert, h⟩ := Except.bind_eq_ok_iff.mp h
  obtain ⟨rfl, -⟩ := Prod.mk.inj (Except.ok.inj h)
  exact ((hI.gcWhenFull hgc).insertVersion hinsert).setBranchHead _ _

/-- **Every step** keeps the accounts. -/
theorem step (hI : s.Accounts) (h : Step s s') : s'.Accounts := by
  cases h with
  | put h =>
    exact hI.inserted h
  | putOnBranch h =>
    unfold ObjectVersionStore.putOnBranch at h
    split at h
    · cases h
    exact hI.inserted h
  | createBranch h =>
    unfold ObjectVersionStore.createBranch at h
    split at h
    · cases h
    split at h
    · cases h
    split at h
    · cases h
    obtain rfl := Except.ok.inj h
    exact hI.of_branches _
  | mergeBranch h =>
    unfold ObjectVersionStore.mergeBranch at h
    split at h
    · cases h
    split at h
    · cases h
    split at h
    · cases h
    exact hI.inserted h
  | gc h => exact (collected_of_gc hI h).accounts
  | reorder hversions hbranches =>
    refine ⟨?_, ?_, hI.next_lt, fun v ver h => hI.fresh v ver ?_⟩
    · exact hI.total.trans (AssocMap.sum_perm hversions).symm
    · have hlen := hversions.length_eq
      have hcount := hI.count
      show s.deletedVersions + _ + 1 = s.nextVersion
      rw [hlen, hcount]
    · rwa [← AList.perm_lookup hversions]

theorem of_reachable {config : VersionStoreConfig} (h : Reachable config s) : s.Accounts := by
  induction h with
  | refl => exact .new config
  | tail _ hstep ih => exact ih.step hstep

end Accounts

/-- What a collection promises. -/
structure GcRight (s : ObjectVersionStore) : Prop where
  ends : ∃ s' count, s.gc = .ok (s', count)
  survivors : ∀ s' count, s.gc = .ok (s', count) → ∀ v ver, s'.versions.lookup v = some ver ↔
    s.versions.lookup v = some ver ∧ (s.FromHead v ∨ s.Kept v)
  historyEnds : ∀ branch ∈ s.branches, ∃ result, s.history branch = .ok result
  history : ∀ s' count, s.gc = .ok (s', count) → ∀ branch, s'.history branch = s.history branch
  totalBytes : ∀ s' count, s.gc = .ok (s', count) → s'.totalBytes = s'.liveBytes

/-- **In every reachable state** the total is right, and the collection does what it should unless
it is to keep the last no versions of some. -/
theorem gc_right_iff {config : VersionStoreConfig} (h : Reachable config s) :
    s.totalBytes = s.liveBytes ∧
      (s.GcRight ↔ s.config.gcPolicy ≠ .keepLast 0 ∨ s.versions.entries = []) := by
  have hI := Accounts.of_reachable h
  refine ⟨hI.total, fun hright => ?_, fun hcond => ?_⟩
  · by_contra hbad
    rw [not_or, not_not] at hbad
    obtain ⟨s', count, hgc⟩ := hright.ends
    rw [gc_keepLast_zero hbad.1 hbad.2] at hgc
    cases hgc
  · obtain ⟨s', count, hgc, -⟩ := gc_spec hI hcond
    refine ⟨⟨s', count, hgc⟩, fun s₁ count₁ h₁ => (collected_of_gc hI h₁).survivors,
      fun branch hbranch => ?_, fun s₁ count₁ h₁ branch => ?_,
      fun s₁ count₁ h₁ => (collected_of_gc hI h₁).accounts.total⟩
    · obtain ⟨b, hb⟩ := Option.isSome_iff_exists.mp (AList.lookup_isSome.mpr hbranch)
      have hhead : s.branchHead branch = some b.headVersion := by
        rw [branchHead, hb]
        rfl
      obtain ⟨result, hresult, -⟩ := exists_history hhead
      exact ⟨result, hresult⟩
    · have hcollected := collected_of_gc hI h₁
      refine history_eq hcollected.branches (fun v hfrom => ?_) branch
      -- what is reachable survives, and what is gone does not come back
      refine Option.ext fun ver => ?_
      rw [hcollected.survivors]
      exact and_iff_left (.inl hfrom)

/-- Two branches that part at version 1 are merged: version 3 loses its place on `main`. -/
def mergedStore : Except VsFault ObjectVersionStore := do
  let (s, _) ← (new { gcPolicy := .keepLast 1 }).put [1] [] 5
  let s ← s.createBranch "dev" 1 6
  let (s, _) ← s.putOnBranch "dev" [2, 2] ["v2"] 7
  let (s, _) ← s.put [3] [] 8
  let (s, _) ← s.mergeBranch "dev" "main" 9
  return s

theorem gc_right_mergedStore : ∃ s s', mergedStore = .ok s ∧ s.gc = .ok (s', 1) ∧
    s'.versions.keys = [4, 2, 1] ∧ s.GcRight := by
  have hreach : ∀ s, mergedStore = .ok s → Reachable { gcPolicy := .keepLast 1 } s ∧
      s.config.gcPolicy = .keepLast 1 := by
    intro s hrun
    refine ⟨?_, by cases hrun; rfl⟩
    obtain ⟨⟨s₁, _⟩, h₁, hrun⟩ := Except.bind_eq_ok_iff.mp hrun
    obtain ⟨s₂, h₂, hrun⟩ := Except.bind_eq_ok_iff.mp hrun
    obtain ⟨⟨s₃, _⟩, h₃, hrun⟩ := Except.bind_eq_ok_iff.mp hrun
    obtain ⟨⟨s₄, _⟩, h₄, hrun⟩ := Except.bind_eq_ok_iff.mp hrun
    obtain ⟨⟨s₅, _⟩, h₅, hrun⟩ := Except.bind_eq_ok_iff.mp hrun
    obtain rfl := Except.ok.inj hrun
    exact .head (.put h₁) (.head (.createBranch h₂) (.head (.putOnBranch h₃)
      (.head (.put h₄) (.single (.mergeBranch h₅)))))
  have hrun : mergedStore = .ok _ := rfl
  obtain ⟨hreachable, hpolicy⟩ := hreach _ hrun
  refine ⟨_, _, hrun, rfl, rfl, (gc_right_iff hreachable).2.mpr (.inl ?_)⟩
  rw [hpolicy]
  decide

theorem not_gc_right :
    ∃ s version, (new { gcPolicy := .keepLast 0 }).put [1] [] 5 = .ok (s, version) ∧
      s.gc = .error (.panic "index out of bounds") :=
  ⟨_, _, rfl, gc_keepLast_zero rfl (by decide)⟩

end ObjectVersionStore

end Ipfrs.Storage
