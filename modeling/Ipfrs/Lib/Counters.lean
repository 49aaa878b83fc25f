import Mathlib.Data.List.AList
import Mathlib.Data.List.Perm.Subperm
import Mathlib.Order.Bounds.Basic

/-!
# Maps of counters

A map from keys to numbers, in which a missing key counts as 0 (`count`). What such a map is for is
the function `count m` alone, under the pointwise order of `α → ℕ`:

* `count_le_count_iff` and `count_lt_count_iff`: both orders, read off the entries of the two maps;
* `count_join`: raising every counter of one map to that of another one gives the supremum;
* `sameEntries_iff`: two maps have the same entries when every key is looked up alike in both;
* `NoZeros.sameEntries_iff`: without entries that are 0 these are the maps with the same function.
-/

namespace Counters

variable {α β : Type*} [DecidableEq α] {m m' : AList fun _ : α => ℕ} {a a' : α} {k : ℕ}
  {es : List (Sigma fun _ : α => ℕ)}

/-- The counter of a key. -/
def count (m : AList fun _ : α => ℕ) (a : α) : ℕ := (m.lookup a).getD 0

/-! ### Reading a map -/

theorem count_of_lookup (h : m.lookup a = some k) : count m a = k := by
  rw [count, h, Option.getD_some]

theorem count_of_lookup_eq_none (h : m.lookup a = none) : count m a = 0 := by
  rw [count, h, Option.getD_none]

theorem count_of_mem_entries {e : Sigma fun _ : α => ℕ} (h : e ∈ m.entries) :
    count m e.1 = e.2 :=
  count_of_lookup (AList.mem_lookup_iff.mpr h)

theorem mem_entries_of_lookup (h : m.lookup a = some k) :
    (⟨a, k⟩ : Sigma fun _ : α => ℕ) ∈ m.entries :=
  AList.mem_lookup_iff.mp h

theorem count_insert (m : AList fun _ : α => ℕ) (a : α) (k : ℕ) :
    count (m.insert a k) = Function.update (count m) a k := by
  funext a'
  by_cases ha : a' = a
  · subst ha
    rw [Function.update_self, count, AList.lookup_insert, Option.getD_some]
  · rw [Function.update_of_ne ha, count, AList.lookup_insert_ne ha, count]

/-! ### The pointwise order -/

theorem count_le_count_iff : count m ≤ count m' ↔ ∀ e ∈ m.entries, e.2 ≤ count m' e.1 := by
  constructor
  · intro h e he
    rw [← count_of_mem_entries he]
    exact h e.1
  · intro h a
    cases ha : m.lookup a with
    | none =>
      rw [count_of_lookup_eq_none ha]
      exact Nat.zero_le _
    | some k =>
      rw [count_of_lookup ha]
      exact h ⟨a, k⟩ (mem_entries_of_lookup ha)

/-- A key that is strictly smaller has an entry in the first map, or one in the second alone. -/
theorem exists_count_lt_count_iff :
    (∃ a, count m a < count m' a) ↔ (∃ e ∈ m.entries, e.2 < count m' e.1) ∨
      ∃ e ∈ m'.entries, m.lookup e.1 = none ∧ 0 < e.2 := by
  constructor
  · rintro ⟨a, ha⟩
    cases hm : m.lookup a with
    | some k =>
      rw [count_of_lookup hm] at ha
      exact Or.inl ⟨⟨a, k⟩, mem_entries_of_lookup hm, ha⟩
    | none =>
      -- an absent entry counts as 0
      rw [count_of_lookup_eq_none hm] at ha
      cases hm' : m'.lookup a with
      | none =>
        rw [count_of_lookup_eq_none hm'] at ha
        exact absurd ha (Nat.lt_irrefl 0)
      | some k =>
        rw [count_of_lookup hm'] at ha
        exact Or.inr ⟨⟨a, k⟩, mem_entries_of_lookup hm', hm, ha⟩
  · rintro (⟨e, he, hlt⟩ | ⟨e, he, hnone, hpos⟩)
    · rw [← count_of_mem_entries he] at hlt
      exact ⟨e.1, hlt⟩
    · refine ⟨e.1, ?_⟩
      rw [count_of_lookup_eq_none hnone, count_of_mem_entries he]
      exact hpos

theorem count_lt_count_iff :
    count m < count m' ↔ (∀ e ∈ m.entries, e.2 ≤ count m' e.1) ∧
      ((∃ e ∈ m.entries, e.2 < count m' e.1) ∨
        ∃ e ∈ m'.entries, m.lookup e.1 = none ∧ 0 < e.2) := by
  rw [Pi.lt_def, count_le_count_iff, exists_count_lt_count_iff]

/-! ### The supremum -/

/-- The counter of one key is raised to that of an entry. -/
def raise (m : AList fun _ : α => ℕ) (e : Sigma fun _ : α => ℕ) : AList fun _ : α => ℕ :=
  m.insert e.1 (max (count m e.1) e.2)

/-- All counters are raised to those of another map. -/
def join (m m' : AList fun _ : α => ℕ) : AList fun _ : α => ℕ := m'.entries.foldl raise m

theorem count_raise (m : AList fun _ : α => ℕ) (e : Sigma fun _ : α => ℕ) (a : α) :
    count (raise m e) a = if a = e.1 then max (count m a) e.2 else count m a := by
  rw [raise, count_insert]
  by_cases ha : a = e.1
  · subst ha
    rw [Function.update_self, if_pos rfl]
  · rw [Function.update_of_ne ha, if_neg ha]

theorem count_foldl_raise (hnodup : es.NodupKeys) (m : AList fun _ : α => ℕ) (a : α) :
    count (es.foldl raise m) a = max (count m a) ((es.dlookup a).getD 0) := by
  induction es generalizing m with
  | nil => rw [List.foldl_nil, List.dlookup_nil, Option.getD_none, Nat.max_zero]
  | cons e es ih =>
    obtain ⟨key, k⟩ := e
    obtain ⟨hfresh, hnodup⟩ := List.nodupKeys_cons.mp hnodup
    rw [List.foldl_cons, ih hnodup, count_raise]
    by_cases ha : a = key
    · subst ha
      -- no later entry raises the counter again
      have hlookup : es.dlookup a = none := List.dlookup_eq_none.mpr hfresh
      rw [if_pos rfl, hlookup, List.dlookup_cons_eq, Option.getD_none, Option.getD_some,
        Nat.max_zero]
    · rw [if_neg ha, List.dlookup_cons_ne _ _ ha]

/-- **Joining takes the maximum at every key.** -/
theorem count_join (m m' : AList fun _ : α => ℕ) : count (join m m') = count m ⊔ count m' :=
  funext fun a => count_foldl_raise m'.nodupKeys m a

/-! ### Maps with the same entries -/

variable [DecidableEq β] {p q : AList fun _ : α => β}

/-- As many entries, and every entry of the one found in the other. -/
def sameEntries (p q : AList fun _ : α => β) : Bool :=
  p.entries.length == q.entries.length && p.entries.all fun e => q.lookup e.1 == some e.2

theorem sameEntries_iff : sameEntries p q = true ↔ ∀ a, p.lookup a = q.lookup a := by
  rw [sameEntries, Bool.and_eq_true, beq_iff_eq, List.all_eq_true]
  constructor
  · rintro ⟨hlength, hall⟩
    have hsubset : p.keys ⊆ q.keys := by
      intro a ha
      obtain ⟨e, he, rfl⟩ := List.mem_map.mp ha
      have hlookup := beq_iff_eq.mp (hall e he)
      exact AList.lookup_isSome.mp (by rw [hlookup]; rfl)
    -- as many keys, so the keys are the same ones
    have hperm : p.keys.Perm q.keys := by
      refine (p.keys_nodup.subperm hsubset).perm_of_length_le ?_
      show (q.entries.map Sigma.fst).length ≤ (p.entries.map Sigma.fst).length
      rw [List.length_map, List.length_map, hlength]
    -- a key of the one is looked up alike in the other, and other keys are in neither
    intro a
    cases ha : p.lookup a with
    | some b => exact (beq_iff_eq.mp (hall ⟨a, b⟩ (AList.mem_lookup_iff.mp ha))).symm
    | none =>
      symm
      rw [AList.lookup_eq_none] at ha ⊢
      exact fun h => ha (hperm.mem_iff.mpr h)
  · intro hlookup
    refine ⟨?_, fun e he => ?_⟩
    · have hperm : p.keys.Perm q.keys := by
        refine (List.perm_ext_iff_of_nodup p.keys_nodup q.keys_nodup).mpr fun a => ?_
        rw [← AList.mem_keys, ← AList.mem_keys, ← AList.lookup_isSome, ← AList.lookup_isSome,
          hlookup]
      have hlength := hperm.length_eq
      change (p.entries.map _).length = (q.entries.map _).length at hlength
      rwa [List.length_map, List.length_map] at hlength
    · rw [beq_iff_eq, ← hlookup]
      exact AList.mem_lookup_iff.mpr he

/-! ### Maps without zeros -/

/-- No key has an entry that is 0. -/
def NoZeros (m : AList fun _ : α => ℕ) : Prop := ∀ e ∈ m.entries, 0 < e.2

theorem NoZeros.lookup_eq (h : NoZeros m) (a : α) :
    m.lookup a = if 0 < count m a then some (count m a) else none := by
  cases ha : m.lookup a with
  | none => rw [count_of_lookup_eq_none ha, if_neg (Nat.lt_irrefl 0)]
  | some k =>
    have hpos : 0 < k := h _ (mem_entries_of_lookup ha)
    rw [count_of_lookup ha, if_pos hpos]

/-- Maps without zeros have the same entries when they are the same function. -/
theorem NoZeros.sameEntries_iff (h : NoZeros m) (h' : NoZeros m') :
    sameEntries m m' = true ↔ count m = count m' := by
  rw [Counters.sameEntries_iff]
  constructor
  · intro hlookup
    funext a
    rw [count, hlookup, count]
  · intro hcount a
    rw [h.lookup_eq, h'.lookup_eq, hcount]

theorem noZeros_insert (h : NoZeros m) (hk : 0 < k) : NoZeros (m.insert a k) := by
  intro e he
  rw [AList.entries_insert, List.mem_cons] at he
  obtain rfl | he := he
  · exact hk
  · exact h e ((List.kerase_sublist a _).subset he)

theorem noZeros_foldl_raise (hes : ∀ e ∈ es, 0 < e.2) (h : NoZeros m) :
    NoZeros (es.foldl raise m) := by
  induction es generalizing m with
  | nil => exact h
  | cons e es ih =>
    obtain ⟨he, hes⟩ := List.forall_mem_cons.mp hes
    exact ih hes (noZeros_insert h (lt_of_lt_of_le he (le_max_right _ _)))

end Counters
