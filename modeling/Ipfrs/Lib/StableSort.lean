import Mathlib.Data.List.Sort

/-!
# Sorting by a key

A stable sort by a key (`sortBy`) leaves the elements with one key in the order in which they came
(`filter_sortBy`). What is read off the sorted list is therefore the same for every order of the
list exactly when elements with the same key read the same (`map_sortBy_perm_iff`).
-/

namespace StableSort

variable {α β κ : Type*} [LinearOrder κ]

/-- The stable sort of a list by a key. -/
def sortBy (key : α → κ) (l : List α) : List α := l.insertionSort fun a b => key a ≤ key b

variable {key : α → κ} {l l' : List α}

theorem sortBy_perm (key : α → κ) (l : List α) : (sortBy key l).Perm l :=
  List.perm_insertionSort _ l

theorem pairwise_sortBy (key : α → κ) (l : List α) :
    (sortBy key l).Pairwise fun a b => key a ≤ key b := by
  have : Std.Total fun a b => key a ≤ key b := ⟨fun a b => le_total (key a) (key b)⟩
  have : IsTrans α fun a b => key a ≤ key b := ⟨fun _ _ _ => le_trans⟩
  exact List.pairwise_insertionSort _ l

/-- **Stability**: the elements with one key keep their order. -/
theorem filter_sortBy (key : α → κ) (l : List α) (k : κ) :
    (sortBy key l).filter (key · = k) = l.filter (key · = k) := by
  have hkey : ∀ a ∈ l.filter (key · = k), key a = k := fun a ha => by
    simpa using (List.mem_filter.mp ha).2
  -- they are in order already, so the sort does not tear them apart
  have hsub : (l.filter (key · = k)).Sublist (sortBy key l) := by
    refine List.sublist_insertionSort ?_ List.filter_sublist
    refine List.pairwise_of_forall_mem_list fun a ha b hb => ?_
    rw [hkey a ha, hkey b hb]
  have hsub' := hsub.filter (key · = k)
  rw [List.filter_filter] at hsub'
  simp only [Bool.and_self] at hsub'
  exact (hsub'.eq_of_length ((sortBy_perm key l).filter _).length_eq.symm).symm

/-- The keys come out in an order that does not depend on the list's. -/
theorem map_key_sortBy (h : l.Perm l') :
    (sortBy key l).map key = (sortBy key l').map key := by
  refine List.Perm.eq_of_pairwise (fun a b _ _ (h : a ≤ b) => le_antisymm h) ?_ ?_ ?_
  · exact List.pairwise_map.mpr (pairwise_sortBy key l)
  · exact List.pairwise_map.mpr (pairwise_sortBy key l')
  · exact (((sortBy_perm key l).trans h).trans (sortBy_perm key l').symm).map key

/-- Two lists that agree on the keys and on the readings agree on the readings at each key. -/
theorem map_filter_eq_of_map_eq {s t : List α} {f : α → β} (hkey : s.map key = t.map key)
    (hf : s.map f = t.map f) (k : κ) :
    (s.filter (key · = k)).map f = (t.filter (key · = k)).map f := by
  have hzip : s.map (fun a => (key a, f a)) = t.map fun a => (key a, f a) := by
    rw [← List.zip_map', ← List.zip_map', hkey, hf]
  have hread : ∀ u : List α, (u.filter (key · = k)).map f
      = ((u.map fun a => (key a, f a)).filter (·.1 = k)).map Prod.snd := by
    intro u
    rw [List.filter_map, List.map_map]
    rfl
  rw [hread s, hread t, hzip]

/-- **Order independence.** A reading of the sorted list is the same for every order of the list if
and only if elements with the same key read the same. -/
theorem map_sortBy_perm_iff {f : α → β} :
    (∀ l', l.Perm l' → (sortBy key l').map f = (sortBy key l).map f) ↔
      ∀ a ∈ l, ∀ b ∈ l, key a = key b → f a = f b := by
  constructor
  · intro h a ha b hb hab
    by_cases heq : a = b
    · rw [heq]
    -- the two of them in front, in one order and in the other
    obtain ⟨t, ht⟩ : ∃ t, l.Perm (a :: t) := by
      classical exact ⟨_, List.perm_cons_erase ha⟩
    have hbt : b ∈ t := (List.mem_cons.mp (ht.mem_iff.mp hb)).resolve_left (Ne.symm heq)
    obtain ⟨u, hu⟩ : ∃ u, t.Perm (b :: u) := by
      classical exact ⟨_, List.perm_cons_erase hbt⟩
    have hab' : l.Perm (a :: b :: u) := ht.trans (hu.cons a)
    have hba' : l.Perm (b :: a :: u) := hab'.trans (List.Perm.swap b a u)
    have hmap := (h _ hab').trans (h _ hba').symm
    have hkeys : (sortBy key (a :: b :: u)).map key = (sortBy key (b :: a :: u)).map key :=
      map_key_sortBy (hab'.symm.trans hba')
    have hfilter := map_filter_eq_of_map_eq hkeys hmap (key b)
    rw [filter_sortBy, filter_sortBy, List.filter_cons_of_pos (by simpa using hab),
      List.filter_cons_of_pos (a := b) (l := a :: u) (by simp)] at hfilter
    exact (List.cons.inj hfilter).1
  · intro h l' hperm
    -- the pairs of a key and a reading are sorted by the key, and no two of them tie
    have hpairs : (sortBy key l').map (fun a => (key a, f a))
        = (sortBy key l).map fun a => (key a, f a) := by
      have hle : ∀ p q : κ × β, p ∈ (sortBy key l').map (fun a => (key a, f a)) →
          q ∈ (sortBy key l).map (fun a => (key a, f a)) → p.1 ≤ q.1 → q.1 ≤ p.1 → p = q := by
        rintro p q hp hq hpq hqp
        obtain ⟨a, ha, rfl⟩ := List.mem_map.mp hp
        obtain ⟨b, hb, rfl⟩ := List.mem_map.mp hq
        have hal : a ∈ l := hperm.mem_iff.mpr ((sortBy_perm key l').mem_iff.mp ha)
        have hbl : b ∈ l := (sortBy_perm key l).mem_iff.mp hb
        have hkey : key a = key b := le_antisymm hpq hqp
        exact Prod.ext hkey (h a hal b hbl hkey)
      refine List.Perm.eq_of_pairwise hle ?_ ?_ ?_
      · exact List.pairwise_map.mpr (pairwise_sortBy key l')
      · exact List.pairwise_map.mpr (pairwise_sortBy key l)
      · exact (((sortBy_perm key l').trans hperm.symm).trans (sortBy_perm key l).symm).map _
    have hsnd := congrArg (List.map Prod.snd) hpairs
    rw [List.map_map, List.map_map] at hsnd
    exact hsnd

/-! ### Order statistics -/

/-- **The `n`-th element from the end** of a list in strict order: what is below it has at least `n`
elements above. -/
theorem lt_iff_le_length_filter {l : List κ} (h : l.Pairwise (· < ·)) {n : ℕ} (hpos : 0 < n)
    (hle : n ≤ l.length) {t : κ} (ht : l[l.length - n]? = some t) (k : κ) :
    k < t ↔ n ≤ (l.filter (k < ·)).length := by
  obtain ⟨hlt, hget⟩ := List.getElem?_eq_some_iff.mp ht
  have hsplit : l = l.take (l.length - n) ++ t :: l.drop (l.length - n + 1) := by
    rw [← hget, ← List.drop_eq_getElem_cons, List.take_append_drop]
  have hlen : (l.drop (l.length - n + 1)).length = n - 1 := by
    rw [List.length_drop]
    omega
  generalize l.take (l.length - n) = below, l.drop (l.length - n + 1) = above at hsplit hlen
  subst hsplit
  obtain ⟨-, hrest, hbelow⟩ := List.pairwise_append.mp h
  have habove := (List.pairwise_cons.mp hrest).1
  rw [List.filter_append, List.length_append]
  by_cases hk : k < t
  · have hall : (t :: above).filter (k < ·) = t :: above := by
      refine List.filter_eq_self.mpr fun x hx => ?_
      obtain rfl | hx := List.mem_cons.mp hx
      · exact decide_eq_true hk
      · exact decide_eq_true (hk.trans (habove x hx))
    rw [hall, List.length_cons, hlen]
    exact iff_of_true hk (by omega)
  · have hnone : below.filter (k < ·) = [] := by
      refine List.filter_eq_nil_iff.mpr fun x hx hkx => ?_
      have hxt := hbelow x hx t List.mem_cons_self
      exact hk ((of_decide_eq_true hkx).trans hxt)
    have hfew := List.length_filter_le (fun x => decide (k < x)) above
    rw [hnone, List.filter_cons_of_neg (by simpa using hk), List.length_nil]
    exact iff_of_false hk (by omega)

end StableSort
