import Mathlib.Data.List.Sort
import Ipfrs.Lib.Fallible

/-!
# Ordered maps as sorted association lists

An ordered map with keys in a linear order is kept as the list of its entries in increasing key
order. The operations are on bare lists, so that the list can sit inside an inductive type; `Sorted`
is the invariant they keep.

* `insert` replaces the value of a key that is present and keeps the order;
* `get?` is `List.lookup`;
* `insertAllM_eq_ok` — a loop over the entries of a sorted map that puts something else under every
  key keeps the keys, and relates the values one by one;
* `foldl_insert_eq` — inserting the entries of a sorted list, in order, into the empty map gives the
  list back. This is what makes reading an ordered map from its own listing the identity.
-/

namespace SortedMap

variable {κ ν : Type*} [LinearOrder κ]

/-- The keys are strictly increasing: sorted, and no key twice. -/
def Sorted (m : List (κ × ν)) : Prop :=
  m.Pairwise (fun a b => a.1 < b.1)

variable {m : List (κ × ν)} {k : κ} {v : ν}

theorem Sorted.nodup_keys (h : Sorted m) : (m.map Prod.fst).Nodup :=
  List.pairwise_map.mpr (h.imp fun hlt => hlt.ne)

/-- Set the value of `k`. -/
def insert (k : κ) (v : ν) : List (κ × ν) → List (κ × ν)
  | [] => [(k, v)]
  | (k', v') :: m =>
    if k < k' then (k, v) :: (k', v') :: m
    else if k = k' then (k, v) :: m
    else (k', v') :: insert k v m

/-- The value of `k`. -/
def get? (k : κ) (m : List (κ × ν)) : Option ν :=
  m.lookup k

theorem get?_cons_self (k : κ) (v : ν) (m : List (κ × ν)) : get? k ((k, v) :: m) = some v := by
  simp [get?]

theorem get?_cons_of_ne {k' : κ} (h : k ≠ k') (v : ν) (m : List (κ × ν)) :
    get? k ((k', v) :: m) = get? k m := by
  simp [get?, List.lookup_cons, beq_false_of_ne h]

theorem mem_of_get? (h : get? k m = some v) : (k, v) ∈ m := by
  induction m with
  | nil => exact absurd h (by simp [get?])
  | cons e m ih =>
    obtain ⟨k', v'⟩ := e
    by_cases hk : k = k'
    · subst hk
      rw [get?_cons_self] at h
      obtain rfl := Option.some.inj h
      exact List.mem_cons_self
    · rw [get?_cons_of_ne hk] at h
      exact List.mem_cons_of_mem _ (ih h)

theorem insert_eq_append (h : ∀ e ∈ m, e.1 < k) (v : ν) : insert k v m = m ++ [(k, v)] := by
  induction m with
  | nil => rfl
  | cons e m ih =>
    have he : e.1 < k := h e List.mem_cons_self
    rw [insert, if_neg he.asymm, if_neg he.ne', ih fun e' h' => h e' (List.mem_cons_of_mem _ h')]
    rfl

theorem mem_insert {e : κ × ν} (h : e ∈ insert k v m) : e = (k, v) ∨ e ∈ m := by
  induction m with
  | nil => exact Or.inl (by simpa [insert] using h)
  | cons e' m ih =>
    unfold insert at h
    split at h
    · rcases List.mem_cons.mp h with h | h
      · exact Or.inl h
      · exact Or.inr h
    · split at h
      · rcases List.mem_cons.mp h with h | h
        · exact Or.inl h
        · exact Or.inr (List.mem_cons_of_mem _ h)
      · rcases List.mem_cons.mp h with h | h
        · exact Or.inr (by rw [h]; exact List.mem_cons_self)
        · exact (ih h).imp id (List.mem_cons_of_mem _)

theorem mem_insert_iff_of_new (h : ∀ e ∈ m, e.1 ≠ k) (v : ν) (e : κ × ν) :
    e ∈ insert k v m ↔ e = (k, v) ∨ e ∈ m := by
  refine ⟨mem_insert, fun he => ?_⟩
  induction m with
  | nil => simpa [insert] using he
  | cons e' m ih =>
    have hne : e'.1 ≠ k := h e' List.mem_cons_self
    have hrest : ∀ e ∈ m, e.1 ≠ k := fun e he => h e (List.mem_cons_of_mem _ he)
    unfold insert
    split
    · exact List.mem_cons.mpr he
    · rw [if_neg hne.symm]
      rcases he with he | he
      · exact List.mem_cons_of_mem _ (ih hrest (Or.inl he))
      · rcases List.mem_cons.mp he with rfl | he
        · exact List.mem_cons_self
        · exact List.mem_cons_of_mem _ (ih hrest (Or.inr he))

theorem Sorted.insert (hm : Sorted m) (k : κ) (v : ν) : Sorted (insert k v m) := by
  induction m with
  | nil => exact List.pairwise_singleton _ _
  | cons e m ih =>
    have hm' := hm
    rw [Sorted, List.pairwise_cons] at hm
    unfold SortedMap.insert
    split
    · -- in front of a larger key
      next hlt =>
      refine List.pairwise_cons.mpr ⟨fun e' he' => ?_, hm'⟩
      rcases List.mem_cons.mp he' with rfl | he'
      · exact hlt
      · exact hlt.trans (hm.1 e' he')
    · split
      · next heq => exact List.pairwise_cons.mpr ⟨fun e' he' => heq ▸ hm.1 e' he', hm.2⟩
      · -- behind a smaller one
        next hnlt hne =>
        refine List.pairwise_cons.mpr ⟨fun e' he' => ?_, ih hm.2⟩
        rcases mem_insert he' with rfl | he'
        · exact lt_of_le_of_ne (not_lt.mp hnlt) (Ne.symm hne)
        · exact hm.1 e' he'

/-- Continuing a sorted list by inserting the entries that follow. -/
theorem foldl_insert_append {m' : List (κ × ν)} (h : Sorted (m ++ m')) :
    m'.foldl (fun acc e => insert e.1 e.2 acc) m = m ++ m' := by
  induction m' generalizing m with
  | nil => simp
  | cons e m' ih =>
    have hlast : ∀ e' ∈ m, e'.1 < e.1 := fun e' he' =>
      (List.pairwise_append.mp h).2.2 e' he' e List.mem_cons_self
    rw [List.foldl_cons, insert_eq_append hlast, ih (by simpa using h)]
    simp

/-- **Reading a sorted map back from its own listing.** -/
theorem foldl_insert_eq (h : Sorted m) : m.foldl (fun acc e => insert e.1 e.2 acc) [] = m := by
  simpa using @foldl_insert_append _ _ _ [] m (by simpa using h)

/-! ### Loops over the entries -/

section Loops

variable {κ ε ν ω : Type} [LinearOrder κ] {f : ν → Except ε ω}

/-- The loop that inserts, for every entry, what `f` makes of the value. -/
def insertAllM (f : ν → Except ε ω) :
    List (κ × ν) → List (κ × ω) → Except ε (List (κ × ω))
  | [], acc => .ok acc
  | (k, v) :: m, acc => do
    let w ← f v
    insertAllM f m (insert k w acc)

/-- The same keys, with what `f` makes of the values. -/
def Maps (f : ν → Except ε ω) (m : List (κ × ν)) (m' : List (κ × ω)) : Prop :=
  List.Forall₂ (fun e e' => e'.1 = e.1 ∧ f e.2 = .ok e'.2) m m'

variable {m : List (κ × ν)} {m' out : List (κ × ω)} {k : κ}

omit [LinearOrder κ] in
theorem Maps.keys_eq (h : Maps f m m') : m'.map Prod.fst = m.map Prod.fst := by
  induction h with
  | nil => rfl
  | cons he _ ih => rw [List.map_cons, List.map_cons, he.1, ih]

theorem Maps.sorted (h : Maps f m m') (hm : Sorted m) : Sorted m' := by
  have hkeys : (m'.map Prod.fst).Pairwise (· < ·) := by
    rw [h.keys_eq]
    exact List.pairwise_map.mpr hm
  exact List.pairwise_map.mp hkeys

theorem Maps.rel_get? (h : Maps f m m') (k : κ) :
    Option.Rel (fun v w => f v = .ok w) (SortedMap.get? k m) (SortedMap.get? k m') := by
  induction h with
  | nil => exact .none
  | @cons e e' m m' he _ ih =>
    obtain ⟨key, v⟩ := e
    obtain ⟨key', w⟩ := e'
    obtain ⟨rfl, hv⟩ : key' = key ∧ f v = .ok w := he
    by_cases hk : k = key'
    · subst hk
      rw [get?_cons_self, get?_cons_self]
      exact .some hv
    · rw [get?_cons_of_ne hk, get?_cons_of_ne hk]
      exact ih

theorem Maps.get?_left (h : Maps f m m') {w : ω} (hw : SortedMap.get? k m' = some w) :
    ∃ v, SortedMap.get? k m = some v ∧ f v = .ok w := by
  have hrel := h.rel_get? k
  rw [hw] at hrel
  generalize SortedMap.get? k m = o at hrel ⊢
  obtain hv | _ := hrel
  exact ⟨_, rfl, hv⟩

theorem Maps.get?_right (h : Maps f m m') {v : ν} (hv : SortedMap.get? k m = some v) :
    ∃ w, SortedMap.get? k m' = some w ∧ f v = .ok w := by
  have hrel := h.rel_get? k
  rw [hv] at hrel
  generalize SortedMap.get? k m' = o at hrel ⊢
  obtain hw | _ := hrel
  exact ⟨_, rfl, hw⟩

theorem insertAllM_append {acc : List (κ × ω)} (hm : Sorted m)
    (hacc : ∀ e ∈ acc, ∀ e' ∈ m, e.1 < e'.1) :
    insertAllM f m acc = .ok out ↔ ∃ m', Maps f m m' ∧ out = acc ++ m' := by
  induction m generalizing acc with
  | nil =>
    rw [insertAllM, Except.ok.injEq]
    constructor
    · rintro rfl
      exact ⟨[], .nil, (List.append_nil _).symm⟩
    · rintro ⟨m', hmaps, rfl⟩
      obtain rfl := List.forall₂_nil_left_iff.mp hmaps
      exact (List.append_nil _).symm
  | cons e m ih =>
    obtain ⟨k, v⟩ := e
    obtain ⟨hhead, htail⟩ := List.pairwise_cons.mp hm
    -- the key is above all that have been inserted, so its entry goes to the end
    have hlast : ∀ w, insert k w acc = acc ++ [(k, w)] := fun w =>
      insert_eq_append (fun e he => hacc e he _ List.mem_cons_self) w
    have hacc' : ∀ w, ∀ e ∈ acc ++ [(k, w)], ∀ e' ∈ m, e.1 < e'.1 := by
      intro w e he e' he'
      rcases List.mem_append.mp he with he | he
      · exact hacc e he e' (List.mem_cons_of_mem _ he')
      · obtain rfl := List.mem_singleton.mp he
        exact hhead e' he'
    rw [insertAllM, Except.bind_eq_ok_iff]
    constructor
    · rintro ⟨w, hw, hrest⟩
      rw [hlast, ih htail (hacc' w)] at hrest
      obtain ⟨m', hmaps, rfl⟩ := hrest
      exact ⟨(k, w) :: m', .cons ⟨rfl, hw⟩ hmaps, List.append_assoc ..⟩
    · rintro ⟨_, hmaps, rfl⟩
      obtain _ | @⟨_, ⟨k', w⟩, _, m', ⟨hk, hw⟩, hmaps⟩ := hmaps
      obtain rfl : k' = k := hk
      refine ⟨w, hw, ?_⟩
      rw [hlast, ih htail (hacc' w)]
      exact ⟨m', hmaps, by simp⟩

/-- **A loop over a sorted map** keeps the keys. -/
theorem insertAllM_eq_ok (hm : Sorted m) : insertAllM f m [] = .ok out ↔ Maps f m out := by
  rw [insertAllM_append hm (by simp)]
  constructor
  · rintro ⟨m', hmaps, rfl⟩
    exact hmaps
  · intro hmaps
    exact ⟨out, hmaps, rfl⟩

end Loops

end SortedMap
