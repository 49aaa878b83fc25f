import Mathlib.Algebra.BigOperators.Group.List.Basic
import Mathlib.Algebra.GroupWithZero.Nat
import Mathlib.Data.List.AList

/-!
# Association lists with weights

`AList` as a map from keys to values of one type, whose values have weights: what inserting and
erasing do to the number of entries, to the sum of the weights, and to what is found under a key.

Erasing a key splits the entries into the one under the key and the others (`entries_perm`); the
lemmas on numbers and sums follow from it. `mapValues` changes all values, `modify`
changes one, and `retain` drops entries.
-/

namespace AssocMap

variable {α β : Type*} [DecidableEq α] {m m' : AList fun _ : α => β} {a a' : α} {b b' : β}

/-! ### Looking up -/

theorem mem_of_lookup (h : m.lookup a = some b) : a ∈ m :=
  AList.lookup_isSome.mp (by rw [h]; rfl)

theorem lookup_insert_eq_some :
    (m.insert a b).lookup a' = some b' ↔ a' = a ∧ b = b' ∨ a' ≠ a ∧ m.lookup a' = some b' := by
  by_cases ha : a' = a
  · subst ha
    simp
  · simp [AList.lookup_insert_ne ha, ha]

theorem lookup_insert_eq_none_iff :
    (m.insert a b).lookup a' = none ↔ a' ≠ a ∧ m.lookup a' = none := by
  by_cases ha : a' = a
  · subst ha
    simp
  · simp [AList.lookup_insert_ne ha, ha]

theorem lookup_of_lookup_erase (h : (m.erase a).lookup a' = some b') : m.lookup a' = some b' := by
  have hne : a' ≠ a := by
    rintro rfl
    rw [AList.lookup_erase] at h
    exact absurd h (by simp)
  rwa [AList.lookup_erase_ne hne] at h

theorem erase_of_lookup_eq_none (h : m.lookup a = none) : m.erase a = m :=
  AList.ext (List.kerase_of_notMem_keys (AList.lookup_eq_none.mp h))

/-- **A map that is filled from a list**: the last entry for a key counts. -/
theorem lookup_foldl_insert {ι : Type*} (key : ι → α) (value : ι → β) (l : List ι)
    (m : AList fun _ : α => β) (a : α) :
    (l.foldl (fun m x => m.insert (key x) (value x)) m).lookup a =
      ((l.reverse.find? fun x => key x = a).map value).or (m.lookup a) := by
  induction l generalizing m with
  | nil => rfl
  | cons x l ih =>
    rw [List.foldl_cons, ih, List.reverse_cons, List.find?_append, Option.map_or, Option.or_assoc]
    by_cases hx : key x = a
    · subst hx
      simp [AList.lookup_insert]
    · rw [AList.lookup_insert_ne (Ne.symm hx)]
      simp [hx]

/-! ### Entries and sums -/

/-- **An entry and the rest of the map.** -/
theorem entries_perm (h : m.lookup a = some b) :
    m.entries.Perm (⟨a, b⟩ :: (m.erase a).entries) := by
  obtain ⟨b', l₁, l₂, -, hl, herase⟩ := List.exists_of_kerase (mem_of_lookup h)
  -- the entry that is erased is the one that is found
  have hentry : (⟨a, b'⟩ : Sigma fun _ : α => β) ∈ m.entries := by
    rw [hl]
    exact List.mem_append_right _ List.mem_cons_self
  obtain rfl : b = b' := by
    have hlookup := AList.mem_lookup_iff.mpr hentry
    rw [Option.mem_def, h] at hlookup
    exact Option.some.inj hlookup
  have hrest : (m.erase a).entries = l₁ ++ l₂ := herase
  rw [hrest, hl]
  exact List.perm_middle

omit [DecidableEq α] in
theorem length_keys (m : AList fun _ : α => β) : m.keys.length = m.entries.length :=
  List.length_map _

theorem length_erase (h : m.lookup a = some b) :
    m.entries.length = (m.erase a).entries.length + 1 := by
  rw [(entries_perm h).length_eq, List.length_cons]

theorem length_insert (a : α) (b : β) (m : AList fun _ : α => β) :
    (m.insert a b).entries.length = (m.erase a).entries.length + 1 := by
  rw [AList.entries_insert, List.length_cons]
  rfl

/-- The sum of the weights of the values. -/
def sum (w : β → ℕ) (m : AList fun _ : α => β) : ℕ := (m.entries.map fun e => w e.2).sum

variable {w : β → ℕ}

theorem sum_insert (w : β → ℕ) (a : α) (b : β) (m : AList fun _ : α => β) :
    sum w (m.insert a b) = w b + sum w (m.erase a) := by
  rw [sum, AList.entries_insert, List.map_cons, List.sum_cons]
  rfl

theorem sum_erase (w : β → ℕ) (h : m.lookup a = some b) :
    sum w m = w b + sum w (m.erase a) := by
  have hsum := ((entries_perm h).map fun e => w e.2).sum_eq
  rw [sum, hsum, List.map_cons, List.sum_cons]
  rfl

omit [DecidableEq α] in
theorem sum_perm (h : m.entries.Perm m'.entries) : sum w m = sum w m' := by
  have hsum := (h.map fun e => w e.2).sum_eq
  exact hsum

omit [DecidableEq α] in
theorem sum_of_entries_eq_nil (h : m.entries = []) : sum w m = 0 := by
  rw [sum, h, List.map_nil, List.sum_nil]

theorem le_sum (w : β → ℕ) (h : m.lookup a = some b) : w b ≤ sum w m := by
  rw [sum_erase w h]
  exact Nat.le_add_right ..

omit [DecidableEq α] in
theorem sum_le_length (h : ∀ b, w b ≤ 1) (m : AList fun _ : α => β) :
    sum w m ≤ m.entries.length := by
  unfold sum
  induction m.entries with
  | nil => exact le_rfl
  | cons e es ih =>
    rw [List.map_cons, List.sum_cons, List.length_cons, Nat.add_comm]
    exact Nat.add_le_add ih (h e.2)

theorem sum_eq_sum_keys (w : β → ℕ) (m : AList fun _ : α => β) :
    sum w m = (m.keys.map fun a => ((m.lookup a).map w).getD 0).sum := by
  unfold sum AList.keys List.keys
  rw [List.map_map]
  refine congrArg List.sum (List.map_congr_left fun e he => ?_)
  have hlookup : m.lookup e.1 = some e.2 := AList.mem_lookup_iff.mpr he
  rw [Function.comp_apply, hlookup, Option.map_some, Option.getD_some]

/-! ### Going through a map -/

section Values

variable {γ δ : Type*}

/-- Every value is changed. -/
def mapValues (f : β → γ) (m : AList fun _ : α => β) : AList fun _ : α => γ where
  entries := m.entries.map fun e => ⟨e.1, f e.2⟩
  nodupKeys := by
    rw [List.NodupKeys, List.keys, List.map_map]
    exact m.nodupKeys

/-- The entries whose keys satisfy a condition. -/
def retain (p : α → Prop) [DecidablePred p] (m : AList fun _ : α => β) : AList fun _ : α => β where
  entries := m.entries.filter fun e => p e.1
  nodupKeys := m.nodupKeys.sublist List.filter_sublist

/-- The value under a key is changed, if there is one. -/
def modify (a : α) (f : β → β) (m : AList fun _ : α => β) : AList fun _ : α => β :=
  match m.lookup a with
  | none => m
  | some b => m.insert a (f b)

/-- The entries whose values satisfy a condition. -/
def retainValues (p : β → Bool) (m : AList fun _ : α => β) : AList fun _ : α => β where
  entries := m.entries.filter fun e => p e.2
  nodupKeys := m.nodupKeys.sublist List.filter_sublist

/-- The values under the keys of a list are changed, one after the other. -/
def modifyAll (keys : List α) (f : β → β) (m : AList fun _ : α => β) : AList fun _ : α => β :=
  keys.foldl (fun m a => modify a f m) m

theorem lookup_retainValues (p : β → Bool) (m : AList fun _ : α => β) (a : α) :
    (retainValues p m).lookup a = (m.lookup a).filter p := by
  ext b
  rw [← Option.mem_def, AList.mem_lookup_iff, retainValues, List.mem_filter,
    Option.filter_eq_some_iff, ← Option.mem_def, AList.mem_lookup_iff]

theorem lookup_modify (a : α) (f : β → β) (m : AList fun _ : α => β) (a' : α) :
    (modify a f m).lookup a' = if a' = a then (m.lookup a).map f else m.lookup a' := by
  unfold modify
  by_cases ha : a' = a
  · subst ha
    rw [if_pos rfl]
    cases h : m.lookup a' with
    | none => exact h
    | some b => exact AList.lookup_insert m
  · rw [if_neg ha]
    cases m.lookup a with
    | none => rfl
    | some b => exact AList.lookup_insert_ne ha

theorem lookup_modifyAll {keys : List α} (hnodup : keys.Nodup) (f : β → β)
    (m : AList fun _ : α => β) (a : α) :
    (modifyAll keys f m).lookup a = if a ∈ keys then (m.lookup a).map f else m.lookup a := by
  induction keys generalizing m with
  | nil => rfl
  | cons key keys ih =>
    obtain ⟨hfresh, hrest⟩ := List.nodup_cons.mp hnodup
    have hstep : modifyAll (key :: keys) f m = modifyAll keys f (modify key f m) := rfl
    rw [hstep, ih hrest, lookup_modify]
    by_cases ha : a = key
    · subst ha
      rw [if_neg hfresh, if_pos rfl, if_pos List.mem_cons_self]
    · rw [if_neg ha]
      exact if_congr (by simp [ha]) rfl rfl

theorem lookup_mapValues (f : β → γ) (m : AList fun _ : α => β) (a : α) :
    (mapValues f m).lookup a = (m.lookup a).map f :=
  List.dlookup_map₂ (l := m.entries) (f := fun _ => f) a

theorem mem_mapValues {f : β → γ} : a ∈ mapValues f m ↔ a ∈ m := by
  rw [← AList.lookup_isSome, ← AList.lookup_isSome, lookup_mapValues, Option.isSome_map]

omit [DecidableEq α] in
theorem mapValues_mapValues (f : γ → δ) (g : β → γ) (m : AList fun _ : α => β) :
    mapValues f (mapValues g m) = mapValues (fun b => f (g b)) m :=
  AList.ext (List.map_map ..)

omit [DecidableEq α] in
theorem mapValues_of_id {f : β → β} (h : ∀ b, f b = b) (m : AList fun _ : α => β) :
    mapValues f m = m := by
  refine AList.ext ((List.map_congr_left fun e _ => ?_).trans (List.map_id _))
  show (⟨e.1, f e.2⟩ : Sigma fun _ : α => β) = e
  rw [h]

theorem lookup_retain (p : α → Prop) [DecidablePred p] (m : AList fun _ : α => β) (a : α) :
    (retain p m).lookup a = if p a then m.lookup a else none := by
  ext b
  rw [← Option.mem_def, AList.mem_lookup_iff, retain, List.mem_filter, decide_eq_true_iff]
  by_cases hp : p a
  · rw [if_pos hp, ← Option.mem_def, AList.mem_lookup_iff]
    exact and_iff_left hp
  · rw [if_neg hp]
    exact iff_of_false (fun h => hp h.2) (fun h => by cases h)

end Values

end AssocMap
