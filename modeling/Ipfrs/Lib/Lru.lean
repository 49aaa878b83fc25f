import Mathlib.Data.Finset.Card
import Ipfrs.Lib.AssocMap

/-!
# Least-recently-used maps

A map with a positive capacity, whose entries are listed by their last use, the last one first. A
map that is full makes room for a new key by giving up its last entry.

`push` answers with the pair that it took out: the old value of the key, or the entry that was given
up. Everything here about the contents is said of `lookup`, which does not count as a use.
-/

namespace Ipfrs

/-- A least-recently-used map. -/
structure Lru (α β : Type*) where
  capacity : ℕ
  map : AList fun _ : α => β
  pos : 0 < capacity
  length_le : map.entries.length ≤ capacity

namespace Lru

variable {α β : Type*}

variable (c : Lru α β)

/-- The number of entries. -/
def size : ℕ := c.map.entries.length

/-- A map without entries. -/
def empty (capacity : ℕ) (pos : 0 < capacity) : Lru α β := ⟨capacity, ∅, pos, Nat.zero_le _⟩

/-- All entries go. -/
def clear : Lru α β := empty c.capacity c.pos

variable [DecidableEq α]

/-- The value under a key. -/
def lookup (a : α) : Option β := c.map.lookup a

/-- The entry of a key that is there, with another value, becomes the last one used. -/
def use (a : α) (b : β) (h : (c.lookup a).isSome) : Lru α β where
  capacity := c.capacity
  map := c.map.insert a b
  pos := c.pos
  length_le := by
    obtain ⟨old, hold⟩ := Option.isSome_iff_exists.mp h
    rw [AssocMap.length_insert, ← AssocMap.length_erase hold]
    exact c.length_le

/-- The value under a key, which is used. -/
def get (a : α) : Lru α β × Option β :=
  match h : c.lookup a with
  | none => (c, none)
  | some b => (c.use a b (by rw [h]; rfl), some b)

theorem length_erase_le (m : AList fun _ : α => β) (a : α) :
    (m.erase a).entries.length ≤ m.entries.length := by
  cases h : m.lookup a with
  | none => rw [AssocMap.erase_of_lookup_eq_none h]
  | some b =>
    rw [AssocMap.length_erase h]
    exact Nat.le_succ _

/-- An entry for a key, and the pair that it replaces or drives out. -/
def push (a : α) (b : β) : Lru α β × Option (α × β) :=
  match h : c.lookup a with
  | some old => (c.use a b (by rw [h]; rfl), some (a, old))
  | none =>
    if hroom : c.size < c.capacity then
      -- there is room for one more
      ({ c with
          map := c.map.insert a b
          length_le := by
            rw [AssocMap.length_insert, AssocMap.erase_of_lookup_eq_none h]
            exact hroom }, none)
    else
      match hlast : c.map.entries.getLast? with
      | none => (c, none)
      | some last =>
        ({ c with
            map := (c.map.erase last.1).insert a b
            length_le := by
              have hlookup : c.map.lookup last.1 = some last.2 :=
                AList.mem_lookup_iff.mpr (List.mem_of_getLast? hlast)
              have hlength := AssocMap.length_erase hlookup
              have hle := length_erase_le (c.map.erase last.1) a
              have hcapacity := c.length_le
              rw [AssocMap.length_insert]
              omega },
          some (last.1, last.2))

/-- An entry for a key, and the old value. -/
def put (a : α) (b : β) : Lru α β × Option β := ((c.push a b).1, c.lookup a)

/-- The entry of a key goes. -/
def pop (a : α) : Lru α β × Option β :=
  ({ c with
      map := c.map.erase a
      length_le := (length_erase_le c.map a).trans c.length_le }, c.lookup a)

/-! ### What the operations leave -/

variable {c : Lru α β} {a x : α} {b d : β}

theorem lookup_empty (capacity : ℕ) (pos : 0 < capacity) (x : α) :
    (empty capacity pos : Lru α β).lookup x = none :=
  AList.lookup_empty x

theorem lookup_use (h : (c.lookup a).isSome) (x : α) :
    (c.use a b h).lookup x = if x = a then some b else c.lookup x := by
  show (c.map.insert a b).lookup x = _
  split
  · next hx =>
    rw [hx]
    exact AList.lookup_insert _
  · next hx => exact AList.lookup_insert_ne hx

theorem get_of_lookup_eq_none (h : c.lookup a = none) : c.get a = (c, none) := by
  unfold get
  split
  · rfl
  · next b hb =>
    rw [h] at hb
    exact absurd hb (by simp)

/-- Reading returns what is there, and changes nothing but the order. -/
theorem get_spec (c : Lru α β) (a : α) :
    (c.get a).2 = c.lookup a ∧ (c.get a).1.capacity = c.capacity ∧
      ∀ x, (c.get a).1.lookup x = c.lookup x := by
  unfold get
  split
  · next h => exact ⟨h.symm, rfl, fun _ => rfl⟩
  · next b h =>
    refine ⟨h.symm, rfl, fun x => ?_⟩
    dsimp only
    rw [lookup_use]
    split
    · next hx => rw [hx, h]
    · rfl

/-- **The three outcomes of `push`**: a value is replaced, or there is room, or the last entry of a
full map is driven out. -/
theorem push_cases (c : Lru α β) (a : α) (b : β) :
    (∃ old, c.lookup a = some old ∧ (c.push a b).2 = some (a, old) ∧
      ∀ x, (c.push a b).1.lookup x = if x = a then some b else c.lookup x) ∨
    (c.lookup a = none ∧ c.size < c.capacity ∧ (c.push a b).2 = none ∧
      ∀ x, (c.push a b).1.lookup x = if x = a then some b else c.lookup x) ∨
    (c.lookup a = none ∧ c.size = c.capacity ∧ ∃ last value, last ≠ a ∧
      c.map.entries.getLast? = some ⟨last, value⟩ ∧ c.lookup last = some value ∧
      (c.push a b).2 = some (last, value) ∧
      ∀ x, (c.push a b).1.lookup x =
        if x = a then some b else if x = last then none else c.lookup x) := by
  have hinsert : ∀ (m : AList fun _ : α => β) (x : α),
      (m.insert a b).lookup x = if x = a then some b else m.lookup x := by
    intro m x
    split
    · next hx =>
      rw [hx]
      exact AList.lookup_insert _
    · next hx => exact AList.lookup_insert_ne hx
  unfold push
  split
  · next old h => exact Or.inl ⟨old, h, rfl, lookup_use (by rw [h]; rfl)⟩
  · next h =>
    refine Or.inr ?_
    split
    · next hroom => exact Or.inl ⟨h, hroom, rfl, hinsert c.map⟩
    · next hfull =>
      have hsize : c.size = c.capacity := Nat.le_antisymm c.length_le (Nat.not_lt.mp hfull)
      refine Or.inr ⟨h, hsize, ?_⟩
      split
      · next hlast =>
        -- a full map is not empty
        have hnil : c.size = 0 := congrArg List.length (List.getLast?_eq_none_iff.mp hlast)
        exact absurd (hsize.symm.trans hnil) c.pos.ne'
      · next last hlast =>
        have hlookup : c.lookup last.1 = some last.2 :=
          AList.mem_lookup_iff.mpr (List.mem_of_getLast? hlast)
        have hne : last.1 ≠ a := by
          intro heq
          rw [heq, h] at hlookup
          exact absurd hlookup (by simp)
        refine ⟨last.1, last.2, hne, hlast, hlookup, rfl, fun x => ?_⟩
        show ((c.map.erase last.1).insert a b).lookup x = _
        rw [hinsert]
        split
        · rfl
        · split
          · next hx =>
            rw [hx]
            exact AList.lookup_erase _ _
          · next hx => exact AList.lookup_erase_ne hx

theorem capacity_push (c : Lru α β) (a : α) (b : β) : (c.push a b).1.capacity = c.capacity := by
  unfold push
  split
  · rfl
  · split
    · rfl
    · split
      · rfl
      · rfl

/-- **Nothing is driven out** of a map that has the key, or room for it. -/
theorem lookup_push_of_room (hroom : c.lookup a = none → c.size < c.capacity) (x : α) :
    (c.push a b).1.lookup x = if x = a then some b else c.lookup x := by
  obtain ⟨old, -, -, hlookup⟩ | ⟨-, -, -, hlookup⟩ | ⟨hnone, hfull, -⟩ := push_cases c a b
  · exact hlookup x
  · exact hlookup x
  · have hlt := hroom hnone
    rw [hfull] at hlt
    exact absurd hlt (Nat.lt_irrefl _)

theorem size_lt_card {keys : Finset α} (hkeys : ∀ x, (c.lookup x).isSome → x ∈ keys)
    (hmem : a ∈ keys) (hnone : c.lookup a = none) : c.size < keys.card := by
  have hsize : c.map.keys.toFinset.card = c.size := by
    rw [List.toFinset_card_of_nodup c.map.keys_nodup]
    exact List.length_map ..
  rw [← hsize]
  refine Finset.card_lt_card ⟨fun x hx => ?_, fun hsub => ?_⟩
  · refine hkeys x (AList.lookup_isSome.mpr ?_)
    exact AList.mem_keys.mpr (List.mem_toFinset.mp hx)
  · have ha : a ∈ c.map := AList.mem_keys.mp (List.mem_toFinset.mp (hsub hmem))
    have hsome : (c.lookup a).isSome := AList.lookup_isSome.mpr ha
    rw [hnone] at hsome
    exact absurd hsome (by simp)

/-- What is there after a `push` was pushed, or was there before. -/
theorem of_lookup_push (h : (c.push a b).1.lookup x = some d) :
    x = a ∧ d = b ∨ x ≠ a ∧ c.lookup x = some d := by
  obtain ⟨old, -, -, hlookup⟩ | ⟨-, -, -, hlookup⟩ | ⟨-, -, last, value, -, -, -, -, hlookup⟩ :=
    push_cases c a b
  · rw [hlookup] at h
    split at h
    · next hx => exact Or.inl ⟨hx, (Option.some.inj h).symm⟩
    · next hx => exact Or.inr ⟨hx, h⟩
  · rw [hlookup] at h
    split at h
    · next hx => exact Or.inl ⟨hx, (Option.some.inj h).symm⟩
    · next hx => exact Or.inr ⟨hx, h⟩
  · rw [hlookup] at h
    split at h
    · next hx => exact Or.inl ⟨hx, (Option.some.inj h).symm⟩
    · next hx =>
      split at h
      · exact absurd h (by simp)
      · exact Or.inr ⟨hx, h⟩

theorem lookup_pop_self (c : Lru α β) (a : α) : (c.pop a).1.lookup a = none :=
  AList.lookup_erase _ _

theorem lookup_pop (c : Lru α β) (a x : α) :
    (c.pop a).1.lookup x = if x = a then none else c.lookup x := by
  split
  · next hx =>
    rw [hx]
    exact lookup_pop_self c a
  · next hx => exact AList.lookup_erase_ne hx

theorem of_lookup_pop (h : (c.pop a).1.lookup x = some d) : x ≠ a ∧ c.lookup x = some d := by
  refine ⟨?_, AssocMap.lookup_of_lookup_erase h⟩
  rintro rfl
  rw [lookup_pop_self] at h
  exact absurd h (by simp)

end Lru

end Ipfrs
