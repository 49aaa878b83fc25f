import Mathlib.Data.List.Nodup
import Mathlib.Data.List.Perm.Subperm
import Mathlib.Order.Nat

/-!
# Heaps with stale items

A heap gives its items out greatest first. To change or drop what it holds for a key, one can leave
the old item where it is, note that another version of the key counts, or none, and skip the old
item when it comes out.

A heap is the list of its items, in no particular order. `tie` says which of several greatest items
comes out.

* `popMax_eq_some`, `popMax_eq_none_iff` — a greatest item, if there is any;
* `popLive_spec` — a greatest one of the live items, if there is any, and the live ones remain;
* `Tracks` — every live version of a key has exactly one item: kept by `Tracks.put`, `Tracks.drop`
  and `Tracks.pop`.
-/

namespace LazyHeap

variable {α : Type*} {le : α → α → Prop} [DecidableRel le]

/-! ### Greatest items -/

/-- The greatest items. -/
def maxima (le : α → α → Prop) [DecidableRel le] (heap : List α) : List α :=
  heap.filter fun x => ∀ y ∈ heap, le y x

variable {heap : List α}

theorem mem_maxima {x : α} : x ∈ maxima le heap ↔ x ∈ heap ∧ ∀ y ∈ heap, le y x := by
  simp [maxima]

/-- A total preorder has greatest items in every list that is not empty. -/
theorem exists_mem_maxima [Std.Total le] [IsTrans α le] (h : heap ≠ []) :
    ∃ x, x ∈ maxima le heap := by
  induction heap with
  | nil => exact absurd rfl h
  | cons a heap ih =>
    by_cases hnil : heap = []
    · subst hnil
      exact ⟨a, mem_maxima.mpr ⟨List.mem_cons_self, fun y hy => by
        rw [List.mem_singleton.mp hy]
        exact (Std.Total.total a a).elim (fun h => h) fun h => h⟩⟩
    · obtain ⟨x, hx⟩ := ih hnil
      obtain ⟨hmem, hmax⟩ := mem_maxima.mp hx
      obtain hle | hle := Std.Total.total (r := le) a x
      · refine ⟨x, mem_maxima.mpr ⟨List.mem_cons_of_mem _ hmem, ?_⟩⟩
        exact List.forall_mem_cons.mpr ⟨hle, hmax⟩
      · refine ⟨a, mem_maxima.mpr ⟨List.mem_cons_self, ?_⟩⟩
        refine List.forall_mem_cons.mpr ⟨(Std.Total.total a a).elim (fun h => h) fun h => h, ?_⟩
        exact fun y hy => IsTrans.trans y x a (hmax y hy) hle

section

variable [DecidableEq α]

/-- A greatest item and the other items. -/
def popMax (le : α → α → Prop) [DecidableRel le] (tie : List α → ℕ) (heap : List α) :
    Option (α × List α) :=
  ((maxima le heap)[tie heap % (maxima le heap).length]?).map fun x => (x, heap.erase x)

variable {tie : List α → ℕ} {heap : List α}

theorem popMax_eq_some {rest : List α} {x : α} (h : popMax le tie heap = some (x, rest)) :
    heap.Perm (x :: rest) ∧ ∀ y ∈ heap, le y x := by
  obtain ⟨x', hget, heq⟩ := Option.map_eq_some_iff.mp h
  obtain ⟨rfl, rfl⟩ := Prod.mk.inj heq
  obtain ⟨hmem, hmax⟩ := mem_maxima.mp (List.mem_of_getElem? hget)
  exact ⟨List.perm_cons_erase hmem, hmax⟩

theorem popMax_eq_none_iff [Std.Total le] [IsTrans α le] :
    popMax le tie heap = none ↔ heap = [] := by
  rw [popMax, Option.map_eq_none_iff, List.getElem?_eq_none_iff]
  constructor
  · intro h
    by_contra hne
    obtain ⟨x, hx⟩ : ∃ x, x ∈ maxima le heap := exists_mem_maxima hne
    exact absurd (Nat.mod_lt _ (List.length_pos_of_mem hx)) (not_lt.mpr h)
  · rintro rfl
    exact Nat.zero_le _

/-! ### Live items -/

/-- Items come out until one is live. -/
def popLive (le : α → α → Prop) [DecidableRel le] (tie : List α → ℕ) (live : α → Bool) :
    ℕ → List α → Option α × List α
  | 0, heap => (none, heap)
  | fuel + 1, heap =>
    match popMax le tie heap with
    | none => (none, heap)
    | some (x, rest) => if live x then (some x, rest) else popLive le tie live fuel rest

variable (le) in
/-- **The next live item** is a greatest one, if there is any, and no other live item is lost. -/
theorem popLive_spec [Std.Total le] [IsTrans α le] (tie : List α → ℕ) (live : α → Bool) {fuel : ℕ}
    (hfuel : heap.length < fuel) :
    (∀ x ∈ (popLive le tie live fuel heap).2, x ∈ heap) ∧
    ((popLive le tie live fuel heap).2.Subperm heap) ∧
    (((popLive le tie live fuel heap).1 = none ∧ ∀ x ∈ heap, live x = false) ∨
      ∃ x ∈ heap, (popLive le tie live fuel heap).1 = some x ∧ live x = true ∧
        (∀ y ∈ heap, live y = true → le y x) ∧
        ∀ y ∈ heap, live y = true → y ≠ x → y ∈ (popLive le tie live fuel heap).2) := by
  induction fuel generalizing heap with
  | zero => exact absurd hfuel (Nat.not_lt_zero _)
  | succ fuel ih =>
    rw [popLive]
    rcases hpop : popMax le tie heap with _ | ⟨x, rest⟩
    · obtain rfl := popMax_eq_none_iff.mp hpop
      exact ⟨fun _ h => h, List.Subperm.refl _, .inl ⟨rfl, by simp⟩⟩
    · obtain ⟨hperm, hmax⟩ := popMax_eq_some hpop
      have hmem : ∀ y, y ∈ heap ↔ y = x ∨ y ∈ rest := fun y => by
        rw [hperm.mem_iff, List.mem_cons]
      have hsub : rest.Subperm heap :=
        (List.sublist_cons_self x rest).subperm.trans hperm.symm.subperm
      dsimp only
      split
      · next hlive =>
        refine ⟨fun y hy => (hmem y).mpr (.inr hy), hsub, .inr ?_⟩
        refine ⟨x, (hmem x).mpr (.inl rfl), rfl, hlive, fun y hy _ => hmax y hy, ?_⟩
        exact fun y hy _ hne => ((hmem y).mp hy).resolve_left hne
      · next hstale =>
        -- a stale item is skipped
        have hshort : rest.length < fuel := by
          have := hperm.length_eq
          rw [List.length_cons] at this
          omega
        obtain ⟨hsubset, hsub', hcases⟩ := ih hshort
        refine ⟨fun y hy => (hmem y).mpr (.inr (hsubset y hy)), hsub'.trans hsub, ?_⟩
        have hother : ∀ y ∈ heap, live y = true → y ∈ rest := by
          intro y hy hlive
          refine ((hmem y).mp hy).resolve_left ?_
          rintro rfl
          exact hstale hlive
        obtain ⟨hnone, hall⟩ | ⟨z, hz, hsome, hlive, hgreatest, hkept⟩ := hcases
        · refine .inl ⟨hnone, fun y hy => ?_⟩
          by_contra hlive
          rw [Bool.not_eq_false] at hlive
          rw [hall y (hother y hy hlive)] at hlive
          cases hlive
        · refine .inr ⟨z, (hmem z).mpr (.inr hz), hsome, hlive, ?_, ?_⟩
          · exact fun y hy hy' => hgreatest y (hother y hy hy') hy'
          · exact fun y hy hy' hne => hkept y (hother y hy hy') hy' hne

end

/-! ### Versions -/

section Versions

variable {κ : Type*} {key : α → κ} {version : α → ℕ} {counter : ℕ}
  {current : κ → Option ℕ} {item : κ → α} {heap rest : List α} {k : κ} {x : α}

/-- **Every key that counts has exactly one item**: `item k`, with the version `current k`. No two
items have the same version, and new versions come from a counter. -/
structure Tracks (key : α → κ) (version : α → ℕ) (counter : ℕ) (current : κ → Option ℕ)
    (item : κ → α) (heap : List α) : Prop where
  mem : ∀ k v, current k = some v → item k ∈ heap ∧ key (item k) = k ∧ version (item k) = v
  nodup : (heap.map version).Nodup
  le_counter : ∀ x ∈ heap, version x ≤ counter

/-- An item is live if its version is the current one of its key. -/
def live (key : α → κ) (version : α → ℕ) (current : κ → Option ℕ) (x : α) : Bool :=
  current (key x) = some (version x)

theorem Tracks.empty : Tracks key version counter (fun _ => none) item [] where
  mem _ _ h := by cases h
  nodup := List.nodup_nil
  le_counter _ h := by cases h

theorem Tracks.eq_of_version (h : Tracks key version counter current item heap) {y : α}
    (hx : x ∈ heap) (hy : y ∈ heap) (heq : version x = version y) : x = y :=
  List.inj_on_of_nodup_map h.nodup hx hy heq

theorem Tracks.live_iff (h : Tracks key version counter current item heap) (hx : x ∈ heap) :
    live key version current x = true ↔ (current (key x)).isSome = true ∧ x = item (key x) := by
  rw [live, decide_eq_true_iff]
  constructor
  · intro hcurrent
    obtain ⟨hmem, -, hversion⟩ := h.mem _ _ hcurrent
    exact ⟨by rw [hcurrent]; rfl, h.eq_of_version hx hmem hversion.symm⟩
  · rintro ⟨hsome, heq⟩
    obtain ⟨v, hv⟩ := Option.isSome_iff_exists.mp hsome
    obtain ⟨-, -, hversion⟩ := h.mem _ _ hv
    rw [hv, ← hversion, ← heq]

/-- **A new version of a key.** -/
theorem Tracks.put [DecidableEq κ] (h : Tracks key version counter current item heap)
    (hversion : version x = counter + 1) :
    Tracks key version (counter + 1) (Function.update current (key x) (some (counter + 1)))
      (Function.update item (key x) x) (x :: heap) where
  mem k v hk := by
    by_cases hkey : k = key x
    · subst hkey
      rw [Function.update_self] at hk ⊢
      obtain rfl := Option.some.inj hk
      exact ⟨List.mem_cons_self, rfl, hversion⟩
    · rw [Function.update_of_ne hkey] at hk ⊢
      obtain ⟨hmem, hkey', hv⟩ := h.mem k v hk
      exact ⟨List.mem_cons_of_mem _ hmem, hkey', hv⟩
  nodup := by
    rw [List.map_cons, List.nodup_cons]
    refine ⟨fun hmem => ?_, h.nodup⟩
    obtain ⟨y, hy, heq⟩ := List.mem_map.mp hmem
    have hle := h.le_counter y hy
    omega
  le_counter := by
    refine List.forall_mem_cons.mpr ⟨hversion.le, fun y hy => ?_⟩
    exact (h.le_counter y hy).trans counter.le_succ

/-- **A key that counts no more.** Its item stays in the heap. -/
theorem Tracks.drop [DecidableEq κ] (h : Tracks key version counter current item heap) (k : κ) :
    Tracks key version counter (Function.update current k none) item heap where
  mem k' v hk' := by
    by_cases hkey : k' = k
    · rw [hkey, Function.update_self] at hk'
      cases hk'
    · rw [Function.update_of_ne hkey] at hk'
      exact h.mem k' v hk'
  nodup := h.nodup
  le_counter := h.le_counter

/-- **The next item** is that of a key whose item is greatest, if any key counts, and what remains
has the items of the other keys. -/
theorem Tracks.pop [DecidableEq α] [DecidableEq κ] [Std.Total le] [IsTrans α le]
    (h : Tracks key version counter current item heap) {tie : List α → ℕ} {fuel : ℕ}
    (hfuel : heap.length < fuel) {result : Option α}
    (hpop : popLive le tie (live key version current) fuel heap = (result, rest)) :
    (result = none ∧ (∀ k, current k = none) ∧
      Tracks key version counter current item rest) ∨
    ∃ k, result = some (item k) ∧ key (item k) = k ∧ current k = some (version (item k)) ∧
      (∀ k', (current k').isSome = true → le (item k') (item k)) ∧
      Tracks key version counter (Function.update current k none) item rest := by
  obtain ⟨hsubset, hsub, hcases⟩ :=
    popLive_spec le tie (live key version current) hfuel
  rw [hpop] at hsubset hsub hcases
  have hnodup : (rest.map version).Nodup := by
    obtain ⟨l, hperm, hsublist⟩ := hsub
    exact (hperm.map version).nodup_iff.mp ((hsublist.map version).nodup h.nodup)
  have hle : ∀ x ∈ rest, version x ≤ counter := fun x hx => h.le_counter x (hsubset x hx)
  -- the item of a key that counts is live
  have hlive : ∀ k v, current k = some v → live key version current (item k) = true := by
    intro k v hk
    obtain ⟨-, hkey, hversion⟩ := h.mem k v hk
    rw [live, hkey, hversion, hk, decide_eq_true_iff]
  obtain ⟨hnone, hall⟩ | ⟨x, hx, hsome, hx', hgreatest, hkept⟩ := hcases
  · have hcurrent : ∀ k, current k = none := by
      intro k
      by_contra hne
      obtain ⟨v, hv⟩ := Option.ne_none_iff_exists'.mp hne
      have := hall _ (h.mem k v hv).1
      rw [hlive k v hv] at this
      cases this
    refine .inl ⟨hnone, hcurrent, fun k v hk => ?_, hnodup, hle⟩
    rw [hcurrent k] at hk
    cases hk
  · obtain ⟨hsome', heq⟩ := (h.live_iff hx).mp hx'
    obtain ⟨v, hv⟩ := Option.isSome_iff_exists.mp hsome'
    have hmem := h.mem _ _ hv
    rw [← heq] at hmem
    refine .inr ⟨key x, hsome.trans (congrArg some heq), ?_, ?_, ?_, ?_, hnodup, hle⟩
    · rw [← heq]
    · rw [← heq, hmem.2.2, hv]
    · intro k' hk'
      obtain ⟨v', hv'⟩ := Option.isSome_iff_exists.mp hk'
      rw [← heq]
      exact hgreatest _ (h.mem k' v' hv').1 (hlive k' v' hv')
    · intro k' v' hk'
      by_cases hkey : k' = key x
      · rw [hkey, Function.update_self] at hk'
        cases hk'
      · rw [Function.update_of_ne hkey] at hk'
        obtain ⟨hmem', hkey', hversion'⟩ := h.mem k' v' hk'
        refine ⟨hkept _ hmem' (hlive k' v' hk') fun heq' => ?_, hkey', hversion'⟩
        rw [heq'] at hkey'
        exact hkey hkey'.symm

end Versions

end LazyHeap
