import Ipfrs.Lib.LazyHeap

/-!
# First in, first out, within a class

A heap whose items have a weight and a number, given out by decreasing weight, and by increasing
number among items of one weight. Items belong to classes. When the items of a class have one
weight, then a class gets its items out in the order of their numbers, whatever happens to the
others.

* `Lined`, `Queued` — what the heap still holds of a class, and of each class, in order;
* `Queued.push`, `Queued.pop` — a heap as one queue for each class.
-/

namespace PriorityFifo

variable {α κ : Type*} {cls : α → κ} {weight number : α → ℕ}

/-- The order of the heap: the greatest item comes out. -/
def le (weight number : α → ℕ) (x y : α) : Prop :=
  weight x < weight y ∨ weight x = weight y ∧ number y ≤ number x

instance (weight number : α → ℕ) : DecidableRel (le weight number) :=
  fun _ _ => inferInstanceAs (Decidable (_ ∨ _))

instance (weight number : α → ℕ) : Std.Total (le weight number) where
  total x y := by
    unfold le
    omega

instance (weight number : α → ℕ) : IsTrans α (le weight number) where
  trans x y z hxy hyz := by
    unfold le at *
    omega

variable [DecidableEq κ]

/-- What a heap holds of the class `c`, in the order of the numbers. The items have one weight. -/
structure Lined (cls : α → κ) (weight number : α → ℕ) (heap queue : List α) (c : κ) : Prop where
  perm : (heap.filter fun x => cls x = c).Perm queue
  sorted : queue.Pairwise fun x y => number x < number y
  weight_eq : ∀ x ∈ queue, ∀ y ∈ queue, weight x = weight y

/-- **One queue for each class**: `rest c` is what the heap holds of the class `c`. All numbers are
less than `next`. -/
structure Queued (cls : α → κ) (weight number : α → ℕ) (heap : List α) (rest : κ → List α)
    (next : ℕ) : Prop where
  lined : ∀ c, Lined cls weight number heap (rest c) c
  fresh : ∀ x ∈ heap, number x < next

variable {heap heap' queue tail : List α} {rest : κ → List α} {next : ℕ} {x : α} {c : κ}

/-! ### One class -/

namespace Lined

theorem mem_iff (h : Lined cls weight number heap queue c) : x ∈ queue ↔ x ∈ heap ∧ cls x = c := by
  rw [← h.perm.mem_iff, List.mem_filter, decide_eq_true_iff]

theorem cons_iff_of_ne (hne : cls x ≠ c) :
    Lined cls weight number (x :: heap) queue c ↔ Lined cls weight number heap queue c := by
  have hfilter : (x :: heap).filter (fun y => cls y = c) = heap.filter fun y => cls y = c :=
    List.filter_cons_of_neg (by simpa using hne)
  constructor
  · intro h
    exact ⟨hfilter ▸ h.perm, h.sorted, h.weight_eq⟩
  · intro h
    exact ⟨hfilter.symm ▸ h.perm, h.sorted, h.weight_eq⟩

theorem of_perm (h : Lined cls weight number heap queue c) (hperm : heap.Perm heap') :
    Lined cls weight number heap' queue c :=
  ⟨(hperm.filter _).symm.trans h.perm, h.sorted, h.weight_eq⟩

theorem push (h : Lined cls weight number heap queue (cls x))
    (hlast : ∀ y ∈ queue, number y < number x) (hweight : ∀ y ∈ queue, weight y = weight x) :
    Lined cls weight number (x :: heap) (queue ++ [x]) (cls x) where
  perm := by
    rw [List.filter_cons_of_pos (p := fun y => cls y = cls x) (by simp)]
    exact (h.perm.cons x).trans (List.perm_append_singleton x _).symm
  sorted := by
    rw [List.pairwise_append]
    -- all the others have smaller numbers
    refine ⟨h.sorted, List.pairwise_singleton _ _, fun y hy z hz => ?_⟩
    rw [List.mem_singleton.mp hz]
    exact hlast y hy
  weight_eq := by
    have hall : ∀ y ∈ queue ++ [x], weight y = weight x := by
      intro y hy
      obtain hy | hy := List.mem_append.mp hy
      · exact hweight y hy
      · rw [List.mem_singleton.mp hy]
    exact fun y hy z hz => (hall y hy).trans (hall z hz).symm

theorem of_cons (h : Lined cls weight number (x :: heap) (x :: tail) (cls x)) :
    Lined cls weight number heap tail (cls x) where
  perm := by
    have hperm := h.perm
    rw [List.filter_cons_of_pos (p := fun y => cls y = cls x) (by simp)] at hperm
    exact hperm.cons_inv
  sorted := (List.pairwise_cons.mp h.sorted).2
  weight_eq := fun y hy z hz => h.weight_eq y (.tail _ hy) z (.tail _ hz)

theorem exists_eq_cons (h : Lined cls weight number heap queue c) (hx : x ∈ queue)
    (hfirst : ∀ y ∈ queue, number x ≤ number y) : ∃ tail, queue = x :: tail := by
  cases queue with
  | nil => exact absurd hx List.not_mem_nil
  | cons y tail =>
    obtain rfl | hx := List.mem_cons.mp hx
    · exact ⟨tail, rfl⟩
    · -- the head of the queue has a smaller number than any other item
      have hlt := (List.pairwise_cons.mp h.sorted).1 x hx
      exact absurd (hfirst y List.mem_cons_self) (Nat.not_le.mpr hlt)

end Lined

/-! ### All classes -/

namespace Queued

theorem empty : Queued cls weight number [] (fun _ => []) 0 where
  lined := fun _ =>
    ⟨List.Perm.refl _, List.Pairwise.nil, fun _ h => absurd h List.not_mem_nil⟩
  fresh := fun _ h => absurd h List.not_mem_nil

theorem rest_eq_nil (h : Queued cls weight number [] rest next) (c : κ) : rest c = [] :=
  (h.lined c).perm.symm.eq_nil

/-- **A fresh item is the last of its class.** -/
theorem push (h : Queued cls weight number heap rest next) (hnumber : number x = next)
    (hweight : ∀ y ∈ rest (cls x), weight y = weight x) :
    Queued cls weight number (x :: heap)
      (Function.update rest (cls x) (rest (cls x) ++ [x])) (next + 1) where
  lined := by
    intro c
    by_cases hc : c = cls x
    · subst hc
      rw [Function.update_self]
      refine (h.lined (cls x)).push (fun y hy => ?_) hweight
      rw [hnumber]
      exact h.fresh y ((h.lined (cls x)).mem_iff.mp hy).1
    · rw [Function.update_of_ne hc, Lined.cons_iff_of_ne (Ne.symm hc)]
      exact h.lined c
  fresh := by
    intro y hy
    obtain rfl | hy := List.mem_cons.mp hy
    · exact Nat.lt_succ_of_le hnumber.le
    · exact Nat.lt_succ_of_lt (h.fresh y hy)

/-- **What comes out is the first of its class.** -/
theorem pop [DecidableEq α] {tie : List α → ℕ} (h : Queued cls weight number heap rest next)
    (hpop : LazyHeap.popMax (le weight number) tie heap = some (x, heap')) :
    ∃ tail, rest (cls x) = x :: tail ∧
      Queued cls weight number heap' (Function.update rest (cls x) tail) next := by
  obtain ⟨hperm, hmax⟩ := LazyHeap.popMax_eq_some hpop
  have hlined := h.lined (cls x)
  have hx : x ∈ rest (cls x) := hlined.mem_iff.mpr ⟨hperm.mem_iff.mpr List.mem_cons_self, rfl⟩
  -- all items of the class have its weight, so its number is the least one
  obtain ⟨tail, htail⟩ := hlined.exists_eq_cons hx fun y hy => by
    have hle := hmax y (hlined.mem_iff.mp hy).1
    have hweight := hlined.weight_eq x hx y hy
    unfold le at hle
    omega
  refine ⟨tail, htail, fun c => ?_, fun y hy => h.fresh y (hperm.mem_iff.mpr (.tail _ hy))⟩
  -- the class loses its first item, and the others stay as they are
  by_cases hc : c = cls x
  · subst hc
    rw [Function.update_self]
    exact (htail ▸ hlined.of_perm hperm).of_cons
  · rw [Function.update_of_ne hc, ← Lined.cons_iff_of_ne (Ne.symm hc)]
    exact (h.lined c).of_perm hperm

end Queued

end PriorityFifo
