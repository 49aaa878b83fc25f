import Mathlib.Algebra.Order.Ring.Nat

/-!
# Merkle trees and batch proofs

A complete binary tree is given by what its leaves hold and by the function that combines two
children. Level 0 is that of the leaves, and position `p` of level `l + 1` has the positions `2 * p`
and `2 * p + 1` of level `l` as children.

A batch proof for a set of leaves supplies some of the nodes, and the others are rebuilt from their
children (`rebuilt`). A node is covered when it lies above one of the leaves, and needed when it is
not covered but its sibling is.

* `rebuilt_of_supplied` — completeness: when the leaves and all needed nodes are supplied, every
  covered node is rebuilt;
* `supplied_of_rebuilt` — soundness: when the root is rebuilt without a collision, the leaves that
  were supplied are those of the tree;
* `rebuilt_eq_none` — nothing beyond the right edge of the tree leads to its root.
-/

namespace MerkleTree

variable {α : Type*}

/-- What the node at position `p` of a level holds. -/
def value (combine : α → α → α) (leaf : ℕ → α) : ℕ → ℕ → α
  | 0, p => leaf p
  | l + 1, p => combine (value combine leaf l (2 * p)) (value combine leaf l (2 * p + 1))

/-- A reading of the nodes in which every node below level `h` goes into its parent. -/
def ParentsAgree (combine : α → α → α) (v : ℕ → ℕ → α) (h : ℕ) : Prop :=
  ∀ l < h, ∀ p, v (l + 1) p = combine (v l (2 * p)) (v l (2 * p + 1))

/-- Two nodes that are both there, combined. -/
def combineKnown (combine : α → α → α) : Option α → Option α → Option α
  | some a, some b => some (combine a b)
  | _, _ => none

/-- The node at position `p` of a level, as far as it is supplied or follows from what is. -/
def rebuilt (combine : α → α → α) (supplied : ℕ → ℕ → Option α) : ℕ → ℕ → Option α
  | 0, p => supplied 0 p
  | l + 1, p => (supplied (l + 1) p).or
      (combineKnown combine (rebuilt combine supplied l (2 * p))
        (rebuilt combine supplied l (2 * p + 1)))

/-- The other child of the parent. -/
def sibling (p : ℕ) : ℕ := if p % 2 = 0 then p + 1 else p - 1

/-- The node at position `p` of level `l` lies above a leaf of `S`. -/
def Covered (S : Set ℕ) (l p : ℕ) : Prop := ∃ i ∈ S, i / 2 ^ l = p

/-- A node that does not lie above a leaf of `S`, next to one that does. -/
def Needed (S : Set ℕ) (l p : ℕ) : Prop := ¬ Covered S l p ∧ Covered S l (sibling p)

variable {combine : α → α → α} {v : ℕ → ℕ → α} {supplied : ℕ → ℕ → Option α} {S : Set ℕ}
  {h l p : ℕ}

theorem combineKnown_eq_some {x y : Option α} {c : α} :
    combineKnown combine x y = some c ↔ ∃ a b, x = some a ∧ y = some b ∧ combine a b = c := by
  cases x <;> cases y <;> simp [combineKnown]

theorem value_parentsAgree (leaf : ℕ → α) (h : ℕ) :
    ParentsAgree combine (value combine leaf) h := fun _ _ _ => rfl

/-! ### Positions -/

theorem sibling_sibling (p : ℕ) : sibling (sibling p) = p := by
  unfold sibling
  split <;> split <;> omega

theorem sibling_injective : Function.Injective sibling := by
  intro p q hpq
  rw [← sibling_sibling p, hpq, sibling_sibling]

theorem sibling_two_mul (p : ℕ) : sibling (2 * p) = 2 * p + 1 := by
  rw [sibling, if_pos (by omega)]

theorem sibling_two_mul_succ (p : ℕ) : sibling (2 * p + 1) = 2 * p := by
  rw [sibling, if_neg (by omega)]
  omega

/-- A level of `2 ^ k` nodes with `0 < k` has the sibling of each of its nodes. -/
theorem sibling_lt {k : ℕ} (hk : 0 < k) (hp : p < 2 ^ k) : sibling p < 2 ^ k := by
  obtain ⟨k, rfl⟩ := Nat.exists_eq_add_one.mpr hk
  rw [pow_succ] at hp ⊢
  unfold sibling
  split <;> omega

theorem covered_zero : Covered S 0 p ↔ p ∈ S := by
  simp [Covered]

theorem covered_succ : Covered S (l + 1) p ↔ ∃ q, Covered S l q ∧ q / 2 = p := by
  constructor
  · rintro ⟨i, hi, rfl⟩
    exact ⟨i / 2 ^ l, ⟨i, hi, rfl⟩, by rw [Nat.div_div_eq_div_mul, pow_succ]⟩
  · rintro ⟨_, ⟨i, hi, rfl⟩, rfl⟩
    exact ⟨i, hi, by rw [Nat.div_div_eq_div_mul, pow_succ]⟩

theorem children_of_covered (hp : Covered S (l + 1) p) :
    (Covered S l (2 * p) ∨ Needed S l (2 * p)) ∧
      (Covered S l (2 * p + 1) ∨ Needed S l (2 * p + 1)) := by
  by_cases hleft : Covered S l (2 * p)
  · refine ⟨Or.inl hleft, ?_⟩
    by_cases hright : Covered S l (2 * p + 1)
    · exact Or.inl hright
    · exact Or.inr ⟨hright, by rwa [sibling_two_mul_succ]⟩
  · -- the leaf below lies under the right child
    obtain ⟨q, hq, rfl⟩ := covered_succ.mp hp
    have hright : Covered S l (2 * (q / 2) + 1) := by
      rcases Nat.even_or_odd' q with ⟨k, rfl | rfl⟩
      · exact absurd hq (by rwa [show 2 * (2 * k / 2) = 2 * k by omega] at hleft)
      · rwa [show 2 * ((2 * k + 1) / 2) + 1 = 2 * k + 1 by omega]
    exact ⟨Or.inr ⟨hleft, by rwa [sibling_two_mul]⟩, Or.inl hright⟩

/-! ### Completeness -/

/-- **Completeness.** When the leaves of `S` and all needed nodes are supplied as `v` has them, and
nothing else is supplied for a covered node, every covered node is rebuilt as `v` has it. -/
theorem rebuilt_of_supplied (hv : ParentsAgree combine v h)
    (hleaf : ∀ i ∈ S, supplied 0 i = some (v 0 i))
    (hneeded : ∀ l < h, ∀ p, Needed S l p → supplied l p = some (v l p))
    (hcovered : ∀ l p, Covered S (l + 1) p → supplied (l + 1) p = none) :
    ∀ l ≤ h, ∀ p, Covered S l p → rebuilt combine supplied l p = some (v l p) := by
  intro l
  induction l with
  | zero =>
    intro _ p hp
    exact hleaf p (covered_zero.mp hp)
  | succ l ih =>
    intro hl p hp
    have hchild : ∀ q, Covered S l q ∨ Needed S l q →
        rebuilt combine supplied l q = some (v l q) := by
      rintro q (hq | hq)
      · exact ih (by omega) q hq
      · -- a node that is supplied is not looked for below
        have hsup := hneeded l hl q hq
        cases l with
        | zero => exact hsup
        | succ l => rw [rebuilt, hsup, Option.some_or]
    obtain ⟨hleft, hright⟩ := children_of_covered hp
    rw [rebuilt, hcovered l p hp, Option.none_or, hchild _ hleft, hchild _ hright, hv l hl p]
    rfl

/-- What is rebuilt agrees with `v`, when all that is supplied does. -/
theorem eq_of_rebuilt (hv : ParentsAgree combine v h)
    (hsupplied : ∀ l ≤ h, ∀ p a, supplied l p = some a → a = v l p) :
    ∀ l ≤ h, ∀ p a, rebuilt combine supplied l p = some a → a = v l p := by
  intro l
  induction l with
  | zero => exact hsupplied 0
  | succ l ih =>
    intro hl p a ha
    rw [rebuilt, Option.or_eq_some_iff] at ha
    rcases ha with ha | ⟨-, ha⟩
    · exact hsupplied (l + 1) hl p a ha
    · obtain ⟨b, c, hb, hc, rfl⟩ := combineKnown_eq_some.mp ha
      rw [ih (by omega) _ b hb, ih (by omega) _ c hc, hv l hl p]

/-! ### Soundness -/

/-- **Soundness.** When the root is rebuilt as `v` has it, and no pair of nodes on the way was
combined to the same as another pair of `v`, the leaves of `S` within the tree were supplied as `v`
has them. -/
theorem supplied_of_rebuilt (hv : ParentsAgree combine v h)
    (hcovered : ∀ l p, Covered S (l + 1) p → supplied (l + 1) p = none)
    (hfree : ∀ l < h, ∀ p < 2 ^ (h - (l + 1)), ∀ a b,
      rebuilt combine supplied l (2 * p) = some a →
        rebuilt combine supplied l (2 * p + 1) = some b →
          combine a b = combine (v l (2 * p)) (v l (2 * p + 1)) →
            a = v l (2 * p) ∧ b = v l (2 * p + 1))
    (hroot : rebuilt combine supplied h 0 = some (v h 0)) {i : ℕ} (hi : i ∈ S) (hih : i < 2 ^ h) :
    supplied 0 i = some (v 0 i) := by
  -- top-down along the nodes above the leaf
  suffices hdown : ∀ k ≤ h, rebuilt combine supplied (h - k) (i / 2 ^ (h - k))
      = some (v (h - k) (i / 2 ^ (h - k))) by
    have hzero := hdown h le_rfl
    rwa [Nat.sub_self, pow_zero, Nat.div_one] at hzero
  intro k
  induction k with
  | zero =>
    intro _
    rwa [Nat.sub_zero, Nat.div_eq_of_lt hih]
  | succ k ih =>
    intro hk
    obtain ⟨l, hl⟩ : ∃ l, h - k = l + 1 := ⟨h - k - 1, by omega⟩
    obtain rfl : l = h - (k + 1) := by omega
    set l := h - (k + 1)
    have hup := ih (by omega)
    rw [hl] at hup
    set q := i / 2 ^ (l + 1) with hq
    have hqlt : q < 2 ^ (h - (l + 1)) := by
      rw [hq, Nat.div_lt_iff_lt_mul (Nat.two_pow_pos _), ← pow_add]
      exact lt_of_lt_of_eq hih (by congr 1; omega)
    rw [rebuilt, hcovered l q ⟨i, hi, rfl⟩, Option.none_or, combineKnown_eq_some] at hup
    obtain ⟨a, b, ha, hb, hab⟩ := hup
    rw [hv l (by omega) q] at hab
    obtain ⟨rfl, rfl⟩ := hfree l (by omega) q hqlt a b ha hb hab
    -- the next node down is one of the two children
    have hchild : i / 2 ^ l = 2 * q ∨ i / 2 ^ l = 2 * q + 1 := by
      have hdiv : i / 2 ^ l / 2 = q := by rw [Nat.div_div_eq_div_mul, hq, pow_succ]
      omega
    rcases hchild with hc | hc
    · rwa [hc]
    · rwa [hc]

/-- Nothing at or beyond the right edge of the tree leads to its root. -/
theorem rebuilt_eq_none
    (hout : ∀ l ≤ h, ∀ p a, supplied l p = some a → 2 ^ (h - l) ≤ p) :
    rebuilt combine supplied h 0 = none := by
  have hall : ∀ l ≤ h, ∀ p a, rebuilt combine supplied l p = some a → 2 ^ (h - l) ≤ p := by
    intro l
    induction l with
    | zero => exact hout 0
    | succ l ih =>
      intro hl p a ha
      rw [rebuilt, Option.or_eq_some_iff] at ha
      rcases ha with ha | ⟨-, ha⟩
      · exact hout (l + 1) hl p a ha
      · obtain ⟨b, c, hb, -, -⟩ := combineKnown_eq_some.mp ha
        have hle := ih (by omega) (2 * p) b hb
        rw [show h - l = h - (l + 1) + 1 by omega, pow_succ] at hle
        omega
  cases hr : rebuilt combine supplied h 0 with
  | none => rfl
  | some a =>
    have hle := hall h le_rfl 0 a hr
    simp at hle

/-! ### The tree as seen from any position -/

/-- Reading the tree of height `h` over and over again to the right. -/
def mirrored (v : ℕ → ℕ → α) (h l p : ℕ) : α := v l (p % 2 ^ (h - l))

theorem mirrored_of_lt (hp : p < 2 ^ (h - l)) : mirrored v h l p = v l p := by
  rw [mirrored, Nat.mod_eq_of_lt hp]

theorem mirrored_children (hl : l < h) (p : ℕ) :
    mirrored v h l (2 * p) = v l (2 * (p % 2 ^ (h - (l + 1)))) ∧
      mirrored v h l (2 * p + 1) = v l (2 * (p % 2 ^ (h - (l + 1))) + 1) := by
  have hpow : 2 ^ (h - l) = 2 * 2 ^ (h - (l + 1)) := by
    rw [show h - l = h - (l + 1) + 1 by omega, pow_succ, mul_comm]
  have hodd : (2 * p + 1) % 2 = 1 ∧ (2 * p + 1) / 2 = p := by omega
  rw [mirrored, mirrored, hpow, Nat.mul_mod_mul_left, Nat.mod_mul, hodd.1, hodd.2, add_comm 1]
  exact ⟨rfl, rfl⟩

theorem mirrored_parentsAgree (hv : ParentsAgree combine v h) :
    ParentsAgree combine (mirrored v h) h := by
  intro l hl p
  obtain ⟨hleft, hright⟩ := mirrored_children (v := v) hl p
  rw [hleft, hright, mirrored, hv l hl]

end MerkleTree
