import Mathlib.Algebra.Group.Nat.Defs
import Mathlib.Tactic.Common

/-!
# Hash trees in an array

A complete binary tree with `n` leaves as an array: node 1 is the root, the children of node `i` are
`2 * i` and `2 * i + 1`, and the leaves are the nodes from `n`. A tree is `Sealed` when every inner
node combines its children. `sealUpTo` makes it so from the leaves up, and `reseal` after a change
of one leaf; both give the same, since the leaves determine a sealed tree (`Sealed.reseal_update`).

A path lists the siblings on the way up from a node; replayed, it gives the root of a sealed tree
(`Sealed.replay_path`).
-/

namespace HeapTree

variable {α : Type*} (combine : α → α → α)

/-- Every inner node combines its children. -/
def Sealed (n : ℕ) (v : ℕ → α) : Prop :=
  ∀ i, 0 < i → i < n → v i = combine (v (2 * i)) (v (2 * i + 1))

/-- The inner nodes up to `i` are made from their children, the last one first. -/
def sealUpTo : ℕ → (ℕ → α) → ℕ → α
  | 0, v => v
  | i + 1, v =>
    sealUpTo i (Function.update v (i + 1) (combine (v (2 * (i + 1))) (v (2 * (i + 1) + 1))))

/-- Node `i` and those above it are made anew. -/
def reseal (i : ℕ) (v : ℕ → α) : ℕ → α :=
  if 1 ≤ i then reseal (i / 2) (Function.update v i (combine (v (2 * i)) (v (2 * i + 1)))) else v
termination_by i

/-- A node beside the way up. -/
structure Step (α : Type*) where
  sibling : α
  isLeft : Bool
  deriving DecidableEq

/-- The way up from node `i`. -/
def path (v : ℕ → α) (i : ℕ) : List (Step α) :=
  if 1 < i then
    ⟨v (if i % 2 = 1 then i - 1 else i + 1), i % 2 = 1⟩ :: path v (i / 2)
  else []
termination_by i

/-- A node and its sibling, in order. -/
def Step.pair (step : Step α) (a : α) : α × α :=
  if step.isLeft then (step.sibling, a) else (a, step.sibling)

/-- What a path leads up to. -/
def replay (a : α) (path : List (Step α)) : α :=
  path.foldl (fun a step => combine (step.pair a).1 (step.pair a).2) a

variable {combine} {n : ℕ} {v w : ℕ → α}

/-- **The leaves determine a sealed tree.** -/
theorem Sealed.eq_of_leaves (hv : Sealed combine n v) (hw : Sealed combine n w)
    (hleaves : ∀ i, n ≤ i → v i = w i) {i : ℕ} (hi : 0 < i) : v i = w i := by
  -- downwards: the children of a node have larger numbers
  induction hk : n - i using Nat.strongRecOn generalizing i with
  | _ k ih =>
    by_cases hn : n ≤ i
    · exact hleaves i hn
    · rw [hv i hi (by omega), hw i hi (by omega), ih _ (by omega) (by omega) rfl,
        ih _ (by omega) (by omega) rfl]

theorem sealUpTo_of_lt {k i : ℕ} (hi : i = 0 ∨ k < i) : sealUpTo combine k v i = v i := by
  induction k generalizing v with
  | zero => rfl
  | succ k ih => rw [sealUpTo, ih (by omega), Function.update_of_ne (by omega)]

/-- **The whole tree is sealed** from the leaves up. -/
theorem sealed_sealUpTo (n : ℕ) (v : ℕ → α) : Sealed combine n (sealUpTo combine (n - 1) v) := by
  suffices h : ∀ k (v : ℕ → α) i, 0 < i → i ≤ k → sealUpTo combine k v i =
      combine (sealUpTo combine k v (2 * i)) (sealUpTo combine k v (2 * i + 1)) from
    fun i hi hn => h _ v i hi (by omega)
  intro k
  induction k with
  | zero => intro v i hi hk; omega
  | succ k ih =>
    intro v i hi hk
    rcases Nat.lt_or_eq_of_le hk with hlt | rfl
    · exact ih _ i hi (by omega)
    · rw [sealUpTo, sealUpTo_of_lt (by omega), sealUpTo_of_lt (by omega),
        sealUpTo_of_lt (by omega), Function.update_self, Function.update_of_ne (by omega),
        Function.update_of_ne (by omega)]

/-- **Resealing** a tree in which only the nodes from `c` upwards may be wrong. -/
theorem sealed_reseal {c : ℕ} (hc : c < n)
    (h : ∀ i, 0 < i → i < n → (∀ k, c / 2 ^ k ≠ i) → v i = combine (v (2 * i)) (v (2 * i + 1))) :
    Sealed combine n (reseal combine c v) ∧
      ∀ i, i = 0 ∨ n ≤ i → reseal combine c v i = v i := by
  induction c using Nat.strongRecOn generalizing v with
  | _ c ih =>
    rw [reseal]
    split
    · next hpos =>
      have hnext := @ih (c / 2) (by omega)
        (Function.update v c (combine (v (2 * c)) (v (2 * c + 1)))) (by omega) ?_
      · refine ⟨hnext.1, fun i hi => (hnext.2 i hi).trans ?_⟩
        rw [Function.update_of_ne (by omega)]
      · intro i hi hn hup
        have hparent := hup 0
        rw [Nat.pow_zero, Nat.div_one] at hparent
        by_cases hic : i = c
        · subst hic
          rw [Function.update_self, Function.update_of_ne (by omega),
            Function.update_of_ne (by omega)]
        · rw [Function.update_of_ne hic, Function.update_of_ne (by omega),
            Function.update_of_ne (by omega)]
          refine h i hi hn fun k => ?_
          cases k with
          | zero =>
            rw [Nat.pow_zero, Nat.div_one]
            exact Ne.symm hic
          | succ k =>
            have hk := hup k
            rwa [Nat.div_div_eq_div_mul, ← Nat.pow_succ'] at hk
    · next hzero =>
      refine ⟨fun i hi hn => h i hi hn fun k => ?_, fun _ _ => rfl⟩
      rw [show c = 0 by omega, Nat.zero_div]
      exact Nat.ne_of_lt hi

/-- **A change of one leaf**: resealing above it gives the sealed tree with the new leaves. -/
theorem Sealed.reseal_update (hv : Sealed combine n v) (hw : Sealed combine n w) {p : ℕ} {a : α}
    (hp : n ≤ p) (hlt : p < 2 * n)
    (hleaves : ∀ i, i = 0 ∨ n ≤ i → w i = Function.update v p a i) :
    reseal combine (p / 2) (Function.update v p a) = w := by
  have h : Sealed combine n _ ∧ _ := sealed_reseal (c := p / 2) (v := Function.update v p a)
    (by omega) ?_
  · have hsame : ∀ i, i = 0 ∨ n ≤ i → reseal combine (p / 2) (Function.update v p a) i = w i :=
      fun i hi => (h.2 i hi).trans (hleaves i hi).symm
    funext i
    rcases Nat.eq_zero_or_pos i with rfl | hi
    · exact hsame 0 (Or.inl rfl)
    · exact h.1.eq_of_leaves hw (fun i hi => hsame i (Or.inr hi)) hi
  · intro i hi hn hup
    have hparent : p / 2 ≠ i := by simpa using hup 0
    rw [Function.update_of_ne (by omega), Function.update_of_ne (by omega),
      Function.update_of_ne (by omega)]
    exact hv i hi hn

/-- **A path leads up to the root.** -/
theorem Sealed.replay_path (hv : Sealed combine n v) {i : ℕ} (hi : 0 < i) (hn : i < 2 * n) :
    replay combine (v i) (path v i) = v 1 := by
  induction i using Nat.strongRecOn with
  | _ i ih =>
    rw [path]
    split
    · next hlt =>
      have hparent := hv (i / 2) (by omega) (by omega)
      rw [← ih (i / 2) (by omega) (by omega) (by omega), hparent, replay, replay, List.foldl_cons]
      congr 1
      rcases Nat.mod_two_eq_zero_or_one i with hmod | hmod
      · rw [show 2 * (i / 2) = i by omega]
        simp [Step.pair, hmod]
      · rw [show 2 * (i / 2) = i - 1 by omega, show i - 1 + 1 = i by omega]
        simp [Step.pair, hmod]
    · rw [show i = 1 by omega]
      rfl

end HeapTree
