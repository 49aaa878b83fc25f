import Mathlib.Data.List.Basic
import Mathlib.Logic.Function.Iterate

/-!
# Cyclic redundancy checks

The remainder of a message as a shift register of `w` bits, reflected: one shift moves the register
down by a bit, and brings in the polynomial when a bit falls out. A symbol of `k` bits is added to
the low end, and `k` shifts follow.

A shift is linear, and it can be undone when the highest bit of the polynomial is set. So symbols
that fit into the register together are as good as the register itself, and two messages that differ
in such a burst only have different remainders.

* `shifts_xor`, `shifts_injective` — shifts are linear and injective;
* `shifts_split` — `k` shifts look at the `k` lowest bits, which a table may have ready;
* `feedAll_eq` — symbols that fit into the register, as one word;
* `feedAll_burst` — bursts are detected.
-/

namespace Crc

variable {w : ℕ} (poly : BitVec w)

/-- One shift of the register. -/
def shift (x : BitVec w) : BitVec w := (x >>> 1) ^^^ (if x.getLsbD 0 then poly else 0)

/-- `n` shifts. -/
def shifts (n : ℕ) : BitVec w → BitVec w := (shift poly)^[n]

variable {poly} {x y : BitVec w} {n : ℕ}

theorem xor_xor_xor_comm (a b c d : BitVec w) : a ^^^ b ^^^ (c ^^^ d) = a ^^^ c ^^^ (b ^^^ d) := by
  ac_rfl

/-- **A shift is linear.** -/
theorem shift_xor (x y : BitVec w) : shift poly (x ^^^ y) = shift poly x ^^^ shift poly y := by
  have hpoly : (if (x ^^^ y).getLsbD 0 then poly else 0)
      = (if x.getLsbD 0 then poly else 0) ^^^ (if y.getLsbD 0 then poly else 0) := by
    rw [BitVec.getLsbD_xor]
    cases x.getLsbD 0 <;> cases y.getLsbD 0 <;> simp
  rw [shift, shift, shift, hpoly, BitVec.ushiftRight_xor_distrib, xor_xor_xor_comm]

theorem shifts_succ (n : ℕ) (x : BitVec w) : shifts poly (n + 1) x = shifts poly n (shift poly x) :=
  rfl

theorem shifts_add (m n : ℕ) (x : BitVec w) :
    shifts poly (m + n) x = shifts poly m (shifts poly n x) :=
  Function.iterate_add_apply _ m n x

theorem shifts_xor (n : ℕ) (x y : BitVec w) :
    shifts poly n (x ^^^ y) = shifts poly n x ^^^ shifts poly n y := by
  induction n generalizing x y with
  | zero => rfl
  | succ n ih => rw [shifts_succ, shifts_succ, shifts_succ, shift_xor, ih]

/-- Nothing but zero is shifted to zero: the bit that falls out would set the highest bit. -/
theorem eq_zero_of_shift_eq_zero (hpoly : poly.msb = true) (h : shift poly x = 0#w) :
    x = 0#w := by
  have hmsb := congrArg BitVec.msb h
  have hzero : (x >>> 1).msb = false := by
    rw [BitVec.msb_ushiftRight]
    simp
  have hlow : x.getLsbD 0 = false := by
    by_contra hset
    rw [shift, if_pos (by simpa using hset), BitVec.msb_xor, hzero, hpoly] at hmsb
    simp at hmsb
  rw [shift, hlow] at h
  apply BitVec.eq_of_getLsbD_eq
  intro i hi
  cases i with
  | zero => rw [hlow, BitVec.getLsbD_zero]
  | succ i =>
    have hbit := congrArg (fun z => z.getLsbD i) h
    simpa [Nat.add_comm] using hbit

/-- **A shift can be undone.** -/
theorem shift_injective (hpoly : poly.msb = true) : Function.Injective (shift poly) := by
  intro x y h
  have hxor : shift poly (x ^^^ y) = 0#w := by
    rw [shift_xor, h, BitVec.xor_self]
  exact BitVec.xor_eq_zero_iff.mp (eq_zero_of_shift_eq_zero hpoly hxor)

theorem shifts_injective (hpoly : poly.msb = true) (n : ℕ) : Function.Injective (shifts poly n) :=
  (shift_injective hpoly).iterate n

/-- As long as no bit that is set falls out, the register only moves down. -/
theorem shifts_of_low (h : ∀ i < n, x.getLsbD i = false) : shifts poly n x = x >>> n := by
  induction n generalizing x with
  | zero => exact (BitVec.ushiftRight_zero x).symm
  | succ n ih =>
    have hshift : shift poly x = x >>> 1 := by
      rw [shift, h 0 (Nat.succ_pos n)]
      simp
    rw [shifts_succ, hshift, ih, ← BitVec.shiftRight_add, Nat.add_comm]
    intro i hi
    rw [BitVec.getLsbD_ushiftRight]
    exact h (1 + i) (by omega)

/-- **Shifts look at the bits that fall out**: the others move down. -/
theorem shifts_split (n : ℕ) (x : BitVec w) :
    shifts poly n x = (x >>> n) ^^^ shifts poly n ((x.setWidth n).setWidth w) := by
  have hsplit : x = ((x >>> n) <<< n) ^^^ (x.setWidth n).setWidth w := by
    apply BitVec.eq_of_getLsbD_eq
    intro i hi
    rw [BitVec.getLsbD_xor, BitVec.getLsbD_shiftLeft, BitVec.getLsbD_ushiftRight,
      BitVec.getLsbD_setWidth, BitVec.getLsbD_setWidth]
    by_cases hin : i < n
    · simp [hin, hi]
    · simp [hin, hi, Nat.add_sub_cancel' (Nat.not_lt.mp hin)]
  have hhigh : shifts poly n ((x >>> n) <<< n) = x >>> n := by
    rw [shifts_of_low fun i hi => by simp [hi]]
    apply BitVec.eq_of_getLsbD_eq
    intro i hi
    rw [BitVec.getLsbD_ushiftRight, BitVec.getLsbD_shiftLeft, BitVec.getLsbD_ushiftRight]
    by_cases hin : n + i < w
    · simp [hin]
    · simp [hin, BitVec.getLsbD_of_ge x (n + i) (by omega)]
  conv_lhs => rw [hsplit]
  rw [shifts_xor, hhigh]

/-! ### Symbols -/

variable {k : ℕ} (poly)

/-- A symbol is added to the register. -/
def feed (x : BitVec w) (b : BitVec k) : BitVec w := shifts poly k (x ^^^ b.setWidth w)

/-- All symbols of a message. -/
def feedAll (x : BitVec w) (bs : List (BitVec k)) : BitVec w := bs.foldl (feed poly) x

variable (w)

/-- Symbols as one word, the first one lowest. -/
def word : List (BitVec k) → BitVec w
  | [] => 0#w
  | b :: bs => b.setWidth w ^^^ (word bs <<< k)

variable {w} {poly} {bs bs' : List (BitVec k)}

theorem getLsbD_word_of_le {i : ℕ} (h : k * bs.length ≤ i) : (word w bs).getLsbD i = false := by
  induction bs generalizing i with
  | nil => exact BitVec.getLsbD_zero
  | cons b bs ih =>
    rw [List.length_cons, Nat.mul_succ] at h
    rw [word, BitVec.getLsbD_xor, BitVec.getLsbD_setWidth, BitVec.getLsbD_shiftLeft,
      BitVec.getLsbD_of_ge b i (by omega), ih (i := i - k) (by omega)]
    simp

/-- The later symbols move down to where they would be without the first one. -/
theorem shifts_word (h : k * (bs.length + 1) ≤ w) :
    shifts poly k (word w bs <<< k) = word w bs := by
  rw [shifts_of_low fun i hi => by simp [hi]]
  apply BitVec.eq_of_getLsbD_eq
  intro i hi
  rw [BitVec.getLsbD_ushiftRight, BitVec.getLsbD_shiftLeft]
  by_cases hin : k + i < w
  · simp [hin]
  · rw [Nat.mul_succ] at h
    have hhigh : (word w bs).getLsbD i = false := getLsbD_word_of_le (by omega)
    simp [hin, hhigh]

/-- **Symbols that fit into the register** are added to it as one word. -/
theorem feedAll_eq (h : k * bs.length ≤ w) (x : BitVec w) :
    feedAll poly x bs = shifts poly (k * bs.length) (x ^^^ word w bs) := by
  induction bs generalizing x with
  | nil => simp [feedAll, word, shifts]
  | cons b bs ih =>
    rw [List.length_cons] at h ⊢
    have hle : k * bs.length ≤ w := Nat.le_trans (Nat.mul_le_mul_left k (Nat.le_succ _)) h
    calc feedAll poly x (b :: bs)
        = feedAll poly (feed poly x b) bs := rfl
      _ = shifts poly (k * bs.length) (shifts poly k (x ^^^ b.setWidth w) ^^^ word w bs) :=
        ih hle _
      _ = shifts poly (k * bs.length)
          (shifts poly k (x ^^^ b.setWidth w) ^^^ shifts poly k (word w bs <<< k)) := by
        rw [shifts_word h]
      _ = shifts poly (k * (bs.length + 1)) (x ^^^ word w (b :: bs)) := by
        rw [← shifts_xor, ← shifts_add, BitVec.xor_assoc, Nat.mul_succ, word]

theorem word_injective (hlength : bs.length = bs'.length) (h : k * bs.length ≤ w)
    (heq : word w bs = word w bs') : bs = bs' := by
  induction bs generalizing bs' with
  | nil => exact (List.length_eq_zero_iff.mp hlength.symm).symm
  | cons b bs ih =>
    obtain _ | ⟨b', bs'⟩ := bs'
    · simp at hlength
    rw [List.length_cons] at h
    rw [List.length_cons, List.length_cons, Nat.succ_inj] at hlength
    have hmul : k * (bs.length + 1) = k * bs.length + k := Nat.mul_succ _ _
    have hbit : ∀ i, (word w (b :: bs)).getLsbD i = (word w (b' :: bs')).getLsbD i := by
      rw [heq]
      exact fun _ => rfl
    simp only [word, BitVec.getLsbD_xor, BitVec.getLsbD_setWidth, BitVec.getLsbD_shiftLeft] at hbit
    -- the low bits are the first symbol, and the bits above are the others
    have hfirst : b = b' := by
      apply BitVec.eq_of_getLsbD_eq
      intro i hi
      simpa [hi, show i < w by omega] using hbit i
    have hrest : word w bs = word w bs' := by
      apply BitVec.eq_of_getLsbD_eq
      intro i hi
      by_cases hin : k + i < w
      · simpa [hin, show ¬ k + i < k by omega, BitVec.getLsbD_of_ge b (k + i) (by omega),
          BitVec.getLsbD_of_ge b' (k + i) (by omega)] using hbit (k + i)
      · rw [getLsbD_word_of_le (by omega), getLsbD_word_of_le (by rw [← hlength]; omega)]
    rw [hfirst, ih hlength (by omega) hrest]

/-! ### Bursts -/

variable {pre post : List (BitVec k)}

theorem feed_injective (hpoly : poly.msb = true) (b : BitVec k) :
    Function.Injective fun x => feed poly x b := by
  intro x y h
  exact (BitVec.xor_left_inj _).mp (shifts_injective hpoly k h)

theorem feedAll_injective (hpoly : poly.msb = true) (bs : List (BitVec k)) :
    Function.Injective fun x => feedAll poly x bs := by
  induction bs with
  | nil => exact fun _ _ h => h
  | cons b bs ih => exact fun x y h => feed_injective hpoly b (ih h)

/-- **A burst that fits into the register** changes the remainder. -/
theorem feedAll_burst (hpoly : poly.msb = true) (hlength : bs.length = bs'.length)
    (hfit : k * bs.length ≤ w) (hne : bs ≠ bs') (x : BitVec w) :
    feedAll poly x (pre ++ bs ++ post) ≠ feedAll poly x (pre ++ bs' ++ post) := by
  intro h
  rw [feedAll, feedAll, List.foldl_append, List.foldl_append, List.foldl_append,
    List.foldl_append] at h
  have hmid := feedAll_injective hpoly post h
  change feedAll poly (feedAll poly x pre) bs = feedAll poly (feedAll poly x pre) bs' at hmid
  generalize feedAll poly x pre = y at hmid
  have hfit' : k * bs'.length ≤ w := hlength ▸ hfit
  rw [feedAll_eq hfit, feedAll_eq hfit', ← hlength] at hmid
  exact hne (word_injective hlength hfit
    ((BitVec.xor_right_inj _).mp (shifts_injective hpoly _ hmid)))

end Crc
