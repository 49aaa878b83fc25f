import Mathlib.Tactic.Ring

/-!
# Variable-length numbers

The base-128 form of a number, least significant group first: seven payload bits a byte, with the
top bit set on every byte but the last (unsigned LEB128, the multiformats varint).
-/

namespace Leb128

/-- The bytes of `n`. -/
def encode (n : ℕ) : List UInt8 :=
  if n < 128 then [UInt8.ofNat n] else UInt8.ofNat (n % 128 + 128) :: encode (n / 128)

/-- The number at the head of the stream, and the rest of the stream. -/
def decode : List UInt8 → Option (ℕ × List UInt8)
  | [] => none
  | b :: bs =>
    if b.toNat < 128 then some (b.toNat, bs)
    else (decode bs).map fun (v, rest) => (b.toNat - 128 + 128 * v, rest)

theorem encode_of_lt {n : ℕ} (h : n < 128) : encode n = [UInt8.ofNat n] := by
  rw [encode, if_pos h]

theorem encode_of_le {n : ℕ} (h : 128 ≤ n) :
    encode n = UInt8.ofNat (n % 128 + 128) :: encode (n / 128) := by
  rw [encode, if_neg (Nat.not_lt.mpr h)]

theorem decode_encode_append (n : ℕ) (rest : List UInt8) :
    decode (encode n ++ rest) = some (n, rest) := by
  induction n using Nat.strongRecOn with
  | ind n ih =>
    by_cases h : n < 128
    · have hb : (UInt8.ofNat n).toNat = n := UInt8.toNat_ofNat_of_lt' (show n < 256 by omega)
      rw [encode_of_lt h, List.singleton_append, decode, hb, if_pos h]
    · have hb : (UInt8.ofNat (n % 128 + 128)).toNat = n % 128 + 128 :=
        UInt8.toNat_ofNat_of_lt' (show n % 128 + 128 < 256 by omega)
      rw [encode_of_le (Nat.not_lt.mp h), List.cons_append, decode, hb, if_neg (by omega),
        ih (n / 128) (by omega)]
      simp only [Option.map_some, Option.some.injEq, Prod.mk.injEq, and_true]
      omega

theorem length_encode_pos (n : ℕ) : 0 < (encode n).length := by
  rw [encode]
  split <;> exact Nat.succ_pos _

theorem length_encode_le_of_decode {n : ℕ} {bs rest : List UInt8}
    (h : decode bs = some (n, rest)) : (encode n).length + rest.length ≤ bs.length := by
  induction bs generalizing n rest with
  | nil => exact absurd h (by simp [decode])
  | cons b bs ih =>
    rw [decode] at h
    split at h
    · next hlt =>
      obtain ⟨rfl, rfl⟩ := Prod.mk.inj (Option.some.inj h)
      rw [encode_of_lt hlt, List.length_singleton, List.length_cons, Nat.add_comm]
    · next hge =>
      obtain ⟨⟨v, rest'⟩, hrest, heq⟩ := Option.map_eq_some_iff.mp h
      obtain ⟨rfl, rfl⟩ := Prod.mk.inj heq
      have hle := ih hrest
      have hb := b.toNat_lt
      rw [List.length_cons]
      by_cases hsmall : b.toNat - 128 + 128 * v < 128
      · rw [encode_of_lt hsmall, List.length_singleton]
        have hpos := length_encode_pos v
        omega
      · have hdiv : (b.toNat - 128 + 128 * v) / 128 = v := by omega
        rw [encode_of_le (Nat.le_of_not_lt hsmall), hdiv, List.length_cons]
        omega

/-- The form that is cut short has the top bit set on every byte. -/
theorem le_of_mem_of_prefix {n : ℕ} {p : List UInt8} (hp : p <+: encode n) (hne : p ≠ encode n) :
    ∀ b ∈ p, 128 ≤ b.toNat := by
  induction n using Nat.strongRecOn generalizing p with
  | ind n ih =>
    obtain _ | ⟨c, p⟩ := p
    · simp
    by_cases h : n < 128
    · rw [encode_of_lt h] at hp hne
      obtain ⟨rfl, hnil⟩ := List.cons_prefix_cons.mp hp
      rw [List.prefix_nil.mp hnil] at hne
      exact absurd rfl hne
    · rw [encode_of_le (Nat.not_lt.mp h)] at hp hne
      obtain ⟨rfl, hrest⟩ := List.cons_prefix_cons.mp hp
      have hb : (UInt8.ofNat (n % 128 + 128)).toNat = n % 128 + 128 :=
        UInt8.toNat_ofNat_of_lt' (show n % 128 + 128 < 256 by omega)
      refine List.forall_mem_cons.mpr ⟨by omega, ih (n / 128) (by omega) hrest ?_⟩
      rintro rfl
      exact hne rfl

theorem length_encode_le {k n : ℕ} (h : n < 128 ^ k) : (encode n).length ≤ max k 1 := by
  induction k generalizing n with
  | zero =>
    rw [encode_of_lt (by omega)]
    simp
  | succ k ih =>
    by_cases h128 : n < 128
    · rw [encode_of_lt h128]
      simp
    · have hdiv : n / 128 < 128 ^ k := Nat.div_lt_of_lt_mul (by rw [pow_succ'] at h; exact h)
      have hk : 1 ≤ k := by
        by_contra hk
        obtain rfl : k = 0 := by omega
        omega
      have := ih hdiv
      rw [encode_of_le (Nat.not_lt.mp h128), List.length_cons]
      omega

end Leb128
