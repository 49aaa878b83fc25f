import Mathlib.Algebra.BigOperators.Fin
import Ipfrs.Core.CarRoundTrip

/-!
# Varints that are read exactly

What `read_varint_opt` (`ipfrs-core/src/car.rs`) makes of any input: the bytes it takes, and the
number it gives.

A varint of ten bytes has its last group at bit 63, where one bit has room. The other six are
shifted out, and nothing is said.

* `readVarintOpt_spec` — the bytes that are taken, and their number modulo `2 ^ 64`;
* `varint_exact_iff` — the number is exact unless a tenth byte is greater than 1.
-/

namespace Ipfrs

/-- The sum of the groups of seven bits. -/
def groupSum (bytes : Bytes) : ℕ := ∑ i : Fin bytes.length, bytes[i].toNat % 128 * 128 ^ (i : ℕ)

@[simp] theorem groupSum_nil : groupSum [] = 0 := rfl

theorem groupSum_cons (b : UInt8) (bytes : Bytes) :
    groupSum (b :: bytes) = b.toNat % 128 + 128 * groupSum bytes := by
  have hsucc : ∀ i : Fin bytes.length, bytes[i].toNat % 128 * 128 ^ ((i : ℕ) + 1)
      = 128 * (bytes[i].toNat % 128 * 128 ^ (i : ℕ)) := by
    intro i
    rw [Nat.pow_succ]
    ring
  rw [groupSum, groupSum, Finset.mul_sum, ← Finset.sum_congr rfl fun i _ => hsucc i]
  refine (Fin.sum_univ_succ _).trans ?_
  simp

theorem groupSum_append (p q : Bytes) :
    groupSum (p ++ q) = groupSum p + 128 ^ p.length * groupSum q := by
  induction p with
  | nil => simp
  | cons b p ih =>
    rw [List.cons_append, groupSum_cons, groupSum_cons, ih, List.length_cons, Nat.pow_succ]
    ring

theorem groupSum_lt (bytes : Bytes) : groupSum bytes < 128 ^ bytes.length := by
  induction bytes with
  | nil => simp
  | cons b bytes ih =>
    rw [groupSum_cons, List.length_cons, Nat.pow_succ]
    have hb : b.toNat % 128 < 128 := Nat.mod_lt _ (by decide)
    omega

variable {result v : UInt64} {b : UInt8} {input rest : Bytes}

/-- Adding seven bits above those that have been read, as far as there is room. -/
theorem toNat_or_shiftLeft_mod {x : UInt64} {shift : ℕ} (hshift : shift < 64)
    (hresult : result.toNat < 2 ^ shift) :
    (result ||| x <<< UInt64.ofNat shift).toNat
      = (result.toNat + x.toNat * 2 ^ shift) % 2 ^ 64 := by
  have hs : (UInt64.ofNat shift).toNat % 64 = shift := by
    rw [UInt64.toNat_ofNat_of_lt' (show shift < 2 ^ 64 by omega)]
    omega
  -- what has room is a multiple of `2 ^ shift` below `2 ^ 64`
  have hpow : 2 ^ 64 = 2 ^ shift * 2 ^ (64 - shift) := by
    rw [← Nat.pow_add, Nat.add_sub_cancel' hshift.le]
  have hroom : x.toNat * 2 ^ shift % 2 ^ 64 = 2 ^ shift * (x.toNat % 2 ^ (64 - shift)) := by
    rw [hpow, Nat.mul_comm x.toNat, Nat.mul_mod_mul_left]
  have hlt : x.toNat % 2 ^ (64 - shift) + 1 ≤ 2 ^ (64 - shift) :=
    Nat.mod_lt _ (Nat.two_pow_pos _)
  have hsum : 2 ^ shift * (x.toNat % 2 ^ (64 - shift)) + result.toNat < 2 ^ 64 :=
    calc 2 ^ shift * (x.toNat % 2 ^ (64 - shift)) + result.toNat
        < 2 ^ shift * (x.toNat % 2 ^ (64 - shift)) + 2 ^ shift := by omega
      _ = 2 ^ shift * (x.toNat % 2 ^ (64 - shift) + 1) := by ring
      _ ≤ 2 ^ 64 := by rw [hpow]; exact Nat.mul_le_mul_left _ hlt
  rw [UInt64.toNat_or, UInt64.toNat_shiftLeft, hs, Nat.shiftLeft_eq, hroom, Nat.or_comm,
    ← Nat.two_pow_add_eq_or_of_lt hresult, ← Nat.add_mod_mod, hroom, Nat.add_comm result.toNat]
  exact (Nat.mod_eq_of_lt hsum).symm

/-- A varint: every byte but the last has the top bit. -/
def IsVarint (bytes : Bytes) : Prop :=
  ∃ p b, bytes = p ++ [b] ∧ (∀ c ∈ p, 128 ≤ c.toNat) ∧ b.toNat < 128

theorem isVarint_singleton (h : b.toNat < 128) : IsVarint [b] :=
  ⟨[], b, rfl, by simp, h⟩

theorem IsVarint.cons {bytes : Bytes} (hb : 128 ≤ b.toNat) (h : IsVarint bytes) :
    IsVarint (b :: bytes) := by
  obtain ⟨p, c, rfl, hp, hc⟩ := h
  exact ⟨b :: p, c, rfl, List.forall_mem_cons.mpr ⟨hb, hp⟩, hc⟩

/-- The loop from any round on. In round `k` it has read `7 * k` bits. -/
theorem readVarintLoop_eq_some {rounds k : ℕ} (hrounds : k + rounds = 10)
    (hresult : result.toNat < 2 ^ (7 * k))
    (h : readVarintLoop rounds result (7 * k) input = .ok (some v, rest)) :
    ∃ taken, input = taken ++ rest ∧ IsVarint taken ∧ taken.length ≤ rounds ∧
      v.toNat = (result.toNat + groupSum taken * 2 ^ (7 * k)) % 2 ^ 64 := by
  induction rounds generalizing k result input with
  | zero => exact absurd h (by simp [readVarintLoop])
  | succ rounds ih =>
    obtain _ | ⟨b, input⟩ := input
    · -- the end of the stream gives no number
      rw [readVarintLoop] at h
      split at h <;> simp at h
    have hpay := byte_payload b
    -- in the last round one of the seven bits has room, so the sum is modulo `2 ^ 64`
    have hsum := @toNat_or_shiftLeft_mod result (b &&& 0x7f).toUInt64 (7 * k) (by omega) hresult
    rw [hpay] at hsum
    rw [readVarintLoop] at h
    by_cases hlast : b.toNat < 128
    · rw [if_pos ((byte_last_iff b).mpr hlast)] at h
      obtain ⟨hv, rfl⟩ := Prod.mk.inj (Except.ok.inj h)
      refine ⟨[b], rfl, isVarint_singleton hlast, by simp, ?_⟩
      rw [← Option.some.inj hv, hsum, groupSum_cons, groupSum_nil, Nat.mul_zero, Nat.add_zero]
    · rw [if_neg (fun h' => hlast ((byte_last_iff b).mp h'))] at h
      dsimp only at h
      split at h
      · cases h
      · next hroom =>
        -- there is room for all seven bits
        have hpow : 2 ^ (7 * (k + 1)) = 128 * 2 ^ (7 * k) := by rw [Nat.mul_succ, Nat.pow_add]; ring
        have hle : 2 ^ (7 * (k + 1)) ≤ 2 ^ 63 := Nat.pow_le_pow_right (by decide) (by omega)
        have hnext : result.toNat + b.toNat % 128 * 2 ^ (7 * k) < 2 ^ (7 * (k + 1)) :=
          calc result.toNat + b.toNat % 128 * 2 ^ (7 * k)
              < 2 ^ (7 * k) + b.toNat % 128 * 2 ^ (7 * k) := Nat.add_lt_add_right hresult _
            _ ≤ 2 ^ (7 * k) + 127 * 2 ^ (7 * k) :=
              Nat.add_le_add_left (Nat.mul_le_mul_right _ (by omega)) _
            _ = 2 ^ (7 * (k + 1)) := by rw [hpow]; ring
        rw [Nat.mod_eq_of_lt (hnext.trans_le (hle.trans (by decide)))] at hsum
        obtain ⟨taken, rfl, hvarint, hlen, hv⟩ := ih (k := k + 1) (by omega)
          (by rw [hsum]; exact hnext) h
        refine ⟨b :: taken, rfl, hvarint.cons (Nat.not_lt.mp hlast), by simpa using hlen, ?_⟩
        rw [hv, hsum, groupSum_cons, hpow]
        congr 1
        ring

/-- **What is read** is a varint of at most ten bytes, and its number modulo `2 ^ 64`. -/
theorem readVarintOpt_spec (h : readVarintOpt input = .ok (some v, rest)) :
    ∃ taken, input = taken ++ rest ∧ IsVarint taken ∧ taken.length ≤ 10 ∧
      v.toNat = groupSum taken % 2 ^ 64 := by
  obtain ⟨taken, heq, hvarint, hlen, hv⟩ := readVarintLoop_eq_some (k := 0) rfl (by simp) h
  exact ⟨taken, heq, hvarint, hlen, by simpa using hv⟩

/-- Nine bytes with the top bit, and a tenth one that is greater than 1. -/
def Overflowing (input : Bytes) : Prop :=
  (∀ b ∈ input.take 9, 128 ≤ b.toNat) ∧ ∃ b, input[9]? = some b ∧ 1 < b.toNat

/-- The number of a varint of at most ten bytes fits in 64 bits unless its tenth byte is greater
than 1. -/
theorem groupSum_lt_iff {taken : Bytes} (hvarint : IsVarint taken) (hlen : taken.length ≤ 10) :
    groupSum taken < 2 ^ 64 ↔ ¬ Overflowing (taken ++ rest) := by
  obtain ⟨p, b, rfl, hp, hb⟩ := hvarint
  rw [List.length_append, List.length_singleton] at hlen
  have hlow := groupSum_lt p
  rw [groupSum_append, groupSum_cons, groupSum_nil, Nat.mul_zero, Nat.add_zero,
    Nat.mod_eq_of_lt hb]
  obtain hten | hfew : p.length = 9 ∨ p.length ≤ 8 := by omega
  · -- the last byte is the tenth
    have hget : (p ++ [b] ++ rest)[9]? = some b := by
      rw [List.append_assoc, List.getElem?_append_right hten.le, hten]
      rfl
    have htake : (p ++ [b] ++ rest).take 9 = p := by
      rw [List.append_assoc, ← hten, List.take_left]
    have hover : Overflowing (p ++ [b] ++ rest) ↔ 1 < b.toNat := by
      rw [Overflowing, hget, htake]
      simpa using fun _ => hp
    rw [hten] at hlow ⊢
    rw [hover]
    omega
  · -- a byte without the top bit comes before the tenth
    have hle : 128 ^ p.length ≤ 128 ^ 8 := Nat.pow_le_pow_right (by decide) hfew
    have hmul : 128 ^ p.length * b.toNat ≤ 128 ^ 8 * 127 := Nat.mul_le_mul hle (by omega)
    refine iff_of_true (by omega) ?_
    rintro ⟨htop, -⟩
    have hmem : b ∈ (p ++ [b] ++ rest).take 9 := by
      rw [List.append_assoc, List.take_append]
      refine List.mem_append_right _ ?_
      rw [show 9 - p.length = (8 - p.length) + 1 by omega]
      exact List.mem_cons_self
    exact absurd hb (Nat.not_lt.mpr (htop b hmem))

/-- **Varints.** Every number reads back, whatever follows, and what is read is the exact sum of its
groups if and only if the input does not begin with nine bytes with the top bit and a tenth one that
is greater than 1. -/
theorem varint_exact_iff (v : UInt64) (suffix : Bytes) :
    readVarintOpt (writeVarint v ++ suffix) = .ok (some v, suffix) ∧
      ∀ (input rest : Bytes) (w : UInt64), readVarintOpt input = .ok (some w, rest) →
        ∃ taken, input = taken ++ rest ∧ (w.toNat = groupSum taken ↔ ¬ Overflowing input) := by
  refine ⟨readVarintOpt_writeVarint v suffix, fun input rest w h => ?_⟩
  obtain ⟨taken, rfl, hvarint, hlen, hw⟩ := readVarintOpt_spec h
  refine ⟨taken, rfl, ?_⟩
  rw [hw, ← groupSum_lt_iff hvarint hlen]
  constructor
  · intro heq
    rw [← heq]
    exact Nat.mod_lt _ (by decide)
  · exact Nat.mod_eq_of_lt

theorem varint_exact_twoBytes :
    ∃ taken, [0x80, 0x01, 7] = taken ++ [7] ∧ UInt64.toNat 128 = groupSum taken := by
  obtain ⟨taken, htaken, hexact⟩ :=
    (varint_exact_iff 128 [7]).2 [0x80, 0x01, 7] [7] 128 (by decide +kernel)
  refine ⟨taken, htaken, hexact.mpr ?_⟩
  rintro ⟨-, b, hb, -⟩
  simp at hb

theorem not_forall_exact :
    ¬ ∀ (input rest : Bytes) (v : UInt64), readVarintOpt input = .ok (some v, rest) →
      ∃ taken, input = taken ++ rest ∧ v.toNat = groupSum taken := by
  intro hall
  obtain ⟨taken, htaken, hv⟩ := hall (List.replicate 9 0x80 ++ [2]) [] 0 (by decide +kernel)
  rw [List.append_nil] at htaken
  rw [← htaken] at hv
  exact absurd hv (by decide +kernel)

end Ipfrs
