import Mathlib.Tactic.Ring

/-!
# Byte streams

The unread part of a byte stream is a list of bytes. This file has the two operations every binary
format needs on it: taking a fixed number of bytes (`readExact`, all or nothing), and the
big-endian form of a number (`BigEndian.encode`, `BigEndian.decode`) or its little-endian form
(`LittleEndian.encode`, `LittleEndian.decode`).
-/

/-! ### Taking a fixed number of bytes -/

namespace ByteStream

/-- Take exactly `n` bytes, or fail when fewer are left. -/
def readExact (n : ℕ) (input : List UInt8) : Option (List UInt8 × List UInt8) :=
  if n ≤ input.length then some (input.take n, input.drop n) else none

theorem readExact_append {n : ℕ} {a : List UInt8} (h : a.length = n) (rest : List UInt8) :
    readExact n (a ++ rest) = some (a, rest) := by
  subst h
  simp [readExact]

theorem readExact_eq_some {n : ℕ} {input a rest : List UInt8}
    (h : readExact n input = some (a, rest)) : a.length = n ∧ input = a ++ rest := by
  unfold readExact at h
  split at h
  · next hn =>
    simp only [Option.some.injEq, Prod.mk.injEq] at h
    obtain ⟨rfl, rfl⟩ := h
    exact ⟨by simp [hn], (List.take_append_drop n input).symm⟩
  · exact absurd h (by simp)

end ByteStream

/-! ### Big-endian numbers -/

namespace BigEndian

/-- The `k` low-order bytes of `n`, the most significant first. -/
def encode : ℕ → ℕ → List UInt8
  | 0, _ => []
  | k + 1, n => UInt8.ofNat (n / 256 ^ k) :: encode k n

/-- The number a sequence of bytes stands for, the most significant byte first. -/
def decode (bs : List UInt8) : ℕ :=
  bs.foldl (fun acc b => acc * 256 + b.toNat) 0

@[simp] theorem length_encode (k n : ℕ) : (encode k n).length = k := by
  induction k with
  | zero => rfl
  | succ k ih => simp [encode, ih]

theorem foldl_encode (k n acc : ℕ) :
    (encode k n).foldl (fun acc b => acc * 256 + b.toNat) acc
      = acc * 256 ^ k + n % 256 ^ k := by
  induction k generalizing acc with
  | zero => simp [encode, Nat.mod_one]
  | succ k ih =>
    have hsplit : n % 256 ^ (k + 1) = (n / 256 ^ k % 256) * 256 ^ k + n % 256 ^ k := by
      rw [pow_succ, Nat.mod_mul, Nat.mul_comm, Nat.add_comm]
    have hbyte : (UInt8.ofNat (n / 256 ^ k)).toNat = n / 256 ^ k % 256 := UInt8.toNat_ofNat'
    rw [encode, List.foldl_cons, ih, hbyte, hsplit]
    ring

@[simp] theorem decode_encode (k n : ℕ) : decode (encode k n) = n % 256 ^ k := by
  rw [decode, foldl_encode, Nat.zero_mul, Nat.zero_add]

theorem decode_encode_of_lt {k n : ℕ} (h : n < 256 ^ k) : decode (encode k n) = n := by
  rw [decode_encode, Nat.mod_eq_of_lt h]

theorem foldl_decode (bs : List UInt8) (acc : ℕ) :
    bs.foldl (fun acc b => acc * 256 + b.toNat) acc = acc * 256 ^ bs.length + decode bs := by
  unfold decode
  induction bs generalizing acc with
  | nil => simp
  | cons b bs ih =>
    rw [List.foldl_cons, List.foldl_cons, ih, ih (0 * 256 + b.toNat), List.length_cons]
    ring

theorem decode_cons (b : UInt8) (bs : List UInt8) :
    decode (b :: bs) = b.toNat * 256 ^ bs.length + decode bs := by
  rw [decode, List.foldl_cons, foldl_decode, Nat.zero_mul, Nat.zero_add]

theorem decode_lt (bs : List UInt8) : decode bs < 256 ^ bs.length := by
  induction bs with
  | nil => exact Nat.one_pos
  | cons b bs ih =>
    have hb : b.toNat + 1 ≤ 256 := b.toNat_lt
    rw [decode_cons, List.length_cons, pow_succ']
    calc b.toNat * 256 ^ bs.length + decode bs
        < b.toNat * 256 ^ bs.length + 256 ^ bs.length := Nat.add_lt_add_left ih _
      _ = (b.toNat + 1) * 256 ^ bs.length := by ring
      _ ≤ 256 * 256 ^ bs.length := Nat.mul_le_mul_right _ hb

/-- Sequences of one length that stand for the same number are the same. -/
theorem decode_inj {bs bs' : List UInt8} (hlen : bs.length = bs'.length)
    (h : decode bs = decode bs') : bs = bs' := by
  induction bs generalizing bs' with
  | nil => exact (List.eq_nil_of_length_eq_zero hlen.symm).symm
  | cons b bs ih =>
    cases bs' with
    | nil => exact absurd hlen (by simp)
    | cons b' bs' =>
      have hlen' : bs.length = bs'.length := Nat.succ.inj hlen
      have hlt := decode_lt bs
      have hlt' := decode_lt bs'
      have hpos : 0 < 256 ^ bs'.length := Nat.pow_pos (by decide)
      rw [decode_cons, decode_cons, hlen', Nat.mul_comm, Nat.mul_comm b'.toNat] at h
      rw [hlen'] at hlt
      -- quotient and remainder
      have hdiv := congrArg (· / 256 ^ bs'.length) h
      have hmod := congrArg (· % 256 ^ bs'.length) h
      simp only [Nat.mul_add_div hpos, Nat.div_eq_of_lt hlt, Nat.div_eq_of_lt hlt',
        Nat.add_zero] at hdiv
      simp only [Nat.mul_add_mod, Nat.mod_eq_of_lt hlt, Nat.mod_eq_of_lt hlt'] at hmod
      rw [UInt8.toNat_inj.mp hdiv, ih hlen' hmod]

end BigEndian

/-! ### Little-endian numbers -/

namespace LittleEndian

/-- The `k` low-order bytes of `n`, the least significant first. -/
def encode : ℕ → ℕ → List UInt8
  | 0, _ => []
  | k + 1, n => UInt8.ofNat n :: encode k (n / 256)

/-- The number a sequence of bytes stands for, the least significant byte first. -/
def decode : List UInt8 → ℕ
  | [] => 0
  | b :: bs => b.toNat + 256 * decode bs

@[simp] theorem length_encode (k n : ℕ) : (encode k n).length = k := by
  induction k generalizing n with
  | zero => rfl
  | succ k ih => rw [encode, List.length_cons, ih]

theorem encode_eq_map (k n : ℕ) :
    encode k n = (List.range k).map fun i => UInt8.ofNat (n / 256 ^ i) := by
  induction k generalizing n with
  | zero => rfl
  | succ k ih =>
    rw [encode, List.range_succ_eq_map, List.map_cons, List.map_map, ih, pow_zero, Nat.div_one]
    refine congrArg _ (List.map_congr_left fun i _ => ?_)
    rw [Function.comp_apply, Nat.div_div_eq_div_mul, ← pow_succ']

@[simp] theorem decode_encode (k n : ℕ) : decode (encode k n) = n % 256 ^ k := by
  induction k generalizing n with
  | zero => exact (Nat.mod_one n).symm
  | succ k ih =>
    have hbyte : (UInt8.ofNat n).toNat = n % 256 := UInt8.toNat_ofNat'
    rw [encode, decode, ih, hbyte, pow_succ', Nat.mod_mul]

end LittleEndian
