import Mathlib.Tactic.Ring
import Ipfrs.Core.Json

/-!
# Floating point numbers

`f64` as its bit pattern, with what the standard library does with it: `str::parse`, `to_string`,
`fract`, `abs` and the casts from and to `i64`. A finite number is `significand * 2 ^ exponent` with
a sign, so everything here is about natural numbers and quotients of them.

* `round53_eq_iff` — rounding changes nothing for numbers with at most 53 significant bits;
* `isNat_natToF64`, `isNat_ofI64` — a cast integer is the natural number that its absolute value is
  rounded to, with the sign;
* `toInt_asI64_ofI64` — so the cast back gives that.
-/

namespace Ipfrs

namespace F64

/-! ### Fields -/

variable (bits : UInt64)

/-- The sign bit. -/
def isNegative : Bool := 2 ^ 63 ≤ bits.toNat

/-- The exponent field. -/
def biased : ℕ := bits.toNat / 2 ^ 52 % 2 ^ 11

/-- The fraction field. -/
def fraction : ℕ := bits.toNat % 2 ^ 52

def isFinite : Bool := biased bits ≠ 2047

/-- The significand of a finite number, without the leading bit in a subnormal one. -/
def significand : ℕ :=
  if biased bits = 0 then fraction bits else 2 ^ 52 + fraction bits

/-- The exponent of two that goes with it. -/
def exponent : ℤ := max (biased bits) 1 - 1075

/-- The absolute value of a finite number, as a quotient. -/
def numerator : ℕ := significand bits * 2 ^ (exponent bits).toNat

/-- The other half of the quotient. -/
def denominator : ℕ := 2 ^ (-exponent bits).toNat

/-- The number with a sign, from the bits of its absolute value. -/
def withSign (negative : Bool) (bits : ℕ) : UInt64 :=
  UInt64.ofNat (if negative then 2 ^ 63 + bits else bits)

/-! ### Rounding -/

/-- The nearest natural number to a quotient, the even one of two that are equally near. -/
def roundHalfEven (num den : ℕ) : ℕ :=
  let q := num / den
  let r := num % den
  if 2 * r > den ∨ 2 * r = den ∧ q % 2 = 1 then q + 1 else q

/-- The largest `k` with `2 ^ k ≤ num / den`. -/
def log2Ratio (num den : ℕ) : ℤ :=
  let k : ℤ := Nat.log2 num - Nat.log2 den
  if den * 2 ^ k.toNat ≤ num * 2 ^ (-k).toNat then k else k - 1

/-- The bits of the number that is nearest to `num / den`: 53 significant bits, fewer below the
normal numbers, and infinity above all finite ones. -/
def nearest (num den : ℕ) : ℕ :=
  if num = 0 then 0
  else
    let e := max (log2Ratio num den - 52) (-1074)
    let q := roundHalfEven (num * 2 ^ (-e).toNat) (den * 2 ^ e.toNat)
    -- the leading bit of `q` counts as one in the exponent field
    min ((e + 1074).toNat * 2 ^ 52 + q) (2047 * 2 ^ 52)

/-- The bits of the number that is nearest to `d * 10 ^ k`. -/
def nearestDecimal (d : ℕ) (k : ℤ) : ℕ := nearest (d * 10 ^ k.toNat) (10 ^ (-k).toNat)

/-! ### Parsing -/

/-- The value of decimal digits. -/
def digitsValue (ds : List Char) : ℕ := ds.foldl (fun n c => 10 * n + (c.toNat - 48)) 0

/-- The exponent after the letter: a sign and digits, up to the end. -/
def parseExponent (s : List Char) : Option ℤ :=
  let (negative, ds) :=
    match s with
    | '-' :: ds => (true, ds)
    | '+' :: ds => (false, ds)
    | ds => (false, ds)
  if ds ≠ [] ∧ ds.all Char.isDigit then
    some (if negative then -digitsValue ds else digitsValue ds)
  else none

/-- Digits with at most one point, of which there is at least one digit, and an exponent. The result
is `d` and `k` with the value `d * 10 ^ k`. -/
def parseNumber (s : List Char) : Option (ℕ × ℤ) :=
  let intDigits := s.takeWhile Char.isDigit
  let rest := s.dropWhile Char.isDigit
  let (fracDigits, rest) :=
    match rest with
    | '.' :: rest => (rest.takeWhile Char.isDigit, rest.dropWhile Char.isDigit)
    | rest => ([], rest)
  if intDigits ++ fracDigits = [] then none
  else
    let exponent :=
      match rest with
      | [] => some 0
      | c :: rest => if c = 'e' ∨ c = 'E' then parseExponent rest else none
    exponent.map fun e => (digitsValue (intDigits ++ fracDigits), e - fracDigits.length)

/-- A number, an infinity or a NaN without its sign. -/
def parseUnsigned (s : List Char) : Option ℕ :=
  match parseNumber s with
  | some (d, k) => some (nearestDecimal d k)
  | none =>
    let lower := s.map Char.toLower
    if lower = "inf".toList ∨ lower = "infinity".toList then some (2047 * 2 ^ 52)
    else if lower = "nan".toList then some (2047 * 2 ^ 52 + 2 ^ 51)
    else none

/-- `str::parse::<f64>`. -/
def parse (s : String) : Option UInt64 :=
  match s.toList with
  | '-' :: rest => (parseUnsigned rest).map (withSign true)
  | '+' :: rest => (parseUnsigned rest).map (withSign false)
  | rest => (parseUnsigned rest).map (withSign false)

/-! ### Printing -/

/-- The number of decimal digits before the point, or minus the number of zeros after it:
`10 ^ (k - 1) ≤ num / den < 10 ^ k`. -/
def decimalExponent (num den : ℕ) : ℤ :=
  if den ≤ num then (Nat.toDigits 10 (num / den)).length
  else 1 - (Nat.toDigits 10 ((den - 1) / num)).length

/-- The `n` digits, before or after the number, that read as the number. If both do it is the nearer
of the two. -/
def digitsOfLength (num den : ℕ) (k : ℤ) (n : ℕ) : Option ℕ :=
  let num' := num * 10 ^ (n - k).toNat
  let den' := den * 10 ^ (k - n).toNat
  let low := num' / den'
  let reads := fun d => nearestDecimal d (k - n) = nearest num den
  if reads low then
    if reads (low + 1) ∧ den' ≤ 2 * (num' % den') then some (low + 1) else some low
  else if reads (low + 1) then some (low + 1)
  else none

/-- The shortest digits that read as the number, and how many they are. Seventeen always do. -/
def shortestDigits (num den : ℕ) : ℕ × ℕ :=
  ((List.range 17).findSome? fun i =>
    (digitsOfLength num den (decimalExponent num den) (i + 1)).map (·, i + 1)).getD (0, 17)

/-- The digits with a point, and zeros between the two where there are too few: no exponent is ever
written. -/
def placePoint (digits : List Char) (k : ℤ) : List Char :=
  if k ≤ 0 then '0' :: '.' :: (List.replicate (-k).toNat '0' ++ digits)
  else if k < digits.length then digits.take k.toNat ++ '.' :: digits.drop k.toNat
  else digits ++ List.replicate (k.toNat - digits.length) '0'

/-- `f64::to_string`. -/
def toString : String :=
  if ¬ isFinite bits ∧ fraction bits ≠ 0 then "NaN"
  else
    let magnitude :=
      if ¬ isFinite bits then "inf".toList
      else if significand bits = 0 then ['0']
      else
        let num := numerator bits
        let den := denominator bits
        let (d, n) := shortestDigits num den
        let ds := Nat.toDigits 10 d
        -- a carry into a new digit moves the point
        placePoint ds (decimalExponent num den + (ds.length - n))
    String.ofList (if isNegative bits then '-' :: magnitude else magnitude)

/-! ### Integral numbers -/

/-- The absolute value without what is after the point. -/
def trunc : ℕ := numerator bits / denominator bits

/-- `value.fract() == 0.0`. The fractional part of an infinity is a NaN. -/
def isIntegral : Bool :=
  isFinite bits && numerator bits % denominator bits = 0

/-- `value.abs() < bound`, for a bound that is a natural number. -/
def absLt (bound : ℕ) : Bool :=
  isFinite bits && numerator bits < bound * denominator bits

/-- The cast `as i64`, which goes to the nearest number in range. -/
def asI64 : Int64 :=
  if ¬ isFinite bits then
    if fraction bits ≠ 0 then 0 else if isNegative bits then Int64.minValue else Int64.maxValue
  else if isNegative bits then Int64.ofInt (max (-2 ^ 63) (-trunc bits))
  else Int64.ofInt (min (2 ^ 63 - 1) (trunc bits))

/-- The cast `as f64` of an `i64`. -/
def ofI64 (i : Int64) : UInt64 :=
  if i < 0 then withSign true (natToF64 i.toInt.natAbs).toNat else natToF64 i.toInt.natAbs

/-! ### Casts of integers -/

/-- A natural number rounded to 53 significant bits. -/
def round53 (n : ℕ) : ℕ :=
  if Nat.log2 n ≤ 52 then n
  else roundHalfEven n (2 ^ (Nat.log2 n - 52)) * 2 ^ (Nat.log2 n - 52)

variable {num den n x f b : ℕ} {bits : UInt64}

theorem roundHalfEven_of_dvd (h : den ∣ num) (hden : 0 < den) :
    roundHalfEven num den = num / den := by
  have hr : num % den = 0 := Nat.mod_eq_zero_of_dvd h
  simp only [roundHalfEven, hr]
  rw [if_neg (by omega)]

/-- Rounding changes nothing exactly for the numbers with at most 53 significant bits. -/
theorem round53_eq_iff : round53 n = n ↔ ∃ m k, m < 2 ^ 53 ∧ n = m * 2 ^ k := by
  rcases Nat.eq_zero_or_pos n with rfl | hn
  · exact iff_of_true rfl ⟨0, 0, by omega, rfl⟩
  have hlt : n < 2 ^ (Nat.log2 n + 1) := Nat.lt_log2_self
  rw [round53]
  -- numbers below `2 ^ 53` are not rounded
  by_cases he : Nat.log2 n ≤ 52
  · rw [if_pos he]
    exact iff_of_true rfl
      ⟨n, 0, lt_of_lt_of_le hlt (Nat.pow_le_pow_right (by omega) (by omega)), (Nat.mul_one n).symm⟩
  · rw [if_neg he]
    have hunit : 0 < 2 ^ (Nat.log2 n - 52) := Nat.two_pow_pos _
    constructor
    · intro h
      refine ⟨_, _, ?_, h.symm⟩
      by_contra hge
      -- a mantissa with too many bits would make the number too large
      have hle : 2 ^ 53 * 2 ^ (Nat.log2 n - 52) ≤ n :=
        calc 2 ^ 53 * 2 ^ (Nat.log2 n - 52)
            ≤ roundHalfEven n (2 ^ (Nat.log2 n - 52)) * 2 ^ (Nat.log2 n - 52) :=
              Nat.mul_le_mul_right _ (Nat.not_lt.mp hge)
          _ = n := h
      rw [← Nat.pow_add] at hle
      have hpow : 53 + (Nat.log2 n - 52) = Nat.log2 n + 1 := by omega
      rw [hpow] at hle
      exact absurd hle (Nat.not_le.mpr hlt)
    · rintro ⟨m, k, hm, hmk⟩
      -- the number is a multiple of the unit
      have hself : 2 ^ Nat.log2 n ≤ n := Nat.log2_self_le (Nat.pos_iff_ne_zero.mp hn)
      have hpow : n < 2 ^ (53 + k) := by
        rw [hmk, Nat.pow_add]
        exact Nat.mul_lt_mul_of_pos_right hm (Nat.two_pow_pos k)
      have hk : Nat.log2 n < 53 + k := (Nat.pow_lt_pow_iff_right (by omega)).mp
        (lt_of_le_of_lt hself hpow)
      have hdvd : 2 ^ (Nat.log2 n - 52) ∣ n := by
        refine dvd_trans (Nat.pow_dvd_pow 2 (by omega : Nat.log2 n - 52 ≤ k)) ?_
        exact ⟨m, by rw [hmk, Nat.mul_comm]⟩
      rw [roundHalfEven_of_dvd hdvd hunit, Nat.div_mul_cancel hdvd]

theorem fields_of_toNat (h : bits.toNat % 2 ^ 63 = x * 2 ^ 52 + f) (hf : f < 2 ^ 52)
    (hx : x < 2 ^ 11) : biased bits = x ∧ fraction bits = f := by
  rw [biased, fraction]
  omega

/-- The number is the natural number `n`, up to its sign. -/
def IsNat (bits : UInt64) (n : ℕ) : Prop :=
  isFinite bits ∧ numerator bits = n * denominator bits

theorem isNat_of_fields (hfields : biased bits = x ∧ fraction bits = f) (hpos : 0 < x)
    (hx : x < 2047) (h : (2 ^ 52 + f) * 2 ^ (x - 1075) = n * 2 ^ (1075 - x)) : IsNat bits n := by
  obtain ⟨rfl, rfl⟩ := hfields
  refine ⟨decide_eq_true (by omega), ?_⟩
  have hexp : (exponent bits).toNat = biased bits - 1075 := by rw [exponent]; omega
  have hneg : (-exponent bits).toNat = 1075 - biased bits := by rw [exponent]; omega
  rw [numerator, denominator, significand, if_neg (by omega), hexp, hneg, h]

theorem sub_bias (e : ℕ) : e + 1023 - 1075 = e - 52 ∧ 1075 - (e + 1023) = 52 - e := by
  omega

theorem sub_bias_carry {e : ℕ} (h : 53 ≤ e) :
    e + 1024 - 1075 = e - 52 + 1 ∧ 1075 - (e + 1024) = 0 := by
  omega

/-- The significand that the cast of a natural number gets. -/
def natSignificand (n : ℕ) : ℕ :=
  if Nat.log2 n ≤ 52 then n * 2 ^ (52 - Nat.log2 n) else roundHalfEven n (2 ^ (Nat.log2 n - 52))

theorem natSignificand_mul (n : ℕ) :
    natSignificand n * 2 ^ (Nat.log2 n - 52) = round53 n * 2 ^ (52 - Nat.log2 n) := by
  rw [natSignificand, round53]
  split
  · next h => rw [Nat.sub_eq_zero_of_le h, Nat.pow_zero, Nat.mul_one]
  · next h => rw [Nat.sub_eq_zero_of_le (by omega : 52 ≤ Nat.log2 n), Nat.pow_zero, Nat.mul_one]

theorem le_roundHalfEven (h : b ≤ num / den) : b ≤ roundHalfEven num den := by
  simp only [roundHalfEven]
  split <;> omega

theorem roundHalfEven_le (h : num / den < b) : roundHalfEven num den ≤ b := by
  simp only [roundHalfEven]
  split <;> omega

theorem natSignificand_bounds (hn : 0 < n) :
    2 ^ 52 ≤ natSignificand n ∧ natSignificand n ≤ 2 ^ 53 := by
  have hself : 2 ^ Nat.log2 n ≤ n := Nat.log2_self_le (Nat.pos_iff_ne_zero.mp hn)
  have hlt : n < 2 ^ (Nat.log2 n + 1) := Nat.lt_log2_self
  rw [natSignificand]
  split
  · next h =>
    have hpow : 2 ^ 52 = 2 ^ Nat.log2 n * 2 ^ (52 - Nat.log2 n) := by
      rw [← Nat.pow_add, Nat.add_sub_cancel' h]
    have hpow' : 2 ^ 53 = 2 ^ (Nat.log2 n + 1) * 2 ^ (52 - Nat.log2 n) := by
      rw [← Nat.pow_add]
      congr 1
      omega
    rw [hpow, hpow']
    exact ⟨Nat.mul_le_mul_right _ hself, Nat.mul_le_mul_right _ hlt.le⟩
  · next h =>
    have hunit : 0 < 2 ^ (Nat.log2 n - 52) := Nat.two_pow_pos _
    constructor
    · apply le_roundHalfEven
      rw [Nat.le_div_iff_mul_le hunit, ← Nat.pow_add, Nat.add_sub_cancel' (by omega)]
      exact hself
    · apply roundHalfEven_le
      rw [Nat.div_lt_iff_lt_mul hunit, ← Nat.pow_add]
      have hpow : 53 + (Nat.log2 n - 52) = Nat.log2 n + 1 := by omega
      rwa [hpow]

theorem toNat_natToF64_zero : (natToF64 0).toNat = 0 := by
  rw [natToF64, if_pos rfl]
  rfl

theorem toNat_natToF64 (hn : 0 < n) (hlt : n < 2 ^ 64) :
    (natToF64 n).toNat = (Nat.log2 n + 1023) * 2 ^ 52 + (natSignificand n - 2 ^ 52) := by
  have hlog : Nat.log2 n < 64 := (Nat.log2_lt (Nat.pos_iff_ne_zero.mp hn)).mpr hlt
  obtain ⟨hge, hle⟩ := natSignificand_bounds hn
  rw [natToF64, if_neg (Nat.pos_iff_ne_zero.mp hn)]
  show (UInt64.ofNat ((Nat.log2 n + 1023) * 2 ^ 52 + (natSignificand n - 2 ^ 52))).toNat = _
  rw [UInt64.toNat_ofNat', Nat.mod_eq_of_lt]
  omega

/-- **The cast of a natural number** is the natural number that it is rounded to, with any sign. -/
theorem isNat_natToF64 (hlt : n < 2 ^ 64) (h : bits.toNat % 2 ^ 63 = (natToF64 n).toNat) :
    IsNat bits (round53 n) := by
  rcases Nat.eq_zero_or_pos n with rfl | hn
  · have hzero : bits.toNat % 2 ^ 63 = 0 := h.trans toNat_natToF64_zero
    have hfields : biased bits = 0 ∧ fraction bits = 0 :=
      fields_of_toNat (by omega) (by omega) (by omega)
    refine ⟨decide_eq_true (by omega), ?_⟩
    rw [numerator, significand, if_pos hfields.1, hfields.2, Nat.zero_mul]
    exact (Nat.zero_mul _).symm
  rw [toNat_natToF64 hn hlt] at h
  have hlog : Nat.log2 n < 64 := (Nat.log2_lt (Nat.pos_iff_ne_zero.mp hn)).mpr hlt
  have hmul := natSignificand_mul n
  obtain ⟨hge, hle⟩ := natSignificand_bounds hn
  rcases hle.lt_or_eq with hlt' | heq
  · refine isNat_of_fields (x := Nat.log2 n + 1023)
      (fields_of_toNat h (by omega) (by omega)) (by omega) (by omega) ?_
    rw [Nat.add_sub_cancel' hge, (sub_bias _).1, (sub_bias _).2, hmul]
  · -- the significand was rounded up to a power of two
    have hbig : 53 ≤ Nat.log2 n := by
      by_contra hsmall
      have hself : n < 2 ^ (Nat.log2 n + 1) := Nat.lt_log2_self
      rw [natSignificand, if_pos (by omega)] at heq
      have hlt' : n * 2 ^ (52 - Nat.log2 n) < 2 ^ (Nat.log2 n + 1) * 2 ^ (52 - Nat.log2 n) :=
        Nat.mul_lt_mul_of_pos_right hself (Nat.two_pow_pos _)
      rw [← Nat.pow_add, heq, Nat.pow_lt_pow_iff_right (by omega)] at hlt'
      omega
    have hcarry : (Nat.log2 n + 1023) * 2 ^ 52 + (2 ^ 53 - 2 ^ 52) =
        (Nat.log2 n + 1024) * 2 ^ 52 + 0 := by
      ring
    rw [heq, hcarry] at h
    have hfields : biased bits = Nat.log2 n + 1024 ∧ fraction bits = 0 :=
      fields_of_toNat h (Nat.two_pow_pos 52) (by omega)
    refine isNat_of_fields hfields (by omega) (by omega) ?_
    rw [heq, Nat.sub_eq_zero_of_le (le_trans (by omega) hbig)] at hmul
    rw [(sub_bias_carry hbig).1, (sub_bias_carry hbig).2, ← hmul, Nat.pow_succ]
    ring

/-! ### The casts of `i64` -/

theorem natAbs_lt (i : Int64) : i.toInt.natAbs < 2 ^ 64 := by
  have hlow := i.le_toInt
  have hhigh := i.toInt_lt
  omega

theorem natToF64_lt (hlt : n < 2 ^ 64) : (natToF64 n).toNat < 2 ^ 63 := by
  rcases Nat.eq_zero_or_pos n with rfl | hn
  · rw [toNat_natToF64_zero]
    exact Nat.two_pow_pos 63
  · have hlog : Nat.log2 n < 64 := (Nat.log2_lt (Nat.pos_iff_ne_zero.mp hn)).mpr hlt
    obtain ⟨-, hle⟩ := natSignificand_bounds hn
    rw [toNat_natToF64 hn hlt]
    omega

theorem isNegative_ofI64 (i : Int64) : isNegative (ofI64 i) ↔ i.toInt < 0 := by
  have hlt := natToF64_lt (natAbs_lt i)
  have hneg : i < 0 ↔ i.toInt < 0 := Int64.lt_iff_toInt_lt
  rw [isNegative, decide_eq_true_iff, ofI64]
  split
  · next h =>
    refine iff_of_true ?_ (hneg.mp h)
    rw [withSign, if_pos rfl, UInt64.toNat_ofNat', Nat.mod_eq_of_lt (by omega)]
    omega
  · next h =>
    refine iff_of_false (by omega) (fun h' => h (hneg.mpr h'))

theorem isNat_ofI64 (i : Int64) : IsNat (ofI64 i) (round53 i.toInt.natAbs) := by
  have hlt := natToF64_lt (natAbs_lt i)
  apply isNat_natToF64 (natAbs_lt i)
  rw [ofI64]
  split
  · rw [withSign, if_pos rfl, UInt64.toNat_ofNat', Nat.mod_eq_of_lt (by omega : _ < 2 ^ 64)]
    omega
  · exact Nat.mod_eq_of_lt hlt

theorem denominator_pos (bits : UInt64) : 0 < denominator bits := Nat.two_pow_pos _

theorem IsNat.isIntegral (h : IsNat bits n) : isIntegral bits := by
  rw [F64.isIntegral, Bool.and_eq_true, decide_eq_true_iff, h.2]
  exact ⟨h.1, Nat.mul_mod_left _ _⟩

theorem IsNat.absLt_iff {bound : ℕ} (h : IsNat bits n) : absLt bits bound ↔ n < bound := by
  rw [F64.absLt, Bool.and_eq_true, decide_eq_true_iff, h.2,
    Nat.mul_lt_mul_right (denominator_pos bits)]
  exact and_iff_right h.1

theorem IsNat.trunc_eq (h : IsNat bits n) : trunc bits = n := by
  rw [trunc, h.2, Nat.mul_div_cancel _ (denominator_pos bits)]

/-- **The cast to `f64` and back** gives what the absolute value was rounded to. -/
theorem toInt_asI64_ofI64 {i : Int64} (h : round53 i.toInt.natAbs < 2 ^ 63) :
    (asI64 (ofI64 i)).toInt =
      if i.toInt < 0 then -(round53 i.toInt.natAbs : ℤ) else round53 i.toInt.natAbs := by
  have hnat := isNat_ofI64 i
  have hneg := isNegative_ofI64 i
  rw [asI64, if_neg (not_not.mpr hnat.1), hnat.trunc_eq]
  by_cases hi : i.toInt < 0
  · rw [if_pos (hneg.mpr hi), if_pos hi, max_eq_right (by omega)]
    exact Int64.toInt_ofInt_of_le (by omega) (by omega)
  · rw [if_neg (mt hneg.mp hi), if_neg hi, min_eq_right (by omega)]
    exact Int64.toInt_ofInt_of_le (by omega) (by omega)

end F64

end Ipfrs
