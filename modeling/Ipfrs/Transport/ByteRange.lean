import Ipfrs.Core.BlockCache
import Ipfrs.Transport.ArrowDeframer
import Ipfrs.Transport.RangeRequest

/-!
# Ranges from the network

`ByteRange` (`ipfrs-transport/src/range_request.rs`), the forms in which a range is asked for, and
what the `RangeAssembler` does with answers of any form. Neither is checked when it is read from
the network: `from_to` refuses a start behind the end, and deserialisation does not; `add_range`
looks at the identifier and at the total size, and not at the range. The total size is a `u64` that
nobody checks either, and from `2 ^ 63` on no vector of so many flags or bytes can be made. A panic
is a `Fault`, and a refusal is an error inside.

* `ByteRange.toRange_eq` — the concrete range, without overflow;
* `ByteRange.safe_iff` — two ranges are handled safely unless the first one is inverted, or both are
  of the whole of an empty block;
* `RangeAssembler.tryIsComplete_eq_ok_iff` — the flags can be made;
* `RangeAssembler.assemble_panics_iff` — which answer `assemble` panics at;
* `ranges_safe_iff` — all of them.
-/

namespace Ipfrs.Transport

/-! ### Ranges -/

inductive ByteRange where
  | fromTo (start stop : UInt64)
  | from (start : UInt64)
  | suffix (count : UInt64)
  | all
  deriving DecidableEq, Repr

/-- `RangeError::OutOfBounds`, the only error of `to_range`. -/
structure OutOfBounds where
  requested : UInt64
  available : UInt64
  deriving DecidableEq, Repr

namespace ByteRange

/-- `ByteRange::from_to`. -/
def fromToChecked (start stop : UInt64) : Except RangeError ByteRange :=
  if start > stop then .error (.invalidRange s!"start ({start}) > end ({stop})")
  else .ok (.fromTo start stop)

variable (r : ByteRange)

def toRange (totalSize : UInt64) : Except Fault (Except OutOfBounds IndexRange) :=
  match r with
  | .fromTo start stop =>
    if stop ≥ totalSize then .ok (.error ⟨stop, totalSize⟩)
    else do
      let stop ← addU64 stop.toNat 1
      return .ok ⟨start.toNat, stop⟩
  | .from start =>
    if start ≥ totalSize then .ok (.error ⟨start, totalSize⟩)
    else .ok (.ok ⟨start.toNat, totalSize.toNat⟩)
  | .suffix count =>
    if count > totalSize then .ok (.ok ⟨0, totalSize.toNat⟩)
    else do
      let start ← subU64 totalSize.toNat count.toNat
      return .ok ⟨start, totalSize.toNat⟩
  | .all => .ok (.ok ⟨0, totalSize.toNat⟩)

def overlaps (other : ByteRange) (totalSize : UInt64) : Except Fault Bool := do
  match ← r.toRange totalSize, ← other.toRange totalSize with
  | .ok r₁, .ok r₂ => return r₁.start < r₂.stop ∧ r₂.start < r₁.stop
  | _, _ => return false

def merge (other : ByteRange) (totalSize : UInt64) : Except Fault (Option ByteRange) := do
  match ← r.toRange totalSize, ← other.toRange totalSize with
  | .ok r₁, .ok r₂ =>
    if r₁.start ≤ r₂.stop ∧ r₂.start ≤ r₁.stop then
      let start := min r₁.start r₂.start
      let last₁ ← subU64 r₁.stop 1
      let last₂ ← subU64 r₂.stop 1
      return some (.fromTo (UInt64.ofNat start) (UInt64.ofNat (max last₁ last₂)))
    else return none
  | _, _ => return none

def size (totalSize : UInt64) : Except Fault ℕ := do
  match ← r.toRange totalSize with
  | .ok r => subU64 r.stop r.start
  | .error _ => return 0

end ByteRange

namespace ByteRange

variable {r other : ByteRange} {totalSize : UInt64} {range : IndexRange}

/-- The concrete range, over the numbers. -/
def bounds (r : ByteRange) (totalSize : UInt64) : Except OutOfBounds IndexRange :=
  match r with
  | .fromTo start stop =>
    if stop ≥ totalSize then .error ⟨stop, totalSize⟩ else .ok ⟨start.toNat, stop.toNat + 1⟩
  | .from start =>
    if start ≥ totalSize then .error ⟨start, totalSize⟩ else .ok ⟨start.toNat, totalSize.toNat⟩
  | .suffix count => .ok ⟨totalSize.toNat - count.toNat, totalSize.toNat⟩
  | .all => .ok ⟨0, totalSize.toNat⟩

/-- **The concrete range**, without overflow. -/
theorem toRange_eq (r : ByteRange) (totalSize : UInt64) :
    r.toRange totalSize = .ok (r.bounds totalSize) := by
  have htotal := totalSize.toNat_lt
  cases r with
  | fromTo start stop =>
    rw [toRange, bounds]
    by_cases h : stop ≥ totalSize
    · rw [if_pos h, if_pos h]
    · have hlt := UInt64.lt_iff_toNat_lt.mp (UInt64.not_le.mp h)
      have hadd : addU64 stop.toNat 1 = .ok (stop.toNat + 1) := if_pos (by omega)
      rw [if_neg h, if_neg h, hadd]
      rfl
  | «from» start =>
    rw [toRange, bounds]
    split
    · rfl
    · rfl
  | suffix count =>
    rw [toRange, bounds]
    by_cases h : count > totalSize
    · have hlt := UInt64.lt_iff_toNat_lt.mp h
      rw [if_pos h, Nat.sub_eq_zero_of_le (by omega)]
    · have hle := UInt64.le_iff_toNat_le.mp (UInt64.not_lt.mp h)
      have hsub : subU64 totalSize.toNat count.toNat = .ok (totalSize.toNat - count.toNat) :=
        if_pos hle
      rw [if_neg h, hsub]
      rfl
  | all => rfl

/-- A range inside the block whose start is behind its end, and not just after it. -/
def Inverted : ByteRange → UInt64 → Prop
  | .fromTo start stop, totalSize => stop < totalSize ∧ stop.toNat + 1 < start.toNat
  | _, _ => False

theorem not_inverted_of_fromToChecked {start stop : UInt64}
    (h : fromToChecked start stop = .ok r) : ¬ r.Inverted totalSize := by
  unfold fromToChecked at h
  split at h
  · cases h
  · next hle =>
    obtain rfl := Except.ok.inj h
    have hle := UInt64.le_iff_toNat_le.mp (UInt64.not_lt.mp hle)
    exact fun hinv => absurd hinv.2 (by omega)

/-- A range that every block has, the empty one too. -/
def OfAnyBlock : ByteRange → Prop
  | .suffix _ | .all => True
  | _ => False

/-- The end is inside the block, and the start behind it only in an inverted range. -/
theorem bounds_eq_ok (h : r.bounds totalSize = .ok range) :
    range.stop ≤ totalSize.toNat ∧ (range.stop < range.start ↔ r.Inverted totalSize) := by
  cases r with
  | fromTo start stop =>
    rw [bounds] at h
    split at h
    · exact absurd h (by simp)
    · next hstop =>
      obtain rfl := Except.ok.inj h
      have hlt := UInt64.not_le.mp hstop
      have hlt' := UInt64.lt_iff_toNat_lt.mp hlt
      exact ⟨hlt', fun h => ⟨hlt, h⟩, fun h => h.2⟩
  | «from» start =>
    rw [bounds] at h
    split at h
    · exact absurd h (by simp)
    · next hstart =>
      obtain rfl := Except.ok.inj h
      have hlt := UInt64.lt_iff_toNat_lt.mp (UInt64.not_le.mp hstart)
      exact ⟨le_rfl, fun h => absurd h (by dsimp only; omega), False.elim⟩
  | suffix count =>
    obtain rfl := Except.ok.inj h
    exact ⟨le_rfl, fun h => absurd h (by dsimp only; omega), False.elim⟩
  | all =>
    obtain rfl := Except.ok.inj h
    exact ⟨le_rfl, fun h => absurd h (by dsimp only; omega), False.elim⟩

theorem Inverted.bounds_eq_ok (h : r.Inverted totalSize) :
    ∃ range, r.bounds totalSize = .ok range := by
  cases r with
  | fromTo start stop => exact ⟨_, if_neg (UInt64.not_le.mpr h.1)⟩
  | «from» start => exact h.elim
  | suffix count => exact h.elim
  | all => exact h.elim

/-- A range ends at zero only in the empty block, which has the ranges of any block. -/
theorem stop_eq_zero_iff (h : r.bounds totalSize = .ok range) :
    range.stop = 0 ↔ totalSize = 0 ∧ r.OfAnyBlock := by
  have hzero : totalSize.toNat = 0 ↔ totalSize = 0 := by
    rw [← UInt64.toNat_inj, UInt64.toNat_zero]
  cases r with
  | fromTo start stop =>
    rw [bounds] at h
    split at h
    · exact absurd h (by simp)
    · obtain rfl := Except.ok.inj h
      exact iff_of_false (Nat.succ_ne_zero _) And.right
  | «from» start =>
    rw [bounds] at h
    split at h
    · exact absurd h (by simp)
    · next hstart =>
      obtain rfl := Except.ok.inj h
      have hlt := UInt64.lt_iff_toNat_lt.mp (UInt64.not_le.mp hstart)
      refine iff_of_false ?_ And.right
      show totalSize.toNat ≠ 0
      omega
  | suffix count =>
    obtain rfl := Except.ok.inj h
    exact hzero.trans (and_iff_left trivial).symm
  | all =>
    obtain rfl := Except.ok.inj h
    exact hzero.trans (and_iff_left trivial).symm

theorem OfAnyBlock.bounds_zero (h : r.OfAnyBlock) : r.bounds 0 = .ok ⟨0, 0⟩ := by
  cases r with
  | fromTo start stop => exact h.elim
  | «from» start => exact h.elim
  | suffix count => simp [bounds]
  | all => rfl

theorem size_eq_ok_iff : (∃ n, r.size totalSize = .ok n) ↔ ¬ r.Inverted totalSize := by
  rw [size, toRange_eq, Except.ok_bind]
  split
  · next range h =>
    rw [← (bounds_eq_ok h).2, not_lt, subU64]
    split
    · next hle => exact iff_of_true ⟨_, rfl⟩ hle
    · next hle => exact iff_of_false (by simp) hle
  · next e h =>
    refine iff_of_true ⟨0, rfl⟩ fun hinv => ?_
    obtain ⟨range, hrange⟩ := hinv.bounds_eq_ok
    rw [hrange] at h
    cases h

theorem exists_overlaps (r other : ByteRange) (totalSize : UInt64) :
    ∃ b, r.overlaps other totalSize = .ok b := by
  rw [overlaps, toRange_eq, toRange_eq, Except.ok_bind, Except.ok_bind]
  split
  · exact ⟨_, rfl⟩
  · exact ⟨_, rfl⟩

theorem merge_eq_ok_iff : (∃ m, r.merge other totalSize = .ok m) ↔
    ¬ (totalSize = 0 ∧ r.OfAnyBlock ∧ other.OfAnyBlock) := by
  rw [merge, toRange_eq, toRange_eq, Except.ok_bind, Except.ok_bind]
  by_cases hempty : totalSize = 0 ∧ r.OfAnyBlock ∧ other.OfAnyBlock
  · -- both ends are zero
    obtain ⟨rfl, hr, hother⟩ := hempty
    rw [hr.bounds_zero, hother.bounds_zero]
    exact iff_of_false (by rintro ⟨m, hm⟩; cases hm) (not_not.mpr ⟨rfl, hr, hother⟩)
  · refine iff_of_true ?_ hempty
    split
    · next r₁ r₂ h₁ h₂ =>
      split
      · next htouch =>
        -- if one end were zero, so would be the other
        have hends : ¬ (r₁.stop = 0 ∧ r₂.stop = 0) := by
          rw [stop_eq_zero_iff h₁, stop_eq_zero_iff h₂]
          rintro ⟨⟨hzero, hr⟩, -, hother⟩
          exact hempty ⟨hzero, hr, hother⟩
        have hle₁ := (bounds_eq_ok h₁).1
        have hle₂ := (bounds_eq_ok h₂).1
        have hzero : r₁.stop = 0 ∨ r₂.stop = 0 → totalSize.toNat = 0 := by
          rw [stop_eq_zero_iff h₁, stop_eq_zero_iff h₂]
          rintro (⟨rfl, -⟩ | ⟨rfl, -⟩)
          · rfl
          · rfl
        have hsub₁ : subU64 r₁.stop 1 = .ok (r₁.stop - 1) := if_pos (by omega)
        have hsub₂ : subU64 r₂.stop 1 = .ok (r₂.stop - 1) := if_pos (by omega)
        rw [hsub₁, hsub₂]
        exact ⟨_, rfl⟩
      · exact ⟨_, rfl⟩
    · exact ⟨_, rfl⟩

/-- What the arithmetic of two ranges promises. -/
structure Safe (r other : ByteRange) (totalSize : UInt64) : Prop where
  toRange : ∃ res, r.toRange totalSize = .ok res ∧
    ∀ range, res = .ok range → range.start ≤ range.stop ∧ range.stop ≤ totalSize.toNat
  size : ∃ n, r.size totalSize = .ok n
  overlaps : ∃ b, r.overlaps other totalSize = .ok b
  merge : ∃ m, r.merge other totalSize = .ok m

/-- **Two ranges are handled safely** unless the first one is inverted, or both are of the whole of
an empty block. -/
theorem safe_iff : r.Safe other totalSize ↔
    ¬ r.Inverted totalSize ∧ ¬ (totalSize = 0 ∧ r.OfAnyBlock ∧ other.OfAnyBlock) := by
  constructor
  · intro h
    exact ⟨size_eq_ok_iff.mp h.size, merge_eq_ok_iff.mp h.merge⟩
  · rintro ⟨hinv, hempty⟩
    refine ⟨⟨_, toRange_eq r totalSize, fun range h => ?_⟩, size_eq_ok_iff.mpr hinv,
      exists_overlaps r other totalSize, merge_eq_ok_iff.mpr hempty⟩
    obtain ⟨hstop, hstart⟩ := bounds_eq_ok h
    exact ⟨not_lt.mp fun hlt => hinv (hstart.mp hlt), hstop⟩

end ByteRange

/-! ### Flags, with what could go wrong -/

namespace RangeAssembler

/-- `vec![x; n]`. -/
def tryVec {α : Type} (x : α) (n : ℕ) : Except Fault (List α) :=
  if capacityLimit ≤ n then .error (.panic "capacity overflow") else .ok (List.replicate n x)

/-- `covered[i] = true`. -/
def setFlag (covered : List Bool) (i : ℕ) : Except Fault (List Bool) :=
  if i < covered.length then .ok (covered.set i true)
  else .error (.panic "index out of bounds")

/-- `mark`, with the panics that it could have. -/
def tryMark (covered : List Bool) (range : IndexRange) : Except Fault (List Bool) :=
  (List.range' range.start (range.stop - range.start)).foldlM
    (fun covered i => if i < covered.length then setFlag covered i else .ok covered) covered

variable (a : RangeAssembler)

/-- `covered`, with the panics that it could have. -/
def tryCovered : Except Fault (List Bool) := do
  let covered ← tryVec false a.totalSize
  a.received.foldlM (fun covered entry => tryMark covered entry.1) covered

/-- `is_complete`, with the panics that it could have. -/
def tryIsComplete : Except Fault Bool := do
  let covered ← a.tryCovered
  return covered.all id

/-- `scan`, with the panics that it could have. -/
def tryScan (found : List IndexRange × Option ℕ) (flag : Bool × ℕ) :
    Except Fault (List IndexRange × Option ℕ) :=
  if !flag.1 && found.2.isNone then .ok (found.1, some flag.2)
  else if flag.1 && found.2.isSome then
    match found.2 with
    | some start => .ok (found.1 ++ [⟨start, flag.2⟩], none)
    | none => .error (.panic "just checked start.is_some()")
  else .ok found

/-- `missing_ranges`, with the panics that it could have. -/
def tryMissingRanges : Except Fault (List IndexRange) := do
  let covered ← a.tryCovered
  let (missing, start) ← covered.zipIdx.foldlM tryScan ([], none)
  match start with
  | some s => return missing ++ [⟨s, a.totalSize⟩]
  | none => return missing

theorem tryMark_eq (covered : List Bool) (range : IndexRange) :
    tryMark covered range = .ok (mark covered range) := by
  refine Except.foldlM_eq_ok (fun covered i => ?_) _ _
  split
  · next h => exact if_pos h
  · rfl

theorem tryCovered_eq : a.tryCovered =
    if capacityLimit ≤ a.totalSize then .error (.panic "capacity overflow")
    else .ok a.covered := by
  rw [tryCovered, tryVec]
  split
  · rfl
  · exact Except.foldlM_eq_ok
      (fun covered (entry : IndexRange × Bytes) => tryMark_eq covered entry.1) _ _

theorem tryIsComplete_eq (h : a.totalSize < capacityLimit) :
    a.tryIsComplete = .ok a.isComplete := by
  rw [tryIsComplete, tryCovered_eq, if_neg h.not_ge]
  rfl

/-- **`is_complete` panics** when the flags cannot be made, and then only. -/
theorem tryIsComplete_eq_ok_iff :
    (∃ b, a.tryIsComplete = .ok b) ↔ a.totalSize < capacityLimit := by
  refine ⟨fun ⟨b, hb⟩ => ?_, fun h => ⟨_, a.tryIsComplete_eq h⟩⟩
  rw [tryIsComplete, tryCovered_eq] at hb
  split at hb
  · cases hb
  · next h => exact not_le.mp h

theorem tryScan_eq (found : List IndexRange × Option ℕ) (flag : Bool × ℕ) :
    tryScan found flag = .ok (scan found flag) := by
  obtain ⟨closed, opened⟩ := found
  obtain ⟨flag, i⟩ := flag
  cases opened with
  | none => cases flag <;> rfl
  | some s => cases flag <;> rfl

theorem tryMissingRanges_eq (h : a.totalSize < capacityLimit) :
    a.tryMissingRanges = .ok a.missingRanges := by
  rw [tryMissingRanges, tryCovered_eq, if_neg h.not_ge, Except.ok_bind,
    Except.foldlM_eq_ok tryScan_eq, Except.ok_bind, missingRanges]
  generalize a.covered.zipIdx.foldl scan ([], none) = found
  obtain ⟨missing, start⟩ := found
  cases start with
  | none => rfl
  | some s => rfl

/-- `assemble`, with all the panics that it could have. -/
def tryAssemble : Except RangeFault Bytes :=
  match a.tryIsComplete, tryVec 0 a.totalSize with
  | .ok true, .ok data => a.received.foldlM copy data
  | .ok false, _ => .error (.error (.invalidRange "Block incomplete"))
  | _, _ => .error (.panic "capacity overflow")

theorem tryAssemble_eq : a.tryAssemble =
    if capacityLimit ≤ a.totalSize then .error (.panic "capacity overflow") else a.assemble := by
  by_cases h : capacityLimit ≤ a.totalSize
  · rw [if_pos h, tryAssemble, tryIsComplete, tryCovered_eq, if_pos h]
    rfl
  · rw [if_neg h, tryAssemble, a.tryIsComplete_eq (not_le.mp h), tryVec, if_neg h, assemble]
    cases a.isComplete with
    | true => rfl
    | false => rfl

/-! ### Assembly -/

/-- A chunk with a range that is inverted, or that is as long as the data and ends behind the
block. -/
def Overruns (totalSize : ℕ) (entry : IndexRange × Bytes) : Prop :=
  entry.1.stop < entry.1.start ∨
    entry.2.length = entry.1.stop - entry.1.start ∧ totalSize < entry.1.stop

/-- A chunk that is not as long as its range. -/
def Mismatched (entry : IndexRange × Bytes) : Prop :=
  entry.1.start ≤ entry.1.stop ∧ entry.2.length ≠ entry.1.stop - entry.1.start

instance (totalSize : ℕ) (entry : IndexRange × Bytes) : Decidable (Overruns totalSize entry) :=
  inferInstanceAs (Decidable (_ ∨ _))

instance (entry : IndexRange × Bytes) : Decidable (Mismatched entry) :=
  inferInstanceAs (Decidable (_ ∧ _))

variable {data : Bytes} {entry : IndexRange × Bytes} {entries : List (IndexRange × Bytes)}

theorem copy_of_overruns (h : Overruns data.length entry) :
    ∃ msg, copy data entry = .error (.panic msg) := by
  obtain hinv | ⟨hlen, hstop⟩ := h
  · exact ⟨_, if_pos hinv⟩
  · by_cases hinv : entry.1.stop < entry.1.start
    · exact ⟨_, if_pos hinv⟩
    · exact ⟨_, by rw [copy, if_neg hinv, if_neg (not_not.mpr hlen), if_pos hstop]⟩

theorem copy_of_mismatched (h : Mismatched entry) :
    copy data entry = .error (.error (.invalidRange "Chunk size mismatch")) := by
  rw [copy, if_neg (not_lt.mpr h.1), if_pos h.2]

theorem copy_of_fits (hover : ¬ Overruns data.length entry) (hmis : ¬ Mismatched entry) :
    ∃ data', copy data entry = .ok data' ∧ data'.length = data.length := by
  rw [Overruns, not_or] at hover
  have hstart := not_lt.mp hover.1
  have hlen : entry.2.length = entry.1.stop - entry.1.start := by
    by_contra hne
    exact hmis ⟨hstart, hne⟩
  have hstop : ¬ data.length < entry.1.stop := fun hlt => hover.2 ⟨hlen, hlt⟩
  refine ⟨_, by rw [copy, if_neg hover.1, if_neg (not_not.mpr hlen), if_neg hstop], ?_⟩
  rw [List.length_append, List.length_append, List.length_take, List.length_drop]
  omega

/-- **The copying panics** at the first chunk that overruns, unless it has given up before. -/
theorem foldlM_copy_panics_iff : (∃ msg, entries.foldlM copy data = .error (.panic msg)) ↔
    ∃ pre entry post, entries = pre ++ entry :: post ∧ Overruns data.length entry ∧
      ∀ e ∈ pre, ¬ Mismatched e := by
  induction entries generalizing data with
  | nil =>
    refine iff_of_false ?_ ?_
    · rintro ⟨msg, h⟩
      cases h
    · rintro ⟨pre, entry, post, h, -⟩
      exact absurd h (by simp)
  | cons e entries ih =>
    rw [List.foldlM_cons, Except.exists_first_cons_iff]
    by_cases hover : Overruns data.length e
    · obtain ⟨msg, hcopy⟩ := copy_of_overruns hover
      rw [hcopy]
      exact iff_of_true ⟨msg, rfl⟩ (.inl hover)
    rw [or_iff_right hover]
    by_cases hmis : Mismatched e
    · -- the loop returns an error, and never comes to the others
      rw [copy_of_mismatched hmis]
      refine iff_of_false ?_ fun h => h.1 hmis
      rintro ⟨msg, h⟩
      cases h
    · obtain ⟨data', hcopy, hlen⟩ := copy_of_fits hover hmis
      rw [hcopy, Except.ok_bind, ih, hlen, and_iff_right hmis]

/-- **`assemble` panics**, if its vectors can be made, when the block is complete and the copying
does. -/
theorem assemble_panics_iff :
    (∃ msg, a.assemble = .error (.panic msg)) ↔
      (∀ i < a.totalSize, Has a.received i) ∧
        ∃ pre entry post, a.received = pre ++ entry :: post ∧ Overruns a.totalSize entry ∧
          ∀ e ∈ pre, ¬ Mismatched e := by
  rw [assemble, ← isComplete_iff]
  cases hcomplete : a.isComplete with
  | false =>
    refine iff_of_false ?_ (by simp)
    rintro ⟨msg, h⟩
    cases h
  | true =>
    have hpanics := @foldlM_copy_panics_iff (List.replicate a.totalSize 0) a.received
    rw [List.length_replicate] at hpanics
    simpa using hpanics

theorem addAll_eq {a a' : RangeAssembler} {responses : List RangeResponse}
    (h : a.addAll responses = .ok a') :
    a' = { a with received := a.received ++ RangeAssembler.entries responses } := by
  induction responses generalizing a with
  | nil =>
    obtain rfl := Except.ok.inj h
    simp [RangeAssembler.entries]
  | cons r responses ih =>
    rw [addAll, List.foldlM_cons] at h
    obtain ⟨a₁, hadd, h⟩ := Except.bind_eq_ok_iff.mp h
    have ha' := ih h
    unfold addRange at hadd
    split at hadd
    · cases hadd
    split at hadd
    · cases hadd
    obtain rfl := Except.ok.inj hadd
    rw [ha']
    simp [RangeAssembler.entries]

/-- What the questions to an assembler promise. -/
structure Safe (a : RangeAssembler) : Prop where
  isComplete : ∃ b, a.tryIsComplete = .ok b
  missingRanges : ∃ missing, a.tryMissingRanges = .ok missing
  assemble : ∀ msg, a.tryAssemble ≠ .error (.panic msg)

theorem safe_iff : a.Safe ↔
    a.totalSize < capacityLimit ∧ ∀ msg, a.assemble ≠ .error (.panic msg) := by
  constructor
  · intro h
    have hsize := a.tryIsComplete_eq_ok_iff.mp h.isComplete
    have hassemble := h.assemble
    rw [tryAssemble_eq, if_neg hsize.not_ge] at hassemble
    exact ⟨hsize, hassemble⟩
  · rintro ⟨hsize, hassemble⟩
    refine ⟨⟨_, a.tryIsComplete_eq hsize⟩, ⟨_, a.tryMissingRanges_eq hsize⟩, ?_⟩
    rw [tryAssemble_eq, if_neg hsize.not_ge]
    exact hassemble

end RangeAssembler

/-- **Ranges from the network are handled safely** under exactly these conditions. For an assembler
the total size has to be one that a vector can have; then a complete block is copied together, and
what overruns it does no harm only behind a chunk at which `assemble` has given up. -/
theorem ranges_safe_iff (r other : ByteRange) (totalSize : UInt64) :
    (r.Safe other totalSize ↔
      ¬ r.Inverted totalSize ∧ ¬ (totalSize = 0 ∧ r.OfAnyBlock ∧ other.OfAnyBlock)) ∧
    ∀ cid (totalSize : UInt64) responses a,
      (RangeAssembler.new cid totalSize.toNat).addAll responses = .ok a →
      (a.Safe ↔ totalSize.toNat < capacityLimit ∧
        ((∃ i < totalSize.toNat, ∀ r ∈ responses, i ∉ r.range) ∨
        ∀ pre entry post, RangeAssembler.entries responses = pre ++ entry :: post →
          RangeAssembler.Overruns totalSize.toNat entry →
            ∃ e ∈ pre, RangeAssembler.Mismatched e)) := by
  refine ⟨ByteRange.safe_iff, fun cid totalSize responses a h => ?_⟩
  have hreceived : a.received = RangeAssembler.entries responses := by
    rw [RangeAssembler.addAll_eq h]
    exact List.nil_append _
  have htotal : a.totalSize = totalSize.toNat := by
    rw [RangeAssembler.addAll_eq h]
    rfl
  have hpanics := a.assemble_panics_iff
  rw [hreceived, htotal] at hpanics
  simp only [RangeAssembler.has_entries_iff] at hpanics
  rw [RangeAssembler.safe_iff, htotal]
  refine and_congr_right fun _ => ⟨fun hsafe => ?_, fun hcond msg hmsg => ?_⟩
  · have hno := hpanics.not.mp (fun ⟨msg, hmsg⟩ => hsafe msg hmsg)
    rw [not_and_or] at hno
    push Not at hno
    exact hno
  · obtain ⟨hall, pre, entry, post, hentries, hover, hpre⟩ := hpanics.mp ⟨msg, hmsg⟩
    obtain ⟨i, hi, hnone⟩ | hbefore := hcond
    · obtain ⟨r, hr, hmem⟩ := hall i hi
      exact hnone r hr hmem
    · obtain ⟨e, he, hmis⟩ := hbefore pre entry post hentries hover
      exact hpre e he hmis

/-- Some identifier. -/
def sampleCid : Cid := Cid.newV1 Codec.raw ⟨0x12, [7], by decide⟩

/-- An answer beyond the block, behind one with too little data. -/
theorem ranges_safe_shortChunk :
    (∃ r, ByteRange.fromToChecked 5 10 = .ok r ∧ r.Safe .all 100) ∧
      ∃ a, (RangeAssembler.new sampleCid 1).addAll
        [⟨sampleCid, ⟨0, 1⟩, [], 1⟩, ⟨sampleCid, ⟨1, 2⟩, [7], 1⟩] = .ok a ∧ a.Safe := by
  refine ⟨⟨_, rfl, (ranges_safe_iff _ _ _).1.mpr ⟨?_, fun h => absurd h.1 (by decide)⟩⟩, ?_⟩
  · exact @ByteRange.not_inverted_of_fromToChecked _ _ 5 10 rfl
  -- the second chunk overruns the block, behind one that is too short
  let responses : List RangeResponse :=
    [⟨sampleCid, ⟨0, 1⟩, [], 1⟩, ⟨sampleCid, ⟨1, 2⟩, [7], 1⟩]
  refine ⟨_, rfl, ((ranges_safe_iff .all .all 1).2 sampleCid 1 responses _ rfl).mpr
    ⟨by decide, .inr ?_⟩⟩
  intro pre entry post hentries hover
  cases pre with
  | nil =>
    obtain ⟨rfl, -⟩ := List.cons.inj hentries
    exact absurd hover (by decide)
  | cons e pre =>
    obtain ⟨rfl, -⟩ := List.cons.inj hentries
    exact ⟨_, List.mem_cons_self, by decide⟩

/-- A range that `from_to` would have refused, two ranges of an empty block, an assembler of the
largest total size, and an answer with an inverted range. -/
theorem ranges_not_safe :
    ByteRange.toRange (.fromTo 10 5) 100 = .ok (.ok ⟨10, 6⟩) ∧
    ByteRange.size (.fromTo 10 5) 100 = .error (.panic "attempt to subtract with overflow") ∧
    ByteRange.merge .all .all 0 = .error (.panic "attempt to subtract with overflow") ∧
    (RangeAssembler.new sampleCid (2 ^ 64 - 1)).tryIsComplete =
      .error (.panic "capacity overflow") ∧
    ∃ a, (RangeAssembler.new sampleCid 1).addAll
        [⟨sampleCid, ⟨0, 1⟩, [7], 1⟩, ⟨sampleCid, ⟨1, 0⟩, [], 1⟩] = .ok a ∧
      a.tryAssemble = .error (.panic "attempt to subtract with overflow") := by
  refine ⟨by decide +kernel, by decide +kernel, by decide +kernel, ?_, _, rfl, ?_⟩
  · rw [RangeAssembler.tryIsComplete, RangeAssembler.tryCovered_eq, if_pos (by decide)]
    rfl
  · rw [RangeAssembler.tryAssemble_eq, if_neg (by decide)]
    decide +kernel

end Ipfrs.Transport
