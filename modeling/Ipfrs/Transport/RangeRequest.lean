import Ipfrs.Core.CidReference
import Ipfrs.Lib.MaximalIntervals

/-!
# Assembling a block from byte ranges

The `RangeAssembler` of the transport crate (`ipfrs-transport/src/range_request.rs`). A `Range<u64>`
is an `IndexRange`. What is covered is found out byte by byte, in a vector of flags that is made
anew for every question.

* `getElem?_covered` — a byte is flagged if and only if some range has it;
* `missingRanges_spec` — the ranges that are missing are the maximal intervals without a flag;
* `assembler_spec` — with answers that are slices of one block, coverage, missing ranges and the
  assembled block agree.
-/

namespace Ipfrs.Transport

/-- `RangeError`, as far as the assembler gives it. -/
inductive RangeError where
  | invalidRange (msg : String)
  deriving DecidableEq, Repr

/-- How `assemble` can end without a block: with an error, or with a panic. -/
inductive RangeFault where
  | error (e : RangeError)
  | panic (msg : String)
  deriving DecidableEq, Repr

structure RangeResponse where
  cid : Cid
  range : IndexRange
  data : Bytes
  totalSize : ℕ
  deriving DecidableEq

/-- `RangeAssembler`. Here its vectors can always be made, as for the size of a block that is in
memory; for a size that a peer names see `tryIsComplete` and its likes. -/
structure RangeAssembler where
  cid : Cid
  totalSize : ℕ
  received : List (IndexRange × Bytes)

namespace RangeAssembler

def new (cid : Cid) (totalSize : ℕ) : RangeAssembler := ⟨cid, totalSize, []⟩

variable (a : RangeAssembler)

def addRange (response : RangeResponse) : Except RangeError RangeAssembler :=
  if response.cid ≠ a.cid then .error (.invalidRange "CID mismatch")
  else if response.totalSize ≠ a.totalSize then .error (.invalidRange "Total size mismatch")
  else .ok { a with received := a.received ++ [(response.range, response.data)] }

/-- The flags with those of one range set, as far as they are there. -/
def mark (covered : List Bool) (range : IndexRange) : List Bool :=
  (List.range' range.start (range.stop - range.start)).foldl
    (fun covered i => if i < covered.length then covered.set i true else covered) covered

/-- The flags of all bytes, which `is_complete` and `missing_ranges` set in the same way. -/
def covered : List Bool :=
  a.received.foldl (fun covered entry => mark covered entry.1) (List.replicate a.totalSize false)

def isComplete : Bool := a.covered.all id

/-- One flag of the scan in `missing_ranges`. -/
def scan (found : List IndexRange × Option ℕ) (flag : Bool × ℕ) : List IndexRange × Option ℕ :=
  match found.2 with
  | none => if flag.1 then found else (found.1, some flag.2)
  | some start => if flag.1 then (found.1 ++ [⟨start, flag.2⟩], none) else found

def missingRanges : List IndexRange :=
  let (missing, start) := a.covered.zipIdx.foldl scan ([], none)
  match start with
  | some s => missing ++ [⟨s, a.totalSize⟩]
  | none => missing

/-- What `assemble` does with one of the chunks. The length of the range is a difference of `u64`s,
and `copy_from_slice` wants both lengths to be equal. -/
def copy (data : Bytes) (entry : IndexRange × Bytes) : Except RangeFault Bytes :=
  if entry.1.stop < entry.1.start then .error (.panic "attempt to subtract with overflow")
  else if entry.2.length ≠ entry.1.stop - entry.1.start then
    .error (.error (.invalidRange "Chunk size mismatch"))
  else if data.length < entry.1.stop then
    .error (.panic "range end index out of range for slice")
  else .ok (data.take entry.1.start ++ entry.2 ++ data.drop entry.1.stop)

def assemble : Except RangeFault Bytes :=
  if !a.isComplete then .error (.error (.invalidRange "Block incomplete"))
  else a.received.foldlM copy (List.replicate a.totalSize 0)

end RangeAssembler

/-! ### Coverage -/

namespace RangeAssembler

variable {flags : List Bool} {I : IndexRange} {i : ℕ}

@[simp] theorem length_mark (flags : List Bool) (I : IndexRange) :
    (mark flags I).length = flags.length := by
  unfold mark
  generalize List.range' I.start (I.stop - I.start) = positions
  induction positions generalizing flags with
  | nil => rfl
  | cons p positions ih =>
    rw [List.foldl_cons, ih]
    split
    · exact List.length_set
    · rfl

theorem getElem?_foldl_set (flags : List Bool) (positions : List ℕ) (i : ℕ) :
    (positions.foldl (fun flags p => if p < flags.length then flags.set p true else flags)
      flags)[i]? = if i ∈ positions ∧ i < flags.length then some true else flags[i]? := by
  induction positions generalizing flags with
  | nil => simp
  | cons p positions ih =>
    rw [List.foldl_cons, ih]
    by_cases hp : p < flags.length
    · rw [if_pos hp, List.length_set, List.getElem?_set]
      by_cases hi : p = i
      · subst hi
        simp [hp]
      · simp [hi, Ne.symm hi]
    · rw [if_neg hp]
      by_cases hi : p = i
      · subst hi
        simp [hp]
      · simp [Ne.symm hi]

theorem getElem?_mark (flags : List Bool) (I : IndexRange) (i : ℕ) :
    (mark flags I)[i]? = if i ∈ I ∧ i < flags.length then some true else flags[i]? := by
  rw [mark, getElem?_foldl_set]
  have hmem : i ∈ List.range' I.start (I.stop - I.start) ↔ i ∈ I := by
    rw [List.mem_range'_1, IndexRange.mem_def]
    omega
  simp only [hmem]

/-- The bytes that some answer has. -/
def Has (entries : List (IndexRange × Bytes)) (i : ℕ) : Prop := ∃ e ∈ entries, i ∈ e.1

instance (entries : List (IndexRange × Bytes)) (i : ℕ) : Decidable (Has entries i) :=
  inferInstanceAs (Decidable (∃ e ∈ entries, _))

variable (a : RangeAssembler)

/-- **A flag is set** if and only if some range has its byte. -/
theorem getElem?_covered (i : ℕ) :
    a.covered[i]? = if i < a.totalSize then some (decide (Has a.received i)) else none := by
  unfold covered
  -- the answers are taken in order, and a flag that is set stays so
  suffices h : ∀ flags : List Bool, (a.received.foldl (fun flags e => mark flags e.1) flags)[i]? =
      if Has a.received i ∧ i < flags.length then some true else flags[i]? by
    rw [h, List.length_replicate, List.getElem?_replicate]
    by_cases hi : i < a.totalSize
    · by_cases hhas : Has a.received i
      · simp [hi, hhas]
      · simp [hi, hhas]
    · simp [hi]
  generalize a.received = entries
  induction entries with
  | nil => intro flags; simp [Has]
  | cons e entries ih =>
    intro flags
    rw [List.foldl_cons, ih, getElem?_mark, length_mark]
    have hhas : Has (e :: entries) i ↔ i ∈ e.1 ∨ Has entries i := by simp [Has]
    by_cases he : i ∈ e.1
    · by_cases hi : i < flags.length
      · simp [hhas, he, hi]
      · simp [he, hi]
    · simp [hhas, he]

theorem length_covered : a.covered.length = a.totalSize := by
  unfold covered
  suffices h : ∀ flags : List Bool,
      (a.received.foldl (fun flags e => mark flags e.1) flags).length = flags.length by
    rw [h, List.length_replicate]
  generalize a.received = entries
  induction entries with
  | nil => exact fun _ => rfl
  | cons e entries ih =>
    intro flags
    rw [List.foldl_cons, ih, length_mark]

/-- **Complete**: every byte has been received. -/
theorem isComplete_iff : a.isComplete = true ↔ ∀ i < a.totalSize, Has a.received i := by
  rw [isComplete, List.all_eq_true]
  constructor
  · intro h i hi
    have hget := a.getElem?_covered i
    rw [if_pos hi] at hget
    exact of_decide_eq_true (h _ (List.mem_of_getElem? hget))
  · intro h flag hflag
    obtain ⟨i, hi⟩ := List.mem_iff_getElem?.mp hflag
    rw [getElem?_covered] at hi
    split at hi
    · next hlt =>
      obtain rfl := Option.some.inj hi
      exact decide_eq_true (h i hlt)
    · cases hi

theorem scanned_foldl {P : ℕ → Prop} {k : ℕ} {closed : List IndexRange} {opened : Option ℕ}
    (h : IndexRange.Scanned P k closed opened)
    (hflags : ∀ j flag, flags[j]? = some flag → (flag = false ↔ P (k + j))) :
    IndexRange.Scanned P (k + flags.length) ((flags.zipIdx k).foldl scan (closed, opened)).1
      ((flags.zipIdx k).foldl scan (closed, opened)).2 := by
  induction flags generalizing k closed opened with
  | nil => exact h
  | cons flag flags ih =>
    have hflag : flag = false ↔ P k := hflags 0 flag rfl
    have htail : ∀ j flag', flags[j]? = some flag' → (flag' = false ↔ P (k + 1 + j)) := by
      intro j flag' hj
      rw [Nat.add_assoc, Nat.add_comm 1]
      exact hflags (j + 1) flag' hj
    rw [List.zipIdx_cons, List.foldl_cons, List.length_cons, Nat.add_comm flags.length,
      ← Nat.add_assoc]
    cases flag with
    | false =>
      have hk : P k := hflag.mp rfl
      cases opened with
      | none => exact ih (h.enter hk) htail
      | some s => exact ih (h.stay hk) htail
    | true =>
      have hk : ¬ P k := fun hk => Bool.noConfusion (hflag.mpr hk)
      cases opened with
      | none => exact ih (h.skip hk) htail
      | some s => exact ih (h.leave hk) htail

/-- **The missing ranges** are the maximal intervals that no answer has a byte of, in order. -/
theorem missingRanges_spec :
    (∀ I, I ∈ a.missingRanges ↔ I.IsMaximal (fun i => ¬ Has a.received i) a.totalSize) ∧
      a.missingRanges.Pairwise (fun I J => I.stop < J.start) ∧
      ∀ i < a.totalSize, ¬ Has a.received i → ∃ I ∈ a.missingRanges, i ∈ I := by
  have hflags : ∀ j flag, a.covered[j]? = some flag →
      (flag = false ↔ ¬ Has a.received (0 + j)) := by
    intro j flag hj
    rw [getElem?_covered] at hj
    split at hj
    · obtain rfl := Option.some.inj hj
      rw [decide_eq_false_iff_not, Nat.zero_add]
    · cases hj
  have hzero : IndexRange.Scanned (fun i => ¬ Has a.received i) 0 [] none := .zero
  have hscanned := scanned_foldl hzero hflags
  rw [length_covered, Nat.zero_add] at hscanned
  exact hscanned.finish

end RangeAssembler

/-! ### The block -/

/-- The bytes of a block in a range. -/
def slice (block : Bytes) (range : IndexRange) : Bytes :=
  (block.drop range.start).take (range.stop - range.start)

/-- An answer about a block: one of its slices. -/
structure RangeResponse.Answers (response : RangeResponse) (cid : Cid) (block : Bytes) : Prop where
  cid_eq : response.cid = cid
  totalSize_eq : response.totalSize = block.length
  start_le : response.range.start ≤ response.range.stop
  stop_le : response.range.stop ≤ block.length
  data_eq : response.data = slice block response.range

namespace RangeAssembler

variable {cid : Cid} {block : Bytes} {responses : List RangeResponse} {a a' : RangeAssembler}

/-- Responses that are added one after the other. -/
def addAll (a : RangeAssembler) (responses : List RangeResponse) :
    Except RangeError RangeAssembler :=
  responses.foldlM addRange a

/-- What the answers to some requests leave in the assembler. -/
def entries (responses : List RangeResponse) : List (IndexRange × Bytes) :=
  responses.map fun r => (r.range, r.data)

theorem has_entries_iff {i : ℕ} : Has (entries responses) i ↔ ∃ r ∈ responses, i ∈ r.range := by
  simp [Has, entries]

theorem addAll_eq_ok (hcid : a.cid = cid) (hsize : a.totalSize = block.length)
    (h : ∀ r ∈ responses, r.Answers cid block) :
    a.addAll responses = .ok { a with received := a.received ++ entries responses } := by
  induction responses generalizing a with
  | nil => simp [addAll, entries, pure, Except.pure]
  | cons r responses ih =>
    obtain ⟨hr, htail⟩ := List.forall_mem_cons.mp h
    have hadd : a.addRange r = .ok { a with received := a.received ++ [(r.range, r.data)] } := by
      rw [addRange, if_neg (by simp [hr.cid_eq, hcid]), if_neg (by simp [hr.totalSize_eq, hsize])]
    have hrest := ih (a := { a with received := a.received ++ [(r.range, r.data)] }) hcid hsize
      htail
    rw [addAll, List.foldlM_cons, hadd]
    exact hrest.trans (by simp [entries])

/-- **One chunk** is put where it belongs. -/
theorem copy_slice {data : Bytes} {range : IndexRange} (hlength : data.length = block.length)
    (hstart : range.start ≤ range.stop) (hstop : range.stop ≤ block.length) :
    ∃ data', copy data (range, slice block range) = .ok data' ∧ data'.length = block.length ∧
      ∀ i, data'[i]? = if i ∈ range then block[i]? else data[i]? := by
  have hslice : (slice block range).length = range.stop - range.start := by
    rw [slice, List.length_take, List.length_drop]
    omega
  refine ⟨data.take range.start ++ slice block range ++ data.drop range.stop, ?_, ?_,
    fun i => ?_⟩
  · have hfits : ¬ data.length < range.stop := by omega
    rw [copy, if_neg (not_lt.mpr hstart), if_neg (not_not.mpr hslice), if_neg hfits]
  · rw [List.length_append, List.length_append, List.length_take, List.length_drop, hslice]
    omega
  · have htake : (data.take range.start).length = range.start := by
      rw [List.length_take]
      omega
    rw [List.append_assoc]
    -- before, in and behind the range
    obtain hlt | hge := Nat.lt_or_ge i range.start
    · have hout : i ∉ range := fun hi => absurd hi.1 (not_le.mpr hlt)
      rw [List.getElem?_append_left (by omega), List.getElem?_take_of_lt hlt, if_neg hout]
    · rw [List.getElem?_append_right (by omega), htake]
      obtain hin | hout := Nat.lt_or_ge i range.stop
      · rw [List.getElem?_append_left (by omega), slice, List.getElem?_take_of_lt (by omega),
          List.getElem?_drop, if_pos (show i ∈ range from ⟨hge, hin⟩)]
        congr 1
        omega
      · have hnot : i ∉ range := fun hi => absurd hi.2 (not_lt.mpr hout)
        rw [List.getElem?_append_right (by omega), hslice, List.getElem?_drop, if_neg hnot]
        congr 1
        omega

/-- **All chunks**: the bytes that some answer has are those of the block. -/
theorem foldlM_copy {data : Bytes} (hlength : data.length = block.length)
    (h : ∀ r ∈ responses, r.Answers cid block) :
    ∃ data', (entries responses).foldlM copy data = .ok data' ∧ data'.length = block.length ∧
      ∀ i, data'[i]? = if Has (entries responses) i then block[i]? else data[i]? := by
  induction responses generalizing data with
  | nil => exact ⟨data, rfl, hlength, fun i => by simp [Has, entries]⟩
  | cons r responses ih =>
    obtain ⟨hr, htail⟩ := List.forall_mem_cons.mp h
    obtain ⟨data₁, hcopy, hlength₁, hget₁⟩ := copy_slice hlength hr.start_le hr.stop_le
    obtain ⟨data₂, hrest, hlength₂, hget₂⟩ := ih hlength₁ htail
    refine ⟨data₂, ?_, hlength₂, fun i => ?_⟩
    · rw [entries, List.map_cons, List.foldlM_cons, hr.data_eq, hcopy]
      exact hrest
    · have hhas : Has (entries (r :: responses)) i ↔ i ∈ r.range ∨ Has (entries responses) i := by
        simp [Has, entries]
      rw [hget₂, hget₁]
      by_cases hi : Has (entries responses) i
      · rw [if_pos hi, if_pos (hhas.mpr (.inr hi))]
      · by_cases hr' : i ∈ r.range
        · rw [if_neg hi, if_pos hr', if_pos (hhas.mpr (.inl hr'))]
        · rw [if_neg hi, if_neg hr', if_neg (by simp [hhas, hi, hr'])]

/-- **Assembly.** Answers about a block are taken in any order, with overlaps and repetitions. The
assembler is complete if and only if they cover the block; the missing ranges are the maximal
intervals that they do not cover, in order, and answers to exactly these complete it; and then the
block is assembled, and not before. -/
theorem assembler_spec (h : ∀ r ∈ responses, r.Answers cid block) :
    ∃ a, (new cid block.length).addAll responses = .ok a ∧
      (a.isComplete = true ↔ ∀ i < block.length, ∃ r ∈ responses, i ∈ r.range) ∧
      (∀ I, I ∈ a.missingRanges ↔
        I.IsMaximal (fun i => ¬ ∃ r ∈ responses, i ∈ r.range) block.length) ∧
      a.missingRanges.Pairwise (fun I J => I.stop < J.start) ∧
      (∀ fetched : List RangeResponse, (∀ r ∈ fetched, r.Answers cid block) →
        (fetched.map fun r => r.range).Perm a.missingRanges →
        ∃ a', a.addAll fetched = .ok a' ∧ a'.isComplete = true) ∧
      (a.isComplete = true → a.assemble = .ok block) ∧
      (a.isComplete = false → ∃ e, a.assemble = .error (.error e)) := by
  have hhas : ∀ i, Has ((new cid block.length).received ++ entries responses) i ↔
      ∃ r ∈ responses, i ∈ r.range := fun i => has_entries_iff
  have hadd := addAll_eq_ok (a := new cid block.length) rfl rfl h
  let a : RangeAssembler :=
    { new cid block.length with received := (new cid block.length).received ++ entries responses }
  obtain ⟨hmissing, hordered, hfound⟩ := a.missingRanges_spec
  refine ⟨a, hadd, ?_, ?_, hordered, ?_, ?_, ?_⟩
  · simp only [← hhas]
    exact a.isComplete_iff
  · simp only [← hhas]
    exact hmissing
  · intro fetched hfetched hperm
    have hadd' := addAll_eq_ok (a := a) rfl rfl hfetched
    refine ⟨_, hadd', (isComplete_iff _).mpr fun i hi => ?_⟩
    show ∃ e ∈ a.received ++ entries fetched, i ∈ e.1
    by_cases hi' : Has a.received i
    · obtain ⟨e, he, hmem⟩ := hi'
      exact ⟨e, List.mem_append_left _ he, hmem⟩
    · -- a byte that was missing is in a missing range, which was fetched
      obtain ⟨I, hI, hmem⟩ := hfound i hi hi'
      obtain ⟨r, hr, rfl⟩ := List.mem_map.mp (hperm.mem_iff.mpr hI)
      exact ⟨(r.range, r.data), List.mem_append_right _ (List.mem_map.mpr ⟨r, hr, rfl⟩), hmem⟩
  · -- every byte is in some answer, and each answer puts the byte of the block there
    intro hcomplete
    have hall := a.isComplete_iff.mp hcomplete
    obtain ⟨data, hcopy, hlength, hget⟩ := foldlM_copy (List.length_replicate (a := 0)) h
    rw [assemble, hcomplete]
    refine hcopy.trans (congrArg _ (List.ext_getElem? fun i => ?_))
    obtain hlt | hge := Nat.lt_or_ge i block.length
    · rw [hget]
      exact if_pos (hall i hlt)
    · rw [List.getElem?_eq_none_iff.mpr hge, List.getElem?_eq_none_iff.mpr (hlength.trans_le hge)]
  · intro hcomplete
    exact ⟨_, by rw [assemble, hcomplete]; rfl⟩

section Sample

open scoped CidReference

/-- Two answers that overlap, of a block of four bytes: the last byte is missing. -/
theorem assembler_spec_two :
    let _ := CidReference.byteHash
    let cid : Cid := Cid.ofData Codec.raw .sha256 [1, 2, 3, 4]
    let responses : List RangeResponse :=
      [⟨cid, ⟨1, 3⟩, [2, 3], 4⟩, ⟨cid, ⟨0, 2⟩, [1, 2], 4⟩]
    ∃ a, (new cid 4).addAll responses = .ok a ∧ a.missingRanges = [⟨3, 4⟩] ∧
      a.isComplete = false := by
  intro _ cid responses
  have hanswers : ∀ r ∈ responses, r.Answers cid [1, 2, 3, 4] := by
    intro r hr
    obtain rfl | rfl : r = _ ∨ r = _ := by simpa [responses] using hr
    · exact ⟨rfl, rfl, by decide, by decide, by decide⟩
    · exact ⟨rfl, rfl, by decide, by decide, by decide⟩
  obtain ⟨a, hadd, hcomplete, -⟩ := assembler_spec hanswers
  have hadd' := addAll_eq_ok (a := new cid 4) rfl rfl hanswers
  obtain rfl := Except.ok.inj (hadd.symm.trans hadd')
  exact ⟨_, hadd, by decide +kernel, by decide +kernel⟩

end Sample

end RangeAssembler

end Ipfrs.Transport
