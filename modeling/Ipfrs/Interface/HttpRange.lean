import Mathlib.Data.List.DropRight
import Ipfrs.Core.BlockCache
import Ipfrs.Lib.MergeIntervals
import Ipfrs.Lib.StableSort
import Ipfrs.Tensorlogic.Datalog

/-!
# Range headers

`parse_multi_range` and `merge_ranges` of the gateway (`ipfrs-interface/src/gateway/routes.rs`), and
what the gateway cuts out of a block. A pair of a start and an end is an `IndexRange`. A panic is a
`Fault`; `none` stands for a header that is not answered with a part of the block.

* `RangeSpec` — what a part of a header asks for;
* `readPart_eq` — what is made of one part;
* `isMerge_mergeRanges` — the merged ranges do not touch, and have the same bytes;
* `parsesRight_iff` — when the ranges of a header are those that it asks for.
-/

namespace Ipfrs.Interface

open Tensorlogic (isWhitespace)

/-! ### Text -/

/-- `str::trim`. -/
def trim (s : List Char) : List Char := (s.dropWhile isWhitespace).rdropWhile isWhitespace

/-- `str::split_once`, for a character. -/
def splitOnce (sep : Char) (s : List Char) : Option (List Char × List Char) :=
  if sep ∈ s then some (s.takeWhile (· ≠ sep), (s.dropWhile (· ≠ sep)).tail) else none

/-- What `str::parse::<usize>` reads the digits of: a plus sign may stand in front. -/
def unsignedDigits : List Char → List Char
  | '+' :: digits => digits
  | digits => digits

/-- `str::parse::<usize>`. -/
def parseUsize (s : List Char) : Option ℕ :=
  let digits := unsignedDigits s
  if digits ≠ [] ∧ digits.all Char.isDigit then
    let value := Nat.ofDigitChars 10 digits 0
    if value < 2 ^ 64 then some value else none
  else none

theorem parseUsize_lt {s : List Char} {n : ℕ} (h : parseUsize s = some n) : n < 2 ^ 64 := by
  unfold parseUsize at h
  dsimp only at h
  split at h
  · split at h
    · next hlt => exact Option.some.inj h ▸ hlt
    · cases h
  · cases h

/-! ### The parser -/

/-- The body of the loop of `parse_multi_range`: the range that it pushes, or `none` where it
returns. -/
def readPart (totalSize : ℕ) (part : List Char) : Except Fault (Option IndexRange) :=
  match splitOnce '-' (trim part) with
  | none => .ok none
  | some (startStr, endStr) =>
    -- a suffix range is not checked
    if startStr = [] then
      match parseUsize endStr with
      | some suffixLen => .ok (some ⟨totalSize - suffixLen, totalSize⟩)
      | none => .ok none
    else
      match parseUsize startStr with
      | none => .ok none
      | some start => do
        let stop ← if endStr = [] then .ok (some totalSize)
          else match parseUsize endStr with
            | some last => some <$> addU64 last 1
            | none => .ok none
        match stop with
        | none => .ok none
        | some stop =>
          if start < totalSize ∧ start < stop ∧ stop ≤ totalSize then .ok (some ⟨start, stop⟩)
          else .ok none

/-- The loop of `parse_multi_range`. -/
def readParts (totalSize : ℕ) :
    List (List Char) → List IndexRange → Except Fault (Option (List IndexRange))
  | [], ranges => .ok (some ranges)
  | part :: parts, ranges => do
    match ← readPart totalSize part with
    | some range => readParts totalSize parts (ranges ++ [range])
    | none => .ok none

/-- One round of the loop of `merge_ranges`, with what has been pushed and the current range. -/
def mergeStep (st : List IndexRange × IndexRange) (range : IndexRange) :
    List IndexRange × IndexRange :=
  if range.start ≤ st.2.stop then (st.1, ⟨st.2.start, max st.2.stop range.stop⟩)
  else (st.1 ++ [st.2], range)

def mergeRanges (ranges : List IndexRange) : List IndexRange :=
  if ranges.length ≤ 1 then ranges
  else
    match StableSort.sortBy IndexRange.start ranges with
    | [] => []
    | current :: rest =>
      let (merged, current) := rest.foldl mergeStep ([], current)
      merged ++ [current]

/-- The parts of a header, or none without the prefix. -/
def rangeParts (header : String) : Option (List (List Char)) :=
  if "bytes=".toList.isPrefixOf header.toList then some ((header.toList.drop 6).splitOn ',')
  else none

def parseMultiRange (header : String) (totalSize : ℕ) :
    Except Fault (Option (List IndexRange)) :=
  match rangeParts header with
  | none => .ok none
  | some parts => do
    match ← readParts totalSize parts [] with
    | none => .ok none
    | some ranges => if ranges.isEmpty then .ok none else .ok (some (mergeRanges ranges))

/-- What a response has of one range: the value of `Content-Range`, and the bytes. -/
def contentPart (data : Bytes) (range : IndexRange) : Except Fault (String × Bytes) := do
  let last ← subU64 range.stop 1
  if range.start ≤ range.stop ∧ range.stop ≤ data.length then
    return (s!"bytes {range.start}-{last}/{data.length}",
      (data.drop range.start).take (range.stop - range.start))
  else .error (.panic "range end index out of range for slice")

/-! ### Merging -/

/-- **The merged ranges** do not touch, and have the same bytes. -/
theorem isMerge_mergeRanges (ranges : List IndexRange) :
    IndexRange.IsMerge ranges (mergeRanges ranges) := by
  unfold mergeRanges
  split
  · next h =>
    cases ranges with
    | nil => exact .nil
    | cons range ranges =>
      obtain rfl : ranges = [] := List.eq_nil_of_length_eq_zero (by simpa using h)
      exact .singleton range
  · have hperm := StableSort.sortBy_perm IndexRange.start ranges
    have hsorted := StableSort.pairwise_sortBy IndexRange.start ranges
    refine IndexRange.IsMerge.of_perm ?_ hperm
    generalize StableSort.sortBy IndexRange.start ranges = sorted at hsorted
    cases sorted with
    | nil => exact .nil
    | cons current rest =>
      -- the starts of what is left are not before the start of the current range
      suffices h : ∀ seen merged current, IndexRange.IsMerge seen (merged ++ [current]) →
          (current :: rest).Pairwise (fun I J => I.start ≤ J.start) →
          IndexRange.IsMerge (seen ++ rest)
            ((rest.foldl mergeStep (merged, current)).1 ++
              [(rest.foldl mergeStep (merged, current)).2]) from
        h [current] [] current (.singleton current) hsorted
      clear hsorted
      induction rest with
      | nil =>
        intro seen merged current h _
        rwa [List.append_nil]
      | cons range rest ih =>
        intro seen merged current h hsorted
        obtain ⟨hcurrent, hrest⟩ := List.pairwise_cons.mp hsorted
        have hstart := hcurrent range List.mem_cons_self
        have hseen : seen ++ range :: rest = seen ++ [range] ++ rest := by simp
        rw [hseen, List.foldl_cons, mergeStep]
        split
        · next htouch =>
          refine ih _ _ _ (h.extend hstart htouch) (List.pairwise_cons.mpr ⟨fun I hI => ?_, ?_⟩)
          · exact hcurrent I (List.mem_cons_of_mem _ hI)
          · exact (List.pairwise_cons.mp hrest).2
        · next hgap => exact ih _ _ _ (h.close hstart (not_le.mp hgap)) hrest

/-! ### What is asked for -/

/-- What a part asks for: the last bytes, the bytes from one on, or those from one to another. -/
inductive RangeSpec where
  | suffix (length : ℕ)
  | from (first : ℕ)
  | fromTo (first last : ℕ)
  deriving DecidableEq, Repr

namespace RangeSpec

/-- What a part asks for, if it is of one of the three forms. -/
def ofPart (part : List Char) : Option RangeSpec := do
  let (first, last) ← splitOnce '-' (trim part)
  if first = [] then suffix <$> parseUsize last
  else if last = [] then «from» <$> parseUsize first
  else return fromTo (← parseUsize first) (← parseUsize last)

/-- The bytes that are asked for, of a block of some size. -/
def positions (totalSize : ℕ) : RangeSpec → Set ℕ
  | suffix length => {i | i < totalSize ∧ totalSize ≤ i + length}
  | «from» first => {i | first ≤ i ∧ i < totalSize}
  | fromTo first last => {i | first ≤ i ∧ i ≤ last}

/-- The block has a byte where the range begins, and the last one that is named. -/
def Satisfiable (totalSize : ℕ) : RangeSpec → Prop
  | suffix _ => True
  | «from» first => first < totalSize
  | fromTo first last => first ≤ last ∧ last < totalSize

instance (totalSize : ℕ) (spec : RangeSpec) : Decidable (spec.Satisfiable totalSize) :=
  match spec with
  | suffix _ => inferInstanceAs (Decidable True)
  | «from» _ => inferInstanceAs (Decidable (_ < _))
  | fromTo _ _ => inferInstanceAs (Decidable (_ ∧ _))

/-- The last byte that is named is the largest number there is. -/
def Overflows : RangeSpec → Prop
  | fromTo _ last => last + 1 = 2 ^ 64
  | _ => False

instance (spec : RangeSpec) : Decidable spec.Overflows :=
  match spec with
  | suffix _ => inferInstanceAs (Decidable False)
  | «from» _ => inferInstanceAs (Decidable False)
  | fromTo _ _ => inferInstanceAs (Decidable (_ = _))

/-- The range that is pushed for it. -/
def range (totalSize : ℕ) : RangeSpec → IndexRange
  | suffix length => ⟨totalSize - length, totalSize⟩
  | «from» first => ⟨first, totalSize⟩
  | fromTo first last => ⟨first, last + 1⟩

variable {spec : RangeSpec} {totalSize : ℕ}

theorem mem_range_iff (spec : RangeSpec) (totalSize i : ℕ) :
    i ∈ spec.range totalSize ↔ i ∈ spec.positions totalSize := by
  cases spec with
  | suffix length =>
    show totalSize - length ≤ i ∧ i < totalSize ↔ i < totalSize ∧ totalSize ≤ i + length
    omega
  | «from» first => exact Iff.rfl
  | fromTo first last =>
    show first ≤ i ∧ i < last + 1 ↔ first ≤ i ∧ i ≤ last
    omega

theorem Satisfiable.range_le (h : spec.Satisfiable totalSize) :
    (spec.range totalSize).start ≤ (spec.range totalSize).stop ∧
      (spec.range totalSize).stop ≤ totalSize := by
  cases spec with
  | suffix length => exact ⟨Nat.sub_le _ _, le_rfl⟩
  | «from» first => exact ⟨(show first < totalSize from h).le, le_rfl⟩
  | fromTo first last =>
    obtain ⟨hle, hlt⟩ : first ≤ last ∧ last < totalSize := h
    exact ⟨Nat.le_succ_of_le hle, hlt⟩

/-- Only a suffix is pushed without a byte, and it is at the end of the block. -/
theorem Satisfiable.start_eq (h : spec.Satisfiable totalSize)
    (hempty : (spec.range totalSize).start = (spec.range totalSize).stop) :
    (spec.range totalSize).start = totalSize := by
  cases spec with
  | suffix length => exact hempty
  | «from» first => exact hempty
  | fromTo first last =>
    obtain ⟨hle, -⟩ : first ≤ last ∧ last < totalSize := h
    have hempty : first = last + 1 := hempty
    omega

theorem Satisfiable.positions_eq_empty_iff (h : spec.Satisfiable totalSize) :
    spec.positions totalSize = ∅ ↔
      (spec.range totalSize).start = (spec.range totalSize).stop := by
  have hstart := h.range_le.1
  rw [Set.eq_empty_iff_forall_notMem]
  simp only [← mem_range_iff, IndexRange.mem_def]
  constructor
  · intro hno
    have hfirst := hno (spec.range totalSize).start
    omega
  · intro heq i hi
    omega

end RangeSpec

/-- **What is made of one part**: the range that it asks for, if the block has it, and a panic at
the largest number. -/
theorem readPart_eq (totalSize : ℕ) (part : List Char) :
    readPart totalSize part =
      match RangeSpec.ofPart part with
      | none => .ok none
      | some spec =>
        if spec.Overflows then .error (.panic "attempt to add with overflow")
        else if spec.Satisfiable totalSize then .ok (some (spec.range totalSize))
        else .ok none := by
  rw [readPart, RangeSpec.ofPart]
  cases splitOnce '-' (trim part) with
  | none => rfl
  | some bounds =>
    obtain ⟨startStr, endStr⟩ := bounds
    simp only [Option.bind_eq_bind, Option.bind_some]
    by_cases hstart : startStr = []
    · -- a suffix is pushed without a look at the size of the block
      rw [if_pos hstart, if_pos hstart]
      cases parseUsize endStr with
      | none => rfl
      | some suffixLen => rfl
    · rw [if_neg hstart, if_neg hstart]
      cases hfirst : parseUsize startStr with
      | none =>
        by_cases hend : endStr = []
        · rw [if_pos hend]; rfl
        · rw [if_neg hend]; rfl
      | some first =>
        by_cases hend : endStr = []
        · -- to the end of the block
          simp only [if_pos hend, Option.map_eq_map, Option.map_some, Except.ok_bind]
          rw [if_neg (show ¬ (RangeSpec.from first).Overflows from id)]
          refine if_congr ?_ rfl rfl
          show first < totalSize ∧ first < totalSize ∧ totalSize ≤ totalSize ↔ first < totalSize
          omega
        · simp only [if_neg hend, Option.bind_some]
          cases hlast : parseUsize endStr with
          | none => rfl
          | some last =>
            have hlt := parseUsize_lt hlast
            -- the end is exclusive, and one is added before it is compared
            show _ = if last + 1 = 2 ^ 64 then _ else if first ≤ last ∧ last < totalSize then
              Except.ok (some (⟨first, last + 1⟩ : IndexRange)) else _
            by_cases hover : last + 1 = 2 ^ 64
            · have hadd : addU64 last 1 = .error (.panic "attempt to add with overflow") :=
                if_neg (by omega)
              rw [if_pos hover]
              simp only [hadd]
              rfl
            · have hadd : addU64 last 1 = .ok (last + 1) := if_pos (by omega)
              rw [if_neg hover]
              simp only [hadd]
              refine if_congr ?_ rfl rfl
              omega

/-! ### The parts of a header -/

section Parts

variable {totalSize : ℕ} {part : List Char} {parts : List (List Char)}
  {ranges rs : List IndexRange}

/-- A part of one of the three forms, with bytes that the block has. -/
def Accepted (totalSize : ℕ) (part : List Char) : Prop :=
  ∃ spec, RangeSpec.ofPart part = some spec ∧ spec.Satisfiable totalSize

/-- A part whose last byte is the largest number there is. -/
def Overflows (part : List Char) : Prop :=
  ∃ spec, RangeSpec.ofPart part = some spec ∧ spec.Overflows

theorem readPart_of_overflows (totalSize : ℕ) (h : Overflows part) :
    readPart totalSize part = .error (.panic "attempt to add with overflow") := by
  obtain ⟨spec, hspec, hover⟩ := h
  rw [readPart_eq, hspec]
  exact if_pos hover

theorem readPart_of_not_accepted (hover : ¬ Overflows part) (h : ¬ Accepted totalSize part) :
    readPart totalSize part = .ok none := by
  rw [readPart_eq]
  cases hspec : RangeSpec.ofPart part with
  | none => rfl
  | some spec =>
    have hnot : ¬ spec.Satisfiable totalSize := fun hsat => h ⟨spec, hspec, hsat⟩
    exact (if_neg fun h => hover ⟨spec, hspec, h⟩).trans (if_neg hnot)

theorem readPart_of_accepted {spec : RangeSpec} (hspec : RangeSpec.ofPart part = some spec)
    (hover : ¬ spec.Overflows) (hsat : spec.Satisfiable totalSize) :
    readPart totalSize part = .ok (some (spec.range totalSize)) := by
  rw [readPart_eq, hspec]
  exact (if_neg hover).trans (if_pos hsat)

/-- **The loop panics** at the first part that overflows, unless it has returned before. -/
theorem readParts_ok_iff :
    (∃ res, readParts totalSize parts ranges = .ok res) ↔
      ¬ ∃ pre part post, parts = pre ++ part :: post ∧ Overflows part ∧
        ∀ q ∈ pre, Accepted totalSize q := by
  induction parts generalizing ranges with
  | nil =>
    refine iff_of_true ⟨_, rfl⟩ ?_
    rintro ⟨pre, part, post, h, -⟩
    exact absurd h (by simp)
  | cons p parts ih =>
    rw [readParts, Except.exists_first_cons_iff]
    by_cases hover : Overflows p
    · rw [readPart_of_overflows totalSize hover]
      refine iff_of_false ?_ (not_not.mpr (.inl hover))
      rintro ⟨res, hres⟩
      cases hres
    rw [or_iff_right hover]
    by_cases hacc : Accepted totalSize p
    · obtain ⟨spec, hspec, hsat⟩ := id hacc
      rw [readPart_of_accepted hspec (fun h => hover ⟨spec, hspec, h⟩) hsat, Except.ok_bind, ih,
        and_iff_right hacc]
    · rw [readPart_of_not_accepted hover hacc]
      exact iff_of_true ⟨_, rfl⟩ fun h => hacc h.1

/-- **The loop pushes** the range of every part. -/
theorem readParts_eq_some (h : readParts totalSize parts ranges = .ok (some rs)) :
    ∃ specs : List RangeSpec, parts.map RangeSpec.ofPart = specs.map some ∧
      (∀ spec ∈ specs, spec.Satisfiable totalSize) ∧
      rs = ranges ++ specs.map (RangeSpec.range totalSize) := by
  induction parts generalizing ranges with
  | nil =>
    obtain rfl := Option.some.inj (Except.ok.inj h)
    exact ⟨[], rfl, by simp, by simp⟩
  | cons p parts ih =>
    rw [readParts] at h
    by_cases hover : Overflows p
    · rw [readPart_of_overflows totalSize hover] at h
      cases h
    by_cases hacc : Accepted totalSize p
    · obtain ⟨spec, hspec, hsat⟩ := hacc
      rw [readPart_of_accepted hspec (fun h => hover ⟨spec, hspec, h⟩) hsat, Except.ok_bind] at h
      obtain ⟨specs, hspecs, hall, rfl⟩ := ih h
      refine ⟨spec :: specs, ?_, List.forall_mem_cons.mpr ⟨hsat, hall⟩, by simp⟩
      rw [List.map_cons, List.map_cons, hspec, hspecs]
    · rw [readPart_of_not_accepted hover hacc] at h
      cases h

theorem readParts_ne_none (hall : ∀ part ∈ parts, Accepted totalSize part) :
    readParts totalSize parts ranges ≠ .ok none := by
  induction parts generalizing ranges with
  | nil => exact fun h => by cases h
  | cons p parts ih =>
    obtain ⟨⟨spec, hspec, hsat⟩, hrest⟩ := List.forall_mem_cons.mp hall
    rw [readParts]
    by_cases hover : Overflows p
    · rw [readPart_of_overflows totalSize hover]
      exact fun h => by cases h
    · rw [readPart_of_accepted hspec (fun h => hover ⟨spec, hspec, h⟩) hsat, Except.ok_bind]
      exact ih hrest

end Parts

/-! ### Headers -/

section Headers

variable {header : String} {totalSize i : ℕ} {parts : List (List Char)} {specs : List RangeSpec}

/-- The parts of a header between commas. -/
def partsOf (header : String) : List (List Char) := (rangeParts header).getD []

/-- Some part asks for byte `i`. -/
def Asked (totalSize : ℕ) (parts : List (List Char)) (i : ℕ) : Prop :=
  ∃ part ∈ parts, ∃ spec, RangeSpec.ofPart part = some spec ∧ i ∈ spec.positions totalSize

/-- What reading a header promises. -/
structure ParsesRight (header : String) (totalSize : ℕ) : Prop where
  ends : ∃ res, parseMultiRange header totalSize = .ok res
  ranges : ∀ rs, parseMultiRange header totalSize = .ok (some rs) → rs ≠ [] ∧
    (∀ r ∈ rs, r.start < r.stop ∧ r.stop ≤ totalSize) ∧
    rs.Pairwise (fun I J => I.stop < J.start) ∧
    ∀ i, (∃ r ∈ rs, i ∈ r) ↔ Asked totalSize (partsOf header) i

theorem exists_ofPart_iff (hspecs : parts.map RangeSpec.ofPart = specs.map some)
    {P : RangeSpec → Prop} :
    (∃ part ∈ parts, ∃ spec, RangeSpec.ofPart part = some spec ∧ P spec) ↔
      ∃ spec ∈ specs, P spec := by
  have hmem : ∀ spec, (∃ part ∈ parts, RangeSpec.ofPart part = some spec) ↔ spec ∈ specs := by
    intro spec
    rw [← List.mem_map (f := RangeSpec.ofPart), hspecs,
      List.mem_map_of_injective (Option.some_injective _)]
  constructor
  · rintro ⟨part, hpart, spec, hspec, hP⟩
    exact ⟨spec, (hmem spec).mp ⟨part, hpart, hspec⟩, hP⟩
  · rintro ⟨spec, hspec, hP⟩
    obtain ⟨part, hpart, heq⟩ := (hmem spec).mpr hspec
    exact ⟨part, hpart, spec, heq, hP⟩

section Pushed

variable (hspecs : parts.map RangeSpec.ofPart = specs.map some)
  (hall : ∀ spec ∈ specs, spec.Satisfiable totalSize)

include hspecs in
theorem asked_iff (i : ℕ) :
    Asked totalSize parts i ↔ ∃ I ∈ specs.map (RangeSpec.range totalSize), i ∈ I := by
  rw [Asked, exists_ofPart_iff hspecs]
  simp only [List.mem_map, exists_exists_and_eq_and, RangeSpec.mem_range_iff]

include hall in
/-- A range that is pushed is in the block, and at its end if it is empty. -/
theorem bounds_of_pushed : ∀ I ∈ specs.map (RangeSpec.range totalSize),
    I.start ≤ I.stop ∧ I.stop ≤ totalSize ∧ (I.start = I.stop → I.start = totalSize) := by
  intro I hI
  obtain ⟨spec, hspec, rfl⟩ := List.mem_map.mp hI
  obtain ⟨hle, hstop⟩ := (hall spec hspec).range_le
  exact ⟨hle, hstop, (hall spec hspec).start_eq⟩

include hspecs hall in
theorem exists_empty_pushed_iff :
    (∃ I ∈ specs.map (RangeSpec.range totalSize), I.start = I.stop) ↔
      ∃ part ∈ parts, ∃ spec, RangeSpec.ofPart part = some spec ∧
        spec.positions totalSize = ∅ := by
  rw [exists_ofPart_iff hspecs]
  simp only [List.mem_map, exists_exists_and_eq_and]
  exact exists_congr fun spec => and_congr_right fun hspec =>
    (hall spec hspec).positions_eq_empty_iff.symm

include hspecs hall in
/-- The last byte is asked for when a range that reaches the end is not empty. -/
theorem not_asked_last_iff : (¬ ∃ i, i + 1 = totalSize ∧ Asked totalSize parts i) ↔
    ∀ I ∈ specs.map (RangeSpec.range totalSize), I.stop = totalSize → I.start = totalSize := by
  simp only [asked_iff hspecs]
  constructor
  · intro hno I hI hstop
    by_contra hne
    have hstart := (bounds_of_pushed hall I hI).1
    exact hno ⟨totalSize - 1, by omega, I, hI, by omega, by omega⟩
  · rintro hreach ⟨i, hi, I, hI, hlow, hhigh⟩
    have hle := (bounds_of_pushed hall I hI).2.1
    have hstart := hreach I hI (by omega)
    omega

include hspecs hall in
theorem mergeRanges_specs :
    (∀ i, (∃ r ∈ mergeRanges (specs.map (RangeSpec.range totalSize)), i ∈ r) ↔
      Asked totalSize parts i) ∧
    ((∃ r ∈ mergeRanges (specs.map (RangeSpec.range totalSize)), r.stop ≤ r.start) ↔
      (∃ part ∈ parts, ∃ spec, RangeSpec.ofPart part = some spec ∧ spec.positions totalSize = ∅) ∧
        ¬ ∃ i, i + 1 = totalSize ∧ Asked totalSize parts i) ∧
    ∀ r ∈ mergeRanges (specs.map (RangeSpec.range totalSize)), r.stop ≤ totalSize := by
  have hmerge := isMerge_mergeRanges (specs.map (RangeSpec.range totalSize))
  have hbounds := bounds_of_pushed hall
  refine ⟨fun i => (hmerge.mem_iff i).trans (asked_iff hspecs i).symm, ?_, fun r hr => ?_⟩
  · rw [← exists_empty_pushed_iff hspecs hall, not_asked_last_iff hspecs hall]
    exact hmerge.exists_empty_iff (fun I hI => (hbounds I hI).1) (fun I hI => (hbounds I hI).2.1)
      fun I hI => (hbounds I hI).2.2
  · obtain ⟨I, hI, hstop⟩ := hmerge.stop_mem r hr
    rw [← hstop]
    exact (hbounds I hI).2.1

end Pushed

theorem parseMultiRange_eq (header : String) (totalSize : ℕ) :
    parseMultiRange header totalSize = (do
      match ← readParts totalSize (partsOf header) [] with
      | none => .ok none
      | some ranges => if ranges.isEmpty then .ok none else .ok (some (mergeRanges ranges))) := by
  rw [parseMultiRange, partsOf]
  cases rangeParts header with
  | none => rfl
  | some parts => rfl

theorem parseMultiRange_ok_iff : (∃ res, parseMultiRange header totalSize = .ok res) ↔
    ∃ res, readParts totalSize (partsOf header) [] = .ok res := by
  rw [parseMultiRange_eq]
  cases readParts totalSize (partsOf header) [] with
  | error e => exact iff_of_false (by rintro ⟨res, h⟩; cases h) (by rintro ⟨res, h⟩; cases h)
  | ok res =>
    refine iff_of_true ?_ ⟨_, rfl⟩
    cases res with
    | none => exact ⟨_, rfl⟩
    | some ranges =>
      by_cases h : ranges.isEmpty
      · exact ⟨_, if_pos h⟩
      · exact ⟨_, if_neg h⟩

theorem parseMultiRange_eq_some_iff {rs : List IndexRange} :
    parseMultiRange header totalSize = .ok (some rs) ↔
      ∃ ranges, readParts totalSize (partsOf header) [] = .ok (some ranges) ∧ ranges ≠ [] ∧
        mergeRanges ranges = rs := by
  rw [parseMultiRange_eq, Except.bind_eq_ok_iff]
  constructor
  · rintro ⟨res, hread, h⟩
    cases res with
    | none => cases h
    | some ranges =>
      dsimp only at h
      split at h
      · cases h
      · next hempty =>
        refine ⟨ranges, hread, ?_, Option.some.inj (Except.ok.inj h)⟩
        rintro rfl
        exact hempty rfl
  · rintro ⟨ranges, hread, hne, rfl⟩
    refine ⟨some ranges, hread, if_neg ?_⟩
    rwa [List.isEmpty_iff]

/-- **The ranges of a header are those that it asks for**, unless a part with the largest number is
reached, or a part asks for nothing and none for the last byte. -/
theorem parsesRight_iff (header : String) (totalSize : ℕ) :
    ParsesRight header totalSize ↔
      (∀ pre part post, partsOf header = pre ++ part :: post → Overflows part →
        ∃ q ∈ pre, ¬ Accepted totalSize q) ∧
      ((∀ part ∈ partsOf header, Accepted totalSize part) →
        (∃ part ∈ partsOf header, ∃ spec, RangeSpec.ofPart part = some spec ∧
          spec.positions totalSize = ∅) →
        ∃ i, i + 1 = totalSize ∧ Asked totalSize (partsOf header) i) := by
  have hends : (∀ pre part post, partsOf header = pre ++ part :: post → Overflows part →
      ∃ q ∈ pre, ¬ Accepted totalSize q) ↔ ∃ res, parseMultiRange header totalSize = .ok res := by
    rw [parseMultiRange_ok_iff, readParts_ok_iff]
    push Not
    rfl
  rw [hends]
  constructor
  · intro h
    refine ⟨h.ends, fun hall hnothing => ?_⟩
    -- every part is pushed, so the merged ranges have no empty one
    obtain ⟨res, hread⟩ := parseMultiRange_ok_iff.mp h.ends
    cases res with
    | none => exact absurd hread (readParts_ne_none hall)
    | some ranges =>
      obtain ⟨specs, hspecs, hsat, rfl⟩ := readParts_eq_some hread
      obtain ⟨-, hempty, -⟩ := mergeRanges_specs hspecs hsat
      have hne : ([] ++ specs.map (RangeSpec.range totalSize) : List IndexRange) ≠ [] := by
        rintro hnil
        obtain ⟨part, hpart, -⟩ := hnothing
        have hmem := List.mem_map_of_mem (f := RangeSpec.ofPart) hpart
        rw [hspecs, List.map_eq_nil_iff.mp hnil] at hmem
        exact List.not_mem_nil hmem
      obtain ⟨-, hbounds, -⟩ := h.ranges _ (parseMultiRange_eq_some_iff.mpr ⟨_, hread, hne, rfl⟩)
      by_contra hlast
      obtain ⟨r, hr, hle⟩ := hempty.mpr ⟨hnothing, hlast⟩
      exact absurd (hbounds r hr).1 (not_lt.mpr hle)
  · rintro ⟨hends, hlast⟩
    refine ⟨hends, fun rs hrs => ?_⟩
    obtain ⟨ranges, hread, hne, rfl⟩ := parseMultiRange_eq_some_iff.mp hrs
    have hmerge := isMerge_mergeRanges ranges
    obtain ⟨specs, hspecs, hsat, rfl⟩ := readParts_eq_some hread
    obtain ⟨hasked, hempty, hstop⟩ := mergeRanges_specs hspecs hsat
    have hall : ∀ part ∈ partsOf header, Accepted totalSize part := by
      intro part hpart
      have hmem := List.mem_map_of_mem (f := RangeSpec.ofPart) hpart
      rw [hspecs] at hmem
      obtain ⟨spec, hspec, heq⟩ := List.mem_map.mp hmem
      exact ⟨spec, heq.symm, hsat spec hspec⟩
    -- that no range is empty is what the last condition is for
    refine ⟨?_, fun r hr => ⟨?_, hstop r hr⟩, hmerge.separated, hasked⟩
    · obtain ⟨range, hrange⟩ := List.exists_mem_of_ne_nil _ hne
      obtain ⟨J, hJ, -⟩ := hmerge.covers range hrange
      exact List.ne_nil_of_mem hJ
    · by_contra hle
      obtain ⟨hnothing, hno⟩ := hempty.mp ⟨r, hr, not_lt.mp hle⟩
      exact hno (hlast hall hnothing)

end Headers

/-! ### Responses -/

/-- The largest number, the last no bytes of a block, and the last bytes of an empty one. -/
theorem not_parsesRight :
    parseMultiRange "bytes=0-18446744073709551615" 10
      = .error (.panic "attempt to add with overflow") ∧
    parseMultiRange "bytes=-0" 10 = .ok (some [⟨10, 10⟩]) ∧
    parseMultiRange "bytes=-5" 0 = .ok (some [⟨0, 0⟩]) ∧
    contentPart [] ⟨0, 0⟩ = .error (.panic "attempt to subtract with overflow") ∧
    ¬ ParsesRight "bytes=-0" 10 := by
  have hzero : parseMultiRange "bytes=-0" 10 = .ok (some [⟨10, 10⟩]) := by decide +kernel
  refine ⟨by decide +kernel, hzero, by decide +kernel, by decide +kernel, fun h => ?_⟩
  obtain ⟨-, hbounds, -⟩ := h.ranges _ hzero
  exact absurd (hbounds ⟨10, 10⟩ List.mem_cons_self).1 (lt_irrefl _)

end Ipfrs.Interface
