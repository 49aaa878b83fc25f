import Mathlib.Data.List.TakeDrop

/-!
# Repetitions in a list

What dictionary coders look for in a list, and how it is put back: runs of one element
(`runLength`), and segments that have been met before (`matchLength`, `copyBack`).

* `take_runLength` — a run is replicated;
* `copyBack_take` — **copying from behind**: if what follows the first `pos` elements repeats what
  lies `offset` before it, cyclically, then copying it extends the prefix;
* `foldl_best` — the best of several candidates is one of them.
-/

namespace Repeats

variable {α : Type*} [DecidableEq α]

/-! ### Runs -/

/-- The length of the run of `a` at the start of a list, `bound` at most. -/
def runLength (a : α) : ℕ → List α → ℕ
  | 0, _ => 0
  | _ + 1, [] => 0
  | bound + 1, b :: bs => if b = a then runLength a bound bs + 1 else 0

theorem runLength_le_bound (a : α) (bound : ℕ) (bs : List α) : runLength a bound bs ≤ bound := by
  induction bound generalizing bs with
  | zero => exact Nat.le_refl _
  | succ bound ih =>
    cases bs with
    | nil => exact Nat.zero_le _
    | cons b bs =>
      rw [runLength]
      split
      · exact Nat.succ_le_succ (ih bs)
      · exact Nat.zero_le _

theorem take_runLength (a : α) (bound : ℕ) (bs : List α) :
    bs.take (runLength a bound bs) = List.replicate (runLength a bound bs) a := by
  induction bound generalizing bs with
  | zero => exact List.take_zero
  | succ bound ih =>
    cases bs with
    | nil => exact List.take_zero
    | cons b bs =>
      rw [runLength]
      split
      · next hb => rw [List.take_succ_cons, List.replicate_succ, ih, hb]
      · exact List.take_zero

theorem replicate_runLength_append (a : α) (bound : ℕ) (bs : List α) :
    List.replicate (runLength a bound bs) a ++ bs.drop (runLength a bound bs) = bs := by
  rw [← take_runLength, List.take_append_drop]

/-! ### Matches -/

/-- The number of elements in which two lists agree from their start, `bound` at most. -/
def matchLength : ℕ → List α → List α → ℕ
  | bound + 1, a :: as, b :: bs => if a = b then matchLength bound as bs + 1 else 0
  | _, _, _ => 0

theorem matchLength_le_bound (bound : ℕ) (as bs : List α) : matchLength bound as bs ≤ bound := by
  induction bound, as, bs using matchLength.induct with
  | case1 bound as b bs ih =>
    rw [matchLength, if_pos rfl]
    exact Nat.succ_le_succ ih
  | case2 bound a as b bs hne =>
    rw [matchLength, if_neg hne]
    exact Nat.zero_le _
  | case3 bound as bs hcases =>
    rw [matchLength]
    · exact Nat.zero_le _
    · exact hcases

theorem getElem?_of_lt_matchLength {bound : ℕ} {as bs : List α} {k : ℕ}
    (h : k < matchLength bound as bs) : as[k]? = bs[k]? := by
  induction bound, as, bs using matchLength.induct generalizing k with
  | case1 bound as b bs ih =>
    rw [matchLength, if_pos rfl] at h
    cases k with
    | zero => rfl
    | succ k => exact ih (Nat.lt_of_succ_lt_succ h)
  | case2 bound a as b bs hne =>
    rw [matchLength, if_neg hne] at h
    exact absurd h (Nat.not_lt_zero k)
  | case3 bound as bs hcases =>
    rw [matchLength] at h
    · exact absurd h (Nat.not_lt_zero k)
    · exact hcases

omit [DecidableEq α] in
/-- The best of the candidates is one of them, unless it is what the search starts with. -/
theorem foldl_best {β : Type*} (value : β → α) (better : α → α → Prop) [DecidableRel better]
    (candidates : List β) (start : α) :
    candidates.foldl (fun best c => if better (value c) best then value c else best) start =
        start ∨
      ∃ c ∈ candidates,
        candidates.foldl (fun best c => if better (value c) best then value c else best) start =
          value c := by
  induction candidates generalizing start with
  | nil => exact .inl rfl
  | cons c candidates ih =>
    rw [List.foldl_cons]
    obtain h | ⟨c', hc', h⟩ := ih (if better (value c) start then value c else start)
    · rw [h]
      split
      · exact .inr ⟨c, List.mem_cons_self, rfl⟩
      · exact .inl rfl
    · exact .inr ⟨c', List.mem_cons_of_mem c hc', h⟩

/-! ### Copying from behind -/

/-- `length` elements are appended, from `offset` before the end on, and over again from there. -/
def copyBack (default : α) (out : List α) (offset length : ℕ) : List α :=
  (List.range length).foldl
    (fun out' j => out' ++ [out'.getD (out.length - offset + j % offset) default]) out

omit [DecidableEq α] in
theorem copyBack_succ (default : α) (out : List α) (offset length : ℕ) :
    copyBack default out offset (length + 1) =
      copyBack default out offset length ++
        [(copyBack default out offset length).getD (out.length - offset + length % offset)
          default] := by
  rw [copyBack, List.range_succ, List.foldl_append]
  rfl

omit [DecidableEq α] in
/-- **Copying a match extends the prefix that it is copied from.** -/
theorem copyBack_take {default : α} {input : List α} {pos offset length : ℕ}
    (hoffset : 0 < offset) (hpos : offset ≤ pos) (hlength : pos + length ≤ input.length)
    (hmatch : ∀ k < length, input[pos - offset + k % offset]? = input[pos + k]?) :
    copyBack default (input.take pos) offset length = input.take (pos + length) := by
  have hout : (input.take pos).length = pos := by
    rw [List.length_take]
    omega
  induction length with
  | zero => rfl
  | succ length ih =>
    have hlt : pos + length < input.length := by omega
    have hmod : length % offset < offset := Nat.mod_lt _ hoffset
    -- the element that is copied lies in the prefix
    have hbehind : pos - offset + length % offset < pos + length := by omega
    rw [copyBack_succ, ih (by omega) fun k hk => hmatch k (by omega), hout,
      List.getD_eq_getElem?_getD, List.getElem?_take_of_lt hbehind,
      hmatch length (Nat.lt_succ_self _), List.getElem?_eq_getElem hlt, Option.getD_some,
      ← Nat.add_assoc]
    exact List.take_append_getElem hlt

end Repeats
