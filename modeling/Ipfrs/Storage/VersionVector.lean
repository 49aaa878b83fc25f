import Ipfrs.Lib.Counters
import Ipfrs.Core.BlockCache

/-!
# Version vectors

`VersionVector` (`ipfrs-storage/src/eventual_consistency.rs`), and what its comparisons and its
merge are.

A vector is a finite map from node identifiers to version numbers, and `get` reads a missing node
as 0. The purpose of a vector is the function `get` alone, under the pointwise order of
`UInt64 → ℕ`: `happensBefore` is the strict order (`happensBefore_iff_lt`), `isConcurrent` is
incomparability (`isConcurrent_iff`) and `merge` is the supremum (`get_merge_eq_sup`).

`isConcurrent` compares the maps and not the functions, so a node with the version 0 would set two
vectors apart that are equal as functions. `increment` and `merge` never make such an entry
(`Built.noZeros`).
-/

namespace Ipfrs

structure VersionVector where
  versions : AList fun _ : UInt64 => ℕ

namespace VersionVector

def new : VersionVector := ⟨∅⟩

def get (v : VersionVector) (nodeId : UInt64) : ℕ := (v.versions.lookup nodeId).getD 0

def increment (v : VersionVector) (nodeId : UInt64) : Except Fault VersionVector := do
  let version ← addU64 ((v.versions.lookup nodeId).getD 0) 1
  return ⟨v.versions.insert nodeId version⟩

/-- The loop over the entries of `self` in `happens_before`; `none` is its early return. -/
def happensBeforeLoop (other : VersionVector) :
    List (Sigma fun _ : UInt64 => ℕ) → Bool → Option Bool
  | [], strictlyLess => some strictlyLess
  | ⟨nodeId, version⟩ :: es, strictlyLess =>
    if version > other.get nodeId then none
    else happensBeforeLoop other es (if version < other.get nodeId then true else strictlyLess)

/-- The loop over the entries of `other` in `happens_before`. -/
def missingLoop (self : VersionVector) : List (Sigma fun _ : UInt64 => ℕ) → Bool → Bool
  | [], strictlyLess => strictlyLess
  | ⟨nodeId, version⟩ :: es, strictlyLess =>
    missingLoop self es
      (if (self.versions.lookup nodeId).isNone ∧ version > 0 then true else strictlyLess)

def happensBefore (self other : VersionVector) : Bool :=
  match happensBeforeLoop other self.versions.entries false with
  | none => false
  | some strictlyLess => missingLoop self other.versions.entries strictlyLess

/-- `==` of two vectors, which is `==` of two `HashMap`s: as many entries, and every entry of the
one found in the other. -/
def eq (self other : VersionVector) : Bool :=
  self.versions.entries.length == other.versions.entries.length &&
    self.versions.entries.all fun e => other.versions.lookup e.1 == some e.2

def isConcurrent (self other : VersionVector) : Bool :=
  !self.happensBefore other && !other.happensBefore self && !self.eq other

/-- The body of the loop in `merge`. -/
def mergeEntry (v : VersionVector) (e : Sigma fun _ : UInt64 => ℕ) : VersionVector :=
  ⟨v.versions.insert e.1 (max ((v.versions.lookup e.1).getD 0) e.2)⟩

def merge (self other : VersionVector) : VersionVector :=
  other.versions.entries.foldl mergeEntry self

/-! ### Reading a vector -/

variable {a b c v v' : VersionVector} {n : UInt64} {es : List (Sigma fun _ : UInt64 => ℕ)}
  {s t : Bool}

theorem get_eq_count (v : VersionVector) : v.get = Counters.count v.versions := rfl

/-! ### The strict order -/

theorem happensBeforeLoop_eq_some :
    happensBeforeLoop b es s = some t ↔ (∀ e ∈ es, e.2 ≤ b.get e.1) ∧
      (t = true ↔ s = true ∨ ∃ e ∈ es, e.2 < b.get e.1) := by
  induction es generalizing s with
  | nil => cases s <;> cases t <;> simp [happensBeforeLoop]
  | cons e es ih =>
    obtain ⟨nodeId, version⟩ := e
    rw [happensBeforeLoop]
    by_cases hgt : version > b.get nodeId
    · -- the early return
      rw [if_pos hgt]
      refine ⟨fun h => absurd h (by simp), fun h => ?_⟩
      exact absurd (h.1 _ List.mem_cons_self) (Nat.not_le_of_gt hgt)
    · rw [if_neg hgt, ih, List.forall_mem_cons]
      have hle : version ≤ b.get nodeId := Nat.le_of_not_gt hgt
      by_cases hlt : version < b.get nodeId
      · simp [hlt, hle]
      · simp [hlt, hle]

theorem happensBeforeLoop_eq_none :
    happensBeforeLoop b es s = none ↔ ∃ e ∈ es, b.get e.1 < e.2 := by
  induction es generalizing s with
  | nil => simp [happensBeforeLoop]
  | cons e es ih =>
    obtain ⟨nodeId, version⟩ := e
    rw [happensBeforeLoop, List.exists_mem_cons_iff]
    by_cases hgt : version > b.get nodeId
    · simp [hgt]
    · rw [if_neg hgt, ih]
      simp [hgt]

theorem missingLoop_eq_true :
    missingLoop a es s = true ↔
      s = true ∨ ∃ e ∈ es, a.versions.lookup e.1 = none ∧ 0 < e.2 := by
  induction es generalizing s with
  | nil => simp [missingLoop]
  | cons e es ih =>
    obtain ⟨nodeId, version⟩ := e
    rw [missingLoop, ih, List.exists_mem_cons_iff]
    by_cases hmissing : (a.versions.lookup nodeId).isNone ∧ version > 0
    · rw [if_pos hmissing]
      have hnone := Option.isNone_iff_eq_none.mp hmissing.1
      simp [hnone, hmissing.2]
    · rw [if_neg hmissing]
      rw [Option.isNone_iff_eq_none] at hmissing
      simp [hmissing]

/-- **`happens_before` is the strict pointwise order**, whatever entries the vectors have. -/
theorem happensBefore_iff_lt : happensBefore a b = true ↔ a.get < b.get := by
  rw [get_eq_count, get_eq_count, Counters.count_lt_count_iff, happensBefore]
  cases hloop : happensBeforeLoop b a.versions.entries false with
  | none =>
    obtain ⟨e, he, hlt⟩ := happensBeforeLoop_eq_none.mp hloop
    refine ⟨fun h => absurd h (by simp), fun h => ?_⟩
    exact absurd (h.1 e he) (Nat.not_le_of_gt hlt)
  | some strictlyLess =>
    obtain ⟨hle, hstrict⟩ := happensBeforeLoop_eq_some.mp hloop
    rw [Bool.false_eq_true, false_or] at hstrict
    change missingLoop a b.versions.entries strictlyLess = true ↔ _
    rw [missingLoop_eq_true, hstrict]
    exact ⟨fun h => ⟨hle, h⟩, fun h => h.2⟩

theorem happensBefore_eq_false : happensBefore a b = false ↔ ¬ a.get < b.get := by
  rw [← happensBefore_iff_lt, Bool.not_eq_true]

/-! ### The supremum -/

theorem versions_foldl_mergeEntry (es : List (Sigma fun _ : UInt64 => ℕ)) (v : VersionVector) :
    (es.foldl mergeEntry v).versions = es.foldl Counters.raise v.versions := by
  induction es generalizing v with
  | nil => rfl
  | cons e es ih =>
    rw [List.foldl_cons, List.foldl_cons, ih]
    rfl

theorem versions_merge (a b : VersionVector) :
    (a.merge b).versions = Counters.join a.versions b.versions :=
  versions_foldl_mergeEntry b.versions.entries a

/-- **`merge` takes the maximum at every node.** -/
theorem get_merge_eq_sup (a b : VersionVector) : (a.merge b).get = a.get ⊔ b.get := by
  rw [get_eq_count, versions_merge, Counters.count_join]
  rfl

theorem isLUB_merge (a b : VersionVector) : IsLUB {a.get, b.get} (a.merge b).get := by
  rw [get_merge_eq_sup]
  exact isLUB_pair

theorem merge_comm (a b : VersionVector) : (a.merge b).get = (b.merge a).get := by
  rw [get_merge_eq_sup, get_merge_eq_sup, sup_comm]

theorem merge_assoc (a b c : VersionVector) :
    ((a.merge b).merge c).get = (a.merge (b.merge c)).get := by
  rw [get_merge_eq_sup, get_merge_eq_sup, get_merge_eq_sup, get_merge_eq_sup, sup_assoc]

theorem merge_idem (a : VersionVector) : (a.merge a).get = a.get := by
  rw [get_merge_eq_sup, sup_idem]

/-! ### Vectors without zeros -/

/-- No node has the version 0. -/
def NoZeros (v : VersionVector) : Prop := ∀ e ∈ v.versions.entries, 0 < e.2

/-- Vectors without zeros are equal as maps when they are equal as functions. -/
theorem eq_iff (ha : a.NoZeros) (hb : b.NoZeros) : a.eq b = true ↔ a.get = b.get :=
  Counters.NoZeros.sameEntries_iff ha hb

/-- **`is_concurrent` is incomparability**, on vectors without zeros. -/
theorem isConcurrent_iff (ha : a.NoZeros) (hb : b.NoZeros) :
    isConcurrent a b = true ↔ ¬ a.get ≤ b.get ∧ ¬ b.get ≤ a.get := by
  rw [isConcurrent, Bool.and_eq_true, Bool.and_eq_true, Bool.not_eq_true', Bool.not_eq_true',
    Bool.not_eq_true', happensBefore_eq_false, happensBefore_eq_false, ← Bool.not_eq_true,
    eq_iff ha hb]
  constructor
  · rintro ⟨⟨hab, hba⟩, hne⟩
    exact ⟨fun hle => hab (lt_of_le_of_ne hle hne),
      fun hle => hba (lt_of_le_of_ne hle (Ne.symm hne))⟩
  · rintro ⟨hab, hba⟩
    exact ⟨⟨fun hlt => hab hlt.le, fun hlt => hba hlt.le⟩, fun heq => hab heq.le⟩

/-! ### Built vectors -/

/-- The vectors that `new`, `increment` and `merge` build. -/
inductive Built : VersionVector → Prop
  | new : Built new
  | increment {v v' : VersionVector} {n : UInt64} (h : Built v) (hv : v.increment n = .ok v') :
      Built v'
  | merge {a b : VersionVector} (ha : Built a) (hb : Built b) : Built (a.merge b)

theorem increment_eq_ok (h : v.increment n = .ok v') :
    v' = ⟨v.versions.insert n (v.get n + 1)⟩ := by
  rw [increment, addU64] at h
  split at h
  · exact (Except.ok.inj h).symm
  · exact absurd h (by simp [Bind.bind, Except.bind])

theorem Built.noZeros (h : Built v) : v.NoZeros := by
  induction h with
  | new => exact fun e he => absurd he (List.not_mem_nil)
  | increment _ hv ih =>
    rw [increment_eq_ok hv]
    exact Counters.noZeros_insert ih (Nat.succ_pos _)
  | merge _ _ iha ihb =>
    rw [NoZeros, versions_merge]
    exact Counters.noZeros_foldl_raise ihb iha

theorem not_happensBefore_self (a : VersionVector) : ¬ a.happensBefore a = true := by
  rw [happensBefore_iff_lt]
  exact lt_irrefl _

theorem happensBefore_trans (hab : a.happensBefore b = true) (hbc : b.happensBefore c = true) :
    a.happensBefore c = true := by
  rw [happensBefore_iff_lt] at hab hbc ⊢
  exact hab.trans hbc

/-- **Version vectors order causality.** -/
theorem orders_causality :
    (∀ a b : {v // Built v}, a.1.happensBefore b.1 = true ↔
      (∀ n, a.1.get n ≤ b.1.get n) ∧ ∃ n, a.1.get n < b.1.get n) ∧
    IsStrictOrder {v // Built v} (fun a b => a.1.happensBefore b.1 = true) ∧
    (∀ a b : {v // Built v}, a.1.isConcurrent b.1 = true ↔
      ¬ (∀ n, a.1.get n ≤ b.1.get n) ∧ ¬ ∀ n, b.1.get n ≤ a.1.get n) ∧
    (∀ a b : {v // Built v}, Built (a.1.merge b.1) ∧
      IsLUB {a.1.get, b.1.get} (a.1.merge b.1).get) ∧
    (∀ a b : {v // Built v}, (a.1.merge b.1).get = (b.1.merge a.1).get) ∧
    (∀ a b c : {v // Built v},
      ((a.1.merge b.1).merge c.1).get = (a.1.merge (b.1.merge c.1)).get) ∧
    ∀ a : {v // Built v}, (a.1.merge a.1).get = a.1.get := by
  refine ⟨fun a b => ?_, ?_, fun a b => ?_, fun a b => ?_, fun a b => merge_comm a.1 b.1,
    fun a b c => merge_assoc a.1 b.1 c.1, fun a => merge_idem a.1⟩
  · rw [happensBefore_iff_lt, Pi.lt_def]
    rfl
  · exact
      { irrefl := fun a => not_happensBefore_self a.1
        trans := fun _ _ _ => happensBefore_trans }
  · exact isConcurrent_iff a.2.noZeros b.2.noZeros
  · exact ⟨Built.merge a.2 b.2, isLUB_merge a.1 b.1⟩

-- two writers that have not heard of each other, and the vector that has heard of both
example : let a : VersionVector := ⟨(∅ : AList fun _ : UInt64 => ℕ).insert 1 1⟩
    let b : VersionVector := ⟨(∅ : AList fun _ : UInt64 => ℕ).insert 2 1⟩
    a.isConcurrent b = true ∧ a.happensBefore (a.merge b) = true := by decide

end VersionVector

end Ipfrs
