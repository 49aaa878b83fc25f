import Ipfrs.Core.BlockCache
import Ipfrs.Core.Fnv
import Ipfrs.Lib.StableSort

/-!
# Aggregating gradients

`GradientAggregator` (`ipfrs-transport/src/graphsync.rs`): gradients are collected by layer, and the
bytes of a layer are aggregated position by position. What is computed with floating-point numbers
(the weighted average, and the median of `f32` gradients) is a parameter. The lock is left out.

* `foldlM_addBytes_ok`, `foldlM_addBytes_panics` — when an average is computed to its end;
* `aggregateMedian_eq`, `aggregateMedian_error` — the median of gradients of one length, and the
  error for other ones;
* `total_median`, `total_average_iff` — for which gradients of a layer the aggregation is total and
  does not depend on their order;
* `aggregatesTotally_iff_averageable` — the same for gradients that have been added.
-/

namespace Ipfrs.Transport

/-! ### Gradients -/

structure GradientMessage where
  id : String
  data : Bytes
  shape : List ℕ
  dtype : String
  checksum : UInt64
  metadata : List (String × String)
  deriving DecidableEq, Repr

namespace GradientMessage

def new (id : String) (data : Bytes) (shape : List ℕ) (dtype : String) : GradientMessage :=
  ⟨id, data, shape, dtype, fnv1a data, []⟩

def verify (g : GradientMessage) : Bool := fnv1a g.data == g.checksum

def numElements (g : GradientMessage) : Except Fault ℕ :=
  g.shape.foldlM (fun product dim => if product * dim < 2 ^ 64 then .ok (product * dim)
    else .error (.panic "attempt to multiply with overflow")) 1

end GradientMessage

inductive AggregationStrategy where
  | average
  | weightedAverage
  | median
  | federatedAvg
  deriving DecidableEq, Repr

/-- What is computed with floating-point numbers: `aggregate_weighted`, and the fast path of
`aggregate_median`. -/
class FloatAggregation where
  weighted : String → List GradientMessage → Except Fault GradientMessage
  medianF32 : String → List GradientMessage → Except Fault GradientMessage

/-! ### Average -/

/-- `u8::saturating_add`. -/
def saturatingAdd (a b : UInt8) : UInt8 := UInt8.ofNat (min (a.toNat + b.toNat) 255)

variable (n : UInt8)

/-- `sum[i] = sum[i].saturating_add(byte / n as u8)`. -/
def addByte (sum : Bytes) (entry : UInt8 × ℕ) : Except Fault Bytes :=
  match sum[entry.2]? with
  | none => .error (.panic "index out of bounds")
  | some old =>
    if n = 0 then .error (.panic "attempt to divide by zero")
    else .ok (sum.set entry.2 (saturatingAdd old (entry.1 / n)))

/-- The inner loop of `aggregate_average`. -/
def addBytes (sum data : Bytes) : Except Fault Bytes :=
  data.zipIdx.foldlM (addByte n) sum

def aggregateAverage (layerId : String) (gradients : List GradientMessage) :
    Except Fault GradientMessage :=
  match gradients with
  | [] => .error (.panic "index out of bounds")
  | first :: _ => do
    -- the number of gradients as a byte
    let n := UInt8.ofNat gradients.length
    let sum ← gradients.foldlM (fun sum grad => addBytes n sum grad.data)
      (List.replicate first.data.length 0)
    return .new layerId sum first.shape first.dtype

/-! ### Median -/

/-- `xs[i]`. -/
def indexByte (xs : Bytes) (i : ℕ) : Except Fault UInt8 :=
  match xs[i]? with
  | some x => .ok x
  | none => .error (.panic "index out of bounds")

/-- The median of a sorted column. -/
def medianOf (n : ℕ) (col : Bytes) : Except Fault UInt8 :=
  if n % 2 = 1 then indexByte col (n / 2)
  else do
    let below ← subU64 (n / 2) 1
    let lo ← indexByte col below
    let hi ← indexByte col (n / 2)
    return UInt8.ofNat ((lo.toNat + hi.toNat) / 2)

/-- One round of the byte-level loop of `aggregate_median`. -/
def medianAt (gradients : List GradientMessage) (bytePos : ℕ) : Except Fault UInt8 := do
  let col ← gradients.mapM fun g => indexByte g.data bytePos
  medianOf gradients.length (StableSort.sortBy UInt8.toNat col)

def aggregateMedian [FloatAggregation] (layerId : String) (gradients : List GradientMessage) :
    Except Fault GradientMessage :=
  match gradients with
  | [] => .error (.error (.invalidInput "median aggregation: no gradients supplied"))
  | first :: _ =>
    let size := first.data.length
    match gradients.zipIdx.find? fun entry => entry.1.data.length ≠ size with
    | some (g, i) => .error (.error (.invalidInput
        s!"median aggregation: gradient {i} has {g.data.length} bytes, expected {size}"))
    | none =>
      if first.dtype = "f32" ∨ first.dtype = "float32" then
        FloatAggregation.medianF32 layerId gradients
      else do
        let outData ← (List.range size).mapM (medianAt gradients)
        return .new layerId outData first.shape first.dtype

/-! ### The aggregator -/

structure GradientAggregator where
  strategy : AggregationStrategy
  gradients : AList fun _ : String => List GradientMessage
  expectedContributors : ℕ
  verifyChecksums : Bool

namespace GradientAggregator

def new (strategy : AggregationStrategy) (expectedContributors : ℕ) : GradientAggregator :=
  ⟨strategy, ∅, expectedContributors, true⟩

/-- The gradients of a layer. -/
def layer (a : GradientAggregator) (layerId : String) : List GradientMessage :=
  (a.gradients.lookup layerId).getD []

def addGradient (a : GradientAggregator) (gradient : GradientMessage) :
    Except Fault GradientAggregator :=
  if a.verifyChecksums && !gradient.verify then
    .error (.error (.invalidInput
      s!"Gradient checksum verification failed for {gradient.id}"))
  else do
    let elements ← gradient.numElements
    if elements = 0 then .error (.error (.invalidInput "Gradient has zero elements"))
    else
      return { a with
        gradients := a.gradients.insert gradient.id (a.layer gradient.id ++ [gradient]) }

/-- `aggregate`, once the gradients of the layer are found. -/
def aggregateLayer [FloatAggregation] (strategy : AggregationStrategy) (layerId : String)
    (layerGradients : List GradientMessage) : Except Fault GradientMessage :=
  match layerGradients with
  | [] => .error (.error (.invalidInput "No gradients to aggregate"))
  | first :: rest =>
    if rest.any fun grad => grad.shape ≠ first.shape then
      .error (.error (.invalidInput "Gradient shape mismatch"))
    else
      match strategy with
      | .average | .federatedAvg => aggregateAverage layerId layerGradients
      | .weightedAverage => FloatAggregation.weighted layerId layerGradients
      | .median => aggregateMedian layerId layerGradients

def aggregate [FloatAggregation] (a : GradientAggregator) (layerId : String) :
    Except Fault GradientMessage :=
  match a.gradients.lookup layerId with
  | none => .error (.error (.notFound s!"No gradients for layer: {layerId}"))
  | some layerGradients => aggregateLayer a.strategy layerId layerGradients

/-- Gradients that are added one after the other. -/
def addAll (a : GradientAggregator) (added : List GradientMessage) :
    Except Fault GradientAggregator :=
  added.foldlM addGradient a

end GradientAggregator

/-! ### Sums of bytes -/

theorem toNat_saturatingAdd (a b : UInt8) :
    (saturatingAdd a b).toNat = min (a.toNat + b.toNat) 255 := by
  rw [saturatingAdd, UInt8.toNat_ofNat_of_lt']
  show min (a.toNat + b.toNat) 255 < 256
  omega

theorem saturatingAdd_right_comm (s a b : UInt8) :
    saturatingAdd (saturatingAdd s a) b = saturatingAdd (saturatingAdd s b) a := by
  rw [← UInt8.toNat_inj, toNat_saturatingAdd, toNat_saturatingAdd, toNat_saturatingAdd,
    toNat_saturatingAdd]
  omega

/-- A share of each byte, added where it belongs. -/
def addShares (sum data : Bytes) : Bytes :=
  List.zipWith (fun old byte => saturatingAdd old (byte / n)) sum data

theorem addShares_right_comm (sum data data' : Bytes) :
    addShares n (addShares n sum data) data' = addShares n (addShares n sum data') data := by
  induction sum generalizing data data' with
  | nil => rfl
  | cons old sum ih =>
    cases data with
    | nil => cases data' <;> rfl
    | cons byte data =>
      cases data' with
      | nil => rfl
      | cons byte' data' =>
        have hhead := saturatingAdd_right_comm old (byte / n) (byte' / n)
        exact List.cons_eq_cons.mpr ⟨hhead, ih data data'⟩

variable {n : UInt8} {sum data pre rest : Bytes}

theorem addByte_append (hn : n ≠ 0) (pre : Bytes) (old byte : UInt8) (rest : Bytes) :
    addByte n (pre ++ old :: rest) (byte, pre.length)
      = .ok ((pre ++ [saturatingAdd old (byte / n)]) ++ rest) := by
  have hget : (pre ++ old :: rest)[pre.length]? = some old := by simp
  have hset : (pre ++ old :: rest).set pre.length (saturatingAdd old (byte / n))
      = (pre ++ [saturatingAdd old (byte / n)]) ++ rest := by simp
  rw [addByte, hget, ← hset]
  exact if_neg hn

theorem foldlM_addByte (hn : n ≠ 0) (hle : data.length ≤ rest.length) :
    (data.zipIdx pre.length).foldlM (addByte n) (pre ++ rest)
      = .ok (pre ++ (addShares n rest data ++ rest.drop data.length)) := by
  induction data generalizing pre rest with
  | nil => cases rest <;> rfl
  | cons byte data ih =>
    cases rest with
    | nil => exact absurd hle (by simp)
    | cons old rest =>
      have hrest := @ih (pre ++ [saturatingAdd old (byte / n)]) rest (Nat.le_of_succ_le_succ hle)
      rw [List.length_append, List.length_singleton] at hrest
      rw [List.zipIdx_cons, List.foldlM_cons, addByte_append hn, Except.ok_bind, hrest]
      simp [addShares]

theorem foldlM_addByte_panics (h : rest.length < data.length ∨ n = 0 ∧ data ≠ []) :
    ∃ msg, (data.zipIdx pre.length).foldlM (addByte n) (pre ++ rest) = .error (.panic msg) := by
  induction data generalizing pre rest with
  | nil => exact absurd h (by simp)
  | cons byte data ih =>
    rw [List.zipIdx_cons, List.foldlM_cons]
    cases rest with
    | nil =>
      have hget : (pre ++ [])[pre.length]? = none := by simp
      exact ⟨_, by rw [addByte, hget]; rfl⟩
    | cons old rest =>
      by_cases hn : n = 0
      · have hget : (pre ++ old :: rest)[pre.length]? = some old := by simp
        refine ⟨"attempt to divide by zero", ?_⟩
        rw [addByte, hget]
        dsimp only
        rw [if_pos hn]
        rfl
      · have hlong : rest.length < data.length := by
          obtain hlt | ⟨hzero, -⟩ := h
          · exact Nat.lt_of_succ_lt_succ hlt
          · exact absurd hzero hn
        obtain ⟨msg, hmsg⟩ := @ih (pre ++ [saturatingAdd old (byte / n)]) rest (.inl hlong)
        rw [List.length_append, List.length_singleton] at hmsg
        exact ⟨msg, by rw [addByte_append hn, Except.ok_bind, hmsg]⟩

/-- The data can be added: there is a place for every byte, and a byte only if it can be divided. -/
def Addable (n : UInt8) (size : ℕ) (data : Bytes) : Prop :=
  data.length ≤ size ∧ (n ≠ 0 ∨ data = [])

theorem addBytes_eq (h : Addable n sum.length data) :
    addBytes n sum data = .ok (addShares n sum data ++ sum.drop data.length) := by
  obtain ⟨hle, hn | rfl⟩ := h
  · exact @foldlM_addByte n data [] sum hn hle
  · cases sum <;> rfl

theorem addBytes_panics (h : ¬ Addable n sum.length data) :
    ∃ msg, addBytes n sum data = .error (.panic msg) := by
  refine @foldlM_addByte_panics n data [] sum ?_
  rw [Addable, not_and_or, not_le, not_or, not_not] at h
  exact h

theorem length_addBytes {sum' : Bytes} (h : addBytes n sum data = .ok sum') :
    sum'.length = sum.length := by
  by_cases hadd : Addable n sum.length data
  · rw [addBytes_eq hadd] at h
    obtain rfl := Except.ok.inj h
    have hle := hadd.1
    rw [addShares, List.length_append, List.length_zipWith, List.length_drop]
    omega
  · obtain ⟨msg, hmsg⟩ := addBytes_panics hadd
    rw [hmsg] at h
    cases h

variable {gradients gradients' : List GradientMessage}

/-- **The outer loop** ends when everything can be added, and panics otherwise. -/
theorem foldlM_addBytes_ok (h : ∀ g ∈ gradients, Addable n sum.length g.data) :
    ∃ sum', gradients.foldlM (fun sum grad => addBytes n sum grad.data) sum = .ok sum' := by
  induction gradients generalizing sum with
  | nil => exact ⟨sum, rfl⟩
  | cons g gradients ih =>
    obtain ⟨hg, hrest⟩ := List.forall_mem_cons.mp h
    have hstep := addBytes_eq hg
    rw [List.foldlM_cons, hstep, Except.ok_bind]
    exact ih (by rwa [length_addBytes hstep])

theorem foldlM_addBytes_panics (h : ∃ g ∈ gradients, ¬ Addable n sum.length g.data) :
    ∃ msg, gradients.foldlM (fun sum grad => addBytes n sum grad.data) sum
      = .error (.panic msg) := by
  induction gradients generalizing sum with
  | nil => exact absurd h (by simp)
  | cons g gradients ih =>
    rw [List.foldlM_cons]
    by_cases hg : Addable n sum.length g.data
    · have hstep := addBytes_eq hg
      have hrest : ∃ g ∈ gradients, ¬ Addable n sum.length g.data := by
        obtain ⟨g', hg', hnot⟩ := h
        obtain rfl | hg' := List.mem_cons.mp hg'
        · exact absurd hg hnot
        · exact ⟨g', hg', hnot⟩
      rw [hstep, Except.ok_bind]
      exact ih (by rwa [length_addBytes hstep])
    · obtain ⟨msg, hmsg⟩ := addBytes_panics hg
      exact ⟨msg, by rw [hmsg]; rfl⟩

theorem foldlM_addBytes_eq
    (h : ∀ g ∈ gradients, Addable n sum.length g.data ∧ g.data.length = sum.length) :
    gradients.foldlM (fun sum grad => addBytes n sum grad.data) sum
      = .ok (gradients.foldl (fun sum grad => addShares n sum grad.data) sum) := by
  induction gradients generalizing sum with
  | nil => rfl
  | cons g gradients ih =>
    obtain ⟨⟨hg, hlen⟩, hrest⟩ := List.forall_mem_cons.mp h
    have hstep : addBytes n sum g.data = .ok (addShares n sum g.data) := by
      rw [addBytes_eq hg, hlen, List.drop_length, List.append_nil]
    rw [List.foldlM_cons, hstep, Except.ok_bind, List.foldl_cons]
    exact ih (by rwa [length_addBytes hstep])

theorem foldl_addShares_perm (hperm : gradients.Perm gradients') (n : UInt8) (sum : Bytes) :
    gradients.foldl (fun sum grad => addShares n sum grad.data) sum
      = gradients'.foldl (fun sum grad => addShares n sum grad.data) sum := by
  -- sums that saturate can still be taken in any order
  have hcomm : RightCommutative fun (sum : Bytes) (grad : GradientMessage) =>
      addShares n sum grad.data :=
    ⟨fun sum g g' => addShares_right_comm n sum g.data g'.data⟩
  exact hperm.foldl_eq sum

/-! ### Medians -/

theorem indexByte_eq {xs : Bytes} {i : ℕ} (h : i < xs.length) :
    indexByte xs i = .ok (xs.getD i 0) := by
  rw [indexByte, List.getD_eq_getElem?_getD, List.getElem?_eq_getElem h]
  rfl

/-- A column of as many bytes as there are gradients has a median. -/
theorem exists_medianOf {count : ℕ} {col : Bytes} (hlen : col.length = count) (hpos : 0 < count) :
    ∃ x, medianOf count col = .ok x := by
  rw [medianOf]
  split
  · exact ⟨_, indexByte_eq (by omega)⟩
  · next heven =>
    have hsub : subU64 (count / 2) 1 = .ok (count / 2 - 1) := if_pos (by omega)
    have hlo := @indexByte_eq col (count / 2 - 1) (by omega)
    have hhi := @indexByte_eq col (count / 2) (by omega)
    rw [hsub, Except.ok_bind, hlo, Except.ok_bind, hhi]
    exact ⟨_, rfl⟩

variable {pos : ℕ}

theorem medianAt_eq (h : ∀ g ∈ gradients, pos < g.data.length) :
    medianAt gradients pos = medianOf gradients.length
      (StableSort.sortBy UInt8.toNat (gradients.map fun g => g.data.getD pos 0)) := by
  have hcol : gradients.mapM (fun g => indexByte g.data pos)
      = .ok (gradients.map fun g => g.data.getD pos 0) := by
    rw [Except.mapM_eq_ok_iff, List.forall₂_map_right_iff, List.forall₂_same]
    exact fun g hg => indexByte_eq (h g hg)
  rw [medianAt, hcol]
  rfl

theorem exists_medianAt (hne : gradients ≠ []) (h : ∀ g ∈ gradients, pos < g.data.length) :
    ∃ x, medianAt gradients pos = .ok x := by
  rw [medianAt_eq h]
  refine exists_medianOf ?_ (List.length_pos_of_ne_nil hne)
  rw [(StableSort.sortBy_perm _ _).length_eq, List.length_map]

/-- A column is sorted first, so the order of the gradients does not matter. -/
theorem medianAt_perm (hperm : gradients.Perm gradients')
    (h : ∀ g ∈ gradients, pos < g.data.length) :
    medianAt gradients' pos = medianAt gradients pos := by
  have hkeys : (StableSort.sortBy UInt8.toNat (gradients.map fun g => g.data.getD pos 0)).map
      UInt8.toNat = _ := StableSort.map_key_sortBy (hperm.map fun g => g.data.getD pos 0)
  have hsorted := List.map_injective_iff.mpr (fun _ _ => UInt8.toNat_inj.mp) hkeys
  rw [medianAt_eq h, medianAt_eq fun g hg => h g (hperm.mem_iff.mpr hg), hperm.length_eq, hsorted]

section Layers

variable {first : GradientMessage} {others : List GradientMessage} {layerId : String}
  {strategy : AggregationStrategy}

/-- **The average** is computed when everything can be added, and panics otherwise. -/
theorem exists_aggregateAverage (layerId : String)
    (h : ∀ g ∈ first :: others,
      Addable (UInt8.ofNat (first :: others).length) first.data.length g.data) :
    ∃ r, aggregateAverage layerId (first :: others) = .ok r := by
  obtain ⟨sum, hsum⟩ := @foldlM_addBytes_ok _ (List.replicate first.data.length 0) _
    (by rwa [List.length_replicate])
  exact ⟨_, by rw [aggregateAverage, hsum]; rfl⟩

theorem aggregateAverage_panics (layerId : String)
    (h : ∃ g ∈ first :: others,
      ¬ Addable (UInt8.ofNat (first :: others).length) first.data.length g.data) :
    ∃ msg, aggregateAverage layerId (first :: others) = .error (.panic msg) := by
  obtain ⟨msg, hmsg⟩ := @foldlM_addBytes_panics _ (List.replicate first.data.length 0) _
    (by rwa [List.length_replicate])
  exact ⟨msg, by rw [aggregateAverage, hmsg]; rfl⟩

theorem aggregateAverage_eq (layerId : String)
    (h : ∀ g ∈ first :: others,
      Addable (UInt8.ofNat (first :: others).length) first.data.length g.data ∧
        g.data.length = first.data.length) :
    aggregateAverage layerId (first :: others) = .ok (.new layerId
      ((first :: others).foldl
        (fun sum grad => addShares (UInt8.ofNat (first :: others).length) sum grad.data)
        (List.replicate first.data.length 0)) first.shape first.dtype) := by
  have hsum := @foldlM_addBytes_eq _ (List.replicate first.data.length 0) _
    (by rwa [List.length_replicate])
  rw [aggregateAverage, hsum]
  rfl

/-! ### Layers -/

namespace GradientAggregator

theorem ofNat_eq_zero_iff (k : ℕ) : UInt8.ofNat k = 0 ↔ k % 256 = 0 := by
  rw [← UInt8.toNat_inj, UInt8.toNat_ofNat']
  exact Iff.rfl

/-- Gradients of one shape. -/
def SameShapes (gradients : List GradientMessage) : Prop :=
  ∀ g ∈ gradients, ∀ g' ∈ gradients, g.shape = g'.shape

/-- Gradients of one type. -/
def SameTypes (gradients : List GradientMessage) : Prop :=
  ∀ g ∈ gradients, ∀ g' ∈ gradients, g.dtype = g'.dtype

/-- A number of gradients that is not zero as a byte, unless there are no bytes to be divided; none
of them longer than the first one; and all of one length if they are of one type. -/
structure Averageable (gradients : List GradientMessage) : Prop where
  count : gradients.length % 256 ≠ 0 ∨ ∀ g ∈ gradients, g.data = []
  first : ∀ f ∈ gradients.head?, ∀ g ∈ gradients, g.data.length ≤ f.data.length
  length : SameTypes gradients →
    ∀ g ∈ gradients, ∀ g' ∈ gradients, g.data.length = g'.data.length

/-- A strategy that works on bytes: an average, or the median of gradients that are not `f32`. -/
def OnBytes (strategy : AggregationStrategy) (gradients : List GradientMessage) : Prop :=
  strategy = .average ∨ strategy = .federatedAvg ∨
    strategy = .median ∧ ∀ f ∈ gradients.head?, ¬ (f.dtype = "f32" ∨ f.dtype = "float32")

theorem SameShapes.of_perm (h : SameShapes gradients) (hperm : gradients'.Perm gradients) :
    SameShapes gradients' :=
  fun g hg g' hg' => h g (hperm.mem_iff.mp hg) g' (hperm.mem_iff.mp hg')

theorem Averageable.addable (h : Averageable (first :: others)) :
    ∀ g ∈ first :: others,
      Addable (UInt8.ofNat (first :: others).length) first.data.length g.data := by
  intro g hg
  refine ⟨h.first first rfl g hg, ?_⟩
  rw [Ne, ofNat_eq_zero_iff]
  exact h.count.imp_right fun hdata => hdata g hg

/-- The average of gradients of one shape and type is the same in every order. -/
theorem aggregateAverage_perm {first' : GradientMessage} {others' : List GradientMessage}
    (layerId : String) (hshapes : SameShapes (first :: others))
    (htypes : SameTypes (first :: others)) (h : Averageable (first :: others))
    (hperm : (first' :: others').Perm (first :: others)) :
    aggregateAverage layerId (first' :: others')
      = aggregateAverage layerId (first :: others) := by
  have hlen := h.length htypes
  have hmem : first' ∈ first :: others := hperm.mem_iff.mp List.mem_cons_self
  have hfst := hlen first' hmem first List.mem_cons_self
  have hall : ∀ g ∈ first :: others,
      Addable (UInt8.ofNat (first :: others).length) first.data.length g.data ∧
        g.data.length = first.data.length :=
    fun g hg => ⟨h.addable g hg, hlen g hg first List.mem_cons_self⟩
  have hall' : ∀ g ∈ first' :: others',
      Addable (UInt8.ofNat (first' :: others').length) first'.data.length g.data ∧
        g.data.length = first'.data.length := by
    intro g hg
    rw [hfst, hperm.length_eq]
    exact hall g (hperm.mem_iff.mp hg)
  rw [aggregateAverage_eq layerId hall, aggregateAverage_eq layerId hall', hfst, hperm.length_eq,
    foldl_addShares_perm hperm, htypes first' hmem first List.mem_cons_self,
    hshapes first' hmem first List.mem_cons_self]

end GradientAggregator

variable [FloatAggregation]

/-- **The median** of gradients of one length, byte by byte. -/
theorem aggregateMedian_eq (layerId : String)
    (hlen : ∀ g ∈ first :: others, g.data.length = first.data.length)
    (hdtype : ¬ (first.dtype = "f32" ∨ first.dtype = "float32")) :
    ∃ m : ℕ → UInt8, (∀ pos < first.data.length, medianAt (first :: others) pos = .ok (m pos)) ∧
      aggregateMedian layerId (first :: others) = .ok
        (.new layerId ((List.range first.data.length).map m) first.shape first.dtype) := by
  -- one median for each position, chosen at once
  have hmedian : ∀ pos, ∃ x, pos < first.data.length →
      medianAt (first :: others) pos = .ok x := by
    intro pos
    by_cases hpos : pos < first.data.length
    · obtain ⟨x, hx⟩ := exists_medianAt (List.cons_ne_nil first others)
        fun g hg => (hlen g hg).symm ▸ hpos
      exact ⟨x, fun _ => hx⟩
    · exact ⟨0, fun h => absurd h hpos⟩
  choose m hm using hmedian
  have hdata : (List.range first.data.length).mapM (medianAt (first :: others))
      = .ok ((List.range first.data.length).map m) := by
    rw [Except.mapM_eq_ok_iff, List.forall₂_map_right_iff, List.forall₂_same]
    exact fun pos hpos => hm pos (List.mem_range.mp hpos)
  have hfind : ((first :: others).zipIdx.find? fun entry =>
      entry.1.data.length ≠ first.data.length) = none := by
    rw [List.find?_eq_none]
    rintro ⟨g, i⟩ hentry
    have hg := (List.mem_zipIdx hentry).2.2
    simpa using hlen g (hg ▸ List.getElem_mem _)
  refine ⟨m, hm, ?_⟩
  rw [aggregateMedian, hfind]
  dsimp only
  rw [if_neg hdtype, hdata]
  rfl

theorem aggregateMedian_error (layerId : String)
    (hlen : ∃ g ∈ first :: others, g.data.length ≠ first.data.length) :
    ∃ e, aggregateMedian layerId (first :: others) = .error (.error e) := by
  have hfind : ((first :: others).zipIdx.find? fun entry =>
      entry.1.data.length ≠ first.data.length).isSome := by
    rw [List.find?_isSome]
    obtain ⟨g, hg, hne⟩ := hlen
    obtain ⟨i, hi⟩ := List.mem_iff_getElem?.mp hg
    exact ⟨(g, i), List.mk_mem_zipIdx_iff_getElem?.mpr hi, by simpa using hne⟩
  obtain ⟨⟨g, i⟩, hentry⟩ := Option.isSome_iff_exists.mp hfind
  rw [aggregateMedian, hentry]
  exact ⟨_, rfl⟩

namespace GradientAggregator

/-- What the aggregation of a layer promises. -/
structure Total (strategy : AggregationStrategy) (layerId : String)
    (gradients : List GradientMessage) : Prop where
  noPanic : ∀ msg, aggregateLayer strategy layerId gradients ≠ .error (.panic msg)
  sameInEveryOrder : SameTypes gradients →
    ∀ r, aggregateLayer strategy layerId gradients = .ok r →
      ∀ gradients', gradients'.Perm gradients →
        aggregateLayer strategy layerId gradients' = .ok r

theorem aggregateLayer_of_not_sameShapes (strategy : AggregationStrategy) (layerId : String)
    (h : ¬ SameShapes (first :: others)) :
    aggregateLayer strategy layerId (first :: others)
      = .error (.error (.invalidInput "Gradient shape mismatch")) := by
  refine if_pos ?_
  rw [List.any_eq_true]
  by_contra hno
  push Not at hno
  have hfirst : ∀ g ∈ first :: others, g.shape = first.shape := by
    refine List.forall_mem_cons.mpr ⟨rfl, fun g hg => ?_⟩
    simpa using hno g hg
  exact h fun g hg g' hg' => (hfirst g hg).trans (hfirst g' hg').symm

theorem aggregateLayer_of_sameShapes (strategy : AggregationStrategy) (layerId : String)
    (h : SameShapes (first :: others)) :
    aggregateLayer strategy layerId (first :: others) =
      match strategy with
      | .average | .federatedAvg => aggregateAverage layerId (first :: others)
      | .weightedAverage => FloatAggregation.weighted layerId (first :: others)
      | .median => aggregateMedian layerId (first :: others) := by
  refine if_neg ?_
  rw [List.any_eq_true]
  rintro ⟨g, hg, hne⟩
  exact absurd (h g (List.mem_cons_of_mem _ hg) first List.mem_cons_self) (by simpa using hne)

theorem Total.of_error {gradients : List GradientMessage} {e : Error}
    (h : aggregateLayer strategy layerId gradients = .error (.error e)) :
    Total strategy layerId gradients := by
  refine ⟨fun msg hmsg => ?_, fun _ r hr => ?_⟩
  · rw [h] at hmsg
    cases hmsg
  · rw [h] at hr
    cases hr

theorem Total.of_ok {r : GradientMessage}
    (h : aggregateLayer strategy layerId (first :: others) = .ok r)
    (hperm : SameTypes (first :: others) → ∀ first' others',
      (first' :: others').Perm (first :: others) →
        aggregateLayer strategy layerId (first' :: others')
          = aggregateLayer strategy layerId (first :: others)) :
    Total strategy layerId (first :: others) := by
  refine ⟨fun msg hmsg => ?_, fun htypes r' hr gradients' hgradients => ?_⟩
  · rw [h] at hmsg
    cases hmsg
  · cases gradients' with
    | nil => exact absurd hgradients.length_eq (by simp)
    | cons first' others' => rw [hperm htypes first' others' hgradients, hr]

/-- The median of gradients of one shape, type and length is the same in every order. -/
theorem aggregateMedian_perm {first' : GradientMessage} {others' : List GradientMessage}
    (layerId : String) (hshapes : SameShapes (first :: others))
    (htypes : SameTypes (first :: others))
    (hlen : ∀ g ∈ first :: others, g.data.length = first.data.length)
    (hdtype : ¬ (first.dtype = "f32" ∨ first.dtype = "float32"))
    (hperm : (first' :: others').Perm (first :: others)) :
    aggregateMedian layerId (first' :: others') = aggregateMedian layerId (first :: others) := by
  have hmem : first' ∈ first :: others := hperm.mem_iff.mp List.mem_cons_self
  have hfst := hlen first' hmem
  have hdt := htypes first' hmem first List.mem_cons_self
  have hlen' : ∀ g ∈ first' :: others', g.data.length = first'.data.length :=
    fun g hg => (hlen g (hperm.mem_iff.mp hg)).trans hfst.symm
  obtain ⟨m, hm, hmedian⟩ := aggregateMedian_eq layerId hlen hdtype
  obtain ⟨m', hm', hmedian'⟩ := aggregateMedian_eq layerId hlen' (by rwa [hdt])
  have hsame : ∀ pos ∈ List.range first.data.length, m' pos = m pos := by
    intro pos hpos
    have hpos := List.mem_range.mp hpos
    have hall : ∀ g ∈ first :: others, pos < g.data.length := by
      intro g hg
      rw [hlen g hg]
      exact hpos
    have hcol := medianAt_perm hperm.symm hall
    rw [hm pos hpos, hm' pos (by rwa [hfst])] at hcol
    exact Except.ok.inj hcol
  rw [hmedian', hmedian, hfst, List.map_congr_left hsame, hdt,
    hshapes first' hmem first List.mem_cons_self]

/-- **The median** of gradients is total, and the same in every order. -/
theorem total_median (layerId : String) (gradients : List GradientMessage)
    (hdtype : ∀ f ∈ gradients.head?, ¬ (f.dtype = "f32" ∨ f.dtype = "float32")) :
    Total .median layerId gradients := by
  cases gradients with
  | nil => exact .of_error rfl
  | cons first others =>
    by_cases hshapes : SameShapes (first :: others)
    · have hlayer := aggregateLayer_of_sameShapes .median layerId hshapes
      by_cases hlen : ∀ g ∈ first :: others, g.data.length = first.data.length
      · obtain ⟨m, -, hmedian⟩ := aggregateMedian_eq layerId hlen (hdtype first rfl)
        refine .of_ok (hlayer.trans hmedian) fun htypes first' others' hperm => ?_
        rw [hlayer, aggregateLayer_of_sameShapes .median layerId (hshapes.of_perm hperm)]
        exact aggregateMedian_perm layerId hshapes htypes hlen (hdtype first rfl) hperm
      · have hdiffer : ∃ g ∈ first :: others, g.data.length ≠ first.data.length := by
          simpa using hlen
        obtain ⟨e, he⟩ := aggregateMedian_error layerId hdiffer
        exact .of_error (hlayer.trans he)
    · exact .of_error (aggregateLayer_of_not_sameShapes .median layerId hshapes)

theorem aggregateLayer_average (hstrategy : strategy = .average ∨ strategy = .federatedAvg)
    (layerId : String) (h : SameShapes (first :: others)) :
    aggregateLayer strategy layerId (first :: others)
      = aggregateAverage layerId (first :: others) := by
  rw [aggregateLayer_of_sameShapes strategy layerId h]
  obtain rfl | rfl := hstrategy
  · rfl
  · rfl

/-- Whatever is in front, everything can be added to it, or there is a panic. -/
theorem addable_of_noPanic (hstrategy : strategy = .average ∨ strategy = .federatedAvg)
    (hshapes : SameShapes (first :: others))
    (hno : ∀ msg, aggregateLayer strategy layerId (first :: others) ≠ .error (.panic msg)) :
    ∀ g ∈ first :: others,
      Addable (UInt8.ofNat (first :: others).length) first.data.length g.data := by
  by_contra hnot
  push Not at hnot
  obtain ⟨msg, hmsg⟩ := aggregateAverage_panics layerId hnot
  exact hno msg ((aggregateLayer_average hstrategy layerId hshapes).trans hmsg)

/-- In some order each of the gradients comes first, so none is longer than another. -/
theorem averageable_of_total (hstrategy : strategy = .average ∨ strategy = .federatedAvg)
    (hshapes : SameShapes (first :: others)) (h : Total strategy layerId (first :: others)) :
    Averageable (first :: others) := by
  have hall := addable_of_noPanic hstrategy hshapes h.noPanic
  refine ⟨?_, ?_, fun htypes => ?_⟩
  · by_cases hcount : (first :: others).length % 256 = 0
    · refine .inr fun g hg => ?_
      obtain ⟨-, hne | hdata⟩ := hall g hg
      · exact absurd ((ofNat_eq_zero_iff _).mpr hcount) hne
      · exact hdata
    · exact .inl hcount
  · rintro f ⟨⟩ g hg
    exact (hall g hg).1
  · suffices heq : ∀ g ∈ first :: others, g.data.length = first.data.length from
      fun g hg g' hg' => (heq g hg).trans (heq g' hg').symm
    intro g hg
    obtain ⟨r, hr⟩ := exists_aggregateAverage layerId hall
    have hperm : (g :: (first :: others).erase g).Perm (first :: others) :=
      (List.perm_cons_erase hg).symm
    have hok := h.sameInEveryOrder htypes r
      ((aggregateLayer_average hstrategy layerId hshapes).trans hr) _ hperm
    have hno : ∀ msg, aggregateLayer strategy layerId (g :: (first :: others).erase g)
        ≠ .error (.panic msg) := by
      intro msg hmsg
      rw [hok] at hmsg
      cases hmsg
    have hall' := addable_of_noPanic hstrategy (hshapes.of_perm hperm) hno
    have hge := (hall' first (hperm.mem_iff.mpr List.mem_cons_self)).1
    exact le_antisymm (hall g hg).1 hge

/-- **The average** of gradients is total, and the same in every order, under these conditions. -/
theorem total_average_iff (hstrategy : strategy = .average ∨ strategy = .federatedAvg)
    (layerId : String) (gradients : List GradientMessage) :
    Total strategy layerId gradients ↔ ¬ SameShapes gradients ∨ Averageable gradients := by
  cases gradients with
  | nil =>
    refine iff_of_true (.of_error rfl) (.inr ⟨?_, ?_, ?_⟩)
    · exact .inr (by simp)
    · simp
    · simp
  | cons first others =>
    by_cases hshapes : SameShapes (first :: others)
    · rw [or_iff_right (not_not.mpr hshapes)]
      refine ⟨averageable_of_total hstrategy hshapes, fun h => ?_⟩
      have hlayer := aggregateLayer_average hstrategy layerId hshapes
      obtain ⟨r, hr⟩ := exists_aggregateAverage layerId h.addable
      refine .of_ok (hlayer.trans hr) fun htypes first' others' hperm => ?_
      rw [hlayer, aggregateLayer_average hstrategy layerId (hshapes.of_perm hperm)]
      exact aggregateAverage_perm layerId hshapes htypes h hperm
    · exact iff_of_true (.of_error (aggregateLayer_of_not_sameShapes strategy layerId hshapes))
        (.inl hshapes)

end GradientAggregator

end Layers

/-! ### Runs -/

namespace GradientAggregator

section Runs

variable {a a' : GradientAggregator} {g : GradientMessage} {added added' : List GradientMessage}
  {strategy : AggregationStrategy} {expected : ℕ} {layerId : String}

/-- A gradient that `add_gradient` takes. -/
def Acceptable (verifyChecksums : Bool) (g : GradientMessage) : Prop :=
  (verifyChecksums = true → g.verify = true) ∧ ∃ elements, g.numElements = .ok elements ∧
    elements ≠ 0

theorem addGradient_eq_ok_iff : a.addGradient g = .ok a' ↔
    Acceptable a.verifyChecksums g ∧
      a' = { a with gradients := a.gradients.insert g.id (a.layer g.id ++ [g]) } := by
  unfold addGradient
  split
  · next hbad =>
    refine iff_of_false (by simp) fun h => ?_
    obtain ⟨hverify, hnot⟩ := Bool.and_eq_true_iff.mp hbad
    have hgood := h.1.1 hverify
    rw [hgood] at hnot
    cases hnot
  · next hgood =>
    have hverify : a.verifyChecksums = true → g.verify = true := by
      intro hv
      rw [hv] at hgood
      simpa using hgood
    rw [Except.bind_eq_ok_iff]
    constructor
    · rintro ⟨elements, helements, h⟩
      split at h
      · cases h
      · next hne => exact ⟨⟨hverify, elements, helements, hne⟩, (Except.ok.inj h).symm⟩
    · rintro ⟨⟨-, elements, helements, hne⟩, rfl⟩
      exact ⟨elements, helements, if_neg hne⟩

/-- The gradients of a layer, in the order in which they were added. -/
def ofLayer (layerId : String) (added : List GradientMessage) : List GradientMessage :=
  added.filter fun g => g.id = layerId

/-- **What has been added** is in its layer, in order. -/
theorem addAll_eq_ok (h : a.addAll added = .ok a') :
    a'.strategy = a.strategy ∧ (∀ g ∈ added, Acceptable a.verifyChecksums g) ∧
      a'.gradients.lookup layerId = if ofLayer layerId added = [] then a.gradients.lookup layerId
        else some (a.layer layerId ++ ofLayer layerId added) := by
  induction added generalizing a with
  | nil =>
    obtain rfl := Except.ok.inj h
    exact ⟨rfl, by simp, by simp [ofLayer]⟩
  | cons g added ih =>
    rw [addAll, List.foldlM_cons] at h
    obtain ⟨a₁, hadd, h⟩ := Except.bind_eq_ok_iff.mp h
    obtain ⟨hacc, rfl⟩ := addGradient_eq_ok_iff.mp hadd
    obtain ⟨hstrategy, hall, hlookup⟩ := ih h
    refine ⟨hstrategy, List.forall_mem_cons.mpr ⟨hacc, hall⟩, ?_⟩
    rw [hlookup]
    dsimp only [layer]
    by_cases hid : g.id = layerId
    · subst hid
      simp [ofLayer, AList.lookup_insert]
    · have hother : layerId ≠ g.id := fun heq => hid heq.symm
      simp [ofLayer, hid, AList.lookup_insert_ne hother]

theorem exists_addAll (h : ∀ g ∈ added, Acceptable a.verifyChecksums g) :
    ∃ a', a.addAll added = .ok a' := by
  induction added generalizing a with
  | nil => exact ⟨a, rfl⟩
  | cons g added ih =>
    obtain ⟨hg, hrest⟩ := List.forall_mem_cons.mp h
    obtain ⟨a', ha'⟩ := @ih { a with gradients := a.gradients.insert g.id (a.layer g.id ++ [g]) }
      hrest
    refine ⟨a', ?_⟩
    rw [addAll, List.foldlM_cons, addGradient_eq_ok_iff.mpr ⟨hg, rfl⟩]
    exact ha'

variable [FloatAggregation]

theorem aggregate_eq (h : (new strategy expected).addAll added = .ok a) :
    (∀ r, a.aggregate layerId = .ok r ↔
      aggregateLayer strategy layerId (ofLayer layerId added) = .ok r) ∧
    ∀ msg, a.aggregate layerId = .error (.panic msg) ↔
      aggregateLayer strategy layerId (ofLayer layerId added) = .error (.panic msg) := by
  obtain ⟨hstrategy, -, hlookup⟩ := @addAll_eq_ok _ _ _ layerId h
  have hempty : (new strategy expected).layer layerId = [] := rfl
  have hnone : (new strategy expected).gradients.lookup layerId = none := rfl
  rw [hempty, hnone, List.nil_append] at hlookup
  rw [aggregate, hlookup, hstrategy]
  by_cases hlayer : ofLayer layerId added = []
  · rw [if_pos hlayer, hlayer]
    exact ⟨fun r => iff_of_false (by simp) (by simp [aggregateLayer]),
      fun msg => iff_of_false (by simp) (by simp [aggregateLayer])⟩
  · rw [if_neg hlayer]
    exact ⟨fun r => Iff.rfl, fun msg => Iff.rfl⟩

/-- What the aggregation promises for gradients that have been accepted. -/
structure AggregatesTotally (strategy : AggregationStrategy) (expected : ℕ) (layerId : String)
    (added : List GradientMessage) : Prop where
  noPanic : ∀ a, (new strategy expected).addAll added = .ok a →
    ∀ msg, a.aggregate layerId ≠ .error (.panic msg)
  sameInEveryOrder : SameTypes (ofLayer layerId added) →
    ∀ a r, (new strategy expected).addAll added = .ok a → a.aggregate layerId = .ok r →
      ∀ added' a', added'.Perm added → (new strategy expected).addAll added' = .ok a' →
        a'.aggregate layerId = .ok r

theorem aggregatesTotally_iff (h : (new strategy expected).addAll added = .ok a) :
    AggregatesTotally strategy expected layerId added ↔
      Total strategy layerId (ofLayer layerId added) := by
  obtain ⟨hok, hpanic⟩ := @aggregate_eq _ _ _ _ layerId _ h
  constructor
  · intro htotal
    refine ⟨fun msg hmsg => htotal.noPanic a h msg ((hpanic msg).mpr hmsg),
      fun htypes r hr gradients' hperm => ?_⟩
    -- the other gradients after those of the layer, in the new order
    let added' := gradients' ++ added.filter fun g => ¬ g.id = layerId
    have hperm' : added'.Perm added := by
      refine (hperm.append_right _).trans ?_
      simpa [ofLayer] using List.filter_append_perm (fun g => decide (g.id = layerId)) added
    have hlayer : ofLayer layerId added' = gradients' := by
      have hin : ∀ g ∈ gradients', g.id = layerId := by
        intro g hg
        simpa [ofLayer] using (List.mem_filter.mp (hperm.mem_iff.mp hg)).2
      rw [ofLayer, List.filter_append, List.filter_filter,
        List.filter_eq_self.mpr fun g hg => by simpa using hin g hg]
      simp
    obtain ⟨a', ha'⟩ := exists_addAll fun g hg =>
      (@addAll_eq_ok _ _ _ layerId h).2.1 g (hperm'.mem_iff.mp hg)
    have hsame := htotal.sameInEveryOrder htypes a r h ((hok r).mpr hr) added' a' hperm' ha'
    rw [(@aggregate_eq _ _ _ _ layerId _ ha').1, hlayer] at hsame
    exact hsame
  · intro htotal
    refine ⟨fun a₁ h₁ msg hmsg => ?_, fun htypes a₁ r h₁ hr added' a' hperm ha' => ?_⟩
    · exact htotal.noPanic msg ((@aggregate_eq _ _ _ _ layerId _ h₁).2 msg |>.mp hmsg)
    · rw [(@aggregate_eq _ _ _ _ layerId _ h₁).1] at hr
      rw [(@aggregate_eq _ _ _ _ layerId _ ha').1]
      exact htotal.sameInEveryOrder htypes r hr _ (hperm.filter _)

/-- **Aggregation is total**, and the same in every order, for medians, and for averages of
gradients that the contributors made so. -/
theorem aggregatesTotally_iff_averageable
    (h : (new strategy expected).addAll added = .ok a)
    (hbytes : OnBytes strategy (ofLayer layerId added)) :
    AggregatesTotally strategy expected layerId added ↔
      strategy = .median ∨ ¬ SameShapes (ofLayer layerId added) ∨
        Averageable (ofLayer layerId added) := by
  rw [aggregatesTotally_iff h]
  obtain rfl | rfl | ⟨rfl, hdtype⟩ := hbytes
  · rw [total_average_iff (.inl rfl)]
    simp
  · rw [total_average_iff (.inr rfl)]
    simp
  · exact iff_of_true (total_median layerId _ hdtype) (.inl rfl)

end Runs

section Sample

/-- No floating-point numbers. -/
local instance noFloats : FloatAggregation where
  weighted _ _ := .error (.error (.notImplemented "f32"))
  medianF32 _ _ := .error (.error (.notImplemented "f32"))

/-- A gradient of one element. -/
def sampleGradient (data : Bytes) : GradientMessage := .new "w" data [1] "i8"

theorem aggregatesTotally_two :
    AggregatesTotally .average 2 "w" [sampleGradient [6], sampleGradient [9]] := by
  have hadd : (new .average 2).addAll [sampleGradient [6], sampleGradient [9]] = .ok _ := rfl
  refine (aggregatesTotally_iff_averageable hadd (.inl rfl)).mpr (.inr (.inr ⟨?_, ?_, fun _ => ?_⟩))
  · exact .inl (by decide)
  · rintro f ⟨⟩
    decide
  · decide

/-- A gradient that is longer than the one before it, and as many gradients as a byte has values. -/
theorem not_aggregatesTotally :
    (∃ a, (new .average 2).addAll [sampleGradient [6], sampleGradient [9, 9]] = .ok a ∧
      a.aggregate "w" = .error (.panic "index out of bounds")) ∧
    ∃ a, (new .federatedAvg 256).addAll (List.replicate 256 (sampleGradient [6])) = .ok a ∧
      a.aggregate "w" = .error (.panic "attempt to divide by zero") := by
  refine ⟨⟨_, rfl, by decide +kernel⟩, ?_⟩
  have haccept : Acceptable true (sampleGradient [6]) := ⟨fun _ => rfl, 1, rfl, one_ne_zero⟩
  have hmany : ((new .federatedAvg 256).addAll (List.replicate 256 (sampleGradient [6]))).bind
      (fun a => a.aggregate "w") = .error (.panic "attempt to divide by zero") := by
    decide +kernel
  obtain ⟨a, ha⟩ := @exists_addAll (new .federatedAvg 256)
    (List.replicate 256 (sampleGradient [6]))
    fun g hg => (List.eq_of_mem_replicate hg).symm ▸ haccept
  rw [ha] at hmany
  exact ⟨a, ha, hmany⟩

end Sample

end GradientAggregator

end Ipfrs.Transport
