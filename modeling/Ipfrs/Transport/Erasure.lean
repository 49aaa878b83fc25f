import Ipfrs.Core.Cid
import Mathlib.Algebra.Order.Floor.Div

/-!
# Erasure coding

The `SimpleErasureEncoder` of the transport crate (`ipfrs-transport/src/erasure.rs`): a block is
padded with zeros and cut into data shards of one size, and parity shards are sums of weighted data
shards. The decoder puts the data shards together if it has all of them. It makes no use of the
parity shards: with too few shards it fails, and with surplus parity shards in place of a data shard
it returns an empty block (`decode_of_surplus`).

* `decode_of_complete` — all data shards give the block back, whatever else comes with them;
* `decode_correct_iff` — the shards for which the decoder returns nothing wrong;
* `not_forall_decode_correct` — and some for which it does.
-/

namespace Ipfrs.Transport

/-- `ErasureError`, as far as the encoder gives it. -/
inductive ErasureError where
  | invalidParams (msg : String)
  | insufficientShards (available need : ℕ)
  | shardSizeMismatch (expected got : ℕ)
  | decodingFailed (msg : String)
  deriving DecidableEq, Repr

structure ErasureConfig where
  dataShards : ℕ
  parityShards : ℕ
  deriving DecidableEq, Repr

def ErasureConfig.new (dataShards parityShards : ℕ) : Except ErasureError ErasureConfig :=
  if dataShards = 0 then .error (.invalidParams "Data shards must be > 0")
  else if parityShards = 0 then .error (.invalidParams "Parity shards must be > 0")
  else if dataShards + parityShards > 256 then
    .error (.invalidParams "Total shards must be <= 256")
  else .ok ⟨dataShards, parityShards⟩

structure Shard where
  index : ℕ
  data : Bytes
  isParity : Bool
  deriving DecidableEq, Repr

def Shard.size (s : Shard) : ℕ := s.data.length

structure SimpleErasureEncoder where
  config : ErasureConfig

namespace SimpleErasureEncoder

/-- `Vec::resize`. -/
def resize (len : ℕ) (value : UInt8) (data : Bytes) : Bytes :=
  data.take len ++ List.replicate (len - data.length) value

variable (e : SimpleErasureEncoder)

/-- The size of the shards of a block. -/
def shardSize (data : Bytes) : ℕ := data.length ⌈/⌉ e.config.dataShards

/-- The data shards in `encode`. -/
def encodeData (data : Bytes) : List Shard :=
  let shardSize := e.shardSize data
  let paddedData := resize (shardSize * e.config.dataShards) 0 data
  (List.range e.config.dataShards).map fun i =>
    ⟨i, (paddedData.drop (i * shardSize)).take shardSize, false⟩

/-- A parity shard in `encode`: the data shards, each with its weight, added up by `^`. -/
def encodeParity (shardSize : ℕ) (shards : List Shard) (p : ℕ) : Shard :=
  let add (parityData : Bytes) (shard : Shard × ℕ) : Bytes :=
    let weight := UInt8.ofNat ((shard.2 + p + 1) % 256)
    List.zipWith (fun parity byte => parity ^^^ byte * weight) parityData shard.1.data
  ⟨e.config.dataShards + p, shards.zipIdx.foldl add (List.replicate shardSize 0), true⟩

/-- `encode`. It does not fail. -/
def encode (data : Bytes) : List Shard :=
  e.encodeData data ++
    (List.range e.config.parityShards).map (e.encodeParity (e.shardSize data) (e.encodeData data))

def decode (shards : List Shard) (originalSize : ℕ) : Except ErasureError Bytes :=
  if shards.length < e.config.dataShards then
    .error (.insufficientShards shards.length e.config.dataShards)
  else
    let expectedSize := (shards.head?.map Shard.size).getD 0
    match shards.find? fun shard => shard.size ≠ expectedSize with
    | some shard => .error (.shardSizeMismatch expectedSize shard.size)
    | none =>
      let dataShards := shards.filter fun s => !s.isParity
      let parityShards := shards.filter fun s => s.isParity
      if dataShards.length = e.config.dataShards then
        let sorted := dataShards.mergeSort fun s t => s.index ≤ t.index
        .ok ((sorted.flatMap Shard.data).take originalSize)
      else if dataShards.length + parityShards.length < e.config.dataShards then
        .error (.insufficientShards (dataShards.length + parityShards.length) e.config.dataShards)
      else if dataShards.length + parityShards.length = e.config.dataShards then
        .error (.decodingFailed "Recovery not fully implemented in simple encoder")
      -- a data shard is missing, and parity shards make up for the number
      else .ok []

variable {e : SimpleErasureEncoder} {data : Bytes} {shards : List Shard}

/-! ### The shards of a block -/

theorem length_resize (len : ℕ) (value : UInt8) (data : Bytes) :
    (resize len value data).length = len := by
  rw [resize, List.length_append, List.length_take, List.length_replicate]
  omega

theorem take_resize {len : ℕ} (h : data.length ≤ len) (value : UInt8) :
    (resize len value data).take data.length = data := by
  rw [resize, List.take_of_length_le h]
  exact List.take_left

theorem length_le_padded (hpos : 0 < e.config.dataShards) (data : Bytes) :
    data.length ≤ e.shardSize data * e.config.dataShards := by
  rw [Nat.mul_comm]
  exact le_smul_ceilDiv hpos

theorem flatMap_slices (size n : ℕ) (l : Bytes) :
    ((List.range n).flatMap fun i => (l.drop (i * size)).take size) = l.take (n * size) := by
  induction n with
  | zero => rw [List.range_zero, List.flatMap_nil, Nat.zero_mul, List.take_zero]
  | succ n ih =>
    rw [List.range_succ, List.flatMap_append, ih, List.flatMap_singleton, Nat.succ_mul,
      List.take_add]

/-- **The data shards, in their order, are the padded block.** -/
theorem flatMap_encodeData (e : SimpleErasureEncoder) (data : Bytes) :
    (e.encodeData data).flatMap Shard.data =
      resize (e.shardSize data * e.config.dataShards) 0 data := by
  rw [encodeData, List.flatMap_map]
  show (List.range _).flatMap (fun i => List.take _ (List.drop (i * _) _)) = _
  rw [flatMap_slices, Nat.mul_comm, List.take_of_length_le (length_resize ..).le]

theorem length_encodeData (e : SimpleErasureEncoder) (data : Bytes) :
    (e.encodeData data).length = e.config.dataShards := by
  rw [encodeData, List.length_map, List.length_range]

theorem isParity_of_mem_encodeData {s : Shard} (h : s ∈ e.encodeData data) :
    s.isParity = false := by
  obtain ⟨i, -, rfl⟩ := List.mem_map.mp h
  rfl

/-- The data shards of an encoding are those that are no parity shards. -/
theorem filter_encode (e : SimpleErasureEncoder) (data : Bytes) :
    (e.encode data).filter (fun s => !s.isParity) = e.encodeData data := by
  have hdata : (e.encodeData data).filter (fun s => !s.isParity) = e.encodeData data := by
    apply List.filter_eq_self.mpr
    intro s hs
    rw [isParity_of_mem_encodeData hs]
    rfl
  -- no parity shard passes
  rw [encode, List.filter_append, hdata, List.filter_eq_nil_iff.mpr, List.append_nil]
  intro s hs
  obtain ⟨p, -, rfl⟩ := List.mem_map.mp hs
  simp [encodeParity]

/-- The data shards come in the order of their indices, which are different. -/
theorem pairwise_encodeData (e : SimpleErasureEncoder) (data : Bytes) :
    (e.encodeData data).Pairwise fun s t => s.index < t.index := by
  rw [encodeData, List.pairwise_map]
  exact List.pairwise_lt_range

theorem eq_of_index {s t : Shard} (hs : s ∈ e.encodeData data) (ht : t ∈ e.encodeData data)
    (h : s.index = t.index) : s = t := by
  obtain ⟨i, -, rfl⟩ := List.mem_map.mp hs
  obtain ⟨j, -, rfl⟩ := List.mem_map.mp ht
  obtain rfl : i = j := h
  rfl

theorem size_of_mem_encodeData {s : Shard} (h : s ∈ e.encodeData data) :
    s.size = e.shardSize data := by
  obtain ⟨i, hi, rfl⟩ := List.mem_map.mp h
  have hle : i * e.shardSize data + e.shardSize data ≤
      e.shardSize data * e.config.dataShards := by
    calc i * e.shardSize data + e.shardSize data = (i + 1) * e.shardSize data :=
          (Nat.succ_mul ..).symm
      _ ≤ e.config.dataShards * e.shardSize data :=
          Nat.mul_le_mul_right _ (List.mem_range.mp hi)
      _ = _ := Nat.mul_comm ..
  show (List.take _ (List.drop _ _)).length = _
  rw [List.length_take, List.length_drop, length_resize]
  omega

theorem size_of_mem_encode {s : Shard} (h : s ∈ e.encode data) : s.size = e.shardSize data := by
  obtain h | h := List.mem_append.mp h
  · exact size_of_mem_encodeData h
  obtain ⟨p, -, rfl⟩ := List.mem_map.mp h
  show (List.foldl _ (List.replicate (e.shardSize data) 0) _).length = e.shardSize data
  -- every summand has this size
  suffices hfold : ∀ (l : List (Shard × ℕ)) (acc : Bytes), acc.length = e.shardSize data →
      (∀ s ∈ l, s.1.size = e.shardSize data) →
      (l.foldl (fun acc s => List.zipWith (fun parity byte =>
        parity ^^^ byte * UInt8.ofNat ((s.2 + p + 1) % 256)) acc s.1.data) acc).length =
        e.shardSize data from
    hfold _ _ List.length_replicate fun s hs =>
      size_of_mem_encodeData (List.fst_mem_of_mem_zipIdx hs)
  intro l
  induction l with
  | nil => exact fun acc hacc _ => hacc
  | cons s l ih =>
    intro acc hacc hl
    obtain ⟨hs, hl⟩ := List.forall_mem_cons.mp hl
    apply ih _ _ hl
    rw [List.length_zipWith, hacc]
    exact Nat.min_eq_left hs.ge

/-! ### Decoding -/

section Decode

variable (hsub : shards.Subperm (e.encode data))

include hsub

/-- The data shards among some of the shards are some of the data shards. -/
theorem subperm_data :
    (shards.filter fun s => !s.isParity).Subperm (e.encodeData data) := by
  have hfilter := List.Subperm.filter (fun s => !s.isParity) hsub
  rwa [filter_encode] at hfilter

theorem length_data_le :
    (shards.filter fun s => !s.isParity).length ≤ e.config.dataShards :=
  (subperm_data hsub).length_le.trans_eq (length_encodeData e data)

theorem find?_size :
    shards.find? (fun shard => shard.size ≠ (shards.head?.map Shard.size).getD 0) = none := by
  rw [List.find?_eq_none]
  intro s hs
  cases shards with
  | nil => exact absurd hs List.not_mem_nil
  | cons t l =>
    have hsize := size_of_mem_encode (hsub.subset hs)
    have hhead := size_of_mem_encode (hsub.subset List.mem_cons_self)
    simp [hsize, hhead]

theorem complete_iff :
    (∀ s ∈ e.encodeData data, s ∈ shards) ↔
      (shards.filter fun s => !s.isParity).length = e.config.dataShards := by
  constructor
  · intro hall
    -- the data shards are all different, so no fewer than all of them are there
    apply (length_data_le hsub).antisymm
    have hnodup : (e.encodeData data).Nodup :=
      (pairwise_encodeData e data).imp fun h => ne_of_apply_ne Shard.index h.ne
    rw [← length_encodeData e data]
    apply (hnodup.subperm fun s hs => ?_).length_le
    exact List.mem_filter.mpr ⟨hall s hs, by rw [isParity_of_mem_encodeData hs]; rfl⟩
  · intro hlength s hs
    have hperm := (subperm_data hsub).perm_of_length_le
      ((length_encodeData e data).trans hlength.symm).le
    exact List.mem_of_mem_filter (hperm.mem_iff.mpr hs)

/-- **All data shards give the block back**, in whatever order they come. -/
theorem decode_of_complete (hpos : 0 < e.config.dataShards)
    (hlength : (shards.filter fun s => !s.isParity).length = e.config.dataShards) :
    e.decode shards data.length = .ok data := by
  have henough : ¬ shards.length < e.config.dataShards := by
    rw [← hlength]
    exact not_lt.mpr (List.length_filter_le ..)
  have hperm := (subperm_data hsub).perm_of_length_le
    ((length_encodeData e data).trans hlength.symm).le
  -- sorting brings them into the order in which they were made
  have hpairwise : ((shards.filter fun s => !s.isParity).mergeSort
      fun s t => s.index ≤ t.index).Pairwise fun s t => s.index ≤ t.index := by
    refine (List.pairwise_mergeSort ?_ ?_ _).imp of_decide_eq_true
    · intro s t u hst htu
      exact decide_eq_true ((of_decide_eq_true hst).trans (of_decide_eq_true htu))
    · intro s t
      rw [Bool.or_eq_true, decide_eq_true_iff, decide_eq_true_iff]
      exact le_total s.index t.index
  have hsorted : (shards.filter fun s => !s.isParity).mergeSort
      (fun s t => s.index ≤ t.index) = e.encodeData data := by
    refine List.Perm.eq_of_pairwise (fun s t hs ht hst hts => ?_) hpairwise
      ((pairwise_encodeData e data).imp le_of_lt) ((List.mergeSort_perm ..).trans hperm)
    exact eq_of_index (hperm.mem_iff.mp (List.mem_mergeSort.mp hs)) ht (hst.antisymm hts)
  rw [decode, if_neg henough]
  dsimp only
  rw [find?_size hsub]
  dsimp only
  rw [if_pos hlength, hsorted, flatMap_encodeData, take_resize (length_le_padded hpos data)]

/-- At most as many shards as there are data shards, one of which is missing, are refused. -/
theorem decode_of_few (hlength : (shards.filter fun s => !s.isParity).length ≠ e.config.dataShards)
    (hle : shards.length ≤ e.config.dataShards) (originalSize : ℕ) :
    ∃ err, e.decode shards originalSize = .error err := by
  obtain hlt | heq := hle.lt_or_eq
  · exact ⟨_, if_pos hlt⟩
  have hsplit := List.length_eq_length_filter_add (l := shards) fun s => !s.isParity
  simp only [Bool.not_not] at hsplit
  rw [decode, if_neg heq.not_lt]
  dsimp only
  rw [find?_size hsub]
  dsimp only
  rw [if_neg hlength, if_neg (by rw [← hsplit, heq]; exact lt_irrefl _),
    if_pos (hsplit.symm.trans heq)]
  exact ⟨_, rfl⟩

/-- **Surplus parity shards in place of a data shard** give an empty block. -/
theorem decode_of_surplus
    (hlength : (shards.filter fun s => !s.isParity).length ≠ e.config.dataShards)
    (hlt : e.config.dataShards < shards.length) (originalSize : ℕ) :
    e.decode shards originalSize = .ok [] := by
  have hsplit := List.length_eq_length_filter_add (l := shards) fun s => !s.isParity
  simp only [Bool.not_not] at hsplit
  rw [decode, if_neg hlt.not_gt]
  dsimp only
  rw [find?_size hsub]
  dsimp only
  rw [if_neg hlength, if_neg (by rw [← hsplit]; exact hlt.not_gt),
    if_neg (by rw [← hsplit]; exact hlt.ne')]

end Decode

/-- The decoder returns nothing but the block, and it returns it if all data shards are there. -/
def DecodesRight (e : SimpleErasureEncoder) (data : Bytes) (shards : List Shard) : Prop :=
  (∀ x, e.decode shards data.length = .ok x → x = data) ∧
    ((∀ s ∈ e.encode data, s.isParity = false → s ∈ shards) →
      ∃ x, e.decode shards data.length = .ok x)

/-- **When the decoder is right**, on any of the shards of a block in any order: no data shard is
missing, or there are no more shards than data shards, or the block is empty. -/
theorem decode_correct_iff {dataShards parityShards : ℕ} {config : ErasureConfig}
    (hconfig : ErasureConfig.new dataShards parityShards = .ok config) (data : Bytes)
    (hsub : shards.Subperm (encode ⟨config⟩ data)) :
    DecodesRight ⟨config⟩ data shards ↔
      (∀ s ∈ encode ⟨config⟩ data, s.isParity = false → s ∈ shards) ∨
        shards.length ≤ config.dataShards ∨ data = [] := by
  have hpos : 0 < config.dataShards := by
    unfold ErasureConfig.new at hconfig
    split_ifs at hconfig with h
    rw [← Except.ok.inj hconfig]
    exact Nat.pos_of_ne_zero h
  -- the condition on the data shards, by their number
  have hcomplete : (∀ s ∈ encode ⟨config⟩ data, s.isParity = false → s ∈ shards) ↔
      (shards.filter fun s => !s.isParity).length = config.dataShards := by
    rw [← complete_iff hsub, ← filter_encode]
    simp only [List.mem_filter, Bool.not_eq_true', and_imp]
  unfold DecodesRight
  rw [hcomplete]
  by_cases hlength : (shards.filter fun s => !s.isParity).length = config.dataShards
  · have hdecode := decode_of_complete (e := ⟨config⟩) hsub hpos hlength
    refine iff_of_true ⟨fun x hx => ?_, fun _ => ⟨_, hdecode⟩⟩ (Or.inl hlength)
    exact Except.ok.inj (hx.symm.trans hdecode)
  rw [or_iff_right hlength]
  obtain hle | hlt := le_or_gt shards.length config.dataShards
  · obtain ⟨err, herr⟩ := decode_of_few (e := ⟨config⟩) hsub hlength hle data.length
    refine iff_of_true ⟨fun x hx => ?_, fun h => absurd h hlength⟩ (Or.inl hle)
    rw [herr] at hx
    cases hx
  · -- the answer is the empty block, which is right for an empty block
    have hdecode := decode_of_surplus (e := ⟨config⟩) hsub hlength hlt data.length
    rw [or_iff_right hlt.not_ge]
    constructor
    · intro hright
      exact (hright.1 _ hdecode).symm
    · rintro rfl
      exact ⟨fun x hx => (Except.ok.inj (hdecode.symm.trans hx)).symm, fun h => absurd h hlength⟩

/-- Two data shards and one parity shard of a block of three bytes. -/
theorem decode_correct_iff_two :
    let config : ErasureConfig := ⟨2, 1⟩
    let shards : List Shard := [⟨2, [7, 2], true⟩, ⟨0, [1, 2], false⟩]
    ErasureConfig.new 2 1 = .ok config ∧ shards.Subperm (encode ⟨config⟩ [1, 2, 3]) ∧
      DecodesRight ⟨config⟩ [1, 2, 3] shards := by
  intro config shards
  have hsub : shards.Subperm (encode ⟨config⟩ [1, 2, 3]) := by
    rw [List.subperm_ext_iff]
    decide +kernel
  have hconfig : ErasureConfig.new 2 1 = .ok config := rfl
  exact ⟨hconfig, hsub, (decode_correct_iff hconfig _ hsub).mpr (.inr (.inl (by decide)))⟩

/-- **The decoder is wrong** when one of the two data shards is replaced by two parity shards. -/
theorem not_forall_decode_correct :
    ¬ ∀ (dataShards parityShards : ℕ) (config : ErasureConfig) (data : Bytes) (shards : List Shard),
      ErasureConfig.new dataShards parityShards = .ok config →
        shards.Subperm (encode ⟨config⟩ data) → DecodesRight ⟨config⟩ data shards := by
  intro h
  let shards : List Shard := (encode ⟨⟨2, 2⟩⟩ [1, 2]).tail
  have hsub : shards.Subperm (encode ⟨⟨2, 2⟩⟩ [1, 2]) := (List.tail_sublist _).subperm
  have hempty := (h 2 2 ⟨2, 2⟩ [1, 2] shards rfl hsub).1 [] (by decide +kernel)
  cases hempty

end SimpleErasureEncoder

end Ipfrs.Transport
