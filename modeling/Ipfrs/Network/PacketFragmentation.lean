import Mathlib.Algebra.Order.Floor.Div
import Ipfrs.Core.Fnv
import Ipfrs.Lib.AssocMap
import Ipfrs.Lib.Slots

/-!
# Packet fragmentation

`PacketFragmentationAssembler` (`ipfrs-network/src/packet_fragmentation_assembler.rs`): a message is
cut into fragments of the MTU, and an assembler collects the fragments of many messages, which may
come in any order and more than once.

Times are seconds, and 32-bit counts are numbers; the number of fragments is cut off at 32 bits as
in the source. The generator of message identifiers and the expiry of buffers are not modelled.

* `split_fragment` — the fragments of a message are numbered, and together they are its bytes;
* `receive_cases` — what receiving one of them can do: it is a duplicate, it fills a slot, or it
  fills the last one;
* `Collects` — the invariant: a buffer is never complete, and until all fragments of a message have
  arrived its slots are those of the ones that have;
* `reassembles` — under any delivery, the message comes out when its last fragment arrives.
-/

namespace Ipfrs.Network

def fnv1a32 (data : Bytes) : UInt32 := (fnv1a data).toUInt32

structure PfaAssemblerConfig where
  mtu : ℕ
  maxFragments : ℕ
  checksumEnabled : Bool
  deriving DecidableEq, Repr

structure PfaFragment where
  msgId : UInt64
  fragmentIndex : ℕ
  totalFragments : ℕ
  offset : ℕ
  data : Bytes
  checksum : UInt32
  deriving DecidableEq, Repr

structure PfaReassemblyBuffer where
  msgId : UInt64
  received : List (Option PfaFragment)
  totalFragments : ℕ
  createdAt : ℕ
  lastUpdated : ℕ
  receivedCount : ℕ
  deriving DecidableEq, Repr

structure PfaFragmentRecord where
  ts : ℕ
  msgId : UInt64
  fragmentIndex : ℕ
  isDup : Bool
  assembled : Bool
  deriving DecidableEq, Repr

inductive PfaReceiveResult where
  | buffered
  | duplicate
  | assembled (data : Bytes)
  | error (message : String)
  deriving DecidableEq, Repr

structure PacketFragmentationAssembler where
  config : PfaAssemblerConfig
  buffers : AList fun _ : UInt64 => PfaReassemblyBuffer
  fragmentLog : List PfaFragmentRecord
  totalFragmented : ℕ
  totalAssembled : ℕ
  totalDropped : ℕ
  fragmentCountSum : ℕ

namespace PfaReassemblyBuffer

def new (msgId : UInt64) (totalFragments nowTs : ℕ) : PfaReassemblyBuffer where
  msgId := msgId
  received := List.replicate totalFragments none
  totalFragments := totalFragments
  createdAt := nowTs
  lastUpdated := nowTs
  receivedCount := 0

def isComplete (b : PfaReassemblyBuffer) : Bool := b.receivedCount == b.totalFragments

end PfaReassemblyBuffer

namespace PacketFragmentationAssembler

def new (config : PfaAssemblerConfig) : PacketFragmentationAssembler where
  config := config
  buffers := ∅
  fragmentLog := []
  totalFragmented := 0
  totalAssembled := 0
  totalDropped := 0
  fragmentCountSum := 0

/-- The loop of `fragment`, with the number of fragments that are still to be made. -/
def fragmentLoop (config : PfaAssemblerConfig) (mtu : ℕ) (msgId : UInt64) (data : Bytes)
    (totalFragments : ℕ) : ℕ → ℕ → ℕ → List PfaFragment
  | 0, _, _ => []
  | n + 1, idx, offset =>
    let stop := min (offset + mtu) data.length
    let payload := (data.drop offset).take (stop - offset)
    let checksum := if config.checksumEnabled then fnv1a32 payload else 0
    ⟨msgId, idx, totalFragments, offset, payload, checksum⟩ ::
      fragmentLoop config mtu msgId data totalFragments n (idx + 1) stop

variable (a : PacketFragmentationAssembler)

def fragment (msgId : UInt64) (data : Bytes) :
    PacketFragmentationAssembler × Except String (List PfaFragment) :=
  if data.isEmpty then (a, .ok [])
  else
    let mtu := max a.config.mtu 1
    let totalFragments := (data.length ⌈/⌉ mtu) % 2 ^ 32
    if totalFragments > a.config.maxFragments then
      (a, .error s!"message requires {totalFragments} fragments but max_fragments is {
        a.config.maxFragments}")
    else
      ({ a with
          totalFragmented := a.totalFragmented + 1
          fragmentCountSum := a.fragmentCountSum + totalFragments },
        .ok (fragmentLoop a.config mtu msgId data totalFragments totalFragments 0 0))

def pushLog (record : PfaFragmentRecord) : PacketFragmentationAssembler :=
  let log := if a.fragmentLog.length ≥ 1000 then a.fragmentLog.tail else a.fragmentLog
  { a with fragmentLog := log ++ [record] }

def verifyChecksumStatic (fragment : PfaFragment) : Bool :=
  fnv1a32 fragment.data == fragment.checksum

/-- The slots of `assemble_buffer` from the position `idx` on. -/
def collectSlots : ℕ → List (Option PfaFragment) → Except String (List (ℕ × Bytes))
  | _, [] => .ok []
  | idx, slot :: slots =>
    match slot with
    | none => .error s!"missing fragment at slot {idx}"
    | some f => (collectSlots (idx + 1) slots).map ((f.fragmentIndex, f.data) :: ·)

def assembleBuffer (b : PfaReassemblyBuffer) : Except String Bytes := do
  let indexed ← collectSlots 0 b.received
  return (indexed.mergeSort fun x y => x.1 ≤ y.1).flatMap Prod.snd

/-- What `receive_fragment` does with a fragment that has passed the checks, in its buffer. -/
def storeFragment (buf : PfaReassemblyBuffer) (fragment : PfaFragment) (nowTs : ℕ) :
    PacketFragmentationAssembler × PfaReceiveResult :=
  let record : PfaFragmentRecord :=
    { ts := nowTs, msgId := fragment.msgId, fragmentIndex := fragment.fragmentIndex,
      isDup := false, assembled := false }
  let buf :=
    { buf with
        received := buf.received.set fragment.fragmentIndex (some fragment)
        receivedCount := buf.receivedCount + 1
        lastUpdated := nowTs }
  if buf.isComplete then
    let a := { a with buffers := a.buffers.erase fragment.msgId }
    match assembleBuffer buf with
    | .ok data =>
      (pushLog { a with totalAssembled := a.totalAssembled + 1 } { record with assembled := true },
        .assembled data)
    | .error e => (pushLog { a with totalDropped := a.totalDropped + 1 } record, .error e)
  else (pushLog { a with buffers := a.buffers.insert fragment.msgId buf } record, .buffered)

def receiveFragment (fragment : PfaFragment) (nowTs : ℕ) :
    PacketFragmentationAssembler × PfaReceiveResult :=
  let msgId := fragment.msgId
  let fragIdx := fragment.fragmentIndex
  let total := fragment.totalFragments
  let dropped := { a with totalDropped := a.totalDropped + 1 }
  if a.config.checksumEnabled && !verifyChecksumStatic fragment then
    (dropped.pushLog
        { ts := nowTs, msgId := msgId, fragmentIndex := fragIdx, isDup := false,
          assembled := false },
      .error s!"checksum mismatch for msg_id={msgId} fragment_index={fragIdx}")
  else if total = 0 then (dropped, .error "total_fragments must be > 0")
  else if fragIdx ≥ total then
    (dropped, .error s!"fragment_index {fragIdx} out of range (total={total})")
  else if total > a.config.maxFragments then
    (dropped, .error s!"total_fragments {total} exceeds max_fragments {a.config.maxFragments}")
  else
    let buf := (a.buffers.lookup msgId).getD (.new msgId total nowTs)
    -- a new buffer is in the map from here on
    let a := { a with buffers := a.buffers.insert msgId buf }
    let dropped := { a with totalDropped := a.totalDropped + 1 }
    if buf.totalFragments ≠ total then
      (dropped, .error s!"total_fragments mismatch: buffer expects {
        buf.totalFragments} but fragment says {total}")
    else
      match buf.received[fragIdx]? with
      | none =>
        (dropped, .error s!"fragment_index {fragIdx} out of buffer range {buf.received.length}")
      | some (some _) =>
        (a.pushLog
            { ts := nowTs, msgId := msgId, fragmentIndex := fragIdx, isDup := true,
              assembled := false },
          .duplicate)
      | some none => a.storeFragment buf fragment nowTs

/-! ### The fragments of a message -/

section Fragments

variable {config : PfaAssemblerConfig} {mtu : ℕ} {msgId : UInt64} {data : Bytes} {total : ℕ}

theorem length_fragmentLoop (n idx offset : ℕ) :
    (fragmentLoop config mtu msgId data total n idx offset).length = n := by
  induction n generalizing idx offset with
  | zero => rfl
  | succ n ih => rw [fragmentLoop, List.length_cons, ih]

/-- The fragments are numbered, and carry the checksums of their bytes. -/
theorem getElem?_fragmentLoop {n idx offset k : ℕ} {f : PfaFragment}
    (h : (fragmentLoop config mtu msgId data total n idx offset)[k]? = some f) :
    f.msgId = msgId ∧ f.fragmentIndex = idx + k ∧ f.totalFragments = total ∧
      (config.checksumEnabled = true → f.checksum = fnv1a32 f.data) := by
  induction n generalizing idx offset k with
  | zero => cases h
  | succ n ih =>
    rw [fragmentLoop] at h
    cases k with
    | zero =>
      rw [List.getElem?_cons_zero, Option.some_inj] at h
      subst h
      exact ⟨rfl, rfl, rfl, fun henabled => if_pos henabled⟩
    | succ k =>
      rw [List.getElem?_cons_succ] at h
      obtain ⟨hid, hindex, htotal, hchecksum⟩ := ih h
      exact ⟨hid, by rw [hindex]; omega, htotal, hchecksum⟩

/-- The fragments from an offset on are the bytes from there on. -/
theorem flatMap_fragmentLoop {n idx offset : ℕ} (hoffset : offset ≤ data.length) :
    (fragmentLoop config mtu msgId data total n idx offset).flatMap PfaFragment.data =
      (data.drop offset).take (n * mtu) := by
  induction n generalizing idx offset with
  | zero => rw [Nat.zero_mul, List.take_zero, fragmentLoop, List.flatMap_nil]
  | succ n ih =>
    rw [fragmentLoop, List.flatMap_cons, ih (min_le_right _ _), Nat.succ_mul,
      Nat.add_comm (n * mtu), List.take_add, List.drop_drop]
    show (data.drop offset).take (min (offset + mtu) data.length - offset) ++ _ = _
    -- the last fragment stops at the end of the message
    obtain hle | hlt := Nat.le_total (offset + mtu) data.length
    · rw [min_eq_left hle, Nat.add_sub_cancel_left]
    · rw [min_eq_right hlt, List.drop_of_length_le hlt, List.drop_length, List.take_nil,
        List.take_of_length_le (by rw [List.length_drop]),
        List.take_of_length_le (by rw [List.length_drop]; omega)]

/-- A message that some assembler has split. -/
structure SplitMessage where
  sender : PacketFragmentationAssembler
  msgId : UInt64
  data : Bytes
  fragments : List PfaFragment
  split : (sender.fragment msgId data).2 = .ok fragments
  small : data.length ⌈/⌉ max sender.config.mtu 1 < 2 ^ 32

variable {m : SplitMessage} {f : PfaFragment} {i : ℕ}

/-- **What splitting does**: the fragments come from the loop, with enough of them for the bytes. -/
theorem split_fragment (m : SplitMessage) :
    m.data = [] ∧ m.fragments = [] ∨
      ∃ mtu, m.data.length ≤ m.fragments.length * mtu ∧
        m.fragments = fragmentLoop m.sender.config mtu m.msgId m.data m.fragments.length
          m.fragments.length 0 0 := by
  have hsplit := m.split
  rw [fragment] at hsplit
  by_cases hempty : m.data.isEmpty = true
  · rw [if_pos hempty] at hsplit
    exact Or.inl ⟨List.isEmpty_iff.mp hempty, (Except.ok.inj hsplit).symm⟩
  · rw [if_neg hempty] at hsplit
    dsimp only at hsplit
    rw [Nat.mod_eq_of_lt m.small] at hsplit
    split at hsplit
    · cases hsplit
    · have hfragments := Except.ok.inj hsplit
      have hlength : m.fragments.length = m.data.length ⌈/⌉ max m.sender.config.mtu 1 := by
        rw [← hfragments, length_fragmentLoop]
      refine Or.inr ⟨max m.sender.config.mtu 1, ?_, ?_⟩
      · rw [hlength, Nat.mul_comm]
        exact le_smul_ceilDiv (lt_of_lt_of_le Nat.zero_lt_one (le_max_right _ _))
      · rw [hlength]
        exact hfragments.symm

theorem SplitMessage.spec (h : m.fragments[i]? = some f) :
    f.msgId = m.msgId ∧ f.fragmentIndex = i ∧ f.totalFragments = m.fragments.length ∧
      (m.sender.config.checksumEnabled = true → f.checksum = fnv1a32 f.data) := by
  obtain ⟨-, hnil⟩ | ⟨mtu, -, hloop⟩ := split_fragment m
  · rw [hnil] at h
    cases h
  · rw [hloop] at h
    have hspec := getElem?_fragmentLoop h
    rwa [Nat.zero_add] at hspec

/-- **The fragments of a message are its bytes.** -/
theorem SplitMessage.flatMap_data (m : SplitMessage) :
    m.fragments.flatMap PfaFragment.data = m.data := by
  obtain ⟨hdata, hnil⟩ | ⟨mtu, hle, hloop⟩ := split_fragment m
  · rw [hdata, hnil]
    rfl
  · rw [hloop, flatMap_fragmentLoop (Nat.zero_le _), List.drop_zero, List.take_of_length_le hle]

/-! ### What receiving a fragment can do -/

theorem assembleBuffer_eq {b : PfaReassemblyBuffer} (h : b.received = m.fragments.map some) :
    assembleBuffer b = .ok m.data := by
  have hcollect : ∀ (fs : List PfaFragment) (idx : ℕ), collectSlots idx (fs.map some) =
      .ok (fs.map fun f => (f.fragmentIndex, f.data)) := by
    intro fs
    induction fs with
    | nil => exact fun _ => rfl
    | cons f fs ih =>
      intro idx
      rw [List.map_cons, collectSlots, ih]
      rfl
  -- they are in the order of their indices already
  have hsorted : (m.fragments.map fun f => (f.fragmentIndex, f.data)).Pairwise
      fun x y => decide (x.1 ≤ y.1) = true := by
    rw [List.pairwise_map, List.pairwise_iff_getElem]
    intro i j hi hj hij
    have hindexi := (m.spec (List.getElem?_eq_getElem hi)).2.1
    have hindexj := (m.spec (List.getElem?_eq_getElem hj)).2.1
    rw [hindexi, hindexj]
    exact decide_eq_true hij.le
  rw [assembleBuffer, h, hcollect]
  show Except.ok (((m.fragments.map fun f => (f.fragmentIndex, f.data)).mergeSort
    fun x y => x.1 ≤ y.1).flatMap Prod.snd) = _
  rw [List.mergeSort_of_pairwise hsorted, List.flatMap_map]
  exact congrArg Except.ok m.flatMap_data

/-- A buffer for a message that lacks some fragments. -/
structure BufferFor (m : SplitMessage) (b : PfaReassemblyBuffer) : Prop where
  total : b.totalFragments = m.fragments.length
  length : b.received.length = m.fragments.length
  slots : ∀ (i : ℕ) (f : PfaFragment), b.received[i]? = some (some f) → m.fragments[i]? = some f
  count : b.receivedCount = Slots.filled b.received
  incomplete : b.receivedCount < b.totalFragments

/-- The fragment in a slot. -/
def slot (a : PacketFragmentationAssembler) (msgId : UInt64) (i : ℕ) : Option PfaFragment :=
  (a.buffers.lookup msgId).bind fun b => (b.received[i]?).join

variable {a : PacketFragmentationAssembler} {b : PfaReassemblyBuffer} {nowTs : ℕ}

@[simp] theorem pushLog_buffers (a : PacketFragmentationAssembler) (record : PfaFragmentRecord) :
    (a.pushLog record).buffers = a.buffers := rfl

theorem bufferFor_new (hf : m.fragments[i]? = some f) (nowTs : ℕ) :
    BufferFor m (.new m.msgId m.fragments.length nowTs) where
  total := rfl
  length := List.length_replicate
  slots := by
    intro j g hg
    have hnone := List.eq_of_mem_replicate (List.mem_of_getElem? hg)
    cases hnone
  count := (Slots.filled_replicate_none _).symm
  incomplete := lt_of_le_of_lt (Nat.zero_le i) (List.getElem?_eq_some_iff.mp hf).1

/-- The buffer that `receive_fragment` finds or makes. -/
def bufferOf (a : PacketFragmentationAssembler) (m : SplitMessage) (nowTs : ℕ) :
    PfaReassemblyBuffer :=
  (a.buffers.lookup m.msgId).getD (.new m.msgId m.fragments.length nowTs)

theorem bufferFor_bufferOf (hbuffer : ∀ b, a.buffers.lookup m.msgId = some b → BufferFor m b)
    (hf : m.fragments[i]? = some f) (nowTs : ℕ) : BufferFor m (a.bufferOf m nowTs) := by
  rw [bufferOf]
  cases hlookup : a.buffers.lookup m.msgId with
  | none => exact bufferFor_new hf nowTs
  | some b => exact hbuffer b hlookup

theorem slot_eq (a : PacketFragmentationAssembler) (m : SplitMessage) (nowTs j : ℕ) :
    a.slot m.msgId j = ((a.bufferOf m nowTs).received[j]?).join := by
  rw [slot, bufferOf]
  cases a.buffers.lookup m.msgId with
  | some b => rfl
  | none =>
    show none = ((List.replicate m.fragments.length (none : Option PfaFragment))[j]?).join
    rw [List.getElem?_replicate]
    split <;> rfl

theorem receiveFragment_eq (hbuffer : ∀ b, a.buffers.lookup m.msgId = some b → BufferFor m b)
    (hf : m.fragments[i]? = some f)
    (hchecksum : m.sender.config.checksumEnabled = a.config.checksumEnabled)
    (hlimit : m.fragments.length ≤ a.config.maxFragments) (nowTs : ℕ) :
    a.receiveFragment f nowTs =
      let a' := { a with buffers := a.buffers.insert m.msgId (a.bufferOf m nowTs) }
      match (a.bufferOf m nowTs).received[i]? with
      | none =>
        ({ a' with totalDropped := a'.totalDropped + 1 },
          .error s!"fragment_index {i} out of buffer range {
            (a.bufferOf m nowTs).received.length}")
      | some (some _) =>
        (a'.pushLog
            { ts := nowTs, msgId := m.msgId, fragmentIndex := i, isDup := true,
              assembled := false },
          .duplicate)
      | some none => a'.storeFragment (a.bufferOf m nowTs) f nowTs := by
  obtain ⟨hid, hindex, htotal, hsum⟩ := m.spec hf
  have hlt : i < m.fragments.length := (List.getElem?_eq_some_iff.mp hf).1
  -- the receiver looks at the checksum only when the sender has computed it
  have hvalid : ¬ (a.config.checksumEnabled && !verifyChecksumStatic f) = true := by
    rw [Bool.and_eq_true, not_and, ← hchecksum]
    intro henabled
    rw [verifyChecksumStatic, hsum henabled, beq_self_eq_true]
    exact Bool.false_ne_true
  have hmatch : ¬ (a.bufferOf m nowTs).totalFragments ≠ m.fragments.length :=
    not_not.mpr (bufferFor_bufferOf hbuffer hf nowTs).total
  rw [receiveFragment]
  dsimp only
  rw [if_neg hvalid, htotal, hindex, hid, if_neg (Nat.ne_of_gt (Nat.zero_lt_of_lt hlt)),
    if_neg (Nat.not_le_of_lt hlt), if_neg (Nat.not_lt_of_le hlimit)]
  exact if_neg hmatch

/-- The buffer with one more fragment. -/
def filledBuffer (b : PfaReassemblyBuffer) (i : ℕ) (f : PfaFragment) (nowTs : ℕ) :
    PfaReassemblyBuffer :=
  { b with
      received := b.received.set i (some f)
      receivedCount := b.receivedCount + 1
      lastUpdated := nowTs }

theorem storeFragment_of_incomplete
    (h : ¬ (filledBuffer b f.fragmentIndex f nowTs).isComplete = true) :
    a.storeFragment b f nowTs =
      (pushLog
        { a with
            buffers := a.buffers.insert f.msgId (filledBuffer b f.fragmentIndex f nowTs) }
        { ts := nowTs, msgId := f.msgId, fragmentIndex := f.fragmentIndex, isDup := false,
          assembled := false }, .buffered) :=
  if_neg h

theorem storeFragment_of_complete
    (h : (filledBuffer b f.fragmentIndex f nowTs).isComplete = true)
    (hdata : assembleBuffer (filledBuffer b f.fragmentIndex f nowTs) = .ok data) :
    (a.storeFragment b f nowTs).2 = .assembled data ∧
      (a.storeFragment b f nowTs).1.buffers = a.buffers.erase f.msgId := by
  have hstore : a.storeFragment b f nowTs =
      match assembleBuffer (filledBuffer b f.fragmentIndex f nowTs) with
      | .ok data => _
      | .error e => _ := if_pos h
  rw [hstore, hdata]
  exact ⟨rfl, rfl⟩

/-- Filling the slot of a fragment keeps what is said of a buffer, if another one is missing. -/
theorem BufferFor.fill (h : BufferFor m b) (hf : m.fragments[i]? = some f)
    (hslot : b.received[i]? = some none) (nowTs : ℕ)
    (hincomplete : b.receivedCount + 1 < b.totalFragments) :
    BufferFor m (filledBuffer b i f nowTs) where
  total := h.total
  length := List.length_set.trans h.length
  slots := by
    intro j g hg
    have hg : (b.received.set i (some f))[j]? = some (some g) := hg
    rw [List.getElem?_set] at hg
    by_cases hij : i = j
    · subst hij
      rw [if_pos rfl] at hg
      split at hg
      · cases hg
        exact hf
      · cases hg
    · rw [if_neg hij] at hg
      exact h.slots j g hg
  count := by
    show b.receivedCount + 1 = Slots.filled (b.received.set i (some f))
    rw [Slots.filled_set hslot, h.count]
  incomplete := hincomplete

/-- **The last slot**: once it is filled, the slots hold the fragments of the message. -/
theorem BufferFor.received_eq (h : BufferFor m b) (hf : m.fragments[i]? = some f)
    (hslot : b.received[i]? = some none) (hcomplete : b.receivedCount + 1 = b.totalFragments) :
    b.received.set i (some f) = m.fragments.map some := by
  have hlength : (b.received.set i (some f)).length = m.fragments.length :=
    List.length_set.trans h.length
  refine Slots.eq_map_some hlength (fun j g hg => ?_) ?_
  · rw [List.getElem?_set] at hg
    by_cases hij : i = j
    · subst hij
      rw [if_pos rfl] at hg
      split at hg
      · cases hg
        exact hf
      · cases hg
    · rw [if_neg hij] at hg
      exact h.slots j g hg
  · rw [← Slots.filled_eq_length_iff, Slots.filled_set hslot, ← h.count, hcomplete, h.total,
      hlength]

theorem exists_slot_eq_none {nowTs : ℕ}
    (hmore : BufferFor m (filledBuffer (a.bufferOf m nowTs) i f nowTs)) :
    ∃ j < m.fragments.length, j ≠ i ∧ a.slot m.msgId j = none := by
  by_contra hall
  have hfull : Slots.filled (filledBuffer (a.bufferOf m nowTs) i f nowTs).received =
      (filledBuffer (a.bufferOf m nowTs) i f nowTs).received.length := by
    rw [Slots.filled_eq_length_iff, hmore.length]
    intro j hj hnone
    have hnone : ((a.bufferOf m nowTs).received.set i (some f))[j]? = some none := hnone
    rw [List.getElem?_set] at hnone
    by_cases hij : i = j
    · rw [if_pos hij] at hnone
      split at hnone
      · cases hnone
      · cases hnone
    · rw [if_neg hij] at hnone
      exact hall ⟨j, hj, Ne.symm hij, by rw [slot_eq a m nowTs, hnone]; rfl⟩
  -- otherwise the counter would be at its end
  have hless := hmore.incomplete
  rw [hmore.count, hfull, hmore.length, hmore.total] at hless
  exact Nat.lt_irrefl _ hless

/-- **What receiving a fragment of a message can do.** -/
theorem receive_cases (hbuffer : ∀ b, a.buffers.lookup m.msgId = some b → BufferFor m b)
    (hf : m.fragments[i]? = some f)
    (hchecksum : m.sender.config.checksumEnabled = a.config.checksumEnabled)
    (hlimit : m.fragments.length ≤ a.config.maxFragments) (nowTs : ℕ) :
    (a.slot m.msgId i = some f ∧ (a.receiveFragment f nowTs).2 = .duplicate ∧
      (a.receiveFragment f nowTs).1.buffers.lookup m.msgId = a.buffers.lookup m.msgId) ∨
    (a.slot m.msgId i = none ∧ (∃ j < m.fragments.length, j ≠ i ∧ a.slot m.msgId j = none) ∧
      (a.receiveFragment f nowTs).2 = .buffered ∧
      (a.receiveFragment f nowTs).1.buffers.lookup m.msgId =
        some (filledBuffer (a.bufferOf m nowTs) i f nowTs) ∧
      BufferFor m (filledBuffer (a.bufferOf m nowTs) i f nowTs)) ∨
    (a.slot m.msgId i = none ∧ (∀ j < m.fragments.length, j ≠ i → a.slot m.msgId j ≠ none) ∧
      (a.receiveFragment f nowTs).2 = .assembled m.data ∧
      (a.receiveFragment f nowTs).1.buffers.lookup m.msgId = none) := by
  have hfor := bufferFor_bufferOf hbuffer hf nowTs
  have hlt : i < m.fragments.length := (List.getElem?_eq_some_iff.mp hf).1
  have hslots := slot_eq a m nowTs
  rw [receiveFragment_eq hbuffer hf hchecksum hlimit]
  cases hslot : (a.bufferOf m nowTs).received[i]? with
  | none =>
    -- the slots are as many as the fragments
    rw [List.getElem?_eq_none_iff, hfor.length] at hslot
    exact absurd hslot (Nat.not_le_of_lt hlt)
  | some held =>
    cases held with
    -- what the slot holds is the fragment itself, so this is a duplicate
    | some g =>
      left
      have hg : g = f := Option.some.inj ((hfor.slots i g hslot).symm.trans hf)
      refine ⟨by rw [hslots, hslot, hg]; rfl, rfl, ?_⟩
      dsimp only
      rw [pushLog_buffers, AList.lookup_insert, bufferOf]
      cases hlookup : a.buffers.lookup m.msgId with
      | some b => rfl
      | none =>
        -- a new buffer has no fragment
        rw [bufferOf, hlookup] at hslot
        exact absurd (List.eq_of_mem_replicate (List.mem_of_getElem? hslot)) (by simp)
    | none =>
      right
      have hempty : a.slot m.msgId i = none := by rw [hslots, hslot]; rfl
      have hid : f.msgId = m.msgId := (m.spec hf).1
      have hindex : f.fragmentIndex = i := (m.spec hf).2.1
      have hle : (a.bufferOf m nowTs).receivedCount + 1 ≤ (a.bufferOf m nowTs).totalFragments :=
        hfor.incomplete
      obtain hlt | heq := hle.lt_or_eq
      · left
        -- the counter says that there is more to come
        have hopen : ¬ (filledBuffer (a.bufferOf m nowTs) i f nowTs).isComplete = true := by
          rw [PfaReassemblyBuffer.isComplete, beq_iff_eq]
          exact Nat.ne_of_lt hlt
        have hmore := hfor.fill hf hslot nowTs hlt
        dsimp only
        rw [storeFragment_of_incomplete (by rwa [hindex]), hid, hindex]
        exact ⟨hempty, exists_slot_eq_none hmore, rfl, AList.lookup_insert _, hmore⟩
      · right
        -- the counter says that this was the last slot, and the slots say so too
        have hclosed : (filledBuffer (a.bufferOf m nowTs) i f nowTs).isComplete = true := by
          rw [PfaReassemblyBuffer.isComplete, beq_iff_eq]
          exact heq
        have hreceived := hfor.received_eq hf hslot heq
        obtain ⟨hresult, hbuffers⟩ := storeFragment_of_complete
          (a := { a with buffers := a.buffers.insert m.msgId (a.bufferOf m nowTs) })
          (by rwa [hindex]) (assembleBuffer_eq (m := m) (by rw [hindex]; exact hreceived))
        refine ⟨hempty, fun j hj hij hnone => ?_, hresult, ?_⟩
        · have hj' : ((a.bufferOf m nowTs).received.set i (some f))[j]? =
              (m.fragments.map some)[j]? := by rw [hreceived]
          rw [List.getElem?_set_ne (Ne.symm hij), List.getElem?_map,
            List.getElem?_eq_getElem hj] at hj'
          rw [hslots, hj'] at hnone
          cases hnone
        · dsimp only
          rw [hbuffers, hid]
          exact AList.lookup_erase _ _

theorem storeFragment_frame (a : PacketFragmentationAssembler) (b : PfaReassemblyBuffer)
    (f : PfaFragment) (nowTs : ℕ) :
    (a.storeFragment b f nowTs).1.config = a.config ∧
      ∀ id ≠ f.msgId, (a.storeFragment b f nowTs).1.buffers.lookup id = a.buffers.lookup id := by
  rw [storeFragment]
  dsimp only
  split
  · cases assembleBuffer _ with
    | ok data => exact ⟨rfl, fun id hid => AList.lookup_erase_ne hid⟩
    | error e => exact ⟨rfl, fun id hid => AList.lookup_erase_ne hid⟩
  · exact ⟨rfl, fun id hid => AList.lookup_insert_ne hid⟩

/-- Receiving a fragment touches the buffer of its message alone. -/
theorem receiveFragment_frame (a : PacketFragmentationAssembler) (f : PfaFragment) (nowTs : ℕ) :
    (a.receiveFragment f nowTs).1.config = a.config ∧
      ∀ id ≠ f.msgId, (a.receiveFragment f nowTs).1.buffers.lookup id = a.buffers.lookup id := by
  rw [receiveFragment]
  dsimp only
  split
  · exact ⟨rfl, fun _ _ => rfl⟩
  split
  · exact ⟨rfl, fun _ _ => rfl⟩
  split
  · exact ⟨rfl, fun _ _ => rfl⟩
  split
  · exact ⟨rfl, fun _ _ => rfl⟩
  -- the buffer is in the map
  split
  · exact ⟨rfl, fun id hid => AList.lookup_insert_ne hid⟩
  split
  · exact ⟨rfl, fun id hid => AList.lookup_insert_ne hid⟩
  · exact ⟨rfl, fun id hid => AList.lookup_insert_ne hid⟩
  · let buf := (a.buffers.lookup f.msgId).getD (.new f.msgId f.totalFragments nowTs)
    obtain ⟨hconfig, hbuffers⟩ := storeFragment_frame
      { a with buffers := a.buffers.insert f.msgId buf } buf f nowTs
    exact ⟨hconfig, fun id hid => (hbuffers id hid).trans (AList.lookup_insert_ne hid)⟩

end Fragments

/-! ### Deliveries -/

section Deliveries

variable {a : PacketFragmentationAssembler} {m : SplitMessage} {messages : List SplitMessage}
  {arrived : List PfaFragment} {f : PfaFragment} {i nowTs : ℕ}

/-- The assembler after the deliveries of a list, each with its time. -/
def receiveAll (a : PacketFragmentationAssembler) (deliveries : List (PfaFragment × ℕ)) :
    PacketFragmentationAssembler :=
  deliveries.foldl (fun a d => (a.receiveFragment d.1 d.2).1) a

/-- The invariant for one message: its buffer is never complete, and until all its fragments have
arrived, the ones that have are in their slots. -/
structure Collects (a : PacketFragmentationAssembler) (m : SplitMessage)
    (arrived : List PfaFragment) : Prop where
  buffer : ∀ b, a.buffers.lookup m.msgId = some b → BufferFor m b
  slots : ¬ m.fragments ⊆ arrived → ∀ (i : ℕ) (f : PfaFragment), m.fragments[i]? = some f →
    (f ∈ arrived ↔ a.slot m.msgId i = some f)

/-- The senders compute checksums as the receiver does, and the receiver takes messages of their
lengths. -/
structure Accepts (config : PfaAssemblerConfig) (m : SplitMessage) : Prop where
  checksum : m.sender.config.checksumEnabled = config.checksumEnabled
  limit : m.fragments.length ≤ config.maxFragments

/-- **What the assembler answers**, with the fragments that have arrived before: bytes are those of
the message, they come with the fragment that completes it, and not before. -/
def AnswersRight (m : SplitMessage) (arrived : List PfaFragment) (f : PfaFragment)
    (result : PfaReceiveResult) : Prop :=
  (¬ m.fragments ⊆ arrived → m.fragments ⊆ arrived ++ [f] → result = .assembled m.data) ∧
  (¬ m.fragments ⊆ arrived ++ [f] → result = .buffered ∨ result = .duplicate) ∧
  ∀ data, result = .assembled data → data = m.data

theorem collects_new (config : PfaAssemblerConfig) (m : SplitMessage) :
    Collects (new config) m [] where
  buffer := fun _ h => by cases h
  slots := fun _ _ _ _ => iff_of_false List.not_mem_nil (fun h => by cases h)

theorem fragment_injective {j : ℕ} {g : PfaFragment} (hf : m.fragments[i]? = some f)
    (hg : m.fragments[j]? = some g) : f = g ↔ i = j := by
  constructor
  · rintro rfl
    exact (m.spec hf).2.1.symm.trans (m.spec hg).2.1
  · rintro rfl
    exact Option.some.inj (hf.symm.trans hg)

/-- Something is still missing as long as a slot other than that of the fragment is empty. -/
theorem subset_concat_iff (h : Collects a m arrived) (hmissing : ¬ m.fragments ⊆ arrived)
    (hf : m.fragments[i]? = some f) :
    m.fragments ⊆ arrived ++ [f] ↔ ∀ j < m.fragments.length, j ≠ i → a.slot m.msgId j ≠ none := by
  have hslot : ∀ j, (hj : j < m.fragments.length) →
      (m.fragments[j] ∈ arrived ↔ a.slot m.msgId j = some m.fragments[j]) :=
    fun j hj => h.slots hmissing j _ (List.getElem?_eq_getElem hj)
  constructor
  · intro hall j hj hij hnone
    obtain hmem | hmem := List.mem_append.mp (hall (List.getElem_mem hj))
    · rw [(hslot j hj).mp hmem] at hnone
      cases hnone
    · have heq := (fragment_injective (List.getElem?_eq_getElem hj) hf).mp
        (List.mem_singleton.mp hmem)
      exact hij heq
  · intro hfull g hg
    obtain ⟨j, hj, rfl⟩ := List.getElem_of_mem hg
    by_cases hij : j = i
    · subst hij
      refine List.mem_append_right _ (List.mem_singleton.mpr ?_)
      exact Option.some.inj ((List.getElem?_eq_getElem hj).symm.trans hf)
    · refine List.mem_append_left _ ((hslot j hj).mpr ?_)
      -- a slot that is filled holds its own fragment
      obtain ⟨g, hslotg⟩ := Option.ne_none_iff_exists'.mp (hfull j hj hij)
      rw [hslotg]
      rw [slot] at hslotg
      obtain ⟨b, hb, hreceived⟩ := Option.bind_eq_some_iff.mp hslotg
      have hg := (h.buffer b hb).slots j g (Option.join_eq_some_iff.mp hreceived)
      rw [List.getElem?_eq_getElem hj] at hg
      exact hg.symm

theorem slot_filledBuffer {a' : PacketFragmentationAssembler} {b : PfaReassemblyBuffer}
    (hb : BufferFor m b) (hf : m.fragments[i]? = some f)
    (hlookup : a'.buffers.lookup m.msgId = some (filledBuffer b i f nowTs)) (j : ℕ) :
    a'.slot m.msgId j = if j = i then some f else (b.received[j]?).join := by
  have hlt : i < b.received.length := hb.length ▸ (List.getElem?_eq_some_iff.mp hf).1
  rw [slot, hlookup]
  show ((b.received.set i (some f))[j]?).join = _
  by_cases hij : j = i
  · subst hij
    rw [if_pos rfl, List.getElem?_set_self hlt]
    rfl
  · rw [if_neg hij, List.getElem?_set_ne (Ne.symm hij)]

/-- **A delivery of the message**: the answer is right, and the invariant is kept. -/
theorem Collects.receive (h : Collects a m arrived) (haccepts : Accepts a.config m)
    (hf : m.fragments[i]? = some f) (nowTs : ℕ) :
    AnswersRight m arrived f (a.receiveFragment f nowTs).2 ∧
      Collects (a.receiveFragment f nowTs).1 m (arrived ++ [f]) := by
  obtain hdup | hfill | hlast := receive_cases h.buffer hf haccepts.checksum haccepts.limit nowTs
  · -- the fragment has arrived before
    obtain ⟨hslot, hresult, hlookup⟩ := hdup
    have hsame : ∀ j, (a.receiveFragment f nowTs).1.slot m.msgId j = a.slot m.msgId j :=
      fun j => by rw [slot, hlookup, slot]
    have harrived : ¬ m.fragments ⊆ arrived → f ∈ arrived := fun hmissing =>
      (h.slots hmissing i f hf).mpr hslot
    have hsub : m.fragments ⊆ arrived ++ [f] → m.fragments ⊆ arrived := by
      intro hall
      by_contra hmissing
      refine hmissing fun g hg => (List.mem_append.mp (hall hg)).elim id fun heq => ?_
      rw [List.mem_singleton.mp heq]
      exact harrived hmissing
    refine ⟨⟨fun hmissing hall => absurd (hsub hall) hmissing, fun _ => Or.inr hresult,
      fun data hdata => ?_⟩, ⟨fun b hb => h.buffer b (hlookup ▸ hb), fun hmissing j g hg => ?_⟩⟩
    · rw [hresult] at hdata
      cases hdata
    · have hmissing' : ¬ m.fragments ⊆ arrived := fun hall =>
        hmissing (List.subset_append_of_subset_left _ hall)
      rw [hsame, ← h.slots hmissing' j g hg, List.mem_append, List.mem_singleton]
      exact or_iff_left_of_imp fun heq => heq ▸ harrived hmissing'
  · -- it fills a slot, and another one is empty
    obtain ⟨-, ⟨j, hj, hji, hnone⟩, hresult, hlookup, hfilled⟩ := hfill
    have hopen : ¬ m.fragments ⊆ arrived → ¬ m.fragments ⊆ arrived ++ [f] := by
      intro hmissing hall
      exact (subset_concat_iff h hmissing hf).mp hall j hj hji hnone
    refine ⟨⟨fun hmissing hall => absurd hall (hopen hmissing), fun _ => Or.inl hresult,
      fun data hdata => ?_⟩, ⟨fun b hb => ?_, fun hmissing k g hg => ?_⟩⟩
    · rw [hresult] at hdata
      cases hdata
    · rw [hlookup] at hb
      rw [← Option.some.inj hb]
      exact hfilled
    · have hmissing' : ¬ m.fragments ⊆ arrived := fun hall =>
        hmissing (List.subset_append_of_subset_left _ hall)
      rw [slot_filledBuffer (bufferFor_bufferOf h.buffer hf nowTs) hf hlookup, ← slot_eq,
        List.mem_append, List.mem_singleton, fragment_injective hg hf]
      by_cases hki : k = i
      · subst hki
        rw [if_pos rfl, Option.some.inj (hg.symm.trans hf)]
        exact iff_of_true (Or.inr rfl) rfl
      · rw [if_neg hki, or_iff_left hki]
        exact h.slots hmissing' k g hg
  · -- it fills the last slot
    obtain ⟨-, hfull, hresult, hlookup⟩ := hlast
    have hclosed : m.fragments ⊆ arrived ++ [f] := by
      by_cases hmissing : m.fragments ⊆ arrived
      · exact List.subset_append_of_subset_left _ hmissing
      · exact (subset_concat_iff h hmissing hf).mpr hfull
    refine ⟨⟨fun _ _ => hresult, fun hmissing => absurd hclosed hmissing, fun data hdata => ?_⟩,
      ⟨fun b hb => ?_, fun hmissing => absurd hclosed hmissing⟩⟩
    · rw [hresult] at hdata
      exact (PfaReceiveResult.assembled.inj hdata).symm
    · rw [hlookup] at hb
      cases hb

/-- A fragment of another message touches another buffer. -/
theorem Collects.receive_other (h : Collects a m arrived) (hid : m.msgId ≠ f.msgId) (nowTs : ℕ) :
    Collects (a.receiveFragment f nowTs).1 m (arrived ++ [f]) := by
  have hlookup := (receiveFragment_frame a f nowTs).2 m.msgId hid
  have hsame : ∀ j, (a.receiveFragment f nowTs).1.slot m.msgId j = a.slot m.msgId j :=
    fun j => by rw [slot, hlookup, slot]
  refine ⟨fun b hb => h.buffer b (hlookup ▸ hb), fun hmissing i g hg => ?_⟩
  have hmissing' : ¬ m.fragments ⊆ arrived := fun hall =>
    hmissing (List.subset_append_of_subset_left _ hall)
  -- the fragment carries the identifier of another message
  have hne : g ≠ f := by
    rintro rfl
    exact hid (m.spec hg).1.symm
  rw [hsame, ← h.slots hmissing' i g hg, List.mem_append, List.mem_singleton, or_iff_left hne]

theorem collects_receiveAll {config : PfaAssemblerConfig}
    (hids : (messages.map SplitMessage.msgId).Nodup) (haccepts : ∀ m ∈ messages, Accepts config m)
    (deliveries : List (PfaFragment × ℕ))
    (hdeliveries : ∀ d ∈ deliveries, ∃ m ∈ messages, d.1 ∈ m.fragments) :
    ((new config).receiveAll deliveries).config = config ∧
      ∀ m ∈ messages,
        Collects ((new config).receiveAll deliveries) m (deliveries.map Prod.fst) := by
  induction deliveries using List.reverseRecOn with
  | nil => exact ⟨rfl, fun m _ => collects_new config m⟩
  | append_singleton deliveries d ih =>
    obtain ⟨hconfig, hcollects⟩ := ih fun d' hd' =>
      hdeliveries d' (List.mem_append_left _ hd')
    obtain ⟨own, hown, hd⟩ := hdeliveries d (List.mem_append_right _ (List.mem_singleton_self d))
    obtain ⟨i, hi, hfragment⟩ := List.getElem_of_mem hd
    have hf : own.fragments[i]? = some d.1 := by rw [List.getElem?_eq_getElem hi, hfragment]
    have hstep : (new config).receiveAll (deliveries ++ [d]) =
        (((new config).receiveAll deliveries).receiveFragment d.1 d.2).1 :=
      List.foldl_append
    rw [hstep, List.map_append]
    refine ⟨(receiveFragment_frame _ _ _).1.trans hconfig, fun m hm => ?_⟩
    -- one message gets its fragment, and the others do not take part
    by_cases hsame : m = own
    · subst hsame
      exact ((hcollects m hm).receive (hconfig.symm ▸ haccepts m hm) hf d.2).2
    · refine (hcollects m hm).receive_other (fun hid => hsame ?_) d.2
      rw [(own.spec hf).1] at hid
      exact List.inj_on_of_nodup_map hids hm hown hid

/-- **Reassembly under any delivery.** -/
theorem reassembles (config : PfaAssemblerConfig) (messages : List SplitMessage)
    (hids : (messages.map SplitMessage.msgId).Nodup) (haccepts : ∀ m ∈ messages, Accepts config m)
    (before : List (PfaFragment × ℕ))
    (hbefore : ∀ d ∈ before, ∃ m ∈ messages, d.1 ∈ m.fragments)
    (m : SplitMessage) (hm : m ∈ messages) (f : PfaFragment) (hf : f ∈ m.fragments) (nowTs : ℕ) :
    AnswersRight m (before.map Prod.fst) f
      (((new config).receiveAll before).receiveFragment f nowTs).2 := by
  obtain ⟨i, hi, hfragment⟩ := List.getElem_of_mem hf
  have hslot : m.fragments[i]? = some f := by rw [List.getElem?_eq_getElem hi, hfragment]
  obtain ⟨hconfig, hcollects⟩ := collects_receiveAll hids haccepts before hbefore
  exact ((hcollects m hm).receive (hconfig.symm ▸ haccepts m hm) hslot nowTs).1

/-- A message of two bytes, cut into fragments of one byte. -/
def twoBytes : SplitMessage where
  sender := new ⟨1, 2, true⟩
  msgId := 1
  data := [7, 8]
  fragments := [⟨1, 0, 2, 0, [7], fnv1a32 [7]⟩, ⟨1, 1, 2, 1, [8], fnv1a32 [8]⟩]
  split := rfl
  small := by decide +kernel

theorem reassembles_twoBytes :
    let config : PfaAssemblerConfig := ⟨1400, 2, true⟩
    let first : PfaFragment := ⟨1, 0, 2, 0, [7], fnv1a32 [7]⟩
    let second : PfaFragment := ⟨1, 1, 2, 1, [8], fnv1a32 [8]⟩
    ([twoBytes].map SplitMessage.msgId).Nodup ∧ (∀ m ∈ [twoBytes], Accepts config m) ∧
      (∀ d ∈ [(second, 1), (second, 2)], ∃ m ∈ [twoBytes], d.1 ∈ m.fragments) ∧
      twoBytes ∈ [twoBytes] ∧ first ∈ twoBytes.fragments ∧
      AnswersRight twoBytes [second, second] first
        (((new config).receiveAll [(second, 1), (second, 2)]).receiveFragment first 3).2 := by
  intro config first second
  have hids : ([twoBytes].map SplitMessage.msgId).Nodup := List.nodup_singleton _
  have haccepts : ∀ m ∈ [twoBytes], Accepts config m := by
    rw [List.forall_mem_singleton]
    exact ⟨rfl, le_rfl⟩
  have hsecond : second ∈ twoBytes.fragments := List.mem_cons_of_mem _ List.mem_cons_self
  have hbefore : ∀ d ∈ [(second, 1), (second, 2)], ∃ m ∈ [twoBytes], d.1 ∈ m.fragments := by
    rw [List.forall_mem_cons, List.forall_mem_singleton]
    exact ⟨⟨twoBytes, List.mem_cons_self, hsecond⟩, ⟨twoBytes, List.mem_cons_self, hsecond⟩⟩
  have hfirst : first ∈ twoBytes.fragments := List.mem_cons_self
  exact ⟨hids, haccepts, hbefore, List.mem_cons_self, hfirst,
    reassembles config [twoBytes] hids haccepts [(second, 1), (second, 2)] hbefore twoBytes
      List.mem_cons_self first hfirst 3⟩

/-- **A receiver with a smaller limit refuses the message.** -/
theorem not_forall_reassembles :
    ¬ ∀ (config : PfaAssemblerConfig) (messages : List SplitMessage),
      (messages.map SplitMessage.msgId).Nodup →
        (∀ m ∈ messages, m.sender.config.checksumEnabled = config.checksumEnabled) →
          ∀ before : List (PfaFragment × ℕ),
            (∀ d ∈ before, ∃ m ∈ messages, d.1 ∈ m.fragments) →
              ∀ m ∈ messages, ∀ f ∈ m.fragments, ∀ nowTs : ℕ,
                AnswersRight m (before.map Prod.fst) f
                  (((new config).receiveAll before).receiveFragment f nowTs).2 := by
  intro h
  have hright := h ⟨1, 1, true⟩ [twoBytes] (List.nodup_singleton _)
    (List.forall_mem_singleton.mpr rfl) [] (List.forall_mem_nil _) twoBytes List.mem_cons_self
    ⟨1, 0, 2, 0, [7], fnv1a32 [7]⟩ List.mem_cons_self 1
  -- the second fragment has not arrived
  obtain hresult | hresult := hright.2.1 (by decide +kernel)
  · exact absurd hresult (by decide +kernel)
  · exact absurd hresult (by decide +kernel)

end Deliveries

end PacketFragmentationAssembler

end Ipfrs.Network
