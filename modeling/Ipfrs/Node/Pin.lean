import Mathlib.Data.List.AList
import Ipfrs.Core.CidReference

/-!
# The pin manager

Pinned blocks (`ipfrs/src/pin.rs`). The manager keeps three structures: the pins, the set of blocks
that are pinned indirectly, and for every recursive pin the set of blocks it keeps alive. A hash map
is an association list with distinct keys, whose order stands for the order of iteration; nothing
below depends on it.

What the three structures should say together is `PinManager.IndirectExact`: a block is pinned
indirectly when some recursive pin keeps it alive. `pin` can break this: pinning a recursive pin
again as a direct one forgets that it was recursive, and keeps what it had recorded. From then on
`unpin` does not look at the record, and what it holds is pinned for ever
(`PinManager.repin_leaves_indirect`).

* `PinManager.Inv.step` — every other operation keeps the three structures together.
* `PinManager.indirectExact_of_reachable` — so they agree in every state that is reached without
  such a step.
-/

namespace Ipfrs

inductive PinType where
  | direct
  | recursive
  deriving DecidableEq, Repr

/-- `PinInfo`. A `DateTime<Utc>` is its number of nanoseconds. -/
structure PinInfo where
  cid : Cid
  pinType : PinType
  name : Option String
  created : ℤ
  deriving DecidableEq

structure PinManager where
  pins : AList fun _ : Cid => PinInfo
  indirectPins : Finset Cid
  recursiveDeps : AList fun _ : Cid => Finset Cid

namespace PinManager

def new : PinManager := ⟨∅, ∅, ∅⟩

variable (m : PinManager)

/-- `PinManager::pin`, at time `now`. -/
def pin (cid : Cid) (pinType : PinType) (name : Option String) (now : ℤ) : PinManager :=
  -- an entry in `recursive_deps` stays, whatever the new type
  { m with pins := m.pins.insert cid ⟨cid, pinType, name, now⟩ }

/-- The recorded dependencies of a CID. -/
def depsOf (c : Cid) : Finset Cid := (m.recursiveDeps.lookup c).getD ∅

def addIndirect (rootCid indirectCid : Cid) : PinManager :=
  { m with
    indirectPins := insert indirectCid m.indirectPins
    recursiveDeps := m.recursiveDeps.insert rootCid (insert indirectCid (m.depsOf rootCid)) }

def addIndirectMany (rootCid : Cid) (indirectCids : List Cid) : PinManager :=
  { m with
    indirectPins := m.indirectPins ∪ indirectCids.toFinset
    recursiveDeps := m.recursiveDeps.insert rootCid (m.depsOf rootCid ∪ indirectCids.toFinset) }

/-- The test of `unpin`: a block is still needed when some recursive pin has it on record. -/
def stillNeeded (deps : AList fun _ : Cid => Finset Cid) (c : Cid) : Bool :=
  deps.entries.any fun e => c ∈ e.2

/-- `PinManager::unpin`. The flag is not used. -/
def unpin [CidText] (m : PinManager) (cid : Cid) (_recursive : Bool) : Except Error PinManager :=
  match m.pins.lookup cid with
  | some pinInfo =>
    let pins := m.pins.erase cid
    if pinInfo.pinType = .recursive then
      match m.recursiveDeps.lookup cid with
      | some indirectCids =>
        -- the record is removed before the others are asked
        let deps := m.recursiveDeps.erase cid
        .ok ⟨pins, m.indirectPins \ indirectCids.filter (stillNeeded deps · = false), deps⟩
      | none => .ok { m with pins }
    -- a record of a direct pin is left where it is
    else .ok { m with pins }
  | none => .error (.notFound ("Block not pinned: " ++ CidText.toString cid))

def clear (_ : PinManager) : PinManager := new

def isPinned (c : Cid) : Bool := c ∈ m.pins || c ∈ m.indirectPins

def list : List PinInfo := m.pins.entries.map Sigma.snd

def count : ℕ := m.pins.entries.length

def indirectCount : ℕ := m.indirectPins.card

/-! ### Runs -/

/-- The operations that change a pin manager. -/
inductive Op where
  | pin (cid : Cid) (pinType : PinType) (name : Option String) (now : ℤ)
  | addIndirect (rootCid indirectCid : Cid)
  | addIndirectMany (rootCid : Cid) (indirectCids : List Cid)
  | unpin (cid : Cid) (recursive : Bool)
  | clear

/-- One operation. A failed `unpin` changes nothing. -/
def step [CidText] (m : PinManager) : Op → PinManager
  | .pin cid pinType name now => m.pin cid pinType name now
  | .addIndirect rootCid indirectCid => m.addIndirect rootCid indirectCid
  | .addIndirectMany rootCid indirectCids => m.addIndirectMany rootCid indirectCids
  | .unpin cid recursive =>
    match m.unpin cid recursive with
    | .ok m' => m'
    | .error _ => m
  | .clear => m.clear

/-- `c` is pinned, and as a recursive pin. -/
def PinnedRecursive (c : Cid) : Prop :=
  ∃ info, m.pins.lookup c = some info ∧ info.pinType = .recursive

/-- How the callers use the manager: dependencies are added to recursive pins only, as `pin_add`
does. -/
def Allowed : Op → Prop
  | .addIndirect rootCid _ => m.PinnedRecursive rootCid
  | .addIndirectMany rootCid _ => m.PinnedRecursive rootCid
  | _ => True

/-- The states that operations accepted by `ok` lead to from the empty manager. -/
inductive Reachable [CidText] (ok : PinManager → Op → Prop) : PinManager → Prop where
  | new : Reachable ok .new
  | step {m : PinManager} (op : Op) : Reachable ok m → ok m op → Reachable ok (m.step op)

/-- A block is pinned indirectly exactly when a recursive pin has it on record. -/
def IndirectExact : Prop :=
  ∀ d, d ∈ m.indirectPins ↔ ∃ c, m.PinnedRecursive c ∧ d ∈ m.depsOf c

/-- The operation does not pin directly what has dependencies on record. -/
def NoDemotion : Op → Prop
  | .pin cid .direct _ _ => m.depsOf cid = ∅
  | _ => True

/-! ### The record of dependencies -/

variable {m m' : PinManager}
variable {r c : Cid} {s : Finset Cid} {recursive : Bool}

theorem depsOf_of_insert {m m' : PinManager} (h : m'.recursiveDeps = m.recursiveDeps.insert r s)
    (c : Cid) : m'.depsOf c = if c = r then s else m.depsOf c := by
  unfold depsOf
  rw [h]
  split
  · next hc => rw [hc, AList.lookup_insert, Option.getD_some]
  · next hc => rw [AList.lookup_insert_ne hc]

theorem depsOf_of_erase {m m' : PinManager} (h : m'.recursiveDeps = m.recursiveDeps.erase r)
    (c : Cid) : m'.depsOf c = if c = r then ∅ else m.depsOf c := by
  unfold depsOf
  rw [h]
  split
  · next hc => rw [hc, AList.lookup_erase, Option.getD_none]
  · next hc => rw [AList.lookup_erase_ne hc]

theorem stillNeeded_iff (m : PinManager) (d : Cid) :
    stillNeeded m.recursiveDeps d = true ↔ ∃ c, d ∈ m.depsOf c := by
  rw [stillNeeded, List.any_eq_true]
  constructor
  · -- an entry of the map is what its key looks up
    rintro ⟨⟨c, s⟩, hmem, hd⟩
    refine ⟨c, ?_⟩
    rw [depsOf, AList.mem_lookup_iff.mpr hmem]
    simpa using hd
  · rintro ⟨c, hd⟩
    unfold depsOf at hd
    cases hs : m.recursiveDeps.lookup c with
    | none => simp [hs] at hd
    | some s =>
      refine ⟨⟨c, s⟩, AList.mem_lookup_iff.mp hs, ?_⟩
      simpa [hs] using hd

/-- **What `unpin` does.** A direct pin is just removed. With a recursive pin goes its record, and
an indirect pin on that record stays only when it is on another one. -/
theorem unpin_eq_ok [CidText] (h : m.unpin c recursive = .ok m') :
    ∃ info, m.pins.lookup c = some info ∧ m'.pins = m.pins.erase c ∧
      (info.pinType = .direct → m'.indirectPins = m.indirectPins ∧
        m'.recursiveDeps = m.recursiveDeps) ∧
      (info.pinType = .recursive →
        (∀ c', m'.depsOf c' = if c' = c then ∅ else m.depsOf c') ∧
          ∀ d, d ∈ m'.indirectPins ↔
            d ∈ m.indirectPins ∧ (d ∈ m.depsOf c → ∃ c', d ∈ m'.depsOf c')) := by
  unfold unpin at h
  split at h
  · next info hinfo =>
    refine ⟨info, hinfo, ?_⟩
    split at h
    · next hrec =>
      split at h
      · -- a record goes, and what was on it stays only if it is on another
        next cids hcids =>
        obtain rfl := Except.ok.inj h
        refine ⟨rfl, fun hdir => absurd (hrec.symm.trans hdir) (by decide), fun _ => ?_⟩
        refine ⟨depsOf_of_erase rfl, fun d => ?_⟩
        rw [← stillNeeded_iff, Finset.mem_sdiff, Finset.mem_filter, depsOf, hcids]
        simp
      · -- without a record there is nothing to take back
        next hnone =>
        obtain rfl := Except.ok.inj h
        refine ⟨rfl, fun hdir => absurd (hrec.symm.trans hdir) (by decide), fun _ => ?_⟩
        have hempty : m.depsOf c = ∅ := by rw [depsOf, hnone, Option.getD_none]
        refine ⟨fun c' => ?_, fun d => ?_⟩
        · split
          · next hc => exact hc ▸ hempty
          · rfl
        · simp [hempty]
    · -- a direct pin: the record is not looked at
      next hdir =>
      obtain rfl := Except.ok.inj h
      exact ⟨rfl, fun _ => ⟨rfl, rfl⟩, fun hrec => absurd hrec hdir⟩
  · exact absurd h (by simp)

/-! ### The invariant -/

/-- The three structures agree: what is pinned indirectly is on some record, and only recursive pins
have anything on record. -/
structure Inv (m : PinManager) : Prop where
  indirect : ∀ d, d ∈ m.indirectPins ↔ ∃ c, d ∈ m.depsOf c
  recorded : ∀ c d, d ∈ m.depsOf c → m.PinnedRecursive c

theorem Inv.indirectExact (h : m.Inv) : m.IndirectExact := by
  intro d
  rw [h.indirect]
  constructor
  · rintro ⟨c, hd⟩
    exact ⟨c, h.recorded c d hd, hd⟩
  · rintro ⟨c, -, hd⟩
    exact ⟨c, hd⟩

theorem Inv.new : Inv .new where
  indirect d := by simp [PinManager.new, depsOf]
  recorded c d hd := by simp [PinManager.new, depsOf] at hd

/-- A pin changes no record; the pin itself stays recursive when it has one. -/
theorem Inv.pin (h : m.Inv) {t : PinType} (hdem : t = .direct → m.depsOf c = ∅)
    (name : Option String) (now : ℤ) : (m.pin c t name now).Inv where
  indirect := h.indirect
  recorded c' d hd := by
    by_cases hc : c' = c
    · subst hc
      refine ⟨_, AList.lookup_insert _, ?_⟩
      cases t with
      | direct =>
        -- pinned directly only with nothing on record
        have hempty : m.depsOf c' = ∅ := hdem rfl
        exact absurd (hempty ▸ hd : d ∈ (∅ : Finset Cid)) (Finset.notMem_empty d)
      | recursive => rfl
    · obtain ⟨info, hinfo, hrec⟩ := h.recorded c' d hd
      exact ⟨info, (AList.lookup_insert_ne hc).trans hinfo, hrec⟩

/-- Both ways of adding dependencies put the same blocks on the record and among the indirect
pins. -/
theorem Inv.of_insert (h : m.Inv) (hr : m.PinnedRecursive r) (hpins : m'.pins = m.pins)
    (hind : m'.indirectPins = m.indirectPins ∪ s)
    (hdeps : m'.recursiveDeps = m.recursiveDeps.insert r (m.depsOf r ∪ s)) : m'.Inv where
  indirect d := by
    rw [hind, Finset.mem_union, h.indirect]
    constructor
    · -- on an old record, or among the new dependencies
      rintro (⟨c, hd⟩ | hd)
      · refine ⟨c, ?_⟩
        rw [depsOf_of_insert hdeps]
        split
        · next hc => exact Finset.mem_union_left _ (hc ▸ hd)
        · exact hd
      · exact ⟨r, by rw [depsOf_of_insert hdeps, if_pos rfl]; exact Finset.mem_union_right _ hd⟩
    · rintro ⟨c, hd⟩
      rw [depsOf_of_insert hdeps] at hd
      split at hd
      · exact (Finset.mem_union.mp hd).imp_left fun hd => ⟨r, hd⟩
      · exact Or.inl ⟨c, hd⟩
  recorded c d hd := by
    -- the pins are the same
    have hsame : ∀ c, m.PinnedRecursive c → m'.PinnedRecursive c := by
      rintro c ⟨info, hinfo, hrec⟩
      exact ⟨info, by rw [hpins, hinfo], hrec⟩
    rw [depsOf_of_insert hdeps] at hd
    split at hd
    · next hc => exact hsame c (hc ▸ hr)
    · exact hsame c (h.recorded c d hd)

theorem Inv.unpin [CidText] (h : m.Inv) (hu : m.unpin c recursive = .ok m') : m'.Inv := by
  obtain ⟨info, hinfo, hpins, hdir, hrec⟩ := unpin_eq_ok hu
  -- a pin other than `c` is not touched
  have hother : ∀ c', c' ≠ c → m.PinnedRecursive c' → m'.PinnedRecursive c' := by
    rintro c' hc' ⟨info', hinfo', hrec'⟩
    exact ⟨info', by rw [hpins, AList.lookup_erase_ne hc', hinfo'], hrec'⟩
  cases ht : info.pinType with
  | direct =>
    obtain ⟨hind, hdeps⟩ := hdir ht
    have hdepsOf : ∀ c', m'.depsOf c' = m.depsOf c' := fun c' => by rw [depsOf, depsOf, hdeps]
    refine ⟨fun d => ?_, fun c' d hd => ?_⟩
    · rw [hind, h.indirect]
      exact exists_congr fun c' => by rw [hdepsOf]
    · rw [hdepsOf] at hd
      obtain ⟨info', hinfo', hrec'⟩ := h.recorded c' d hd
      refine hother c' ?_ ⟨info', hinfo', hrec'⟩
      rintro rfl
      -- a direct pin has nothing on record
      obtain rfl := Option.some.inj (hinfo.symm.trans hinfo')
      exact absurd (ht.symm.trans hrec') (by decide)
  | recursive =>
    obtain ⟨hdepsOf, hind⟩ := hrec ht
    refine ⟨fun d => ?_, fun c' d hd => ?_⟩
    · rw [hind, h.indirect]
      constructor
      · -- on the record that goes it stays only if it is needed
        rintro ⟨⟨c', hd⟩, hneeded⟩
        by_cases hc : c' = c
        · exact hneeded (hc ▸ hd)
        · exact ⟨c', by rw [hdepsOf, if_neg hc]; exact hd⟩
      · rintro ⟨c', hd⟩
        refine ⟨⟨c', ?_⟩, fun _ => ⟨c', hd⟩⟩
        rw [hdepsOf] at hd
        split at hd
        · exact absurd hd (Finset.notMem_empty d)
        · exact hd
    · -- the records that are left belong to other pins
      rw [hdepsOf] at hd
      split at hd
      · exact absurd hd (Finset.notMem_empty d)
      · next hc => exact hother c' hc (h.recorded c' d hd)

/-- **One operation keeps the invariant**, unless it pins directly what has dependencies. -/
theorem Inv.step [CidText] (h : m.Inv) {op : Op} (hok : m.Allowed op) (hdem : m.NoDemotion op) :
    (m.step op).Inv := by
  cases op with
  | pin c t name now =>
    -- a direct pin needs an empty record
    refine h.pin (fun ht => ?_) name now
    subst ht
    exact hdem
  | addIndirect r d =>
    have hadd : ∀ s : Finset Cid, insert d s = s ∪ {d} := fun s => by
      rw [Finset.insert_eq, Finset.union_comm]
    refine h.of_insert (s := {d}) hok rfl (hadd _) ?_
    rw [← hadd]
    rfl
  | addIndirectMany r ds => exact h.of_insert hok rfl rfl rfl
  | unpin c recursive =>
    -- a call that fails changes nothing
    rw [PinManager.step]
    split
    · next hu => exact h.unpin hu
    · exact h
  | clear => exact Inv.new

/-- **Pin bookkeeping.** In every state reached without pinning directly what has dependencies on
record, a block is pinned indirectly exactly when it is on the record of a recursive pin; with no
pins left, no block is. -/
theorem indirectExact_of_reachable [CidText]
    (hm : Reachable (fun m op => m.Allowed op ∧ m.NoDemotion op) m) :
    m.IndirectExact ∧ (m.count = 0 → m.indirectCount = 0) := by
  have hI : m.Inv := by
    induction hm with
    | new => exact Inv.new
    | step op _ hok ih => exact ih.step hok.1 hok.2
  refine ⟨hI.indirectExact, fun hzero => ?_⟩
  rw [indirectCount, Finset.card_eq_zero, Finset.eq_empty_iff_forall_notMem]
  intro d hd
  -- an indirect pin needs a recursive one, and there is none
  obtain ⟨c, ⟨info, hinfo, -⟩, -⟩ := (hI.indirectExact d).mp hd
  have hmem := AList.mem_lookup_iff.mp hinfo
  rw [List.length_eq_zero_iff.mp hzero] at hmem
  exact absurd hmem List.not_mem_nil

section Sample

open scoped CidReference

/-- A CID to pin. -/
def sampleRoot : Cid := Cid.newV1 Codec.raw ⟨0x12, List.replicate 32 1, by decide⟩

/-- A CID that `sampleRoot` links to. -/
def sampleDep : Cid := Cid.newV1 Codec.raw ⟨0x12, List.replicate 32 2, by decide⟩

/-- The manager with one recursive pin and its dependency. -/
def samplePinned : PinManager :=
  (new.step (.pin sampleRoot .recursive none 0)).step (.addIndirect sampleRoot sampleDep)

theorem indirectExact_samplePinned :
    samplePinned.indirectCount = 1 ∧ samplePinned.IndirectExact := by
  refine ⟨by decide +kernel, (indirectExact_of_reachable ?_).1⟩
  have hpin : (new.pin sampleRoot .recursive none 0).PinnedRecursive sampleRoot :=
    ⟨_, AList.lookup_insert _, rfl⟩
  exact (Reachable.new.step _ ⟨trivial, trivial⟩).step _ ⟨hpin, trivial⟩

/-- Pinned recursively, pinned again directly, and unpinned: no pin is left, and the dependency is
still pinned. -/
theorem repin_leaves_indirect :
    ¬ ∀ m, Reachable Allowed m → m.IndirectExact ∧ (m.count = 0 → m.indirectCount = 0) := by
  intro hall
  have hpin : (new.pin sampleRoot .recursive none 0).PinnedRecursive sampleRoot :=
    ⟨_, AList.lookup_insert _, rfl⟩
  have hreach : Reachable Allowed ((samplePinned.step (.pin sampleRoot .direct none 1)).step
      (.unpin sampleRoot false)) :=
    (((Reachable.new.step _ trivial).step _ hpin).step _ trivial).step _ trivial
  -- no pin is left, yet one indirect pin is
  have hzero := (hall _ hreach).2 (by decide +kernel)
  exact absurd hzero (by decide +kernel)

end Sample

end PinManager

end Ipfrs
