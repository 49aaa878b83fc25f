import Ipfrs.Lib.WhileLoop
import Ipfrs.Node.DagOps

/-!
# Pinning through the node, and the pin file

`Node::pin_add` and `Node::pin_rm` (`ipfrs/src/node/pin_ops.rs`), and the saving and loading of pins
(`PinManager::save`, `PinManager::load` in `ipfrs/src/pin.rs`).

A recursive pin walks the DAG below its root and marks what it finds as pinned indirectly. The pin
file holds the pins alone, and `load` does not walk again, so indirect pins do not survive it:
`isPinned_load_save_iff` says that `is_pinned` answers the same after a restart exactly when every
indirect pin is also a pin of its own. A file with an entry that cannot be read is an error, but the
old pins are gone by then (`load_intact_iff`).

The file is encoded by the `oxicode` crate, which is a parameter here (`OxicodeCrate`). What reading
the file gives is the argument of `loadFile`, its contents that of `load`, and the contents to be
written are the result of `save`.
-/

namespace Ipfrs

/-! ### Pinning through the node -/

namespace Node

variable {S : Type} [BlockStore S] [CidCrate]

/-- One round of the loop of `mark_recursive_pins`, on `to_visit` (the top of the stack first),
`visited` and the pin manager. The loop leaves with the pin manager and a result. -/
def markStep (s : S) (root : Cid) :
    List Cid × Finset Cid × PinManager →
      (List Cid × Finset Cid × PinManager) ⊕ (PinManager × Except Error Unit)
  | ([], _, m) => .inr (m, .ok ())
  | (cid :: toVisit, visited, m) =>
    if cid ∈ visited then .inl (toVisit, visited, m)
    else
      match BlockStore.get s cid with
      | .error e => .inr (m, .error e)
      -- a block that is not there is passed over
      | .ok none => .inl (toVisit, insert cid visited, m)
      | .ok (some block) =>
        match Ipld.fromDagCbor block.data with
        | .error _ => .inl (toVisit, insert cid visited, m)
        -- every link is recorded for the root, and pushed, visited or not
        | .ok ipld =>
          .inl (ipld.links.reverse ++ toVisit, insert cid visited,
            ipld.links.foldl (fun m link => m.addIndirect root link) m)

variable [CidText]

/-- `Node::pin_add`, with at most `fuel` rounds of the marking loop. The pin manager may have
changed even when the call fails. -/
def pinAdd (fuel : ℕ) (n : Node S) (cid : Cid) (recursive : Bool) (name : Option String)
    (now : ℤ) : Option (Node S × Except Error Unit) :=
  match n.getStorage with
  | .error e => some (n, .error e)
  | .ok s =>
    match BlockStore.has s cid with
    | .error e => some (n, .error e)
    | .ok false => some (n, .error (.notFound (CidText.toString cid)))
    | .ok true =>
      let pinType := if recursive then PinType.recursive else PinType.direct
      -- the pin is set first, so it stays when the walk fails
      let m := n.pinManager.pin cid pinType name now
      if recursive then
        (WhileLoop.run (markStep s cid) fuel ([cid], ∅, m)).map fun (m', r) =>
          ({ n with pinManager := m' }, r)
      else some ({ n with pinManager := m }, .ok ())

omit [BlockStore S] [CidCrate] in
def pinRm (n : Node S) (cid : Cid) (recursive : Bool) : Node S × Except Error Unit :=
  match n.pinManager.unpin cid recursive with
  | .ok m => ({ n with pinManager := m }, .ok ())
  | .error e => (n, .error e)

/-- The pin managers that `pin_add` and `pin_rm` lead to. Between two calls the store may change in
any way, and a call may fail. -/
inductive PinReachable (S : Type) [BlockStore S] : PinManager → Prop where
  | new : PinReachable S .new
  | pinAdd {n n' : Node S} {fuel : ℕ} {cid : Cid} {recursive : Bool} {name : Option String}
      {now : ℤ} {r : Except Error Unit} : PinReachable S n.pinManager →
        n.pinAdd fuel cid recursive name now = some (n', r) → PinReachable S n'.pinManager
  | pinRm {n : Node S} {cid : Cid} {recursive : Bool} : PinReachable S n.pinManager →
      PinReachable S (n.pinRm cid recursive).1.pinManager

end Node

/-! ### The pin file -/

structure PinInfoSerde where
  cidStr : String
  pinType : PinType
  name : Option String
  created : ℤ
  deriving DecidableEq

/-- The `oxicode` crate on lists of pins: `encode_to_vec`, and `decode_owned_from_slice`, which also
returns the number of bytes it has read. -/
class OxicodeCrate where
  encode : List PinInfoSerde → Except String Bytes
  decode : Bytes → Except String (List PinInfoSerde × ℕ)

/-- What has been encoded decodes to itself. -/
class LawfulOxicode [OxicodeCrate] : Prop where
  decode_encode : ∀ {l data}, OxicodeCrate.encode l = .ok data →
    ∃ n, OxicodeCrate.decode data = .ok (l, n)

section File

variable [CidText]

/-- `PinInfoSerde::from`. -/
def PinInfoSerde.ofPinInfo (pin : PinInfo) : PinInfoSerde :=
  ⟨CidText.toString pin.cid, pin.pinType, pin.name, pin.created⟩

def PinInfoSerde.intoPinInfo (p : PinInfoSerde) : Except Error PinInfo :=
  match CidText.fromStr p.cidStr with
  | .ok cid => .ok ⟨cid, p.pinType, p.name, p.created⟩
  | .error e => .error (.serialization ("Invalid CID in stored pin: " ++ e))

namespace PinManager

/-- `PinManager::save`: the contents of the file. -/
def save [OxicodeCrate] (m : PinManager) : Except Error Bytes :=
  (OxicodeCrate.encode (m.list.map PinInfoSerde.ofPinInfo)).mapError fun e =>
    .serialization ("Failed to serialize pins: " ++ e)

/-- The loop of `load` over the stored pins. A pin that cannot be read ends it, and what has been
inserted stays. -/
def loadPins (pins : AList fun _ : Cid => PinInfo) :
    List PinInfoSerde → (AList fun _ : Cid => PinInfo) × Except Error Unit
  | [] => (pins, .ok ())
  | p :: ps =>
    match p.intoPinInfo with
    | .ok info => loadPins (pins.insert info.cid info) ps
    | .error e => (pins, .error e)

/-- `PinManager::load` of a file with contents `data`. -/
def load [OxicodeCrate] (m : PinManager) (data : Bytes) : PinManager × Except Error Unit :=
  match OxicodeCrate.decode data with
  | .error e => (m, .error (.serialization ("Failed to deserialize pins: " ++ e)))
  | .ok (pinList, _) =>
    -- `pins.clear()` comes after the decoding, so a file that does not decode changes nothing
    let (pins, r) := loadPins ∅ pinList
    ({ m with pins }, r)

/-- `PinManager::load` of a path, with what reading the file gives. -/
def loadFile [OxicodeCrate] (m : PinManager) (file : Except Error Bytes) :
    PinManager × Except Error Unit :=
  match file with
  | .error e => (m, .error e)
  | .ok data => m.load data

end PinManager

end File

/-! ### Pins are kept under their own CID -/

/-- Every pin is kept under its own CID. -/
def PinManager.Keyed (m : PinManager) : Prop :=
  ∀ c info, m.pins.lookup c = some info → info.cid = c

namespace PinManager

variable {m : PinManager}

theorem Keyed.pin (h : m.Keyed) (c : Cid) (t : PinType) (name : Option String) (now : ℤ) :
    (m.pin c t name now).Keyed := by
  intro c' info hinfo
  by_cases hc : c' = c
  · subst hc
    obtain rfl := Option.some.inj ((AList.lookup_insert _).symm.trans hinfo)
    rfl
  · exact h c' info ((AList.lookup_insert_ne hc).symm.trans hinfo)

theorem Keyed.unpin [CidText] (h : m.Keyed) {c : Cid} {recursive : Bool} {m' : PinManager}
    (hu : m.unpin c recursive = .ok m') : m'.Keyed := by
  obtain ⟨-, -, hpins, -⟩ := unpin_eq_ok hu
  intro c' info hinfo
  rw [hpins] at hinfo
  by_cases hc : c' = c
  · subst hc
    rw [AList.lookup_erase] at hinfo
    exact absurd hinfo (by simp)
  · exact h c' info ((AList.lookup_erase_ne hc).symm.trans hinfo)

/-- With pins under their own CIDs, the list of pins names the same CIDs as the map. -/
theorem Keyed.mem_list_iff (h : m.Keyed) (c : Cid) :
    (∃ info ∈ m.list, info.cid = c) ↔ c ∈ m.pins := by
  rw [AList.mem_keys, AList.keys, List.keys, list]
  constructor
  · rintro ⟨info, hinfo, rfl⟩
    obtain ⟨⟨c, i⟩, he, rfl⟩ := List.mem_map.mp hinfo
    have hc : i.cid = c := h c i (AList.mem_lookup_iff.mpr he)
    exact List.mem_map.mpr ⟨⟨c, i⟩, he, hc.symm⟩
  · intro hc
    obtain ⟨⟨c, i⟩, he, rfl⟩ := List.mem_map.mp hc
    exact ⟨i, List.mem_map.mpr ⟨⟨c, i⟩, he, rfl⟩, h c i (AList.mem_lookup_iff.mpr he)⟩

end PinManager

namespace Node

variable {S : Type} [BlockStore S] [CidCrate]

omit [BlockStore S] [CidCrate] in
theorem foldl_addIndirect_pins (root : Cid) (links : List Cid) (m : PinManager) :
    (links.foldl (fun m link => m.addIndirect root link) m).pins = m.pins := by
  induction links generalizing m with
  | nil => rfl
  | cons link links ih => exact ih _

variable {s : S} {root : Cid} {fuel : ℕ} {r : Except Error Unit}

/-- One round of the marking loop does not touch the pins, whether it goes on or ends the loop. -/
theorem markStep_pins (st : List Cid × Finset Cid × PinManager) :
    Sum.elim (fun st' => st'.2.2.pins = st.2.2.pins) (fun r => r.1.pins = st.2.2.pins)
      (markStep s root st) := by
  obtain ⟨_ | ⟨c, toVisit⟩, visited, m⟩ := st
  · -- nothing is left to visit
    rfl
  simp only [markStep]
  split
  · -- visited before
    rfl
  split
  · -- the store fails, and so does the loop
    rfl
  · -- the block is not there
    rfl
  · -- the links of the block become dependencies, if it has any
    split
    · rfl
    · exact foldl_addIndirect_pins root _ m

theorem run_markStep_pins {st : List Cid × Finset Cid × PinManager} {m' : PinManager}
    (h : WhileLoop.run (markStep s root) fuel st = some (m', r)) : m'.pins = st.2.2.pins := by
  refine WhileLoop.run_elim (fun st' => st'.2.2.pins = st.2.2.pins)
    (fun r => r.1.pins = st.2.2.pins) (fun st' hI => ?_) rfl h
  rw [← hI]
  exact markStep_pins st'

variable [CidText]

theorem pinAdd_pins {n n' : Node S} {cid : Cid} {recursive : Bool} {name : Option String} {now : ℤ}
    (h : n.pinAdd fuel cid recursive name now = some (n', r)) :
    n'.pinManager.pins = n.pinManager.pins ∨
      ∃ t, n'.pinManager.pins = (n.pinManager.pin cid t name now).pins := by
  unfold pinAdd at h
  -- the calls that fail before the pin is set change nothing
  split at h
  · obtain ⟨rfl, -⟩ := Prod.mk.inj (Option.some.inj h)
    exact Or.inl rfl
  · split at h
    · obtain ⟨rfl, -⟩ := Prod.mk.inj (Option.some.inj h)
      exact Or.inl rfl
    · obtain ⟨rfl, -⟩ := Prod.mk.inj (Option.some.inj h)
      exact Or.inl rfl
    · dsimp only at h
      split at h
      · -- a recursive pin: one `pin`, then the marking loop
        obtain ⟨⟨m', r'⟩, hrun, h⟩ := Option.map_eq_some_iff.mp h
        obtain ⟨rfl, -⟩ := Prod.mk.inj h
        exact Or.inr ⟨_, run_markStep_pins hrun⟩
      · obtain ⟨rfl, -⟩ := Prod.mk.inj (Option.some.inj h)
        exact Or.inr ⟨_, rfl⟩

/-- **In every reachable state, every pin is kept under its own CID.** -/
theorem PinReachable.keyed {m : PinManager} (h : PinReachable S m) : m.Keyed := by
  induction h with
  | new => exact fun c info hinfo => absurd hinfo (by simp [PinManager.new])
  | pinAdd _ hadd ih =>
    rcases pinAdd_pins hadd with hpins | ⟨t, hpins⟩
    · unfold PinManager.Keyed
      rw [hpins]
      exact ih
    · unfold PinManager.Keyed
      rw [hpins]
      exact ih.pin _ t _ _
  | @pinRm n cid recursive _ ih =>
    unfold Node.pinRm
    split
    · next m hu => exact ih.unpin hu
    · exact ih

end Node

/-! ### What survives a restart -/

namespace PinManager

section Restart

variable [CidText]

theorem loadPins_eq (l : List PinInfo)
    (htext : ∀ info ∈ l, CidText.fromStr (CidText.toString info.cid) = .ok info.cid)
    (pins : AList fun _ : Cid => PinInfo) :
    loadPins pins (l.map PinInfoSerde.ofPinInfo)
      = (l.foldl (fun pins info => pins.insert info.cid info) pins, .ok ()) := by
  induction l generalizing pins with
  | nil => rfl
  | cons info l ih =>
    -- the CID string is read back, and the other fields are stored as they are
    have hread : (PinInfoSerde.ofPinInfo info).intoPinInfo = .ok info := by
      simp only [PinInfoSerde.intoPinInfo, PinInfoSerde.ofPinInfo, htext info List.mem_cons_self]
    rw [List.map_cons, loadPins, hread, List.foldl_cons]
    exact ih (fun i hi => htext i (List.mem_cons_of_mem _ hi)) _

omit [CidText] in
theorem mem_foldl_insert_iff (l : List PinInfo) (pins : AList fun _ : Cid => PinInfo) (c : Cid) :
    c ∈ l.foldl (fun pins info => pins.insert info.cid info) pins ↔
      c ∈ pins ∨ ∃ info ∈ l, info.cid = c := by
  induction l generalizing pins with
  | nil => simp
  | cons info l ih =>
    have hcons : (∃ i ∈ info :: l, i.cid = c) ↔ c = info.cid ∨ ∃ i ∈ l, i.cid = c := by
      simp [eq_comm]
    rw [List.foldl_cons, ih, AList.mem_insert, hcons, or_assoc, or_left_comm]

/-- **Pin persistence.** Saving the pins and loading the file into a fresh manager succeeds, and
leaves every answer of `is_pinned` as it was if and only if every indirectly pinned CID is also
pinned itself. -/
theorem isPinned_load_save_iff {S : Type} [BlockStore S] [CidCrate] [OxicodeCrate] [LawfulOxicode]
    {m : PinManager} (hm : Node.PinReachable S m)
    (htext : ∀ c ∈ m.pins, CidText.fromStr (CidText.toString c) = .ok c)
    {data : Bytes} (hsave : m.save = .ok data) :
    ((new.load data).2 = .ok () ∧ ∀ c, (new.load data).1.isPinned c = m.isPinned c) ↔
      ∀ c ∈ m.indirectPins, c ∈ m.pins := by
  have hkeyed := hm.keyed
  -- the file decodes to the pins that were written
  obtain ⟨k, hdecode⟩ : ∃ k, OxicodeCrate.decode data
      = .ok (m.list.map PinInfoSerde.ofPinInfo, k) := by
    refine LawfulOxicode.decode_encode ?_
    unfold save at hsave
    cases henc : OxicodeCrate.encode (m.list.map PinInfoSerde.ofPinInfo) with
    | error e => simp [henc, Except.mapError] at hsave
    | ok d => simpa [henc, Except.mapError] using hsave
  have hread : ∀ info ∈ m.list, CidText.fromStr (CidText.toString info.cid) = .ok info.cid :=
    fun info hinfo => htext _ ((hkeyed.mem_list_iff _).mp ⟨info, hinfo, rfl⟩)
  have hload : new.load data = ({ new with
      pins := m.list.foldl (fun pins info => pins.insert info.cid info) ∅ }, .ok ()) := by
    simp only [load, hdecode, loadPins_eq _ hread]
  -- after the restart, what is pinned is what the file had
  have hpinned : ∀ c, (new.load data).1.isPinned c = true ↔ c ∈ m.pins := by
    intro c
    rw [hload, isPinned, Bool.or_eq_true, decide_eq_true_iff, decide_eq_true_iff]
    rw [mem_foldl_insert_iff, hkeyed.mem_list_iff]
    simp [new]
  have hbefore : ∀ c, m.isPinned c = true ↔ c ∈ m.pins ∨ c ∈ m.indirectPins := by
    intro c
    rw [isPinned, Bool.or_eq_true, decide_eq_true_iff, decide_eq_true_iff]
  constructor
  · -- an indirect pin that is still pinned after the restart was in the file
    rintro ⟨-, hsame⟩ c hc
    exact (hpinned c).mp ((hsame c).trans ((hbefore c).mpr (Or.inr hc)))
  · intro hall
    refine ⟨by rw [hload], fun c => ?_⟩
    rw [Bool.eq_iff_iff, hpinned, hbefore]
    exact ⟨Or.inl, fun h => h.elim id (hall c)⟩

end Restart

/-! ### Files that cannot be loaded -/

section Failing

variable [CidText]

/-- The list has an entry that cannot be read, and `infos` are the pins that come before it. -/
def BadAfter (l : List PinInfoSerde) (infos : List PinInfo) : Prop :=
  ∃ good bad rest e, l = good ++ bad :: rest ∧ good.mapM PinInfoSerde.intoPinInfo = .ok infos ∧
    bad.intoPinInfo = .error e

theorem loadPins_of_badAfter {l : List PinInfoSerde} {infos : List PinInfo} (h : BadAfter l infos)
    (pins : AList fun _ : Cid => PinInfo) :
    ∃ e, loadPins pins l =
      (infos.foldl (fun pins info => pins.insert info.cid info) pins, .error e) := by
  obtain ⟨good, bad, rest, e, rfl, hgood, hbad⟩ := h
  refine ⟨e, ?_⟩
  induction good generalizing pins infos with
  | nil =>
    obtain rfl := Except.ok.inj hgood
    rw [List.nil_append, loadPins, hbad]
    rfl
  | cons p good ih =>
    rw [List.mapM_cons] at hgood
    obtain ⟨info, hinfo, hgood⟩ := Except.bind_eq_ok_iff.mp hgood
    obtain ⟨infos', hinfos', hgood⟩ := Except.bind_eq_ok_iff.mp hgood
    obtain rfl := Except.ok.inj hgood
    rw [List.cons_append, loadPins, hinfo, List.foldl_cons]
    exact ih (pins.insert info.cid info) hinfos'

theorem badAfter_of_loadPins {l : List PinInfoSerde} {pins : AList fun _ : Cid => PinInfo}
    {e : Error} (h : (loadPins pins l).2 = .error e) : ∃ infos, BadAfter l infos := by
  induction l generalizing pins with
  | nil => cases h
  | cons p l ih =>
    unfold loadPins at h
    cases hp : p.intoPinInfo with
    | error e' => exact ⟨[], [], p, l, e', rfl, rfl, hp⟩
    | ok info =>
      rw [hp] at h
      obtain ⟨infos, good, bad, rest, e', rfl, hgood, hbad⟩ := ih h
      refine ⟨info :: infos, p :: good, bad, rest, e', rfl, ?_, hbad⟩
      rw [List.mapM_cons, hp, hgood]
      rfl

variable [OxicodeCrate]

/-- **A load that fails** leaves everything as it was if and only if the file cannot be read or
decoded, or every entry of it can be read, or the pins before the first bad entry, of which the last
one for a CID counts, are the pins that the manager has. -/
theorem load_intact_iff (m : PinManager) (file : Except Error Bytes) :
    (∀ e, (m.loadFile file).2 = .error e →
      (∀ c, (m.loadFile file).1.pins.lookup c = m.pins.lookup c) ∧
        (m.loadFile file).1.indirectPins = m.indirectPins ∧
        (m.loadFile file).1.recursiveDeps = m.recursiveDeps) ↔
    ∀ data l n infos, file = .ok data → OxicodeCrate.decode data = .ok (l, n) →
      BadAfter l infos → ∀ c, m.pins.lookup c = infos.reverse.find? fun info => info.cid = c := by
  -- what is in the pins after a bad entry
  have hafter : ∀ data l n infos, OxicodeCrate.decode data = .ok (l, n) → BadAfter l infos →
      ∃ pins e, m.load data = ({ m with pins }, .error e) ∧
        ∀ c, pins.lookup c = infos.reverse.find? fun info => info.cid = c := by
    intro data l n infos hdecode hbad
    obtain ⟨e, hpins⟩ := loadPins_of_badAfter hbad ∅
    refine ⟨_, e, by rw [load, hdecode]; dsimp only; rw [hpins], fun c => ?_⟩
    rw [AssocMap.lookup_foldl_insert PinInfo.cid fun info => info, AList.lookup_empty,
      Option.or_none, Option.map_id']
  constructor
  · rintro h data l n infos rfl hdecode hbad c
    obtain ⟨pins, e, hload, hpins⟩ := hafter data l n infos hdecode hbad
    have hsame := (h e (by rw [loadFile, hload])).1 c
    rw [loadFile, hload] at hsame
    rw [← hpins c, ← hsame]
  · intro h e herror
    cases file with
    | error e' => exact ⟨fun _ => rfl, rfl, rfl⟩
    | ok data =>
      cases hdecode : OxicodeCrate.decode data with
      | error e' =>
        rw [loadFile, load, hdecode]
        exact ⟨fun _ => rfl, rfl, rfl⟩
      | ok p =>
        obtain ⟨l, n⟩ := p
        obtain ⟨infos, hbad⟩ : ∃ infos, BadAfter l infos := by
          refine @badAfter_of_loadPins _ l ∅ e ?_
          rw [loadFile, load, hdecode] at herror
          exact herror
        obtain ⟨pins, e', hload, hpins⟩ := hafter data l n infos hdecode hbad
        rw [loadFile, hload]
        refine ⟨fun c => ?_, rfl, rfl⟩
        exact (hpins c).trans (h data l n infos rfl hdecode hbad c).symm

end Failing

section Sample

open scoped CidReference

/-- The pin of `sampleRoot` as `save` writes it. -/
def samplePinSerde (pinType : PinType) : PinInfoSerde :=
  .ofPinInfo ⟨sampleRoot, pinType, none, 0⟩

/-- The file with that one pin: the number of pins, the CID string with its length, the pin type, no
name, and the time with its length. -/
def samplePinFile (pinType : PinType) : Bytes :=
  let typeTag : UInt8 :=
    match pinType with
    | .direct => 0
    | .recursive => 1
  [1, 59] ++ utf8 (CidText.toString sampleRoot) ++ [typeTag, 0, 20] ++ utf8 "1970-01-01T00:00:00Z"

/-- The `oxicode` crate on these two files. -/
@[reducible]
def sampleOxicode : OxicodeCrate where
  encode l :=
    if l = [samplePinSerde .direct] then .ok (samplePinFile .direct)
    else if l = [samplePinSerde .recursive] then .ok (samplePinFile .recursive)
    else .error "not a sample"
  decode data :=
    if data = samplePinFile .direct then .ok ([samplePinSerde .direct], data.length)
    else if data = samplePinFile .recursive then .ok ([samplePinSerde .recursive], data.length)
    else .error "not a sample"

theorem lawful_sampleOxicode : letI := sampleOxicode; LawfulOxicode := by
  let := sampleOxicode
  have hne : samplePinFile .recursive ≠ samplePinFile .direct := by decide +kernel
  refine ⟨fun {l data} h => ?_⟩
  change (if l = [samplePinSerde .direct] then _ else _) = _ at h
  split at h
  · next hl =>
    obtain rfl := Except.ok.inj h
    exact ⟨_, by rw [hl]; exact if_pos rfl⟩
  · split at h
    · next hl =>
      obtain rfl := Except.ok.inj h
      exact ⟨_, by rw [hl]; exact (if_neg hne).trans (if_pos rfl)⟩
    · exact absurd h (by simp)

/-- A node with the block `sampleRoot` in store, which links to `sampleDep`. -/
def sampleNode : Node MemoryBlockStore where
  storage := some (MemoryBlockStore.new.insert ⟨sampleRoot, encodeDagCbor (.link sampleDep)⟩)

theorem isPinned_load_save_direct :
    letI := sampleOxicode
    ∃ n' data, sampleNode.pinAdd 1 sampleRoot false none 0 = some (n', .ok ()) ∧
      n'.pinManager.save = .ok data ∧ (new.load data).2 = .ok () ∧
        ∀ c, (new.load data).1.isPinned c = n'.pinManager.isPinned c := by
  let := sampleOxicode
  have := lawful_sampleOxicode
  have hadd : sampleNode.pinAdd 1 sampleRoot false none 0
      = some ({ sampleNode with pinManager := new.pin sampleRoot .direct none 0 }, .ok ()) := rfl
  have htext : ∀ c ∈ (new.pin sampleRoot .direct none 0).pins,
      CidText.fromStr (CidText.toString c) = .ok c := by
    intro c hc
    obtain rfl : c = sampleRoot :=
      ((AList.mem_insert _).mp hc).resolve_right (AList.notMem_empty c)
    decide +kernel
  have hsave : (new.pin sampleRoot .direct none 0).save = .ok (samplePinFile .direct) := by
    decide +kernel
  refine ⟨_, _, hadd, hsave, ?_⟩
  exact (isPinned_load_save_iff (Node.PinReachable.pinAdd .new hadd) htext hsave).mpr
    fun c hc => absurd hc (Finset.notMem_empty c)

/-- After a recursive pin of `sampleRoot` and a restart, `sampleDep` is no longer pinned. -/
theorem load_save_forgets_indirect :
    letI := sampleOxicode
    ¬ ∀ m data, Node.PinReachable MemoryBlockStore m → m.save = .ok data →
      ∀ c, (new.load data).1.isPinned c = m.isPinned c := by
  let := sampleOxicode
  intro hall
  have hrun : ((sampleNode.pinAdd 4 sampleRoot true none 0).map fun r =>
      (r.1.pinManager.save, r.1.pinManager.isPinned sampleDep))
        = some (.ok (samplePinFile .recursive), true) := by
    decide +kernel
  obtain ⟨⟨n', r⟩, hadd, h⟩ := Option.map_eq_some_iff.mp hrun
  obtain ⟨hsave, hdep⟩ := Prod.mk.inj h
  have hsame := hall _ _ (Node.PinReachable.pinAdd .new hadd) hsave sampleDep
  have hafter : (new.load (samplePinFile .recursive)).1.isPinned sampleDep = false := by
    decide +kernel
  rw [hafter, hdep] at hsame
  exact absurd hsame (by decide)

/-- A file with one pin, whose CID is not one. -/
def badPinFile : Bytes := [1, 3] ++ utf8 "bad" ++ [0, 0, 20] ++ utf8 "1970-01-01T00:00:00Z"

/-- The `oxicode` crate on that file. -/
@[reducible]
def badOxicode : OxicodeCrate where
  encode _ := .error "not a sample"
  decode data :=
    if data = badPinFile then .ok ([⟨"bad", .direct, none, 0⟩], data.length)
    else .error "not a sample"

theorem not_forall_load_intact :
    letI := badOxicode
    ¬ ∀ (m : PinManager) (file : Except Error Bytes) (e : Error),
      (m.loadFile file).2 = .error e →
        ∀ c, (m.loadFile file).1.pins.lookup c = m.pins.lookup c := by
  let := badOxicode
  intro hall
  let m := new.pin sampleRoot .direct none 0
  have hload : ∃ e, m.loadFile (.ok badPinFile) = ({ m with pins := ∅ }, .error e) := ⟨_, rfl⟩
  obtain ⟨e, hload⟩ := hload
  have hsame := hall m (.ok badPinFile) e (by rw [hload]) sampleRoot
  rw [hload] at hsame
  have hpin : m.pins.lookup sampleRoot = some ⟨sampleRoot, .direct, none, 0⟩ :=
    AList.lookup_insert _
  rw [hpin] at hsame
  cases hsame

end Sample

end PinManager

end Ipfrs
