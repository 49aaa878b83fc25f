import Mathlib.Data.Set.Finite.Basic
import Ipfrs.Lib.AssocMap
import Ipfrs.Core.Block

/-!
# Block stores

The trait `BlockStore` (`ipfrs-storage/src/traits.rs`) and its in-memory implementation
(`ipfrs-storage/src/memory.rs`).

A store is a state that the operations read and replace, and every operation can fail. The contract
of the trait is stated against the abstract contents of a store, a finite partial map from CIDs to
data (`StoreView`): `LawfulBlockStore` says what an operation that succeeded has done to the map,
and nothing about one that failed; `ReliableBlockStore` says that no operation fails. `put` may
overwrite a block that is already there (`MemoryBlockStore`) or leave it alone (`SledBlockStore`);
the contract allows both.
-/

namespace Ipfrs

class BlockStore (S : Type) where
  put : S → Block → Except Error S
  get : S → Cid → Except Error (Option Block)
  has : S → Cid → Except Error Bool
  delete : S → Cid → Except Error S
  listCids : S → Except Error (List Cid)

/-- The contents of a store. -/
class StoreView (S : Type) where
  view : S → Cid → Option Bytes

export StoreView (view)

/-- **The contract of a block store**, for operations that succeed. -/
class LawfulBlockStore (S : Type) [BlockStore S] [StoreView S] : Prop where
  get_ok : ∀ {s : S} {c r}, BlockStore.get s c = .ok r → r = (view s c).map (Block.mk c)
  has_ok : ∀ {s : S} {c b}, BlockStore.has s c = .ok b → b = (view s c).isSome
  put_ok : ∀ {s s' : S} {b : Block}, BlockStore.put s b = .ok s' →
    (view s' b.cid = some b.data ∨ (view s b.cid).isSome ∧ view s' b.cid = view s b.cid) ∧
      ∀ c, c ≠ b.cid → view s' c = view s c
  delete_ok : ∀ {s s' : S} {c}, BlockStore.delete s c = .ok s' →
    view s' c = none ∧ ∀ c', c' ≠ c → view s' c' = view s c'
  listCids_ok : ∀ {s : S} {l}, BlockStore.listCids s = .ok l →
    l.Nodup ∧ ∀ c, c ∈ l ↔ (view s c).isSome
  finite : ∀ s : S, {c | (view s c).isSome}.Finite

/-- No operation of the store fails. -/
class ReliableBlockStore (S : Type) [BlockStore S] : Prop where
  put : ∀ (s : S) b, ∃ s', BlockStore.put s b = .ok s'
  get : ∀ (s : S) c, ∃ r, BlockStore.get s c = .ok r
  has : ∀ (s : S) c, ∃ b, BlockStore.has s c = .ok b
  delete : ∀ (s : S) c, ∃ s', BlockStore.delete s c = .ok s'
  listCids : ∀ s : S, ∃ l, BlockStore.listCids s = .ok l

/-! ### What the operations of a lawful and reliable store return -/

section Reliable

variable {S : Type} [BlockStore S] [StoreView S] [LawfulBlockStore S] [ReliableBlockStore S]

theorem BlockStore.get_eq (s : S) (c : Cid) :
    BlockStore.get s c = .ok ((view s c).map (Block.mk c)) := by
  obtain ⟨r, hr⟩ := ReliableBlockStore.get s c
  rw [hr, LawfulBlockStore.get_ok hr]

theorem BlockStore.has_eq (s : S) (c : Cid) :
    BlockStore.has s c = .ok (view s c).isSome := by
  obtain ⟨b, hb⟩ := ReliableBlockStore.has s c
  rw [hb, LawfulBlockStore.has_ok hb]

end Reliable

/-! ### Putting a block over what is there -/

section Fits

variable {S : Type} [StoreView S] {s s' : S} {b : Block}

/-- The store has no other data under the CID of the block. -/
def Fits (s : S) (b : Block) : Prop := ∀ data, view s b.cid = some data → data = b.data

variable [BlockStore S] [LawfulBlockStore S]

theorem Fits.view_put (h : Fits s b) (hput : BlockStore.put s b = .ok s') :
    view s' b.cid = some b.data := by
  obtain ⟨hwritten | ⟨hsome, hkept⟩, -⟩ := LawfulBlockStore.put_ok hput
  · exact hwritten
  · obtain ⟨data, hview⟩ := Option.isSome_iff_exists.mp hsome
    obtain rfl := h data hview
    exact hkept.trans hview

theorem Fits.view_mono (h : Fits s b) (hput : BlockStore.put s b = .ok s') {c : Cid}
    {data : Bytes} (hview : view s c = some data) : view s' c = some data := by
  by_cases hc : c = b.cid
  · subst hc
    obtain rfl := h data hview
    exact h.view_put hput
  · rw [(LawfulBlockStore.put_ok hput).2 c hc]
    exact hview

theorem Fits.of_view_put (h : Fits s b) (hput : BlockStore.put s b = .ok s') {c : Cid}
    {data : Bytes} (hview : view s' c = some data) :
    c = b.cid ∧ data = b.data ∨ view s c = some data := by
  by_cases hc : c = b.cid
  · subst hc
    rw [h.view_put hput] at hview
    exact Or.inl ⟨rfl, (Option.some.inj hview).symm⟩
  · rw [(LawfulBlockStore.put_ok hput).2 c hc] at hview
    exact Or.inr hview

end Fits

/-! ### Stores whose blocks have the hash of their data -/

section Addressed

variable {S : Type} [StoreView S] [HashCrate] {D : Set Bytes} {s s' : S} {b : Block}

/-- Every block of the store has the hash of its data, and the data are among `D`. -/
def StoresAddressed (D : Set Bytes) (s : S) : Prop :=
  ∀ c data, view s c = some data → Addressed D c data

/-- Under the CID of a raw block with data of `D` the store has nothing else. -/
def StoresOwn (D : Set Bytes) (s : S) : Prop :=
  ∀ data ∈ D, Fits s ⟨Cid.ofData Codec.raw .sha256 data, data⟩

theorem StoresAddressed.fits (hfree : ∀ a, HashCrate.CollisionFree a D) (h : StoresAddressed D s)
    (hb : Addressed D b.cid b.data) : Fits s b :=
  fun data hview => (h b.cid data hview).unique hfree hb

variable [BlockStore S] [LawfulBlockStore S]

theorem StoresAddressed.put (hfree : ∀ a, HashCrate.CollisionFree a D) (h : StoresAddressed D s)
    (hb : Addressed D b.cid b.data) (hput : BlockStore.put s b = .ok s') :
    StoresAddressed D s' := by
  intro c data hview
  obtain ⟨rfl, rfl⟩ | hview := (h.fits hfree hb).of_view_put hput hview
  · exact hb
  · exact h c data hview

theorem StoresOwn.put (hfree : HashCrate.CollisionFree .sha256 D) (h : StoresOwn D s)
    {data : Bytes} (hdata : data ∈ D)
    (hput : BlockStore.put s ⟨Cid.ofData Codec.raw .sha256 data, data⟩ = .ok s') :
    StoresOwn D s' := by
  intro data' hdata' d hview
  obtain ⟨heq, rfl⟩ | hview := (h data hdata).of_view_put hput hview
  · exact (hfree.eq_of_ofData hdata' hdata heq).2.symm
  · exact h data' hdata' d hview

omit [HashCrate] in
theorem view_delete_of_ne {c c' : Cid} (hdelete : BlockStore.delete s c = .ok s') {data : Bytes}
    (hview : view s' c' = some data) : c' ≠ c ∧ view s c' = some data := by
  obtain ⟨hgone, hframe⟩ := LawfulBlockStore.delete_ok hdelete
  have hne : c' ≠ c := by
    rintro rfl
    rw [hgone] at hview
    exact absurd hview (by simp)
  exact ⟨hne, (hframe c' hne).symm.trans hview⟩

theorem StoresAddressed.delete (h : StoresAddressed D s) {c : Cid}
    (hdelete : BlockStore.delete s c = .ok s') : StoresAddressed D s' :=
  fun c' data hview => h c' data (view_delete_of_ne hdelete hview).2

end Addressed

/-! ### The in-memory store -/

/-- `MemoryBlockStore`: every block is kept under its own CID. -/
structure MemoryBlockStore where
  blocks : AList fun _ : Cid => Block
  cid_eq : ∀ c b, blocks.lookup c = some b → b.cid = c

namespace MemoryBlockStore

def new : MemoryBlockStore := ⟨∅, fun _ _ h => absurd h (by simp)⟩

/-- `DashMap::insert` of a block under its CID. -/
def insert (s : MemoryBlockStore) (b : Block) : MemoryBlockStore where
  blocks := s.blocks.insert b.cid b
  cid_eq c b' h := by
    obtain ⟨rfl, rfl⟩ | ⟨-, h⟩ := AssocMap.lookup_insert_eq_some.mp h
    · rfl
    · exact s.cid_eq c b' h

/-- `DashMap::remove`. -/
def remove (s : MemoryBlockStore) (c : Cid) : MemoryBlockStore where
  blocks := s.blocks.erase c
  cid_eq c' b h := s.cid_eq c' b (AssocMap.lookup_of_lookup_erase h)

instance : BlockStore MemoryBlockStore where
  put s b := .ok (s.insert b)
  get s c := .ok (s.blocks.lookup c)
  has s c := .ok (s.blocks.lookup c).isSome
  delete s c := .ok (s.remove c)
  listCids s := .ok s.blocks.keys

instance : StoreView MemoryBlockStore where
  view s c := (s.blocks.lookup c).map Block.data

theorem isSome_view_iff (s : MemoryBlockStore) (c : Cid) :
    (view s c).isSome ↔ c ∈ s.blocks.keys := by
  change ((s.blocks.lookup c).map Block.data).isSome ↔ _
  rw [Option.isSome_map, AList.lookup_isSome, AList.mem_keys]

instance : LawfulBlockStore MemoryBlockStore where
  get_ok {s c r} h := by
    obtain rfl := Except.ok.inj h
    change s.blocks.lookup c = ((s.blocks.lookup c).map Block.data).map (Block.mk c)
    cases hb : s.blocks.lookup c with
    | none => rfl
    | some b =>
      obtain ⟨cid, data⟩ := b
      obtain rfl : cid = c := s.cid_eq c _ hb
      rfl
  has_ok {s c b} h := by
    obtain rfl := Except.ok.inj h
    exact (Option.isSome_map ..).symm
  put_ok {s s' b} h := by
    obtain rfl := Except.ok.inj h
    refine ⟨Or.inl ?_, fun c hc => ?_⟩
    · change ((s.blocks.insert b.cid b).lookup b.cid).map Block.data = some b.data
      rw [AList.lookup_insert]
      rfl
    · change ((s.blocks.insert b.cid b).lookup c).map Block.data = _
      rw [AList.lookup_insert_ne hc]
      rfl
  delete_ok {s s' c} h := by
    obtain rfl := Except.ok.inj h
    refine ⟨?_, fun c' hc => ?_⟩
    · change ((s.blocks.erase c).lookup c).map Block.data = none
      rw [AList.lookup_erase]
      rfl
    · change ((s.blocks.erase c).lookup c').map Block.data = _
      rw [AList.lookup_erase_ne hc]
      rfl
  listCids_ok {s l} h := by
    obtain rfl := Except.ok.inj h
    exact ⟨s.blocks.keys_nodup, fun c => (s.isSome_view_iff c).symm⟩
  finite s := by
    refine s.blocks.keys.finite_toSet.subset fun c hc => ?_
    exact (s.isSome_view_iff c).mp hc

instance : ReliableBlockStore MemoryBlockStore where
  put _ _ := ⟨_, rfl⟩
  get _ _ := ⟨_, rfl⟩
  has _ _ := ⟨_, rfl⟩
  delete _ _ := ⟨_, rfl⟩
  listCids _ := ⟨_, rfl⟩

end MemoryBlockStore

end Ipfrs
