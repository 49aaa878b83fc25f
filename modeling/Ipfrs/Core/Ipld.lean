import Mathlib.Data.String.Basic
import Ipfrs.Lib.SortedMap
import Ipfrs.Core.Cid

/-!
# The IPLD data model

`Ipld` (`ipfrs-core/src/ipld.rs`) with the accessors the other modules use.

Floats are their 64-bit patterns, strings are Lean strings (which are valid UTF-8 by construction),
and a `BTreeMap<String, Ipld>` is the list of its entries in key order. An `i128` is an integer and
a `Vec` is a list, both without a bound; `Ipld.Valid` is the bound that the Rust types give,
together with the order of map keys, and holds of every value a Rust program can have in its hands.
-/

namespace Ipfrs

inductive Ipld where
  | null
  | bool (b : Bool)
  | integer (i : ℤ)
  | float (bits : UInt64)
  | string (s : String)
  | bytes (b : Bytes)
  | list (l : List Ipld)
  | map (m : List (String × Ipld))
  | link (c : Cid)

namespace Ipld

/-- **Induction over nested lists and maps**: the hypothesis is about every item of a list and about
every value of a map. -/
@[elab_as_elim, induction_eliminator]
theorem ind {P : Ipld → Prop} (null : P null) (bool : ∀ b, P (bool b))
    (integer : ∀ i, P (integer i)) (float : ∀ f, P (float f)) (string : ∀ s, P (string s))
    (bytes : ∀ b, P (bytes b)) (list : ∀ l, (∀ x ∈ l, P x) → P (list l))
    (map : ∀ m, (∀ e ∈ m, P e.2) → P (map m)) (link : ∀ c, P (link c)) (x : Ipld) : P x :=
  @Ipld.rec P (fun l => ∀ x ∈ l, P x) (fun m => ∀ e ∈ m, P e.2) (fun e => P e.2)
    null bool integer float string bytes list map link
    (fun _ h => absurd h List.not_mem_nil)
    (fun _ _ hx hl _ h => (List.mem_cons.mp h).elim (fun e => e ▸ hx) (hl _))
    (fun _ h => absurd h List.not_mem_nil)
    (fun _ _ hx hm _ h => (List.mem_cons.mp h).elim (fun e => e ▸ hx) (hm _))
    (fun _ _ h => h) x

/-! ### Decidable equality -/

mutual

/-- Structural comparison. -/
def beq : Ipld → Ipld → Bool
  | null, null => true
  | bool a, bool b => a == b
  | integer a, integer b => a == b
  | float a, float b => a == b
  | string a, string b => a == b
  | bytes a, bytes b => a == b
  | list a, list b => beqList a b
  | map a, map b => beqMap a b
  | link a, link b => a == b
  | _, _ => false

/-- `beq` along two lists. -/
def beqList : List Ipld → List Ipld → Bool
  | [], [] => true
  | x :: xs, y :: ys => beq x y && beqList xs ys
  | _, _ => false

/-- `beq` along two maps. -/
def beqMap : List (String × Ipld) → List (String × Ipld) → Bool
  | [], [] => true
  | (k, x) :: xs, (k', y) :: ys => k == k' && beq x y && beqMap xs ys
  | _, _ => false

end

variable {l : List Ipld} {m : List (String × Ipld)} {x : Ipld}

theorem beqList_iff (h : ∀ x ∈ l, ∀ y, beq x y = true ↔ x = y) (l' : List Ipld) :
    beqList l l' = true ↔ l = l' := by
  induction l generalizing l' with
  | nil => cases l' <;> simp [beqList]
  | cons x xs ih =>
    cases l' with
    | nil => simp [beqList]
    | cons y ys =>
      have hx := h x List.mem_cons_self y
      have hxs := ih (fun z hz => h z (List.mem_cons_of_mem _ hz)) ys
      rw [beqList, Bool.and_eq_true, hx, hxs, List.cons.injEq]

theorem beqMap_iff (h : ∀ e ∈ m, ∀ y, beq e.2 y = true ↔ e.2 = y) (m' : List (String × Ipld)) :
    beqMap m m' = true ↔ m = m' := by
  induction m generalizing m' with
  | nil => cases m' <;> simp [beqMap]
  | cons e es ih =>
    cases m' with
    | nil => simp [beqMap]
    | cons e' es' =>
      obtain ⟨k, x⟩ := e
      obtain ⟨k', y⟩ := e'
      have hx := h (k, x) List.mem_cons_self y
      have hes := ih (fun z hz => h z (List.mem_cons_of_mem _ hz)) es'
      rw [beqMap, Bool.and_eq_true, Bool.and_eq_true, hx, hes, beq_iff_eq, List.cons.injEq,
        Prod.mk.injEq]

theorem beq_iff (x y : Ipld) : beq x y = true ↔ x = y := by
  induction x generalizing y with
  | list l ih =>
    cases y with
    | list l' => rw [beq, beqList_iff ih, list.injEq]
    | _ => simp [beq]
  | map m ih =>
    cases y with
    | map m' => rw [beq, beqMap_iff ih, map.injEq]
    | _ => simp [beq]
  | _ => cases y <;> simp [beq]

instance : DecidableEq Ipld := fun x y => decidable_of_iff _ (beq_iff x y)

/-! ### Accessors -/

def isMap : Ipld → Bool
  | map _ => true
  | _ => false

mutual

/-- `Ipld::links`: the CIDs of the links in the value, in the order `collect_links` pushes them. -/
def links : Ipld → List Cid
  | link c => [c]
  | list l => linksList l
  | map m => linksMap m
  | _ => []

/-- `collect_links` over the items of a list. -/
def linksList : List Ipld → List Cid
  | [] => []
  | x :: xs => links x ++ linksList xs

/-- `collect_links` over the values of a map. -/
def linksMap : List (String × Ipld) → List Cid
  | [] => []
  | (_, x) :: xs => links x ++ linksMap xs

end

/-! ### All values inside a value -/

mutual

/-- `P` holds of a value and of every value inside it. -/
def Everywhere (P : Ipld → Prop) : Ipld → Prop
  | list l => P (list l) ∧ EverywhereList P l
  | map m => P (map m) ∧ EverywhereMap P m
  | x => P x

/-- `Everywhere` along a list. -/
def EverywhereList (P : Ipld → Prop) : List Ipld → Prop
  | [] => True
  | x :: xs => Everywhere P x ∧ EverywhereList P xs

/-- `Everywhere` along a map. -/
def EverywhereMap (P : Ipld → Prop) : List (String × Ipld) → Prop
  | [] => True
  | (_, x) :: xs => Everywhere P x ∧ EverywhereMap P xs

end

section Everywhere

variable {P Q : Ipld → Prop}

theorem everywhereList_iff {l : List Ipld} : EverywhereList P l ↔ ∀ x ∈ l, Everywhere P x := by
  induction l with
  | nil => simp [EverywhereList]
  | cons x xs ih => simp [EverywhereList, ih]

theorem everywhereMap_iff {m : List (String × Ipld)} :
    EverywhereMap P m ↔ ∀ e ∈ m, Everywhere P e.2 := by
  induction m with
  | nil => simp [EverywhereMap]
  | cons e es ih =>
    obtain ⟨k, x⟩ := e
    simp [EverywhereMap, ih]

variable {x : Ipld}

theorem Everywhere.self (h : Everywhere P x) : P x := by
  cases x with
  | list l => exact h.1
  | map m => exact h.1
  | _ => exact h

/-- What holds everywhere can be used to show something else of a value and all values inside. -/
theorem Everywhere.mono (h : Everywhere P x) (hPQ : ∀ y, Everywhere P y → P y → Q y) :
    Everywhere Q x := by
  induction x with
  | list l ih =>
    refine ⟨hPQ _ h h.1, everywhereList_iff.mpr fun y hy => ih y hy ?_⟩
    exact everywhereList_iff.mp h.2 y hy
  | map m ih =>
    refine ⟨hPQ _ h h.1, everywhereMap_iff.mpr fun e he => ih e he ?_⟩
    exact everywhereMap_iff.mp h.2 e he
  | _ => exact hPQ _ h h

theorem Everywhere.and (hP : Everywhere P x) (hQ : Everywhere Q x) :
    Everywhere (fun y => P y ∧ Q y) x := by
  induction x with
  | list l ih =>
    refine ⟨⟨hP.1, hQ.1⟩, everywhereList_iff.mpr fun y hy => ih y hy ?_ ?_⟩
    · exact everywhereList_iff.mp hP.2 y hy
    · exact everywhereList_iff.mp hQ.2 y hy
  | map m ih =>
    refine ⟨⟨hP.1, hQ.1⟩, everywhereMap_iff.mpr fun e he => ih e he ?_ ?_⟩
    · exact everywhereMap_iff.mp hP.2 e he
    · exact everywhereMap_iff.mp hQ.2 e he
  | _ => exact ⟨hP, hQ⟩

end Everywhere

/-! ### The values of the Rust types -/

mutual

/-- What the Rust types promise of a value: an integer is an `i128`, every length is a `usize`, and
a `BTreeMap` has its keys in order. -/
def Valid : Ipld → Prop
  | integer i => -2 ^ 127 ≤ i ∧ i < 2 ^ 127
  | string s => s.utf8ByteSize < 2 ^ 64
  | bytes b => b.length < 2 ^ 64
  | list l => l.length < 2 ^ 64 ∧ ValidList l
  | map m => m.length < 2 ^ 64 ∧ SortedMap.Sorted m ∧ ValidMap m
  | _ => True

/-- Every item is valid. -/
def ValidList : List Ipld → Prop
  | [] => True
  | x :: xs => Valid x ∧ ValidList xs

/-- Every key and every value is valid. -/
def ValidMap : List (String × Ipld) → Prop
  | [] => True
  | (k, x) :: xs => k.utf8ByteSize < 2 ^ 64 ∧ Valid x ∧ ValidMap xs

end

instance (m : List (String × Ipld)) : Decidable (SortedMap.Sorted m) :=
  inferInstanceAs (Decidable (m.Pairwise _))

mutual

/-- `Valid` can be computed. -/
def decValid : (x : Ipld) → Decidable (Valid x)
  | integer i => inferInstanceAs (Decidable (-2 ^ 127 ≤ i ∧ i < 2 ^ 127))
  | string s => inferInstanceAs (Decidable (s.utf8ByteSize < 2 ^ 64))
  | bytes b => inferInstanceAs (Decidable (b.length < 2 ^ 64))
  | list l =>
    have := decValidList l
    inferInstanceAs (Decidable (l.length < 2 ^ 64 ∧ ValidList l))
  | map m =>
    have := decValidMap m
    inferInstanceAs (Decidable (m.length < 2 ^ 64 ∧ SortedMap.Sorted m ∧ ValidMap m))
  | null => inferInstanceAs (Decidable True)
  | bool _ => inferInstanceAs (Decidable True)
  | float _ => inferInstanceAs (Decidable True)
  | link _ => inferInstanceAs (Decidable True)

/-- `decValid` on the items of a list. -/
def decValidList : (l : List Ipld) → Decidable (ValidList l)
  | [] => inferInstanceAs (Decidable True)
  | x :: xs =>
    have := decValid x
    have := decValidList xs
    inferInstanceAs (Decidable (Valid x ∧ ValidList xs))

/-- `decValid` on the entries of a map. -/
def decValidMap : (m : List (String × Ipld)) → Decidable (ValidMap m)
  | [] => inferInstanceAs (Decidable True)
  | (k, x) :: xs =>
    have := decValid x
    have := decValidMap xs
    inferInstanceAs (Decidable (k.utf8ByteSize < 2 ^ 64 ∧ Valid x ∧ ValidMap xs))

end

instance : DecidablePred Valid := decValid

theorem validList_iff : ValidList l ↔ ∀ x ∈ l, Valid x := by
  induction l with
  | nil => simp [ValidList]
  | cons x xs ih => simp [ValidList, ih]

theorem validMap_iff : ValidMap m ↔ ∀ e ∈ m, e.1.utf8ByteSize < 2 ^ 64 ∧ Valid e.2 := by
  induction m with
  | nil => simp [ValidMap]
  | cons e es ih =>
    obtain ⟨k, x⟩ := e
    simp [ValidMap, ih, and_assoc]

theorem Valid.everywhere (h : x.Valid) : x.Everywhere Valid := by
  induction x with
  | list l ih =>
    refine ⟨h, everywhereList_iff.mpr fun y hy => ih y hy ?_⟩
    exact validList_iff.mp h.2 y hy
  | map m ih =>
    refine ⟨h, everywhereMap_iff.mpr fun e he => ih e he ?_⟩
    exact (validMap_iff.mp h.2.2 e he).2
  | _ => exact h

/-- A map of two entries in order is valid when its keys and values are. -/
theorem valid_pair {k k' : String} {y : Ipld} (hlt : k < k') (hk : k.utf8ByteSize < 2 ^ 64)
    (hk' : k'.utf8ByteSize < 2 ^ 64) (hx : x.Valid) (hy : y.Valid) :
    (Ipld.map [(k, x), (k', y)]).Valid :=
  ⟨by simp, by simpa [SortedMap.Sorted] using hlt, hk, hx, hk', hy, trivial⟩

end Ipld

end Ipfrs
