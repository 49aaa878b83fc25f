import Ipfrs.Core.Ipld

/-!
# JSON values

The values of `serde_json` and the two walks between them and `Ipld`.

The crate writes IPLD as JSON in two places, as DAG-JSON (`ipfrs-core/src/ipld.rs`) and as the
payload of a signature (`ipfrs-core/src/jose.rs`), and reads it back in both. The functions differ
in what they do with integers and bytes, and in what they take for a link or a byte string:
`JsonWriter` and the argument `special` of `readJson` are these differences, and `readJson_write` is
the round trip of any such pair.

Printing and parsing text is code of `serde_json`, a parameter here (`SerdeJson`).
-/

namespace Ipfrs

/-! ### Values -/

/-- `serde_json::Number`: an integer in the range of an `i64` or of a `u64`, or a finite float,
which is its 64-bit pattern. -/
inductive JsonNumber where
  | int (i : ℤ)
  | float (bits : UInt64)
  deriving DecidableEq, Repr

/-- `serde_json::Value`. An object is a `BTreeMap`. -/
inductive Json where
  | null
  | bool (b : Bool)
  | number (n : JsonNumber)
  | string (s : String)
  | array (l : List Json)
  | object (m : List (String × Json))

/-- The text of JSON values: `to_string_pretty`, `from_str`, `to_vec` and `from_slice`. -/
class SerdeJson where
  toStringPretty : Json → Except String String
  fromStr : String → Except String Json
  toVec : Json → Except String Bytes
  fromSlice : Bytes → Except String Json

/-! ### Numbers -/

/-- The cast `as f64` of a natural number, on bit patterns: 53 significant bits, the nearest even
one where there is a choice. -/
def natToF64 (n : ℕ) : UInt64 :=
  if n = 0 then 0
  else
    let e := Nat.log2 n
    let significand :=
      if e ≤ 52 then n * 2 ^ (52 - e)
      else
        let unit := 2 ^ (e - 52)
        let q := n / unit
        let r := n % unit
        if 2 * r > unit ∨ 2 * r = unit ∧ q % 2 = 1 then q + 1 else q
    -- a significand that was rounded up to `2 ^ 53` carries into the exponent
    UInt64.ofNat ((e + 1023) * 2 ^ 52 + (significand - 2 ^ 52))

example : natToF64 (2 ^ 63) = 0x43e0000000000000 ∧ natToF64 (2 ^ 64 - 1) = 0x43f0000000000000 := by
  decide

namespace JsonNumber

/-- `Number::from_f64`: infinities and NaNs are not numbers. -/
def fromF64 (bits : UInt64) : Option JsonNumber :=
  if (bits >>> 52) &&& 0x7ff = 0x7ff then none else some (.float bits)

/-- `Number::as_i64`. -/
def asI64 : JsonNumber → Option ℤ
  | int i => if i < 2 ^ 63 then some i else none
  | float _ => none

/-- `Number::as_f64`. -/
def asF64 : JsonNumber → Option UInt64
  | int i => some (if i < 0 then ((1 : UInt64) <<< 63) ||| natToF64 i.natAbs else natToF64 i.natAbs)
  | float bits => some bits

end JsonNumber

namespace Json

/-- `Value::as_str`. -/
def asStr : Json → Option String
  | string s => some s
  | _ => none

/-- `Value::as_array`. -/
def asArray : Json → Option (List Json)
  | array l => some l
  | _ => none

/-- `Value::get` with a string: only objects have members. -/
def get (v : Json) (key : String) : Option Json :=
  match v with
  | object m => SortedMap.get? key m
  | _ => none

end Json

/-! ### Writing -/

/-- What the two writers do differently: integers, the error for a float that is not finite, and the
text of a byte string. -/
structure JsonWriter where
  integer : ℤ → Except Error Json
  notFinite : Error
  base64 : Bytes → String

namespace JsonWriter

section Write

variable [CidText] (w : JsonWriter)

/-- The object `{"/": {"bytes": text}}`. -/
def bytesObject (text : String) : List (String × Json) :=
  [("/", .object [("bytes", .string text)])]

/-- The object `{"/": text}`. -/
def linkObject (text : String) : List (String × Json) := [("/", .string text)]

mutual

/-- A value as JSON. -/
def write : Ipld → Except Error Json
  | .null => .ok .null
  | .bool b => .ok (.bool b)
  | .integer i => w.integer i
  | .float f =>
    match JsonNumber.fromF64 f with
    | some n => .ok (.number n)
    | none => .error w.notFinite
  | .string s => .ok (.string s)
  | .bytes b => .ok (.object (bytesObject (w.base64 b)))
  | .list l => do
    let arr ← writeItems l
    return .array arr
  | .map m => do
    let obj ← writeEntries m []
    return .object obj
  | .link c => .ok (.object (linkObject (CidText.toString c)))

/-- `write` along a list. -/
def writeItems : List Ipld → Except Error (List Json)
  | [] => .ok []
  | x :: xs => do
    let v ← write x
    let vs ← writeItems xs
    return v :: vs

/-- The loop that inserts the entries of a map into `obj`. -/
def writeEntries : List (String × Ipld) → List (String × Json) →
    Except Error (List (String × Json))
  | [], obj => .ok obj
  | (k, x) :: m, obj => do
    let v ← write x
    writeEntries m (SortedMap.insert k v obj)

end

end Write

end JsonWriter

/-! ### Reading -/

/-- A JSON number in IPLD. -/
def readNumber (n : JsonNumber) : Except Error Ipld :=
  match n.asI64 with
  | some i => .ok (.integer i)
  | none =>
    match n.asF64 with
    | some f => .ok (.float f)
    | none => .error (.deserialization "Invalid number")

section Read

variable (special : List (String × Json) → Option (Except Error Ipld))

mutual

/-- JSON as a value. `special` is what the reader makes of an object that is not a map. -/
def readJson : Json → Except Error Ipld
  | .null => .ok .null
  | .bool b => .ok (.bool b)
  | .number n => readNumber n
  | .string s => .ok (.string s)
  | .array l => do
    let list ← readItems l
    return .list list
  | .object obj =>
    match special obj with
    | some r => r
    | none => do
      let map ← readEntries obj []
      return .map map

/-- `readJson` along an array. -/
def readItems : List Json → Except Error (List Ipld)
  | [] => .ok []
  | v :: vs => do
    let x ← readJson v
    let xs ← readItems vs
    return x :: xs

/-- The loop that inserts the members of an object into `map`. -/
def readEntries : List (String × Json) → List (String × Ipld) →
    Except Error (List (String × Ipld))
  | [], map => .ok map
  | (k, v) :: obj, map => do
    let x ← readJson v
    readEntries obj (SortedMap.insert k x map)

end

end Read

/-! ### The round trip -/

theorem JsonWriter.writeItems_eq [CidText] (w : JsonWriter) (l : List Ipld) :
    w.writeItems l = l.mapM w.write := by
  induction l with
  | nil => rfl
  | cons x xs ih =>
    rw [JsonWriter.writeItems, ih, List.mapM_cons]

theorem JsonWriter.writeEntries_eq [CidText] (w : JsonWriter) (m : List (String × Ipld))
    (obj : List (String × Json)) : w.writeEntries m obj = SortedMap.insertAllM w.write m obj := by
  induction m generalizing obj with
  | nil => rfl
  | cons e m ih =>
    obtain ⟨k, x⟩ := e
    simp only [JsonWriter.writeEntries, SortedMap.insertAllM, ih]

section RoundTrip

variable {special : List (String × Json) → Option (Except Error Ipld)}

theorem readItems_eq (l : List Json) : readItems special l = l.mapM (readJson special) := by
  induction l with
  | nil => rfl
  | cons v vs ih =>
    rw [readItems, ih, List.mapM_cons]

theorem readEntries_eq (obj : List (String × Json)) (map : List (String × Ipld)) :
    readEntries special obj map = SortedMap.insertAllM (readJson special) obj map := by
  induction obj generalizing map with
  | nil => rfl
  | cons e obj ih =>
    obtain ⟨k, v⟩ := e
    simp only [readEntries, SortedMap.insertAllM, ih]

variable [CidText] {w : JsonWriter}

/-- What the reader must do with what the writer makes of a value: an integer and the objects for
bytes and links are read as such, and the object for a map is read as a map. -/
def ReadsAs (special : List (String × Json) → Option (Except Error Ipld)) (w : JsonWriter) :
    Ipld → Prop
  | .integer i => ∀ v, w.integer i = .ok v → readJson special v = .ok (.integer i)
  | .bytes b => special (JsonWriter.bytesObject (w.base64 b)) = some (.ok (.bytes b))
  | .link c => special (JsonWriter.linkObject (CidText.toString c)) = some (.ok (.link c))
  | .map m => ∀ obj, SortedMap.Maps w.write m obj → special obj = none
  | _ => True

/-- **Writing and reading again**, for a reader that takes every object for what the writer made it
of. -/
theorem readJson_write {x : Ipld} (hx : x.Valid) (hreads : x.Everywhere (ReadsAs special w))
    {v : Json} (h : w.write x = .ok v) : readJson special v = .ok x := by
  induction x generalizing v with
  | null =>
    obtain rfl := Except.ok.inj h
    rfl
  | bool b =>
    obtain rfl := Except.ok.inj h
    rfl
  | integer i => exact hreads.self v h
  | float f =>
    rw [JsonWriter.write, JsonNumber.fromF64] at h
    split at h
    · next n hn =>
      obtain rfl := Except.ok.inj h
      split at hn
      · exact absurd hn (by simp)
      · obtain rfl := Option.some.inj hn
        rfl
    · exact absurd h (by simp)
  | string s =>
    obtain rfl := Except.ok.inj h
    rfl
  | bytes b =>
    obtain rfl := Except.ok.inj h
    have hspecial : special (JsonWriter.bytesObject (w.base64 b)) = some (.ok (.bytes b)) :=
      hreads.self
    rw [readJson, hspecial]
  | list l ih =>
    obtain ⟨vs, hvs, h⟩ := Except.bind_eq_ok_iff.mp h
    obtain rfl := Except.ok.inj h
    rw [JsonWriter.writeItems_eq, Except.mapM_eq_ok_iff] at hvs
    -- every item is read back, so the list is
    have hitems : ∀ y ∈ l, ∀ v, w.write y = .ok v → readJson special v = .ok y := fun y hy v hv =>
      ih y hy (Ipld.validList_iff.mp hx.2 y hy) (Ipld.everywhereList_iff.mp hreads.2 y hy) hv
    have hback : vs.mapM (readJson special) = .ok l := Except.mapM_eq_ok_iff.mpr
      (((List.forall₂_and_left _ _).mpr ⟨hitems, hvs⟩).imp fun y v h => h.1 v h.2).flip
    rw [readJson, readItems_eq, hback]
    rfl
  | map m ih =>
    obtain ⟨obj, hobj, h⟩ := Except.bind_eq_ok_iff.mp h
    obtain rfl := Except.ok.inj h
    have hsorted : SortedMap.Sorted m := hx.2.1
    rw [JsonWriter.writeEntries_eq, SortedMap.insertAllM_eq_ok hsorted] at hobj
    have hentries : ∀ e ∈ m, ∀ v, w.write e.2 = .ok v → readJson special v = .ok e.2 :=
      fun e he v hv => ih e he (Ipld.validMap_iff.mp hx.2.2 e he).2
        (Ipld.everywhereMap_iff.mp hreads.2 e he) hv
    have hback : SortedMap.Maps (readJson special) obj m :=
      (((List.forall₂_and_left _ _).mpr ⟨hentries, hobj⟩).imp
        fun e e' h => ⟨h.2.1.symm, h.1 e'.2 h.2.2⟩).flip
    -- the object is not one of those that stand for bytes or a link
    have hnone : special obj = none := hreads.self obj hobj
    rw [readJson, hnone]
    dsimp only
    rw [readEntries_eq, (SortedMap.insertAllM_eq_ok (hobj.sorted hsorted)).mpr hback]
    rfl
  | link c =>
    obtain rfl := Except.ok.inj h
    have hspecial : special (JsonWriter.linkObject (CidText.toString c)) = some (.ok (.link c)) :=
      hreads.self
    rw [readJson, hspecial]

end RoundTrip

end Ipfrs
