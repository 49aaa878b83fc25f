import Ipfrs.Core.Json
import Ipfrs.Core.CidReference

/-!
# The DAG-JSON codec

`ipld_to_dag_json` and `dag_json_to_ipld` (`ipfrs-core/src/ipld.rs`), with `to_dag_json` and
`from_dag_json` around them.

Two kinds of values are not read back. An integer beyond an `i64` is written as a string, which is
read as one. And `/` is the key under which links and bytes are written, so a map with that key
alone may be written as a link or as bytes would be, and is then read as one (`Reserved`).

* `fromDagJson_toDagJson` — all other values are read back;
* `everywhere_of_readsBack` — and these two kinds never are.

Base64 is code of the `multibase` crate, a parameter here (`Multibase`).
-/

namespace Ipfrs

/-- `multibase::encode` with `Base::Base64`, which puts the letter of the base in front, and the
bytes that `multibase::decode` returns. -/
class Multibase where
  encodeBase64 : Bytes → String
  decode : String → Except String Bytes

/-! ### The codec -/

/-- `ipld_to_dag_json` on an integer. -/
def dagJsonInteger (i : ℤ) : Except Error Json :=
  if -2 ^ 63 ≤ i ∧ i ≤ 2 ^ 63 - 1 then .ok (.number (.int i))
  else
    -- large integers: a string
    .ok (.string (toString i))

section Model

variable [Multibase]

/-- The writer of `ipld_to_dag_json`. -/
def dagJsonWriter : JsonWriter where
  integer := dagJsonInteger
  notFinite := .serialization "Cannot encode NaN/Inf as JSON"
  -- `&encoded[1..]`, without the letter of the base
  base64 b := String.ofList (Multibase.encodeBase64 b).toList.tail

variable [CidText]

def ipldToDagJson : Ipld → Except Error Json := dagJsonWriter.write

/-- The objects that `dag_json_to_ipld` takes for a link or for bytes. -/
def dagJsonSpecial (obj : List (String × Json)) : Option (Except Error Ipld) :=
  match SortedMap.get? "/" obj with
  | some slashValue =>
    if obj.length = 1 then
      match slashValue with
      | .string cidStr =>
        match CidText.fromStr cidStr with
        | .ok cid => some (.ok (.link cid))
        | .error e => some (.error (.deserialization ("Invalid CID: " ++ e)))
      | .object inner =>
        match SortedMap.get? "bytes" inner with
        | some (.string bytesStr) =>
          match Multibase.decode ("m" ++ bytesStr) with
          | .ok decoded => some (.ok (.bytes decoded))
          | .error e => some (.error (.deserialization ("Invalid base64 bytes: " ++ e)))
        | _ => none
      | _ => none
    else none
  | none => none

def dagJsonToIpld : Json → Except Error Ipld := readJson dagJsonSpecial

variable [SerdeJson]

def Ipld.toDagJson (x : Ipld) : Except Error String := do
  let jsonValue ← ipldToDagJson x
  (SerdeJson.toStringPretty jsonValue).mapError fun e =>
    .serialization ("Failed to serialize DAG-JSON: " ++ e)

def Ipld.fromDagJson (json : String) : Except Error Ipld := do
  let jsonValue ← (SerdeJson.fromStr json).mapError fun e =>
    .deserialization ("Failed to parse DAG-JSON: " ++ e)
  dagJsonToIpld jsonValue

end Model

/-! ### The values that are read back -/

/-- An integer in the range of an `i64`. -/
def Ipld.FitsI64 : Ipld → Prop
  | .integer i => -2 ^ 63 ≤ i ∧ i ≤ 2 ^ 63 - 1
  | _ => True

/-- A map that has the form of a link or of bytes. -/
inductive Reserved : List (String × Ipld) → Prop
  | link (s : String) : Reserved [("/", .string s)]
  | bytes {inner : List (String × Ipld)} {s : String}
      (h : SortedMap.get? "bytes" inner = some (.string s)) : Reserved [("/", .map inner)]

theorem Reserved.length_eq {m : List (String × Ipld)} (h : Reserved m) : m.length = 1 := by
  cases h <;> rfl

/-- Not such a map. -/
def Ipld.NotReserved : Ipld → Prop
  | .map m => ¬ Reserved m
  | _ => True

section Spec

variable [Multibase] [CidText]

/-- The texts of bytes and links read back. -/
def Ipld.TextReadsBack : Ipld → Prop
  | .bytes b => ∃ data, Multibase.encodeBase64 b = "m" ++ data ∧
      Multibase.decode (Multibase.encodeBase64 b) = .ok b
  | .link c => CidText.fromStr (CidText.toString c) = .ok c
  | _ => True

variable {x : Ipld} {obj : List (String × Json)} {m : List (String × Ipld)} {text : String}

theorem ipldToDagJson_eq_string (hfits : x.FitsI64) {s : String}
    (h : ipldToDagJson x = .ok (.string s)) : x = .string s := by
  cases x with
  | string s' =>
    obtain rfl : s' = s := by simpa [ipldToDagJson, JsonWriter.write] using h
    rfl
  | integer i =>
    -- an integer is a string only beyond `i64`
    have hrange : -2 ^ 63 ≤ i ∧ i ≤ 2 ^ 63 - 1 := hfits
    have hint : dagJsonInteger i = .ok (.string s) := h
    rw [dagJsonInteger, if_pos hrange] at hint
    exact absurd hint (by simp)
  | float f =>
    rw [ipldToDagJson, JsonWriter.write] at h
    split at h
    · exact absurd h (by simp)
    · exact absurd h (by simp)
  | list l =>
    obtain ⟨arr, -, h⟩ := Except.bind_eq_ok_iff.mp h
    exact absurd (Except.ok.inj h) (by simp)
  | map m =>
    obtain ⟨obj, -, h⟩ := Except.bind_eq_ok_iff.mp h
    exact absurd (Except.ok.inj h) (by simp)
  | _ => exact absurd h (by simp [ipldToDagJson, JsonWriter.write])

/-- What is written as an object: bytes and links, whose object has the key `/` alone, and maps. -/
theorem ipldToDagJson_eq_object (h : ipldToDagJson x = .ok (.object obj)) :
    (∃ v, obj = [("/", v)] ∧ ∀ m, x ≠ .map m) ∨
      ∃ m, x = .map m ∧ dagJsonWriter.writeEntries m [] = .ok obj := by
  cases x with
  | bytes b =>
    obtain rfl := Json.object.inj (Except.ok.inj h)
    exact Or.inl ⟨_, rfl, by simp⟩
  | link c =>
    obtain rfl := Json.object.inj (Except.ok.inj h)
    exact Or.inl ⟨_, rfl, by simp⟩
  | map m =>
    obtain ⟨obj', hobj, h⟩ := Except.bind_eq_ok_iff.mp h
    obtain rfl := Json.object.inj (Except.ok.inj h)
    exact Or.inr ⟨m, rfl, hobj⟩
  | integer i =>
    have hint : dagJsonInteger i = .ok (.object obj) := h
    rw [dagJsonInteger] at hint
    split at hint <;> exact absurd hint (by simp)
  | float f =>
    rw [ipldToDagJson, JsonWriter.write] at h
    split at h <;> exact absurd h (by simp)
  | list l =>
    obtain ⟨arr, -, h⟩ := Except.bind_eq_ok_iff.mp h
    exact absurd (Except.ok.inj h) (by simp)
  | _ => exact absurd h (by simp [ipldToDagJson, JsonWriter.write])

theorem dagJsonSpecial_eq_some {r : Except Error Ipld} (h : dagJsonSpecial obj = some r) :
    ((∃ s, obj = [("/", .string s)]) ∨ ∃ inner s, obj = [("/", .object inner)] ∧
      SortedMap.get? "bytes" inner = some (.string s)) ∧ ∀ m, r ≠ .ok (.map m) := by
  unfold dagJsonSpecial at h
  split at h
  · next v hv =>
    split at h
    · next hlen =>
      obtain ⟨⟨k, v'⟩, rfl⟩ := List.length_eq_one_iff.mp hlen
      -- the only key is the one that was found
      obtain rfl : "/" = k := by
        by_contra hk
        rw [SortedMap.get?_cons_of_ne hk] at hv
        exact absurd hv (by simp [SortedMap.get?])
      rw [SortedMap.get?_cons_self] at hv
      obtain rfl := Option.some.inj hv
      split at h
      · next cidStr =>
        refine ⟨Or.inl ⟨cidStr, rfl⟩, ?_⟩
        split at h <;> · obtain rfl := Option.some.inj h; simp
      · next inner =>
        split at h
        · next bytesStr hbytes =>
          refine ⟨Or.inr ⟨inner, bytesStr, rfl, hbytes⟩, ?_⟩
          split at h <;> · obtain rfl := Option.some.inj h; simp
        · exact absurd h (by simp)
      · exact absurd h (by simp)
    · exact absurd h (by simp)
  · exact absurd h (by simp)

/-- A map whose integers fit is written as a link or as bytes would be only if it has their form. -/
theorem dagJsonSpecial_eq_none (hm : (Ipld.map m).Valid)
    (hfits : (Ipld.map m).Everywhere Ipld.FitsI64) (hres : ¬ Reserved m)
    (hobj : SortedMap.Maps ipldToDagJson m obj) : dagJsonSpecial obj = none := by
  cases hspecial : dagJsonSpecial obj with
  | none => rfl
  | some r =>
    refine absurd ?_ hres
    have hsingle : ∀ v, obj = [("/", v)] → ∃ x, m = [("/", x)] ∧ ipldToDagJson x = .ok v := by
      rintro v rfl
      obtain ⟨⟨k, x⟩, rest, ⟨hk, hx⟩, hrest, rfl⟩ := List.forall₂_cons_right_iff.mp hobj
      obtain rfl := List.forall₂_nil_right_iff.mp hrest
      obtain rfl : "/" = k := hk
      exact ⟨x, rfl, hx⟩
    obtain ⟨⟨s, hs⟩ | ⟨inner, s, hinner, hbytes⟩, -⟩ := dagJsonSpecial_eq_some hspecial
    · -- a string comes from a string
      obtain ⟨x, rfl, hx⟩ := hsingle _ hs
      have hx' := (Ipld.everywhereMap_iff.mp hfits.2 _ List.mem_cons_self).self
      obtain rfl := ipldToDagJson_eq_string hx' hx
      exact .link s
    · -- an object with other keys than `/` comes from a map, and the string in it from a string
      obtain ⟨x, rfl, hx⟩ := hsingle _ hinner
      obtain ⟨v, rfl, -⟩ | ⟨m, rfl, hm'⟩ := ipldToDagJson_eq_object hx
      · rw [SortedMap.get?_cons_of_ne (by decide)] at hbytes
        exact absurd hbytes (by simp [SortedMap.get?])
      · have hsorted : SortedMap.Sorted m :=
          (Ipld.validMap_iff.mp hm.2.2 _ List.mem_cons_self).2.2.1
        rw [JsonWriter.writeEntries_eq, SortedMap.insertAllM_eq_ok hsorted] at hm'
        obtain ⟨y, hy, hyv⟩ := hm'.get?_left hbytes
        have hy' := (Ipld.everywhereMap_iff.mp
          (Ipld.everywhereMap_iff.mp hfits.2 _ List.mem_cons_self).2 _
            (SortedMap.mem_of_get? hy)).self
        obtain rfl := ipldToDagJson_eq_string hy' hyv
        exact .bytes hy

/-- What has the form of a link or of bytes is not read as a map. -/
theorem dagJsonSpecial_of_reserved (hm : (Ipld.map m).Valid) (hres : Reserved m)
    (hobj : SortedMap.Maps ipldToDagJson m obj) : dagJsonSpecial obj ≠ none := by
  cases hres with
  | link s =>
    obtain ⟨⟨k, v⟩, rest, ⟨hk, hv⟩, hrest, rfl⟩ := List.forall₂_cons_left_iff.mp hobj
    obtain rfl := List.forall₂_nil_left_iff.mp hrest
    obtain rfl : k = "/" := hk
    obtain rfl := Except.ok.inj hv
    simp only [dagJsonSpecial, SortedMap.get?_cons_self, List.length_singleton, if_true]
    split <;> simp
  | @bytes inner s h =>
    obtain ⟨⟨k, v⟩, rest, ⟨hk, hv⟩, hrest, rfl⟩ := List.forall₂_cons_left_iff.mp hobj
    obtain rfl := List.forall₂_nil_left_iff.mp hrest
    obtain rfl : k = "/" := hk
    obtain ⟨obj, hinner, hv⟩ := Except.bind_eq_ok_iff.mp hv
    obtain rfl := Except.ok.inj hv
    -- the key for bytes is still there when the inner map has been written
    have hsorted : SortedMap.Sorted inner :=
      (Ipld.validMap_iff.mp hm.2.2 _ List.mem_cons_self).2.2.1
    rw [JsonWriter.writeEntries_eq, SortedMap.insertAllM_eq_ok hsorted] at hinner
    obtain ⟨w, hw, hs⟩ := hinner.get?_right h
    obtain rfl := Except.ok.inj hs
    simp only [dagJsonSpecial, SortedMap.get?_cons_self, List.length_singleton, if_true, hw]
    split <;> simp

/-! ### The round trip -/

variable [SerdeJson]

theorem fromDagJson_of_toDagJson
    (hserde : ∀ v, ipldToDagJson x = .ok v → SerdeJson.toStringPretty v = .ok text →
      SerdeJson.fromStr text = .ok v) (h : x.toDagJson = .ok text) :
    ∃ v, ipldToDagJson x = .ok v ∧ Ipld.fromDagJson text = dagJsonToIpld v := by
  obtain ⟨v, hv, h⟩ := Except.bind_eq_ok_iff.mp h
  have hprint : SerdeJson.toStringPretty v = .ok text := Except.mapError_eq_ok_iff.mp h
  refine ⟨v, hv, ?_⟩
  rw [Ipld.fromDagJson, hserde v hv hprint]
  rfl

/-- **DAG-JSON round trip**, of values whose integers fit in an `i64` and whose maps do not have the
form of a link or of bytes. -/
theorem fromDagJson_toDagJson (hx : x.Valid) (hfits : x.Everywhere Ipld.FitsI64)
    (hres : x.Everywhere Ipld.NotReserved) (htexts : x.Everywhere Ipld.TextReadsBack)
    (hserde : ∀ v, ipldToDagJson x = .ok v → SerdeJson.toStringPretty v = .ok text →
      SerdeJson.fromStr text = .ok v) (h : x.toDagJson = .ok text) :
    Ipld.fromDagJson text = .ok x := by
  obtain ⟨v, hv, hread⟩ := fromDagJson_of_toDagJson hserde h
  rw [hread]
  refine readJson_write hx ?_ hv
  -- node by node
  refine ((hx.everywhere.and hfits).and (hres.and htexts)).mono ?_
  rintro y hall ⟨⟨hvalid, hfit⟩, hplain, htext⟩
  cases y with
  | integer i =>
    intro v hv
    have hrange : -2 ^ 63 ≤ i ∧ i ≤ 2 ^ 63 - 1 := hfit
    have hint : dagJsonInteger i = .ok v := hv
    rw [dagJsonInteger, if_pos hrange] at hint
    obtain rfl := Except.ok.inj hint
    have hi64 : (JsonNumber.int i).asI64 = some i := if_pos (by omega)
    rw [readJson, readNumber, hi64]
  | bytes b =>
    obtain ⟨data, hdata, hback⟩ := htext
    -- the writer drops the prefix, the reader puts it back
    have htail : dagJsonWriter.base64 b = data := by
      change String.ofList (Multibase.encodeBase64 b).toList.tail = data
      rw [hdata, String.toList_append]
      exact String.ofList_toList
    change dagJsonSpecial (JsonWriter.bytesObject (dagJsonWriter.base64 b)) = _
    rw [hdata] at hback
    rw [htail]
    simp only [dagJsonSpecial, JsonWriter.bytesObject, SortedMap.get?_cons_self,
      List.length_singleton, if_true, hback]
  | link c =>
    have hback : CidText.fromStr (CidText.toString c) = .ok c := htext
    change dagJsonSpecial (JsonWriter.linkObject (CidText.toString c)) = _
    simp only [dagJsonSpecial, JsonWriter.linkObject, SortedMap.get?_cons_self,
      List.length_singleton, if_true, hback]
  | map m =>
    intro obj hobj
    exact dagJsonSpecial_eq_none hvalid (hall.mono fun z _ hz => hz.1.2) hplain hobj
  | _ => trivial

omit [SerdeJson] in
/-- **Nothing else is read back**: a value that comes out of its own JSON has integers that fit and
no map of the form of a link or of bytes. -/
theorem everywhere_of_readsBack (hx : x.Valid) {v : Json} (hwrite : ipldToDagJson x = .ok v)
    (hread : dagJsonToIpld v = .ok x) : x.Everywhere fun y => y.FitsI64 ∧ y.NotReserved := by
  induction x generalizing v with
  | integer i =>
    refine ⟨?_, trivial⟩
    have hint : dagJsonInteger i = .ok v := hwrite
    rw [dagJsonInteger] at hint
    split at hint
    · next hrange => exact hrange
    · obtain rfl := Except.ok.inj hint
      exact absurd (Except.ok.inj hread) (by simp)
  | list l ih =>
    obtain ⟨vs, hvs, h⟩ := Except.bind_eq_ok_iff.mp hwrite
    obtain rfl := Except.ok.inj h
    obtain ⟨l', hl', h⟩ := Except.bind_eq_ok_iff.mp hread
    obtain rfl := Ipld.list.inj (Except.ok.inj h)
    rw [JsonWriter.writeItems_eq, Except.mapM_eq_ok_iff] at hvs
    rw [readItems_eq, Except.mapM_eq_ok_iff] at hl'
    refine ⟨⟨trivial, trivial⟩, Ipld.everywhereList_iff.mpr fun y hy => ?_⟩
    obtain ⟨i, rfl⟩ := List.mem_iff_get.mp hy
    have hi : i.1 < vs.length := hvs.length_eq ▸ i.2
    exact ih _ hy (Ipld.validList_iff.mp hx.2 _ hy) (hvs.get i.2 hi) (hl'.get hi i.2)
  | map m ih =>
    obtain ⟨obj, hobj, h⟩ := Except.bind_eq_ok_iff.mp hwrite
    obtain rfl := Except.ok.inj h
    have hsorted : SortedMap.Sorted m := hx.2.1
    rw [JsonWriter.writeEntries_eq, SortedMap.insertAllM_eq_ok hsorted] at hobj
    -- it was read as a map
    have hnone : dagJsonSpecial obj = none := by
      cases hspecial : dagJsonSpecial obj with
      | none => rfl
      | some r =>
        rw [dagJsonToIpld, readJson, hspecial] at hread
        exact absurd hread ((dagJsonSpecial_eq_some hspecial).2 m)
    have hback : SortedMap.Maps dagJsonToIpld obj m := by
      rw [dagJsonToIpld, readJson, hnone] at hread
      obtain ⟨m', hm', h⟩ := Except.bind_eq_ok_iff.mp hread
      obtain rfl := Ipld.map.inj (Except.ok.inj h)
      rwa [readEntries_eq, SortedMap.insertAllM_eq_ok (hobj.sorted hsorted)] at hm'
    refine ⟨⟨trivial, fun hres => dagJsonSpecial_of_reserved hx hres hobj hnone⟩,
      Ipld.everywhereMap_iff.mpr fun e he => ?_⟩
    obtain ⟨i, rfl⟩ := List.mem_iff_get.mp he
    have hi : i.1 < obj.length := hobj.length_eq ▸ i.2
    exact ih _ he (Ipld.validMap_iff.mp hx.2.2 _ he).2 (hobj.get i.2 hi).2 (hback.get hi i.2).2
  | _ => exact ⟨trivial, trivial⟩

end Spec

section Sample

open scoped CidReference

/-- A map with bytes, an integer, a link and a string. -/
def sampleMap : Ipld :=
  letI := CidReference.byteHash
  .map [("bytes", .bytes [1, 2, 3, 4, 5]), ("count", .integer 42),
    ("link", .link (Cid.ofData Codec.raw .sha256 [1])), ("name", .string "test")]

/-- That map as JSON. -/
def sampleJson : Json :=
  .object [("bytes", .object (JsonWriter.bytesObject "AQIDBAU")), ("count", .number (.int 42)),
    ("link", .object (JsonWriter.linkObject
      "bafkreicl6ujc6ncfktctxxroxognfn7d2fqavvrryoc2lv6m4i6hpbkfti")),
    ("name", .string "test")]

/-- The text of that JSON. -/
def sampleText : String :=
  "\x7b\n  \"bytes\": \x7b\n    \"/\": \x7b\n      \"bytes\": \"AQIDBAU\"\n    \x7d\n  \x7d,\n"
    ++ "  \"count\": 42,\n  \"link\": \x7b\n"
    ++ "    \"/\": \"bafkreicl6ujc6ncfktctxxroxognfn7d2fqavvrryoc2lv6m4i6hpbkfti\"\n  \x7d,\n"
    ++ "  \"name\": \"test\"\n\x7d"

/-- The base64 text of the bytes in it. -/
@[reducible]
def sampleMultibase : Multibase := ⟨fun _ => "mAQIDBAU", fun _ => .ok [1, 2, 3, 4, 5]⟩

/-- The JSON crate on one value and its text. -/
@[reducible]
def serdeOf (value : Json) (text : String) (bytes : Bytes) : SerdeJson :=
  ⟨fun _ => .ok text, fun _ => .ok value, fun _ => .ok bytes, fun _ => .ok value⟩

/-- A map in a list in a map. -/
def nestedMap : Ipld :=
  .map [("a", .list [.integer 42, .map [("b", .integer (-1)), ("c", .string "x")]]), ("d", .null)]

theorem everywhere_of_readsBack_nestedMap :
    nestedMap.Everywhere fun y => y.FitsI64 ∧ y.NotReserved :=
  letI := sampleMultibase
  letI := CidReference.byteHash
  everywhere_of_readsBack (by decide) (v := .object [("a", .array [.number (.int 42),
    .object [("b", .number (.int (-1))), ("c", .string "x")]]), ("d", .null)]) rfl rfl

theorem fromDagJson_toDagJson_sampleMap :
    letI := sampleMultibase
    letI := serdeOf sampleJson sampleText []
    sampleMap.toDagJson = .ok sampleText ∧ Ipld.fromDagJson sampleText = .ok sampleMap := by
  let := sampleMultibase
  let := serdeOf sampleJson sampleText []
  let := CidReference.byteHash
  -- the leaves of the map, as they are written
  have hlink : CidText.fromStr (CidText.toString (Cid.ofData Codec.raw .sha256 [1]))
      = .ok (Cid.ofData Codec.raw .sha256 [1]) := by
    decide +kernel
  have hcid : CidText.toString (Cid.ofData Codec.raw .sha256 [1])
      = "bafkreicl6ujc6ncfktctxxroxognfn7d2fqavvrryoc2lv6m4i6hpbkfti" := by
    decide +kernel
  have hint : dagJsonWriter.integer 42 = .ok (.number (.int 42)) := by
    change dagJsonInteger 42 = _
    exact if_pos (by decide)
  have hbytes : dagJsonWriter.base64 [1, 2, 3, 4, 5] = "AQIDBAU" := by
    decide +kernel
  have hjson : ipldToDagJson sampleMap = .ok sampleJson := by
    simp only [ipldToDagJson, sampleMap, JsonWriter.write, JsonWriter.writeEntries, hcid, hint,
      hbytes, Except.ok_bind]
    rfl
  have htext : sampleMap.toDagJson = .ok sampleText := by
    rw [Ipld.toDagJson, hjson]
    rfl
  -- the hypotheses, node by node
  have hfits : sampleMap.Everywhere Ipld.FitsI64 := by
    simp [sampleMap, Ipld.Everywhere, Ipld.EverywhereMap, Ipld.FitsI64]
  have hres : sampleMap.Everywhere Ipld.NotReserved := by
    refine ⟨fun h => ?_, trivial, trivial, trivial, trivial, trivial⟩
    exact absurd h.length_eq (by decide)
  have htexts : sampleMap.Everywhere Ipld.TextReadsBack :=
    ⟨trivial, ⟨"AQIDBAU", rfl, rfl⟩, trivial, hlink, trivial, trivial⟩
  refine ⟨htext, fromDagJson_toDagJson (by decide) hfits hres htexts (fun v hv _ => ?_) htext⟩
  rw [hjson] at hv
  obtain rfl := Except.ok.inj hv
  rfl

/-- The integer 2^63 comes back as a string; and a map with a string under `/` comes back as a
link. -/
theorem not_forall_fromDagJson_toDagJson :
    (¬ ∀ [Multibase] [CidText] [SerdeJson] (x : Ipld) (text : String), x.Valid →
      x.Everywhere Ipld.NotReserved → x.Everywhere Ipld.TextReadsBack →
        (∀ v, ipldToDagJson x = .ok v → SerdeJson.toStringPretty v = .ok text →
          SerdeJson.fromStr text = .ok v) → x.toDagJson = .ok text →
            Ipld.fromDagJson text = .ok x) ∧
    ¬ ∀ [Multibase] [CidText] [SerdeJson] (x : Ipld) (text : String), x.Valid →
      x.Everywhere Ipld.FitsI64 → x.Everywhere Ipld.TextReadsBack →
        (∀ v, ipldToDagJson x = .ok v → SerdeJson.toStringPretty v = .ok text →
          SerdeJson.fromStr text = .ok v) → x.toDagJson = .ok text →
            Ipld.fromDagJson text = .ok x := by
  let := sampleMultibase
  constructor
  · intro h
    -- a number beyond `i64` comes back as a string
    let := serdeOf (.string "9223372036854775808") "\"9223372036854775808\"" []
    have hjson : ipldToDagJson (.integer (2 ^ 63)) = .ok (.string "9223372036854775808") := by
      have hbig : dagJsonInteger (2 ^ 63) = .ok (.string (toString ((2 : ℤ) ^ 63))) :=
        if_neg (by decide)
      change dagJsonInteger (2 ^ 63) = _
      rw [hbig]
      rfl
    have hread := h (.integer (2 ^ 63)) "\"9223372036854775808\"" (by decide) trivial trivial
      (fun v hv _ => by rw [hjson] at hv; rw [← Except.ok.inj hv]; rfl)
      (by rw [Ipld.toDagJson, hjson]; rfl)
    exact absurd hread (by decide)
  · intro h
    let := CidReference.byteHash
    -- a map that looks like a link comes back as one
    let cid := Cid.ofData Codec.raw .sha256 [1]
    let text := "\x7b\n  \"/\": "
      ++ "\"bafkreicl6ujc6ncfktctxxroxognfn7d2fqavvrryoc2lv6m4i6hpbkfti\"\n\x7d"
    let := serdeOf (.object (JsonWriter.linkObject (CidText.toString cid))) text []
    have hread := h (.map [("/", .string (CidText.toString cid))]) text (by decide +kernel)
      ⟨trivial, trivial, trivial⟩ ⟨trivial, trivial, trivial⟩
      (fun v hv _ => by rw [← Except.ok.inj hv]; rfl) rfl
    have hlink : CidText.fromStr (CidText.toString cid) = .ok cid := by
      decide +kernel
    have hback : Ipld.fromDagJson text = .ok (.link cid) := by
      change dagJsonToIpld (.object (JsonWriter.linkObject (CidText.toString cid))) = _
      have hspecial : dagJsonSpecial (JsonWriter.linkObject (CidText.toString cid))
          = some (.ok (.link cid)) := by
        simp only [dagJsonSpecial, JsonWriter.linkObject, SortedMap.get?_cons_self,
          List.length_singleton, if_true, hlink]
      rw [dagJsonToIpld, readJson, hspecial]
    rw [hback] at hread
    exact absurd hread (by decide)

end Sample

end Ipfrs
