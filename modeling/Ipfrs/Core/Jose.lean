import Ipfrs.Lib.ListChunks
import Ipfrs.Core.DagCbor
import Ipfrs.Core.DagJson

/-!
# DAG-JOSE signatures

`JoseBuilder` and `JoseSignature` (`ipfrs-core/src/jose.rs`), with HS256.

A signature is a JWT whose claims have the payload as JSON. A `JoseSignature` has the payload a
second time, beside the token, and `verify_hs256` decodes the token and does not look at the payload
at all.

* `verifyHs256_eq_true` — a signature verifies whenever its token does;
* `fromDagJose_eq_ok`, `fromDagJose_toDagJose` — and any payload can be put beside any token in
  DAG-JOSE;
* `covers_iff` — so beside the token that `sign_hs256` made for one payload, another one is covered
  exactly when both have the same JSON.

`encode` and `decode` are code of the `jsonwebtoken` crate, a parameter here (`JsonWebToken`). Two
things are taken for granted of it. `decode` succeeds only on tokens whose claims were signed with
the key, and returns those claims: what was signed is a function `signed` of the token and the key,
which no code computes (`DecodesSigned`). And `decode` accepts what `encode` makes for `sign_hs256`
(`DecodesEncoded`).
-/

namespace Ipfrs

/-! ### Tokens -/

/-- The errors of `decode`: `InvalidSignature`, and all the others with their text. -/
inductive TokenError where
  | invalidSignature
  | other (msg : String)

/-- `jsonwebtoken` with HS256: `encode`, and `decode` with no required claims and no validation of
`exp` and `nbf`. -/
class JsonWebToken where
  encode : Json → Bytes → Except String String
  decode : String → Bytes → Except TokenError Json

/-! ### Base64 -/

def b64char (n : UInt32) : Char :=
  "ABCDEFGHIJKLMNOPQRSTUVWXYZabcdefghijklmnopqrstuvwxyz0123456789+/".toList.getD n.toNat ' '

/-- One chunk of `base64_encode`. -/
def base64EncodeChunk (chunk : Bytes) : List Char :=
  let b1 := chunk.getD 0 0
  let b2 := chunk.getD 1 0
  let b3 := chunk.getD 2 0
  let n := (b1.toUInt32 <<< 16) ||| (b2.toUInt32 <<< 8) ||| b3.toUInt32
  [b64char ((n >>> 18) &&& 0x3f), b64char ((n >>> 12) &&& 0x3f),
    if chunk.length > 1 then b64char ((n >>> 6) &&& 0x3f) else '=',
    if chunk.length > 2 then b64char (n &&& 0x3f) else '=']

def base64Encode (data : Bytes) : String :=
  String.ofList ((ListChunks.chunks 3 data).flatMap base64EncodeChunk)

def b64decodeChar (c : UInt8) : Except Error UInt8 :=
  if 'A'.toUInt8 ≤ c ∧ c ≤ 'Z'.toUInt8 then .ok (c - 'A'.toUInt8)
  else if 'a'.toUInt8 ≤ c ∧ c ≤ 'z'.toUInt8 then .ok (c - 'a'.toUInt8 + 26)
  else if '0'.toUInt8 ≤ c ∧ c ≤ '9'.toUInt8 then .ok (c - '0'.toUInt8 + 52)
  else if c = '+'.toUInt8 then .ok 62
  else if c = '/'.toUInt8 then .ok 63
  else .error (.deserialization ("Invalid base64 character: " ++ toString c.toNat))

/-- The loop of `base64_decode`. -/
def base64DecodeChunks : List Bytes → Bytes → Except Error Bytes
  | [], result => .ok result
  | chunk :: chunks, result =>
    if chunk.length < 2 then .ok result
    else do
      let has2 := decide (chunk.length > 2 ∧ chunk.getD 2 0 ≠ '='.toUInt8)
      let has3 := decide (chunk.length > 3 ∧ chunk.getD 3 0 ≠ '='.toUInt8)
      let c0 ← b64decodeChar (chunk.getD 0 0)
      let c1 ← b64decodeChar (chunk.getD 1 0)
      let c2 ← if has2 then b64decodeChar (chunk.getD 2 0) else .ok 0
      let c3 ← if has3 then b64decodeChar (chunk.getD 3 0) else .ok 0
      let result := result ++ [(c0 <<< 2) ||| (c1 >>> 4)]
      let result := if has2 then result ++ [(c1 <<< 4) ||| (c2 >>> 2)] else result
      let result := if has3 then result ++ [(c2 <<< 6) ||| c3] else result
      base64DecodeChunks chunks result

def base64Decode (s : String) : Except Error Bytes :=
  if s.isEmpty then .ok [] else base64DecodeChunks (ListChunks.chunks 4 (utf8 s)) []

example : base64Encode [104, 101, 108, 108, 111] = "aGVsbG8=" ∧
    base64Decode "aGVsbG8=" = .ok [104, 101, 108, 108, 111] := by
  decide +kernel

/-! ### Payloads as JSON -/

/-- The writer of `ipld_to_json_value`. -/
def joseWriter : JsonWriter where
  integer i :=
    if -2 ^ 63 ≤ i ∧ i ≤ 2 ^ 63 - 1 then .ok (.number (.int i))
    else .error (.serialization "Integer value out of i64 range")
  notFinite := .serialization "Invalid float value"
  base64 := base64Encode

section Model

variable [CidText]

def ipldToJsonValue : Ipld → Except Error Json := joseWriter.write

/-- The objects that `json_value_to_ipld` takes for bytes or for a link. -/
def joseSpecial (obj : List (String × Json)) : Option (Except Error Ipld) :=
  if obj.length = 1 then
    match SortedMap.get? "/" obj with
    | some (.object bytesObj) =>
      if bytesObj.length = 1 then
        match SortedMap.get? "bytes" bytesObj with
        | some (.string b64Str) => some ((base64Decode b64Str).map Ipld.bytes)
        | _ => none
      else none
    | some (.string cidStr) =>
      match CidText.fromStr cidStr with
      | .ok cid => some (.ok (.link cid))
      | .error e => some (.error (.cid ("Failed to parse CID: " ++ e)))
    | _ => none
  else none

def jsonValueToIpld : Json → Except Error Ipld := readJson joseSpecial

/-! ### Signatures -/

structure JoseSignature where
  payload : Ipld
  signature : String
  algorithm : String

structure JoseBuilder where
  payload : Option Ipld := none

def JoseBuilder.withPayload (builder : JoseBuilder) (payload : Ipld) : JoseBuilder :=
  { builder with payload := some payload }

section Token

variable [JsonWebToken]

def JoseBuilder.signHs256 (builder : JoseBuilder) (secret : Bytes) : Except Error JoseSignature :=
  match builder.payload with
  | none => .error (.invalidInput "No payload set")
  | some payload =>
    if secret.length < 32 then
      .error (.invalidInput "HMAC secret must be at least 32 bytes")
    else do
      let jsonPayload ← ipldToJsonValue payload
      let claims := Json.object [("payload", jsonPayload)]
      let token ← (JsonWebToken.encode claims secret).mapError fun e =>
        .serialization ("Failed to sign data: " ++ e)
      return { payload := payload, signature := token, algorithm := "HS256" }

namespace JoseSignature

omit [CidText] in
def verifyHs256 (s : JoseSignature) (secret : Bytes) : Except Error Bool :=
  if s.algorithm ≠ "HS256" then
    .error (.invalidInput ("Expected HS256 algorithm, got " ++ s.algorithm))
  else
    match JsonWebToken.decode s.signature secret with
    | .ok _ => .ok true
    | .error .invalidSignature => .ok false
    | .error (.other e) => .error (.verification ("Failed to verify signature: " ++ e))

end JoseSignature

end Token

namespace JoseSignature

variable [SerdeJson]

def toDagJose (s : JoseSignature) : Except Error Bytes := do
  let payload ← ipldToJsonValue s.payload
  let joseObject := Json.object [("payload", payload),
    ("signatures", .array [.object [("protected", .string s.algorithm),
      ("signature", .string s.signature)]])]
  (SerdeJson.toVec joseObject).mapError fun e =>
    .serialization ("Failed to serialize DAG-JOSE: " ++ e)

/-- `ok_or_else` with a `Deserialization` error. -/
def required {α : Type} (msg : String) : Option α → Except Error α
  | some a => .ok a
  | none => .error (.deserialization msg)

def fromDagJose (data : Bytes) : Except Error JoseSignature := do
  let joseObject ← (SerdeJson.fromSlice data).mapError fun e =>
    .deserialization ("Failed to parse DAG-JOSE: " ++ e)
  let payloadJson ← required "Missing payload field" (joseObject.get "payload")
  let signatures ← required "Missing or invalid signatures"
    ((joseObject.get "signatures").bind Json.asArray)
  match signatures with
  | [] => .error (.deserialization "No signatures found")
  | firstSig :: _ =>
    let algorithm ← required "Missing algorithm" ((firstSig.get "protected").bind Json.asStr)
    let signature ← required "Missing signature" ((firstSig.get "signature").bind Json.asStr)
    let payload ← jsonValueToIpld payloadJson
    return { payload := payload, signature := signature, algorithm := algorithm }

end JoseSignature

end Model

/-! ### What is verified -/

section Spec

variable [CidText] [JsonWebToken]

/-- The token is accepted: the algorithm is the right one, and the token decodes. -/
def JoseSignature.Accepted (s : JoseSignature) (secret : Bytes) : Prop :=
  s.algorithm = "HS256" ∧ ∃ claims, JsonWebToken.decode s.signature secret = .ok claims

/-- The claims have the payload as JSON. -/
def HasPayload (claims : Json) (payload : Ipld) : Prop :=
  ∃ v, ipldToJsonValue payload = .ok v ∧ claims.get "payload" = some v

/-- `decode` succeeds only on a token whose claims were signed with the key, and returns those
claims. `signed` are the claims of a token that were signed with a key. -/
def DecodesSigned (signed : String → Bytes → Option Json) : Prop :=
  ∀ token secret claims, JsonWebToken.decode token secret = .ok claims →
    signed token secret = some claims

/-- `decode` accepts the tokens of `sign_hs256` under the same secret, and returns their claims. Of
what `verify_hs256` leaves to be validated, these claims have nothing. -/
def DecodesEncoded : Prop :=
  ∀ v secret token, JsonWebToken.encode (.object [("payload", v)]) secret = .ok token →
    JsonWebToken.decode token secret = .ok (.object [("payload", v)])

/-- **The signature covers the payload**: when it verifies, the claims that were signed have the
payload. -/
def JoseSignature.Covers (signed : String → Bytes → Option Json) (s : JoseSignature)
    (secret : Bytes) : Prop :=
  s.verifyHs256 secret = .ok true →
    ∃ claims, signed s.signature secret = some claims ∧ HasPayload claims s.payload

variable {s : JoseSignature} {secret : Bytes}

omit [CidText] in
/-- **A signature verifies whenever its token does**, whatever the payload beside the token. -/
theorem JoseSignature.verifyHs256_eq_true :
    s.verifyHs256 secret = .ok true ↔ s.Accepted secret := by
  unfold verifyHs256 Accepted
  by_cases halg : s.algorithm = "HS256"
  · rw [if_neg (not_not_intro halg)]
    cases hdecode : JsonWebToken.decode s.signature secret with
    | ok claims => simp [halg]
    | error e =>
      cases e with
      | invalidSignature => simp
      | other msg => simp
  · rw [if_pos halg]
    simp [halg]

omit [JsonWebToken] in
/-- The claims of `sign_hs256` have the payloads with the JSON of the one that was signed. -/
theorem hasPayload_iff {payload₀ payload : Ipld} {v : Json}
    (hv : ipldToJsonValue payload₀ = .ok v) :
    HasPayload (.object [("payload", v)]) payload ↔
      ipldToJsonValue payload = ipldToJsonValue payload₀ := by
  have hget : (Json.object [("payload", v)]).get "payload" = some v :=
    SortedMap.get?_cons_self _ _ _
  rw [HasPayload, hget, hv]
  constructor
  · rintro ⟨w, hw, hsame⟩
    rw [hw, Option.some.inj hsame]
  · exact fun h => ⟨v, h, rfl⟩

theorem JoseBuilder.signHs256_eq_ok {builder : JoseBuilder} (h : builder.signHs256 secret = .ok s) :
    ∃ v, ipldToJsonValue s.payload = .ok v ∧
      JsonWebToken.encode (.object [("payload", v)]) secret = .ok s.signature ∧
        s.algorithm = "HS256" := by
  unfold JoseBuilder.signHs256 at h
  split at h
  · exact absurd h (by simp)
  · split at h
    · exact absurd h (by simp)
    · obtain ⟨v, hv, h⟩ := Except.bind_eq_ok_iff.mp h
      obtain ⟨token, htoken, h⟩ := Except.bind_eq_ok_iff.mp h
      obtain rfl := Except.ok.inj h
      exact ⟨v, hv, Except.mapError_eq_ok_iff.mp htoken, rfl⟩

namespace JoseSignature

variable {signed : String → Bytes → Option Json}
variable {s : JoseSignature} {secret : Bytes}

/-- Beside a token with these claims, what is accepted is covered if it is the payload in them. -/
theorem covers_iff_of_signed {claims : Json} (hclaims : signed s.signature secret = some claims) :
    Covers signed s secret ↔ ¬ s.Accepted secret ∨ HasPayload claims s.payload := by
  rw [Covers, verifyHs256_eq_true, ← imp_iff_not_or]
  refine imp_congr_right fun _ => ⟨?_, fun hpayload => ⟨claims, hclaims, hpayload⟩⟩
  rintro ⟨claims', hclaims', hpayload⟩
  obtain rfl := Option.some.inj (hclaims.symm.trans hclaims')
  exact hpayload

theorem verifyHs256_signHs256 (hencoded : DecodesEncoded) {builder : JoseBuilder}
    (hsign : builder.signHs256 secret = .ok s) : s.verifyHs256 secret = .ok true := by
  obtain ⟨v, -, htoken, halg⟩ := JoseBuilder.signHs256_eq_ok hsign
  exact verifyHs256_eq_true.mpr ⟨halg, _, hencoded v secret _ htoken⟩

/-- **What the signature covers**, by how the token came about. What `sign_hs256` makes verifies,
and beside its token, under the right algorithm, a payload is covered if and only if it has the same
JSON as the one that was signed. Beside another token that was signed with the secret, if it is
accepted, a payload is covered if and only if the claims have it. No other token is accepted. -/
theorem covers_iff (hsigned : DecodesSigned signed) (hencoded : DecodesEncoded) (s : JoseSignature)
    (secret : Bytes) :
    (∀ {builder : JoseBuilder} {s₀ : JoseSignature}, builder.signHs256 secret = .ok s₀ →
      s.signature = s₀.signature → s₀.verifyHs256 secret = .ok true ∧ (Covers signed s secret ↔
        s.algorithm ≠ "HS256" ∨ ipldToJsonValue s.payload = ipldToJsonValue s₀.payload)) ∧
      (∀ {claims : Json}, signed s.signature secret = some claims → (Covers signed s secret ↔
        ¬ s.Accepted secret ∨ HasPayload claims s.payload)) ∧
        (signed s.signature secret = none → Covers signed s secret) := by
  refine ⟨fun hsign htoken => ?_, covers_iff_of_signed, fun hnone hverify => ?_⟩
  · refine ⟨verifyHs256_signHs256 hencoded hsign, ?_⟩
    obtain ⟨v, hv, htoken₀, -⟩ := JoseBuilder.signHs256_eq_ok hsign
    have hdecode := hencoded v secret _ htoken₀
    rw [← htoken] at hdecode
    have haccepted : s.Accepted secret ↔ s.algorithm = "HS256" :=
      ⟨fun h => h.1, fun halg => ⟨halg, _, hdecode⟩⟩
    rw [covers_iff_of_signed (hsigned _ _ _ hdecode), haccepted, hasPayload_iff hv]
  · -- an accepted token was signed with the secret
    obtain ⟨-, claims, hdecode⟩ := verifyHs256_eq_true.mp hverify
    exact absurd ((hsigned _ _ _ hdecode).symm.trans hnone) (by simp)

end JoseSignature

end Spec

/-! ### DAG-JOSE -/

namespace JoseSignature

theorem required_eq_ok {α : Type} {msg : String} {o : Option α} {a : α} :
    required msg o = .ok a ↔ o = some a := by
  cases o <;> simp [required]

section DagJose

variable [CidText] [SerdeJson]
variable {data : Bytes} {s : JoseSignature}

/-- **What `from_dag_jose` reads**: a payload, and the first of the signatures. Nothing relates the
two. -/
theorem fromDagJose_eq_ok :
    fromDagJose data = .ok s ↔
      ∃ joseObject payload firstSig rest, SerdeJson.fromSlice data = .ok joseObject ∧
        joseObject.get "payload" = some payload ∧
        (joseObject.get "signatures").bind Json.asArray = some (firstSig :: rest) ∧
        (firstSig.get "protected").bind Json.asStr = some s.algorithm ∧
        (firstSig.get "signature").bind Json.asStr = some s.signature ∧
        jsonValueToIpld payload = .ok s.payload := by
  constructor
  · intro h
    -- every step of `from_dag_jose` has succeeded
    obtain ⟨joseObject, hparse, h⟩ := Except.bind_eq_ok_iff.mp h
    obtain ⟨payload, hpayload, h⟩ := Except.bind_eq_ok_iff.mp h
    obtain ⟨signatures, hsignatures, h⟩ := Except.bind_eq_ok_iff.mp h
    cases signatures with
    | nil => exact absurd h (by simp)
    | cons firstSig rest =>
      obtain ⟨algorithm, halgorithm, h⟩ := Except.bind_eq_ok_iff.mp h
      obtain ⟨signature, hsignature, h⟩ := Except.bind_eq_ok_iff.mp h
      obtain ⟨x, hx, h⟩ := Except.bind_eq_ok_iff.mp h
      obtain rfl := Except.ok.inj h
      exact ⟨joseObject, payload, firstSig, rest, Except.mapError_eq_ok_iff.mp hparse,
        required_eq_ok.mp hpayload, required_eq_ok.mp hsignatures, required_eq_ok.mp halgorithm,
        required_eq_ok.mp hsignature, hx⟩
  · rintro ⟨joseObject, payload, firstSig, rest, hparse, hpayload, hsignatures, halgorithm,
      hsignature, hx⟩
    refine Except.bind_eq_ok_iff.mpr ⟨_, Except.mapError_eq_ok_iff.mpr hparse, ?_⟩
    refine Except.bind_eq_ok_iff.mpr ⟨_, required_eq_ok.mpr hpayload, ?_⟩
    refine Except.bind_eq_ok_iff.mpr ⟨_, required_eq_ok.mpr hsignatures, ?_⟩
    refine Except.bind_eq_ok_iff.mpr ⟨_, required_eq_ok.mpr halgorithm, ?_⟩
    refine Except.bind_eq_ok_iff.mpr ⟨_, required_eq_ok.mpr hsignature, ?_⟩
    exact Except.bind_eq_ok_iff.mpr ⟨_, hx, rfl⟩

/-- **Any payload can stand beside any token**: `to_dag_jose` writes both, and `from_dag_jose` reads
both, if the JSON of the payload reads back. -/
theorem fromDagJose_toDagJose
    (hserde : ∀ v, SerdeJson.toVec v = .ok data → SerdeJson.fromSlice data = .ok v)
    (hpayload : ∀ v, ipldToJsonValue s.payload = .ok v → jsonValueToIpld v = .ok s.payload)
    (h : s.toDagJose = .ok data) : fromDagJose data = .ok s := by
  obtain ⟨v, hv, h⟩ := Except.bind_eq_ok_iff.mp h
  have hparse := hserde _ (Except.mapError_eq_ok_iff.mp h)
  exact fromDagJose_eq_ok.mpr ⟨_, v, _, [], hparse, rfl, rfl, rfl, rfl, hpayload v hv⟩

end DagJose

end JoseSignature

/-! ### A fixed token -/

section Sample

open scoped CidReference

/-- A 32-byte secret. -/
def sampleSecret : Bytes := utf8 "my-secret-key-must-be-32-bytes!!"

/-- The claims with the payload `Hello, DAG-JOSE!`. -/
def sampleClaims : Json := .object [("payload", .string "Hello, DAG-JOSE!")]

/-- The HS256 token of these claims. -/
def sampleToken : String :=
  "eyJ0eXAiOiJKV1QiLCJhbGciOiJIUzI1NiJ9.eyJwYXlsb2FkIjoiSGVsbG8sIERBRy1KT1NFISJ9."
    ++ "j_-yE_E6Ap8dBVaMLBP292_sbHJRQ7GZ_PRJDMobUcA"

/-- The token crate on that token. -/
@[reducible]
def tokenCrate : JsonWebToken where
  encode
    | .object [("payload", .string "Hello, DAG-JOSE!")], secret =>
      if secret = sampleSecret then .ok sampleToken else .error "another secret"
    | _, _ => .error "other claims"
  decode token secret :=
    if token = sampleToken ∧ secret = sampleSecret then .ok sampleClaims
    else .error .invalidSignature

/-- Its claims are signed with the secret. -/
def sampleSigned (token : String) (secret : Bytes) : Option Json :=
  if token = sampleToken ∧ secret = sampleSecret then some sampleClaims else none

theorem decodesSigned_sample : @DecodesSigned tokenCrate sampleSigned := by
  intro token secret claims h
  unfold sampleSigned
  split
  · next hsame =>
    rw [← Except.ok.inj ((if_pos hsame).symm.trans h)]
  · next hother => exact absurd ((if_neg hother).symm.trans h) (by simp)

theorem decodesEncoded_sample : @DecodesEncoded tokenCrate := by
  intro v secret token h
  unfold JsonWebToken.encode tokenCrate at h
  dsimp only at h
  split at h
  · next hclaims =>
    split at h
    · next hsecret =>
      obtain rfl := Except.ok.inj h
      obtain rfl : v = .string "Hello, DAG-JOSE!" := by simpa using hclaims
      exact if_pos ⟨rfl, hsecret⟩
    · exact absurd h (by simp)
  · exact absurd h (by simp)

variable (payload : String)

/-- The signature with its own payload, and with another one beside the token. -/
def signedHello : JoseSignature where
  payload := .string payload
  signature := sampleToken
  algorithm := "HS256"

/-- The bytes of its DAG-JOSE object. -/
def joseText : String :=
  "\x7b\"payload\":\"" ++ payload
    ++ "\",\"signatures\":[\x7b\"protected\":\"HS256\",\"signature\":\"" ++ sampleToken
    ++ "\"\x7d]\x7d"

/-- The object. -/
def joseObject : Json :=
  .object [("payload", .string payload), ("signatures", .array [.object
    [("protected", .string "HS256"), ("signature", .string sampleToken)]])]

/-- The JSON crate on that object. -/
@[reducible]
def joseSerde : SerdeJson where
  toStringPretty _ := .ok (joseText payload)
  fromStr _ := .ok (joseObject payload)
  toVec
    | .object [("payload", .string p), ("signatures", .array [.object
        [("protected", .string algorithm), ("signature", .string token)]])] =>
      if p = payload ∧ algorithm = "HS256" ∧ token = sampleToken then .ok (utf8 (joseText payload))
      else .error "another object"
    | _ => .error "another object"
  fromSlice _ := .ok (joseObject payload)

theorem fromSlice_joseSerde {payload : String} {v : Json} {data : Bytes}
    (h : (joseSerde payload).toVec v = .ok data) : (joseSerde payload).fromSlice data = .ok v := by
  unfold SerdeJson.toVec joseSerde at h
  dsimp only at h
  split at h
  · split at h
    · next hsame =>
      obtain ⟨rfl, rfl, rfl⟩ := hsame
      rfl
    · exact absurd h (by simp)
  · exact absurd h (by simp)

/-- What is signed goes through DAG-JOSE and is covered, and another payload beside its token is
not. -/
theorem covers_sample :
    letI := tokenCrate
    letI := joseSerde "Hello, DAG-JOSE!"
    (JoseBuilder.withPayload {} (.string "Hello, DAG-JOSE!")).signHs256 sampleSecret
        = .ok (signedHello "Hello, DAG-JOSE!") ∧
      (∀ data, (signedHello "Hello, DAG-JOSE!").toDagJose = .ok data →
        JoseSignature.fromDagJose data = .ok (signedHello "Hello, DAG-JOSE!")) ∧
      (signedHello "Hello, DAG-JOSE!").Covers sampleSigned sampleSecret ∧
      ¬ (signedHello "Pay Mallory").Covers sampleSigned sampleSecret := by
  let := tokenCrate
  let := joseSerde "Hello, DAG-JOSE!"
  have hsign : (JoseBuilder.withPayload {} (.string "Hello, DAG-JOSE!")).signHs256 sampleSecret
      = .ok (signedHello "Hello, DAG-JOSE!") := by
    have hlength : ¬ sampleSecret.length < 32 := by decide +kernel
    unfold JoseBuilder.signHs256 JoseBuilder.withPayload
    dsimp only
    rw [if_neg hlength]
    rfl
  have hcovers (payload : String) : (signedHello payload).Covers sampleSigned sampleSecret ↔
      (signedHello payload).algorithm ≠ "HS256" ∨ ipldToJsonValue (.string payload)
        = ipldToJsonValue (.string "Hello, DAG-JOSE!") :=
    ((JoseSignature.covers_iff decodesSigned_sample decodesEncoded_sample (signedHello payload)
      sampleSecret).1 hsign rfl).2
  refine ⟨hsign, fun data hdata => ?_, (hcovers _).mpr (Or.inr rfl), fun h => ?_⟩
  · refine JoseSignature.fromDagJose_toDagJose (fun v => fromSlice_joseSerde) (fun v hv => ?_) hdata
    obtain rfl := Except.ok.inj hv
    rfl
  · rcases (hcovers _).mp h with halg | hjson
    · exact halg rfl
    · exact absurd (Json.string.inj (Except.ok.inj hjson)) (by decide)

/-- **A payload that nobody signed.** The token of one payload verifies beside another one. -/
theorem not_forall_covers :
    letI := tokenCrate
    letI := joseSerde "Pay Mallory"
    DecodesSigned sampleSigned ∧
      ¬ ∀ (data : Bytes) (s : JoseSignature) (secret : Bytes),
        JoseSignature.fromDagJose data = .ok s → s.Covers sampleSigned secret := by
  let := tokenCrate
  let := joseSerde "Pay Mallory"
  refine ⟨decodesSigned_sample, fun hall => ?_⟩
  have hread : JoseSignature.fromDagJose (utf8 (joseText "Pay Mallory"))
      = .ok (signedHello "Pay Mallory") :=
    JoseSignature.fromDagJose_eq_ok.mpr
      ⟨joseObject "Pay Mallory", _, _, _, rfl, rfl, rfl, rfl, rfl, rfl⟩
  have hverify : (signedHello "Pay Mallory").verifyHs256 sampleSecret = .ok true :=
    JoseSignature.verifyHs256_eq_true.mpr ⟨rfl, _, if_pos ⟨rfl, rfl⟩⟩
  obtain ⟨claims, hclaims, v, hv, hget⟩ := hall _ _ sampleSecret hread hverify
  obtain rfl : sampleClaims = claims := by
    have hsigned : sampleSigned sampleToken sampleSecret = some sampleClaims := if_pos ⟨rfl, rfl⟩
    exact Option.some.inj (hsigned.symm.trans hclaims)
  obtain rfl := Except.ok.inj hv
  have hpayload : sampleClaims.get "payload" = some (.string "Hello, DAG-JOSE!") := rfl
  rw [hpayload] at hget
  exact absurd (Json.string.inj (Option.some.inj hget)) (by decide)

end Sample

end Ipfrs
