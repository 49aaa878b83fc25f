import Ipfrs.Core.CidReference
import Ipfrs.Core.Float64
import Ipfrs.Tensorlogic.Ir

/-!
# Rules as IPLD nodes

The conversion of rules to the form in which they are shared, and back. Every number becomes an
`f64`: integers by a cast, booleans as 0 and 1, floating point constants by parsing their text. On
the way back an integral number becomes an integer, and any other the text of it.

* `termOfIpld_eq_iff` — a term comes back if and only if every constant in it does;
* `numberToConstant_ofI64_iff` — which integers do: those with at most 53 significant bits, without
  the least one;
* `ruleIpldToRule_eq_iff` — a rule comes back if and only if every constant in it `Survives`.
-/

namespace Ipfrs.Tensorlogic

/-- `TermIpld`. The value of a number is its bit pattern. -/
inductive TermIpld where
  | atom (value : String)
  | variable (name : String)
  | number (value : UInt64)
  | compound (functor : String) (args : List TermIpld)
  | list (items : List TermIpld)
  | tensor (dtype : String) (shape : List UInt64) (cid : Option String)
  | ref (cid : String) (hint : Option String)

structure RuleIpld where
  head : TermIpld
  body : List TermIpld
  metadata : List (String × String)

section Codec

variable [CidText]

mutual

/-- `TermIpld::try_from`. -/
def termToIpld : Term → Except Error TermIpld
  | .var name => .ok (.variable name)
  | .const (.string s) => .ok (.atom s)
  | .const (.int i) => .ok (.number (F64.ofI64 i))
  | .const (.bool b) => .ok (.number (if b then F64.ofI64 1 else F64.ofI64 0))
  | .const (.float s) =>
    match F64.parse s with
    | some value => .ok (.number value)
    | none => .error (.invalidData ("Cannot parse float constant: " ++ s))
  | .func functor args => do
    let ipldArgs ← termsToIpld args
    return .compound functor ipldArgs
  | .ref r => .ok (.ref (CidText.toString r.cid) r.hint)

/-- `TermIpld::try_from` for every argument. -/
def termsToIpld : List Term → Except Error (List TermIpld)
  | [] => .ok []
  | t :: ts => do
    let ipld ← termToIpld t
    let ipldArgs ← termsToIpld ts
    return ipld :: ipldArgs

end

/-- The constant that a number becomes: an integer if it is integral and less than `i64::MAX as
f64`, which is `2 ^ 63`. -/
def numberToConstant (value : UInt64) : Constant :=
  if F64.isIntegral value && F64.absLt value (2 ^ 63) then .int (F64.asI64 value)
  else .float (F64.toString value)

mutual

/-- `Term::try_from`. -/
def termOfIpld : TermIpld → Except Error Term
  | .atom value => .ok (.const (.string value))
  | .variable name => .ok (.var name)
  | .number value => .ok (.const (numberToConstant value))
  | .compound functor args => do
    let irArgs ← termsOfIpld args
    return .func functor irArgs
  | .list items => do
    let irItems ← termsOfIpld items
    return .func "list" irItems
  | .tensor dtype shape cid =>
    .ok (.func "tensor"
      [.const (.string dtype), .func "shape" (shape.map fun d => .const (.int d.toInt64)),
        .const (.string (cid.getD "none"))])
  | .ref cid hint =>
    match CidText.fromStr cid with
    | .ok parsedCid => .ok (.ref ⟨parsedCid, hint⟩)
    | .error e => .error (.invalidData ("Invalid CID in TermIpld::Ref: " ++ e))

/-- `Term::try_from` for every argument. -/
def termsOfIpld : List TermIpld → Except Error (List Term)
  | [] => .ok []
  | ipld :: ipldArgs => do
    let t ← termOfIpld ipld
    let ts ← termsOfIpld ipldArgs
    return t :: ts

end

def predicateToTermIpld (pred : Predicate) : Except Error TermIpld := do
  let args ← pred.args.mapM termToIpld
  return .compound pred.name args

/-- `term_ipld_to_predicate`, with the `Debug` form that its error shows. -/
def termIpldToPredicate (debug : TermIpld → String) (ipld : TermIpld) : Except Error Predicate :=
  match ipld with
  | .compound functor args => do
    let irArgs ← args.mapM termOfIpld
    return ⟨functor, irArgs⟩
  | other =>
    .error
      (.invalidData ("Expected Compound TermIpld for Predicate conversion, got: " ++ debug other))

def ruleToRuleIpld (rule : Rule) : Except Error RuleIpld := do
  let head ← predicateToTermIpld rule.head
  let body ← rule.body.mapM predicateToTermIpld
  return { head := head, body := body, metadata := [] }

def ruleIpldToRule (debug : TermIpld → String) (ipld : RuleIpld) : Except Error Rule := do
  let head ← termIpldToPredicate debug ipld.head
  let body ← ipld.body.mapM (termIpldToPredicate debug)
  return ⟨head, body⟩

end Codec

/-! ### What a rule holds -/

mutual

/-- The constants of a term. -/
def Term.constants : Term → List Constant
  | .var _ => []
  | .const c => [c]
  | .func _ args => constantsAll args
  | .ref _ => []

/-- The constants of all arguments. -/
def Term.constantsAll : List Term → List Constant
  | [] => []
  | t :: ts => t.constants ++ constantsAll ts

end

mutual

/-- The CIDs of the references in a term. -/
def Term.cids : Term → List Cid
  | .var _ => []
  | .const _ => []
  | .func _ args => cidsAll args
  | .ref r => [r.cid]

/-- The CIDs of all arguments. -/
def Term.cidsAll : List Term → List Cid
  | [] => []
  | t :: ts => t.cids ++ cidsAll ts

end

theorem Term.constantsAll_eq (ts : List Term) : constantsAll ts = ts.flatMap constants := by
  induction ts with
  | nil => rfl
  | cons t ts ih => rw [constantsAll, ih, List.flatMap_cons]

theorem Term.cidsAll_eq (ts : List Term) : cidsAll ts = ts.flatMap cids := by
  induction ts with
  | nil => rfl
  | cons t ts ih => rw [cidsAll, ih, List.flatMap_cons]

/-- The constants of a rule. -/
def Rule.constants (r : Rule) : List Constant :=
  (r.head :: r.body).flatMap fun p => p.args.flatMap Term.constants

/-- The CIDs of the references in a rule. -/
def Rule.cids (r : Rule) : List Cid :=
  (r.head :: r.body).flatMap fun p => p.args.flatMap Term.cids

/-- The constants that come back as they were: strings, the integers with at most 53 significant
bits but the least one, and the texts that are the shortest ones of numbers that are not integral or
not less than `2 ^ 63`. No boolean does. -/
def Constant.Survives : Constant → Prop
  | .string _ => True
  | .int i => i ≠ Int64.minValue ∧ ∃ m k, m < 2 ^ 53 ∧ i.toInt.natAbs = m * 2 ^ k
  | .bool _ => False
  | .float s => ∃ value, F64.parse s = some value ∧
      ¬ (F64.isIntegral value ∧ F64.absLt value (2 ^ 63)) ∧ F64.toString value = s

/-! ### Constants -/

variable {value : UInt64}

theorem numberToConstant_eq_int (h : F64.isIntegral value ∧ F64.absLt value (2 ^ 63)) :
    numberToConstant value = .int (F64.asI64 value) := by
  rw [numberToConstant, if_pos (Bool.and_eq_true _ _ ▸ h)]

theorem numberToConstant_eq_float (h : ¬ (F64.isIntegral value ∧ F64.absLt value (2 ^ 63))) :
    numberToConstant value = .float (F64.toString value) := by
  rw [numberToConstant, if_neg (Bool.and_eq_true _ _ ▸ h)]

theorem numberToConstant_ne_bool (value : UInt64) (b : Bool) :
    numberToConstant value ≠ .bool b := by
  unfold numberToConstant
  split
  · exact Constant.noConfusion
  · exact Constant.noConfusion

/-- **An integer comes back** when it has at most 53 significant bits and is not the least one. -/
theorem numberToConstant_ofI64_iff {i : Int64} :
    numberToConstant (F64.ofI64 i) = .int i ↔
      i ≠ Int64.minValue ∧ ∃ m k, m < 2 ^ 53 ∧ i.toInt.natAbs = m * 2 ^ k := by
  have hnat := F64.isNat_ofI64 i
  have hlow := i.le_toInt
  have hhigh := i.toInt_lt
  have hmin : i = Int64.minValue ↔ i.toInt = -2 ^ 63 := by
    rw [← Int64.toInt_inj]
    rfl
  rw [← F64.round53_eq_iff]
  -- a number that rounds up to `2 ^ 63` is out of the range of `i64`, and read as a float
  by_cases hlt : F64.round53 i.toInt.natAbs < 2 ^ 63
  · rw [numberToConstant_eq_int ⟨hnat.isIntegral, hnat.absLt_iff.mpr hlt⟩, Constant.int.injEq,
      ← Int64.toInt_inj, F64.toInt_asI64_ofI64 hlt]
    constructor
    · intro h
      split at h
      · exact ⟨fun e => by rw [hmin] at e; omega, by omega⟩
      · exact ⟨fun e => by rw [hmin] at e; omega, by omega⟩
    · rintro ⟨-, h⟩
      rw [h]
      split
      · omega
      · omega
  · rw [numberToConstant_eq_float fun h => hlt (hnat.absLt_iff.mp h.2)]
    refine iff_of_false Constant.noConfusion ?_
    rintro ⟨hne, h⟩
    rw [Ne, hmin] at hne
    rw [h] at hlt
    omega

/-! ### Terms and rules -/

section RoundTrip

variable [CidText]
variable {ipld : TermIpld}

/-- A constant that is converted comes back if and only if it survives. -/
theorem termOfIpld_const_iff {c : Constant} (h : termToIpld (.const c) = .ok ipld) :
    termOfIpld ipld = .ok (.const c) ↔ c.Survives := by
  cases c with
  | string s =>
    obtain rfl := Except.ok.inj h
    exact iff_of_true rfl trivial
  | int i =>
    obtain rfl := Except.ok.inj h
    rw [termOfIpld, Except.ok.injEq, Term.const.injEq]
    exact numberToConstant_ofI64_iff
  | bool b =>
    obtain rfl := Except.ok.inj h
    rw [termOfIpld, Except.ok.injEq, Term.const.injEq]
    exact iff_of_false (numberToConstant_ne_bool _ b) id
  | float s =>
    rw [termToIpld] at h
    -- a float survives if it is read back as one, and with the same text
    cases hparse : F64.parse s with
    | none =>
      rw [hparse] at h
      cases h
    | some value =>
      rw [hparse] at h
      obtain rfl := Except.ok.inj h
      rw [termOfIpld, Except.ok.injEq, Term.const.injEq, Constant.Survives]
      constructor
      · intro hback
        by_cases hint : F64.isIntegral value ∧ F64.absLt value (2 ^ 63)
        · rw [numberToConstant_eq_int hint] at hback
          cases hback
        · rw [numberToConstant_eq_float hint] at hback
          exact ⟨value, hparse, hint, Constant.float.inj hback⟩
      · rintro ⟨value', hparse', hint, htext⟩
        obtain rfl : value = value' := Option.some.inj (hparse.symm.trans hparse')
        rw [numberToConstant_eq_float hint, htext]

theorem termsToIpld_eq (ts : List Term) : termsToIpld ts = ts.mapM termToIpld := by
  induction ts with
  | nil => rfl
  | cons t ts ih => rw [termsToIpld, ih, List.mapM_cons]

theorem termsOfIpld_eq (ipldArgs : List TermIpld) :
    termsOfIpld ipldArgs = ipldArgs.mapM termOfIpld := by
  induction ipldArgs with
  | nil => rfl
  | cons t ts ih => rw [termsOfIpld, ih, List.mapM_cons]

/-- **A term comes back** if and only if every constant in it survives. -/
theorem termOfIpld_eq_iff {t : Term} (h : termToIpld t = .ok ipld)
    (htext : ∀ c ∈ t.cids, CidText.fromStr (CidText.toString c) = .ok c) :
    termOfIpld ipld = .ok t ↔ ∀ c ∈ t.constants, c.Survives := by
  induction t generalizing ipld with
  | var v =>
    obtain rfl := Except.ok.inj h
    exact iff_of_true rfl (by simp [Term.constants])
  | const c =>
    rw [termOfIpld_const_iff h, Term.constants, List.forall_mem_singleton]
  | func f args ih =>
    rw [termToIpld] at h
    obtain ⟨ipldArgs, hargs, h⟩ := Except.bind_eq_ok_iff.mp h
    obtain rfl := Except.ok.inj h
    rw [Term.cids, Term.cidsAll_eq] at htext
    rw [termsToIpld_eq] at hargs
    -- the arguments come back if every one of them does
    have hlist := Except.mapM_back_iff hargs fun t ht ipld hipld =>
      ih t ht hipld fun c hc => htext c (List.mem_flatMap.mpr ⟨t, ht, hc⟩)
    rw [Term.constants, Term.constantsAll_eq, List.forall_mem_flatMap, ← hlist, termOfIpld,
      termsOfIpld_eq]
    constructor
    · intro h
      obtain ⟨args', hargs', h⟩ := Except.bind_eq_ok_iff.mp h
      obtain ⟨-, rfl⟩ := Term.func.inj (Except.ok.inj h)
      exact hargs'
    · intro h
      rw [h]
      rfl
  | ref r =>
    obtain rfl := Except.ok.inj h
    rw [termOfIpld, htext r.cid (List.mem_singleton.mpr rfl)]
    exact iff_of_true rfl (by simp [Term.constants])

/-- A predicate comes back if and only if every constant in it survives. -/
theorem termIpldToPredicate_eq_iff (debug : TermIpld → String) {p : Predicate}
    (h : predicateToTermIpld p = .ok ipld)
    (htext : ∀ c ∈ p.args.flatMap Term.cids, CidText.fromStr (CidText.toString c) = .ok c) :
    termIpldToPredicate debug ipld = .ok p ↔
      ∀ c ∈ p.args.flatMap Term.constants, c.Survives := by
  obtain ⟨ipldArgs, hargs, h⟩ := Except.bind_eq_ok_iff.mp h
  obtain rfl := Except.ok.inj h
  have hlist := Except.mapM_back_iff hargs fun t ht ipld hipld =>
    termOfIpld_eq_iff hipld fun c hc => htext c (List.mem_flatMap.mpr ⟨t, ht, hc⟩)
  rw [List.forall_mem_flatMap, ← hlist, termIpldToPredicate]
  constructor
  · intro h
    obtain ⟨args', hargs', h⟩ := Except.bind_eq_ok_iff.mp h
    obtain rfl : args' = p.args := congrArg Predicate.args (Except.ok.inj h)
    exact hargs'
  · intro h
    rw [h]
    rfl

/-- **A rule comes back from its shared form** if and only if every constant in it survives. The
texts of the CIDs that it refers to are taken to be read as those CIDs. -/
theorem ruleIpldToRule_eq_iff {debug : TermIpld → String} {r : Rule} {ipld : RuleIpld}
    (h : ruleToRuleIpld r = .ok ipld)
    (htext : ∀ c ∈ r.cids, CidText.fromStr (CidText.toString c) = .ok c) :
    ruleIpldToRule debug ipld = .ok r ↔ ∀ c ∈ r.constants, c.Survives := by
  obtain ⟨head, hhead, h⟩ := Except.bind_eq_ok_iff.mp h
  obtain ⟨body, hbody, h⟩ := Except.bind_eq_ok_iff.mp h
  obtain rfl := Except.ok.inj h
  rw [Rule.cids, List.forall_mem_flatMap] at htext
  obtain ⟨htext₀, htexts⟩ := List.forall_mem_cons.mp htext
  rw [Rule.constants, List.forall_mem_flatMap, List.forall_mem_cons,
    ← termIpldToPredicate_eq_iff debug hhead htext₀,
    ← Except.mapM_back_iff hbody fun p hp ipld hipld =>
      termIpldToPredicate_eq_iff debug hipld (htexts p hp)]
  constructor
  · intro h
    obtain ⟨head', hhead', h⟩ := Except.bind_eq_ok_iff.mp h
    obtain ⟨body', hbody', h⟩ := Except.bind_eq_ok_iff.mp h
    obtain rfl := Except.ok.inj h
    exact ⟨hhead', hbody'⟩
  · rintro ⟨hhead', hbody'⟩
    show (do
      let head ← termIpldToPredicate debug head
      let body ← body.mapM (termIpldToPredicate debug)
      return (⟨head, body⟩ : Rule)) = _
    rw [hhead', hbody']
    rfl

end RoundTrip

section Cases

open scoped CidReference

/-- What a rule refers to. -/
def sampleCid : Cid := Cid.newV1 Codec.raw ⟨0x12, [], Nat.zero_le _⟩

/-- Three constants in the head, and a reference in the body. -/
def sampleRule : Rule :=
  ⟨⟨"p", [.const (.int (-5)), .const (.string "a"), .const (.float "2.5")]⟩,
    [⟨"q", [.ref ⟨sampleCid, some "data"⟩, .var "X"]⟩]⟩

theorem ruleIpldToRule_eq_iff_sampleRule :
    ruleIpldToRule (fun _ => "") ⟨.compound "p"
        [.number (F64.ofI64 (-5)), .atom "a", .number 0x4004000000000000],
        [.compound "q" [.ref (CidText.toString sampleCid) (some "data"), .variable "X"]], []⟩ =
      .ok sampleRule ↔ ∀ c ∈ [Constant.int (-5), .string "a", .float "2.5"], c.Survives := by
  refine ruleIpldToRule_eq_iff (r := sampleRule) ?_ fun c hc => ?_
  · have hparse : F64.parse "2.5" = some 0x4004000000000000 := by decide
    simp only [sampleRule, ruleToRuleIpld, predicateToTermIpld, List.mapM_cons, List.mapM_nil,
      termToIpld, hparse]
    rfl
  · obtain rfl := List.mem_singleton.mp hc
    decide +kernel

/-- A boolean comes back as a number, and `2 ^ 53 + 1` as its neighbour. -/
theorem ruleIpldToRule_other :
    ∃ ipld, ruleToRuleIpld ⟨⟨"p", [.const (.bool true), .const (.int 9007199254740993)]⟩, []⟩ =
        .ok ipld ∧
      ruleIpldToRule (fun _ => "") ipld =
        .ok ⟨⟨"p", [.const (.int 1), .const (.int 9007199254740992)]⟩, []⟩ ∧
      ruleIpldToRule (fun _ => "") ipld ≠
        .ok ⟨⟨"p", [.const (.bool true), .const (.int 9007199254740993)]⟩, []⟩ := by
  have hback : ruleIpldToRule (fun _ => "") ⟨.compound "p" [.number 0x3ff0000000000000,
      .number 0x4340000000000000], [], []⟩ =
      .ok ⟨⟨"p", [.const (.int 1), .const (.int 9007199254740992)]⟩, []⟩ := rfl
  refine ⟨_, rfl, hback, ?_⟩
  intro h
  have hargs := congrArg (fun r : Except Error Rule => r.map (·.head.args)) (hback.symm.trans h)
  simp [Except.map] at hargs

end Cases

end Ipfrs.Tensorlogic
