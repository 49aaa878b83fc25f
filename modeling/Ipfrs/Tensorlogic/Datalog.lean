import Ipfrs.Lib.TextReader
import Ipfrs.Tensorlogic.Ir

/-!
# The Datalog parser

A recursive descent over UTF-8 text, with the position of the cursor in bytes. A slice whose ends
are not between two characters panics, as it does in the source. A loop makes at most as many rounds
as the text has characters, and terms nest at most as deep: every round and every level moves the
cursor.
-/

namespace Ipfrs.Tensorlogic

open TextReader

structure ParseError where
  message : String
  position : ℕ

/-- How parsing can fail: with an error, with a panic, or by running out of rounds. -/
inductive ParseFault where
  | error (e : ParseError)
  | panic
  | fuel

structure DatalogParser where
  input : String
  position : ℕ

inductive Statement where
  | fact (p : Predicate)
  | rule (r : Rule)
  | query (p : Predicate)

/-- `char::is_whitespace`: the code points with the property `White_Space`. -/
def isWhitespace (ch : Char) : Bool :=
  (9 ≤ ch.toNat && ch.toNat ≤ 13) || ch.toNat = 32 || ch.toNat = 0x85 || ch.toNat = 0xA0 ||
    ch.toNat = 0x1680 || (0x2000 ≤ ch.toNat && ch.toNat ≤ 0x200A) || ch.toNat = 0x2028 ||
    ch.toNat = 0x2029 || ch.toNat = 0x202F || ch.toNat = 0x205F || ch.toNat = 0x3000

/-- The Unicode tables behind the classes of characters, which are used above ASCII: no letter and
no number is white space, and no letter is of both cases. -/
class UnicodeTables where
  alphanumeric : Char → Bool
  uppercase : Char → Bool
  lowercase : Char → Bool
  not_isWhitespace : ∀ ch, alphanumeric ch → ¬ isWhitespace ch
  not_uppercase : ∀ ch, lowercase ch → ¬ uppercase ch

section Classes

/-- `char::is_alphanumeric`. -/
def isAlphanumeric [UnicodeTables] (ch : Char) : Bool :=
  ch.isAlphanum || (127 < ch.toNat && UnicodeTables.alphanumeric ch)

/-- `char::is_uppercase`. -/
def isUppercase [UnicodeTables] (ch : Char) : Bool :=
  ch.isUpper || (127 < ch.toNat && UnicodeTables.uppercase ch)

/-- `char::is_lowercase`. -/
def isLowercase [UnicodeTables] (ch : Char) : Bool :=
  ch.isLower || (127 < ch.toNat && UnicodeTables.lowercase ch)

theorem isUpper_iff {ch : Char} : ch.isUpper ↔ 65 ≤ ch.toNat ∧ ch.toNat ≤ 90 := by
  show decide (ch.val ≥ 65 ∧ ch.val ≤ 90) = true ↔ _
  rw [decide_eq_true_iff]
  exact Iff.rfl

theorem isLower_iff {ch : Char} : ch.isLower ↔ 97 ≤ ch.toNat ∧ ch.toNat ≤ 122 := by
  show (decide (ch.val ≥ 97) && decide (ch.val ≤ 122)) = true ↔ _
  rw [Bool.and_eq_true, decide_eq_true_iff, decide_eq_true_iff]
  exact Iff.rfl

theorem isAlphanum_iff {ch : Char} : ch.isAlphanum ↔
    (65 ≤ ch.toNat ∧ ch.toNat ≤ 90) ∨ (97 ≤ ch.toNat ∧ ch.toNat ≤ 122) ∨
      (48 ≤ ch.toNat ∧ ch.toNat ≤ 57) := by
  show (ch.isUpper || ch.isLower || ch.isDigit) = true ↔ _
  rw [Bool.or_eq_true, Bool.or_eq_true, isUpper_iff, isLower_iff, Char.isDigit_iff_toNat, or_assoc]
  exact Iff.rfl

variable [UnicodeTables]

theorem isAlphanumeric_iff {ch : Char} :
    isAlphanumeric ch ↔ ch.isAlphanum ∨ 127 < ch.toNat ∧ UnicodeTables.alphanumeric ch := by
  simp [isAlphanumeric]

theorem isUppercase_iff {ch : Char} :
    isUppercase ch ↔ ch.isUpper ∨ 127 < ch.toNat ∧ UnicodeTables.uppercase ch := by
  simp [isUppercase]

theorem isLowercase_iff {ch : Char} :
    isLowercase ch ↔ ch.isLower ∨ 127 < ch.toNat ∧ UnicodeTables.lowercase ch := by
  simp [isLowercase]

theorem not_isWhitespace_of_isAlphanumeric {ch : Char} (h : isAlphanumeric ch) :
    ¬ isWhitespace ch := by
  rcases isAlphanumeric_iff.mp h with h | ⟨-, h⟩
  · rw [isAlphanum_iff] at h
    simp only [isWhitespace, Bool.or_eq_true, Bool.and_eq_true, decide_eq_true_eq]
    omega
  · exact UnicodeTables.not_isWhitespace ch h

theorem not_isUppercase {ch : Char} (hascii : ch.toNat ≤ 127) (h : ¬ ch.isUpper) :
    ¬ isUppercase ch := by
  rw [isUppercase_iff]
  rintro (hup | ⟨hbeyond, -⟩)
  · exact h hup
  · omega

theorem not_isUppercase_of_isLowercase {ch : Char} (h : isLowercase ch) : ¬ isUppercase ch := by
  rw [isLowercase_iff, isLower_iff] at h
  rw [isUppercase_iff, isUpper_iff]
  rintro (hup | ⟨hbeyond, hup⟩)
  · omega
  · rcases h with h | ⟨-, h⟩
    · omega
    · exact UnicodeTables.not_uppercase ch h hup

end Classes

/-- Whether a number has a minus sign, and what is behind its sign. -/
def splitSign : List Char → Bool × List Char
  | '-' :: digits => (true, digits)
  | '+' :: digits => (false, digits)
  | digits => (false, digits)

/-- `str::parse::<i64>`. -/
def parseI64 (s : String) : Option Int64 :=
  let (negative, digits) := splitSign s.toList
  if digits ≠ [] ∧ digits.all Char.isDigit then
    let magnitude : ℤ := Nat.ofDigitChars 10 digits 0
    let value := if negative then -magnitude else magnitude
    if -2 ^ 63 ≤ value ∧ value < 2 ^ 63 then some (Int64.ofInt value) else none
  else none

namespace DatalogParser

/-- A method of the parser. -/
abbrev Method (α : Type) := StateT DatalogParser (Except ParseFault) α

def new (input : String) : DatalogParser := ⟨input, 0⟩

/-- `Err(ParseError { message, position })`. -/
def err {α : Type} (message : String) (position : ℕ) : Method α :=
  throw (.error ⟨message, position⟩)

/-- `self.input[start..stop].to_string()`. -/
def slice (start stop : ℕ) : Method String := do
  match sliceBytes (← get).input.toList start stop with
  | some cs => return String.ofList cs
  | none => throw .panic

def peekChar : Method (Option Char) := do
  let self ← get
  match splitAtByte self.input.toList self.position with
  | some (_, behind) => return behind.head?
  | none => throw .panic

def peekStr (n : ℕ) : Method (Option String) := do
  let self ← get
  if self.position + n ≤ self.input.utf8ByteSize then
    return some (← slice self.position (self.position + n))
  else return none

def advance : Method Unit := do
  if let some ch ← peekChar then
    modify fun self => { self with position := self.position + ch.utf8Size }

/-- How often a loop can go round. -/
def rounds (self : DatalogParser) : ℕ := self.input.length + 1

/-- `while let Some(ch) = self.peek_char() { if p(ch) { self.advance(); } else { break; } }`. -/
def advanceWhile (p : Char → Bool) : Method Unit := do
  let self ← get
  repeatWhile .fuel
    (do
      match ← peekChar with
      | some ch => if p ch then advance; return true else return false
      | none => return false)
    self.rounds

/-- The loop of a comment: until the end of the line. -/
def skipComment : Method Unit := do
  let self ← get
  repeatWhile .fuel
    (do
      match ← peekChar with
      | some ch => advance; return ch != '\n'
      | none => return false)
    self.rounds

def skipWhitespace : Method Unit := do
  let self ← get
  repeatWhile .fuel
    (do
      match ← peekChar with
      | some ch =>
        if isWhitespace ch then advance; return true
        else if ch = '%' then skipComment; return true
        else return false
      | none => return false)
    self.rounds

def expectChar (expected : Char) : Method Unit := do
  skipWhitespace
  match ← peekChar with
  | none => err s!"Expected '{expected}' but found end of input" (← get).position
  | some ch =>
    if ch = expected then advance
    else err s!"Expected '{expected}' but found '{ch}'" (← get).position

section Parse

variable [UnicodeTables]

/-- The characters of an identifier. -/
def isIdentifierChar (ch : Char) : Bool := isAlphanumeric ch || ch = '_'

def parseIdentifier : Method String := do
  let start := (← get).position
  advanceWhile isIdentifierChar
  let stop := (← get).position
  if stop = start then err "Expected identifier" stop else slice start stop

def parseString : Method String := do
  let start := (← get).position
  advanceWhile fun ch => ch ≠ '"'
  slice start (← get).position

def parseNumber : Method Int64 := do
  let start := (← get).position
  if (← peekChar) = some '-' then advance
  advanceWhile Char.isDigit
  match parseI64 (← slice start (← get).position) with
  | some value => return value
  | none => err "Invalid number" start

/-- What `parse_number` does behind the sign. -/
def parseDigits (start : ℕ) : Method Int64 := do
  advanceWhile Char.isDigit
  match parseI64 (← slice start (← get).position) with
  | some value => return value
  | none => err "Invalid number" start

/-- `self.skip_whitespace()`, and a comma with the white space behind it if there is one. -/
def comma : Method Bool := do
  skipWhitespace
  if (← peekChar) = some ',' then
    advance
    skipWhitespace
    return true
  else return false

/-- The loop of `parse_term_list` and of `parse_predicate_list`. -/
def commaLoop {α : Type} (item : Method α) : Method (List α) := do
  let self ← get
  sepLoop .fuel item comma self.rounds []

def parseTermList (parseTerm : Method Term) : Method (List Term) := do
  if (← peekChar) = some ')' then return []
  else commaLoop parseTerm

/-- `DatalogParser::parse_term`, for terms that nest less deep than `fuel`. -/
def parseTerm : ℕ → Method Term
  | 0 => throw .fuel
  | fuel + 1 => do
    skipWhitespace
    match ← peekChar with
    | none => err "Unexpected end of input" (← get).position
    | some ch =>
      if ch = '?' ∨ isUppercase ch then
        if ch = '?' then advance
        return .var (← parseIdentifier)
      else if ch = '"' then
        advance
        let value ← parseString
        expectChar '"'
        return .const (.string value)
      else if ch.isDigit ∨ ch = '-' then
        return .const (.int (← parseNumber))
      else if isLowercase ch then
        let name ← parseIdentifier
        skipWhitespace
        if (← peekChar) = some '(' then
          advance
          skipWhitespace
          let args ← parseTermList (parseTerm fuel)
          skipWhitespace
          expectChar ')'
          return .func name args
        else return .const (.string name)
      else err s!"Unexpected character: '{ch}'" (← get).position

def parsePredicate : Method Predicate := do
  let name ← parseIdentifier
  skipWhitespace
  expectChar '('
  skipWhitespace
  let args ← parseTermList (parseTerm (← get).rounds)
  skipWhitespace
  expectChar ')'
  return ⟨name, args⟩

def parsePredicateList : Method (List Predicate) := commaLoop parsePredicate

def parseStatement : Method Statement := do
  skipWhitespace
  if (← peekChar) = some '?' then
    advance
    expectChar '-'
    skipWhitespace
    let predicate ← parsePredicate
    skipWhitespace
    expectChar '.'
    return .query predicate
  else
    let head ← parsePredicate
    skipWhitespace
    if (← peekChar) = some '.' then
      advance
      return .fact head
    else if (← peekStr 2) = some ":-" then
      advance
      advance
      skipWhitespace
      let body ← parsePredicateList
      skipWhitespace
      expectChar '.'
      return .rule ⟨head, body⟩
    else err "Expected '.' or ':-'" (← get).position

end Parse

end DatalogParser

section Parse

variable [UnicodeTables]

/-- What the parser of a kind of statement makes of any: the part it is for, or an error. -/
def parseAs {α : Type} (input : String) (part : Statement → Option α) (message : String) :
    Except ParseFault α :=
  match (DatalogParser.parseStatement.run (DatalogParser.new input)) with
  | .error e => .error e
  | .ok (statement, _) =>
    match part statement with
    | some a => .ok a
    | none => .error (.error ⟨message, 0⟩)

def parseFact (input : String) : Except ParseFault Predicate :=
  parseAs input (fun | .fact fact => some fact | _ => none) "Expected a fact"

def parseRule (input : String) : Except ParseFault Rule :=
  parseAs input (fun | .rule rule => some rule | _ => none) "Expected a rule"

def parseQuery (input : String) : Except ParseFault Predicate :=
  parseAs input (fun | .query query => some query | _ => none) "Expected a query"

end Parse

end Ipfrs.Tensorlogic
