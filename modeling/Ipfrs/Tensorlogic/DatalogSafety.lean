import Ipfrs.Tensorlogic.DatalogRoundTrip

/-!
# Slices of the Datalog parser

Which texts the Datalog parser cuts inside a character.

Every method moves its cursor from a place between two characters to one behind it, or reports an
error (`MovesAt` with `IsError`). Only `peek_str` looks ahead by a number of bytes, and there is one
call of it: behind the head of a fact or of a rule, where it takes two bytes. So a statement panics
where these two end inside a character (`InsideCharacter`), and nowhere else.

* `moves_parseTerm` — a level of a term for each character is enough, and every level reads one;
* `run_peekStr_two` — what `peek_str` does with two bytes;
* `parse_returns_iff` — which inputs are parsed without a panic.
-/

namespace Ipfrs.Tensorlogic

open TextReader

/-- A fault that the source returns as an `Err`. -/
def IsError (fault : ParseFault) : Prop := ∃ e, fault = .error e

/-- The source returns `Ok` or `Err`. -/
def Returns {α : Type} (result : Except ParseFault α) : Prop :=
  (∃ a, result = .ok a) ∨ ∃ fault, IsError fault ∧ result = .error fault

namespace DatalogParser

variable {α : Type} {before behind : List Char} {Q : α → List Char → List Char → Prop}

theorem moves_err (message : String) (position : ℕ) :
    MovesAt cursor IsError before (err message position : Method α) behind Q :=
  MovesAt.throw ⟨_, rfl⟩

theorem moves_errHere (message : String) :
    MovesAt cursor IsError before (do err message (← get).position : Method α) behind Q :=
  MovesAt.of_get (moves_err message _)

/-- A method that looks at the next character, and what it does with it. -/
theorem moves_peekChar {f : Option Char → Method α}
    (h : MovesAt cursor IsError before (f behind.head?) behind Q) :
    MovesAt cursor IsError before (peekChar >>= f) behind Q :=
  MovesAt.look (reads_peekChar before) h

theorem moves_advance :
    MovesAt cursor IsError before advance behind fun _ t _ => behind ≠ [] → t ≠ [] := by
  cases behind with
  | nil =>
    unfold advance
    exact moves_peekChar (MovesAt.pure fun hne => absurd rfl hne)
  | cons ch rest => exact (reads_advance before).moves fun _ => List.cons_ne_nil ch []

/-- What stands between the start of a method and the cursor is a slice. -/
theorem moves_slice {t rest : List Char} {Q : String → List Char → List Char → Prop}
    (h : Q (String.ofList t) [] rest) :
    MovesAt cursor IsError (before ++ t)
      (slice (String.utf8Len before) (String.utf8Len (before ++ t))) rest Q :=
  (readsAt_slice before).moves h

/-! ### Loops over characters -/

theorem moves_repeatWhile {step : Method Bool}
    (hstep : ∀ before behind, MovesAt cursor IsError before step behind
      fun more t _ => more = true → t ≠ []) :
    MovesAt cursor IsError before (do let self ← get; repeatWhile .fuel step self.rounds) behind
      fun _ _ _ => True :=
  MovesAt.of_get (MovesAt.repeatWhile hstep (length_le_rounds before behind))

theorem moves_advance_return {ch : Char} {rest : List Char} (v : α)
    (h : ∀ {t rest}, t ≠ [] → Q v t rest) :
    MovesAt cursor IsError before (do advance; return v) (ch :: rest) Q := by
  refine moves_advance.bind fun _ t rest' _ ht => MovesAt.pure ?_
  rw [List.append_nil]
  exact h (ht (List.cons_ne_nil ch rest))

theorem moves_return_false :
    MovesAt cursor IsError before (return false : Method Bool) behind
      fun more t _ => more = true → t ≠ [] :=
  MovesAt.pure fun h => absurd h Bool.false_ne_true

theorem moves_advanceWhile (p : Char → Bool) :
    MovesAt cursor IsError before (advanceWhile p) behind fun _ _ _ => True := by
  unfold advanceWhile
  refine moves_repeatWhile fun before behind => moves_peekChar ?_
  cases behind with
  | nil => exact moves_return_false
  | cons ch rest =>
    show MovesAt cursor IsError before (if p ch then _ else _) _ _
    split
    · exact moves_advance_return true fun ht _ => ht
    · exact moves_return_false

theorem moves_skipComment (hne : behind ≠ []) :
    MovesAt cursor IsError before skipComment behind fun _ t _ => t ≠ [] := by
  unfold skipComment
  refine MovesAt.of_get (MovesAt.repeatWhile_moved ?_ ?_ (length_le_rounds before behind))
  · intro before behind
    refine moves_peekChar ?_
    cases behind with
    | nil => exact moves_return_false
    | cons ch rest => exact moves_advance_return (ch != '\n') fun ht _ => ht
  · obtain ⟨ch, rest, rfl⟩ := List.exists_cons_of_ne_nil hne
    exact moves_peekChar (moves_advance_return (ch != '\n') id)

theorem moves_skipWhitespace :
    MovesAt cursor IsError before skipWhitespace behind fun _ _ _ => True := by
  unfold skipWhitespace
  refine moves_repeatWhile fun before behind => moves_peekChar ?_
  cases behind with
  | nil => exact moves_return_false
  | cons ch rest =>
    show MovesAt cursor IsError before
      (if isWhitespace ch then _ else if ch = '%' then _ else _) _ _
    split
    · exact moves_advance_return true fun ht _ => ht
    split
    · refine (moves_skipComment (List.cons_ne_nil ch rest)).bind fun _ t rest' _ ht =>
        MovesAt.pure fun _ => ?_
      rw [List.append_nil]
      exact ht
    · exact moves_return_false

theorem moves_skip {f : Method α}
    (h : ∀ before behind, MovesAt cursor IsError before f behind fun _ _ _ => True) :
    MovesAt cursor IsError before (do skipWhitespace; f) behind fun _ _ _ => True :=
  moves_skipWhitespace.bind fun _ _ _ _ _ => h _ _

theorem moves_expectChar (expected : Char) :
    MovesAt cursor IsError before (expectChar expected) behind fun _ _ _ => True := by
  unfold expectChar
  refine moves_skip fun before behind => moves_peekChar ?_
  cases behind with
  | nil => exact moves_errHere _
  | cons ch rest =>
    show MovesAt cursor IsError before (if ch = expected then _ else _) _ _
    split
    · exact moves_advance.imp fun _ _ _ _ => trivial
    · exact moves_errHere _

/-! ### Tokens -/

theorem moves_parseString :
    MovesAt cursor IsError before parseString behind fun _ _ _ => True := by
  unfold parseString
  refine MovesAt.of_get ((moves_advanceWhile _).bind fun _ t rest _ _ => ?_)
  exact MovesAt.of_get (moves_slice trivial)

theorem moves_parseNumber :
    MovesAt cursor IsError before parseNumber behind fun _ _ _ => True := by
  -- behind the sign, wherever the number began
  have hdigits : ∀ sign rest : List Char, MovesAt cursor IsError (before ++ sign)
      (parseDigits (String.utf8Len before)) rest fun _ _ _ => True := by
    intro sign rest
    unfold parseDigits
    refine (moves_advanceWhile _).bind fun _ t rest' _ _ => MovesAt.of_get ?_
    rw [List.append_assoc]
    refine (moves_slice (Q := fun _ _ _ => True) trivial).bind fun text _ _ _ _ => ?_
    cases parseI64 text with
    | some value => exact MovesAt.pure trivial
    | none => exact moves_err _ _
  unfold parseNumber
  refine MovesAt.of_get (moves_peekChar ?_)
  split
  · exact moves_advance.bind fun _ t rest _ _ => hdigits t rest
  · have hunsigned := hdigits [] behind
    rw [List.append_nil] at hunsigned
    exact hunsigned

section Parse

variable [UnicodeTables]

theorem moves_parseIdentifier :
    MovesAt cursor IsError before parseIdentifier behind fun _ _ _ => True := by
  unfold parseIdentifier
  refine MovesAt.of_get ((moves_advanceWhile _).bind fun _ t rest _ _ => MovesAt.of_get ?_)
  show MovesAt cursor IsError _ (if String.utf8Len (before ++ t) = String.utf8Len before then _
    else _) _ _
  split
  · exact moves_err _ _
  · exact moves_slice trivial

end Parse

/-! ### Lists -/

theorem moves_comma :
    MovesAt cursor IsError before comma behind fun more t _ => more = true → t ≠ [] := by
  unfold comma
  refine moves_skipWhitespace.bind fun _ t rest _ _ => moves_peekChar ?_
  cases rest with
  | nil => exact MovesAt.pure fun h => absurd h Bool.false_ne_true
  | cons ch rest =>
    split
    · refine moves_advance.bind fun _ t' rest' _ ht' => ?_
      refine moves_skipWhitespace.bind fun _ t'' rest'' _ _ => MovesAt.pure fun _ => ?_
      simp [ht' (List.cons_ne_nil ch rest)]
    · exact MovesAt.pure fun h => absurd h Bool.false_ne_true

theorem moves_commaLoop {item : Method α} {bound : ℕ}
    (hitem : ∀ before behind, behind.length < bound →
      MovesAt cursor IsError before item behind fun _ _ _ => True)
    (hbound : behind.length < bound) :
    MovesAt cursor IsError before (commaLoop item) behind fun _ _ _ => True := by
  unfold commaLoop
  exact MovesAt.of_get (MovesAt.sepLoop hitem (fun _ _ => moves_comma) hbound
    (length_le_rounds before behind) [])

theorem moves_parseTermList {item : Method Term} {bound : ℕ}
    (hitem : ∀ before behind, behind.length < bound →
      MovesAt cursor IsError before item behind fun _ _ _ => True)
    (hbound : behind.length < bound) :
    MovesAt cursor IsError before (parseTermList item) behind fun _ _ _ => True := by
  unfold parseTermList
  refine moves_peekChar ?_
  split
  · exact MovesAt.pure trivial
  · exact moves_commaLoop hitem hbound

theorem moves_arguments {item : Method Term} {bound : ℕ} (k : List Term → α)
    (hitem : ∀ before behind, behind.length < bound →
      MovesAt cursor IsError before item behind fun _ _ _ => True)
    (hbound : behind.length < bound) :
    MovesAt cursor IsError before (do
      skipWhitespace
      let args ← parseTermList item
      skipWhitespace
      expectChar ')'
      return k args) behind fun _ _ _ => True := by
  refine moves_skipWhitespace.bind fun _ t rest hcut _ => ?_
  have hlen : rest.length < bound := by
    rw [hcut, List.length_append] at hbound
    omega
  refine (moves_parseTermList hitem hlen).bind fun args _ _ _ _ => ?_
  refine moves_skip fun before behind => ?_
  exact (moves_expectChar ')').bind fun _ _ _ _ _ => MovesAt.pure trivial

/-! ### Terms and predicates -/

section Parse

variable [UnicodeTables]

/-- **A level for each character is enough**: the arguments of a function stand behind its name and
a bracket. -/
theorem moves_parseTerm {fuel : ℕ} (hfuel : behind.length < fuel) :
    MovesAt cursor IsError before (parseTerm fuel) behind fun _ _ _ => True := by
  induction fuel generalizing before behind with
  | zero => exact absurd hfuel (Nat.not_lt_zero _)
  | succ fuel ih =>
    rw [parseTerm]
    refine moves_skipWhitespace.bind fun _ t rest hcut _ => moves_peekChar ?_
    cases rest with
    | nil => exact moves_errHere _
    | cons ch rest =>
      show MovesAt cursor IsError _ (if ch = '?' ∨ isUppercase ch then _ else if ch = '"' then _
        else if ch.isDigit ∨ ch = '-' then _ else if isLowercase ch then _ else _) _ _
      split
      · -- a variable, with or without its mark
        have hname : ∀ before behind, MovesAt cursor IsError before
            (do return Term.var (← parseIdentifier)) behind fun _ _ _ => True := fun _ _ =>
          moves_parseIdentifier.bind fun _ _ _ _ _ => MovesAt.pure trivial
        split
        · exact moves_advance.bind fun _ _ _ _ _ => hname _ _
        · exact hname _ _
      split
      · -- a string
        refine moves_advance.bind fun _ _ _ _ _ => ?_
        refine moves_parseString.bind fun value _ _ _ _ => ?_
        exact (moves_expectChar '"').bind fun _ _ _ _ _ => MovesAt.pure trivial
      split
      · -- a number
        exact moves_parseNumber.bind fun value _ _ _ _ => MovesAt.pure trivial
      split
      · -- an atom, or a function and its arguments
        refine moves_parseIdentifier.bind fun name t₁ rest₁ hcut₁ _ => ?_
        refine moves_skipWhitespace.bind fun _ t₂ rest₂ hcut₂ _ => moves_peekChar ?_
        split
        · next hbracket =>
          have hne : rest₂ ≠ [] := by
            rintro rfl
            exact absurd hbracket (by simp)
          refine moves_advance.bind fun _ t₃ rest₃ hcut₃ hmoved => ?_
          have hpos := List.length_pos_of_ne_nil (hmoved hne)
          -- the bracket has been read, so less is left than the levels that are left
          have hlen : rest₃.length < fuel := by
            have hall := congrArg List.length hcut
            have h₁ := congrArg List.length hcut₁
            have h₂ := congrArg List.length hcut₂
            have h₃ := congrArg List.length hcut₃
            rw [List.length_append] at hall h₁ h₂ h₃
            omega
          exact moves_arguments _ (fun _ _ => ih) hlen
        · exact MovesAt.pure trivial
      · exact moves_errHere _

theorem moves_parsePredicate :
    MovesAt cursor IsError before parsePredicate behind fun _ _ _ => True := by
  unfold parsePredicate
  refine moves_parseIdentifier.bind fun name _ _ _ _ => moves_skip fun before behind => ?_
  refine (moves_expectChar '(').bind fun _ _ _ _ _ => ?_
  refine moves_skipWhitespace.bind fun _ _ rest _ _ => MovesAt.of_get ?_
  refine (moves_parseTermList (fun _ _ => moves_parseTerm) (length_le_rounds _ rest)).bind
    fun args _ _ _ _ => moves_skip fun before behind => ?_
  exact (moves_expectChar ')').bind fun _ _ _ _ _ => MovesAt.pure trivial

theorem moves_parsePredicateList :
    MovesAt cursor IsError before parsePredicateList behind fun _ _ _ => True :=
  moves_commaLoop (fun _ _ _ => moves_parsePredicate) (Nat.lt_succ_self _)

end Parse

/-! ### Two bytes ahead -/

/-- The first two bytes of a text end inside a character: the first character takes three bytes or
more, or it takes one byte and the next one takes more. -/
def InsideCharacter : List Char → Prop
  | [] => False
  | ch :: rest => 3 ≤ ch.utf8Size ∨ ch.utf8Size = 1 ∧ ∃ next ∈ rest.head?, 2 ≤ next.utf8Size

theorem splitAtByte_two_eq_none_iff :
    2 ≤ String.utf8Len behind ∧ splitAtByte behind 2 = none ↔ InsideCharacter behind := by
  cases behind with
  | nil => exact iff_of_false (fun h => absurd h.1 (by decide)) id
  | cons ch rest =>
    have hpos := Char.utf8Size_pos ch
    rw [splitAtByte, InsideCharacter, String.utf8Len]
    by_cases hbig : 3 ≤ ch.utf8Size
    · rw [if_neg (by omega)]
      exact iff_of_true ⟨by omega, rfl⟩ (Or.inl hbig)
    rw [if_pos (by omega), or_iff_right hbig]
    by_cases hone : ch.utf8Size = 1
    · -- one byte is left
      rw [hone]
      cases rest with
      | nil => simp [String.utf8Len]
      | cons next rest =>
        have hnext := Char.utf8Size_pos next
        show _ ∧ (splitAtByte (next :: rest) (0 + 1)).map _ = none ↔ _
        rw [splitAtByte, String.utf8Len]
        by_cases hsmall : next.utf8Size = 1
        · simp [hsmall, splitAtByte]
        · rw [if_neg (by omega)]
          refine iff_of_true ⟨by omega, rfl⟩ ⟨rfl, next, rfl, by omega⟩
    · have htwo : 2 - ch.utf8Size = 0 := by omega
      rw [htwo, splitAtByte]
      exact iff_of_false (fun h => absurd h.2 (by simp)) fun h => hone h.1

/-- **What `peek_str` does** with two bytes: it panics in front of a text that it would cut inside a
character, and reads nothing in front of any other. -/
theorem run_peekStr_two (before behind : List Char) :
    InsideCharacter behind ∧ (peekStr 2).run (cursor before behind) = .error .panic ∨
      ¬ InsideCharacter behind ∧ ∃ ahead, ReadsAt cursor before (peekStr 2) [] ahead behind := by
  have hrun := run_peekStr before behind 2
  by_cases hlong : 2 ≤ String.utf8Len behind
  · rw [if_pos hlong] at hrun
    cases hsplit : splitAtByte behind 2 with
    | none =>
      rw [hsplit] at hrun
      exact Or.inl ⟨splitAtByte_two_eq_none_iff.mp ⟨hlong, hsplit⟩, hrun⟩
    | some parts =>
      rw [hsplit] at hrun
      refine Or.inr ⟨fun h => ?_, some (String.ofList parts.1), ?_⟩
      · exact absurd (hsplit.symm.trans (splitAtByte_two_eq_none_iff.mpr h).2) (by simp)
      · rw [ReadsAt, List.nil_append, List.append_nil, hrun]
  · -- the text ends before
    rw [if_neg hlong] at hrun
    refine Or.inr ⟨fun h => hlong (splitAtByte_two_eq_none_iff.mpr h).1, none, ?_⟩
    rw [ReadsAt, List.nil_append, List.append_nil, hrun]

/-! ### Statements -/

section Parse

variable [UnicodeTables]

/-- The head of a fact or of a rule, with the white space around it. -/
def statementHead : Method Predicate := do
  skipWhitespace
  let head ← parsePredicate
  skipWhitespace
  return head

/-- The input has a head, and behind it no full stop but a text that `peek_str` cuts inside a
character. -/
def CutsCharacter (input : String) : Prop :=
  ∃ head before behind, statementHead.run (new input) = .ok (head, cursor before behind) ∧
    behind.head? ≠ some '.' ∧ InsideCharacter behind

/-- What `parse_statement` does behind a head. -/
def statementTail (head : Predicate) : Method Statement := do
  if (← peekChar) = some '.' then
    advance
    return .fact head
  else if (← peekStr 2) = some ":-" then
    advance
    advance
    skipWhitespace
    let body ← parsePredicateList
    skipWhitespace
    expectChar '.'
    return .rule ⟨head, body⟩
  else err "Expected '.' or ':-'" (← get).position

theorem moves_statementHead :
    MovesAt cursor IsError before statementHead behind fun _ _ _ => True := by
  unfold statementHead
  refine moves_skip fun before behind => moves_parsePredicate.bind fun head _ _ _ _ => ?_
  exact moves_skip fun before behind => MovesAt.pure trivial

theorem run_parseIdentifier_mark (before rest : List Char) :
    ∃ e, IsError e ∧ parseIdentifier.run (cursor before ('?' :: rest)) = .error e := by
  have hnone : ∀ ch ∈ ('?' :: rest).head?, ¬ isIdentifierChar ch := by
    intro ch hch
    obtain rfl := Option.some.inj hch
    simp [isIdentifierChar, isAlphanumeric]
  have hread : ReadsAt cursor before (advanceWhile isIdentifierChar) [] () ('?' :: rest) :=
    reads_advanceWhile (by simp) hnone before
  rw [ReadsAt, List.append_nil, List.nil_append] at hread
  refine ⟨_, ⟨⟨"Expected identifier", (cursor before ('?' :: rest)).position⟩, rfl⟩, ?_⟩
  unfold parseIdentifier
  rw [StateT.run_bind, StateT.run_get, pure_bind, StateT.run_bind, hread]
  show StateT.run (if (cursor before ('?' :: rest)).position =
    (cursor before ('?' :: rest)).position then _ else _ : Method String) _ = _
  rw [if_pos rfl]
  rfl

theorem moves_query :
    MovesAt cursor IsError before (do
      advance
      expectChar '-'
      skipWhitespace
      let predicate ← parsePredicate
      skipWhitespace
      expectChar '.'
      return Statement.query predicate) behind fun _ _ _ => True := by
  refine moves_advance.bind fun _ _ _ _ _ => (moves_expectChar '-').bind fun _ _ _ _ _ => ?_
  refine moves_skip fun before behind => moves_parsePredicate.bind fun predicate _ _ _ _ => ?_
  refine moves_skip fun before behind => (moves_expectChar '.').bind fun _ _ _ _ _ => ?_
  exact MovesAt.pure trivial

/-- A statement is a query, which has no head, or a head and what is behind it. -/
theorem parseStatement_cases (before behind : List Char) :
    (∃ e, statementHead.run (cursor before behind) = .error e) ∧
        MovesAt cursor IsError before parseStatement behind (fun _ _ _ => True) ∨
      parseStatement.run (cursor before behind) =
        (statementHead >>= statementTail).run (cursor before behind) := by
  have hskip : MovesAt cursor IsError before skipWhitespace behind fun _ _ _ => True :=
    moves_skipWhitespace
  obtain ⟨_, t, rest, rfl, hrun, -⟩ | ⟨e, he, hrun⟩ := hskip
  · by_cases hmark : rest.head? = some '?'
    · -- a query: its mark is not the beginning of a name
      left
      constructor
      · obtain ⟨rest, rfl⟩ := List.head?_eq_some_iff.mp hmark
        obtain ⟨e, -, he⟩ := run_parseIdentifier_mark (before ++ t) rest
        refine ⟨e, ?_⟩
        unfold statementHead parsePredicate
        rw [StateT.run_bind, hrun, Except.ok_bind, StateT.run_bind, StateT.run_bind, he]
        rfl
      · unfold parseStatement
        have hread : ReadsAt cursor before skipWhitespace t () rest := hrun
        have hmoves : MovesAt cursor IsError before skipWhitespace (t ++ rest)
          fun _ t' rest' => t' = t ∧ rest' = rest := hread.moves ⟨rfl, rfl⟩
        refine hmoves.bind ?_
        rintro _ _ _ - ⟨rfl, rfl⟩
        refine moves_peekChar ?_
        rw [if_pos hmark]
        exact moves_query
    · -- otherwise the statement is a head and its tail, step by step
      right
      have htail : (statementHead >>= statementTail).run (cursor before (t ++ rest)) =
          (do
            let head ← parsePredicate
            skipWhitespace
            statementTail head : Method Statement).run (cursor (before ++ t) rest) := by
        unfold statementHead
        rw [bind_assoc, StateT.run_bind, hrun, Except.ok_bind]
        simp only [bind_assoc, pure_bind]
      rw [htail]
      unfold parseStatement
      rw [StateT.run_bind, hrun, Except.ok_bind, StateT.run_bind, run_peekChar, Except.ok_bind,
        if_neg hmark]
      rfl
  · -- both begin with the blanks
    left
    refine ⟨⟨e, ?_⟩, Or.inr ⟨e, he, ?_⟩⟩
    · unfold statementHead
      rw [StateT.run_bind, hrun]
      rfl
    · unfold parseStatement
      rw [StateT.run_bind, hrun]
      rfl

/-- Behind a head, the parser panics just in front of a text that it cuts inside a character and
that does not begin with a full stop. -/
theorem run_statementTail (head : Predicate) (before behind : List Char) :
    (behind.head? ≠ some '.' ∧ InsideCharacter behind) ∧
        (statementTail head).run (cursor before behind) = .error .panic ∨
      ¬ (behind.head? ≠ some '.' ∧ InsideCharacter behind) ∧
        MovesAt cursor IsError before (statementTail head) behind fun _ _ _ => True := by
  by_cases hstop : behind.head? = some '.'
  · refine Or.inr ⟨fun h => h.1 hstop, ?_⟩
    unfold statementTail
    refine moves_peekChar ?_
    rw [if_pos hstop]
    exact moves_advance.bind fun _ _ _ _ _ => MovesAt.pure trivial
  obtain ⟨hinside, hpanic⟩ | ⟨hinside, ahead, hahead⟩ := run_peekStr_two before behind
  · refine Or.inl ⟨⟨hstop, hinside⟩, ?_⟩
    unfold statementTail
    rw [StateT.run_bind, run_peekChar, Except.ok_bind, if_neg hstop, StateT.run_bind, hpanic]
    rfl
  · refine Or.inr ⟨fun h => hinside h.2, ?_⟩
    unfold statementTail
    refine moves_peekChar ?_
    rw [if_neg hstop]
    refine MovesAt.look hahead ?_
    split
    · -- a rule
      refine moves_advance.bind fun _ _ _ _ _ => moves_advance.bind fun _ _ _ _ _ => ?_
      refine moves_skip fun before behind => moves_parsePredicateList.bind fun body _ _ _ _ => ?_
      refine moves_skip fun before behind => (moves_expectChar '.').bind fun _ _ _ _ _ => ?_
      exact MovesAt.pure trivial
    · exact moves_errHere _

omit [UnicodeTables] in
theorem cursor_new (input : String) : new input = cursor [] input.toList := by
  rw [cursor, List.nil_append, String.ofList_toList]
  rfl

omit [UnicodeTables] in
theorem cursor_inj {before' behind' : List Char}
    (h : cursor before behind = cursor before' behind') : before = before' ∧ behind = behind' := by
  unfold cursor at h
  obtain ⟨hinput, hposition⟩ := DatalogParser.mk.inj h
  have hsplit := splitAtByte_append before behind
  rw [String.ofList_injective hinput, hposition, splitAtByte_append] at hsplit
  obtain ⟨hbefore, hbehind⟩ := Prod.mk.inj (Option.some.inj hsplit)
  exact ⟨hbefore.symm, hbehind.symm⟩

/-- **One statement**: it panics on the inputs that it cuts inside a character, and on no other one;
and the rounds never run out. -/
theorem run_parseStatement_new (input : String) :
    CutsCharacter input ∧ parseStatement.run (new input) = .error .panic ∨
      ¬ CutsCharacter input ∧
        MovesAt cursor IsError [] parseStatement input.toList fun _ _ _ => True := by
  unfold CutsCharacter
  rw [cursor_new]
  have hhead : MovesAt cursor IsError [] statementHead input.toList fun _ _ _ => True :=
    moves_statementHead
  obtain ⟨⟨e, he⟩, hmoves⟩ | hsplit := parseStatement_cases [] input.toList
  · refine Or.inr ⟨?_, hmoves⟩
    rintro ⟨head, before, behind, hrun, -⟩
    exact absurd (he.symm.trans hrun) (by simp)
  rw [StateT.run_bind] at hsplit
  obtain ⟨head, t, rest, htext, hrun, -⟩ | ⟨e, he, hrun⟩ := hhead
  · rw [hrun, Except.ok_bind] at hsplit
    obtain ⟨hcut, hpanic⟩ | ⟨hcut, hmoves⟩ := run_statementTail head ([] ++ t) rest
    · exact Or.inl ⟨⟨head, _, rest, hrun, hcut⟩, hsplit.trans hpanic⟩
    · refine Or.inr ⟨?_, ?_⟩
      · -- there is one head, and one text behind it
        rintro ⟨head', before', behind', hrun', hcut'⟩
        have hsame := (Prod.mk.inj (Except.ok.inj (hrun.symm.trans hrun'))).2
        rw [← (cursor_inj hsame).2] at hcut'
        exact hcut hcut'
      · obtain ⟨statement, t', rest', rfl, htail, -⟩ | ⟨e, he, htail⟩ := hmoves
        · refine Or.inl ⟨statement, t ++ t', rest', ?_, ?_, trivial⟩
          · rw [htext, List.append_assoc]
          · rw [hsplit, htail, List.append_assoc]
        · exact Or.inr ⟨e, he, hsplit.trans htail⟩
  · refine Or.inr ⟨?_, Or.inr ⟨e, he, ?_⟩⟩
    · rintro ⟨head, before, behind, hrun', -⟩
      exact absurd (hrun.symm.trans hrun') (by simp)
    · rw [hsplit, hrun]
      rfl

end Parse

end DatalogParser

open DatalogParser

section Parse

variable [UnicodeTables]

theorem parseAs_returns_iff {α : Type} (input : String) (part : Statement → Option α)
    (message : String) :
    (Returns (parseAs input part message) ↔ ¬ CutsCharacter input) ∧
      parseAs input part message ≠ .error .fuel := by
  obtain ⟨hcut, hpanic⟩ | ⟨hcut, hmoves⟩ := run_parseStatement_new input
  · have hfault : parseAs input part message = .error .panic := by
      rw [parseAs, hpanic]
    rw [hfault]
    refine ⟨iff_of_false ?_ (not_not_intro hcut), by simp⟩
    rintro (⟨a, ha⟩ | ⟨fault, ⟨e, rfl⟩, he⟩)
    · exact absurd ha (by simp)
    · exact absurd he (by simp)
  · -- what is returned is neither a panic nor the end of the rounds
    suffices hreturns : Returns (parseAs input part message) by
      refine ⟨iff_of_true hreturns hcut, fun hfuel => ?_⟩
      rw [hfuel] at hreturns
      obtain ⟨a, ha⟩ | ⟨fault, ⟨e, rfl⟩, he⟩ := hreturns
      · exact absurd ha (by simp)
      · exact absurd he (by simp)
    unfold parseAs
    rw [cursor_new]
    obtain ⟨statement, t, rest, htext, hrun, -⟩ | ⟨fault, hfault, hrun⟩ := hmoves
    · rw [hrun]
      cases hpart : part statement with
      | some a =>
        left
        refine ⟨a, ?_⟩
        simp only [hpart]
      | none =>
        right
        refine ⟨_, ⟨⟨message, 0⟩, rfl⟩, ?_⟩
        simp only [hpart]
    · rw [hrun]
      exact Or.inr ⟨fault, hfault, rfl⟩

/-- **Which inputs are parsed without a panic**: all but those that have a head and, behind it, a
text that is cut inside a character. The rounds never run out. -/
theorem parse_returns_iff (input : String) :
    (Returns (parseFact input) ↔ ¬ CutsCharacter input) ∧
      (Returns (parseRule input) ↔ ¬ CutsCharacter input) ∧
      (Returns (parseQuery input) ↔ ¬ CutsCharacter input) ∧
      parseFact input ≠ .error .fuel ∧ parseRule input ≠ .error .fuel ∧
      parseQuery input ≠ .error .fuel := by
  obtain ⟨hfact, hfact'⟩ := parseAs_returns_iff input (α := Predicate) _ "Expected a fact"
  obtain ⟨hrule, hrule'⟩ := parseAs_returns_iff input (α := Rule) _ "Expected a rule"
  obtain ⟨hquery, hquery'⟩ := parseAs_returns_iff input (α := Predicate) _ "Expected a query"
  exact ⟨hfact, hrule, hquery, hfact', hrule', hquery'⟩

/-- A predicate as it is displayed is a head, whatever is behind it. -/
theorem cutsCharacter_display [CidText] {p : Predicate} (hnamed : p.WellNamed) (href : p.RefFree)
    {rest : List Char} (hsolid : Solid rest) (hstop : rest.head? ≠ some '.')
    (hinside : InsideCharacter rest) :
    CutsCharacter (String.ofList (p.display.toList ++ rest)) := by
  obtain ⟨ch, hhead, hch⟩ := exists_head?_predicate hnamed rest
  have hstart : Solid (p.display.toList ++ rest) :=
    solid_of_head? hhead (solid_of_isIdentifierChar hch)
  have hread : Reads cursor statementHead p.display.toList p rest :=
    (reads_skipNothing hstart).look
      ((reads_parsePredicate hnamed href).last ((reads_skipNothing hsolid).look (Reads.pure p)))
  refine ⟨p, [] ++ p.display.toList, rest, ?_, hstop, hinside⟩
  rw [cursor_new, String.toList_ofList]
  exact hread []

end Parse

open scoped CidReference in
theorem not_parse_returns_arrow :
    let _ := asciiTables
    ¬ Returns (parseFact "p(\"a\")→") ∧ ¬ Returns (parseRule "p(\"a\")→") ∧
      ¬ Returns (parseQuery "p(\"a\")→") := by
  intro _
  let p : Predicate := ⟨"p", [.const (.string "a")]⟩
  have hinput : String.ofList (p.display.toList ++ ['→']) = "p(\"a\")→" := by
    decide +kernel
  have hcut : CutsCharacter "p(\"a\")→" := by
    have hnamed : p.WellNamed :=
      ⟨by decide, List.forall_mem_singleton.mpr (.string (by decide))⟩
    have href : p.RefFree := List.forall_mem_singleton.mpr (.const _)
    rw [← hinput]
    exact cutsCharacter_display hnamed href (solid_cons (by decide) []) (by decide)
      (Or.inl (by decide))
  have hfault : ∀ {α : Type} (part : Statement → Option α) (message : String),
      ¬ Returns (parseAs "p(\"a\")→" part message) :=
    fun part message hreturns => (parseAs_returns_iff _ part message).1.mp hreturns hcut
  exact ⟨hfault _ _, hfault _ _, hfault _ _⟩

end Ipfrs.Tensorlogic
