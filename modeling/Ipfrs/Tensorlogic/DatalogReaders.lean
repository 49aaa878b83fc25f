import Ipfrs.Tensorlogic.Datalog

/-!
# What the parser's methods read

Every method of the Datalog parser that reads a token gets one lemma, which says in front of which
text it reads it: the cursor stands between two texts, and the method moves it over the first piece
of what is behind. White space and comments are skipped up to the first character that is neither.

* `reads_advanceWhile`, `reads_skipWhitespace` — the loops over characters;
* `reads_parseIdentifier`, `reads_parseString`, `reads_parseNumber` — the tokens;
* `parseI64_toString` — an integer is read back from its digits;
* `reads_commaLoop` — items with commas between them.
-/

namespace Ipfrs.Tensorlogic

open TextReader

namespace DatalogParser

variable (before : List Char)

/-- The cursor between two texts. -/
def cursor (behind : List Char) : DatalogParser :=
  ⟨String.ofList (before ++ behind), String.utf8Len before⟩

/-- Where `skip_whitespace` stops. -/
def Solid (rest : List Char) : Prop := ∀ ch ∈ rest.head?, ¬ isWhitespace ch ∧ ch ≠ '%'

variable {ch : Char}

theorem solid_of_head? {rest : List Char} (hrest : rest.head? = some ch)
    (h : ¬ isWhitespace ch ∧ ch ≠ '%') : Solid rest := by
  intro c hc
  obtain rfl := Option.some.inj (hrest.symm.trans hc)
  exact h

theorem solid_cons (h : ¬ isWhitespace ch ∧ ch ≠ '%') (rest : List Char) : Solid (ch :: rest) :=
  solid_of_head? rfl h

variable {α : Type} {t cs rest : List Char}

/-! ### The cursor -/

theorem run_peekChar (behind : List Char) :
    peekChar.run (cursor before behind) = .ok (behind.head?, cursor before behind) := by
  unfold peekChar cursor
  simp only [StateT.run_bind, StateT.run_get, pure_bind, String.toList_ofList,
    splitAtByte_append]
  rfl

theorem reads_peekChar : Reads cursor peekChar [] rest.head? rest := by
  intro before
  rw [ReadsAt, List.append_nil]
  exact run_peekChar before rest

theorem reads_advance : Reads cursor advance [ch] () rest := by
  intro before
  unfold advance
  rw [ReadsAt, StateT.run_bind, run_peekChar]
  show Except.ok ((), (⟨_, _⟩ : DatalogParser)) = Except.ok ((), ⟨_, _⟩)
  rw [List.append_assoc, utf8Len_append, String.utf8Len, String.utf8Len, Nat.zero_add]
  rfl

theorem run_slice (behind : List Char) (start stop : ℕ) :
    (slice start stop).run (cursor before behind) =
      match sliceBytes (before ++ behind) start stop with
      | some cs => .ok (String.ofList cs, cursor before behind)
      | none => .error .panic := by
  unfold slice
  rw [StateT.run_bind, StateT.run_get]
  show StateT.run (match sliceBytes (cursor before behind).input.toList start stop with
    | some cs => (pure (String.ofList cs) : Method String)
    | none => throw .panic) _ = _
  rw [cursor, String.toList_ofList]
  cases sliceBytes (before ++ behind) start stop <;> rfl

/-- What was read is the slice between the positions before and behind it. -/
theorem readsAt_slice :
    ReadsAt cursor (before ++ cs)
      (slice (String.utf8Len before) (String.utf8Len (before ++ cs))) []
      (String.ofList cs) rest := by
  rw [ReadsAt, List.append_nil, List.nil_append, run_slice, List.append_assoc, sliceBytes_append]

/-- What `peek_str` sees of the text behind the cursor, which stays where it is. -/
theorem run_peekStr (behind : List Char) (n : ℕ) :
    (peekStr n).run (cursor before behind) =
      if n ≤ String.utf8Len behind then
        match splitAtByte behind n with
        | some (ahead, _) => .ok (some (String.ofList ahead), cursor before behind)
        | none => .error .panic
      else .ok (none, cursor before behind) := by
  have hsize : (cursor before behind).input.utf8ByteSize =
      String.utf8Len before + String.utf8Len behind := by
    rw [cursor, String.utf8ByteSize_ofList, utf8Len_append]
  have hslice := run_slice before behind (String.utf8Len before) (String.utf8Len before + n)
  rw [sliceBytes_behind] at hslice
  unfold peekStr
  rw [StateT.run_bind, StateT.run_get]
  show StateT.run (if String.utf8Len before + n ≤ (cursor before behind).input.utf8ByteSize then
    (do return some (← slice (String.utf8Len before) (String.utf8Len before + n)) :
      Method (Option String)) else return none) _ = _
  rw [hsize]
  by_cases hlong : n ≤ String.utf8Len behind
  · rw [if_pos hlong, if_pos (Nat.add_le_add_left hlong _), StateT.run_bind, hslice]
    cases splitAtByte behind n <;> rfl
  · rw [if_neg hlong, if_neg (by omega)]
    rfl

theorem length_le_rounds (behind : List Char) : behind.length < (cursor before behind).rounds := by
  rw [rounds, cursor, String.length_ofList, List.length_append]
  omega

/-! ### Loops over characters -/

theorem flatten_singletons (cs : List Char) : (cs.map fun ch => [ch]).flatten = cs := by
  induction cs with
  | nil => rfl
  | cons ch cs ih => rw [List.map_cons, List.flatten_cons, ih, List.singleton_append]

/-- A loop that steps over characters reads all of them, and stops behind them. -/
theorem reads_characters {step : Method Bool}
    (hstep : ∀ ch ∈ cs, ∀ rest, Reads cursor step [ch] true rest)
    (hend : Reads cursor step [] false rest) :
    Reads cursor (do let self ← get; repeatWhile .fuel step self.rounds) cs () rest := by
  intro before
  apply ReadsAt.of_get
  have hpieces : ∀ piece ∈ cs.map fun ch => [ch], ∀ rest, Reads cursor step piece true rest := by
    intro piece hpiece rest
    obtain ⟨ch, hch, rfl⟩ := List.mem_map.mp hpiece
    exact hstep ch hch rest
  have hrounds : (cs.map fun ch => [ch]).length < (cursor before (cs ++ rest)).rounds := by
    have h := length_le_rounds before (cs ++ rest)
    rw [List.length_append] at h
    rw [List.length_map]
    omega
  have hread : Reads cursor (repeatWhile .fuel step (cursor before (cs ++ rest)).rounds)
      (cs.map fun ch => [ch]).flatten () rest := Reads.repeatWhile hpieces hend hrounds
  rw [flatten_singletons] at hread
  exact hread before

theorem reads_advanceWhile {p : Char → Bool} (hcs : ∀ ch ∈ cs, p ch)
    (hrest : ∀ ch ∈ rest.head?, ¬ p ch) : Reads cursor (advanceWhile p) cs () rest := by
  unfold advanceWhile
  apply reads_characters
  · intro ch hch rest
    refine reads_peekChar.look ?_
    show Reads cursor (if p ch then _ else _) _ _ _
    rw [if_pos (hcs ch hch)]
    exact reads_advance.last (Reads.pure true)
  · refine reads_peekChar.look ?_
    cases h : rest.head? with
    | none => rw [List.nil_append, h]; exact Reads.pure false
    | some ch =>
      rw [List.nil_append, h]
      show Reads cursor (if p ch then _ else _) _ _ _
      rw [if_neg (hrest ch h)]
      exact Reads.pure false

theorem reads_skipWhitespace (hcs : ∀ ch ∈ cs, isWhitespace ch) (hrest : Solid rest) :
    Reads cursor skipWhitespace cs () rest := by
  unfold skipWhitespace
  apply reads_characters
  · intro ch hch rest
    refine reads_peekChar.look ?_
    show Reads cursor (if isWhitespace ch then _ else _) _ _ _
    rw [if_pos (hcs ch hch)]
    exact reads_advance.last (Reads.pure true)
  · refine reads_peekChar.look ?_
    cases h : rest.head? with
    | none => rw [List.nil_append, h]; exact Reads.pure false
    | some ch =>
      rw [List.nil_append, h]
      show Reads cursor (if isWhitespace ch then _ else if ch = '%' then _ else _) _ _ _
      rw [if_neg (hrest ch h).1, if_neg (hrest ch h).2]
      exact Reads.pure false

theorem reads_skipNothing (hrest : Solid rest) : Reads cursor skipWhitespace [] () rest :=
  reads_skipWhitespace (by simp) hrest

theorem reads_space (hrest : Solid rest) : Reads cursor skipWhitespace [' '] () rest :=
  reads_skipWhitespace (List.forall_mem_singleton.mpr (by decide)) hrest

theorem reads_expectChar (hch : ¬ isWhitespace ch ∧ ch ≠ '%') :
    Reads cursor (expectChar ch) [ch] () rest := by
  unfold expectChar
  refine (reads_skipNothing (solid_cons hch rest)).look (reads_peekChar.look ?_)
  show Reads cursor (if ch = ch then _ else _) _ _ _
  rw [if_pos rfl]
  exact reads_advance

/-! ### Tokens -/

theorem reads_parseString (hcs : '"' ∉ cs) (hrest : rest.head? = some '"') :
    Reads cursor parseString cs (String.ofList cs) rest := by
  intro before
  unfold parseString
  apply ReadsAt.of_get
  refine (reads_advanceWhile ?_ ?_ before).last ?_
  · intro ch hch
    exact decide_eq_true fun e => hcs (e ▸ hch)
  · intro ch hch
    obtain rfl := Option.some.inj (hrest.symm.trans hch)
    simp
  · exact readsAt_slice before

/-- An integer is displayed with a sign if it is negative, and with its digits. -/
theorem toList_toString (i : Int64) : (toString i).toList =
    (if 0 ≤ i.toInt then [] else ['-']) ++ Nat.toDigits 10 i.toInt.natAbs := by
  show (toString i.toInt).toList = _
  rw [Int.toString_eq_repr, Int.repr_eq_if]
  split
  · next h =>
    rw [Nat.toList_repr, List.nil_append]
    congr 1
    omega
  · next h =>
    rw [String.toList_append, Nat.toList_repr]
    congr 2
    omega

theorem all_isDigit_toDigits (n : ℕ) : (Nat.toDigits 10 n).all Char.isDigit :=
  List.all_eq_true.mpr fun _ h => Nat.isDigit_of_mem_toDigits (by decide) (by decide) h

theorem toDigits_eq_cons (n : ℕ) : ∃ ch ds, Nat.toDigits 10 n = ch :: ds ∧ ch.isDigit := by
  obtain ⟨ch, ds, h⟩ := List.exists_cons_of_ne_nil (Nat.toDigits_ne_nil : Nat.toDigits 10 n ≠ [])
  refine ⟨ch, ds, h, List.all_eq_true.mp (all_isDigit_toDigits n) ch ?_⟩
  rw [h]
  exact List.mem_cons_self

theorem splitSign_of_isDigit (h : ch.isDigit) (ds : List Char) :
    splitSign (ch :: ds) = (false, ch :: ds) := by
  unfold splitSign
  split
  · next heq =>
    obtain ⟨rfl, -⟩ := List.cons.inj heq
    exact absurd h (by decide)
  · next heq =>
    obtain ⟨rfl, -⟩ := List.cons.inj heq
    exact absurd h (by decide)
  · rfl

theorem parseI64_toString (i : Int64) : parseI64 (toString i) = some i := by
  have hlow := i.le_toInt
  have hhigh := i.toInt_lt
  have hall := all_isDigit_toDigits i.toInt.natAbs
  obtain ⟨ch, ds, hcons, hdigit⟩ := toDigits_eq_cons i.toInt.natAbs
  have hvalue : Nat.ofDigitChars 10 (ch :: ds) 0 = i.toInt.natAbs := by
    rw [← hcons, Nat.ofDigitChars_ten_toDigits]
  rw [hcons] at hall
  rw [parseI64, toList_toString, hcons]
  by_cases h : 0 ≤ i.toInt
  · rw [if_pos h, List.nil_append, splitSign_of_isDigit hdigit]
    have hint : ((i.toInt.natAbs : ℕ) : ℤ) = i.toInt := by omega
    simp only [hvalue, hall, hint, ne_eq, reduceCtorEq, not_false_eq_true, and_self, if_true,
      Bool.false_eq_true, if_false]
    rw [if_pos ⟨by omega, by omega⟩, Int64.ofInt_toInt]
  · rw [if_neg h, List.singleton_append, splitSign]
    have hint : -((i.toInt.natAbs : ℕ) : ℤ) = i.toInt := by omega
    simp only [hvalue, hall, hint, ne_eq, reduceCtorEq, not_false_eq_true, and_self, if_true]
    rw [if_pos ⟨by omega, by omega⟩, Int64.ofInt_toInt]

theorem reads_parseNumber (i : Int64) (hrest : ∀ ch ∈ rest.head?, ¬ ch.isDigit) :
    Reads cursor parseNumber (toString i).toList i rest := by
  intro before
  have hdigits : ∀ ch ∈ Nat.toDigits 10 i.toInt.natAbs, ch.isDigit :=
    List.all_eq_true.mp (all_isDigit_toDigits _)
  obtain ⟨ch, ds, hcons, hdigit⟩ := toDigits_eq_cons i.toInt.natAbs
  -- what follows the digits, wherever they begin
  have hback : ∀ before',
      before' ++ Nat.toDigits 10 i.toInt.natAbs = before ++ (toString i).toList →
      ReadsAt cursor before' (parseDigits (String.utf8Len before))
        (Nat.toDigits 10 i.toInt.natAbs) i rest := by
    intro before' hbefore
    unfold parseDigits
    refine (reads_advanceWhile hdigits hrest before').last ?_
    rw [hbefore]
    apply ReadsAt.of_get
    refine (readsAt_slice before).last ?_
    rw [String.ofList_toList, parseI64_toString]
    exact Reads.pure i _
  unfold parseNumber
  apply ReadsAt.of_get
  refine (reads_peekChar before).look ?_
  rw [toList_toString] at hback ⊢
  by_cases h : 0 ≤ i.toInt
  · rw [if_pos h, List.nil_append] at hback ⊢
    have hpeek : (Nat.toDigits 10 i.toInt.natAbs ++ rest).head? = some ch := by
      rw [hcons]
      rfl
    have hsign : ¬ some ch = some '-' := by
      rintro ⟨rfl⟩
      exact absurd hdigit (by decide)
    simp only [hpeek, if_neg hsign]
    exact hback before rfl
  · rw [if_neg h] at hback ⊢
    exact (reads_advance before).bind (hback _ (List.append_assoc _ _ _))

section Identifiers

variable [UnicodeTables]

theorem reads_parseIdentifier (hne : cs ≠ []) (hcs : ∀ ch ∈ cs, isIdentifierChar ch)
    (hrest : ∀ ch ∈ rest.head?, ¬ isIdentifierChar ch) :
    Reads cursor parseIdentifier cs (String.ofList cs) rest := by
  intro before
  unfold parseIdentifier
  apply ReadsAt.of_get
  refine (reads_advanceWhile hcs hrest before).last ?_
  apply ReadsAt.of_get
  have hmoved : String.utf8Len (before ++ cs) ≠ String.utf8Len before := by
    obtain ⟨ch, cs, rfl⟩ := List.exists_cons_of_ne_nil hne
    have hpos := Char.utf8Size_pos ch
    rw [utf8Len_append, String.utf8Len]
    omega
  show ReadsAt cursor _ (if String.utf8Len (before ++ cs) = String.utf8Len before then _ else _)
    _ _ _
  rw [if_neg hmoved]
  exact readsAt_slice before

end Identifiers

/-! ### Lists -/

theorem reads_comma (hrest : Solid rest) : Reads cursor comma [',', ' '] true rest := by
  have hcomma : Solid (',' :: ' ' :: rest) := solid_cons (by decide) _
  have hspace := reads_space hrest
  unfold comma
  have hread : Reads cursor (do
      advance
      skipWhitespace
      return true) ([','] ++ [' ']) true rest :=
    reads_advance.bind (hspace.last (Reads.pure true))
  exact Reads.look (reads_skipNothing hcomma) (reads_peekChar.look hread)

theorem reads_noComma (hrest : Solid rest) (hne : rest.head? ≠ some ',') :
    Reads cursor comma [] false rest := by
  unfold comma
  refine (reads_skipNothing hrest).look (reads_peekChar.look ?_)
  rw [List.nil_append, if_neg hne]
  exact Reads.pure false

/-- Items are read one after the other, each in front of a comma or of the end. -/
theorem reads_commaLoop {item : Method α} {text : α → List Char} {a : α} {as : List α}
    (hitem : ∀ b ∈ a :: as, ∀ tail, tail.head? = rest.head? ∨ tail.head? = some ',' →
      Reads cursor item (text b) b tail)
    (hsolid : ∀ b ∈ as, ∀ tail, Solid (text b ++ tail))
    (hrest : Solid rest) (hne : rest.head? ≠ some ',') :
    Reads cursor (commaLoop item) ([',', ' '].intercalate ((a :: as).map text)) (a :: as) rest := by
  intro before
  unfold commaLoop
  apply ReadsAt.of_get
  have hrounds := length_le_rounds before ([',', ' '].intercalate ((a :: as).map text) ++ rest)
  have hlen : as.length ≤ ([',', ' '].intercalate ((a :: as).map text)).length := by
    rw [← List.length_map text, List.map_cons]
    exact length_le_intercalate (by simp) _ _
  rw [List.length_append] at hrounds
  refine Reads.sepLoop ?_ (fun b hb tail => reads_comma (hsolid b hb tail))
    (reads_noComma hrest hne) (by omega) [] before
  rintro b hb tail (rfl | ⟨ds, rfl⟩)
  · exact hitem b hb tail (Or.inl rfl)
  · exact hitem b hb _ (Or.inr rfl)

end DatalogParser

end Ipfrs.Tensorlogic
