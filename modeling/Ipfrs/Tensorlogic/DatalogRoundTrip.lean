import Ipfrs.Core.CidReference
import Ipfrs.Tensorlogic.DatalogReaders

/-!
# The Datalog parser reads what is displayed

A term is displayed in front of a comma or a closing parenthesis, and there it is read back, by
induction over the term: its text decides which branch of `parse_term` is taken. An argument is
shorter than the whole text, so that the parser never runs out of rounds.

* `reads_parseTerm` — a term is read back from its text;
* `reads_parseStatement` — and a fact or a rule is;
* `yields_parseStatement` — no reference is ever parsed;
* `parseStatement_display_iff` — the parser undoes the display if and only if there is no reference.
-/

namespace Ipfrs.Tensorlogic

open TextReader

/-! ### What is displayed -/

section Displayed

variable [UnicodeTables]

/-- A non-empty string of letters, numbers and underscores. -/
def IsIdentifier (s : String) : Prop :=
  s.toList ≠ [] ∧ ∀ ch ∈ s.toList, DatalogParser.isIdentifierChar ch

instance (s : String) : Decidable (IsIdentifier s) :=
  have := List.decidableBAll (fun ch => DatalogParser.isIdentifierChar ch) s.toList
  inferInstanceAs (Decidable (_ ∧ _))

/-- Variables and functions are named by identifiers, functions by one that starts with a lowercase
letter; constants are integers, and strings without a quote. -/
inductive Term.WellNamed : Term → Prop
  | var {v : String} (h : IsIdentifier v) : WellNamed (.var v)
  | string {s : String} (h : '"' ∉ s.toList) : WellNamed (.const (.string s))
  | int (i : Int64) : WellNamed (.const (.int i))
  | func {f : String} {args : List Term} (hf : IsIdentifier f)
    (hlower : ∀ ch ∈ f.toList.head?, isLowercase ch) (hargs : ∀ t ∈ args, WellNamed t) :
    WellNamed (.func f args)
  | ref (r : TermRef) : WellNamed (.ref r)

/-- There is no reference in a term. -/
inductive Term.RefFree : Term → Prop
  | var (v : String) : RefFree (.var v)
  | const (c : Constant) : RefFree (.const c)
  | func {f : String} {args : List Term} (hargs : ∀ t ∈ args, RefFree t) : RefFree (.func f args)

/-- A predicate is named by an identifier. -/
def Predicate.WellNamed (p : Predicate) : Prop := IsIdentifier p.name ∧ ∀ t ∈ p.args, t.WellNamed

def Predicate.RefFree (p : Predicate) : Prop := ∀ t ∈ p.args, t.RefFree

def Rule.WellNamed (r : Rule) : Prop := r.head.WellNamed ∧ ∀ p ∈ r.body, p.WellNamed

def Rule.RefFree (r : Rule) : Prop := r.head.RefFree ∧ ∀ p ∈ r.body, p.RefFree

namespace DatalogParser

variable {α : Type} {cs rest : List Char}
variable {ch : Char} {s : String} {t : Term} {fuel : ℕ} {p : Predicate} {body : List Predicate}
  {r : Rule}

theorem not_isIdentifierChar (hascii : ch.toNat ≤ 127) (h : ¬ ch.isAlphanum) (hne : ch ≠ '_') :
    ¬ isIdentifierChar ch := by
  rw [isIdentifierChar, Bool.or_eq_true, isAlphanumeric_iff, decide_eq_true_iff]
  rintro ((hch | ⟨hbeyond, -⟩) | hch)
  · exact h hch
  · omega
  · exact hne hch

theorem solid_of_isIdentifierChar (h : isIdentifierChar ch) : ¬ isWhitespace ch ∧ ch ≠ '%' := by
  constructor
  · rcases (Bool.or_eq_true _ _).mp h with h | h
    · exact not_isWhitespace_of_isAlphanumeric h
    · obtain rfl := of_decide_eq_true h
      decide
  · rintro rfl
    exact not_isIdentifierChar (by decide) (by decide) (by decide) h

/-- Where a term ends. -/
def TermEnd (rest : List Char) : Prop := rest.head? = some ')' ∨ rest.head? = some ','

theorem TermEnd.not_isIdentifierChar (h : TermEnd rest) :
    ∀ ch ∈ rest.head?, ¬ isIdentifierChar ch := by
  intro ch hch
  rcases h with h | h
  · obtain rfl := Option.some.inj (h.symm.trans hch)
    exact DatalogParser.not_isIdentifierChar (by decide) (by decide) (by decide)
  · obtain rfl := Option.some.inj (h.symm.trans hch)
    exact DatalogParser.not_isIdentifierChar (by decide) (by decide) (by decide)

omit [UnicodeTables] in
theorem TermEnd.not_isDigit (h : TermEnd rest) : ∀ ch ∈ rest.head?, ¬ ch.isDigit := by
  intro ch hch
  rcases h with h | h
  · obtain rfl := Option.some.inj (h.symm.trans hch)
    decide
  · obtain rfl := Option.some.inj (h.symm.trans hch)
    decide

theorem reads_name (h : IsIdentifier s) (hrest : ∀ ch ∈ rest.head?, ¬ isIdentifierChar ch) :
    Reads cursor parseIdentifier s.toList s rest := by
  have hread := reads_parseIdentifier h.1 h.2 hrest
  rw [String.ofList_toList] at hread
  exact hread

/-! ### Terms -/

/-- What a number starts with is no other token's start, and no white space. -/
theorem numberStart {ch : Char} (h : ch.isDigit ∨ ch = '-') :
    (¬ isWhitespace ch ∧ ch ≠ '%') ∧ ch ≠ ')' ∧ ¬ (ch = '?' ∨ isUppercase ch) ∧ ch ≠ '"' := by
  have hnat : 45 = ch.toNat ∨ 48 ≤ ch.toNat ∧ ch.toNat ≤ 57 := by
    rcases h with h | rfl
    · exact Or.inr (Char.isDigit_iff_toNat.mp h)
    · exact Or.inl rfl
  have hne : ∀ c : Char, c.toNat < 45 ∨ 57 < c.toNat → ch ≠ c := by
    rintro c hc rfl
    omega
  refine ⟨⟨?_, hne _ (by decide)⟩, hne _ (by decide), ?_, hne _ (by decide)⟩
  · simp only [isWhitespace, Bool.or_eq_true, Bool.and_eq_true, decide_eq_true_eq]
    omega
  · rintro (h' | h')
    · exact hne _ (by decide) h'
    · refine not_isUppercase (by omega) ?_ h'
      rw [isUpper_iff]
      omega

/-- What a function starts with is the start of neither a variable, nor a string, nor a number. -/
theorem functionStart (h : isLowercase ch) :
    ¬ (ch = '?' ∨ isUppercase ch) ∧ ch ≠ '"' ∧ ¬ (ch.isDigit ∨ ch = '-') := by
  have hnat : 97 ≤ ch.toNat := by
    rcases isLowercase_iff.mp h with h | ⟨h, -⟩
    · exact (isLower_iff.mp h).1
    · omega
  have hne : ∀ c : Char, c.toNat < 97 → ch ≠ c := by
    rintro c hc rfl
    omega
  refine ⟨?_, hne _ (by decide), ?_⟩
  · rintro (h' | h')
    · exact hne _ (by decide) h'
    · exact not_isUppercase_of_isLowercase h h'
  · rintro (h' | h')
    · have hle : ch.toNat ≤ 57 := (Char.isDigit_iff_toNat.mp h').2
      omega
    · exact hne _ (by decide) h'

variable [CidText]

/-- The text of a term. -/
def textOf (t : Term) : List Char := t.display.toList

omit [UnicodeTables] in
theorem textOf_var (v : String) : textOf (.var v) = '?' :: v.toList := by
  rw [textOf, Term.display, String.toList_append]
  rfl

omit [UnicodeTables] in
theorem textOf_string (s : String) :
    textOf (.const (.string s)) = ['"'] ++ (s.toList ++ ['"']) := by
  rw [textOf, Term.display, Constant.display, String.toList_append, String.toList_append,
    List.append_assoc]
  rfl

omit [UnicodeTables] in
theorem textOf_func (f : String) (args : List Term) :
    textOf (.func f args) =
      f.toList ++ (['('] ++ ([',', ' '].intercalate (args.map textOf) ++ [')'])) := by
  rw [textOf, Term.display, Term.displayAll_eq, String.toList_append, String.toList_append,
    String.toList_append, String.toList_intercalate, List.map_map, List.append_assoc,
    List.append_assoc]
  rfl

omit [UnicodeTables] in
theorem exists_textOf_int (i : Int64) :
    ∃ ch ds, textOf (.const (.int i)) = ch :: ds ∧ (ch.isDigit ∨ ch = '-') := by
  have htext : textOf (.const (.int i)) =
      (if 0 ≤ i.toInt then [] else ['-']) ++ Nat.toDigits 10 i.toInt.natAbs := by
    rw [← toList_toString]
    rfl
  by_cases h : 0 ≤ i.toInt
  · obtain ⟨ch, ds, hcons, hdigit⟩ := toDigits_eq_cons i.toInt.natAbs
    rw [if_pos h, List.nil_append, hcons] at htext
    exact ⟨ch, ds, htext, Or.inl hdigit⟩
  · rw [if_neg h] at htext
    exact ⟨'-', _, htext, Or.inr rfl⟩

/-- A term starts where `skip_whitespace` stops, and its list does not end there. -/
theorem exists_textOf_eq_cons {t : Term} (hnamed : t.WellNamed) (href : t.RefFree) :
    ∃ ch cs, textOf t = ch :: cs ∧ (¬ isWhitespace ch ∧ ch ≠ '%') ∧ ch ≠ ')' := by
  cases hnamed with
  | var h => exact ⟨_, _, textOf_var _, by decide, by decide⟩
  | string h => exact ⟨_, _, textOf_string _, by decide, by decide⟩
  | int i =>
    obtain ⟨ch, ds, htext, hch⟩ := exists_textOf_int i
    exact ⟨ch, ds, htext, (numberStart hch).1, (numberStart hch).2.1⟩
  | @func f args hf hlower hargs =>
    obtain ⟨ch, cs, hcons⟩ := List.exists_cons_of_ne_nil hf.1
    have hch : isIdentifierChar ch := hf.2 ch (by rw [hcons]; exact List.mem_cons_self)
    refine ⟨ch, _, by rw [textOf_func, hcons, List.cons_append], solid_of_isIdentifierChar hch, ?_⟩
    rintro rfl
    exact not_isIdentifierChar (by decide) (by decide) (by decide) hch
  | ref r => cases href

omit [UnicodeTables] in
theorem head?_argumentsText {ts : List Term} (h : textOf t = ch :: cs) (rest : List Char) :
    ([',', ' '].intercalate ((t :: ts).map textOf) ++ rest).head? = some ch := by
  rw [List.map_cons, h, head?_intercalate_append]

/-- What is behind an opening parenthesis starts where `skip_whitespace` stops. -/
theorem solid_argumentsText {args : List Term} (hnamed : ∀ t ∈ args, t.WellNamed)
    (href : ∀ t ∈ args, t.RefFree) (rest : List Char) :
    Solid ([',', ' '].intercalate (args.map textOf) ++ ')' :: rest) := by
  cases args with
  | nil => exact solid_cons (by decide) rest
  | cons t ts =>
    obtain ⟨ch, cs, hcons, hsolid, -⟩ := exists_textOf_eq_cons (hnamed t List.mem_cons_self)
      (href t List.mem_cons_self)
    exact solid_of_head? (head?_argumentsText hcons _) hsolid

/-- A list of terms is read up to its closing parenthesis, if each of its terms is. -/
theorem reads_parseTermList {item : Method Term} {args : List Term}
    (hitem : ∀ t ∈ args, ∀ tail, TermEnd tail → Reads cursor item (textOf t) t tail)
    (hnamed : ∀ t ∈ args, t.WellNamed) (href : ∀ t ∈ args, t.RefFree) :
    Reads cursor (parseTermList item) ([',', ' '].intercalate (args.map textOf)) args
      (')' :: rest) := by
  unfold parseTermList
  refine reads_peekChar.look ?_
  cases args with
  | nil => exact Reads.pure []
  | cons t ts =>
    obtain ⟨ch, cs, hcons, -, hch⟩ := exists_textOf_eq_cons (hnamed t List.mem_cons_self)
      (href t List.mem_cons_self)
    have hne : ¬ some ch = some ')' := fun e => hch (Option.some.inj e)
    rw [head?_argumentsText hcons, if_neg hne]
    refine reads_commaLoop ?_ ?_ (solid_cons (by decide) rest) (by simp)
    · rintro u hu tail (h | h)
      · exact hitem u hu tail (Or.inl h)
      · exact hitem u hu tail (Or.inr h)
    · intro u hu tail
      obtain ⟨ch, cs, hcons, hsolid, -⟩ := exists_textOf_eq_cons
        (hnamed u (List.mem_cons_of_mem _ hu)) (href u (List.mem_cons_of_mem _ hu))
      exact solid_of_head? (by rw [hcons, List.cons_append, List.head?_cons]) hsolid

/-- The arguments of a function or of a predicate, with the closing parenthesis. -/
theorem reads_arguments {item : Method Term} {args : List Term} (k : List Term → α)
    (hitem : ∀ t ∈ args, ∀ tail, TermEnd tail → Reads cursor item (textOf t) t tail)
    (hnamed : ∀ t ∈ args, t.WellNamed) (href : ∀ t ∈ args, t.RefFree) :
    Reads cursor (do
        let args ← parseTermList item
        skipWhitespace
        expectChar ')'
        return k args)
      ([',', ' '].intercalate (args.map textOf) ++ [')']) (k args) rest := by
  have hend : Solid (')' :: rest) := solid_cons (by decide) rest
  have hclose : Reads cursor (expectChar ')') [')'] () rest := reads_expectChar (by decide)
  refine (reads_parseTermList hitem hnamed href).bind ?_
  exact (reads_skipNothing hend).look (hclose.last (Reads.pure _))

theorem reads_parseTerm_func {f : String} {args : List Term} (hf : IsIdentifier f)
    (hlower : ∀ ch ∈ f.toList.head?, isLowercase ch)
    (hitem : ∀ t ∈ args, ∀ tail, TermEnd tail → Reads cursor (parseTerm fuel) (textOf t) t tail)
    (hnamed : ∀ t ∈ args, t.WellNamed) (href : ∀ t ∈ args, t.RefFree) :
    Reads cursor (parseTerm (fuel + 1)) (textOf (.func f args)) (.func f args) rest := by
  obtain ⟨ch, cs, hcons⟩ := List.exists_cons_of_ne_nil hf.1
  have hch : isIdentifierChar ch := hf.2 ch (by rw [hcons]; exact List.mem_cons_self)
  obtain ⟨hno, hquote, hnumber⟩ := functionStart (hlower ch (by rw [hcons]; rfl))
  have hlow : isLowercase ch := hlower ch (by rw [hcons]; rfl)
  -- from the bracket on
  have hlist : Reads cursor (do
      advance
      skipWhitespace
      let args ← parseTermList (parseTerm fuel)
      skipWhitespace
      expectChar ')'
      return Term.func f args)
      (['('] ++ ([',', ' '].intercalate (args.map textOf) ++ [')'])) (.func f args) rest := by
    refine reads_advance.bind ((reads_skipNothing ?_).look ?_)
    · rw [List.append_assoc]
      exact solid_argumentsText hnamed href rest
    · exact reads_arguments (Term.func f) hitem hnamed href
  -- the first character says what is read
  have hhead : (textOf (.func f args) ++ rest).head? = some ch := by
    rw [textOf_func, hcons, List.cons_append, List.cons_append, List.head?_cons]
  have hsolid := solid_of_head? hhead (solid_of_isIdentifierChar hch)
  rw [parseTerm]
  refine (reads_skipNothing hsolid).look (reads_peekChar.look ?_)
  rw [hhead]
  show Reads cursor (if ch = '?' ∨ isUppercase ch then _ else if ch = '"' then _ else
    if ch.isDigit ∨ ch = '-' then _ else if isLowercase ch then _ else _) _ _ _
  rw [if_neg hno, if_neg hquote, if_neg hnumber, if_pos hlow, textOf_func]
  -- the name ends at the bracket
  have hopen : ∀ c ∈ (['('] ++ ([',', ' '].intercalate (args.map textOf) ++ [')']) ++ rest).head?,
      ¬ isIdentifierChar c := by
    intro c hc
    obtain rfl := Option.some.inj hc
    exact not_isIdentifierChar (by decide) (by decide) (by decide)
  refine (reads_name hf hopen).bind ?_
  refine (reads_skipNothing (solid_cons (by decide) _)).look (reads_peekChar.look ?_)
  exact hlist

theorem reads_parseTerm_var {v : String} (h : IsIdentifier v) (hrest : TermEnd rest) :
    Reads cursor (parseTerm (fuel + 1)) (textOf (.var v)) (.var v) rest := by
  have hname := reads_name h hrest.not_isIdentifierChar
  have hvar : Reads cursor (do
      advance
      return Term.var (← parseIdentifier)) (['?'] ++ v.toList) (.var v) rest :=
    reads_advance.bind (hname.last (Reads.pure _))
  rw [textOf_var, parseTerm]
  refine (reads_skipNothing (solid_cons (by decide) _)).look (reads_peekChar.look ?_)
  exact hvar

theorem reads_parseTerm_string (h : '"' ∉ s.toList) :
    Reads cursor (parseTerm (fuel + 1)) (textOf (.const (.string s))) (.const (.string s))
      rest := by
  have hvalue : Reads cursor parseString s.toList s ('"' :: rest) := by
    have hread : Reads cursor parseString s.toList (String.ofList s.toList) ('"' :: rest) :=
      reads_parseString h rfl
    rw [String.ofList_toList] at hread
    exact hread
  have hquote : Reads cursor (expectChar '"') ['"'] () rest := reads_expectChar (by decide)
  have hno : ¬ ('"' = '?' ∨ isUppercase '"') := by
    rintro (h | h)
    · exact absurd h (by decide)
    · exact not_isUppercase (by decide) (by decide) h
  rw [textOf_string, parseTerm]
  refine (reads_skipNothing (solid_cons (by decide) _)).look (reads_peekChar.look ?_)
  show Reads cursor (if '"' = '?' ∨ isUppercase '"' then _ else if '"' = '"' then _ else _) _ _ _
  rw [if_neg hno, if_pos rfl]
  exact reads_advance.bind (hvalue.bind (hquote.last (Reads.pure _)))

theorem reads_parseTerm_int (i : Int64) (hrest : TermEnd rest) :
    Reads cursor (parseTerm (fuel + 1)) (textOf (.const (.int i))) (.const (.int i)) rest := by
  obtain ⟨ch, ds, htext, hch⟩ := exists_textOf_int i
  obtain ⟨hsolid, -, hno, hquote⟩ := numberStart hch
  have hnumber : Reads cursor parseNumber (textOf (.const (.int i))) i rest :=
    reads_parseNumber i hrest.not_isDigit
  rw [htext] at hnumber ⊢
  rw [parseTerm]
  refine (reads_skipNothing (solid_cons hsolid _)).look (reads_peekChar.look ?_)
  show Reads cursor (if ch = '?' ∨ isUppercase ch then _ else if ch = '"' then _ else
    if ch.isDigit ∨ ch = '-' then _ else _) _ _ _
  rw [if_neg hno, if_neg hquote, if_pos hch]
  exact hnumber.last (Reads.pure _)

/-- The text of a term is not empty, so there is a level for it. -/
theorem exists_fuel (hnamed : t.WellNamed) (href : t.RefFree) (hfuel : (textOf t).length ≤ fuel) :
    ∃ n, fuel = n + 1 := by
  obtain ⟨ch, cs, htext, -⟩ := exists_textOf_eq_cons hnamed href
  rw [htext, List.length_cons] at hfuel
  exact Nat.exists_eq_add_of_le' (le_trans (Nat.le_add_left 1 _) hfuel)

/-- **A term is read back from its text**, by a parser that may go as deep as the text is long. -/
theorem reads_parseTerm (hnamed : t.WellNamed) (href : t.RefFree) (hfuel : (textOf t).length ≤ fuel)
    {tail : List Char} (htail : TermEnd tail) :
    Reads cursor (parseTerm fuel) (textOf t) t tail := by
  induction hnamed generalizing fuel tail with
  | var h =>
    obtain ⟨n, rfl⟩ := exists_fuel (.var h) href hfuel
    exact reads_parseTerm_var h htail
  | string h =>
    obtain ⟨n, rfl⟩ := exists_fuel (.string h) href hfuel
    exact reads_parseTerm_string h
  | int i =>
    obtain ⟨n, rfl⟩ := exists_fuel (.int i) href hfuel
    exact reads_parseTerm_int i htail
  | @func f args hf hlower hargs ih =>
    obtain ⟨n, rfl⟩ := exists_fuel (.func hf hlower hargs) href hfuel
    have hargsFree : ∀ t ∈ args, t.RefFree := by
      cases href with
      | func h => exact h
    refine reads_parseTerm_func hf hlower (fun t ht tail htail => ?_) hargs hargsFree
    refine ih t ht (hargsFree t ht) ?_ htail
    -- an argument is shorter than the whole text
    have hle : (textOf t).length ≤ ([',', ' '].intercalate (args.map textOf)).length :=
      length_le_intercalate_of_mem (List.mem_map_of_mem ht)
    rw [textOf_func, List.length_append, List.length_append, List.length_append,
      List.length_singleton] at hfuel
    omega
  | ref r => cases href

/-! ### Predicates and statements -/

omit [UnicodeTables] in
theorem toList_display_predicate (p : Predicate) :
    p.display.toList =
      p.name.toList ++ (['('] ++ ([',', ' '].intercalate (p.args.map textOf) ++ [')'])) := by
  rw [Predicate.display, String.toList_append, String.toList_append, String.toList_append,
    String.toList_intercalate, List.map_map, List.append_assoc, List.append_assoc]
  rfl

theorem exists_head?_predicate (hnamed : p.WellNamed) (rest : List Char) :
    ∃ ch, (p.display.toList ++ rest).head? = some ch ∧ isIdentifierChar ch := by
  obtain ⟨ch, cs, hcons⟩ := List.exists_cons_of_ne_nil hnamed.1.1
  refine ⟨ch, ?_, hnamed.1.2 ch (by rw [hcons]; exact List.mem_cons_self)⟩
  rw [toList_display_predicate, hcons, List.cons_append, List.cons_append, List.head?_cons]

theorem solid_bodyText (hne : body ≠ []) (hnamed : ∀ p ∈ body, p.WellNamed) (rest : List Char) :
    Solid ([',', ' '].intercalate (body.map fun p => p.display.toList) ++ rest) := by
  obtain ⟨p, ps, rfl⟩ := List.exists_cons_of_ne_nil hne
  obtain ⟨ch, hch, hident⟩ := exists_head?_predicate (hnamed p List.mem_cons_self) []
  obtain ⟨cs, hcons⟩ : ∃ cs, p.display.toList = ch :: cs := by
    rw [List.append_nil] at hch
    exact ⟨_, (List.cons_head?_tail hch).symm⟩
  refine solid_of_head? ?_ (solid_of_isIdentifierChar hident)
  rw [List.map_cons, hcons, head?_intercalate_append]

theorem reads_parsePredicate (hnamed : p.WellNamed) (href : p.RefFree) :
    Reads cursor parsePredicate p.display.toList p rest := by
  have hopen : ∀ c ∈ (['('] ++ ([',', ' '].intercalate (p.args.map textOf) ++ [')']) ++ rest).head?,
      ¬ isIdentifierChar c := by
    intro c hc
    obtain rfl := Option.some.inj hc
    exact not_isIdentifierChar (by decide) (by decide) (by decide)
  have hsolid := solid_argumentsText hnamed.2 href rest
  have hargs : Reads cursor (do
      let args ← parseTermList (parseTerm (← get).rounds)
      skipWhitespace
      expectChar ')'
      return (⟨p.name, args⟩ : Predicate))
      ([',', ' '].intercalate (p.args.map textOf) ++ [')']) p rest := by
    intro before
    apply ReadsAt.of_get
    refine reads_arguments (Predicate.mk p.name) (fun t ht tail htail => ?_) hnamed.2 href before
    refine reads_parseTerm (hnamed.2 t ht) (href t ht) ?_ htail
    -- an argument is shorter than the input
    have hle : (textOf t).length ≤ ([',', ' '].intercalate (p.args.map textOf)).length :=
      length_le_intercalate_of_mem (List.mem_map_of_mem ht)
    have hrounds := length_le_rounds before
      ([',', ' '].intercalate (p.args.map textOf) ++ [')'] ++ rest)
    rw [List.length_append, List.length_append] at hrounds
    omega
  have hparen : Reads cursor (expectChar '(') ['('] ()
      ([',', ' '].intercalate (p.args.map textOf) ++ [')'] ++ rest) := reads_expectChar (by decide)
  rw [toList_display_predicate, parsePredicate]
  refine (reads_name hnamed.1 hopen).bind ?_
  refine (reads_skipNothing (solid_cons (by decide) _)).look (hparen.bind ?_)
  refine (reads_skipNothing ?_).look hargs
  rw [List.append_assoc]
  exact hsolid

theorem reads_parsePredicateList (hne : body ≠ []) (hnamed : ∀ p ∈ body, p.WellNamed)
    (href : ∀ p ∈ body, p.RefFree) :
    Reads cursor parsePredicateList
      ([',', ' '].intercalate (body.map fun p => p.display.toList)) body ('.' :: rest) := by
  cases body with
  | nil => exact absurd rfl hne
  | cons p ps =>
    refine reads_commaLoop (fun q hq tail _ => reads_parsePredicate (hnamed q hq) (href q hq))
      (fun q hq tail => ?_) (solid_cons (by decide) rest) (by simp)
    obtain ⟨ch, hhead, hch⟩ := exists_head?_predicate (hnamed q (List.mem_cons_of_mem _ hq)) tail
    exact solid_of_head? hhead (solid_of_isIdentifierChar hch)

omit [UnicodeTables] [CidText] in
theorem reads_peekStr : Reads cursor (peekStr 2) [] (some ":-") (':' :: '-' :: rest) := by
  intro before
  have hsplit : splitAtByte (':' :: '-' :: rest) 2 = some ([':', '-'], rest) :=
    splitAtByte_append [':', '-'] rest
  have hlong : 2 ≤ String.utf8Len (':' :: '-' :: rest) := by
    rw [String.utf8Len, String.utf8Len]
    exact Nat.le_add_left 2 _
  rw [ReadsAt, List.append_nil, List.nil_append, run_peekStr, if_pos hlong, hsplit]

/-- What is displayed behind the head of a rule. -/
def tailText (body : List Predicate) : List Char :=
  if body.isEmpty then ['.']
  else [' '] ++ ([':'] ++ (['-'] ++ ([' '] ++
    ([',', ' '].intercalate (body.map fun p => p.display.toList) ++ ['.']))))

omit [UnicodeTables] in
theorem toList_display_rule (r : Rule) :
    r.display.toList = r.head.display.toList ++ tailText r.body := by
  rw [Rule.display, tailText, String.toList_append, String.toList_append, List.append_assoc]
  split
  · rfl
  · rw [String.toList_append, String.toList_intercalate, List.map_map]
    rfl

/-- **A fact or a rule is read from its text.** -/
theorem reads_parseStatement (hnamed : r.WellNamed) (href : r.RefFree) :
    Reads cursor parseStatement r.display.toList
      (if r.body.isEmpty then .fact r.head else .rule r) rest := by
  have hhead : Reads cursor parsePredicate r.head.display.toList r.head (tailText r.body ++ rest) :=
    reads_parsePredicate hnamed.1 href.1
  -- the text starts with an identifier, which no query does
  obtain ⟨ch, hch, hident⟩ := exists_head?_predicate hnamed.1 (tailText r.body ++ rest)
  rw [← List.append_assoc, ← toList_display_rule] at hch
  have hquery : ¬ some ch = some '?' := by
    rintro ⟨rfl⟩
    exact not_isIdentifierChar (by decide) (by decide) (by decide) hident
  have hsolid := solid_of_head? hch (solid_of_isIdentifierChar hident)
  rw [parseStatement]
  refine (reads_skipNothing hsolid).look (reads_peekChar.look ?_)
  rw [hch, if_neg hquery, toList_display_rule]
  refine hhead.bind ?_
  rw [tailText]
  by_cases hbody : r.body.isEmpty
  · rw [if_pos hbody, if_pos hbody]
    refine (reads_skipNothing (solid_cons (by decide) _)).look (reads_peekChar.look ?_)
    exact reads_advance.last (Reads.pure (Statement.fact r.head))
  · rw [if_neg hbody, if_neg hbody]
    have hne : r.body ≠ [] := fun h => hbody (by rw [h]; rfl)
    have hspace := reads_space (solid_bodyText hne hnamed.2 (['.'] ++ rest))
    rw [← List.append_assoc] at hspace
    have hbodyRead : Reads cursor parsePredicateList _ r.body ('.' :: rest) :=
      reads_parsePredicateList hne hnamed.2 href.2
    have hdot : Reads cursor (expectChar '.') ['.'] () rest := reads_expectChar (by decide)
    have hend : Solid ('.' :: rest) := solid_cons (by decide) rest
    refine (reads_space (solid_cons (by decide) _)).bind ?_
    refine reads_peekChar.look (reads_peekStr.look ?_)
    refine reads_advance.bind (reads_advance.bind (hspace.bind (hbodyRead.bind ?_)))
    exact (reads_skipNothing hend).look (hdot.last (Reads.pure (Statement.rule r)))

theorem run_parseStatement (hnamed : r.WellNamed) (href : r.RefFree) :
    parseStatement.run (new r.display) =
      .ok (if r.body.isEmpty then .fact r.head else .rule r,
        ⟨r.display, r.display.utf8ByteSize⟩) := by
  have hread : parseStatement.run (cursor [] (r.display.toList ++ [])) =
      .ok (_, cursor ([] ++ r.display.toList) []) := reads_parseStatement hnamed href []
  have hlen : String.utf8Len r.display.toList = r.display.utf8ByteSize := by
    rw [← String.utf8ByteSize_ofList, String.ofList_toList]
  rw [List.append_nil, List.nil_append] at hread
  simp only [cursor, List.append_nil, List.nil_append, String.ofList_toList, hlen] at hread
  exact hread

end DatalogParser

end Displayed

/-! ### What is parsed -/

/-- The rule that a statement stands for. -/
def Statement.toRule : Statement → Rule
  | .fact p => .fact p
  | .rule r => r
  | .query p => .fact p

namespace DatalogParser

section Results

variable {α : Type}

theorem yields_commaLoop {item : Method α} {P : α → Prop} (h : Yields item P) :
    Yields (commaLoop item) fun as => ∀ a ∈ as, P a := by
  unfold commaLoop
  refine Yields.after fun self => Yields.sepLoop h _ ?_
  intro a ha
  cases ha

theorem yields_parseTermList {item : Method Term} (h : Yields item Term.RefFree) :
    Yields (parseTermList item) fun ts => ∀ t ∈ ts, t.RefFree := by
  unfold parseTermList
  refine Yields.after fun ch => ?_
  split
  · exact Yields.pure (by simp)
  · exact yields_commaLoop h

variable [UnicodeTables]

theorem yields_parseTerm (fuel : ℕ) : Yields (parseTerm fuel) Term.RefFree := by
  induction fuel with
  | zero => exact Yields.throw _
  | succ fuel ih =>
    rw [parseTerm]
    refine Yields.after fun _ => Yields.after fun next => ?_
    cases next with
    | none => exact Yields.after fun _ => Yields.throw _
    | some ch =>
      dsimp only
      split
      · -- a variable
        have hvar : Yields (do return Term.var (← parseIdentifier)) Term.RefFree :=
          Yields.after fun name => Yields.pure (.var name)
        split
        · exact Yields.after fun _ => hvar
        · exact hvar
      · split
        · -- a string
          exact Yields.after fun _ => Yields.after fun value => Yields.after fun _ =>
            Yields.pure (.const _)
        · split
          · exact Yields.after fun value => Yields.pure (.const _)
          · split
            · -- a function, or a name alone
              refine Yields.after fun name => Yields.after fun _ => Yields.after fun next => ?_
              split
              · refine Yields.after fun _ => Yields.after fun _ => ?_
                refine (yields_parseTermList ih).bind fun args hargs => ?_
                exact Yields.after fun _ => Yields.after fun _ => Yields.pure (.func hargs)
              · exact Yields.pure (.const _)
            · exact Yields.after fun _ => Yields.throw _

theorem yields_parsePredicate : Yields parsePredicate Predicate.RefFree := by
  unfold parsePredicate
  refine Yields.after fun name => Yields.after fun _ => Yields.after fun _ =>
    Yields.after fun _ => Yields.after fun self => ?_
  refine (yields_parseTermList (yields_parseTerm _)).bind fun args hargs => ?_
  exact Yields.after fun _ => Yields.after fun _ => Yields.pure hargs

/-- **There is no reference in what is parsed**, whatever the text. -/
theorem yields_parseStatement : Yields parseStatement fun s => s.toRule.RefFree := by
  unfold parseStatement
  refine Yields.after fun _ => Yields.after fun next => ?_
  split
  · refine Yields.after fun _ => Yields.after fun _ => Yields.after fun _ => ?_
    refine yields_parsePredicate.bind fun p hp => Yields.after fun _ => Yields.after fun _ => ?_
    exact Yields.pure ⟨hp, by simp [Statement.toRule, Rule.fact]⟩
  · refine yields_parsePredicate.bind fun head hhead => ?_
    refine Yields.after fun _ => Yields.after fun next => ?_
    split
    · refine Yields.after fun _ => Yields.pure ⟨hhead, by simp [Statement.toRule, Rule.fact]⟩
    · refine Yields.after fun neck => ?_
      split
      · refine Yields.after fun _ => Yields.after fun _ => Yields.after fun _ => ?_
        refine (yields_commaLoop yields_parsePredicate).bind fun body hbody => ?_
        exact Yields.after fun _ => Yields.after fun _ => Yields.pure ⟨hhead, hbody⟩
      · exact Yields.after fun _ => Yields.throw _

/-- **The parser undoes the display**: with the names and the constants as they should be, the text
of a fact or a rule is parsed to that fact or rule, with the cursor at the end of the text, if and
only if there is no reference in it. -/
theorem parseStatement_display_iff [CidText] {r : Rule} (hnamed : r.WellNamed) :
    parseStatement.run (new r.display) =
        .ok (if r.body.isEmpty then .fact r.head else .rule r,
          ⟨r.display, r.display.utf8ByteSize⟩) ↔
      r.RefFree := by
  constructor
  · intro hrun
    have hfree := yields_parseStatement _ _ _ hrun
    by_cases hbody : r.body.isEmpty
    · rw [if_pos hbody] at hfree
      rw [List.isEmpty_iff] at hbody
      exact ⟨hfree.1, by simp [hbody]⟩
    · rw [if_neg hbody] at hfree
      exact hfree
  · exact run_parseStatement hnamed

end Results

section Cases

open scoped CidReference

/-- Tables with nothing above ASCII. -/
abbrev asciiTables : UnicodeTables :=
  ⟨fun _ => false, fun _ => false, fun _ => false, by simp, by simp⟩

theorem parseStatement_display_iff_nested :
    letI := asciiTables
    let r : Rule := ⟨⟨"p", [.var "x", .func "f" [.const (.int (-5))]]⟩,
      [⟨"q", [.const (.string "a % b")]⟩]⟩
    parseStatement.run (new r.display) = .ok (.rule r, ⟨r.display, r.display.utf8ByteSize⟩) ↔
      r.RefFree := by
  let := asciiTables
  intro r
  have hident : ∀ s ∈ ["p", "q", "x", "f"], IsIdentifier s := by
    decide
  have hlower : ∀ ch ∈ "f".toList.head?, isLowercase ch := by
    intro ch hch
    cases hch
    decide
  have hargs : ∀ t ∈ [Term.var "x", .func "f" [.const (.int (-5))]], t.WellNamed := by
    refine List.forall_mem_cons.mpr ⟨.var (hident _ (by decide)), List.forall_mem_singleton.mpr ?_⟩
    exact .func (hident _ (by decide)) hlower (List.forall_mem_singleton.mpr (.int _))
  have hbody : Predicate.WellNamed ⟨"q", [.const (.string "a % b")]⟩ :=
    ⟨hident _ (by decide), List.forall_mem_singleton.mpr (.string (by decide))⟩
  exact parseStatement_display_iff ⟨⟨hident _ (by decide), hargs⟩,
    List.forall_mem_singleton.mpr hbody⟩

/-- A reference is displayed and cannot be parsed: `p(@…).` is no fact. -/
theorem not_parseStatement_reference :
    letI := asciiTables
    let r : Rule := .fact ⟨"p", [.ref ⟨Cid.newV1 Codec.raw ⟨0x12, [], by decide⟩, none⟩]⟩
    r.WellNamed ∧ parseStatement.run (new r.display) ≠
      .ok (.fact r.head, ⟨r.display, r.display.utf8ByteSize⟩) := by
  let := asciiTables
  intro r
  have hident : IsIdentifier "p" := by decide
  refine ⟨⟨⟨hident, List.forall_mem_singleton.mpr (.ref _)⟩, by simp [r, Rule.fact]⟩,
    fun hrun => ?_⟩
  have hfree := (yields_parseStatement _ _ _ hrun).1 _ (List.mem_singleton.mpr rfl)
  cases hfree

end Cases

end DatalogParser

end Ipfrs.Tensorlogic
