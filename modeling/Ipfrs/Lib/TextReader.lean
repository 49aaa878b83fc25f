import Mathlib.Data.String.Basic

/-!
# Readers of a text

A parser that moves a cursor over a text is a stateful computation that may fail. `Reads m t v rest`
says what it does in front of the text `t` and the text `rest` behind it: wherever the cursor
stands, it reads exactly `t` and returns `v`. Such statements compose along the steps of the parser;
what the state is does not matter, as long as `cut` cuts it into the text before and behind the
cursor. Where the cursor is a number of bytes, `splitAtByte` is what cuts.

* `splitAtByte_append` — the number of bytes before a place cuts the text there;
* `ReadsAt.bind`, `Reads.bind` — one reader after the other;
* `Reads.repeatWhile`, `Reads.sepLoop` — a loop reads piece after piece, or items with a separator;
* `Yields.bind`, `Yields.sepLoop` — what holds of every value that a parser returns;
* `MovesAt.bind`, `MovesAt.repeatWhile`, `MovesAt.sepLoop` — runs that stay between characters.
-/

namespace TextReader

/-! ### Places in UTF-8 text -/

/-- The text before and behind the byte `n`; none when that is inside a character or beyond the
end. -/
def splitAtByte : List Char → ℕ → Option (List Char × List Char)
  | cs, 0 => some ([], cs)
  | [], _ + 1 => none
  | c :: cs, n + 1 =>
    if c.utf8Size ≤ n + 1 then
      (splitAtByte cs (n + 1 - c.utf8Size)).map fun (before, behind) => (c :: before, behind)
    else none

/-- The text from the byte `start` to the byte `stop`. -/
def sliceBytes (cs : List Char) (start stop : ℕ) : Option (List Char) :=
  if start ≤ stop then
    (splitAtByte cs start).bind fun (_, behind) => (splitAtByte behind (stop - start)).map Prod.fst
  else none

theorem utf8Len_append (cs ds : List Char) :
    String.utf8Len (cs ++ ds) = String.utf8Len cs + String.utf8Len ds := by
  induction cs with
  | nil => simp [String.utf8Len]
  | cons c cs ih => rw [List.cons_append, String.utf8Len, String.utf8Len, ih]; omega

theorem splitAtByte_append (cs ds : List Char) :
    splitAtByte (cs ++ ds) (String.utf8Len cs) = some (cs, ds) := by
  induction cs with
  | nil => rw [String.utf8Len, List.nil_append, splitAtByte]
  | cons c cs ih =>
    have hpos : 0 < c.utf8Size := Char.utf8Size_pos c
    obtain ⟨n, hn⟩ : ∃ n, String.utf8Len cs + c.utf8Size = n + 1 :=
      ⟨String.utf8Len cs + c.utf8Size - 1, by omega⟩
    have hrest : n + 1 - c.utf8Size = String.utf8Len cs := by omega
    rw [String.utf8Len, hn, List.cons_append, splitAtByte, if_pos (by omega), hrest, ih,
      Option.map_some]

theorem sliceBytes_behind (cs ds : List Char) (n : ℕ) :
    sliceBytes (cs ++ ds) (String.utf8Len cs) (String.utf8Len cs + n) =
      (splitAtByte ds n).map Prod.fst := by
  rw [sliceBytes, if_pos (Nat.le_add_right _ _), splitAtByte_append, Option.bind_some,
    Nat.add_sub_cancel_left]

theorem sliceBytes_append (cs ds es : List Char) :
    sliceBytes (cs ++ (ds ++ es)) (String.utf8Len cs) (String.utf8Len (cs ++ ds)) = some ds := by
  rw [utf8Len_append, sliceBytes_behind, splitAtByte_append, Option.map_some]

/-! ### Readers -/

variable {σ ε α β : Type}

/-- Behind `before` and in front of `t` and `rest`, the parser reads `t` and returns `v`. -/
def ReadsAt (cut : List Char → List Char → σ) (before : List Char) (m : StateT σ (Except ε) α)
    (t : List Char) (v : α) (rest : List Char) : Prop :=
  m.run (cut before (t ++ rest)) = .ok (v, cut (before ++ t) rest)

/-- In front of `t` and `rest`, the parser reads `t` and returns `v`, whatever it has read before.
-/
def Reads (cut : List Char → List Char → σ) (m : StateT σ (Except ε) α) (t : List Char) (v : α)
    (rest : List Char) : Prop :=
  ∀ before, ReadsAt cut before m t v rest

variable {cut : List Char → List Char → σ} {before t t' rest : List Char}
  {m : StateT σ (Except ε) α} {f : α → StateT σ (Except ε) β} {v : α} {w : β}

theorem Reads.pure (v : α) : Reads cut (pure v : StateT σ (Except ε) α) [] v rest := by
  intro before
  rw [ReadsAt, List.append_nil]
  rfl

/-- **Sequence**: what the second one reads stands behind what the first one reads. -/
theorem ReadsAt.bind (hm : ReadsAt cut before m t v (t' ++ rest))
    (hf : ReadsAt cut (before ++ t) (f v) t' w rest) :
    ReadsAt cut before (m >>= f) (t ++ t') w rest := by
  rw [ReadsAt, StateT.run_bind, List.append_assoc, hm]
  show (f v).run (cut (before ++ t) (t' ++ rest)) = _
  rw [hf, List.append_assoc]

theorem Reads.bind (hm : Reads cut m t v (t' ++ rest)) (hf : Reads cut (f v) t' w rest) :
    Reads cut (m >>= f) (t ++ t') w rest :=
  fun before => (hm before).bind (hf (before ++ t))

theorem ReadsAt.look (hm : ReadsAt cut before m [] v (t ++ rest))
    (hf : ReadsAt cut before (f v) t w rest) : ReadsAt cut before (m >>= f) t w rest := by
  rw [← List.append_nil before] at hf
  exact ReadsAt.bind hm hf

theorem Reads.look (hm : Reads cut m [] v (t ++ rest)) (hf : Reads cut (f v) t w rest) :
    Reads cut (m >>= f) t w rest :=
  fun before => (hm before).look (hf before)

theorem ReadsAt.last (hm : ReadsAt cut before m t v rest)
    (hf : ReadsAt cut (before ++ t) (f v) [] w rest) : ReadsAt cut before (m >>= f) t w rest := by
  rw [← List.append_nil t]
  exact ReadsAt.bind hm hf

theorem Reads.last (hm : Reads cut m t v rest) (hf : Reads cut (f v) [] w rest) :
    Reads cut (m >>= f) t w rest :=
  fun before => (hm before).last (hf (before ++ t))

theorem ReadsAt.of_get {g : σ → StateT σ (Except ε) α}
    (h : ReadsAt cut before (g (cut before (t ++ rest))) t v rest) :
    ReadsAt cut before (get >>= g) t v rest :=
  h

/-! ### Results -/

/-- Whatever the parser returns is as `P` says. -/
def Yields (m : StateT σ (Except ε) α) (P : α → Prop) : Prop :=
  ∀ s v s', m.run s = .ok (v, s') → P v

variable {P : α → Prop} {Q : β → Prop}
variable {a : α} {exhausted : ε} {rounds : ℕ} {sep : List Char} {item : StateT σ (Except ε) α}

theorem Yields.pure (h : P a) : Yields (pure a : StateT σ (Except ε) α) P := by
  rintro s v s' hrun
  obtain ⟨rfl, -⟩ := Prod.mk.inj (Except.ok.inj hrun)
  exact h

theorem Yields.throw (e : ε) : Yields (throw e : StateT σ (Except ε) α) P := by
  rintro s v s' hrun
  cases hrun

theorem Yields.bind (hm : Yields m P) (hf : ∀ a, P a → Yields (f a) Q) : Yields (m >>= f) Q := by
  rintro s w s' hrun
  rw [StateT.run_bind] at hrun
  cases h : m.run s with
  | error e => rw [h] at hrun; cases hrun
  | ok p =>
    rw [h] at hrun
    exact hf p.1 (hm s p.1 p.2 h) p.2 w s' hrun

theorem Yields.after (hf : ∀ a, Yields (f a) Q) : Yields (m >>= f) Q := by
  have hm : Yields m fun _ => True := fun _ _ _ _ => trivial
  exact hm.bind fun a _ => hf a

/-! ### Runs that go on along the text -/

/-- Behind `before` and in front of `behind`, the parser goes on over some text, and `Q` holds of
what it returns, of that text and of the rest; or it fails, in a way that `E` allows. -/
def MovesAt (cut : List Char → List Char → σ) (E : ε → Prop) (before : List Char)
    (m : StateT σ (Except ε) α) (behind : List Char) (Q : α → List Char → List Char → Prop) :
    Prop :=
  (∃ v t rest, behind = t ++ rest ∧ m.run (cut before behind) = .ok (v, cut (before ++ t) rest) ∧
    Q v t rest) ∨
  ∃ e, E e ∧ m.run (cut before behind) = .error e

section Moves

variable {E : ε → Prop} {behind : List Char} {Q Q' : α → List Char → List Char → Prop}
  {R : β → List Char → List Char → Prop}

theorem ReadsAt.moves (h : ReadsAt cut before m t v rest) (hQ : Q v t rest) :
    MovesAt cut E before m (t ++ rest) Q :=
  Or.inl ⟨v, t, rest, rfl, h, hQ⟩

theorem MovesAt.pure (h : Q v [] behind) :
    MovesAt cut E before (pure v : StateT σ (Except ε) α) behind Q :=
  (Reads.pure v before).moves h

theorem MovesAt.throw {e : ε} (h : E e) :
    MovesAt cut E before (throw e : StateT σ (Except ε) α) behind Q :=
  Or.inr ⟨e, h, rfl⟩

theorem MovesAt.imp (hm : MovesAt cut E before m behind Q)
    (h : ∀ v t rest, Q v t rest → Q' v t rest) : MovesAt cut E before m behind Q' := by
  obtain ⟨v, t, rest, hcut, hrun, hQ⟩ | hfail := hm
  · exact Or.inl ⟨v, t, rest, hcut, hrun, h v t rest hQ⟩
  · exact Or.inr hfail

/-- **Sequence**: the second one goes on where the first one has stopped. -/
theorem MovesAt.bind (hm : MovesAt cut E before m behind Q)
    (hf : ∀ v t rest, behind = t ++ rest → Q v t rest →
      MovesAt cut E (before ++ t) (f v) rest fun w t' rest' => R w (t ++ t') rest') :
    MovesAt cut E before (m >>= f) behind R := by
  obtain ⟨v, t, rest, hcut, hrun, hQ⟩ | ⟨e, he, hrun⟩ := hm
  · obtain ⟨w, t', rest', rfl, hrun', hR⟩ | ⟨e, he, hrun'⟩ := hf v t rest hcut hQ
    · refine Or.inl ⟨w, t ++ t', rest', by rw [hcut, List.append_assoc], ?_, hR⟩
      rw [StateT.run_bind, hrun, ← List.append_assoc]
      exact hrun'
    · refine Or.inr ⟨e, he, ?_⟩
      rw [StateT.run_bind, hrun]
      exact hrun'
  · refine Or.inr ⟨e, he, ?_⟩
    rw [StateT.run_bind, hrun]
    rfl

theorem MovesAt.look (hm : ReadsAt cut before m [] v behind)
    (hf : MovesAt cut E before (f v) behind R) : MovesAt cut E before (m >>= f) behind R := by
  have hm' : MovesAt cut E before m behind fun w t rest => w = v ∧ t = [] ∧ rest = behind :=
    ReadsAt.moves (t := []) hm ⟨rfl, rfl, rfl⟩
  refine hm'.bind ?_
  rintro _ _ _ - ⟨rfl, rfl, rfl⟩
  rw [List.append_nil]
  exact hf

theorem MovesAt.of_get {g : σ → StateT σ (Except ε) α}
    (h : MovesAt cut E before (g (cut before behind)) behind Q) :
    MovesAt cut E before (get >>= g) behind Q :=
  h

end Moves

/-! ### Loops -/

/-- Rounds of `step` while it answers `true`, at most `rounds` of them. -/
def repeatWhile (exhausted : ε) (step : StateT σ (Except ε) Bool) :
    ℕ → StateT σ (Except ε) Unit
  | 0 => throw exhausted
  | rounds + 1 => do
    if ← step then repeatWhile exhausted step rounds

/-- An item, then another one as long as there is a separator; at most `rounds` of them. -/
def sepLoop (exhausted : ε) (item : StateT σ (Except ε) α) (sep : StateT σ (Except ε) Bool) :
    ℕ → List α → StateT σ (Except ε) (List α)
  | 0, _ => throw exhausted
  | rounds + 1, items => do
    let a ← item
    if ← sep then sepLoop exhausted item sep rounds (items ++ [a]) else return items ++ [a]

/-- **A loop reads piece after piece**: as many pieces as its step reads, up to where that answers
`false`. -/
theorem Reads.repeatWhile {step : StateT σ (Except ε) Bool} {pieces : List (List Char)}
    (hstep : ∀ p ∈ pieces, ∀ rest, Reads cut step p true rest) (hend : Reads cut step [] false rest)
    (hrounds : pieces.length < rounds) :
    Reads cut (TextReader.repeatWhile exhausted step rounds) pieces.flatten () rest := by
  induction pieces generalizing rounds with
  | nil =>
    obtain ⟨n, rfl⟩ := Nat.exists_eq_add_of_lt hrounds
    rw [TextReader.repeatWhile]
    exact hend.look (Reads.pure ())
  | cons p pieces ih =>
    obtain ⟨n, rfl⟩ : ∃ n, rounds = n + 1 := ⟨rounds - 1, by omega⟩
    rw [List.length_cons] at hrounds
    rw [TextReader.repeatWhile, List.flatten_cons]
    exact (hstep p List.mem_cons_self _).bind
      (ih (fun q hq => hstep q (List.mem_cons_of_mem _ hq)) (by omega))

theorem length_le_intercalate (hsep : sep ≠ []) (x : List Char) (xs : List (List Char)) :
    xs.length ≤ (sep.intercalate (x :: xs)).length := by
  induction xs generalizing x with
  | nil => exact Nat.zero_le _
  | cons y ys ih =>
    have hpos := List.length_pos_of_ne_nil hsep
    have hrec := ih y
    rw [List.intercalate_cons_cons, List.length_append, List.length_append, List.length_cons]
    omega

theorem length_le_intercalate_of_mem {x : List Char} {xs : List (List Char)} (h : x ∈ xs) :
    x.length ≤ (sep.intercalate xs).length := by
  induction xs with
  | nil => cases h
  | cons y ys ih =>
    cases ys with
    | nil =>
      obtain rfl := List.mem_singleton.mp h
      rw [List.intercalate_singleton]
    | cons z zs =>
      rw [List.intercalate_cons_cons, List.length_append, List.length_append]
      rcases List.mem_cons.mp h with rfl | h
      · omega
      · have := ih h
        omega

theorem head?_intercalate_append (sep : List Char) (ch : Char) (cs : List Char)
    (xs : List (List Char)) (rest : List Char) :
    (sep.intercalate ((ch :: cs) :: xs) ++ rest).head? = some ch := by
  cases xs with
  | nil => rw [List.intercalate_singleton, List.cons_append, List.head?_cons]
  | cons x xs =>
    rw [List.intercalate_cons_cons, List.cons_append, List.cons_append, List.cons_append,
      List.head?_cons]

/-- **A loop reads items with separators**. An item reads its text in front of a separator and of
the end. -/
theorem Reads.sepLoop {sep : StateT σ (Except ε) Bool} {sepText : List Char} {text : α → List Char}
    {as : List α} (hitem : ∀ b ∈ a :: as, ∀ tail, tail = rest ∨ (∃ ds, tail = sepText ++ ds) →
      Reads cut item (text b) b tail)
    (hsep : ∀ b ∈ as, ∀ tail, Reads cut sep sepText true (text b ++ tail))
    (hend : Reads cut sep [] false rest) (hrounds : as.length < rounds) (items : List α) :
    Reads cut (TextReader.sepLoop exhausted item sep rounds items)
      (sepText.intercalate ((a :: as).map text)) (items ++ a :: as) rest := by
  induction as generalizing a rounds items with
  | nil =>
    obtain ⟨n, rfl⟩ := Nat.exists_eq_add_of_lt hrounds
    rw [TextReader.sepLoop, List.map_cons, List.map_nil, List.intercalate_singleton]
    exact (hitem a List.mem_cons_self rest (Or.inl rfl)).last (hend.look (Reads.pure _))
  | cons b as ih =>
    obtain ⟨n, rfl⟩ : ∃ n, rounds = n + 1 := ⟨rounds - 1, by omega⟩
    rw [List.length_cons] at hrounds
    have hn : as.length < n := by omega
    have hrec := ih (fun c hc => hitem c (List.mem_cons_of_mem _ hc))
      (fun c hc => hsep c (List.mem_cons_of_mem _ hc)) hn (items ++ [a])
    -- the next item begins right behind the separator
    have hbehind : ∃ ds, sepText.intercalate ((b :: as).map text) = text b ++ ds := by
      cases as with
      | nil => exact ⟨[], by simp⟩
      | cons c as =>
        exact ⟨sepText ++ sepText.intercalate ((c :: as).map text), by
          rw [List.map_cons, List.map_cons, List.intercalate_cons_cons, List.append_assoc]⟩
    obtain ⟨ds, hds⟩ := hbehind
    rw [TextReader.sepLoop, List.map_cons, List.map_cons, List.intercalate_cons_cons,
      ← List.map_cons, List.append_assoc]
    have hfirst := hitem a List.mem_cons_self
      (sepText ++ sepText.intercalate ((b :: as).map text) ++ rest)
      (Or.inr ⟨_, List.append_assoc _ _ _⟩)
    have hbetween := hsep b List.mem_cons_self (ds ++ rest)
    rw [← List.append_assoc, ← hds] at hbetween
    refine hfirst.bind (hbetween.bind ?_)
    rw [List.append_assoc, List.singleton_append] at hrec
    exact hrec

theorem Yields.sepLoop {sep : StateT σ (Except ε) Bool} (hitem : Yields item P) (rounds : ℕ)
    {items : List α} (hitems : ∀ a ∈ items, P a) :
    Yields (TextReader.sepLoop exhausted item sep rounds items) fun as => ∀ a ∈ as, P a := by
  induction rounds generalizing items with
  | zero => exact Yields.throw _
  | succ rounds ih =>
    refine hitem.bind fun a ha => Yields.after fun more => ?_
    have happend : ∀ b ∈ items ++ [a], P b := by
      intro b hb
      rcases List.mem_append.mp hb with hb | hb
      · exact hitems b hb
      · obtain rfl := List.mem_singleton.mp hb
        exact ha
    cases more with
    | true => exact ih happend
    | false => exact Yields.pure happend

section Moves

variable {E : ε → Prop} {behind : List Char} {rounds : ℕ}
variable {exhausted : ε} {step : StateT σ (Except ε) Bool}

/-- **A loop comes to its end**: every round but the last one moves the cursor. -/
theorem MovesAt.repeatWhile
    (hstep : ∀ before behind, MovesAt cut E before step behind fun more t _ => more = true → t ≠ [])
    (hrounds : behind.length < rounds) :
    MovesAt cut E before (TextReader.repeatWhile exhausted step rounds) behind
      fun _ _ _ => True := by
  induction rounds generalizing before behind with
  | zero => exact absurd hrounds (Nat.not_lt_zero _)
  | succ rounds ih =>
    rw [TextReader.repeatWhile]
    refine (hstep before behind).bind fun more t rest hcut hmore => ?_
    cases more with
    | false => exact MovesAt.pure trivial
    | true =>
      have hpos := List.length_pos_of_ne_nil (hmore rfl)
      rw [hcut, List.length_append] at hrounds
      exact ih (by omega)

theorem MovesAt.repeatWhile_moved
    (hstep : ∀ before behind, MovesAt cut E before step behind fun more t _ => more = true → t ≠ [])
    (hfirst : MovesAt cut E before step behind fun _ t _ => t ≠ [])
    (hrounds : behind.length < rounds) :
    MovesAt cut E before (TextReader.repeatWhile exhausted step rounds) behind
      fun _ t _ => t ≠ [] := by
  obtain ⟨n, rfl⟩ : ∃ n, rounds = n + 1 := ⟨rounds - 1, by omega⟩
  rw [TextReader.repeatWhile]
  refine hfirst.bind fun more t rest hcut hmoved => ?_
  have hpos := List.length_pos_of_ne_nil hmoved
  rw [hcut, List.length_append] at hrounds
  have happend : ∀ t' : List Char, t ++ t' ≠ [] :=
    fun t' => List.append_ne_nil_of_left_ne_nil hmoved t'
  cases more with
  | false => exact MovesAt.pure (happend [])
  | true =>
    have hrest : MovesAt cut E (before ++ t) (TextReader.repeatWhile exhausted step n) rest
        fun _ _ _ => True := MovesAt.repeatWhile hstep (by omega)
    exact hrest.imp fun _ t' _ _ => happend t'

/-- An item that can be read in front of fewer than `bound` characters, then separators and more
items: a separator moves the cursor. -/
theorem MovesAt.sepLoop {item : StateT σ (Except ε) α} {sep : StateT σ (Except ε) Bool} {bound : ℕ}
    (hitem : ∀ before behind, behind.length < bound →
      MovesAt cut E before item behind fun _ _ _ => True)
    (hsep : ∀ before behind, MovesAt cut E before sep behind fun more t _ => more = true → t ≠ [])
    (hbound : behind.length < bound) (hrounds : behind.length < rounds) (items : List α) :
    MovesAt cut E before (TextReader.sepLoop exhausted item sep rounds items) behind
      fun _ _ _ => True := by
  induction rounds generalizing before behind items with
  | zero => exact absurd hrounds (Nat.not_lt_zero _)
  | succ rounds ih =>
    rw [TextReader.sepLoop]
    refine (hitem before behind hbound).bind fun a t rest hcut _ => ?_
    refine (hsep _ rest).bind fun more t' rest' hcut' hmore => ?_
    cases more with
    | false => exact MovesAt.pure trivial
    | true =>
      have hpos := List.length_pos_of_ne_nil (hmore rfl)
      rw [hcut, hcut', List.length_append, List.length_append] at hbound hrounds
      exact ih (by omega) (by omega) _

end Moves

end TextReader
