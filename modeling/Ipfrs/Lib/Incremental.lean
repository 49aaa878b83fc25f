import Ipfrs.Lib.ByteStream

/-!
# Parsing input that comes in pieces

A parser for one item looks at the input so far and says that it needs more, that there is an item
and what is left, or that the input is wrong. It may change its mind about `more` only (`Grows`), so
that it does not matter how the input was cut when it is asked.

* `parseAll` — all items, and what is left: an unfinished item, or an error;
* `parseAll_append`, `parseAll_append_fail` — the items of a longer input;
* `deliver` — input that comes in pieces, when a piece with an error in it delivers nothing;
* `deliver_spec` — what is delivered, and that it is all there is if the input is not wrong;
* `deliver_eq_iff` — it is all there is if and only if no item ends in the piece with the error.
-/

namespace Incremental

variable {β ι ε : Type*}

/-- What a parser says. -/
inductive Parse (β ι ε : Type*) where
  | more
  | item (x : ι) (rest : List β)
  | fail (e : ε)

/-- A parser that stands by its items and errors when there is more input. -/
structure Grows (p : List β → Parse β ι ε) : Prop where
  item_append : ∀ {bs x rest}, p bs = .item x rest → ∀ c, p (bs ++ c) = .item x (rest ++ c)
  fail_append : ∀ {bs e}, p bs = .fail e → ∀ c, p (bs ++ c) = .fail e
  length_le : ∀ {bs x rest}, p bs = .item x rest → rest.length ≤ bs.length

/-- A parser of items that are not empty. -/
structure Stable (p : List β → Parse β ι ε) : Prop extends Grows p where
  nil : p [] = .more
  shorter : ∀ {bs x rest}, p bs = .item x rest → rest.length < bs.length

/-! ### Parsers that take a number of bytes -/

/-- Take `n` elements, and go on with them. -/
def take (n : ℕ) (k : List β → List β → Parse β ι ε) (bs : List β) : Parse β ι ε :=
  if n ≤ bs.length then k (bs.take n) (bs.drop n) else .more

variable {n : ℕ} {k : List β → List β → Parse β ι ε} {bs a rest : List β} {x : ι} {e : ε}

theorem take_of_lt (h : bs.length < n) : take n k bs = .more := if_neg (not_le.mpr h)

theorem take_append (h : a.length = n) (rest : List β) : take n k (a ++ rest) = k a rest := by
  subst h
  simp [take]

theorem eq_append_of_take (h : take n k bs ≠ .more) :
    ∃ a rest, bs = a ++ rest ∧ a.length = n := by
  by_cases hn : n ≤ bs.length
  · exact ⟨bs.take n, bs.drop n, (List.take_append_drop n bs).symm, by simpa using hn⟩
  · exact absurd (if_neg hn) h

theorem length_of_take (h : ∀ a, Grows (k a)) (hitem : take n k bs = .item x rest) :
    n + rest.length ≤ bs.length := by
  have hmore : take n k bs ≠ .more := by
    rw [hitem]
    exact fun h => by cases h
  obtain ⟨a, rest', rfl, rfl⟩ := eq_append_of_take hmore
  rw [take_append rfl] at hitem
  have hle := (h a).length_le hitem
  rw [List.length_append]
  exact Nat.add_le_add_left hle _

theorem grows_take (h : ∀ a, Grows (k a)) : Grows (take n k) where
  item_append {bs x rest} hitem c := by
    have hmore : take n k bs ≠ .more := by
      rw [hitem]
      exact fun h => by cases h
    obtain ⟨a, rest', rfl, ha⟩ := eq_append_of_take hmore
    rw [take_append ha] at hitem
    rw [List.append_assoc, take_append ha]
    exact (h a).item_append hitem c
  fail_append {bs e} hfail c := by
    have hmore : take n k bs ≠ .more := by
      rw [hfail]
      exact fun h => by cases h
    obtain ⟨a, rest', rfl, ha⟩ := eq_append_of_take hmore
    rw [take_append ha] at hfail
    rw [List.append_assoc, take_append ha]
    exact (h a).fail_append hfail c
  length_le hitem := Nat.le_of_add_left_le (length_of_take h hitem)

theorem stable_take (hn : 0 < n) (h : ∀ a, Grows (k a)) : Stable (take n k) where
  toGrows := grows_take h
  nil := take_of_lt hn
  shorter {bs x rest} hitem := by
    have hlen := length_of_take h hitem
    omega

theorem grows_item (x : ι) : Grows (fun bs : List β => (.item x bs : Parse β ι ε)) where
  item_append h c := by
    obtain ⟨rfl, rfl⟩ := Parse.item.inj h
    rfl
  fail_append h := by cases h
  length_le h := (congrArg List.length (Parse.item.inj h).2).ge

theorem grows_fail (e : ε) : Grows (fun _ : List β => (.fail e : Parse β ι ε)) where
  item_append h := by cases h
  fail_append h _ := by
    obtain rfl := Parse.fail.inj h
    rfl
  length_le h := by cases h

theorem grows_ite {c : Prop} [Decidable c] {p q : List β → Parse β ι ε} (hp : Grows p)
    (hq : Grows q) : Grows (fun bs => if c then p bs else q bs) := by
  by_cases hc : c
  · simpa [hc] using hp
  · simpa [hc] using hq

/-! ### All items -/

/-- The items of an input, as many as the first argument allows. -/
def parseSome (p : List β → Parse β ι ε) : ℕ → List β → List ι × (List β ⊕ ε)
  | 0, bs => ([], .inl bs)
  | fuel + 1, bs =>
    match p bs with
    | .more => ([], .inl bs)
    | .fail e => ([], .inr e)
    | .item x rest => (x :: (parseSome p fuel rest).1, (parseSome p fuel rest).2)

/-- The items of an input, and what is left of it, or its first error. -/
def parseAll (p : List β → Parse β ι ε) (bs : List β) : List ι × (List β ⊕ ε) :=
  parseSome p (bs.length + 1) bs

variable {p : List β → Parse β ι ε} {xs ys : List ι} {pend pend' : List β} {fin : List β ⊕ ε}

theorem parseSome_eq (hp : Stable p) {fuel fuel' : ℕ} (h : bs.length < fuel)
    (h' : bs.length < fuel') : parseSome p fuel bs = parseSome p fuel' bs := by
  induction fuel generalizing bs fuel' with
  | zero => exact absurd h (Nat.not_lt_zero _)
  | succ fuel ih =>
    obtain ⟨fuel', rfl⟩ : ∃ n, fuel' = n + 1 := ⟨fuel' - 1, by omega⟩
    rw [parseSome, parseSome]
    cases hparse : p bs with
    | more => rfl
    | fail e => rfl
    | item x rest =>
      have hshort := hp.shorter hparse
      dsimp only
      rw [ih (by omega) (by omega : rest.length < fuel')]

/-- **One item after the other.** -/
theorem parseAll_eq (hp : Stable p) (bs : List β) : parseAll p bs =
    match p bs with
    | .more => ([], .inl bs)
    | .fail e => ([], .inr e)
    | .item x rest => (x :: (parseAll p rest).1, (parseAll p rest).2) := by
  rw [parseAll, parseSome]
  cases hparse : p bs with
  | more => rfl
  | fail e => rfl
  | item x rest =>
    have hshort := hp.shorter hparse
    dsimp only
    rw [parseAll, parseSome_eq hp hshort (Nat.lt_succ_self _)]

theorem parseAll_of_more (hp : Stable p) (h : p bs = .more) : parseAll p bs = ([], .inl bs) := by
  rw [parseAll_eq hp, h]

theorem parseAll_of_fail (hp : Stable p) (h : p bs = .fail e) : parseAll p bs = ([], .inr e) := by
  rw [parseAll_eq hp, h]

theorem parseAll_of_item (hp : Stable p) (h : p bs = .item x rest) :
    parseAll p bs = (x :: (parseAll p rest).1, (parseAll p rest).2) := by
  rw [parseAll_eq hp, h]

theorem more_of_parseAll (hp : Stable p) (h : parseAll p bs = (xs, .inl pend)) :
    p pend = .more := by
  induction hn : bs.length using Nat.strong_induction_on generalizing bs xs with
  | _ n ih =>
    cases hparse : p bs with
    | more =>
      rw [parseAll_of_more hp hparse] at h
      obtain ⟨-, heq⟩ := Prod.mk.inj h
      rwa [← Sum.inl.inj heq]
    | fail e =>
      rw [parseAll_of_fail hp hparse] at h
      cases h
    | item x rest =>
      rw [parseAll_of_item hp hparse] at h
      obtain ⟨-, heq⟩ := Prod.mk.inj h
      exact ih rest.length (hn ▸ hp.shorter hparse) (Prod.ext rfl heq) rfl

/-- **More input** goes on with what was left unfinished. -/
theorem parseAll_append (hp : Stable p) (h : parseAll p bs = (xs, .inl pend)) (c : List β) :
    parseAll p (bs ++ c) = (xs ++ (parseAll p (pend ++ c)).1, (parseAll p (pend ++ c)).2) := by
  induction hn : bs.length using Nat.strong_induction_on generalizing bs xs with
  | _ n ih =>
    cases hparse : p bs with
    | more =>
      rw [parseAll_of_more hp hparse] at h
      obtain ⟨rfl, heq⟩ := Prod.mk.inj h
      rw [← Sum.inl.inj heq]
      rfl
    | fail e =>
      rw [parseAll_of_fail hp hparse] at h
      cases h
    | item x rest =>
      rw [parseAll_of_item hp hparse] at h
      obtain ⟨rfl, heq⟩ := Prod.mk.inj h
      rw [parseAll_of_item hp (hp.item_append hparse c)]
      rw [ih rest.length (hn ▸ hp.shorter hparse) (Prod.ext rfl heq) rfl]
      rfl

/-- **More input** after an error changes nothing. -/
theorem parseAll_append_fail (hp : Stable p) (h : parseAll p bs = (xs, .inr e)) (c : List β) :
    parseAll p (bs ++ c) = (xs, .inr e) := by
  induction hn : bs.length using Nat.strong_induction_on generalizing bs xs with
  | _ n ih =>
    cases hparse : p bs with
    | more =>
      rw [parseAll_of_more hp hparse] at h
      cases h
    | fail e' =>
      rw [parseAll_of_fail hp hparse] at h
      obtain ⟨rfl, heq⟩ := Prod.mk.inj h
      rw [parseAll_of_fail hp (hp.fail_append hparse c), ← heq]
    | item x rest =>
      rw [parseAll_of_item hp hparse] at h
      obtain ⟨rfl, heq⟩ := Prod.mk.inj h
      rw [parseAll_of_item hp (hp.item_append hparse c)]
      rw [ih rest.length (hn ▸ hp.shorter hparse) (Prod.ext rfl heq) rfl]

/-! ### Input in pieces -/

/-- The items that come out when the input comes in pieces after `pend`. Nothing comes out of a
piece with an error in it, nor after it. -/
def deliver (p : List β → Parse β ι ε) (pend : List β) : List (List β) → List ι × (List β ⊕ ε)
  | [] => ([], .inl pend)
  | piece :: pieces =>
    match parseAll p (pend ++ piece) with
    | (xs, .inl pend') => (xs ++ (deliver p pend' pieces).1, (deliver p pend' pieces).2)
    | (_, .inr e) => ([], .inr e)

/-- No item ends in the piece with the error. -/
def Clean (p : List β → Parse β ι ε) (pend : List β) (pieces : List (List β)) : Prop :=
  ∀ j xs ys pend' e, parseAll p (pend ++ (pieces.take j).flatten) = (xs, .inl pend') →
    parseAll p (pend ++ (pieces.take (j + 1)).flatten) = (ys, .inr e) → ys = xs

variable {pieces : List (List β)} {piece : List β}

/-- **What is delivered.** How the input ends does not depend on the pieces, and if it is not wrong,
all items are delivered. -/
theorem deliver_spec (pieces : List (List β)) (hp : Stable p) (hpend : p pend = .more) :
    (deliver p pend pieces).2 = (parseAll p (pend ++ pieces.flatten)).2 ∧
      ∀ rest, (parseAll p (pend ++ pieces.flatten)).2 = .inl rest →
        (deliver p pend pieces).1 = (parseAll p (pend ++ pieces.flatten)).1 := by
  induction pieces generalizing pend with
  | nil =>
    rw [List.flatten_nil, List.append_nil, parseAll_of_more hp hpend]
    exact ⟨rfl, fun _ _ => rfl⟩
  | cons piece pieces ih =>
    rw [deliver, List.flatten_cons, ← List.append_assoc]
    rcases hpiece : parseAll p (pend ++ piece) with ⟨xs, pend' | e⟩
    · obtain ⟨hfin, hitems⟩ := ih (more_of_parseAll hp hpiece)
      rw [parseAll_append hp hpiece]
      exact ⟨hfin, fun rest hrest => congrArg (xs ++ ·) (hitems rest hrest)⟩
    · rw [parseAll_append_fail hp hpiece]
      exact ⟨rfl, fun rest hrest => by cases hrest⟩

theorem clean_cons_of_pend (hp : Stable p)
    (hpiece : parseAll p (pend ++ piece) = (xs, .inl pend')) :
    Clean p pend (piece :: pieces) ↔ Clean p pend' pieces := by
  have hlater : ∀ j, parseAll p (pend ++ ((piece :: pieces).take (j + 1)).flatten) =
      (xs ++ (parseAll p (pend' ++ (pieces.take j).flatten)).1,
        (parseAll p (pend' ++ (pieces.take j).flatten)).2) := by
    intro j
    rw [List.take_succ_cons, List.flatten_cons, ← List.append_assoc, parseAll_append hp hpiece]
  constructor
  · intro h j ys zs pend'' e hj hj'
    have hclean := h (j + 1) (xs ++ ys) (xs ++ zs) pend'' e (by rw [hlater, hj])
      (by rw [hlater, hj'])
    exact List.append_cancel_left hclean
  · intro h j ys zs pend'' e hj hj'
    cases j with
    | zero =>
      -- there is no error in the first piece
      rw [hlater, List.take_zero, List.flatten_nil, List.append_nil,
        parseAll_of_more hp (more_of_parseAll hp hpiece)] at hj'
      cases hj'
    | succ j =>
      rw [hlater] at hj hj'
      obtain ⟨rfl, hfin⟩ := Prod.mk.inj hj
      obtain ⟨rfl, hfin'⟩ := Prod.mk.inj hj'
      exact congrArg (xs ++ ·) (h j _ _ pend'' e (Prod.ext rfl hfin) (Prod.ext rfl hfin'))

theorem clean_cons_of_fail (hp : Stable p) (hpend : p pend = .more)
    (hpiece : parseAll p (pend ++ piece) = (xs, .inr e)) :
    Clean p pend (piece :: pieces) ↔ xs = [] := by
  constructor
  · intro h
    refine h 0 [] xs pend e ?_ ?_
    · rw [List.take_zero, List.flatten_nil, List.append_nil, parseAll_of_more hp hpend]
    · rw [List.take_succ_cons, List.take_zero, List.flatten_cons, List.flatten_nil,
        List.append_nil, hpiece]
  · rintro rfl j ys zs pend'' e' hj hj'
    cases j with
    | zero =>
      rw [List.take_zero, List.flatten_nil, List.append_nil, parseAll_of_more hp hpend] at hj
      rw [List.take_succ_cons, List.take_zero, List.flatten_cons, List.flatten_nil,
        List.append_nil, hpiece] at hj'
      rw [← (Prod.mk.inj hj).1, ← (Prod.mk.inj hj').1]
    | succ j =>
      rw [List.take_succ_cons, List.flatten_cons, ← List.append_assoc,
        parseAll_append_fail hp hpiece] at hj
      cases hj

theorem deliver_prefix_parseAll (hp : Stable p) (hpend : p pend = .more) :
    (deliver p pend pieces).1 <+: (parseAll p (pend ++ pieces.flatten)).1 := by
  induction pieces generalizing pend with
  | nil => exact List.nil_prefix
  | cons piece pieces ih =>
    rw [deliver, List.flatten_cons, ← List.append_assoc]
    rcases hpiece : parseAll p (pend ++ piece) with ⟨xs, pend' | e⟩
    · rw [parseAll_append hp hpiece]
      exact (List.prefix_append_right_inj xs).mpr (ih (more_of_parseAll hp hpiece))
    · exact List.nil_prefix

/-- **All items are delivered** if and only if none ends in the piece with the error. -/
theorem deliver_eq_iff (hp : Stable p) (hpend : p pend = .more) :
    (deliver p pend pieces).1 = (parseAll p (pend ++ pieces.flatten)).1 ↔ Clean p pend pieces := by
  induction pieces generalizing pend with
  | nil =>
    refine iff_of_true ?_ fun j xs ys pend' e hj hj' => ?_
    · rw [List.flatten_nil, List.append_nil, parseAll_of_more hp hpend]
      rfl
    · rw [List.take_nil] at hj hj'
      rw [hj] at hj'
      cases hj'
  | cons piece pieces ih =>
    rw [deliver, List.flatten_cons, ← List.append_assoc]
    rcases hpiece : parseAll p (pend ++ piece) with ⟨xs, pend' | e⟩
    · rw [clean_cons_of_pend hp hpiece, parseAll_append hp hpiece,
        ← ih (more_of_parseAll hp hpiece)]
      exact ⟨fun h => List.append_cancel_left h, fun h => congrArg (xs ++ ·) h⟩
    · rw [clean_cons_of_fail hp hpend hpiece, parseAll_append_fail hp hpiece]
      exact eq_comm

end Incremental
