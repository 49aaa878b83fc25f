import Mathlib.Data.List.Flatten
import Ipfrs.Lib.Fallible
import Ipfrs.Lib.WhileLoop

/-!
# Reading until nothing comes

A reader is a function `read : ℕ → σ → σ × Except ε (List α)`: given how much the caller has room
for, it returns some elements, none at the end, or an error. `ReadLoop.step` is the loop of a caller
that reads until nothing comes, with room for `sizes i` elements in round `i`.

* `Reads` — what a single read has to do for the whole loop to return `rest s` from the state `s`;
* `drains` — the loop then returns it, whatever the sizes;
* `yields` — what comes from a reader that applies a function to one piece of its input after the
  other. An empty result in the middle is taken for the end.
-/

namespace ReadLoop

variable {σ α ε : Type*} {read : ℕ → σ → σ × Except ε (List α)} {sizes : ℕ → ℕ}

theorem map_append_map (r : Except ε (List α)) (l l' : List α) :
    (r.map (l' ++ ·)).map (l ++ ·) = r.map (l ++ l' ++ ·) := by
  cases r with
  | error e => rfl
  | ok out => exact congrArg Except.ok (List.append_assoc l l' out).symm

/-- One round: the number of the round, the reader and what has been read. -/
def step (read : ℕ → σ → σ × Except ε (List α)) (sizes : ℕ → ℕ) :
    ℕ × σ × List α → (ℕ × σ × List α) ⊕ Except ε (List α)
  | (i, s, acc) =>
    match read (sizes i) s with
    | (_, .error e) => .inr (.error e)
    | (_, .ok []) => .inr (.ok acc)
    | (s', .ok (a :: out)) => .inl (i + 1, s', acc ++ a :: out)

/-- Reading from `s` until nothing comes returns `r`. -/
def Drains (read : ℕ → σ → σ × Except ε (List α)) (sizes : ℕ → ℕ) (s : σ)
    (r : Except ε (List α)) : Prop :=
  WhileLoop.Returns (step read sizes) (0, s, []) r

variable {s : σ} {R : List α → List α → Prop} {pieces outs : List (List α)} {piece data : List α}
  {f : List α → Except ε (List α)}

theorem Drains.unique {r r' : Except ε (List α)} (h : Drains read sizes s r)
    (h' : Drains read sizes s r') : r = r' :=
  WhileLoop.Returns.unique h h'

/-- What one read does, when `rest s` is what is still to come from `s`. The measure `m` says that
something will be read only finitely often. -/
def Reads (read : ℕ → σ → σ × Except ε (List α)) (rest : σ → Except ε (List α)) (m : σ → ℕ)
    (I : σ → Prop) : Prop :=
  ∀ n s, 1 ≤ n → I s →
    (∃ s' e, read n s = (s', .error e) ∧ rest s = .error e) ∨
    (∃ s', read n s = (s', .ok []) ∧ rest s = .ok []) ∨
    ∃ s' a out, read n s = (s', .ok (a :: out)) ∧ rest s = (rest s').map (a :: out ++ ·) ∧
      m s' < m s ∧ I s'

/-- **The loop returns what is to come**, whatever the sizes. -/
theorem drains {rest : σ → Except ε (List α)} {m : σ → ℕ} {I : σ → Prop} (h : Reads read rest m I)
    (hsizes : ∀ i, 1 ≤ sizes i) (hs : I s) : Drains read sizes s (rest s) := by
  suffices hall : ∀ k i s acc, m s < k → I s →
      WhileLoop.Returns (step read sizes) (i, s, acc) ((rest s).map (acc ++ ·)) by
    have hdrain := hall (m s + 1) 0 s [] (Nat.lt_succ_self _) hs
    have hnil : (rest s).map ([] ++ ·) = rest s := by cases rest s <;> rfl
    rw [hnil] at hdrain
    exact hdrain
  intro k
  induction k with
  | zero => exact fun i s acc hlt => absurd hlt (Nat.not_lt_zero _)
  | succ k ih =>
    intro i s acc hlt hs
    rcases h (sizes i) s (hsizes i) hs with ⟨s', e, hread, hrest⟩ | ⟨s', hread, hrest⟩ |
      ⟨s', a, out, hread, hrest, hless, hs'⟩
    · refine .of_done ?_
      unfold step
      dsimp only
      rw [hread, hrest]
      rfl
    · refine .of_done ?_
      unfold step
      dsimp only
      rw [hread, hrest]
      exact congrArg (fun l => Sum.inr (Except.ok l)) (List.append_nil acc).symm
    · -- a piece has been read, and less is left
      have hstep : step read sizes (i, s, acc) = .inl (i + 1, s', acc ++ a :: out) := by
        unfold step
        dsimp only
        rw [hread]
      have hmore := ih (i + 1) s' (acc ++ a :: out) (by omega) hs'
      have hsame : (rest s).map (acc ++ ·) = (rest s').map (acc ++ a :: out ++ ·) := by
        rw [hrest, map_append_map]
      rw [hsame]
      exact .of_next hstep hmore

/-! ### Piece by piece -/

/-- What a reader yields that applies `f` to the pieces of its input, one at a time. -/
def yields (f : List α → Except ε (List α)) : List (List α) → Except ε (List α)
  | [] => .ok []
  | piece :: pieces =>
    match f piece with
    | .error e => .error e
    | .ok [] => .ok []
    | .ok (a :: out) => (yields f pieces).map (a :: out ++ ·)

/-- The pieces correspond to `outs` one by one, and after these there is no piece left, or one that
corresponds to nothing. -/
def UpTo (R : List α → List α → Prop) (pieces outs : List (List α)) : Prop :=
  ∃ done rest, pieces = done ++ rest ∧ List.Forall₂ R done outs ∧ ∀ piece ∈ rest.head?, R piece []

theorem UpTo.imp {R' : List α → List α → Prop} (himp : ∀ piece out, R piece out → R' piece out)
    (h : UpTo R pieces outs) : UpTo R' pieces outs := by
  obtain ⟨done, rest, hsplit, hdone, hrest⟩ := h
  exact ⟨done, rest, hsplit, hdone.imp himp, fun piece hp => himp piece [] (hrest piece hp)⟩

theorem UpTo.nil (h : ∀ piece ∈ pieces.head?, R piece []) : UpTo R pieces [] :=
  ⟨[], pieces, rfl, .nil, h⟩

theorem UpTo.cons {out : List α} (hpiece : R piece out) (h : UpTo R pieces outs) :
    UpTo R (piece :: pieces) (out :: outs) := by
  obtain ⟨done, rest, rfl, hdone, hrest⟩ := h
  exact ⟨piece :: done, rest, rfl, .cons hpiece hdone, hrest⟩

/-- The first piece corresponds to the first of `outs`, or to nothing if there is none. -/
theorem UpTo.inv (h : UpTo R (piece :: pieces) outs) :
    outs = [] ∧ R piece [] ∨
      ∃ out outs', outs = out :: outs' ∧ R piece out ∧ UpTo R pieces outs' := by
  obtain ⟨done, rest, hsplit, hdone, hrest⟩ := h
  cases hdone with
  | nil =>
    rw [List.nil_append] at hsplit
    rw [← hsplit] at hrest
    exact Or.inl ⟨rfl, hrest piece rfl⟩
  | @cons first out done outs hfirst hdone =>
    obtain ⟨rfl, rfl⟩ := List.cons.inj hsplit
    exact Or.inr ⟨out, outs, rfl, hfirst, done, rest, rfl, hdone, hrest⟩

theorem UpTo.of_nil (h : UpTo R [] outs) : outs = [] := by
  obtain ⟨done, rest, hsplit, hdone, -⟩ := h
  rw [(List.append_eq_nil_iff.mp hsplit.symm).1] at hdone
  exact List.forall₂_nil_left_iff.mp hdone

theorem yields_of_upTo (hne : ∀ o ∈ outs, o ≠ [])
    (hup : UpTo (fun piece out => f piece = .ok out) pieces outs) :
    yields f pieces = .ok outs.flatten := by
  induction pieces generalizing outs with
  | nil =>
    rw [hup.of_nil]
    rfl
  | cons piece pieces ih =>
    unfold yields
    rcases hup.inv with ⟨rfl, hpiece⟩ | ⟨out, outs', rfl, hpiece, hup'⟩
    · -- a piece that gives nothing is the end
      rw [hpiece]
      rfl
    · have hrest := ih (fun o ho => hne o (List.mem_cons_of_mem _ ho)) hup'
      rw [hpiece]
      cases out with
      | nil => exact absurd rfl (hne [] List.mem_cons_self)
      | cons a out =>
        dsimp only
        rw [hrest]
        rfl

theorem upTo_of_yields (h : yields f pieces = .ok data) :
    ∃ outs, (∀ o ∈ outs, o ≠ []) ∧ outs.flatten = data ∧
      UpTo (fun piece out => f piece = .ok out) pieces outs := by
  induction pieces generalizing data with
  | nil =>
    obtain rfl := Except.ok.inj h
    exact ⟨[], fun o ho => absurd ho List.not_mem_nil, rfl,
      .nil fun piece hp => absurd hp (by simp)⟩
  | cons piece pieces ih =>
    unfold yields at h
    cases hf : f piece with
    | error e =>
      rw [hf] at h
      cases h
    | ok out =>
      rw [hf] at h
      cases out with
      | nil =>
        obtain rfl := Except.ok.inj h
        -- nothing comes out of this piece, so the reader stops at it
        refine ⟨[], fun o ho => absurd ho List.not_mem_nil, rfl, .nil fun piece' hp => ?_⟩
        obtain rfl := Option.some.inj hp
        exact hf
      | cons a out =>
        dsimp only at h
        cases hrest : yields f pieces with
        | error e =>
          rw [hrest] at h
          cases h
        | ok data' =>
          rw [hrest] at h
          obtain rfl := Except.ok.inj h
          -- what comes out of the other pieces follows
          obtain ⟨outs, hne, rfl, hup⟩ := ih hrest
          refine ⟨(a :: out) :: outs, fun o ho => ?_, rfl, .cons hf hup⟩
          rcases List.mem_cons.mp ho with rfl | ho
          · exact List.cons_ne_nil _ _
          · exact hne o ho

/-- **What is yielded** are the results for the pieces, up to the first empty one. -/
theorem yields_eq_ok_iff :
    yields f pieces = .ok data ↔
      ∃ outs, (∀ o ∈ outs, o ≠ []) ∧ outs.flatten = data ∧
        UpTo (fun piece out => f piece = .ok out) pieces outs := by
  refine ⟨upTo_of_yields, ?_⟩
  rintro ⟨outs, hne, rfl, hup⟩
  exact yields_of_upTo hne hup

end ReadLoop
