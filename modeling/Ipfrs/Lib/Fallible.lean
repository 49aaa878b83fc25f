import Mathlib.Data.List.Forall2

/-!
# Fallible computations

`Except ε` as a monad of computations that stop at the first error: how a successful bind splits,
and how a bind runs once its first half is known. `Option` as the same without errors to tell apart,
and what a loop over it keeps.
-/

namespace Except

variable {ε α β : Type}
variable {x : Except ε α} {f : α → Except ε β} {b : β} {a : α} {l : List α} {bs : List β}
  {P : α → Prop}

theorem bind_eq_ok_iff : (x >>= f) = .ok b ↔ ∃ a, x = .ok a ∧ f a = .ok b := by
  cases x with
  | error e => simp [bind, Except.bind]
  | ok a => simp [bind, Except.bind]

@[simp] theorem ok_bind (a : α) (f : α → Except ε β) : (Except.ok a >>= f) = f a := rfl

@[simp] theorem error_bind (e : ε) (f : α → Except ε β) :
    ((Except.error e : Except ε α) >>= f) = .error e := rfl

@[simp] theorem pure_def (a : α) : (pure a : Except ε α) = .ok a := rfl

theorem map_eq_ok_iff {f : α → β} : x.map f = .ok b ↔ ∃ a, x = .ok a ∧ f a = b := by
  cases x <;> simp [Except.map]

theorem mapError_eq_ok_iff {ε' : Type*} {f : ε → ε'} : x.mapError f = .ok a ↔ x = .ok a := by
  cases x <;> simp [Except.mapError]

theorem toOption_eq_some_iff : x.toOption = some a ↔ x = .ok a := by
  cases x <;> simp [Except.toOption]

/-- Two continuations that agree on the value give the same sequence. -/
theorem bind_congr_ok {g : α → Except ε β} (h : ∀ a, x = .ok a → f a = g a) :
    (x >>= f) = (x >>= g) := by
  cases x with
  | error e => rfl
  | ok a => exact h a rfl

/-- What a loop comes to first: an element with `p`, when those before it all have `q`. -/
theorem exists_first_cons_iff {p q : α → Prop} :
    (∃ pre x post, a :: l = pre ++ x :: post ∧ p x ∧ ∀ y ∈ pre, q y) ↔
      p a ∨ q a ∧ ∃ pre x post, l = pre ++ x :: post ∧ p x ∧ ∀ y ∈ pre, q y := by
  constructor
  · rintro ⟨pre, x, post, h, hx, hpre⟩
    cases pre with
    | nil =>
      obtain ⟨rfl, -⟩ := List.cons.inj h
      exact .inl hx
    | cons y pre =>
      obtain ⟨rfl, rfl⟩ := List.cons.inj h
      obtain ⟨hy, hpre⟩ := List.forall_mem_cons.mp hpre
      exact .inr ⟨hy, pre, x, post, rfl, hx, hpre⟩
  · rintro (ha | ⟨ha, pre, x, post, rfl, hx, hpre⟩)
    · exact ⟨[], a, l, rfl, ha, fun _ h => absurd h List.not_mem_nil⟩
    · exact ⟨a :: pre, x, post, rfl, hx, List.forall_mem_cons.mpr ⟨ha, hpre⟩⟩

theorem forM_eq_ok_iff {f : α → Except ε Unit} : l.forM f = .ok () ↔ ∀ a ∈ l, f a = .ok () := by
  induction l with
  | nil => exact iff_of_true rfl fun _ ha => absurd ha List.not_mem_nil
  | cons a l ih =>
    show (f a >>= fun _ => l.forM f) = .ok () ↔ _
    rw [bind_eq_ok_iff, List.forall_mem_cons]
    constructor
    · rintro ⟨_, ha, hl⟩
      exact ⟨ha, ih.mp hl⟩
    · rintro ⟨ha, hl⟩
      exact ⟨(), ha, ih.mpr hl⟩

/-- What follows a loop runs once `f` has succeeded on every element. -/
theorem forM_bind_eq_ok_iff {f : α → Except ε Unit} {k : Unit → Except ε β} :
    (l.forM f >>= k) = .ok b ↔ (∀ a ∈ l, f a = .ok ()) ∧ k () = .ok b := by
  rw [bind_eq_ok_iff, ← forM_eq_ok_iff]
  exact ⟨fun ⟨_, h, hk⟩ => ⟨h, hk⟩, fun ⟨h, hk⟩ => ⟨(), h, hk⟩⟩

/-- A traversal succeeds when `f` does on every element, and with its values. -/
theorem mapM_eq_ok_iff : l.mapM f = .ok bs ↔ List.Forall₂ (fun a b => f a = .ok b) l bs := by
  induction l generalizing bs with
  | nil => rw [List.mapM_nil, List.forall₂_nil_left_iff, pure_def, Except.ok.injEq, eq_comm]
  | cons a l ih =>
    rw [List.mapM_cons, bind_eq_ok_iff, List.forall₂_cons_left_iff]
    constructor
    · rintro ⟨b, hb, h⟩
      obtain ⟨bs', hbs, h⟩ := bind_eq_ok_iff.mp h
      exact ⟨b, bs', hb, ih.mp hbs, (Except.ok.inj h).symm⟩
    · rintro ⟨b, bs', hb, hbs, rfl⟩
      exact ⟨b, hb, bind_eq_ok_iff.mpr ⟨bs', ih.mpr hbs, rfl⟩⟩

theorem foldlM_eq_ok {f : β → α → Except ε β} {g : β → α → β} (h : ∀ b a, f b a = .ok (g b a))
    (l : List α) (b : β) : l.foldlM f b = .ok (l.foldl g b) := by
  have hf : f = fun b a => pure (g b a) := funext fun b => funext fun a => h b a
  rw [hf, List.foldlM_pure, pure_def]

/-- A traversal with `f` that succeeds is a map, when every success of `f` has the value of `g`. -/
theorem mapM_eq_ok_map {g : α → β} (hf : ∀ a b, f a = .ok b → P a ∧ b = g a)
    (h : l.mapM f = .ok bs) : (∀ a ∈ l, P a) ∧ bs = l.map g := by
  have hall := mapM_eq_ok_iff.mp h
  induction hall with
  | nil => exact ⟨by simp, rfl⟩
  | cons hb htail ih =>
    obtain ⟨ha, rfl⟩ := hf _ _ hb
    obtain ⟨hl, rfl⟩ := ih (mapM_eq_ok_iff.mpr htail)
    exact ⟨List.forall_mem_cons.mpr ⟨ha, hl⟩, rfl⟩

/-- A traversal is undone by a second one if and only if each element is. -/
theorem mapM_back_iff {g : β → Except ε α} (h : l.mapM f = .ok bs)
    (hback : ∀ a ∈ l, ∀ b, f a = .ok b → (g b = .ok a ↔ P a)) :
    bs.mapM g = .ok l ↔ ∀ a ∈ l, P a := by
  rw [mapM_eq_ok_iff] at h ⊢
  induction h with
  | nil => exact iff_of_true .nil (by simp)
  | @cons a b l bs hb _ ih =>
    rw [List.forall₂_cons, List.forall_mem_cons, hback a List.mem_cons_self b hb,
      ih fun a ha => hback a (List.mem_cons_of_mem _ ha)]

end Except

namespace Option

variable {α β : Type}

theorem foldlM_induct {P : β → Prop} {f : β → α → Option β} {l : List α} {b b' : β}
    (h : l.foldlM f b = some b') (init : P b)
    (step : ∀ a ∈ l, ∀ b b', P b → f b a = some b' → P b') : P b' := by
  induction l generalizing b with
  | nil =>
    obtain rfl := Option.some.inj h
    exact init
  | cons a l ih =>
    rw [List.foldlM_cons, Option.bind_eq_bind, Option.bind_eq_some_iff] at h
    obtain ⟨b₁, h₁, h⟩ := h
    exact ih h (step a List.mem_cons_self b b₁ init h₁)
      fun a ha => step a (List.mem_cons_of_mem _ ha)

end Option
