import Mathlib.Data.Set.Card

/-!
# Derivations by premises

A partial function gives the premises of a node; a node without premises of its own is an axiom, and
a node that the function knows nothing of cannot be derived. What can be derived has no cycle in its
premises, which is why a search that meets a node on its own path may give it up.

* `derivable_iff_acyclic` — over a finite graph, a node can be derived if and only if everything
  below it has premises and there is no cycle below it.
-/

namespace Derivation

variable {α : Type*} (premises : α → Option (List α))

/-- A node can be derived if all its premises can. -/
inductive Derivable : α → Prop
  | intro {a : α} {ps : List α} (h : premises a = some ps) (hps : ∀ p ∈ ps, Derivable p) :
      Derivable a

/-- One node is a premise of the other. -/
def Edge (a b : α) : Prop := ∃ ps, premises a = some ps ∧ b ∈ ps

variable {premises} {a b : α} {ps : List α}

theorem derivable_iff (h : premises a = some ps) :
    Derivable premises a ↔ ∀ p ∈ ps, Derivable premises p := by
  constructor
  · rintro ⟨h', hps⟩
    rw [h] at h'
    obtain rfl := Option.some.inj h'
    exact hps
  · exact .intro h

theorem not_derivable_of_none (h : premises a = none) : ¬ Derivable premises a := by
  rintro ⟨h', -⟩
  rw [h] at h'
  cases h'

/-- **What can be derived is not among its own premises.** -/
theorem Derivable.not_cyclic (h : Derivable premises a) :
    ¬ Relation.TransGen (Edge premises) a a := by
  induction h with
  | @intro a ps hps _ ih =>
    intro hcycle
    -- the cycle goes through one of the premises
    obtain ⟨b, ⟨ps', hps', hb⟩, hback⟩ := Relation.TransGen.head'_iff.mp hcycle
    rw [hps] at hps'
    obtain rfl := Option.some.inj hps'
    exact ih b hb (Relation.TransGen.tail' hback ⟨ps, hps, hb⟩)

theorem Derivable.of_reaches (h : Derivable premises a)
    (hb : Relation.ReflTransGen (Edge premises) a b) : Derivable premises b := by
  induction hb with
  | refl => exact h
  | tail _ hedge ih =>
    obtain ⟨ps, hps, hmem⟩ := hedge
    exact (derivable_iff hps).mp ih _ hmem

/-- A relation that is followed from everywhere below `a` is followed all the way. -/
theorem reaches_of_followed {R : α → α → Prop}
    (hfollow : ∀ x y, Relation.ReflTransGen (Edge premises) a x → R x y → Edge premises x y)
    (h : Relation.ReflTransGen R a b) : Relation.ReflTransGen (Edge premises) a b := by
  induction h with
  | refl => exact .refl
  | tail _ hxy ih => exact ih.tail (hfollow _ _ ih hxy)

theorem cycle_of_followed {R : α → α → Prop}
    (hfollow : ∀ x y, Relation.ReflTransGen (Edge premises) a x → R x y → Edge premises x y)
    (ha : Relation.ReflTransGen (Edge premises) a b) {c : α} (h : Relation.TransGen R b c) :
    Relation.TransGen (Edge premises) b c := by
  induction h with
  | single hxy => exact .single (hfollow _ _ ha hxy)
  | tail _ hxy ih => exact ih.tail (hfollow _ _ (ha.trans ih.to_reflTransGen) hxy)

/-- **Derivations and cycles.** -/
theorem derivable_iff_acyclic (hfin : {b | Relation.ReflTransGen (Edge premises) a b}.Finite) :
    Derivable premises a ↔ ∀ b, Relation.ReflTransGen (Edge premises) a b →
      premises b ≠ none ∧ ¬ Relation.TransGen (Edge premises) b b := by
  constructor
  · intro h b hb
    have hderivable := h.of_reaches hb
    exact ⟨fun hnone => not_derivable_of_none hnone hderivable, hderivable.not_cyclic⟩
  · intro h
    -- what is below a premise is less than what is below the node: the premise itself is missing
    induction hn : {b | Relation.TransGen (Edge premises) a b}.ncard using Nat.strongRecOn
      generalizing a with
    | ind n ih =>
      subst hn
      obtain ⟨ps, hps⟩ := Option.ne_none_iff_exists'.mp (h a .refl).1
      refine .intro hps fun p hp => ?_
      have hedge : Edge premises a p := ⟨ps, hps, hp⟩
      have hsub : {b | Relation.TransGen (Edge premises) p b} ⊂
          {b | Relation.TransGen (Edge premises) a b} := by
        refine ⟨fun b hb => .head hedge hb, fun hback => ?_⟩
        exact (h p (.single hedge)).2 (hback (Relation.TransGen.single hedge))
      have hfin' : {b | Relation.TransGen (Edge premises) a b}.Finite :=
        hfin.subset fun b hb => hb.to_reflTransGen
      have hlt := Set.ncard_lt_ncard hsub hfin'
      have hbelow : {b | Relation.ReflTransGen (Edge premises) p b}.Finite :=
        hfin.subset fun b hb => .head hedge hb
      exact ih _ hlt hbelow (fun b hb => h b (.head hedge hb)) rfl

end Derivation
