import Ipfrs.Lib.CycleSearch
import Ipfrs.Lib.WhileLoop

/-!
# Layers of a graph

Nodes are taken away in layers: a layer is made up of the nodes that do not depend on any node that
is left. The loop ends when no node is left, and it is left early when a layer is empty. The order
within a layer is open.

* `exists_free` — among finitely many nodes, none of them on a cycle, one depends on none of the
  others;
* `exists_layers` — so no layer is empty, the loop ends, and the layers have every node once, above
  the nodes that it depends on (`Layered`).
-/

namespace Layering

open Relation

variable {α : Type*}

/-- `x` depends on `d`. -/
def Edge (deps : α → List α) (x d : α) : Prop := d ∈ deps x

/-- **A node that depends on none of the others.** -/
theorem exists_free {deps : α → List α} {nodes : List α} (hne : nodes ≠ [])
    (hacyclic : ∀ x ∈ nodes, ¬ TransGen (Edge deps) x x) :
    ∃ x ∈ nodes, ∀ d ∈ deps x, d ∉ nodes := by
  have hacyclic' : ∀ x ∈ nodes, ¬ TransGen (Function.swap (Edge deps)) x x := by
    intro x hx hcycle
    exact hacyclic x hx (transGen_swap.mp hcycle)
  have hwf := CycleSearch.wellFounded_of_acyclic hacyclic'
  obtain ⟨x, hx⟩ := List.exists_mem_of_ne_nil nodes hne
  obtain ⟨m, -, hmin⟩ := hwf.has_min Set.univ ⟨⟨x, hx⟩, trivial⟩
  exact ⟨m.1, m.2, fun d hd hmem => hmin ⟨d, hmem⟩ trivial (.single hd)⟩

variable [DecidableEq α]

/-- The layers so far, and the nodes that are left, in some order. -/
structure State (α : Type*) where
  layers : List (List α)
  remaining : List α

/-- The nodes of a list that depend on none of those that are left. -/
def free (deps : α → List α) (remaining xs : List α) : List α :=
  xs.filter fun x => !(deps x).any (· ∈ remaining)

/-- One layer. The nodes that are left are gone through in the order `arrange`, which may be another
one for each layer. The flag says that the loop was left early. -/
def step (deps : α → List α) (arrange : ℕ → List α → List α) (s : State α) :
    State α ⊕ (List (List α) × Bool) :=
  if s.remaining.isEmpty then .inr (s.layers, false)
  else
    let layer := free deps s.remaining (arrange s.layers.length s.remaining)
    if layer.isEmpty then .inr (s.layers, true)
    else .inl ⟨s.layers ++ [layer], s.remaining.filter (· ∉ layer)⟩

/-- What the nodes of a layer depend on is in the layers below. -/
def Below (deps : α → List α) (nodes : List α) (layers : List (List α)) : Prop :=
  ∀ (i : ℕ) layer, layers[i]? = some layer → ∀ x ∈ layer, ∀ d ∈ deps x, d ∈ nodes →
    ∃ j < i, ∃ lower, layers[j]? = some lower ∧ d ∈ lower

/-- Layers that have every node once, above those that it depends on. -/
structure Layered (deps : α → List α) (nodes : List α) (layers : List (List α)) : Prop where
  perm : layers.flatten.Perm nodes
  below : Below deps nodes layers

/-- What the loop knows. -/
structure State.Inv (deps : α → List α) (nodes : List α) (s : State α) : Prop where
  perm : (s.layers.flatten ++ s.remaining).Perm nodes
  below : Below deps nodes s.layers

section Loop

variable {deps : α → List α} {arrange : ℕ → List α → List α} {nodes : List α} {s s' : State α}

theorem mem_free {remaining xs : List α} {x : α} :
    x ∈ free deps remaining xs ↔ x ∈ xs ∧ ∀ d ∈ deps x, d ∉ remaining := by
  simp [free]

omit [DecidableEq α] in
theorem Below.concat {layers : List (List α)} (h : Below deps nodes layers) {layer : List α}
    (hlayer : ∀ x ∈ layer, ∀ d ∈ deps x, d ∈ nodes → d ∈ layers.flatten) :
    Below deps nodes (layers ++ [layer]) := by
  intro i upper hi x hx d hd hmem
  have hlower : ∀ j < layers.length, (layers ++ [layer])[j]? = layers[j]? :=
    fun j hj => List.getElem?_append_left hj
  rcases Nat.lt_trichotomy i layers.length with hlt | rfl | hgt
  · rw [hlower i hlt] at hi
    obtain ⟨j, hj, lower, hlow, hd'⟩ := h i upper hi x hx d hd hmem
    exact ⟨j, hj, lower, by rw [hlower j (hj.trans hlt), hlow], hd'⟩
  · rw [List.getElem?_concat_length] at hi
    obtain rfl := Option.some.inj hi
    obtain ⟨lower, hlow, hd'⟩ := List.mem_flatten.mp (hlayer x hx d hd hmem)
    obtain ⟨j, hj, rfl⟩ := List.getElem_of_mem hlow
    exact ⟨j, hj, layers[j], by rw [hlower j hj, List.getElem?_eq_getElem hj], hd'⟩
  · rw [List.getElem?_eq_none (by rw [List.length_append, List.length_singleton]; omega)] at hi
    cases hi

omit [DecidableEq α] in
theorem State.Inv.initial (nodes : List α) : State.Inv deps nodes ⟨[], nodes⟩ where
  perm := List.Perm.refl nodes
  below i layer h := by simp at h

/-- **One layer** keeps the invariant, and nodes are taken away. -/
theorem State.Inv.next (hI : s.Inv deps nodes) (harrange : ∀ n l, (arrange n l).Perm l)
    (h : step deps arrange s = .inl s') :
    s'.Inv deps nodes ∧ s'.remaining.length < s.remaining.length := by
  unfold step at h
  split at h
  · cases h
  dsimp only at h
  split at h
  · cases h
  next hne hlayer =>
  obtain rfl := Sum.inl.inj h
  set layer := free deps s.remaining (arrange s.layers.length s.remaining) with hdef
  have hmem : ∀ x, x ∈ layer ↔ x ∈ s.remaining ∧ ∀ d ∈ deps x, d ∉ s.remaining := by
    intro x
    rw [hdef, mem_free, (harrange _ _).mem_iff]
  -- the layer and the rest make up what was left
  have hsplit : (layer ++ s.remaining.filter (· ∉ layer)).Perm s.remaining := by
    have hfree : layer.Perm (free deps s.remaining s.remaining) := (harrange _ _).filter _
    have hrest : s.remaining.filter (· ∉ layer) =
        s.remaining.filter fun x => !!(deps x).any (· ∈ s.remaining) := by
      refine List.filter_congr fun x hx => ?_
      rw [Bool.eq_iff_iff]
      simp [hmem, hx]
    rw [hrest]
    exact (hfree.append_right _).trans (List.filter_append_perm _ _)
  refine ⟨⟨?_, hI.below.concat fun x hx d hd hnode => ?_⟩, ?_⟩
  · rw [List.flatten_append, List.flatten_singleton, List.append_assoc]
    exact (hsplit.append_left _).trans hI.perm
  · -- nothing that is left
    have hd' := List.mem_append.mp (hI.perm.mem_iff.mpr hnode)
    exact hd'.resolve_right (((hmem x).mp hx).2 d hd)
  · have hlen := hsplit.length_eq
    rw [List.length_append] at hlen
    have hpos : 0 < layer.length := by
      refine List.length_pos_iff.mpr fun hnil => hlayer ?_
      rw [hnil]
      rfl
    dsimp only
    omega

theorem State.Inv.done (hI : s.Inv deps nodes) (harrange : ∀ n l, (arrange n l).Perm l)
    (hacyclic : ∀ x ∈ nodes, ¬ TransGen (Edge deps) x x) {r : List (List α) × Bool}
    (h : step deps arrange s = .inr r) : r.2 = false ∧ Layered deps nodes r.1 := by
  unfold step at h
  split at h
  · next hnil =>
    obtain rfl := Sum.inr.inj h
    have hperm := hI.perm
    rw [List.isEmpty_iff.mp hnil, List.append_nil] at hperm
    exact ⟨rfl, hperm, hI.below⟩
  next hne =>
  dsimp only at h
  split at h
  · next hlayer =>
    -- some node could have been taken away
    have hsub : ∀ x ∈ s.remaining, x ∈ nodes :=
      fun x hx => hI.perm.mem_iff.mp (List.mem_append_right _ hx)
    obtain ⟨x, hx, hfree⟩ := exists_free (fun hnil => hne (List.isEmpty_iff.mpr hnil))
      fun x hx => hacyclic x (hsub x hx)
    have hmem : x ∈ free deps s.remaining (arrange s.layers.length s.remaining) :=
      mem_free.mpr ⟨(harrange _ _).mem_iff.mpr hx, hfree⟩
    rw [List.isEmpty_iff.mp hlayer] at hmem
    exact absurd hmem List.not_mem_nil
  · cases h

/-- **Without a cycle the loop ends**, and never early, with layers that have every node. -/
theorem exists_layers (harrange : ∀ n l, (arrange n l).Perm l)
    (hacyclic : ∀ x ∈ nodes, ¬ TransGen (Edge deps) x x) :
    ∃ layers, WhileLoop.run (step deps arrange) (nodes.length + 1) ⟨[], nodes⟩ =
        some (layers, false) ∧ Layered deps nodes layers := by
  obtain ⟨⟨layers, early⟩, hrun⟩ := WhileLoop.run_of_measure
    (State.Inv deps nodes) (fun s => s.remaining.length) (fun s s' hI h => hI.next harrange h)
    (State.Inv.initial nodes)
  obtain ⟨rfl, hlayered⟩ := WhileLoop.run_inv (State.Inv deps nodes)
    (fun r => r.2 = false ∧ Layered deps nodes r.1) (fun s s' hI h => (hI.next harrange h).1)
    (fun s r hI h => hI.done harrange hacyclic h) (State.Inv.initial nodes) hrun
  exact ⟨layers, hrun, hlayered⟩

end Loop

end Layering
