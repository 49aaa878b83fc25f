import Mathlib.Data.List.Perm.Lattice
import Mathlib.Data.List.Perm.Basic

/-!
# Fingerprints by exclusive or

A set is summarised by combining the words of its elements with an operation in which every word is
its own inverse. The order of the elements does not matter (`fold_perm`), and what two sets have in
common cancels: their fingerprints are the same exactly when the words of the elements by which they
differ cancel as well (`fold_eq_fold_iff`).
-/

namespace XorFold

variable {α W : Type*} {op : W → W → W} {e : W} {l l' : List α} {f : α → W} {ws ws' : List W}

/-- All words combined. -/
def fold (op : W → W → W) (e : W) (ws : List W) : W := ws.foldl op e

section

variable [Std.Associative op]

theorem fold_append (he : ∀ w, op w e = w) (ws ws' : List W) :
    fold op e (ws ++ ws') = op (fold op e ws) (fold op e ws') := by
  rw [fold, List.foldl_append]
  calc ws'.foldl op (fold op e ws) = ws'.foldl op (op (fold op e ws) e) := by rw [he]
    _ = op (fold op e ws) (ws'.foldl op e) := List.foldl_assoc

theorem fold_perm [Std.Commutative op] (h : ws.Perm ws') : fold op e ws = fold op e ws' :=
  h.foldl_op_eq

theorem op_eq_iff (he : ∀ w, op w e = w) (hc : ∀ v w, op v w = op w v) (hself : ∀ w, op w w = e)
    {v w : W} : op v w = e ↔ v = w := by
  constructor
  · intro h
    calc v = op v (op w w) := by rw [hself, he]
      _ = op (op v w) w := (Std.Associative.assoc ..).symm
      _ = w := by rw [h, hc, he]
  · rintro rfl
    exact hself v

/-- **What two sets have in common cancels.** -/
theorem fold_eq_fold_iff [BEq α] [LawfulBEq α] [Std.Commutative op] (he : ∀ w, op w e = w)
    (hself : ∀ w, op w w = e) (hl : l.Nodup) (hl' : l'.Nodup) :
    fold op e (l.map f) = fold op e (l'.map f) ↔
      fold op e ((l.filter (· ∉ l') ++ l'.filter (· ∉ l)).map f) = e := by
  have hc : ∀ v w, op v w = op w v := Std.Commutative.comm
  have hassoc : ∀ u v w, op (op u v) w = op u (op v w) := Std.Associative.assoc
  -- the common elements and the others
  have hsplit : ∀ l l' : List α, fold op e (l.map f) =
      op (fold op e ((l.filter (· ∈ l')).map f)) (fold op e ((l.filter (· ∉ l')).map f)) := by
    intro l l'
    rw [← fold_append he, ← List.map_append]
    refine fold_perm (List.Perm.map f ?_)
    have hperm := (List.filter_append_perm (· ∈ l') l).symm
    simpa only [decide_not] using hperm
  have hcommon : fold op e ((l.filter (· ∈ l')).map f) = fold op e ((l'.filter (· ∈ l)).map f) := by
    refine fold_perm (List.Perm.map f ?_)
    rw [List.perm_ext_iff_of_nodup (hl.filter _) (hl'.filter _)]
    intro a
    simp only [List.mem_filter, decide_eq_true_eq]
    exact and_comm
  rw [hsplit l l', hsplit l' l, hcommon, List.map_append, fold_append he,
    op_eq_iff he hc hself]
  constructor
  · intro h
    -- the common part is its own inverse
    have hcancel := congrArg (op (fold op e ((l'.filter (· ∈ l)).map f))) h
    rw [← hassoc, ← hassoc, hself, hc e, he, hc e, he] at hcancel
    exact hcancel
  · intro h
    rw [h]

end

end XorFold
