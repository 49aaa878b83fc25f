import Ipfrs.Lib.Kahn

/-!
# The meaning of a dataflow graph

A dataflow graph gives some of the ids an operation and a list of inputs. Over an interpretation of
the operations as functions of the values of their inputs, and any values for the ids that are not
nodes, a graph that can be ranked (inputs before the nodes that use them) has one valuation, which
is found by going down far enough.

* `Ranked.unique`, `Ranked.valuation_eval` — there is one valuation, and `eval` is it;
* `Valuation.origin` — a graph whose nodes compute what nodes of another one do;
* `ranked_of_topological`, `acyclic_of_ranked` — a graph can be ranked if and only if it has no
  cycle.
-/

namespace Dataflow

variable {Id Op V : Type*}

/-- A dataflow graph. -/
def Graph (Id Op : Type*) := Id → Option (Op × List Id)

variable {G G' : Graph Id Op} {interp : Op → List V → V} {ext : Id → V} {val val' : Id → V}
  {rank : Id → ℕ} {n : ℕ}

/-- Every node has the value that its operation gives for the values of its inputs. -/
structure Valuation (interp : Op → List V → V) (ext : Id → V) (G : Graph Id Op) (val : Id → V) :
    Prop where
  ext : ∀ a, G a = none → val a = ext a
  node : ∀ a op ins, G a = some (op, ins) → val a = interp op (ins.map val)

/-- Every node comes after those of its inputs that are nodes. -/
def Ranked (G : Graph Id Op) (rank : Id → ℕ) : Prop :=
  ∀ b op ins, G b = some (op, ins) → ∀ a ∈ ins, (G a).isSome → rank a < rank b

/-- The value of an id, with at most so many nodes on the way down. -/
def eval (interp : Op → List V → V) (ext : Id → V) (G : Graph Id Op) : ℕ → Id → V
  | 0, a => ext a
  | n + 1, a =>
    match G a with
    | none => ext a
    | some (op, ins) => interp op (ins.map (eval interp ext G n))

theorem eval_of_none {a : Id} (h : G a = none) (n : ℕ) : eval interp ext G n a = ext a := by
  cases n with
  | zero => rfl
  | succ n => rw [eval, h]

/-- **Uniqueness.** Two valuations of a graph that can be ranked are equal. -/
theorem Ranked.unique (hrank : Ranked G rank) (h : Valuation interp ext G val)
    (h' : Valuation interp ext G val') : val = val' := by
  have hbelow : ∀ k a, rank a < k → val a = val' a := by
    intro k
    induction k with
    | zero => exact fun a hlt => absurd hlt (Nat.not_lt_zero _)
    | succ k ih =>
      intro a hlt
      cases ha : G a with
      | none => rw [h.ext a ha, h'.ext a ha]
      | some node =>
        obtain ⟨op, ins⟩ := node
        rw [h.node a op ins ha, h'.node a op ins ha]
        refine congrArg _ (List.map_congr_left fun i hi => ?_)
        cases hnode : G i with
        | none => rw [h.ext i hnode, h'.ext i hnode]
        | some _ =>
          have hrank_lt := hrank a op ins ha i hi (by rw [hnode]; rfl)
          exact ih i (by omega)
  funext a
  exact hbelow _ a (Nat.lt_succ_self _)

theorem Ranked.eval_stable (hrank : Ranked G rank) {k m : ℕ} :
    ∀ {a : Id}, ((G a).isSome → rank a < k) → ((G a).isSome → rank a < m) →
      eval interp ext G k a = eval interp ext G m a := by
  induction k generalizing m with
  | zero =>
    intro a hk _
    have hnone : G a = none := by
      cases ha : G a with
      | none => rfl
      | some _ => exact absurd (hk (by rw [ha]; rfl)) (Nat.not_lt_zero _)
    rw [eval_of_none hnone, eval_of_none hnone]
  | succ k ih =>
    intro a hk hm
    cases ha : G a with
    | none => rw [eval_of_none ha, eval_of_none ha]
    | some node =>
      obtain ⟨op, ins⟩ := node
      have hsome : (G a).isSome := by rw [ha]; rfl
      cases m with
      | zero => exact absurd (hm hsome) (Nat.not_lt_zero _)
      | succ m =>
        rw [eval, eval, ha]
        refine congrArg _ (List.map_congr_left fun i hi => ?_)
        have hless := hrank a op ins ha i hi
        have hka := hk hsome
        have hma := hm hsome
        exact ih (fun hi => by have := hless hi; omega) (fun hi => by have := hless hi; omega)

/-- **Existence.** Going down as often as there are ranks gives the valuation. -/
theorem Ranked.valuation_eval (hrank : Ranked G rank)
    (hbound : ∀ a, (G a).isSome → rank a < n) :
    Valuation interp ext G (eval interp ext G n) where
  ext a ha := eval_of_none ha n
  node a op ins ha := by
    have hstep : eval interp ext G n a = eval interp ext G (n + 1) a :=
      hrank.eval_stable (hbound a) fun hsome => (hbound a hsome).trans (Nat.lt_succ_self n)
    rw [hstep, eval, ha]

/-- **Simulation.** Every node of a graph has an origin, whose value its operation gives for the
values of the origins of its inputs. Then a node has the value of its origin. -/
theorem Valuation.origin (origin : Id → Id)
    (hnode : ∀ a op ins, G' a = some (op, ins) →
      val (origin a) = interp op (ins.map fun i => val (origin i)))
    (hext : ∀ a op ins, G' a = some (op, ins) → ∀ i ∈ ins, G' i = none → val (origin i) = ext i) :
    ∃ val', Valuation interp ext G' val' ∧ ∀ a, (G' a).isSome → val' a = val (origin a) := by
  refine ⟨fun a => if (G' a).isSome then val (origin a) else ext a, ⟨fun a ha => ?_,
    fun a op ins ha => ?_⟩, fun a ha => if_pos ha⟩
  · exact if_neg (by rw [ha]; exact Bool.false_ne_true)
  · have hsome : (G' a).isSome := by rw [ha]; rfl
    rw [if_pos hsome, hnode a op ins ha]
    refine congrArg _ (List.map_congr_left fun i hi => ?_)
    cases hi' : G' i with
    | none => exact hext a op ins ha i hi hi'
    | some _ => rfl

/-! ### Ranks and orders -/

variable {entries : List (Id × List Id)}

/-- The entries of a list are the nodes of a graph. -/
def Lists (entries : List (Id × List Id)) (G : Graph Id Op) : Prop :=
  ∀ a ins, (a, ins) ∈ entries ↔ ∃ op, G a = some (op, ins)

theorem Lists.mem_keys (h : Lists entries G) {a : Id} :
    a ∈ entries.map Prod.fst ↔ (G a).isSome := by
  rw [List.mem_map, Option.isSome_iff_exists]
  constructor
  · rintro ⟨⟨a, ins⟩, hmem, rfl⟩
    obtain ⟨op, hop⟩ := (h a ins).mp hmem
    exact ⟨(op, ins), hop⟩
  · rintro ⟨⟨op, ins⟩, hop⟩
    exact ⟨(a, ins), (h a ins).mpr ⟨op, hop⟩, rfl⟩

/-- **A sorted graph** is ranked by the places in the order. -/
theorem ranked_of_topological [DecidableEq Id] (h : Lists entries G) {order : List Id}
    (horder : Kahn.Topological entries order) :
    Ranked G order.idxOf ∧ ∀ a, (G a).isSome → order.idxOf a < entries.length := by
  refine ⟨fun b op ins hb a ha hsome => ?_, fun a hsome => ?_⟩
  · exact horder.before a b ⟨ins, (h b ins).mpr ⟨op, hb⟩, ha, h.mem_keys.mpr hsome⟩
  · have hmem := horder.perm.mem_iff.mpr (h.mem_keys.mpr hsome)
    calc order.idxOf a < order.length := List.idxOf_lt_length_of_mem hmem
      _ = entries.length := by rw [horder.perm.length_eq, List.length_map]

/-- **A ranked graph** has no cycle. -/
theorem acyclic_of_ranked (h : Lists entries G) (hrank : Ranked G rank) :
    Kahn.Acyclic entries := by
  intro a hcycle
  have hlt : ∀ b, Relation.TransGen (Kahn.Edge entries) a b → rank a < rank b := by
    intro b hpath
    have hedge : ∀ {x y}, Kahn.Edge entries x y → rank x < rank y := by
      rintro x y ⟨ins, hentry, hx, hknown⟩
      obtain ⟨op, hop⟩ := (h y ins).mp hentry
      exact hrank y op ins hop x hx (h.mem_keys.mp hknown)
    induction hpath with
    | single hstep => exact hedge hstep
    | tail _ hstep ih => exact ih.trans (hedge hstep)
  exact absurd (hlt a hcycle) (lt_irrefl _)

end Dataflow
