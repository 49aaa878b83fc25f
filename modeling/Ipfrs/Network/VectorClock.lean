import Mathlib.Algebra.Group.Nat.Defs
import Ipfrs.Lib.Counters

/-!
# Vector clocks

`VectorClock` (`ipfrs-network/src/peer_sync_protocol.rs`): the logical clock of the peer sync
protocol, a finite map from node identifiers to counters.

`happensBefore` is the strict pointwise order of the counters (`happensBefore_iff_lt`), so it is
transitive and no clock precedes itself. Equality is equality of the maps: equal clocks have the
same counters (`get_of_eq`), so neither precedes the other.
-/

namespace Ipfrs.Network

structure VectorClock where
  entries : AList fun _ : String => ℕ

namespace VectorClock

def new : VectorClock := ⟨∅⟩

def get (c : VectorClock) (nodeId : String) : ℕ := (c.entries.lookup nodeId).getD 0

/-- `VectorClock::increment`, which saturates at the largest 64-bit number. -/
def increment (c : VectorClock) (nodeId : String) : VectorClock :=
  ⟨c.entries.insert nodeId (min ((c.entries.lookup nodeId).getD 0 + 1) (2 ^ 64 - 1))⟩

/-- The body of the loop in `merge`. -/
def mergeEntry (c : VectorClock) (e : Sigma fun _ : String => ℕ) : VectorClock :=
  let entry := (c.entries.lookup e.1).getD 0
  ⟨c.entries.insert e.1 (if e.2 > entry then e.2 else entry)⟩

def merge (self other : VectorClock) : VectorClock :=
  other.entries.entries.foldl mergeEntry self

def happensBefore (self other : VectorClock) : Bool :=
  -- the first loop returns at the first counter that is greater
  if self.entries.entries.any fun e => e.2 > other.get e.1 then false
  else
    (self.entries.entries.any fun e => e.2 < other.get e.1) ||
      -- the second loop looks at the nodes that appear only in `other`
      other.entries.entries.any fun e => (self.entries.lookup e.1).isNone && e.2 > 0

def concurrentWith (self other : VectorClock) : Bool :=
  !self.happensBefore other && !other.happensBefore self

def dominates (self other : VectorClock) : Bool :=
  other.entries.entries.all fun e => !(self.get e.1 < e.2)

/-- `==` of two clocks, which is `==` of two `HashMap`s: as many entries, and every entry of the
one found in the other. -/
def eq (self other : VectorClock) : Bool :=
  self.entries.entries.length == other.entries.entries.length &&
    self.entries.entries.all fun e => other.entries.lookup e.1 == some e.2

variable {a b c : VectorClock}

theorem get_eq_count (c : VectorClock) : c.get = Counters.count c.entries := rfl

/-- **`happens_before` is the strict pointwise order.** -/
theorem happensBefore_iff_lt : happensBefore a b = true ↔ a.get < b.get := by
  rw [get_eq_count, get_eq_count, Counters.count_lt_count_iff, happensBefore]
  by_cases hgt : (a.entries.entries.any fun e => e.2 > b.get e.1) = true
  · rw [if_pos hgt]
    obtain ⟨e, he, hlt⟩ := List.any_eq_true.mp hgt
    refine iff_of_false Bool.false_ne_true fun h => ?_
    exact absurd (of_decide_eq_true hlt) (Nat.not_lt_of_le (h.1 e he))
  · rw [if_neg hgt, Bool.or_eq_true, List.any_eq_true, List.any_eq_true]
    have hle : ∀ e ∈ a.entries.entries, e.2 ≤ Counters.count b.entries e.1 := by
      intro e he
      by_contra hlt
      exact hgt (List.any_eq_true.mpr ⟨e, he, decide_eq_true (Nat.lt_of_not_le hlt)⟩)
    rw [and_iff_right hle]
    refine or_congr ?_ ?_
    · exact exists_congr fun e => and_congr_right fun _ => decide_eq_true_iff
    · refine exists_congr fun e => and_congr_right fun _ => ?_
      rw [Bool.and_eq_true, Option.isNone_iff_eq_none]
      exact and_congr_right fun _ => decide_eq_true_iff

theorem not_happensBefore_self (a : VectorClock) : ¬ a.happensBefore a = true := by
  rw [happensBefore_iff_lt]
  exact lt_irrefl _

theorem happensBefore_asymm (h : a.happensBefore b = true) : ¬ b.happensBefore a = true := by
  rw [happensBefore_iff_lt] at h ⊢
  exact h.asymm

theorem eq_iff : a.eq b = true ↔ ∀ n, a.entries.lookup n = b.entries.lookup n :=
  Counters.sameEntries_iff

theorem eq_comm : a.eq b = true ↔ b.eq a = true := by
  rw [eq_iff, eq_iff]
  exact ⟨fun h n => (h n).symm, fun h n => (h n).symm⟩

theorem get_of_eq (h : a.eq b = true) : a.get = b.get := by
  funext n
  rw [get, eq_iff.mp h, get]

theorem not_happensBefore_of_eq (h : a.eq b = true) : ¬ a.happensBefore b = true := by
  rw [happensBefore_iff_lt, get_of_eq h]
  exact lt_irrefl _

end VectorClock

end Ipfrs.Network
