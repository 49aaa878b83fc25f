import Mathlib.Data.List.Pairwise
import Mathlib.Order.MinMax
import Ipfrs.Lib.MaximalIntervals

/-!
# Merging intervals

Intervals that are taken in the order of their starts and merged where they touch: the pieces that
come out do not touch each other, and have the same numbers. An interval may be empty, and an empty
one still is a piece of its own when it touches no other.

* `IsMerge.extend`, `IsMerge.close` — what the next interval does to the last piece;
* `IsMerge.mem_iff` — the pieces have the numbers of the intervals;
* `IsMerge.exists_empty_iff` — when there is an empty piece.
-/

namespace IndexRange

/-- `pieces` are what becomes of `seen` by merging. -/
structure IsMerge (seen pieces : List IndexRange) : Prop where
  separated : pieces.Pairwise fun I J => I.stop < J.start
  start_mem : ∀ J ∈ pieces, ∃ I ∈ seen, I.start = J.start ∧ I.stop ≤ J.stop
  stop_mem : ∀ J ∈ pieces, ∃ I ∈ seen, I.stop = J.stop
  covers : ∀ I ∈ seen, ∃ J ∈ pieces, J.start ≤ I.start ∧ I.stop ≤ J.stop
  mem_seen : ∀ J ∈ pieces, ∀ i ∈ J, ∃ I ∈ seen, i ∈ I

namespace IsMerge

variable {seen seen' pieces closed : List IndexRange} {current I J : IndexRange} {n : ℕ}

theorem nil : IsMerge [] [] :=
  ⟨List.Pairwise.nil, by simp, by simp, by simp, by simp⟩

theorem singleton (I : IndexRange) : IsMerge [I] [I] :=
  ⟨List.pairwise_singleton _ _, by simp, by simp, by simp, by simp⟩

/-- The order of the intervals does not matter to what the pieces are. -/
theorem of_perm (h : IsMerge seen pieces) (hperm : seen.Perm seen') : IsMerge seen' pieces := by
  refine ⟨h.separated, fun J hJ => ?_, fun J hJ => ?_, fun I hI => ?_, fun J hJ i hi => ?_⟩
  · obtain ⟨I, hI, hstart⟩ := h.start_mem J hJ
    exact ⟨I, hperm.mem_iff.mp hI, hstart⟩
  · obtain ⟨I, hI, hstop⟩ := h.stop_mem J hJ
    exact ⟨I, hperm.mem_iff.mp hI, hstop⟩
  · exact h.covers I (hperm.mem_iff.mpr hI)
  · obtain ⟨I, hI, hmem⟩ := h.mem_seen J hJ i hi
    exact ⟨I, hperm.mem_iff.mp hI, hmem⟩

/-- **An interval that touches the last piece** makes it longer. -/
theorem extend (h : IsMerge seen (closed ++ [current])) (hstart : current.start ≤ I.start)
    (htouch : I.start ≤ current.stop) :
    IsMerge (seen ++ [I]) (closed ++ [⟨current.start, max current.stop I.stop⟩]) := by
  have hcurrent : current ∈ closed ++ [current] := List.mem_append_right _ List.mem_cons_self
  obtain ⟨hclosed, -, hbefore⟩ := List.pairwise_append.mp h.separated
  refine ⟨?_, fun J hJ => ?_, fun J hJ => ?_, fun I' hI' => ?_, fun J hJ i hi => ?_⟩
  · -- the start of the last piece stays, so it is as far from the others as before
    refine List.pairwise_append.mpr ⟨hclosed, List.pairwise_singleton _ _, fun J hJ K hK => ?_⟩
    obtain rfl := List.mem_singleton.mp hK
    exact hbefore J hJ current List.mem_cons_self
  · obtain hJ | hJ := List.mem_append.mp hJ
    · obtain ⟨I', hI', heq⟩ := h.start_mem J (List.mem_append_left _ hJ)
      exact ⟨I', List.mem_append_left _ hI', heq⟩
    · obtain rfl := List.mem_singleton.mp hJ
      obtain ⟨I', hI', heq, hle⟩ := h.start_mem current hcurrent
      exact ⟨I', List.mem_append_left _ hI', heq, hle.trans (le_max_left _ _)⟩
  · obtain hJ | hJ := List.mem_append.mp hJ
    · obtain ⟨I', hI', heq⟩ := h.stop_mem J (List.mem_append_left _ hJ)
      exact ⟨I', List.mem_append_left _ hI', heq⟩
    · obtain rfl := List.mem_singleton.mp hJ
      obtain ⟨I', hI', heq⟩ := h.stop_mem current hcurrent
      obtain hle | hle := le_total current.stop I.stop
      · exact ⟨I, List.mem_append_right _ List.mem_cons_self, (max_eq_right hle).symm⟩
      · exact ⟨I', List.mem_append_left _ hI', heq.trans (max_eq_left hle).symm⟩
  · have hlast : (⟨current.start, max current.stop I.stop⟩ : IndexRange) ∈
        closed ++ [⟨current.start, max current.stop I.stop⟩] :=
      List.mem_append_right _ List.mem_cons_self
    obtain hI' | hI' := List.mem_append.mp hI'
    · obtain ⟨J, hJ, hle, hge⟩ := h.covers I' hI'
      obtain hJ | hJ := List.mem_append.mp hJ
      · exact ⟨J, List.mem_append_left _ hJ, hle, hge⟩
      · obtain rfl := List.mem_singleton.mp hJ
        exact ⟨_, hlast, hle, hge.trans (le_max_left _ _)⟩
    · obtain rfl := List.mem_singleton.mp hI'
      exact ⟨_, hlast, hstart, le_max_right _ _⟩
  · obtain hJ | hJ := List.mem_append.mp hJ
    · obtain ⟨I', hI', hmem⟩ := h.mem_seen J (List.mem_append_left _ hJ) i hi
      exact ⟨I', List.mem_append_left _ hI', hmem⟩
    · obtain rfl := List.mem_singleton.mp hJ
      obtain ⟨hlow, hhigh⟩ := hi
      by_cases hold : i < current.stop
      · obtain ⟨I', hI', hmem⟩ := h.mem_seen current hcurrent i ⟨hlow, hold⟩
        exact ⟨I', List.mem_append_left _ hI', hmem⟩
      · -- the number is in the part that the interval adds
        obtain hlt | hlt := lt_max_iff.mp hhigh
        · exact absurd hlt hold
        · exact ⟨I, List.mem_append_right _ List.mem_cons_self,
            htouch.trans (not_lt.mp hold), hlt⟩

/-- **An interval that does not touch the last piece** is a piece of its own. -/
theorem close (h : IsMerge seen (closed ++ [current])) (hstart : current.start ≤ I.start)
    (hgap : current.stop < I.start) : IsMerge (seen ++ [I]) (closed ++ [current] ++ [I]) := by
  obtain ⟨-, -, hbefore⟩ := List.pairwise_append.mp h.separated
  have hI : I ∈ seen ++ [I] := List.mem_append_right _ List.mem_cons_self
  refine ⟨?_, fun J hJ => ?_, fun J hJ => ?_, fun I' hI' => ?_, fun J hJ i hi => ?_⟩
  · refine List.pairwise_append.mpr ⟨h.separated, List.pairwise_singleton _ _, fun J hJ K hK => ?_⟩
    obtain rfl := List.mem_singleton.mp hK
    obtain hJ | hJ := List.mem_append.mp hJ
    · exact (hbefore J hJ current List.mem_cons_self).trans_le hstart
    · obtain rfl := List.mem_singleton.mp hJ
      exact hgap
  · obtain hJ | hJ := List.mem_append.mp hJ
    · obtain ⟨I', hI', heq⟩ := h.start_mem J hJ
      exact ⟨I', List.mem_append_left _ hI', heq⟩
    · obtain rfl := List.mem_singleton.mp hJ
      exact ⟨J, hI, rfl, le_rfl⟩
  · obtain hJ | hJ := List.mem_append.mp hJ
    · obtain ⟨I', hI', heq⟩ := h.stop_mem J hJ
      exact ⟨I', List.mem_append_left _ hI', heq⟩
    · obtain rfl := List.mem_singleton.mp hJ
      exact ⟨J, hI, rfl⟩
  · obtain hI' | hI' := List.mem_append.mp hI'
    · obtain ⟨J, hJ, hle, hge⟩ := h.covers I' hI'
      exact ⟨J, List.mem_append_left _ hJ, hle, hge⟩
    · obtain rfl := List.mem_singleton.mp hI'
      exact ⟨I', List.mem_append_right _ List.mem_cons_self, le_rfl, le_rfl⟩
  · obtain hJ | hJ := List.mem_append.mp hJ
    · obtain ⟨I', hI', hmem⟩ := h.mem_seen J hJ i hi
      exact ⟨I', List.mem_append_left _ hI', hmem⟩
    · obtain rfl := List.mem_singleton.mp hJ
      exact ⟨J, hI, hi⟩

/-- **The pieces have the numbers of the intervals.** -/
theorem mem_iff (h : IsMerge seen pieces) (i : ℕ) :
    (∃ J ∈ pieces, i ∈ J) ↔ ∃ I ∈ seen, i ∈ I := by
  constructor
  · rintro ⟨J, hJ, hi⟩
    exact h.mem_seen J hJ i hi
  · rintro ⟨I, hI, hlow, hhigh⟩
    obtain ⟨J, hJ, hle, hge⟩ := h.covers I hI
    exact ⟨J, hJ, hle.trans hlow, hhigh.trans_le hge⟩

/-- Two pieces are the same, or one comes before the other with a gap. -/
theorem eq_or_lt (h : IsMerge seen pieces) (hI : I ∈ pieces) (hJ : J ∈ pieces) :
    I = J ∨ I.stop < J.start ∨ J.stop < I.start := by
  by_cases heq : I = J
  · exact .inl heq
  · have hsymm : Std.Symm fun I J : IndexRange => I.stop < J.start ∨ J.stop < I.start :=
      ⟨fun _ _ => Or.symm⟩
    have hapart : pieces.Pairwise fun I J => I.stop < J.start ∨ J.stop < I.start :=
      h.separated.imp Or.inl
    exact .inr (hapart.forall hI hJ heq)

/-- **There is an empty piece** when there is an empty interval that touches no other: the intervals
are below `n`, and the empty ones at `n`. -/
theorem exists_empty_iff (h : IsMerge seen pieces) (hle : ∀ I ∈ seen, I.start ≤ I.stop)
    (hn : ∀ I ∈ seen, I.stop ≤ n) (hempty : ∀ I ∈ seen, I.start = I.stop → I.start = n) :
    (∃ J ∈ pieces, J.stop ≤ J.start) ↔
      (∃ I ∈ seen, I.start = I.stop) ∧ ∀ I ∈ seen, I.stop = n → I.start = n := by
  constructor
  · rintro ⟨J, hJ, hstop⟩
    -- the interval that begins the piece is empty, and nothing else reaches `n`
    obtain ⟨I, hI, hstart, hIstop⟩ := h.start_mem J hJ
    have hIle := hle I hI
    have hIempty : I.start = I.stop := by omega
    have hIn := hempty I hI hIempty
    refine ⟨⟨I, hI, hIempty⟩, fun I' hI' hstop' => ?_⟩
    have hle' := hle I' hI'
    obtain ⟨K, hK, hKstart, hKstop⟩ := h.covers I' hI'
    obtain rfl | hlt | hlt := h.eq_or_lt hJ hK
    · omega
    · omega
    · omega
  · rintro ⟨⟨I, hI, hIempty⟩, hreach⟩
    have hIn := hempty I hI hIempty
    obtain ⟨J, hJ, hlow, hhigh⟩ := h.covers I hI
    obtain ⟨I', hI', hI'stop⟩ := h.stop_mem J hJ
    have hI'n := hn I' hI'
    refine ⟨J, hJ, ?_⟩
    by_contra hlt
    -- the number before `n` is in the piece, hence in an interval that reaches `n`
    obtain ⟨K, hK, hKlow, hKhigh⟩ := h.mem_seen J hJ (n - 1) ⟨by omega, by omega⟩
    have hKn := hn K hK
    have hKstart := hreach K hK (by omega)
    omega

end IsMerge

end IndexRange
