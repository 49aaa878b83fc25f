import Mathlib.Algebra.BigOperators.Group.Finset.Basic

/-!
# Walks with a stack

A walk over the graph of a successor function pops a node from a stack, and pushes successors of it,
until the stack is empty. There are two ways to go to each node only once.

* A walk that *marks when it pushes* pushes a successor only if it is not marked yet, and marks it
  (`PushInv`). Some nodes may be marked from the beginning, whether they are on the stack or not;
  these are never pushed again. The walk ends with the nodes that can be reached from the stack
  through nodes that were not marked at the beginning (`PushInv.mem_trail_iff`).
* A walk that *marks when it pops* pushes every successor, and skips a node that it pops a second
  time (`PopInv`). It ends with the nodes that can be reached (`PopInv.mem_trail_iff`).

The nodes that are marked in the course of the walk are its *trail*. It has no node twice, so the
walk does what it does at a node once for every node of the trail. `pushMeasure_lt` and
`popMeasure_lt` bound the number of rounds over a finite graph.
-/

namespace StackWalk

variable {α : Type*} [DecidableEq α]

/-! ### Marking when a node is pushed -/

/-- `y` is a successor of `x` that was not marked at the beginning. -/
def FreshEdge (succ : α → List α) (init : Finset α) (x y : α) : Prop :=
  y ∈ succ x ∧ y ∉ init

/-- The nodes of a list that are not marked, each at its first occurrence. -/
def firstNew : List α → Finset α → List α
  | [], _ => []
  | y :: ys, marked =>
    if y ∈ marked then firstNew ys marked else y :: firstNew ys (insert y marked)

variable {ys stack : List α} {marked U : Finset α} {succ : α → List α} {y : α}

theorem mem_firstNew {z : α} : z ∈ firstNew ys marked ↔ z ∈ ys ∧ z ∉ marked := by
  induction ys generalizing marked with
  | nil => simp [firstNew]
  | cons y ys ih =>
    unfold firstNew
    split
    · next hy =>
      rw [ih, List.mem_cons]
      refine and_congr_left fun hz => ⟨Or.inr, fun h => h.resolve_left ?_⟩
      rintro rfl
      exact hz hy
    · next hy =>
      rw [List.mem_cons, ih, List.mem_cons, Finset.mem_insert]
      by_cases hzy : z = y
      · subst hzy
        simp [hy]
      · simp [hzy]

theorem nodup_firstNew (ys : List α) (marked : Finset α) : (firstNew ys marked).Nodup := by
  induction ys generalizing marked with
  | nil => exact List.nodup_nil
  | cons y ys ih =>
    unfold firstNew
    split
    · exact ih marked
    · -- marked before the rest of the list is looked at
      refine List.nodup_cons.mpr ⟨fun h => ?_, ih _⟩
      exact (mem_firstNew.mp h).2 (Finset.mem_insert_self y marked)

/-- What a walk that marks when it pushes knows at the head of its loop. -/
structure PushInv (succ : α → List α) (start : List α) (init : Finset α)
    (stack trail : List α) : Prop where
  nodup : trail.Nodup
  sound : ∀ y ∈ trail, ∃ x ∈ start, Relation.TransGen (FreshEdge succ init) x y
  stack_sub : ∀ x ∈ stack, x ∈ start ∨ x ∈ trail
  /-- A node waits on the stack, or all its successors are marked. -/
  expanded : ∀ x, x ∈ start ∨ x ∈ trail → x ∈ stack ∨ ∀ y ∈ succ x, y ∈ init ∨ y ∈ trail

namespace PushInv

variable {succ : α → List α} {start : List α} {init marked : Finset α} {x : α}
  {stack trail : List α}

omit [DecidableEq α] in
theorem initial (succ : α → List α) (start : List α) (init : Finset α) :
    PushInv succ start init start [] where
  nodup := List.nodup_nil
  sound _ hy := absurd hy List.not_mem_nil
  stack_sub _ hx := Or.inl hx
  expanded _ hx := Or.inl (hx.resolve_right List.not_mem_nil)

omit [DecidableEq α] in
theorem notMem_init (h : PushInv succ start init stack trail) {y : α} (hy : y ∈ trail) :
    y ∉ init := by
  obtain ⟨x, -, hpath⟩ := h.sound y hy
  induction hpath with
  | single hedge => exact hedge.2
  | tail _ hedge _ => exact hedge.2

/-- **One round**: a node is popped, and its new successors are marked and pushed. -/
theorem next (h : PushInv succ start init (x :: stack) trail)
    (hmarked : ∀ y, y ∈ marked ↔ y ∈ init ∨ y ∈ trail) :
    PushInv succ start init ((firstNew (succ x) marked).reverse ++ stack)
      (trail ++ firstNew (succ x) marked) := by
  have hnew : ∀ y, y ∈ firstNew (succ x) marked ↔ y ∈ succ x ∧ y ∉ init ∧ y ∉ trail := by
    intro y
    rw [mem_firstNew, hmarked, not_or]
  have hx : x ∈ start ∨ x ∈ trail := h.stack_sub x List.mem_cons_self
  refine ⟨?_, fun y hy => ?_, fun z hz => ?_, fun z hz => ?_⟩
  · refine h.nodup.append (nodup_firstNew _ _) fun y hy hy' => ?_
    exact ((hnew y).mp hy').2.2 hy
  · rcases List.mem_append.mp hy with hy | hy
    · exact h.sound y hy
    · -- a new node is one fresh edge from the popped one
      obtain ⟨hsucc, hinit, -⟩ := (hnew y).mp hy
      rcases hx with hx | hx
      · exact ⟨x, hx, .single ⟨hsucc, hinit⟩⟩
      · obtain ⟨r, hr, hpath⟩ := h.sound x hx
        exact ⟨r, hr, hpath.tail ⟨hsucc, hinit⟩⟩
  · -- what is on the stack was there before or is new
    rw [List.mem_append, List.mem_reverse] at hz
    rw [List.mem_append]
    rcases hz with hz | hz
    · exact Or.inr (Or.inr hz)
    · rcases h.stack_sub z (List.mem_cons_of_mem _ hz) with hz | hz
      · exact Or.inl hz
      · exact Or.inr (Or.inl hz)
  · rw [List.mem_append, List.mem_reverse]
    rw [List.mem_append] at hz
    by_cases hznew : z ∈ firstNew (succ x) marked
    · exact Or.inl (Or.inl hznew)
    have hzold : z ∈ start ∨ z ∈ trail := by
      rcases hz with hz | hz | hz
      · exact Or.inl hz
      · exact Or.inr hz
      · exact absurd hz hznew
    rcases h.expanded z hzold with hzstack | hall
    · rcases List.mem_cons.mp hzstack with rfl | hzstack
      · -- the popped node: a successor of it is marked, before or now
        refine Or.inr fun y hy => ?_
        by_cases hym : y ∈ marked
        · rcases (hmarked y).mp hym with hyi | hyt
          · exact Or.inl hyi
          · exact Or.inr (List.mem_append_left _ hyt)
        · exact Or.inr (List.mem_append_right _ (mem_firstNew.mpr ⟨hy, hym⟩))
      · exact Or.inl (Or.inr hzstack)
    · -- one that was expanded before still is
      refine Or.inr fun y hy => ?_
      rcases hall y hy with hyi | hyt
      · exact Or.inl hyi
      · exact Or.inr (List.mem_append_left _ hyt)

omit [DecidableEq α] in
/-- **Where the walk has been**, once the stack is empty. -/
theorem mem_trail_iff (h : PushInv succ start init [] trail) (y : α) :
    y ∈ trail ↔ ∃ x ∈ start, Relation.TransGen (FreshEdge succ init) x y := by
  refine ⟨h.sound y, ?_⟩
  rintro ⟨x, hx, hpath⟩
  -- nothing waits, so every node on the way has been expanded
  have hclosed : ∀ z, z ∈ start ∨ z ∈ trail → ∀ w, FreshEdge succ init z w → w ∈ trail := by
    intro z hz w hedge
    rcases h.expanded z hz with hnil | hall
    · exact absurd hnil List.not_mem_nil
    · exact (hall w hedge.1).resolve_left hedge.2
  induction hpath with
  | single hedge => exact hclosed x (Or.inl hx) _ hedge
  | tail _ hedge ih => exact hclosed _ (Or.inr ih) _ hedge

end PushInv

omit [DecidableEq α] in
/-- When only the start of the walk was marked at the beginning, the trail is everything else that
can be reached from it. -/
theorem transGen_fresh_singleton {root : α} :
    Relation.TransGen (FreshEdge succ {root}) root y ↔
      y ≠ root ∧ Relation.ReflTransGen (fun x y => y ∈ succ x) root y := by
  constructor
  · intro h
    induction h with
    | single hedge =>
      exact ⟨fun heq => hedge.2 (by simp [heq]), Relation.ReflTransGen.single hedge.1⟩
    | tail _ hedge ih => exact ⟨fun heq => hedge.2 (by simp [heq]), ih.2.tail hedge.1⟩
  · rintro ⟨hne, hpath⟩
    induction hpath with
    | refl => exact absurd rfl hne
    | @tail b c _ hedge ih =>
      have hfresh : FreshEdge succ {root} b c := ⟨hedge, by simpa using hne⟩
      by_cases hb : b = root
      · -- the path starts again at the root
        rw [hb] at hfresh
        exact .single hfresh
      · exact (ih hb).tail hfresh

omit [DecidableEq α] in
/-- What waits on the stack of a walk from one node, and what is on its trail, can be reached. -/
theorem PushInv.reaches {root : α} {trail : List α} (h : PushInv succ [root] {root} stack trail)
    (hy : y ∈ stack ∨ y ∈ trail) : Relation.ReflTransGen (fun x y => y ∈ succ x) root y := by
  have htrail : ∀ z ∈ trail, Relation.ReflTransGen (fun x y => y ∈ succ x) root z := by
    intro z hz
    obtain ⟨x, hx, hpath⟩ := h.sound z hz
    obtain rfl := List.mem_singleton.mp hx
    exact (transGen_fresh_singleton.mp hpath).2
  rcases hy with hy | hy
  · rcases h.stack_sub y hy with hy | hy
    · rw [List.mem_singleton.mp hy]
    · exact htrail y hy
  · exact htrail y hy

/-- The number of unmarked nodes of `U`, plus the height of the stack. -/
def pushMeasure (U marked : Finset α) (stack : List α) : ℕ :=
  (U.card - marked.card) + stack.length

theorem pushMeasure_lt (x : α) (hU : ∀ y ∈ firstNew ys marked, y ∈ U) (hmarked : marked ⊆ U) :
    pushMeasure U (marked ∪ (firstNew ys marked).toFinset) ((firstNew ys marked).reverse ++ stack) <
      pushMeasure U marked (x :: stack) := by
  have hdisj : Disjoint marked (firstNew ys marked).toFinset := by
    rw [Finset.disjoint_left]
    intro y hy hy'
    exact (mem_firstNew.mp (List.mem_toFinset.mp hy')).2 hy
  have hcard : (marked ∪ (firstNew ys marked).toFinset).card =
      marked.card + (firstNew ys marked).length := by
    rw [Finset.card_union_of_disjoint hdisj, List.toFinset_card_of_nodup (nodup_firstNew ys marked)]
  have hle : (marked ∪ (firstNew ys marked).toFinset).card ≤ U.card := by
    refine Finset.card_le_card (Finset.union_subset hmarked fun y hy => ?_)
    exact hU y (List.mem_toFinset.mp hy)
  unfold pushMeasure
  rw [hcard] at hle ⊢
  rw [List.length_append, List.length_reverse, List.length_cons]
  omega

/-! ### Marking when a node is popped -/

/-- What a walk that marks when it pops knows at the head of its loop. -/
structure PopInv (succ : α → List α) (start stack trail : List α) : Prop where
  nodup : trail.Nodup
  sound : ∀ y, y ∈ stack ∨ y ∈ trail →
    ∃ x ∈ start, Relation.ReflTransGen (fun x y => y ∈ succ x) x y
  start_mem : ∀ x ∈ start, x ∈ stack ∨ x ∈ trail
  succ_mem : ∀ x ∈ trail, ∀ y ∈ succ x, y ∈ stack ∨ y ∈ trail

namespace PopInv

variable {succ : α → List α} {start stack trail : List α} {x : α}

omit [DecidableEq α] in
theorem initial (succ : α → List α) (start : List α) : PopInv succ start start [] where
  nodup := List.nodup_nil
  sound y hy := ⟨y, hy.resolve_right List.not_mem_nil, .refl⟩
  start_mem _ hx := Or.inl hx
  succ_mem _ hx := absurd hx List.not_mem_nil

omit [DecidableEq α] in
theorem congr {stack' : List α} (h : PopInv succ start stack trail)
    (hsame : ∀ y, y ∈ stack ∨ y ∈ trail ↔ y ∈ stack' ∨ y ∈ trail) :
    PopInv succ start stack' trail where
  nodup := h.nodup
  sound y hy := h.sound y ((hsame y).mpr hy)
  start_mem x hx := (hsame x).mp (h.start_mem x hx)
  succ_mem x hx y hy := (hsame y).mp (h.succ_mem x hx y hy)

omit [DecidableEq α] in
theorem skip (h : PopInv succ start (x :: stack) trail) (hx : x ∈ trail) :
    PopInv succ start stack trail := by
  -- what was on the stack still is, or is the skipped node
  have hkeep : ∀ y, y ∈ x :: stack ∨ y ∈ trail → y ∈ stack ∨ y ∈ trail := by
    intro y hy
    rcases hy with hy | hy
    · rcases List.mem_cons.mp hy with rfl | hy
      · exact Or.inr hx
      · exact Or.inl hy
    · exact Or.inr hy
  refine ⟨h.nodup, fun y hy => h.sound y ?_, fun y hy => hkeep y (h.start_mem y hy),
    fun z hz y hy => hkeep y (h.succ_mem z hz y hy)⟩
  exact hy.imp_left (List.mem_cons_of_mem x)

omit [DecidableEq α] in
/-- **One round**: a node is popped and visited, and its successors are pushed. -/
theorem visit (h : PopInv succ start (x :: stack) trail) (hx : x ∉ trail) :
    PopInv succ start ((succ x).reverse ++ stack) (trail ++ [x]) := by
  have hkeep : ∀ y, y ∈ x :: stack ∨ y ∈ trail →
      y ∈ (succ x).reverse ++ stack ∨ y ∈ trail ++ [x] := by
    intro y hy
    rcases hy with hy | hy
    · rcases List.mem_cons.mp hy with rfl | hy
      · exact Or.inr (List.mem_append_right _ List.mem_cons_self)
      · exact Or.inl (List.mem_append_right _ hy)
    · exact Or.inr (List.mem_append_left _ hy)
  have hpath := h.sound x (Or.inl List.mem_cons_self)
  refine ⟨h.nodup.append (List.nodup_singleton x) ?_, fun y hy => ?_,
    fun y hy => hkeep y (h.start_mem y hy), fun z hz y hy => ?_⟩
  · intro y hy hy'
    rw [List.mem_singleton.mp hy'] at hy
    exact hx hy
  · rw [List.mem_append, List.mem_reverse, List.mem_append, List.mem_singleton] at hy
    rcases hy with (hy | hy) | (hy | rfl)
    · obtain ⟨r, hr, hpath⟩ := hpath
      exact ⟨r, hr, hpath.tail hy⟩
    · exact h.sound y (Or.inl (List.mem_cons_of_mem x hy))
    · exact h.sound y (Or.inr hy)
    · exact hpath
  · rcases List.mem_append.mp hz with hz | hz
    · exact hkeep y (h.succ_mem z hz y hy)
    · rw [List.mem_singleton.mp hz] at hy
      exact Or.inl (List.mem_append_left _ (List.mem_reverse.mpr hy))

omit [DecidableEq α] in
/-- **Where the walk has been**, once the stack is empty. -/
theorem mem_trail_iff (h : PopInv succ start [] trail) (y : α) :
    y ∈ trail ↔ ∃ x ∈ start, Relation.ReflTransGen (fun x y => y ∈ succ x) x y := by
  refine ⟨fun hy => h.sound y (Or.inr hy), ?_⟩
  rintro ⟨x, hx, hpath⟩
  induction hpath with
  | refl => exact (h.start_mem x hx).resolve_left List.not_mem_nil
  | tail _ hedge ih => exact (h.succ_mem _ ih _ hedge).resolve_left List.not_mem_nil

end PopInv

/-- One for every node on the stack, and for every unvisited node of `U` one more than the number of
its successors. -/
def popMeasure (succ : α → List α) (U : Finset α) (visited : Finset α) (stack : List α) : ℕ :=
  (∑ x ∈ U \ visited, ((succ x).length + 1)) + stack.length

theorem popMeasure_lt {visited : Finset α} {x : α} (hx : x ∈ U) (hnew : x ∉ visited) :
    popMeasure succ U (insert x visited) ((succ x).reverse ++ stack) <
      popMeasure succ U visited (x :: stack) := by
  have hmem : x ∈ U \ visited := Finset.mem_sdiff.mpr ⟨hx, hnew⟩
  have hsplit : ∑ y ∈ U \ visited, ((succ y).length + 1) =
      ((succ x).length + 1) + ∑ y ∈ U \ insert x visited, ((succ y).length + 1) := by
    rw [← Finset.add_sum_erase _ _ hmem, Finset.sdiff_insert]
  unfold popMeasure
  rw [hsplit, List.length_append, List.length_reverse, List.length_cons]
  omega

end StackWalk
