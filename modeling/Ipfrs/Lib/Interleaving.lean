import Mathlib.Data.List.Basic

/-!
# Interleaved tasks

Tasks that work on one shared state. A task begins with a call, goes from stage to stage, and ends
with an answer. One step of a task is never interrupted; between two of its steps, any other task
may take any number of steps. The history of a run has the calls and the answers, in order.

A run (`Run`) can be restricted to calls that are `valid`, and to steps that `meet` a condition on
the state before them.

* `Run.invariant` — what is true at the beginning and kept by every step is true in every run;
* `Run.call_eq` — a task stays with the call that it began with;
* `Run.of_returned` — an answer in the history was given by a step of its task;
* `Run.since` — what one answer brings about and every later step keeps is true ever after;
* `acts_invariant` — the same for a schedule that goes on from any state.
-/

namespace Ipfrs.Interleaving

/-- What the tasks do. A stage determines the call that the task began with. -/
structure Program (σ Call Stage Answer : Type*) where
  start : Call → Stage
  step : σ → Stage → σ × (Stage ⊕ Answer)
  call : Stage → Call
  call_start : ∀ c, call (start c) = c
  call_step : ∀ s stage stage', (step s stage).2 = .inl stage' → call stage' = call stage

/-- What a history records. Tasks are numbered in the order of their calls. -/
inductive Event (Call Answer : Type*) where
  | started (id : ℕ) (call : Call)
  | returned (id : ℕ) (answer : Answer)
  deriving DecidableEq

/-- The shared state, and where each task is: at a stage, or at its end. -/
structure System (σ Stage Answer : Type*) where
  shared : σ
  tasks : List (Stage ⊕ Answer)

/-- What a scheduler can do. -/
inductive Action (Call : Type*) where
  | spawn (call : Call)
  | resume (id : ℕ)

/-- A step that ends a task is recorded. -/
def returns {Call Stage Answer : Type*} (id : ℕ) : Stage ⊕ Answer → List (Event Call Answer)
  | .inl _ => []
  | .inr a => [.returned id a]

section Steps

variable {σ Call Stage Answer : Type*} (p : Program σ Call Stage Answer)

/-- A task begins. -/
def spawn (sys : System σ Stage Answer) (call : Call) : System σ Stage Answer :=
  { sys with tasks := sys.tasks ++ [.inl (p.start call)] }

/-- A task takes a step. -/
def resume (sys : System σ Stage Answer) (id : ℕ) (stage : Stage) : System σ Stage Answer where
  shared := (p.step sys.shared stage).1
  tasks := sys.tasks.set id (p.step sys.shared stage).2

/-- The histories of the tasks, and the states that they reach. -/
inductive Run (init : σ → Prop) (valid : Call → Prop)
    (meets : System σ Stage Answer → Stage → Prop) :
    List (Event Call Answer) → System σ Stage Answer → Prop
  | init {s : σ} (h : init s) : Run init valid meets [] ⟨s, []⟩
  | spawn {trace : List (Event Call Answer)} {sys : System σ Stage Answer} {call : Call}
      (h : Run init valid meets trace sys) (hvalid : valid call) :
      Run init valid meets (trace ++ [.started sys.tasks.length call]) (spawn p sys call)
  | resume {trace : List (Event Call Answer)} {sys : System σ Stage Answer} {id : ℕ} {stage : Stage}
      (h : Run init valid meets trace sys) (hstage : sys.tasks[id]? = some (.inl stage))
      (hmeets : meets sys stage) :
      Run init valid meets (trace ++ returns id (p.step sys.shared stage).2) (resume p sys id stage)

/-- One action, if it is possible and allowed, and what is recorded of it. -/
def act (valid : Call → Prop) (meets : System σ Stage Answer → Stage → Prop)
    [∀ call, Decidable (valid call)] [∀ sys stage, Decidable (meets sys stage)]
    (sys : System σ Stage Answer) :
    Action Call → Option (List (Event Call Answer) × System σ Stage Answer)
  | .spawn call =>
    if valid call then some ([.started sys.tasks.length call], spawn p sys call) else none
  | .resume id =>
    match sys.tasks[id]? with
    | some (.inl stage) =>
      if meets sys stage then
        some (returns id (p.step sys.shared stage).2, resume p sys id stage)
      else none
    | _ => none

/-- The actions of a schedule, one after the other. -/
def acts (valid : Call → Prop) (meets : System σ Stage Answer → Stage → Prop)
    [∀ call, Decidable (valid call)] [∀ sys stage, Decidable (meets sys stage)] :
    System σ Stage Answer → List (Action Call) →
      Option (List (Event Call Answer) × System σ Stage Answer)
  | sys, [] => some ([], sys)
  | sys, a :: as =>
    match act p valid meets sys a with
    | none => none
    | some (events, sys) => (acts valid meets sys as).map fun r => (events ++ r.1, r.2)

end Steps

section Runs

variable {σ Call Stage Answer : Type*} {p : Program σ Call Stage Answer} {init : σ → Prop}
  {valid : Call → Prop} {meets : System σ Stage Answer → Stage → Prop}
  {trace pre mid post events : List (Event Call Answer)} {sys sys' : System σ Stage Answer}
  {id : ℕ} {call : Call} {stage : Stage} {a : Answer}
variable {P : System σ Stage Answer → Prop} {j : ℕ} {out : Stage ⊕ Answer}
  {schedule : List (Action Call)}

/-- **Invariants of runs.** -/
theorem Run.invariant (hinit : ∀ s, init s → P ⟨s, []⟩)
    (hspawn : ∀ sys call, P sys → valid call → P (Interleaving.spawn p sys call))
    (hresume : ∀ sys id stage, P sys → sys.tasks[id]? = some (.inl stage) → meets sys stage →
      P (Interleaving.resume p sys id stage)) (h : Run p init valid meets trace sys) : P sys := by
  induction h with
  | init hs => exact hinit _ hs
  | spawn _ hvalid ih => exact hspawn _ _ ih hvalid
  | resume _ hstage hmeets ih => exact hresume _ _ _ ih hstage hmeets

/-- A task that was at a stage is the one that was resumed, or is where it was. -/
theorem getElem?_resume (h : (resume p sys id stage).tasks[j]? = some out) :
    j = id ∧ out = (p.step sys.shared stage).2 ∨ j ≠ id ∧ sys.tasks[j]? = some out := by
  have h' : (sys.tasks.set id (p.step sys.shared stage).2)[j]? = some out := h
  rw [List.getElem?_set] at h'
  split at h'
  · next hid =>
    split at h'
    · exact Or.inl ⟨hid.symm, (Option.some.inj h').symm⟩
    · exact absurd h' (by simp)
  · next hid => exact Or.inr ⟨fun heq => hid heq.symm, h'⟩

theorem getElem?_spawn (h : (spawn p sys call).tasks[j]? = some out) :
    j = sys.tasks.length ∧ out = .inl (p.start call) ∨ sys.tasks[j]? = some out := by
  have h' : (sys.tasks ++ [.inl (p.start call)])[j]? = some out := h
  -- an older task, or the new one
  rcases Nat.lt_or_ge j sys.tasks.length with hlt | hge
  · rw [List.getElem?_append_left hlt] at h'
    exact Or.inr h'
  · rw [List.getElem?_append_right hge] at h'
    obtain ⟨hzero, hout⟩ := List.getElem?_eq_some_iff.mp h'
    have hj : j = sys.tasks.length := by
      rw [List.length_singleton] at hzero
      omega
    subst hj
    refine Or.inl ⟨rfl, ?_⟩
    rw [← hout]
    simp

/-- **A task stays with its call.** -/
theorem Run.call_eq (h : Run p init valid meets trace sys) (hstarted : .started id call ∈ trace) :
    id < sys.tasks.length ∧ ∀ stage, sys.tasks[id]? = some (.inl stage) → p.call stage = call := by
  induction h with
  | init _ => exact absurd hstarted List.not_mem_nil
  | @spawn trace sys call' _ _ ih =>
    have hlength : (Interleaving.spawn p sys call').tasks.length = sys.tasks.length + 1 := by
      show (sys.tasks ++ [_]).length = _
      rw [List.length_append, List.length_singleton]
    rw [hlength]
    rcases List.mem_append.mp hstarted with hold | hnew
    · obtain ⟨hlt, hcall⟩ := ih hold
      refine ⟨Nat.lt_succ_of_lt hlt, fun stage hstage => ?_⟩
      rcases getElem?_spawn hstage with ⟨hid, -⟩ | hstage
      · exact absurd hid (Nat.ne_of_lt hlt)
      · exact hcall stage hstage
    · obtain ⟨rfl, rfl⟩ := Event.started.inj (List.mem_singleton.mp hnew)
      refine ⟨Nat.lt_succ_self _, fun stage hstage => ?_⟩
      rcases getElem?_spawn hstage with ⟨-, hout⟩ | hstage
      · rw [Sum.inl.inj hout]
        exact p.call_start _
      · exact absurd (List.getElem?_eq_some_iff.mp hstage).1 (Nat.lt_irrefl _)
  | @resume trace sys id' stage' _ hstage' _ ih =>
    have hold : .started id call ∈ trace := by
      rcases List.mem_append.mp hstarted with hold | hnew
      · exact hold
      · -- a step records no call
        unfold returns at hnew
        split at hnew
        · exact absurd hnew List.not_mem_nil
        · exact absurd (List.mem_singleton.mp hnew) (by simp)
    obtain ⟨hlt, hcall⟩ := ih hold
    refine ⟨?_, fun stage hstage => ?_⟩
    · show id < (sys.tasks.set _ _).length
      rw [List.length_set]
      exact hlt
    · rcases getElem?_resume hstage with ⟨rfl, hout⟩ | ⟨-, hstage⟩
      · rw [p.call_step _ _ _ hout.symm]
        exact hcall stage' hstage'
      · exact hcall stage hstage

theorem append_eq_append_cons {α : Type*} {xs ys before after : List α} {x : α}
    (hys : ys.length ≤ 1) (h : xs ++ ys = before ++ x :: after) :
    (ys = [x] ∧ xs = before ∧ after = []) ∨ ∃ after', xs = before ++ x :: after' ∧
      after = after' ++ ys := by
  rcases List.append_eq_append_iff.mp h with ⟨between, hbefore, hys'⟩ | ⟨between, hxs, hcons⟩
  · -- `x` is in `ys`
    have hlength := congrArg List.length hys'
    simp only [List.length_append, List.length_cons] at hlength
    have hbetween : between = [] := List.length_eq_zero_iff.mp (by omega)
    have hafter : after = [] := List.length_eq_zero_iff.mp (by omega)
    subst hbetween hafter
    exact Or.inl ⟨hys', (hbefore.trans (List.append_nil _)).symm, rfl⟩
  · cases between with
    | nil =>
      have hlength := congrArg List.length hcons
      simp only [List.nil_append, List.length_cons] at hlength
      have hafter : after = [] := List.length_eq_zero_iff.mp (by omega)
      subst hafter
      exact Or.inl ⟨hcons.symm, hxs.trans (List.append_nil _), rfl⟩
    | cons y between =>
      obtain ⟨rfl, hafter⟩ := List.cons.inj hcons
      exact Or.inr ⟨between, hxs, hafter⟩

theorem length_returns (id : ℕ) (out : Stage ⊕ Answer) :
    (returns id out : List (Event Call Answer)).length ≤ 1 := by
  cases out with
  | inl stage => exact Nat.zero_le 1
  | inr a => exact Nat.le_refl 1

/-- **An answer was given by a step.** -/
theorem Run.of_returned (h : Run p init valid meets (pre ++ .returned id a :: post) sys) :
    ∃ sys₀ stage, Run p init valid meets pre sys₀ ∧ sys₀.tasks[id]? = some (.inl stage) ∧
      meets sys₀ stage ∧ (p.step sys₀.shared stage).2 = .inr a := by
  generalize htrace : pre ++ Event.returned id a :: post = trace at h
  induction h generalizing post with
  | init _ => exact absurd htrace (by simp)
  | @spawn trace sys call _ _ ih =>
    rcases append_eq_append_cons (Nat.le_of_eq List.length_singleton) htrace.symm with
      ⟨hevent, -, -⟩ | ⟨after, hpre, -⟩
    · exact absurd hevent (by simp)
    · exact ih hpre.symm
  | @resume trace sys id' stage hrun hstage hmeets ih =>
    rcases append_eq_append_cons (length_returns _ _) htrace.symm with
      ⟨hevent, rfl, -⟩ | ⟨after, hpre, -⟩
    · -- this is the step that gave the answer
      cases hout : (p.step sys.shared stage).2 with
      | inl stage' => exact absurd (hout ▸ hevent) (by simp [returns])
      | inr a' =>
        rw [hout] at hevent
        obtain ⟨rfl, rfl⟩ := Event.returned.inj (List.cons.inj hevent).1
        exact ⟨sys, stage, hrun, hstage, hmeets, hout⟩
    · exact ih hpre.symm

/-- **Ever after an answer.** `Q` is about the events since then, and the state. -/
theorem Run.since {Q : List (Event Call Answer) → System σ Stage Answer → Prop}
    (hreturned : ∀ sys stage, Run p init valid meets pre sys → sys.tasks[id]? = some (.inl stage) →
      meets sys stage → (p.step sys.shared stage).2 = .inr a →
      Q [] (Interleaving.resume p sys id stage))
    (hspawn : ∀ mid sys call, Run p init valid meets (pre ++ .returned id a :: mid) sys →
      Q mid sys → valid call →
      Q (mid ++ [.started sys.tasks.length call]) (Interleaving.spawn p sys call))
    (hresume : ∀ mid sys j stage, Run p init valid meets (pre ++ .returned id a :: mid) sys →
      Q mid sys → sys.tasks[j]? = some (.inl stage) → meets sys stage →
      Q (mid ++ returns j (p.step sys.shared stage).2) (Interleaving.resume p sys j stage))
    (h : Run p init valid meets (pre ++ .returned id a :: mid) sys) : Q mid sys := by
  generalize htrace : pre ++ Event.returned id a :: mid = trace at h
  induction h generalizing mid with
  | init _ => exact absurd htrace (by simp)
  | @spawn trace sys call hrun hvalid ih =>
    rcases append_eq_append_cons (Nat.le_of_eq List.length_singleton) htrace.symm with
      ⟨hevent, -, -⟩ | ⟨mid, rfl, rfl⟩
    · exact absurd hevent (by simp)
    · exact hspawn mid sys call hrun (ih rfl) hvalid
  | @resume trace sys j stage hrun hstage hmeets ih =>
    rcases append_eq_append_cons (length_returns _ _) htrace.symm with
      ⟨hevent, rfl, rfl⟩ | ⟨mid, rfl, rfl⟩
    · -- the answer itself
      cases hout : (p.step sys.shared stage).2 with
      | inl stage' => exact absurd (hout ▸ hevent) (by simp [returns])
      | inr a' =>
        rw [hout] at hevent
        obtain ⟨rfl, rfl⟩ := Event.returned.inj (List.cons.inj hevent).1
        exact hreturned sys stage hrun hstage hmeets hout
    · exact hresume mid sys j stage hrun (ih rfl) hstage hmeets

/-! ### Schedules -/

variable [∀ call, Decidable (valid call)] [∀ sys stage, Decidable (meets sys stage)]

theorem Run.act {action : Action Call} (h : Run p init valid meets trace sys)
    (hact : act p valid meets sys action = some (events, sys')) :
    Run p init valid meets (trace ++ events) sys' := by
  unfold Interleaving.act at hact
  cases action with
  | spawn call =>
    obtain ⟨hvalid, hout⟩ := Option.ite_none_right_eq_some.mp hact
    obtain ⟨rfl, rfl⟩ := Prod.mk.inj (Option.some.inj hout)
    exact h.spawn hvalid
  | resume id =>
    dsimp only at hact
    split at hact
    · next stage hstage =>
      obtain ⟨hmeets, hout⟩ := Option.ite_none_right_eq_some.mp hact
      obtain ⟨rfl, rfl⟩ := Prod.mk.inj (Option.some.inj hout)
      exact h.resume hstage hmeets
    · exact absurd hact (by simp)

/-- **A schedule that is carried out** is a run. -/
theorem Run.acts (h : Run p init valid meets trace sys)
    (hacts : acts p valid meets sys schedule = some (events, sys')) :
    Run p init valid meets (trace ++ events) sys' := by
  induction schedule generalizing trace sys events with
  | nil =>
    obtain ⟨rfl, rfl⟩ := Prod.mk.inj (Option.some.inj hacts)
    rwa [List.append_nil]
  | cons action schedule ih =>
    unfold Interleaving.acts at hacts
    split at hacts
    · exact absurd hacts (by simp)
    · next hact =>
      obtain ⟨⟨rest, sys''⟩, hrest, hout⟩ := Option.map_eq_some_iff.mp hacts
      obtain ⟨rfl, rfl⟩ := Prod.mk.inj hout
      rw [← List.append_assoc]
      exact ih (h.act hact) hrest

/-- **Invariants of schedules**, from any state. -/
theorem acts_invariant (hspawn : ∀ sys call, P sys → valid call → P (spawn p sys call))
    (hresume : ∀ sys id stage, P sys → sys.tasks[id]? = some (.inl stage) → meets sys stage →
      P (resume p sys id stage)) (hsys : P sys)
    (hacts : acts p valid meets sys schedule = some (events, sys')) : P sys' := by
  induction schedule generalizing sys events with
  | nil =>
    obtain ⟨-, rfl⟩ := Prod.mk.inj (Option.some.inj hacts)
    exact hsys
  | cons action schedule ih =>
    unfold acts at hacts
    split at hacts
    · exact absurd hacts (by simp)
    · next first sys₁ hact =>
      obtain ⟨⟨rest, sys₂⟩, hrest, hout⟩ := Option.map_eq_some_iff.mp hacts
      obtain ⟨-, rfl⟩ := Prod.mk.inj hout
      -- the first action, and then the others
      refine ih ?_ hrest
      unfold act at hact
      cases action with
      | spawn call =>
        obtain ⟨hvalid, hout⟩ := Option.ite_none_right_eq_some.mp hact
        obtain ⟨-, rfl⟩ := Prod.mk.inj (Option.some.inj hout)
        exact hspawn _ _ hsys hvalid
      | resume id =>
        dsimp only at hact
        split at hact
        · next stage hstage =>
          obtain ⟨hmeets, hout⟩ := Option.ite_none_right_eq_some.mp hact
          obtain ⟨-, rfl⟩ := Prod.mk.inj (Option.some.inj hout)
          exact hresume _ _ _ hsys hstage hmeets
        · exact absurd hact (by simp)

theorem Run.of_acts {s : σ} (hs : init s)
    (hacts : (Interleaving.acts p valid meets ⟨s, []⟩ schedule).map Prod.fst = some trace) :
    ∃ sys, Run p init valid meets trace sys := by
  obtain ⟨⟨events, sys⟩, hrun, rfl⟩ := Option.map_eq_some_iff.mp hacts
  exact ⟨sys, (Run.init hs).acts hrun⟩

end Runs

end Ipfrs.Interleaving
