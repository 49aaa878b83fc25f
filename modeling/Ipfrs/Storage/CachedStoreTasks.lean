import Ipfrs.Lib.Interleaving
import Ipfrs.Storage.CachedStoreRefines

/-!
# Interleaved calls of a cached store

`get`, `delete` and `put` of one `CachedBlockStore` as tasks. A task runs from one await point to
the next without interruption: `get` looks into the cache, asks the backing store, and puts the
block that it got into the cache; `delete` takes the block out of the cache, and then out of the
backing store; `put` writes to the backing store, and then to the cache.

After a `delete` has returned, a `get` that starts later should find nothing (`NoStaleRead`). But a
`get` that has fetched the block can put it into the cache after the `delete` has taken it out, and
there it stays (`not_forall_noStaleRead`).

Nothing stale is read in runs in which a block enters the cache only while the backing store holds
it and no `delete` of it is between its two steps (`Undisturbed`, `noStaleRead`). The argument is
about the time after the `delete` (`Quiet`): the backing store has no such block, nobody is about to
write it, and no `get` that started since then has fetched it.
-/

namespace Ipfrs.CachedStore

open CachedBlockStore Interleaving

/-! ### The tasks -/

/-- The calls. -/
inductive Call where
  | get (cid : Cid)
  | delete (cid : Cid)
  | put (block : Block)
  deriving DecidableEq

/-- Where a task is: before its first step, or after one of them. -/
inductive Stage where
  | started (call : Call)
  | missed (cid : Cid)
  | fetched (cid : Cid) (block : Block)
  | popped (cid : Cid)
  | written (block : Block)
  deriving DecidableEq

/-- What a task comes to. -/
abbrev Outcome := Except Error Answer

def Call.op : Call → Op
  | .get cid => .get cid
  | .delete cid => .delete cid
  | .put block => .put block

def Stage.call : Stage → Call
  | .started call => call
  | .missed cid => .get cid
  | .fetched cid _ => .get cid
  | .popped cid => .delete cid
  | .written block => .put block

section Steps

variable {S : Type} [CidText] [BackingStore S]

/-- One step of a task: the statements of `get`, `delete` or `put` up to the next await point. -/
def advance (st : CachedBlockStore S) : Stage → CachedBlockStore S × (Stage ⊕ Outcome)
  -- `get`
  | .started (.get cid) =>
    match st.l1Peek cid with
    | (st, some data) => (st.countHit, .inr (.ok (.block (some ⟨cid, data⟩))))
    | (st, none) => (st.countMiss, .inl (.missed cid))
  | .missed cid =>
    match BackingStore.get st.inner cid with
    | (s, .error e) => ({ st with inner := s }, .inr (.error e))
    | (s, .ok none) => ({ st with inner := s }, .inr (.ok (.block none)))
    | (s, .ok (some block)) => ({ st with inner := s }, .inl (.fetched cid block))
  | .fetched cid block => (st.offer cid block.data, .inr (.ok (.block (some block))))
  -- `delete`
  | .started (.delete cid) => (st.invalidate cid, .inl (.popped cid))
  | .popped cid =>
    match BackingStore.delete st.inner cid with
    | (s, .error e) => ({ st with inner := s }, .inr (.error e))
    | (s, .ok ()) => ({ st with inner := s }, .inr (.ok .done))
  -- `put`
  | .started (.put block) =>
    let st := st.countPuts 1
    match BackingStore.put st.inner block with
    | (s, .error e) => ({ st with inner := s }, .inr (.error e))
    | (s, .ok ()) => ({ st with inner := s }, .inl (.written block))
  | .written block => (st.offer block.cid block.data, .inr (.ok .done))

theorem call_advance (st : CachedBlockStore S) (stage stage' : Stage)
    (h : (advance st stage).2 = .inl stage') : stage'.call = stage.call := by
  unfold advance at h
  split at h
  · split at h
    · exact absurd h (by simp)
    · rw [← Sum.inl.inj h]
      rfl
  · split at h
    · exact absurd h (by simp)
    · exact absurd h (by simp)
    · rw [← Sum.inl.inj h]
      rfl
  · exact absurd h (by simp)
  · rw [← Sum.inl.inj h]
    rfl
  · split at h
    · exact absurd h (by simp)
    · exact absurd h (by simp)
  · dsimp only at h
    split at h
    · exact absurd h (by simp)
    · rw [← Sum.inl.inj h]
      rfl
  · exact absurd h (by simp)

/-- The tasks of a cached store. -/
def tasks : Program (CachedBlockStore S) Call Stage Outcome where
  start := .started
  step := advance
  call := Stage.call
  call_start _ := rfl
  call_step := call_advance

end Steps

/-! ### What a step does -/

section Race

variable {S : Type} [StoreView S] [CidText] {content : Cid → Bytes} {st st' : CachedBlockStore S}
  {stage : Stage} {out : Stage ⊕ Outcome} {c : Cid} {mid : List (Event Call Outcome)}
  {sys : System (CachedBlockStore S) Stage Outcome} {id : ℕ}

/-- Nothing but the order of the cache and the counters has changed. -/
structure Same (st st' : CachedBlockStore S) : Prop where
  view : view st'.inner = view st.inner
  lookup : ∀ key, st'.cache.lookup key = st.cache.lookup key

/-- **The steps**: what each stage does to the contents, and what comes of it. -/
inductive Advance (st : CachedBlockStore S) : Stage → CachedBlockStore S → Stage ⊕ Outcome → Prop
  | hit {c : Cid} {data : Bytes} {st' : CachedBlockStore S}
      (hlookup : st.cache.lookup (CidText.toString c) = some data) (hsame : Same st st') :
      Advance st (.started (.get c)) st' (.inr (.ok (.block (some ⟨c, data⟩))))
  | missed {c : Cid} {st' : CachedBlockStore S} (hsame : Same st st') :
      Advance st (.started (.get c)) st' (.inl (.missed c))
  | fetched {c : Cid} {b : Block} {st' : CachedBlockStore S} (hblock : blockAt st.inner c = some b)
      (hsame : Same st st') : Advance st (.missed c) st' (.inl (.fetched c b))
  | absent {c : Cid} {st' : CachedBlockStore S} (hsame : Same st st') :
      Advance st (.missed c) st' (.inr (.ok (.block none)))
  | getFailed {c : Cid} {e : Error} {st' : CachedBlockStore S} (hsame : Same st st') :
      Advance st (.missed c) st' (.inr (.error e))
  | filled {c : Cid} {b : Block} :
      Advance st (.fetched c b) (st.offer c b.data) (.inr (.ok (.block (some b))))
  | popped {c : Cid} : Advance st (.started (.delete c)) (st.invalidate c) (.inl (.popped c))
  | deleted {c : Cid} {st' : CachedBlockStore S} (hdeletes : Deletes [c] st.inner st'.inner)
      (hgone : view st'.inner c = none) (hcache : st'.cache = st.cache) :
      Advance st (.popped c) st' (.inr (.ok .done))
  | deleteFailed {c : Cid} {e : Error} {st' : CachedBlockStore S}
      (hdeletes : Deletes [c] st.inner st'.inner) (hcache : st'.cache = st.cache) :
      Advance st (.popped c) st' (.inr (.error e))
  | written {b : Block} {st' : CachedBlockStore S} (hwrites : Writes [b] st.inner st'.inner)
      (hcache : st'.cache = st.cache) : Advance st (.started (.put b)) st' (.inl (.written b))
  | putFailed {b : Block} {e : Error} {st' : CachedBlockStore S}
      (hwrites : Writes [b] st.inner st'.inner) (hcache : st'.cache = st.cache) :
      Advance st (.started (.put b)) st' (.inr (.error e))
  | stored {b : Block} :
      Advance st (.written b) (st.offer b.cid b.data) (.inr (.ok .done))

/-- Each advance is one of these, with one case for each answer of the cache and of the store. -/
theorem advance_spec [BackingStore S] [LawfulBackingStore S] (st : CachedBlockStore S)
    (stage : Stage) : Advance st stage (advance st stage).1 (advance st stage).2 := by
  unfold advance
  split
  · -- a `get` looks into the cache
    next cid =>
    obtain ⟨hvalue, hinner, hlookup⟩ := l1Peek_spec st cid
    split
    · next st₁ data hpeek =>
      rw [hpeek] at hvalue hinner hlookup
      exact .hit hvalue.symm ⟨congrArg view hinner, hlookup⟩
    · next st₁ hpeek =>
      rw [hpeek] at hinner hlookup
      exact .missed ⟨congrArg view hinner, hlookup⟩
  · -- it asks the backing store
    next cid =>
    obtain ⟨hview, hfound⟩ := LawfulBackingStore.get st.inner cid
    split
    · next inner e hget =>
      rw [hget] at hview
      exact .getFailed ⟨hview, fun _ => rfl⟩
    · next inner hget =>
      rw [hget] at hview
      exact .absent ⟨hview, fun _ => rfl⟩
    · next inner block hget =>
      rw [hget] at hview hfound
      exact .fetched (hfound _ rfl).symm ⟨hview, fun _ => rfl⟩
  · exact .filled
  · exact .popped
  · -- a `delete` asks it to delete
    next cid =>
    obtain ⟨hdeletes, hok⟩ := LawfulBackingStore.delete st.inner cid
    split
    · next inner e hdelete =>
      rw [hdelete] at hdeletes
      exact .deleteFailed hdeletes rfl
    · next inner hdelete =>
      rw [hdelete] at hdeletes hok
      exact .deleted hdeletes (hok rfl) rfl
  · -- and a `put` to write
    next block =>
    obtain ⟨hwrites, -⟩ := LawfulBackingStore.put (st.countPuts 1).inner block
    dsimp only
    split
    · next inner e hput =>
      rw [hput] at hwrites
      exact .putFailed hwrites rfl
    · next inner hput =>
      rw [hput] at hwrites
      exact .written hwrites rfl
  · exact .stored

theorem Same.inv (h : Same st st') (hinv : Inv content st) : Inv content st' :=
  hinv.of_same h.view fun key data hdata => by rw [← h.lookup]; exact hdata

/-! ### Runs that nothing disturbs -/

/-- The block of a `put` that has not yet written it. -/
def Pending (c : Cid) : Stage ⊕ Outcome → Prop
  | .inl (.started (.put b)) => b.cid = c
  | _ => False

/-- A block may enter the cache: the backing store has it, and no `delete` has yet to take it out
there. -/
def Current (sys : System (CachedBlockStore S) Stage Outcome) (c : Cid) : Prop :=
  (view sys.shared.inner c).isSome = true ∧ ∀ t ∈ sys.tasks, t ≠ .inl (.popped c)

/-- **Steps that nothing disturbs.** A block that fits enters the cache while it is current; it is
deleted from the backing store while no `put` of it has yet to write it. -/
def Undisturbed (sys : System (CachedBlockStore S) Stage Outcome) : Stage → Prop
  | .fetched c b => b.data.length ≤ sys.shared.maxBlockBytes → Current sys c
  | .written b => b.data.length ≤ sys.shared.maxBlockBytes → Current sys b.cid
  | .popped c => ∀ t ∈ sys.tasks, ¬ Pending c t
  | _ => True

/-- The blocks that are put have the data that their CIDs determine. -/
def Valid (content : Cid → Bytes) (call : Call) : Prop := OpConsistent content call.op

/-- What is known about a task at its stage. -/
def TaskInv (content : Cid → Bytes) (st : CachedBlockStore S) : Stage ⊕ Outcome → Prop
  | .inl (.fetched c b) => b.data = content c
  | .inl (.started (.put b)) => b.data = content b.cid
  | .inl (.written b) => b.data = content b.cid
  | .inl (.popped c) => st.cache.lookup (CidText.toString c) = none
  | _ => True

/-- The invariant of undisturbed runs. -/
structure Sound (content : Cid → Bytes) (sys : System (CachedBlockStore S) Stage Outcome) :
    Prop where
  inv : Inv content sys.shared
  tasks : ∀ t ∈ sys.tasks, TaskInv content sys.shared t

omit [StoreView S] in
/-- What is known about a task stays true while a block that left the cache does not come back. -/
theorem TaskInv.mono {t : Stage ⊕ Outcome} (h : TaskInv content st t)
    (hpopped : ∀ c, t = .inl (.popped c) → st.cache.lookup (CidText.toString c) = none →
      st'.cache.lookup (CidText.toString c) = none) : TaskInv content st' t := by
  unfold TaskInv at h ⊢
  split
  · exact h
  · exact h
  · exact h
  · next c => exact hpopped c rfl h
  · trivial

theorem Sound.step (h : Sound content sys) (hinv : Inv content st') (hout : TaskInv content st' out)
    (hpopped : ∀ c, .inl (.popped c) ∈ sys.tasks →
      sys.shared.cache.lookup (CidText.toString c) = none →
      st'.cache.lookup (CidText.toString c) = none) :
    Sound content ⟨st', sys.tasks.set id out⟩ := by
  refine ⟨hinv, fun t ht => ?_⟩
  rcases List.mem_or_eq_of_mem_set ht with hold | rfl
  · refine (h.tasks t hold).mono fun c heq => ?_
    rw [heq] at hold
    exact hpopped c hold
  · exact hout

/-- A block that has left the cache is deleted, or may have been. -/
theorem Sound.deletes (h : Sound content sys)
    (hnone : sys.shared.cache.lookup (CidText.toString c) = none)
    (hdeletes : Deletes [c] sys.shared.inner st'.inner) (hcache : st'.cache = sys.shared.cache)
    {r : Outcome} : Sound content ⟨st', sys.tasks.set id (.inr r)⟩ := by
  refine h.step (h.inv.of_deletes hdeletes fun c' data hdata => ?_) trivial
    fun c' _ hnone' => by rw [hcache, hnone']
  rw [hcache] at hdata
  refine ⟨fun hmem => ?_, hdata⟩
  rw [List.mem_singleton.mp hmem] at hdata
  exact absurd (hnone.symm.trans hdata) (by simp)

theorem Sound.writes (h : Sound content sys) {b : Block} (hb : b.data = content b.cid)
    (hwrites : Writes [b] sys.shared.inner st'.inner) (hcache : st'.cache = sys.shared.cache)
    (hout : TaskInv content st' out) : Sound content ⟨st', sys.tasks.set id out⟩ := by
  refine h.step (h.inv.of_writes (fun b' hb' => ?_) hwrites hcache) hout
    fun c' _ hnone => by rw [hcache, hnone]
  rw [List.mem_singleton.mp hb']
  exact hb

variable [LawfulCidText]

theorem Sound.offer (h : Sound content sys) {data : Bytes} (hdata : data = content c)
    (hcurrent : data.length ≤ sys.shared.maxBlockBytes → Current sys c) {r : Outcome} :
    Sound content ⟨sys.shared.offer c data, sys.tasks.set id (.inr r)⟩ := by
  by_cases hfits : data.length ≤ sys.shared.maxBlockBytes
  · obtain ⟨hsome, hpopped⟩ := hcurrent hfits
    obtain ⟨data', hview⟩ := Option.isSome_iff_exists.mp hsome
    rw [h.inv.consistent c data' hview, ← hdata] at hview
    refine h.step (h.inv.offer hview) trivial fun c' hc' hnone => ?_
    cases hlookup : (sys.shared.offer c data).cache.lookup (CidText.toString c') with
    | none => rfl
    | some d =>
      -- another block than the one that entered was there before
      unfold CachedBlockStore.offer at hlookup
      rw [if_pos hfits, cache_l1Insert] at hlookup
      rcases Lru.of_lookup_push hlookup with ⟨hkey, -⟩ | ⟨-, hold⟩
      · rw [LawfulCidText.toString_injective hkey] at hc'
        exact absurd rfl (hpopped _ hc')
      · exact absurd (hnone.symm.trans hold) (by simp)
  · have hsame : sys.shared.offer c data = sys.shared := if_neg hfits
    rw [hsame]
    exact h.step h.inv trivial fun _ _ hnone => hnone

/-- **A step that nothing disturbs** keeps the invariant. -/
theorem Sound.advance (h : Sound content sys) (hstage : sys.tasks[id]? = some (.inl stage))
    (hmeets : Undisturbed sys stage) (hadvance : Advance sys.shared stage st' out) :
    Sound content ⟨st', sys.tasks.set id out⟩ := by
  have htask : TaskInv content sys.shared (.inl stage) := h.tasks _ (List.mem_of_getElem? hstage)
  -- most steps change nothing but the order of the cache
  have hkept : ∀ {st' : CachedBlockStore S}, (∀ key, st'.cache.lookup key =
      sys.shared.cache.lookup key) → ∀ c, .inl (.popped c) ∈ sys.tasks →
      sys.shared.cache.lookup (CidText.toString c) = none →
      st'.cache.lookup (CidText.toString c) = none := by
    intro st' hlookup c _ hnone
    rw [hlookup]
    exact hnone
  cases hadvance with
  | hit _ hsame => exact h.step (hsame.inv h.inv) trivial (hkept hsame.lookup)
  | missed hsame => exact h.step (hsame.inv h.inv) trivial (hkept hsame.lookup)
  | @fetched c b st' hblock hsame =>
    refine h.step (hsame.inv h.inv) ?_ (hkept hsame.lookup)
    obtain ⟨data, hview, rfl⟩ := Option.map_eq_some_iff.mp hblock
    exact h.inv.consistent c data hview
  | absent hsame => exact h.step (hsame.inv h.inv) trivial (hkept hsame.lookup)
  | getFailed hsame => exact h.step (hsame.inv h.inv) trivial (hkept hsame.lookup)
  | filled => exact h.offer htask hmeets
  | @popped c =>
    refine h.step (h.inv.of_same rfl fun key data hdata => (Lru.of_lookup_pop hdata).2)
      (Lru.lookup_pop_self _ _) fun c' _ hnone => ?_
    cases hlookup : (sys.shared.invalidate c).cache.lookup (CidText.toString c') with
    | none => rfl
    | some d => exact absurd (hnone.symm.trans (Lru.of_lookup_pop hlookup).2) (by simp)
  | deleted hdeletes _ hcache => exact h.deletes htask hdeletes hcache
  | deleteFailed hdeletes hcache => exact h.deletes htask hdeletes hcache
  | written hwrites hcache => exact h.writes htask hwrites hcache htask
  | putFailed hwrites hcache => exact h.writes htask hwrites hcache trivial
  | stored => exact h.offer htask hmeets

/-! ### After a delete -/

omit [LawfulCidText] in
theorem Advance.gone (h : Advance st stage st' out) (hgone : view st.inner c = none)
    (hput : ¬ Pending c (.inl stage)) : view st'.inner c = none := by
  -- reading, deleting, and writing something else
  have hsame : ∀ {st' : CachedBlockStore S}, Same st st' → view st'.inner c = none := by
    intro st' hsame
    rw [hsame.view, hgone]
  have hdeletes : ∀ {st' : CachedBlockStore S} {c' : Cid}, Deletes [c'] st.inner st'.inner →
      view st'.inner c = none := by
    intro st' c' hdeletes
    rcases hdeletes c with hkept | ⟨-, hnone⟩
    · rw [hkept, hgone]
    · exact hnone
  have hwrites : ∀ {st' : CachedBlockStore S} {b : Block}, b.cid ≠ c →
      Writes [b] st.inner st'.inner → view st'.inner c = none := by
    intro st' b hb hwrites
    rcases hwrites c with hkept | ⟨b', hb', hcid, -⟩
    · rw [hkept, hgone]
    · rw [List.mem_singleton.mp hb'] at hcid
      exact absurd hcid hb
  cases h with
  | hit _ h => exact hsame h
  | missed h => exact hsame h
  | fetched _ h => exact hsame h
  | absent h => exact hsame h
  | getFailed h => exact hsame h
  | filled => rw [inner_offer, hgone]
  | popped => exact hgone
  | deleted h _ _ => exact hdeletes h
  | deleteFailed h _ => exact hdeletes h
  | written h _ => exact hwrites hput h
  | putFailed h _ => exact hwrites hput h
  | stored => rw [inner_offer, hgone]

/-- **The time after a `delete`**: the block is gone, no `put` is about to bring it back, and none
of the `get`s that began since then has fetched it. -/
structure Quiet (c : Cid) (mid : List (Event Call Outcome))
    (sys : System (CachedBlockStore S) Stage Outcome) : Prop where
  gone : view sys.shared.inner c = none
  unwritten : ∀ t ∈ sys.tasks, ¬ Pending c t
  unfetched : ∀ g b, .started g (.get c) ∈ mid → sys.tasks[g]? ≠ some (.inl (.fetched c b))

omit [LawfulCidText] in
theorem Advance.not_pending (h : Advance st stage st' out) : ¬ Pending c out := by
  cases h <;> exact not_false

section Tasks

variable [BackingStore S] [LawfulBackingStore S]

omit [LawfulCidText] in
theorem not_pending_resume (h : ∀ t ∈ sys.tasks, ¬ Pending c t) :
    ∀ t ∈ (resume tasks sys id stage).tasks, ¬ Pending c t := by
  intro t ht
  rcases List.mem_or_eq_of_mem_set ht with hold | rfl
  · exact h t hold
  · exact (advance_spec sys.shared stage).not_pending

omit [LawfulCidText] in
theorem Quiet.of_delete (hcall : stage.call = .delete c) (hmeets : Undisturbed sys stage)
    (hdone : (advance sys.shared stage).2 = .inr (.ok .done)) :
    Quiet c [] (resume tasks sys id stage) := by
  have hadvance := advance_spec sys.shared stage
  have hstage : stage = .popped c ∧ view (advance sys.shared stage).1.inner c = none := by
    rw [hdone] at hadvance
    generalize (advance sys.shared stage).1 = st' at hadvance
    cases hadvance with
    | deleted _ hgone _ =>
      obtain rfl := Call.delete.inj hcall
      exact ⟨rfl, hgone⟩
    | stored => exact absurd hcall (by simp [Stage.call])
  obtain ⟨rfl, hgone⟩ := hstage
  exact ⟨hgone, not_pending_resume hmeets, fun g b hg => absurd hg List.not_mem_nil⟩

omit [CidText] [LawfulCidText] [LawfulBackingStore S] [BackingStore S] in
theorem started_of_mem {call : Call} {t : Stage ⊕ Outcome} {g : ℕ}
    (h : .started g call ∈ mid ++ returns id t) : .started g call ∈ mid := by
  rcases List.mem_append.mp h with hold | hnew
  · exact hold
  · cases t with
    | inl _ => exact absurd hnew List.not_mem_nil
    | inr r => exact absurd (List.mem_singleton.mp hnew) (by simp)

omit [LawfulCidText] [LawfulBackingStore S] in
theorem Quiet.spawn (h : Quiet c mid sys) {call : Call} (hput : ∀ b, call = .put b → b.cid ≠ c) :
    Quiet c (mid ++ [.started sys.tasks.length call]) (spawn tasks sys call) := by
  refine ⟨h.gone, fun t ht => ?_, fun g b hg hfetched => ?_⟩
  · rcases List.mem_append.mp ht with hold | hnew
    · exact h.unwritten t hold
    · rw [List.mem_singleton.mp hnew]
      cases call with
      | get cid => exact not_false
      | delete cid => exact not_false
      | put block => exact hput block rfl
  · rcases getElem?_spawn hfetched with ⟨-, hstarted⟩ | hold
    · exact absurd hstarted (by simp [tasks])
    · rcases List.mem_append.mp hg with hmid | hnew
      · exact h.unfetched g b hmid hold
      · -- the new task has not fetched anything
        obtain ⟨rfl, -⟩ := Event.started.inj (List.mem_singleton.mp hnew)
        exact absurd (List.getElem?_eq_some_iff.mp hold).1 (Nat.lt_irrefl _)

omit [LawfulCidText] in
theorem Quiet.resume (h : Quiet c mid sys) (hstage : sys.tasks[id]? = some (.inl stage)) :
    Quiet c (mid ++ returns id (advance sys.shared stage).2) (resume tasks sys id stage) := by
  have hadvance := advance_spec sys.shared stage
  refine ⟨hadvance.gone h.gone (h.unwritten _ (List.mem_of_getElem? hstage)),
    not_pending_resume h.unwritten, fun g b hg hfetched => ?_⟩
  rcases getElem?_resume hfetched with ⟨-, hout⟩ | ⟨-, hold⟩
  · -- the backing store has nothing to fetch
    have hout' : (advance sys.shared stage).2 = .inl (.fetched c b) := hout.symm
    rw [hout'] at hadvance
    generalize (advance sys.shared stage).1 = st' at hadvance
    cases hadvance with
    | fetched hblock _ =>
      rw [blockAt, h.gone] at hblock
      exact absurd hblock (by simp)
  · exact h.unfetched g b (started_of_mem hg) hold

omit [LawfulCidText] in
/-- **The answer of a `get`** that began after the `delete`. -/
theorem Quiet.answer (h : Quiet c mid sys) (hsound : Sound content sys) {g : ℕ}
    (hg : .started g (.get c) ∈ mid) (hstage : sys.tasks[g]? = some (.inl stage))
    (hcall : stage.call = .get c) {found : Option Block}
    (hfound : (advance sys.shared stage).2 = .inr (.ok (.block found))) : found = none := by
  have hadvance := advance_spec sys.shared stage
  rw [hfound] at hadvance
  generalize (advance sys.shared stage).1 = st' at hadvance
  cases hadvance with
  | @hit c' data st' hlookup _ =>
    -- what is in the cache is in the backing store
    obtain rfl : c' = c := Call.get.inj hcall
    exact absurd (h.gone.symm.trans (hsound.inv.backed c' data hlookup)) (by simp)
  | absent _ => rfl
  | @filled c' b =>
    obtain rfl : c' = c := Call.get.inj hcall
    exact absurd hstage (h.unfetched g b hg)

end Tasks

end Race

/-! ### No stale reads -/

/-- The histories of tasks on a cached store that operations have made of a new one. -/
abbrev TaskRun {S : Type} [StoreView S] [CidText] [BackingStore S] (content : Cid → Bytes)
    (meets : System (CachedBlockStore S) Stage Outcome → Stage → Prop) :
    List (Event Call Outcome) → System (CachedBlockStore S) Stage Outcome → Prop :=
  Interleaving.Run tasks (Run content) (Valid content) meets

/-- **No stale read**: once a `delete` has returned `Ok`, a `get` that starts later finds nothing,
if no `put` of the block has started since then. -/
def NoStaleRead (trace : List (Event Call Outcome)) : Prop :=
  ∀ pre mid post d g c found,
    trace = pre ++ .returned d (.ok .done) :: (mid ++ .returned g (.ok (.block found)) :: post) →
    .started d (.delete c) ∈ pre → .started g (.get c) ∈ mid →
    (∀ p b, .started p (.put b) ∈ mid → b.cid ≠ c) → found = none

section Runs

variable {S : Type} [StoreView S] [CidText] [LawfulCidText] [BackingStore S]
  [LawfulBackingStore S] {content : Cid → Bytes} {trace pre mid : List (Event Call Outcome)}
  {sys : System (CachedBlockStore S) Stage Outcome} {c : Cid} {d : ℕ}

theorem TaskRun.sound (h : TaskRun content Undisturbed trace sys) : Sound content sys := by
  refine Interleaving.Run.invariant (fun st hst => ⟨hst.inv, fun t ht => ?_⟩)
    (fun sys call hsound hvalid => ⟨hsound.inv, fun t ht => ?_⟩)
    (fun sys id stage hsound hstage hmeets => ?_) h
  · exact absurd ht List.not_mem_nil
  · rcases List.mem_append.mp ht with hold | hnew
    · exact hsound.tasks t hold
    · rw [List.mem_singleton.mp hnew]
      cases call with
      | get cid => trivial
      | delete cid => trivial
      | put block => exact hvalid
  · exact hsound.advance hstage hmeets (advance_spec sys.shared stage)

omit [LawfulCidText] in
/-- **After a `delete` of a block has returned**, and while no `put` of it has started. -/
theorem TaskRun.quiet
    (h : TaskRun content Undisturbed (pre ++ .returned d (.ok .done) :: mid) sys)
    (hd : .started d (.delete c) ∈ pre) (hput : ∀ p b, .started p (.put b) ∈ mid → b.cid ≠ c) :
    Quiet c mid sys := by
  refine Interleaving.Run.since
    (Q := fun mid sys => (∀ p b, .started p (.put b) ∈ mid → b.cid ≠ c) → Quiet c mid sys)
    (fun sys stage hrun hstage hmeets hdone _ => ?_)
    (fun mid sys call _ ih _ hput => ?_) (fun mid sys j stage _ ih hstage _ hput => ?_) h hput
  · exact Quiet.of_delete ((hrun.call_eq hd).2 stage hstage) hmeets hdone
  · refine (ih fun p b hp => hput p b (List.mem_append_left _ hp)).spawn fun b hb => ?_
    refine hput sys.tasks.length b (List.mem_append_right _ ?_)
    rw [hb]
    exact List.mem_singleton_self _
  · exact (ih fun p b hp => hput p b (List.mem_append_left _ hp)).resume hstage

/-- **Nothing stale is read** in runs that nothing disturbs. -/
theorem TaskRun.noStaleRead (h : TaskRun content Undisturbed trace sys) : NoStaleRead trace := by
  intro pre mid post d g c found htrace hd hg hput
  have hassoc : trace = (pre ++ .returned d (.ok .done) :: mid) ++
      .returned g (.ok (.block found)) :: post := by
    rw [htrace, List.append_assoc, List.cons_append]
  rw [hassoc] at h
  obtain ⟨sys₀, stage, hrun, hstage, -, hfound⟩ := Interleaving.Run.of_returned h
  have hcall : stage.call = .get c := by
    refine (hrun.call_eq ?_).2 stage hstage
    exact List.mem_append_right _ (List.mem_cons_of_mem _ hg)
  exact (TaskRun.quiet hrun hd hput).answer (TaskRun.sound hrun) hg hstage hcall hfound

end Runs

section Sample

open scoped CidReference

instance (content : Cid → Bytes) (call : Call) : Decidable (Valid content call) :=
  match call with
  | .get _ => inferInstanceAs (Decidable True)
  | .delete _ => inferInstanceAs (Decidable True)
  | .put block => inferInstanceAs (Decidable (block.data = content block.cid))

instance (c : Cid) : DecidablePred (Pending c)
  | .inl (.started (.put b)) => inferInstanceAs (Decidable (b.cid = c))
  | .inl (.started (.get _)) => inferInstanceAs (Decidable False)
  | .inl (.started (.delete _)) => inferInstanceAs (Decidable False)
  | .inl (.missed _) => inferInstanceAs (Decidable False)
  | .inl (.fetched _ _) => inferInstanceAs (Decidable False)
  | .inl (.popped _) => inferInstanceAs (Decidable False)
  | .inl (.written _) => inferInstanceAs (Decidable False)
  | .inr _ => inferInstanceAs (Decidable False)

instance {S : Type} [StoreView S] (sys : System (CachedBlockStore S) Stage Outcome) (c : Cid) :
    Decidable (Current sys c) :=
  inferInstanceAs (Decidable (_ ∧ ∀ t ∈ sys.tasks, t ≠ .inl (.popped c)))

instance {S : Type} [StoreView S] (sys : System (CachedBlockStore S) Stage Outcome)
    (stage : Stage) : Decidable (Undisturbed sys stage) :=
  match stage with
  | .started _ => inferInstanceAs (Decidable True)
  | .missed _ => inferInstanceAs (Decidable True)
  | .fetched c b =>
    inferInstanceAs (Decidable (b.data.length ≤ sys.shared.maxBlockBytes → Current sys c))
  | .popped c => inferInstanceAs (Decidable (∀ t ∈ sys.tasks, ¬ Pending c t))
  | .written b =>
    inferInstanceAs (Decidable (b.data.length ≤ sys.shared.maxBlockBytes → Current sys b.cid))

/-- One block. -/
def sampleBlock [HashCrate] : Block := ⟨Cid.ofData Codec.raw .sha256 [0], [0]⟩

/-- A cached store with one block, which is not in the cache. -/
def sampleStore [HashCrate] : CachedBlockStore MemoryBlockStore :=
  .new (MemoryBlockStore.new.insert sampleBlock) {}

theorem run_sampleStore [HashCrate] : Run (fun _ => [0]) sampleStore := by
  refine .new ?_ {}
  have hempty : Consistent (fun _ => [0]) MemoryBlockStore.new := fun c data h => absurd h (by
    simp [view, MemoryBlockStore.new])
  refine (memory_put MemoryBlockStore.new sampleBlock).1.consistent hempty fun b hb => ?_
  rw [List.mem_singleton.mp hb]
  rfl

/-- **A stale read**: a `get` fetches the block, the block is deleted, the `get` puts it into the
cache, and the next `get` finds it there. -/
theorem not_forall_noStaleRead :
    let _ := CidReference.byteHash
    ¬ ∀ (content : Cid → Bytes) (trace : List (Event Call Outcome))
        (sys : System (CachedBlockStore MemoryBlockStore) Stage Outcome),
        TaskRun content (fun _ _ => True) trace sys → NoStaleRead trace := by
  intro _ h
  let c := sampleBlock.cid
  let found : Outcome := .ok (.block (some sampleBlock))
  have hacts : (acts tasks (Valid fun _ => [0]) (fun _ _ => True) ⟨sampleStore, []⟩
      [.spawn (.get c), .resume 0, .resume 0, .spawn (.delete c), .resume 1, .resume 1, .resume 0,
        .spawn (.get c), .resume 2]).map Prod.fst =
      some [.started 0 (.get c), .started 1 (.delete c), .returned 1 (.ok .done), .returned 0 found,
        .started 2 (.get c), .returned 2 found] := by
    decide +kernel
  obtain ⟨sys, hrun⟩ := Interleaving.Run.of_acts run_sampleStore hacts
  -- the first four events, the two in between, and the last answer
  have hnone := h _ _ sys hrun [.started 0 (.get c), .started 1 (.delete c)]
    [.returned 0 found, .started 2 (.get c)] [] 1 2 c (some sampleBlock) rfl (by simp) (by simp)
    (by simp)
  exact absurd hnone (by simp)

/-- The same calls, where the first `get` puts the block into the cache before it is deleted. -/
theorem TaskRun.noStaleRead_three :
    let _ := CidReference.byteHash
    let c := sampleBlock.cid
    let found : Outcome := .ok (.block (some sampleBlock))
    let trace : List (Event Call Outcome) :=
      [.started 0 (.get c), .started 1 (.delete c), .returned 0 found, .started 2 (.get c),
        .returned 1 (.ok .done), .started 3 (.get c), .returned 2 (.ok (.block none)),
        .returned 3 (.ok (.block none))]
    ∃ sys : System (CachedBlockStore MemoryBlockStore) Stage Outcome,
      TaskRun (fun _ => [0]) Undisturbed trace sys ∧ NoStaleRead trace := by
  intro _ c found trace
  have hacts : (acts tasks (Valid fun _ => [0]) Undisturbed ⟨sampleStore, []⟩
      [.spawn (.get c), .resume 0, .resume 0, .spawn (.delete c), .resume 0, .resume 1,
        .spawn (.get c), .resume 2, .resume 1, .spawn (.get c), .resume 2, .resume 3,
        .resume 3]).map Prod.fst = some trace := by
    decide +kernel
  obtain ⟨sys, hrun⟩ := Interleaving.Run.of_acts run_sampleStore hacts
  exact ⟨sys, hrun, TaskRun.noStaleRead hrun⟩

end Sample

end Ipfrs.CachedStore
