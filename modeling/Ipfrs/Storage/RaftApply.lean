import Ipfrs.Storage.RaftLog

/-!
# Committed entries and a store that fails

`apply_committed_entries` counts an entry as applied before it runs the command, and leaves when the
store fails. It is called again later, and goes on behind the entry that failed.

* `Observed` — a block store with a journal of the operations that it has carried out, and with a
  failure to come: the operation at which the next call of `apply_committed_entries` fails.
* `appliedPrefix_iff` — after every call of a run the store holds what the entries up to
  `last_applied` do to it, each carried out once and in order, if and only if no call meets a
  failure.
-/

namespace Ipfrs.Raft

open RaftNode

/-! ### The operations of a command -/

/-- An operation of a block store that writes. -/
inductive Operation where
  | put (block : Block)
  | delete (cid : Cid)
  deriving DecidableEq

section Operations

variable {S : Type} [BlockStore S] [CidCrate]

def Operation.run (store : S) : Operation → Except Error S
  | .put block => BlockStore.put store block
  | .delete cid => BlockStore.delete store cid

/-- What a command asks of the store. A command whose CID cannot be read asks nothing. -/
def Command.operation : Command → Option Operation
  | .put cidBytes data =>
    (CidCrate.tryFrom cidBytes).toOption.map fun cid => .put { cid := cid, data := data }
  | .delete cidBytes => (CidCrate.tryFrom cidBytes).toOption.map .delete
  | .noOp => none

/-- What the commands of some entries ask of the store, in order. -/
def operations (entries : List LogEntry) : List Operation :=
  entries.filterMap fun entry => entry.command.operation

theorem applyCommand_eq (store : S) (command : Command) :
    applyCommand store command =
      match command.operation with
      | none => .ok store
      | some op => op.run store := by
  cases command with
  | put cidBytes data =>
    rw [Command.operation, applyCommand]
    cases CidCrate.tryFrom cidBytes with
    | ok cid => rfl
    | error e => rfl
  | delete cidBytes =>
    rw [Command.operation, applyCommand]
    cases CidCrate.tryFrom cidBytes with
    | ok cid => rfl
    | error e => rfl
  | noOp => rfl

variable {command : Command} {op : Operation} {entry : LogEntry}

theorem applyCommand_of_none (h : command.operation = none) (store : S) :
    applyCommand store command = .ok store := by
  rw [applyCommand_eq, h]

theorem applyCommand_of_some (h : command.operation = some op) (store : S) :
    applyCommand store command = op.run store := by
  rw [applyCommand_eq, h]

theorem operations_cons_of_none (h : entry.command.operation = none) (entries : List LogEntry) :
    operations (entry :: entries) = operations entries := by
  simp [operations, h]

theorem operations_cons_of_some (h : entry.command.operation = some op) (entries : List LogEntry) :
    operations (entry :: entries) = op :: operations entries := by
  simp [operations, h]

theorem operations_append (entries entries' : List LogEntry) :
    operations (entries ++ entries') = operations entries ++ operations entries' :=
  List.filterMap_append

theorem applyCommands_append (entries entries' : List LogEntry) (store : S) :
    applyCommands (entries ++ entries') store =
      (applyCommands entries store).bind (applyCommands entries') := by
  induction entries generalizing store with
  | nil => rfl
  | cons entry entries ih =>
    rw [List.cons_append, applyCommands, applyCommands]
    cases applyCommand store entry.command with
    | error e => rfl
    | ok store => exact ih store

end Operations

/-! ### A store that is watched -/

/-- A block store with the operations that it has carried out. With `fuse = some (n, e)` it carries
out `n` more, and then fails with `e`. -/
structure Observed (S : Type) where
  store : S
  fuse : Option (ℕ × Error)
  journal : List Operation

namespace Observed

variable {S : Type} [BlockStore S]

/-- An operation has been carried out, with this outcome. -/
def record (s : Observed S) (op : Operation) (store : S) : Observed S where
  store := store
  fuse := s.fuse.map fun (n, e) => (n - 1, e)
  journal := s.journal ++ [op]

def perform (s : Observed S) (op : Operation) : Except Error (Observed S) :=
  match s.fuse with
  | some (0, e) => .error e
  | _ => do return s.record op (← op.run s.store)

instance : BlockStore (Observed S) where
  put s block := s.perform (.put block)
  get s cid := BlockStore.get s.store cid
  has s cid := BlockStore.has s.store cid
  delete s cid := s.perform (.delete cid)
  listCids s := BlockStore.listCids s.store

theorem run_eq_perform (s : Observed S) (op : Operation) : op.run s = s.perform op := by
  cases op with
  | put block => rfl
  | delete cid => rfl

variable {s s' : Observed S} {entries : List LogEntry}

/-- The store carries out an operation unless its time has come, or the store below refuses it. -/
theorem perform_eq_ok_iff {op : Operation} :
    s.perform op = .ok s' ↔ (∀ n e, s.fuse = some (n, e) → 0 < n) ∧
      ∃ store, op.run s.store = .ok store ∧ s' = s.record op store := by
  unfold perform
  split
  · next e hfuse =>
    refine iff_of_false (by simp) fun h => ?_
    exact absurd (h.1 0 e hfuse) (Nat.lt_irrefl 0)
  · next hfuse =>
    have hleft : ∀ n e, s.fuse = some (n, e) → 0 < n := by
      intro n e h
      refine Nat.pos_of_ne_zero ?_
      rintro rfl
      exact hfuse e h
    rw [Except.bind_eq_ok_iff, and_iff_right hleft]
    refine exists_congr fun store => and_congr_right fun _ => ?_
    exact ⟨fun h => (Except.ok.inj h).symm, fun h => congrArg _ h.symm⟩

variable [CidCrate]

theorem applyCommands_ok (h : applyCommands entries s = .ok s') :
    s'.journal = s.journal ++ operations entries ∧
      applyCommands entries s.store = .ok s'.store := by
  induction entries generalizing s with
  | nil =>
    obtain rfl := Except.ok.inj h
    exact ⟨(List.append_nil _).symm, rfl⟩
  | cons entry entries ih =>
    obtain ⟨s₁, happly, hrest⟩ := Except.bind_eq_ok_iff.mp h
    obtain ⟨hjournal, hstore⟩ := ih hrest
    cases hop : entry.command.operation with
    | none =>
      -- nothing is asked of the store, and nothing is written down
      rw [applyCommand_of_none hop] at happly
      obtain rfl := Except.ok.inj happly
      refine ⟨?_, ?_⟩
      · rw [hjournal, operations_cons_of_none hop]
      · rw [applyCommands, applyCommand_of_none hop]
        exact hstore
    | some op =>
      rw [applyCommand_of_some hop, run_eq_perform] at happly
      obtain ⟨-, store, hrun, rfl⟩ := perform_eq_ok_iff.mp happly
      refine ⟨?_, ?_⟩
      · rw [hjournal, operations_cons_of_some hop, List.append_cons]
        rfl
      · rw [applyCommands, applyCommand_of_some hop, hrun]
        exact hstore

/-- **When commands are carried out**: the failure to come is further off, and the store below
refuses none of them. -/
theorem exists_applyCommands_iff :
    (∃ s', applyCommands entries s = .ok s') ↔
      (∀ n e, s.fuse = some (n, e) → (operations entries).length ≤ n) ∧
        ∃ store, applyCommands entries s.store = .ok store := by
  induction entries generalizing s with
  | nil => exact iff_of_true ⟨s, rfl⟩ ⟨fun n _ _ => Nat.zero_le n, s.store, rfl⟩
  | cons entry entries ih =>
    simp only [applyCommands, Except.bind_eq_ok_iff]
    cases hop : entry.command.operation with
    | none =>
      -- the command does not come nearer to the failure
      simp only [applyCommand_of_none hop, operations_cons_of_none hop, Except.ok.injEq,
        exists_eq_left']
      exact ih
    | some op =>
      simp only [applyCommand_of_some hop, run_eq_perform, operations_cons_of_some hop,
        List.length_cons, perform_eq_ok_iff]
      constructor
      · rintro ⟨s', s₁, ⟨hleft, store₁, hrun, rfl⟩, hrest⟩
        obtain ⟨hfuse, store, hstore⟩ := ih.mp ⟨s', hrest⟩
        refine ⟨fun n e hn => ?_, store, store₁, hrun, hstore⟩
        -- one operation nearer to the failure
        have hpos := hleft n e hn
        have hle := hfuse (n - 1) e (by rw [record, hn]; rfl)
        omega
      · rintro ⟨hfuse, store, store₁, hrun, hstore⟩
        have hfuse' : ∀ n e, (s.record op store₁).fuse = some (n, e) →
            (operations entries).length ≤ n := by
          intro n e hn
          obtain ⟨⟨k, e'⟩, hk, heq⟩ := Option.map_eq_some_iff.mp hn
          obtain ⟨rfl, rfl⟩ := Prod.mk.inj heq
          exact Nat.le_sub_one_of_lt (hfuse k e' hk)
        obtain ⟨s', hs'⟩ := ih.mpr ⟨hfuse', store, hstore⟩
        refine ⟨s', _, ⟨fun n e hn => ?_, store₁, hrun, rfl⟩, hs'⟩
        exact (Nat.succ_pos _).trans_le (hfuse n e hn)

end Observed

/-! ### One call -/

/-- The entries behind one index and up to another. -/
def entriesBetween (log : List LogEntry) (first last : ℕ) : List LogEntry :=
  (log.drop first).take (last - first)

theorem entriesBetween_append (log : List LogEntry) {first middle last : ℕ}
    (h : first ≤ middle) (h' : middle ≤ last) :
    entriesBetween log first last =
      entriesBetween log first middle ++ entriesBetween log middle last := by
  have hsum : last - first = (middle - first) + (last - middle) := by omega
  rw [entriesBetween, hsum, List.take_add, List.drop_drop, Nat.add_sub_cancel' h]
  rfl

theorem entriesBetween_succ (log : List LogEntry) (n : ℕ) :
    entriesBetween log n (n + 1) = log[n]?.toList := by
  rw [entriesBetween, Nat.add_sub_cancel_left]
  cases hn : log[n]? with
  | none =>
    rw [List.drop_eq_nil_of_le (List.getElem?_eq_none_iff.mp hn)]
    rfl
  | some entry =>
    obtain ⟨hlt, rfl⟩ := List.getElem?_eq_some_iff.mp hn
    rw [List.drop_eq_getElem_cons hlt]
    rfl

section Calls

variable {S : Type} [BlockStore S] [CidCrate]

/-- **How far a call comes**: it carries out all entries, or it leaves at an entry that counts as
applied. There is no such entry in the log, or its command fails. -/
theorem applyEntries_cases (log : List LogEntry) (n : ℕ) (volatile : VolatileState) (store : S) :
    ∃ k store', applyCommands ((log.drop volatile.lastApplied).take k) store = .ok store' ∧
      (k = n ∧ (applyEntries log n volatile store).1 =
          ({ volatile with lastApplied := volatile.lastApplied + k }, store') ∨
        k < n ∧ (applyEntries log n volatile store).1 =
          ({ volatile with lastApplied := volatile.lastApplied + k + 1 }, store') ∧
        ∀ entry, log[volatile.lastApplied + k]? = some entry →
          ∃ e, applyCommand store' entry.command = .error e) := by
  induction n generalizing volatile store with
  | zero => exact ⟨0, store, rfl, Or.inl ⟨rfl, rfl⟩⟩
  | succ n ih =>
    cases hentry : log[volatile.lastApplied]? with
    | none =>
      -- the log ends before the commit index, and the index has been counted
      refine ⟨0, store, rfl, Or.inr ⟨Nat.succ_pos n, ?_, fun entry h => ?_⟩⟩
      · simp [applyEntries, hentry]
      · rw [Nat.add_zero, hentry] at h
        cases h
    | some entry =>
      cases happly : applyCommand store entry.command with
      | error e =>
        -- the entry counts as applied before its command fails
        refine ⟨0, store, rfl, Or.inr ⟨Nat.succ_pos n, ?_, fun entry' h => ?_⟩⟩
        · simp [applyEntries, hentry, happly]
        · rw [Nat.add_zero, hentry] at h
          obtain rfl := Option.some.inj h
          exact ⟨e, happly⟩
      | ok store₁ =>
        obtain ⟨k, store', hcommands, hstate⟩ :=
          ih { volatile with lastApplied := volatile.lastApplied + 1 } store₁
        have hnext : (applyEntries log (n + 1) volatile store).1 =
            (applyEntries log n { volatile with lastApplied := volatile.lastApplied + 1 }
              store₁).1 := by
          simp [applyEntries, hentry, happly]
        have hshift : volatile.lastApplied + 1 + k = volatile.lastApplied + (k + 1) := by omega
        rw [hnext]
        simp only [hshift] at hstate
        refine ⟨k + 1, store', ?_, ?_⟩
        · obtain ⟨hlt, rfl⟩ := List.getElem?_eq_some_iff.mp hentry
          rw [List.drop_eq_getElem_cons hlt, List.take_succ_cons, applyCommands, happly]
          exact hcommands
        · refine hstate.imp (And.imp_left (congrArg _)) (And.imp_left Nat.succ_lt_succ)

/-! ### Runs -/

/-- One call of `apply_committed_entries`, with the failure that is to come in it. -/
def applyCall (state : RaftNode × Observed S) (fuse : Option (ℕ × Error)) :
    RaftNode × Observed S :=
  (state.1.applyCommittedEntries { state.2 with fuse := fuse }).1

/-- Some calls, one after the other. -/
def applyCalls (node : RaftNode) (store : S) (fuses : List (Option (ℕ × Error))) :
    RaftNode × Observed S :=
  fuses.foldl applyCall (node, ⟨store, none, []⟩)

/-- The store holds what the entries up to `last_applied` do to it, from those that were applied
before the run. Each was carried out once and in order. -/
structure AppliedPrefix (node : RaftNode) (store : S) (state : RaftNode × Observed S) : Prop where
  journal : state.2.journal =
    operations (entriesBetween node.log node.volatile.lastApplied state.1.volatile.lastApplied)
  store : applyCommands
    (entriesBetween node.log node.volatile.lastApplied state.1.volatile.lastApplied) store =
      .ok state.2.store

/-- The entries that a call is to apply can be: the failure to come is further off, and the store
refuses none of the operations. -/
def CanApply (state : RaftNode × Observed S) (fuse : Option (ℕ × Error)) : Prop :=
  let pending := entriesBetween state.1.log state.1.volatile.lastApplied
    state.1.volatile.commitIndex
  (∀ n e, fuse = some (n, e) → (operations pending).length ≤ n) ∧
    ∃ store, applyCommands pending state.2.store = .ok store

/-- What a run does not touch. -/
structure RunInv (node : RaftNode) (state : RaftNode × Observed S) : Prop where
  log : state.1.log = node.log
  lastApplied_le : node.volatile.lastApplied ≤ state.1.volatile.lastApplied

variable {node : RaftNode} {store : S} {state : RaftNode × Observed S} {fuse : Option (ℕ × Error)}

/-- **One call**: it carries out the entries up to some point, which is where nothing is pending any
more, or it leaves there. -/
theorem applyCall_cases (state : RaftNode × Observed S) (fuse : Option (ℕ × Error)) :
    ∃ reached, state.1.volatile.lastApplied ≤ reached ∧
      applyCommands (entriesBetween state.1.log state.1.volatile.lastApplied reached)
        { state.2 with fuse := fuse } = .ok (applyCall state fuse).2 ∧
      (applyCall state fuse).1.log = state.1.log ∧
      (reached - state.1.volatile.lastApplied =
            state.1.volatile.commitIndex - state.1.volatile.lastApplied ∧
          (applyCall state fuse).1.volatile.lastApplied = reached ∨
        reached < state.1.volatile.commitIndex ∧
          (applyCall state fuse).1.volatile.lastApplied = reached + 1 ∧
          ∀ entry, state.1.log[reached]? = some entry →
            ∃ e, applyCommand (applyCall state fuse).2 entry.command = .error e) := by
  obtain ⟨k, store', hcommands, hstate⟩ := applyEntries_cases state.1.log
    (state.1.volatile.commitIndex - state.1.volatile.lastApplied) state.1.volatile
    { state.2 with fuse := fuse }
  refine ⟨state.1.volatile.lastApplied + k, Nat.le_add_right _ _, ?_⟩
  rw [entriesBetween, Nat.add_sub_cancel_left]
  unfold applyCall applyCommittedEntries
  rcases hstate with ⟨hk, heq⟩ | ⟨hk, heq, hfail⟩
  · simp only [heq]
    exact ⟨hcommands, trivial, Or.inl ⟨hk, trivial⟩⟩
  · simp only [heq]
    exact ⟨hcommands, trivial, Or.inr ⟨Nat.add_lt_of_lt_sub' hk, trivial, hfail⟩⟩

theorem RunInv.applyCall (hI : RunInv node state) (fuse : Option (ℕ × Error)) :
    RunInv node (applyCall state fuse) := by
  obtain ⟨reached, hle, -, hlog, ⟨-, hlast⟩ | ⟨-, hlast, -⟩⟩ := applyCall_cases state fuse
  · exact ⟨hlog.trans hI.log, hlast ▸ hI.lastApplied_le.trans hle⟩
  · exact ⟨hlog.trans hI.log, hlast ▸ (hI.lastApplied_le.trans hle).trans (Nat.le_succ _)⟩

theorem AppliedPrefix.extend (hI : RunInv node state) (h : AppliedPrefix node store state)
    {state' : RaftNode × Observed S} {reached : ℕ}
    (hle : state.1.volatile.lastApplied ≤ reached)
    (hcommands : applyCommands (entriesBetween node.log state.1.volatile.lastApplied reached)
      { state.2 with fuse := fuse } = .ok state'.2)
    (hentries : entriesBetween node.log node.volatile.lastApplied state'.1.volatile.lastApplied =
      entriesBetween node.log node.volatile.lastApplied reached) :
    AppliedPrefix node store state' := by
  obtain ⟨hjournal, hstore⟩ := Observed.applyCommands_ok hcommands
  have hsplit := entriesBetween_append node.log hI.lastApplied_le hle
  refine ⟨?_, ?_⟩
  · rw [hentries, hsplit, operations_append, ← h.journal]
    exact hjournal
  · rw [hentries, hsplit, applyCommands_append, h.store]
    exact hstore

/-- **A call keeps the prefix applied if and only if it can apply what is pending.** -/
theorem appliedPrefix_applyCall_iff (hI : RunInv node state) (h : AppliedPrefix node store state) :
    AppliedPrefix node store (applyCall state fuse) ↔ CanApply state fuse := by
  obtain ⟨reached, hle, hcommands, -, hcases⟩ := applyCall_cases state fuse
  unfold CanApply
  rw [hI.log] at hcommands hcases ⊢
  -- whether the pending entries can be applied, on the store that is watched
  refine Iff.trans ?_ (Observed.exists_applyCommands_iff (s := { state.2 with fuse := fuse }))
  obtain ⟨hreached, hlast⟩ | ⟨hlt, hlast, hfail⟩ := hcases
  · -- the call has come to the end of what is pending
    refine iff_of_true (h.extend hI hle hcommands (by rw [hlast])) ⟨(applyCall state fuse).2, ?_⟩
    rw [entriesBetween, ← hreached]
    exact hcommands
  have hpending := entriesBetween_append node.log hle hlt.le
  have hnext := entriesBetween_append node.log (Nat.le_succ reached) hlt
  have hlast' := entriesBetween_append node.log (hI.lastApplied_le.trans hle) (Nat.le_succ reached)
  rw [Nat.succ_eq_add_one, entriesBetween_succ] at hnext hlast'
  cases hentry : node.log[reached]? with
  | none =>
    -- the log ends here, and so do the pending entries
    have hnil : entriesBetween node.log reached state.1.volatile.commitIndex = [] := by
      rw [entriesBetween, List.drop_eq_nil_of_le (List.getElem?_eq_none_iff.mp hentry),
        List.take_nil]
    refine iff_of_true (h.extend hI hle hcommands ?_) ⟨(applyCall state fuse).2, ?_⟩
    · rw [hlast, hlast', hentry]
      exact List.append_nil _
    · rw [hpending, hnil, List.append_nil]
      exact hcommands
  | some entry =>
    obtain ⟨e, herror⟩ := hfail entry hentry
    refine iff_of_false (fun hprefix => ?_) ?_
    · -- the operation counts, and is not in the journal
      obtain ⟨op, hop⟩ : ∃ op, entry.command.operation = some op := by
        refine Option.ne_none_iff_exists'.mp fun hnone => ?_
        rw [applyCommand_of_none hnone] at herror
        cases herror
      have hjournal := hprefix.journal
      rw [(Observed.applyCommands_ok hcommands).1, h.journal, hlast, hlast', hentry,
        entriesBetween_append node.log hI.lastApplied_le hle, operations_append, operations_append]
        at hjournal
      have hlen := congrArg List.length hjournal
      simp [operations, hop] at hlen
    · -- the pending entries begin with those carried out and the one that fails
      rintro ⟨s', hs'⟩
      rw [hpending, hnext, hentry, applyCommands_append, hcommands] at hs'
      have hrest : applyCommands (entry :: entriesBetween node.log (reached + 1)
          state.1.volatile.commitIndex) (applyCall state fuse).2 = .ok s' := hs'
      obtain ⟨s₁, happly, -⟩ := Except.bind_eq_ok_iff.mp hrest
      rw [herror] at happly
      cases happly

theorem runInv_applyCalls (node : RaftNode) (store : S) (fuses : List (Option (ℕ × Error))) :
    RunInv node (applyCalls node store fuses) := by
  induction fuses using List.reverseRecOn with
  | nil => exact ⟨rfl, Nat.le_refl _⟩
  | append_singleton fuses fuse ih =>
    rw [applyCalls, List.foldl_append]
    exact ih.applyCall fuse

/-- **When what counts as applied has been applied.** In every state of a run, the store holds what
the entries up to `last_applied` do to it, each carried out once and in order, if and only if every
call can apply what is pending when it is made. -/
theorem appliedPrefix_iff (node : RaftNode) (store : S) (fuses : List (Option (ℕ × Error))) :
    (∀ calls, calls <+: fuses → AppliedPrefix node store (applyCalls node store calls)) ↔
      ∀ calls fuse, calls ++ [fuse] <+: fuses → CanApply (applyCalls node store calls) fuse := by
  have hcall : ∀ calls fuse, applyCalls node store (calls ++ [fuse]) =
      applyCall (applyCalls node store calls) fuse := by
    intro calls fuse
    rw [applyCalls, List.foldl_append]
    rfl
  constructor
  · intro h calls fuse hprefix
    have hbefore := h calls ((List.prefix_append calls [fuse]).trans hprefix)
    have hafter := h _ hprefix
    rw [hcall] at hafter
    exact (appliedPrefix_applyCall_iff (runInv_applyCalls node store calls) hbefore).mp hafter
  · intro h calls
    induction calls using List.reverseRecOn with
    | nil =>
      -- before the first call there is nothing to be done
      intro _
      refine ⟨?_, ?_⟩
      · change [] = operations (entriesBetween _ _ _)
        rw [entriesBetween, applyCalls, List.foldl_nil, Nat.sub_self, List.take_zero]
        rfl
      · rw [entriesBetween, applyCalls, List.foldl_nil, Nat.sub_self, List.take_zero]
        rfl
    | append_singleton calls fuse ih =>
      intro hprefix
      have hbefore := ih ((List.prefix_append calls [fuse]).trans hprefix)
      rw [hcall]
      exact (appliedPrefix_applyCall_iff (runInv_applyCalls node store calls) hbefore).mpr
        (h calls fuse hprefix)

end Calls

section Sample

open scoped Ipfrs.CidReference

theorem sampleDigest_size_le : (List.replicate 32 (7 : UInt8)).length ≤ 64 := by simp

def sampleBlock : Block :=
  ⟨Cid.newV1 Codec.raw ⟨0x12, List.replicate 32 7, sampleDigest_size_le⟩, [1]⟩

/-- A node that has committed a block. -/
def putNode : RaftNode :=
  { new ⟨1⟩ [] with
    volatile := { commitIndex := 1, lastApplied := 0 }
    log := [⟨1, 1, .put (CidCrate.toBytes sampleBlock.cid) sampleBlock.data⟩] }

/-- The first call fails, and the second one finds nothing to do. -/
def putFuses : List (Option (ℕ × Error)) := [some (0, .storage "disk full"), none]

theorem putNode_operation :
    (Command.put (CidCrate.toBytes sampleBlock.cid) sampleBlock.data).operation =
      some (.put sampleBlock) := by
  rw [Command.operation, LawfulCidCrate.tryFrom_toBytes]
  rfl

theorem applyCalls_putNode : applyCalls putNode MemoryBlockStore.new putFuses =
    ({ putNode with volatile := { commitIndex := 1, lastApplied := 1 } },
      ⟨.new, none, []⟩) := by
  simp [applyCalls, putFuses, applyCall, applyCommittedEntries, applyEntries, putNode,
    applyCommand_of_some putNode_operation, Observed.run_eq_perform, Observed.perform]

/-- **A block that is committed and counts as applied is not in the store.** -/
theorem not_forall_appliedPrefix :
    ¬ ∀ (node : RaftNode) (store : MemoryBlockStore) (fuses : List (Option (ℕ × Error))),
      AppliedPrefix node store (applyCalls node store fuses) := by
  intro hall
  have hstore := (hall putNode .new putFuses).store
  have hput : applyCommands putNode.log MemoryBlockStore.new =
      .ok (MemoryBlockStore.new.insert sampleBlock) := by
    rw [putNode, applyCommands, applyCommand_of_some putNode_operation]
    rfl
  rw [applyCalls_putNode] at hstore
  have hsame : MemoryBlockStore.new.insert sampleBlock = .new :=
    Except.ok.inj (hput.symm.trans hstore)
  have hlookup : (MemoryBlockStore.new.insert sampleBlock).blocks.lookup sampleBlock.cid =
      some sampleBlock := AList.lookup_insert _
  rw [hsame] at hlookup
  cases hlookup

end Sample

end Ipfrs.Raft
