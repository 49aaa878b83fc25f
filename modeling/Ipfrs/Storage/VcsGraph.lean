import Ipfrs.Core.CidReference
import Ipfrs.Lib.StackWalk
import Ipfrs.Storage.Vcs

/-!
# The commit graph

What the searches of `VersionControl` find, and what a merge leaves.

The graph is the one of the store: the parents of a CID are those of the commit that its data decode
to (`parentsAt`), and an ancestor of a commit is what can be reached by parents, the commit itself
included (`Ancestor`). A set of commits with all their parents is a `CommitGraph`; nothing else is
assumed of the store, which may hold other blocks, and other commits that lack parents.

A search is a walk that marks a commit when it is popped, so its loop keeps `StackWalk.PopInv`; the
test has failed at every commit visited before the last one. The searches end since every commit of
the graph is a block of the store, of which there are finitely many.
-/

namespace Ipfrs.Vcs.VersionControl

open StackWalk

variable {S : Type} [StoreView S] [CommitCodec]

/-- The commit that the store holds under a CID. -/
def commitAt (store : S) (cid : Cid) : Option Commit :=
  (view store cid).bind fun data => (CommitCodec.decodeCommit data).toOption

/-- The parents of the commit under a CID. -/
def parentsAt (store : S) (cid : Cid) : List Cid :=
  match commitAt store cid with
  | some commit => commit.parents
  | none => []

/-- `ancestor` can be reached from `cid` by zero or more parent steps. -/
def Ancestor (store : S) (ancestor cid : Cid) : Prop :=
  Relation.ReflTransGen (fun x y => y ∈ parentsAt store x) cid ancestor

/-- A set of commits of the store, with all their parents. -/
structure CommitGraph (store : S) (G : Set Cid) : Prop where
  present : ∀ c ∈ G, ∃ commit, commitAt store c = some commit
  parents : ∀ c ∈ G, ∀ p ∈ parentsAt store c, p ∈ G

variable {store store' : S} {G : Set Cid} {a b c d cid start : Cid} {commit : Commit}
  {found : Cid → Bool} {queue visited : List Cid} {fuel : ℕ}

theorem parentsAt_of_commitAt (h : commitAt store c = some commit) :
    parentsAt store c = commit.parents := by
  rw [parentsAt, h]

theorem Ancestor.refl (store : S) (c : Cid) : Ancestor store c c := Relation.ReflTransGen.refl

theorem Ancestor.trans (hab : Ancestor store a b) (hbc : Ancestor store b c) :
    Ancestor store a c :=
  Relation.ReflTransGen.trans hbc hab

theorem Ancestor.of_parent (h : a ∈ parentsAt store c) : Ancestor store a c :=
  Relation.ReflTransGen.single h

theorem Ancestor.eq_or_parent (h : Ancestor store a c) :
    a = c ∨ ∃ p ∈ parentsAt store c, Ancestor store a p := by
  obtain rfl | ⟨p, hp, hpath⟩ := Relation.ReflTransGen.cases_head h
  · exact Or.inl rfl
  · exact Or.inr ⟨p, hp, hpath⟩

theorem CommitGraph.mem_of_ancestor (hG : CommitGraph store G) (hc : c ∈ G)
    (h : Ancestor store a c) : a ∈ G := by
  unfold Ancestor at h
  induction h with
  | refl => exact hc
  | tail _ hedge ih => exact hG.parents _ ih _ hedge

/-! ### Reading a commit -/

section Load

variable [BlockStore S] [CidText] [LawfulBlockStore S] {what : String}

theorem commitAt_of_loadCommit (h : loadCommit store what cid = .ok commit) :
    ∃ commit', commitAt store cid = some commit' ∧ commit = { commit' with cid := some cid } := by
  unfold loadCommit at h
  cases hget : BlockStore.get store cid with
  | error e =>
    rw [hget] at h
    exact absurd h (by simp)
  | ok found =>
    rw [hget] at h
    cases found with
    | none => exact absurd h (by simp)
    | some block =>
      -- what the store answers is what it holds
      obtain ⟨data, hview, rfl⟩ := Option.map_eq_some_iff.mp (LawfulBlockStore.get_ok hget).symm
      have hread : Commit.fromBlock ⟨cid, data⟩ = .ok commit := h
      unfold Commit.fromBlock at hread
      cases hdecode : CommitCodec.decodeCommit data with
      | error e =>
        rw [hdecode] at hread
        exact absurd hread (by simp)
      | ok commit' =>
        rw [hdecode] at hread
        refine ⟨commit', ?_, (Except.ok.inj hread).symm⟩
        rw [commitAt, hview, Option.bind_some, hdecode]
        rfl

theorem parents_of_loadCommit (h : loadCommit store what cid = .ok commit) :
    commit.parents = parentsAt store cid := by
  obtain ⟨commit', hat, rfl⟩ := commitAt_of_loadCommit h
  rw [parentsAt_of_commitAt hat]

theorem loadCommit_of_commitAt [ReliableBlockStore S] (h : commitAt store cid = some commit)
    (what : String) : loadCommit store what cid = .ok { commit with cid := some cid } := by
  unfold commitAt at h
  obtain ⟨data, hview, hdecode⟩ := Option.bind_eq_some_iff.mp h
  unfold loadCommit
  rw [BlockStore.get_eq, hview, Option.map_some]
  change Commit.fromBlock ⟨cid, data⟩ = _
  unfold Commit.fromBlock
  cases hd : CommitCodec.decodeCommit data with
  | error e =>
    rw [hd] at hdecode
    exact absurd hdecode (by simp [Except.toOption])
  | ok commit' =>
    rw [hd] at hdecode
    obtain rfl : commit' = commit := Option.some.inj hdecode
    rfl

end Load

/-! ### The searches -/

section Search

variable [BlockStore S] [CidText] [LawfulBlockStore S]

/-- What a search knows at the head of its loop. -/
structure WalkInv (store : S) (found : Cid → Bool) (start : Cid) (walk : List Cid × List Cid) :
    Prop where
  pop : PopInv (parentsAt store) [start] walk.1 walk.2
  failed : ∀ c ∈ walk.2, found c = false

omit [BlockStore S] [CidText] [LawfulBlockStore S] in
theorem WalkInv.initial (store : S) (found : Cid → Bool) (start : Cid) :
    WalkInv store found start ([start], []) where
  pop := PopInv.initial _ _
  failed _ hc := absurd hc List.not_mem_nil

omit [BlockStore S] [CidText] [LawfulBlockStore S] in
theorem WalkInv.ancestor (h : WalkInv store found start (c :: queue, visited)) :
    Ancestor store c start := by
  obtain ⟨x, hx, hpath⟩ := h.pop.sound c (Or.inl List.mem_cons_self)
  obtain rfl := List.mem_singleton.mp hx
  exact hpath

/-- **One round** of a search: a visited commit is skipped, or the search ends at a commit that
passes the test, or a commit is read and its parents are pushed, or it cannot be read. -/
theorem walkStep_cons (store : S) (found : Cid → Bool) (c : Cid) (queue visited : List Cid) :
    c ∈ visited ∧ walkStep store found (c :: queue, visited) = .inl (queue, visited) ∨
    c ∉ visited ∧ found c = true ∧
      walkStep store found (c :: queue, visited) = .inr (.ok (some c, visited ++ [c])) ∨
    c ∉ visited ∧ found c = false ∧ (∃ commit, commitAt store c = some commit) ∧
      walkStep store found (c :: queue, visited) =
        .inl ((parentsAt store c).reverse ++ queue, visited ++ [c]) ∨
    c ∉ visited ∧ found c = false ∧ ∃ e, loadCommit store "Commit" c = .error e ∧
      walkStep store found (c :: queue, visited) = .inr (.error e) := by
  unfold walkStep
  dsimp only
  by_cases hvisited : c ∈ visited
  · exact Or.inl ⟨hvisited, if_pos hvisited⟩
  rw [if_neg hvisited]
  refine Or.inr ?_
  cases hfound : found c with
  | true => exact Or.inl ⟨hvisited, rfl, if_pos rfl⟩
  | false =>
    -- the parents are pushed one by one, the last one on top
    rw [if_neg Bool.false_ne_true]
    refine Or.inr ?_
    cases hload : loadCommit store "Commit" c with
    | error e => exact Or.inr ⟨hvisited, rfl, e, rfl, rfl⟩
    | ok commit =>
      obtain ⟨commit', hat, -⟩ := commitAt_of_loadCommit hload
      refine Or.inl ⟨hvisited, rfl, ⟨commit', hat⟩, ?_⟩
      rw [← parents_of_loadCommit hload]

theorem walkStep_eq_inl {walk walk' : List Cid × List Cid}
    (h : walkStep store found walk = .inl walk') :
    ∃ c queue visited, walk = (c :: queue, visited) ∧
      (c ∈ visited ∧ walk' = (queue, visited) ∨
        c ∉ visited ∧ found c = false ∧ (∃ commit, commitAt store c = some commit) ∧
          walk' = ((parentsAt store c).reverse ++ queue, visited ++ [c])) := by
  obtain ⟨_ | ⟨c, queue⟩, visited⟩ := walk
  · exact absurd h (by simp [walkStep])
  refine ⟨c, queue, visited, rfl, ?_⟩
  obtain ⟨hvisited, heq⟩ | ⟨-, -, heq⟩ | ⟨hnew, hfailed, hat, heq⟩ | ⟨-, -, e, -, heq⟩ :=
    walkStep_cons store found c queue visited
  all_goals rw [heq] at h
  · exact Or.inl ⟨hvisited, (Sum.inl.inj h).symm⟩
  · exact absurd h (by simp)
  · exact Or.inr ⟨hnew, hfailed, hat, (Sum.inl.inj h).symm⟩
  · exact absurd h (by simp)

/-- A round that ends the search: the stack is empty, or the commit passes the test, or it cannot be
read. -/
theorem walkStep_eq_inr {walk : List Cid × List Cid}
    {answer : Except Error (Option Cid × List Cid)} (h : walkStep store found walk = .inr answer) :
    (∃ visited, walk = ([], visited) ∧ answer = .ok (none, visited)) ∨
      ∃ c queue visited, walk = (c :: queue, visited) ∧
        (found c = true ∧ answer = .ok (some c, visited ++ [c]) ∨
          ∃ e, loadCommit store "Commit" c = .error e ∧ answer = .error e) := by
  obtain ⟨_ | ⟨c, queue⟩, visited⟩ := walk
  · exact Or.inl ⟨visited, rfl, (Sum.inr.inj h).symm⟩
  refine Or.inr ⟨c, queue, visited, rfl, ?_⟩
  obtain ⟨-, heq⟩ | ⟨-, hfound, heq⟩ | ⟨-, -, -, heq⟩ | ⟨-, -, e, hload, heq⟩ :=
    walkStep_cons store found c queue visited
  all_goals rw [heq] at h
  · exact absurd h (by simp)
  · exact Or.inl ⟨hfound, (Sum.inr.inj h).symm⟩
  · exact absurd h (by simp)
  · exact Or.inr ⟨e, hload, (Sum.inr.inj h).symm⟩

theorem WalkInv.next {walk walk' : List Cid × List Cid} (h : WalkInv store found start walk)
    (hstep : walkStep store found walk = .inl walk') : WalkInv store found start walk' := by
  obtain ⟨c, queue, visited, rfl, ⟨hvisited, rfl⟩ | ⟨hnew, hfailed, -, rfl⟩⟩ :=
    walkStep_eq_inl hstep
  · exact ⟨h.pop.skip hvisited, h.failed⟩
  · refine ⟨h.pop.visit hnew, fun x hx => ?_⟩
    rcases List.mem_append.mp hx with hx | hx
    · exact h.failed x hx
    · rw [List.mem_singleton.mp hx]
      exact hfailed

/-- **What a search finds**: an ancestor of the start that passes the test, or none, and then it has
visited all ancestors and none passes. -/
def WalkFound (store : S) (found : Cid → Bool) (start : Cid) :
    Option Cid × List Cid → Prop
  | (some c, _) => found c = true ∧ Ancestor store c start
  | (none, visited) => (∀ c, c ∈ visited ↔ Ancestor store c start) ∧ ∀ c ∈ visited, found c = false

theorem walkFound_of_walk {result : Option Cid × List Cid}
    (h : walk store found fuel start = some (.ok result)) : WalkFound store found start result := by
  have hends : ∀ r, .ok r = (.ok result : Except Error _) → WalkFound store found start r :=
    WhileLoop.run_inv (WalkInv store found start)
      (fun answer => ∀ r, .ok r = answer → WalkFound store found start r)
      (fun _ _ hI hstep => hI.next hstep)
      (fun walk answer hI hstep r hr => ?_) (WalkInv.initial store found start) h
  · exact hends result rfl
  · subst hr
    obtain ⟨visited, rfl, heq⟩ | ⟨c, queue, visited, rfl, ⟨hfound, heq⟩ | ⟨e, -, heq⟩⟩ :=
      walkStep_eq_inr hstep
    · -- the stack is empty, so all ancestors have been visited
      obtain rfl := Except.ok.inj heq
      refine ⟨fun c => ?_, hI.failed⟩
      rw [hI.pop.mem_trail_iff]
      simp [Ancestor]
    · obtain rfl := Except.ok.inj heq
      exact ⟨hfound, hI.ancestor⟩
    · exact absurd heq (by simp)

variable [ReliableBlockStore S]

theorem CommitGraph.walk_ne_error (hG : CommitGraph store G) (hstart : start ∈ G) {e : Error} :
    walk store found fuel start ≠ some (.error e) := by
  intro h
  have hends : ∀ e', (.error e : Except Error (Option Cid × List Cid)) ≠ .error e' :=
    WhileLoop.run_inv (WalkInv store found start) (fun answer => ∀ e', answer ≠ .error e')
      (fun _ _ hI hstep => hI.next hstep)
      (fun walk answer hI hstep e' he => ?_) (WalkInv.initial store found start) h
  · exact hends e rfl
  · subst he
    obtain ⟨visited, -, heq⟩ | ⟨c, queue, visited, rfl, ⟨-, heq⟩ | ⟨e', hload, -⟩⟩ :=
      walkStep_eq_inr hstep
    · exact absurd heq (by simp)
    · exact absurd heq (by simp)
    · -- the commit is in the graph, so it can be read
      obtain ⟨commit, hat⟩ := hG.present c (hG.mem_of_ancestor hstart hI.ancestor)
      rw [loadCommit_of_commitAt hat] at hload
      exact absurd hload (by simp)

omit [ReliableBlockStore S] in
/-- **A search ends.** The commits that are read are blocks of the store. -/
theorem exists_walk (store : S) (found : Cid → Bool) (start : Cid) :
    ∃ fuel r, walk store found fuel start = some r := by
  let U := (LawfulBlockStore.finite store).toFinset
  -- only blocks of the store are read
  have hU : ∀ c commit, commitAt store c = some commit → c ∈ U := by
    intro c commit hat
    obtain ⟨data, hview, -⟩ := Option.bind_eq_some_iff.mp hat
    refine (Set.Finite.mem_toFinset _).mpr ?_
    show (view store c).isSome
    rw [hview]
    rfl
  have hends : ∃ r, WhileLoop.run (walkStep store found) _ ([start], []) = some r :=
    WhileLoop.run_of_measure (WalkInv store found start)
    (fun walk => popMeasure (parentsAt store) U walk.2.toFinset walk.1)
    (fun walk walk' hI hstep => ⟨hI.next hstep, ?_⟩) (WalkInv.initial store found start)
  · obtain ⟨r, hr⟩ := hends
    exact ⟨_, r, hr⟩
  · -- the stack shrinks, or a block of the store is visited for the first time
    obtain ⟨c, queue, visited, rfl, ⟨-, rfl⟩ | ⟨hnew, -, ⟨commit, hat⟩, rfl⟩⟩ :=
      walkStep_eq_inl hstep
    · exact Nat.add_lt_add_left (Nat.lt_succ_self _) _
    · have hinsert : (visited ++ [c]).toFinset = insert c visited.toFinset := by
        rw [List.toFinset_append, Finset.union_comm]
        rfl
      dsimp only
      rw [hinsert]
      exact popMeasure_lt (hU c commit hat) (fun hmem => hnew (List.mem_toFinset.mp hmem))

omit [StoreView S] [LawfulBlockStore S] [ReliableBlockStore S] in
theorem walk_unique {fuel fuel' : ℕ} {r r' : Except Error (Option Cid × List Cid)}
    (h : walk store found fuel start = some r) (h' : walk store found fuel' start = some r') :
    r = r' :=
  WhileLoop.Returns.unique ⟨fuel, h⟩ ⟨fuel', h'⟩

theorem CommitGraph.exists_walk (hG : CommitGraph store G) (hstart : start ∈ G)
    (found : Cid → Bool) :
    ∃ fuel result, walk store found fuel start = some (.ok result) ∧
      WalkFound store found start result := by
  obtain ⟨fuel, r, hr⟩ := VersionControl.exists_walk store found start
  cases r with
  | error e => exact absurd hr (hG.walk_ne_error hstart)
  | ok result => exact ⟨fuel, result, hr, walkFound_of_walk hr⟩

end Search

/-! ### The queries -/

section Queries

variable [BlockStore S] [CidText] [LawfulBlockStore S] {vc : VersionControl S}

/-- A positive answer of `is_ancestor` is right, over any graph. -/
theorem ancestor_of_isAncestor (h : vc.isAncestor fuel a d = some (.ok true)) :
    Ancestor vc.store a d := by
  unfold isAncestor at h
  split at h
  · next heq =>
    rw [heq]
    exact .refl _ _
  · cases hwalk : walk vc.store (fun cid => cid = a) fuel d with
    | none =>
      rw [hwalk] at h
      exact absurd h (by simp)
    | some answer =>
      rw [hwalk] at h
      cases answer with
      | error e => exact absurd h (by simp)
      | ok result =>
        obtain ⟨_ | c, visited⟩ := result
        · exact absurd h (by simp)
        · obtain ⟨hfound, hpath⟩ := walkFound_of_walk hwalk
          rw [← of_decide_eq_true hfound]
          exact hpath

variable [ReliableBlockStore S]

/-- **`is_ancestor` decides ancestry**, over a commit graph. -/
theorem CommitGraph.isAncestor (hG : CommitGraph vc.store G) (hd : d ∈ G) (a : Cid) :
    ∃ answer : Bool, (answer = true ↔ Ancestor vc.store a d) ∧
      (∃ fuel, vc.isAncestor fuel a d = some (.ok answer)) ∧
      ∀ fuel r, vc.isAncestor fuel a d = some r → r = .ok answer := by
  unfold VersionControl.isAncestor
  by_cases heq : a = d
  · refine ⟨true, ⟨fun _ => heq ▸ .refl _ _, fun _ => rfl⟩, ⟨0, if_pos heq⟩, fun fuel r hr => ?_⟩
    rw [if_pos heq] at hr
    exact (Option.some.inj hr).symm
  obtain ⟨fuel, result, hwalk, hfound⟩ := hG.exists_walk hd fun cid => cid = a
  refine ⟨result.1.isSome, ?_, ⟨fuel, ?_⟩, fun fuel' r hr => ?_⟩
  · obtain ⟨_ | c, visited⟩ := result
    · -- all ancestors have been visited, and `a` was not among them
      obtain ⟨hall, hnot⟩ := hfound
      refine ⟨fun h => absurd h Bool.false_ne_true, fun hpath => ?_⟩
      have hmem := (hall a).mpr hpath
      exact absurd (hnot a hmem) (by simp)
    · obtain ⟨hfound, hpath⟩ := hfound
      rw [← of_decide_eq_true hfound]
      exact ⟨fun _ => hpath, fun _ => rfl⟩
  · rw [if_neg heq, hwalk]
  · rw [if_neg heq] at hr
    cases hwalk' : walk vc.store (fun cid => cid = a) fuel' d with
    | none =>
      rw [hwalk'] at hr
      exact absurd hr (by simp)
    | some answer =>
      obtain rfl := walk_unique hwalk' hwalk
      rw [hwalk'] at hr
      exact (Option.some.inj hr).symm

/-- What `find_common_ancestor` is asked for: a common ancestor, or none when there is none. -/
def CommonAncestor (store : S) (c d : Cid) : Option Cid → Prop
  | some a => Ancestor store a c ∧ Ancestor store a d
  | none => ¬ ∃ a, Ancestor store a c ∧ Ancestor store a d

/-- **`find_common_ancestor` finds a common ancestor** whenever there is one, over a commit
graph. -/
theorem CommitGraph.findCommonAncestor (hG : CommitGraph vc.store G) (hc : c ∈ G) (hd : d ∈ G) :
    ∃ answer, CommonAncestor vc.store c d answer ∧
      (∃ fuel, vc.findCommonAncestor fuel c d = some (.ok answer)) ∧
      ∀ fuel r, vc.findCommonAncestor fuel c d = some r → r = .ok answer := by
  -- the first search fails nowhere, so it visits all ancestors of `c`
  obtain ⟨fuel₁, ⟨found₁, ancestors₁⟩, hwalk₁, hfound₁⟩ := hG.exists_walk hc fun _ => false
  have hancestors : ∀ a, a ∈ ancestors₁ ↔ Ancestor vc.store a c := by
    cases found₁ with
    | some a => exact absurd hfound₁.1 Bool.false_ne_true
    | none => exact hfound₁.1
  obtain ⟨fuel₂, ⟨answer, visited⟩, hwalk₂, hfound₂⟩ :=
    hG.exists_walk hd fun cid => cid ∈ ancestors₁
  refine ⟨answer, ?_, ⟨max fuel₁ fuel₂, ?_⟩, fun fuel r hr => ?_⟩
  · cases answer with
    | some a =>
      obtain ⟨hmem, hpath⟩ := hfound₂
      exact ⟨(hancestors a).mp (of_decide_eq_true hmem), hpath⟩
    | none =>
      rintro ⟨a, hac, had⟩
      obtain ⟨hall, hnot⟩ := hfound₂
      have hmem := (hancestors a).mpr hac
      exact absurd (hnot a ((hall a).mpr had)) (by simp [hmem])
  · unfold VersionControl.findCommonAncestor
    have hwalk₁' : walk vc.store (fun _ => false) (max fuel₁ fuel₂) c = _ :=
      WhileLoop.run_mono (le_max_left fuel₁ fuel₂) hwalk₁
    have hwalk₂' : walk vc.store (fun cid => cid ∈ ancestors₁) (max fuel₁ fuel₂) d = _ :=
      WhileLoop.run_mono (le_max_right fuel₁ fuel₂) hwalk₂
    rw [hwalk₁']
    dsimp only
    rw [hwalk₂']
  · unfold VersionControl.findCommonAncestor at hr
    cases hwalk₁' : walk vc.store (fun _ => false) fuel c with
    | none =>
      rw [hwalk₁'] at hr
      exact absurd hr (by simp)
    | some answer₁ =>
      obtain rfl := walk_unique hwalk₁' hwalk₁
      rw [hwalk₁'] at hr
      dsimp only at hr
      cases hwalk₂' : walk vc.store (fun cid => cid ∈ ancestors₁) fuel d with
      | none =>
        rw [hwalk₂'] at hr
        exact absurd hr (by simp)
      | some answer₂ =>
        obtain rfl := walk_unique hwalk₂' hwalk₂
        rw [hwalk₂'] at hr
        exact (Option.some.inj hr).symm

end Queries

/-! ### Writing a commit -/

section Write

variable [BlockStore S] [LawfulBlockStore S] [HashCrate] [LawfulCommitCodec] {D : Set Bytes}
  {block : Block}

/-- The data that a commit or a ref is encoded to are among `D`. -/
def Within (D : Set Bytes) : Except String Bytes → Prop
  | .ok bytes => bytes ∈ D
  | .error _ => True

omit [StoreView S] [LawfulCommitCodec] in
theorem toBlock_eq_ok (h : commit.toBlock = .ok block)
    (hD : Within D (CommitCodec.encodeCommit commit)) :
    ∃ bytes ∈ D, CommitCodec.encodeCommit commit = .ok bytes ∧
      block = ⟨Cid.ofData Codec.raw .sha256 bytes, bytes⟩ := by
  unfold Commit.toBlock at h
  cases hencode : CommitCodec.encodeCommit commit with
  | error e =>
    rw [hencode] at h
    exact absurd h (by simp)
  | ok bytes =>
    rw [hencode] at h hD
    obtain ⟨-, rfl⟩ := Block.new_eq_ok.mp h
    exact ⟨bytes, hD, rfl, rfl⟩

omit [StoreView S] in
theorem finalize_eq_ok {commit' : Commit} (h : commit.finalize = .ok (commit', cid)) :
    ∃ block, commit.toBlock = .ok block ∧ commit'.toBlock = .ok block ∧ block.cid = cid := by
  unfold Commit.finalize at h
  cases hblock : commit.toBlock with
  | error e =>
    rw [hblock] at h
    exact absurd h (by simp)
  | ok block =>
    rw [hblock] at h
    obtain ⟨rfl, rfl⟩ := Prod.mk.inj (Except.ok.inj h)
    refine ⟨block, rfl, ?_, rfl⟩
    rw [← hblock]
    unfold Commit.toBlock
    rw [LawfulCommitCodec.encode_skip]

/-- **A commit that was put is there**, with its parents. -/
theorem parentsAt_put (h : StoresOwn D store) (hblock : commit.toBlock = .ok block)
    (hD : Within D (CommitCodec.encodeCommit commit))
    (hput : BlockStore.put store block = .ok store') :
    parentsAt store' block.cid = commit.parents := by
  obtain ⟨bytes, hbytes, hencode, rfl⟩ := toBlock_eq_ok hblock hD
  obtain ⟨commit', hdecode, hsame⟩ := LawfulCommitCodec.decode_encode hencode
  have hat : commitAt store' (Cid.ofData Codec.raw .sha256 bytes) = some commit' := by
    rw [commitAt, (h bytes hbytes).view_put hput, Option.bind_some, hdecode]
    rfl
  rw [parentsAt_of_commitAt hat, hsame.parents]

omit [LawfulCommitCodec] [HashCrate] in
theorem Ancestor.put (hfits : Fits store block) (hput : BlockStore.put store block = .ok store')
    (hpath : Ancestor store a c) : Ancestor store' a c := by
  refine Relation.ReflTransGen.mono (fun x y hedge => ?_) _ _ hpath
  have hedge : y ∈ parentsAt store x := hedge
  unfold parentsAt at hedge ⊢
  cases hat : commitAt store x with
  | none =>
    rw [hat] at hedge
    exact absurd hedge List.not_mem_nil
  | some commit =>
    -- the block of the commit is still there
    obtain ⟨data, hview, hdecode⟩ := Option.bind_eq_some_iff.mp hat
    have hat' : commitAt store' x = some commit := by
      rw [commitAt, hfits.view_mono hput hview]
      exact hdecode
    rw [hat] at hedge
    rw [hat']
    exact hedge

end Write

/-! ### Merging -/

section Merge

variable [BlockStore S] [LawfulBlockStore S] [HashCrate] [LawfulCommitCodec] [CidText]
  {D : Set Bytes} {vc vc' : VersionControl S} {branchCid headCid : Cid} {message : String}
  {author : Author} {strategy : MergeStrategy} {now : UInt64}

/-- **What a merge that succeeds does**: nothing, when HEAD is the branch; or HEAD and the current
branch move to the branch, which has HEAD as an ancestor; or a merge commit of the two is put, and
they move there. -/
theorem merge_eq_ok {result : MergeResult} (hhead : vc.head = some headCid)
    (h : vc.merge fuel branchCid message author strategy now = some (vc', .ok result)) :
    headCid = branchCid ∧ vc' = vc ∨
    headCid ≠ branchCid ∧ Ancestor vc.store headCid branchCid ∧
      vc' = vc.moveTo vc.store branchCid ∨
    headCid ≠ branchCid ∧ ∃ headCommit branchCommit block store,
      loadCommit vc.store "HEAD commit" headCid = .ok headCommit ∧
      loadCommit vc.store "Branch commit" branchCid = .ok branchCommit ∧
      (mergeCommit headCid branchCid headCommit branchCommit message author strategy
        now).toBlock = .ok block ∧
      BlockStore.put vc.store block = .ok store ∧ vc' = vc.moveTo store block.cid := by
  unfold merge at h
  rw [hhead] at h
  dsimp only at h
  split at h
  · next heq => exact Or.inl ⟨heq, (Prod.mk.inj (Option.some.inj h)).1.symm⟩
  next hne =>
  refine Or.inr ?_
  cases hancestor : vc.isAncestor fuel headCid branchCid with
  | none =>
    rw [hancestor] at h
    exact absurd h (by simp)
  | some answer =>
    rw [hancestor] at h
    match answer with
    | .error e => exact absurd h (by simp)
    | .ok true =>
      -- a fast-forward
      refine Or.inl ⟨hne, ancestor_of_isAncestor hancestor, ?_⟩
      exact (Prod.mk.inj (Option.some.inj h)).1.symm
    | .ok false =>
      -- both commits are read, and the merge commit is finalized, encoded again and put
      refine Or.inr ⟨hne, ?_⟩
      dsimp only at h
      split at h
      · exact absurd h (by simp)
      split at h
      · exact absurd h (by simp)
      next headCommit hheadCommit =>
      split at h
      · exact absurd h (by simp)
      next branchCommit hbranchCommit =>
      split at h
      · exact absurd h (by simp)
      next commit mergeCid hfinalize =>
      obtain ⟨block, hblock, hblock', rfl⟩ := finalize_eq_ok hfinalize
      rw [hblock'] at h
      dsimp only at h
      split at h
      · exact absurd h (by simp)
      next store hput =>
      refine ⟨headCommit, branchCommit, block, store, hheadCommit, hbranchCommit, hblock, hput, ?_⟩
      exact (Prod.mk.inj (Option.some.inj h)).1.symm

omit [StoreView S] [LawfulBlockStore S] [LawfulCommitCodec] in
theorem eq_of_merge_error {e : Error}
    (h : vc.merge fuel branchCid message author strategy now = some (vc', .error e)) :
    vc' = vc := by
  unfold merge at h
  split at h
  · exact (Prod.mk.inj (Option.some.inj h)).1.symm
  split at h
  · exact (Prod.mk.inj (Option.some.inj h)).1.symm
  split at h
  · exact absurd h (by simp)
  · exact (Prod.mk.inj (Option.some.inj h)).1.symm
  · exact absurd (Prod.mk.inj (Option.some.inj h)).2 (by simp)
  -- the branches have diverged
  repeat' (split at h; exact (Prod.mk.inj (Option.some.inj h)).1.symm)
  exact absurd (Prod.mk.inj (Option.some.inj h)).2 (by simp)

/-- The merge commits that `merge` may make are encoded within `D`. -/
def MergeWithin (D : Set Bytes) (store : S) (headCid branchCid : Cid) (message : String)
    (author : Author) (strategy : MergeStrategy) (now : UInt64) : Prop :=
  ∀ headCommit branchCommit, loadCommit store "HEAD commit" headCid = .ok headCommit →
    loadCommit store "Branch commit" branchCid = .ok branchCommit →
      Within D (CommitCodec.encodeCommit
        (mergeCommit headCid branchCid headCommit branchCommit message author strategy now))

/-- **After a merge**, HEAD has the old HEAD and the merged commit as ancestors. -/
theorem ancestors_of_merge (hstore : StoresOwn D vc.store) (hhead : vc.head = some headCid)
    (hD : MergeWithin D vc.store headCid branchCid message author strategy now)
    {result : MergeResult}
    (h : vc.merge fuel branchCid message author strategy now = some (vc', .ok result)) :
    ∃ newHead, vc'.head = some newHead ∧ Ancestor vc'.store headCid newHead ∧
      Ancestor vc'.store branchCid newHead := by
  obtain ⟨rfl, rfl⟩ | ⟨-, hancestor, rfl⟩ |
    ⟨-, headCommit, branchCommit, block, store, hheadCommit, hbranchCommit, hblock, hput, rfl⟩ :=
    merge_eq_ok hhead h
  · exact ⟨headCid, hhead, .refl _ _, .refl _ _⟩
  · exact ⟨branchCid, rfl, hancestor, .refl _ _⟩
  · -- the parents of the merge commit
    have hparents : parentsAt store block.cid = [headCid, branchCid] :=
      parentsAt_put hstore hblock (hD _ _ hheadCommit hbranchCommit) hput
    refine ⟨block.cid, rfl, Ancestor.of_parent ?_, Ancestor.of_parent ?_⟩
    · show headCid ∈ parentsAt store block.cid
      rw [hparents]
      exact List.mem_cons_self
    · show branchCid ∈ parentsAt store block.cid
      rw [hparents]
      exact List.mem_cons_of_mem _ List.mem_cons_self

omit [LawfulCommitCodec] in
theorem CommitGraph.exists_merge [ReliableBlockStore S] (hG : CommitGraph vc.store G)
    (hbranch : branchCid ∈ G) (message : String) (author : Author) (strategy : MergeStrategy)
    (now : UInt64) : ∃ fuel r, vc.merge fuel branchCid message author strategy now = some r := by
  suffices hsome : ∃ fuel, (vc.merge fuel branchCid message author strategy now).isSome by
    obtain ⟨fuel, hfuel⟩ := hsome
    exact ⟨fuel, Option.isSome_iff_exists.mp hfuel⟩
  unfold merge
  cases hhead : vc.head with
  | none => exact ⟨0, rfl⟩
  | some headCid =>
    obtain ⟨answer, -, ⟨fuel, hanswer⟩, -⟩ := hG.isAncestor hbranch headCid
    refine ⟨fuel, ?_⟩
    dsimp only
    rw [hanswer]
    split
    · rfl
    cases answer with
    | true => rfl
    | false =>
      dsimp only
      split
      · rfl
      · -- whatever fails on the way, it returns
        repeat' (split; rfl)
        rfl

/-- **Queries and merges.** Over a commit graph, with all parents present, `is_ancestor` decides
ancestry and `find_common_ancestor` finds a common ancestor whenever there is one; and a merge
returns, and when it succeeds the old HEAD and the merged commit are ancestors of the new HEAD. -/
theorem CommitGraph.correct [ReliableBlockStore S] (hG : CommitGraph vc.store G) :
    (∀ a, ∀ d ∈ G, ∃ answer : Bool, (answer = true ↔ Ancestor vc.store a d) ∧
      (∃ fuel, vc.isAncestor fuel a d = some (.ok answer)) ∧
      ∀ fuel r, vc.isAncestor fuel a d = some r → r = .ok answer) ∧
    (∀ c ∈ G, ∀ d ∈ G, ∃ answer, CommonAncestor vc.store c d answer ∧
      (∃ fuel, vc.findCommonAncestor fuel c d = some (.ok answer)) ∧
      ∀ fuel r, vc.findCommonAncestor fuel c d = some r → r = .ok answer) ∧
    ∀ headCid, vc.head = some headCid → ∀ branchCid ∈ G, ∀ message author strategy now,
      (∃ fuel r, vc.merge fuel branchCid message author strategy now = some r) ∧
      ∀ D, StoresOwn D vc.store →
        MergeWithin D vc.store headCid branchCid message author strategy now →
        ∀ fuel vc' result,
          vc.merge fuel branchCid message author strategy now = some (vc', .ok result) →
          ∃ newHead, vc'.head = some newHead ∧ Ancestor vc'.store headCid newHead ∧
            Ancestor vc'.store branchCid newHead := by
  refine ⟨fun a d hd => hG.isAncestor hd a, fun c hc d hd => hG.findCommonAncestor hc hd,
    fun headCid hhead branchCid hbranch message author strategy now =>
      ⟨hG.exists_merge hbranch message author strategy now, ?_⟩⟩
  intro D hstore hD fuel vc' result hmerge
  exact ancestors_of_merge hstore hhead hD hmerge

end Merge

end Ipfrs.Vcs.VersionControl

/-! ### A small repository -/

namespace Ipfrs.Vcs.Sample

/-- The CID of a raw block, from its digest. -/
def rawOf (digest : Bytes) (h : digest.length ≤ 64) : Cid := Cid.newV1 Codec.raw ⟨0x12, digest, h⟩

def rootDigest : Bytes :=
  BigEndian.encode 32 0x6e340b9cffb37a989ca544e6bb780a2c78901d3fb33738768511a30617afa01d

def firstDigest : Bytes :=
  BigEndian.encode 32 0x03d0bb24082597e60c4a5434d42607a8e299baa56de1e164647fe9da7101f820

def secondDigest : Bytes :=
  BigEndian.encode 32 0x23bc02f066b917fef6c46e1c75df962299ac930f622be17308feb8fafe2b5a15

def thirdDigest : Bytes :=
  BigEndian.encode 32 0x3f2b32b43aa9d83acec3111ad717bde0eec864a151a66e41da5ef25bdd6aca7f

def rootCid : Cid := rawOf rootDigest (by decide)
def firstCid : Cid := rawOf firstDigest (by decide)
def secondCid : Cid := rawOf secondDigest (by decide)
def thirdCid : Cid := rawOf thirdDigest (by decide)

def author : Author := ⟨"a", "a@b"⟩

def firstCommit : Commit := .new [] rootCid "first" author ∅ 1700000000
def secondCommit : Commit := .new [firstCid] rootCid "second" author ∅ 1700000000
def thirdCommit : Commit := .new [firstCid] rootCid "third" author ∅ 1700000000

/-- A string of fewer than 251 ASCII characters. -/
def text (s : String) : Bytes := s.length.toUInt8 :: s.toList.map fun ch => ch.toNat.toUInt8

/-- The bytes of a version 1 raw SHA2-256 CID. -/
def cidBytes (c : Cid) : Bytes := 36 :: 0x01 :: 0x55 :: 0x12 :: 0x20 :: c.hash.digest

/-- The encoding of one of the three commits. -/
def commitBytes (c : Commit) : Bytes :=
  c.parents.length.toUInt8 :: c.parents.flatMap cidBytes ++ cidBytes c.root ++ text c.message
    ++ text c.author.name ++ text c.author.email ++ [0xfc, 0x00, 0xf1, 0x53, 0x65, 0x00]

def refBytes (r : Ref) : Bytes :=
  text r.name ++ cidBytes r.commit ++ [if r.refType = .branch then 0 else 1]

/-- What is encoded, of a commit. -/
def contents (c : Commit) :
    (List Cid × Cid × String) × Author × UInt64 × List (String × String) :=
  ((c.parents, c.root, c.message), c.author, c.timestamp,
    c.metadata.entries.map fun entry => (entry.1, entry.2))

/-- The encoding on these commits. -/
@[reducible]
def codec : CommitCodec where
  encodeCommit c :=
    if contents c = contents firstCommit then .ok (commitBytes firstCommit)
    else if contents c = contents secondCommit then .ok (commitBytes secondCommit)
    else if contents c = contents thirdCommit then .ok (commitBytes thirdCommit)
    else .error "not a sample"
  decodeCommit data :=
    if data = commitBytes firstCommit then .ok firstCommit
    else if data = commitBytes secondCommit then .ok secondCommit
    else if data = commitBytes thirdCommit then .ok thirdCommit
    else .error "not a sample"
  encodeRef r := .ok (refBytes r)

theorem second_ne_first : commitBytes secondCommit ≠ commitBytes firstCommit := by decide +kernel
theorem third_ne_first : commitBytes thirdCommit ≠ commitBytes firstCommit := by decide +kernel
theorem third_ne_second : commitBytes thirdCommit ≠ commitBytes secondCommit := by decide +kernel

theorem decode_first : codec.decodeCommit (commitBytes firstCommit) = .ok firstCommit := if_pos rfl

theorem decode_second : codec.decodeCommit (commitBytes secondCommit) = .ok secondCommit :=
  (if_neg second_ne_first).trans (if_pos rfl)

theorem decode_third : codec.decodeCommit (commitBytes thirdCommit) = .ok thirdCommit :=
  (if_neg third_ne_first).trans ((if_neg third_ne_second).trans (if_pos rfl))

theorem commitAt_of_view {store : MemoryBlockStore} {cid : Cid} {data : Bytes} {c : Commit}
    (hview : view store cid = some data) (hdecode : codec.decodeCommit data = .ok c) :
    let _ := codec
    VersionControl.commitAt store cid = some c := by
  intro _
  rw [VersionControl.commitAt, hview, Option.bind_some]
  change (codec.decodeCommit data).toOption = _
  rw [hdecode]
  rfl

theorem same_of_contents {c c' : Commit} (h : contents c = contents c') : c'.Same c := by
  simp only [contents, Prod.mk.injEq] at h
  obtain ⟨⟨hparents, hroot, hmessage⟩, hauthor, htimestamp, hmetadata⟩ := h
  refine ⟨hparents.symm, hroot.symm, hmessage.symm, hauthor.symm, htimestamp.symm, fun key => ?_⟩
  have hinjective : Function.Injective fun entry : Sigma fun _ : String => String =>
      (entry.1, entry.2) := by
    rintro ⟨key, value⟩ ⟨key', value'⟩ heq
    obtain ⟨rfl, rfl⟩ := Prod.mk.inj heq
    rfl
  rw [AList.ext (List.map_injective_iff.mpr hinjective hmetadata)]

theorem lawful_codec : let _ := codec; LawfulCommitCodec := by
  let := codec
  refine ⟨fun c cid => rfl, fun {c data} h => ?_⟩
  change (if contents c = contents firstCommit then _ else _) = _ at h
  split at h
  · next heq =>
    obtain rfl := Except.ok.inj h
    exact ⟨firstCommit, decode_first, same_of_contents heq⟩
  · split at h
    · next heq =>
      obtain rfl := Except.ok.inj h
      exact ⟨secondCommit, decode_second, same_of_contents heq⟩
    · split at h
      · next heq =>
        obtain rfl := Except.ok.inj h
        exact ⟨thirdCommit, decode_third, same_of_contents heq⟩
      · exact absurd h (by simp)

theorem encode_first : codec.encodeCommit firstCommit = .ok (commitBytes firstCommit) := if_pos rfl

theorem encode_second : codec.encodeCommit secondCommit = .ok (commitBytes secondCommit) :=
  (if_neg (by decide)).trans (if_pos rfl)

theorem encode_third : codec.encodeCommit thirdCommit = .ok (commitBytes thirdCommit) :=
  (if_neg (by decide)).trans ((if_neg (by decide)).trans (if_pos rfl))

theorem encode_of_two_parents {c : Commit} {p q : Cid} (h : c.parents = [p, q]) :
    codec.encodeCommit c = .error "not a sample" := by
  have hne : ∀ c' : Commit, c'.parents.length ≤ 1 → contents c ≠ contents c' := by
    intro c' hc' heq
    have hparents : c.parents = c'.parents := congrArg (fun x => x.1.1) heq
    rw [← hparents, h] at hc'
    exact absurd hc' (by simp)
  change (if contents c = contents firstCommit then _ else _) = _
  rw [if_neg (hne firstCommit (by decide)), if_neg (hne secondCommit (by decide)),
    if_neg (hne thirdCommit (by decide))]

/-- The SHA2-256 digests of the commits and of the refs to them. -/
def digests : List (Bytes × Bytes) :=
  [(commitBytes firstCommit, firstDigest), (commitBytes secondCommit, secondDigest),
   (commitBytes thirdCommit, thirdDigest),
   (refBytes ⟨"main", firstCid, .branch⟩,
    BigEndian.encode 32 0x621ac28bbf4a876e1e9eaa2c175ded89683ee5e1acd29ce6e07f4e3cfd87e278),
   (refBytes ⟨"v1.0", firstCid, .tag⟩,
    BigEndian.encode 32 0x91c1424827c2e872837ced4b40d414e02a42351cc8642e2952d5289be73d08b8),
   (refBytes ⟨"v1.0", secondCid, .branch⟩,
    BigEndian.encode 32 0xcdf8d6379297006d169f302a32f452dfc12d2e1afce0c9ff1f34903cd69ad57d),
   (refBytes ⟨"main", secondCid, .branch⟩,
    BigEndian.encode 32 0x6a7ae0825f5fb74de922eca3aa6d9f2c5de252e6e4efe2442f8894b29b2db230),
   (refBytes ⟨"main", thirdCid, .branch⟩,
    BigEndian.encode 32 0xde363be76e04720fb7036aca61d2281b3fec106072befb3fd56458f69e3ab58d)]

/-- The digest of one of these, or of the root block. -/
def digestOf (data : Bytes) : Bytes :=
  match digests.find? fun entry => entry.1 = data with
  | some entry => entry.2
  | none => rootDigest

theorem length_digestOf (data : Bytes) : (digestOf data).length = 32 := by
  unfold digestOf
  split
  · next entry hfind =>
    have hall : ∀ entry ∈ digests, entry.2.length = 32 := by decide +kernel
    exact hall entry (List.mem_of_find?_eq_some hfind)
  · rfl

/-- The hash crate on these inputs. -/
@[reducible]
def hash : HashCrate := CidReference.hashOf digestOf length_digestOf

/-- The store with the first and the second commit. -/
def store : MemoryBlockStore :=
  (MemoryBlockStore.new.insert ⟨firstCid, commitBytes firstCommit⟩).insert
    ⟨secondCid, commitBytes secondCommit⟩

end Ipfrs.Vcs.Sample

namespace Ipfrs.Vcs.VersionControl

open scoped CidReference in
/-- In the store with two commits the first is an ancestor of the second, not the other way round;
it is a common ancestor; and a merge of the second into the first moves HEAD to the second. -/
theorem CommitGraph.correct_two :
    let _ := Sample.codec
    let _ := Sample.hash
    let vc : VersionControl MemoryBlockStore :=
      { new Sample.store with head := some Sample.firstCid }
    (∃ fuel, vc.isAncestor fuel Sample.firstCid Sample.secondCid = some (.ok true)) ∧
      (∃ fuel, vc.isAncestor fuel Sample.secondCid Sample.firstCid = some (.ok false)) ∧
      (∃ fuel a, vc.findCommonAncestor fuel Sample.firstCid Sample.secondCid = some (.ok (some a)) ∧
        Ancestor vc.store a Sample.firstCid ∧ Ancestor vc.store a Sample.secondCid) ∧
      ∃ fuel vc' newHead,
        vc.merge fuel Sample.secondCid "merge" Sample.author .threeWay 1700000000 =
          some (vc', .ok (.fastForward Sample.secondCid)) ∧ vc'.head = some newHead ∧
        Ancestor vc'.store Sample.firstCid newHead ∧
        Ancestor vc'.store Sample.secondCid newHead := by
  intro _ _ vc
  have := Sample.lawful_codec
  -- the two commits are a graph with all parents
  have hfirst : commitAt vc.store Sample.firstCid = some Sample.firstCommit :=
    Sample.commitAt_of_view (by decide +kernel) Sample.decode_first
  have hsecond : commitAt vc.store Sample.secondCid = some Sample.secondCommit :=
    Sample.commitAt_of_view (by decide +kernel) Sample.decode_second
  have hparents₁ : parentsAt vc.store Sample.firstCid = [] := parentsAt_of_commitAt hfirst
  have hparents₂ : parentsAt vc.store Sample.secondCid = [Sample.firstCid] :=
    parentsAt_of_commitAt hsecond
  have hG : CommitGraph vc.store {Sample.firstCid, Sample.secondCid} := by
    constructor
    · rintro c (rfl | rfl)
      · exact ⟨_, hfirst⟩
      · exact ⟨_, hsecond⟩
    · rintro c (rfl | rfl) p hp
      · rw [hparents₁] at hp
        exact absurd hp List.not_mem_nil
      · rw [hparents₂] at hp
        exact Or.inl (List.mem_singleton.mp hp)
  obtain ⟨hancestor, hcommon, hmerge⟩ := CommitGraph.correct hG
  -- what ancestry is in it
  have hpath : Ancestor vc.store Sample.firstCid Sample.secondCid := by
    refine Ancestor.of_parent ?_
    rw [hparents₂]
    exact List.mem_singleton_self _
  have hnopath : ¬ Ancestor vc.store Sample.secondCid Sample.firstCid := by
    intro h
    obtain heq | ⟨p, hp, -⟩ := h.eq_or_parent
    · have hne : Sample.secondCid ≠ Sample.firstCid := by decide +kernel
      exact hne heq
    · rw [hparents₁] at hp
      exact absurd hp List.not_mem_nil
  have hisAncestor : ∃ fuel,
      vc.isAncestor fuel Sample.firstCid Sample.secondCid = some (.ok true) := by
    obtain ⟨answer, hiff, hreturns, -⟩ := hancestor Sample.firstCid Sample.secondCid (Or.inr rfl)
    rw [hiff.mpr hpath] at hreturns
    exact hreturns
  refine ⟨hisAncestor, ?_, ?_, ?_⟩
  · obtain ⟨answer, hiff, hreturns, -⟩ := hancestor Sample.secondCid Sample.firstCid (Or.inl rfl)
    cases answer with
    | true => exact absurd (hiff.mp rfl) hnopath
    | false => exact hreturns
  · obtain ⟨answer, hanswer, ⟨fuel, hreturns⟩, -⟩ :=
      hcommon Sample.firstCid (Or.inl rfl) Sample.secondCid (Or.inr rfl)
    cases answer with
    | none => exact absurd ⟨_, Ancestor.refl _ _, hpath⟩ hanswer
    | some a => exact ⟨fuel, a, hreturns, hanswer⟩
  · obtain ⟨fuel, hfuel⟩ := hisAncestor
    have hmoves : vc.merge fuel Sample.secondCid "merge" Sample.author .threeWay 1700000000 =
        some (vc.moveTo vc.store Sample.secondCid, .ok (.fastForward Sample.secondCid)) := by
      unfold merge
      have hne : Sample.firstCid ≠ Sample.secondCid := by decide +kernel
      change (if Sample.firstCid = Sample.secondCid then _ else _) = _
      rw [if_neg hne, hfuel]
    have hwithin : MergeWithin ∅ vc.store Sample.firstCid Sample.secondCid "merge" Sample.author
        .threeWay 1700000000 := by
      intro headCommit branchCommit _ _
      rw [Sample.encode_of_two_parents rfl]
      trivial
    obtain ⟨newHead, hhead, h₁, h₂⟩ := (hmerge Sample.firstCid rfl Sample.secondCid (Or.inr rfl)
      "merge" Sample.author .threeWay 1700000000).2 ∅ (fun data hdata => absurd hdata (by simp))
      hwithin fuel _ _ hmoves
    exact ⟨fuel, _, newHead, hmoves, hhead, h₁, h₂⟩

end Ipfrs.Vcs.VersionControl
