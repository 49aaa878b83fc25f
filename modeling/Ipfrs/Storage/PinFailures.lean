import Ipfrs.Storage.PinAccounts

/-!
# Recursive pins that fail

`pin_recursive` of `ipfrs-storage/src/pinning.rs`, when the resolver fails for one of the blocks
below the root. By then the root has its reference, and so has every block that the walk has pushed;
nothing takes them back.

* `Comes` — the blocks that the walk comes to. It depends on the links, and on the counts only where
  one is at its limit: the walk ends there with a panic.
* `pinRecursive_intact_iff` — a call that fails leaves the pins as they were if and only if no call
  fails, that is, if and only if every block that the walk comes to can be resolved.
-/

namespace Ipfrs.Storage

open StackWalk

/-- The walk with these blocks on its stack and these marked comes to the last block. It goes on
from a block that can be resolved if none of its new links is full. -/
inductive Comes (linkResolver : Cid → Except Error (List Cid)) (full : Cid → Prop) :
    List Cid → Finset Cid → Cid → Prop
  | top {x : Cid} {stack : List Cid} {seen : Finset Cid} :
      Comes linkResolver full (x :: stack) seen x
  | next {x c : Cid} {stack links : List Cid} {seen : Finset Cid}
      (hlinks : linkResolver x = .ok links) (hroom : ∀ y ∈ firstNew links seen, ¬ full y)
      (h : Comes linkResolver full ((firstNew links seen).reverse ++ stack)
        (seen ∪ (firstNew links seen).toFinset) c) :
      Comes linkResolver full (x :: stack) seen c

namespace PinManager

/-- The reference count of a block cannot be raised. -/
def Full (m : PinManager) (c : Cid) : Prop := 2 ^ 32 ≤ m.refs c + 1

/-- What the walk below `root` leaves alone: the entry of the root, and the counts of all blocks
that it has not seen. -/
structure WalkInv (m : PinManager) (root : Cid) (info : PinInfo) (walk : PinWalk) : Prop where
  lookup_root : walk.manager.pins.lookup root = some info
  root_mem : root ∈ walk.seen
  fresh : ∀ c, c ∉ walk.seen → walk.manager.refs c = m.refs c

section Pinning

variable {m m' : PinManager} {c root parent : Cid} {now : ℕ}

theorem refs_of_lookup {info : PinInfo} (h : m.pins.lookup c = some info) :
    m.refs c = info.refCount := by
  rw [refs, h]
  rfl

theorem refs_of_lookup_eq {d : Cid} (h : m'.pins.lookup d = m.pins.lookup d) :
    m'.refs d = m.refs d := by
  rw [refs, refs, h]

theorem lookup_pinIndirect (h : m.pinIndirect c parent now = .ok m') {d : Cid} (hd : d ≠ c) :
    m'.pins.lookup d = m.pins.lookup d := by
  unfold pinIndirect at h
  split at h
  · obtain ⟨refCount, -, h⟩ := Except.bind_eq_ok_iff.mp h
    obtain rfl := Except.ok.inj h
    exact AList.lookup_insert_ne hd
  · obtain rfl := Except.ok.inj h
    exact AList.lookup_insert_ne hd

/-- A block is full only if it has an entry, whose count then overflows. -/
theorem Full.exists_lookup (h : m.Full c) :
    ∃ info msg, m.pins.lookup c = some info ∧ addU32 info.refCount 1 = .error (.panic msg) := by
  unfold Full refs at h
  cases hlookup : m.pins.lookup c with
  | none =>
    rw [hlookup] at h
    exact absurd h (by decide)
  | some info =>
    rw [hlookup] at h
    exact ⟨info, _, rfl, if_neg (Nat.not_lt.mpr h)⟩

theorem Full.pinIndirect (h : m.Full c) (parent : Cid) (now : ℕ) :
    ∃ msg, m.pinIndirect c parent now = .error (.panic msg) := by
  obtain ⟨info, msg, hlookup, hadd⟩ := h.exists_lookup
  refine ⟨msg, ?_⟩
  rw [PinManager.pinIndirect, hlookup]
  dsimp only
  rw [hadd]
  rfl

theorem Full.pinWithType (h : m.Full c) (t : PinType) (name : Option String) (now : ℕ) :
    ∃ msg, m.pinWithType c t name now = .error (.panic msg) := by
  obtain ⟨info, msg, hlookup, hadd⟩ := h.exists_lookup
  refine ⟨msg, ?_⟩
  rw [PinManager.pinWithType, hlookup]
  dsimp only
  rw [hadd]
  rfl

theorem pinWithType_root {t : PinType} {name : Option String}
    (h : m.pinWithType c t name now = .ok m') :
    ∃ info, m'.pins.lookup c = some info ∧ info.refCount = m.refs c + 1 ∧
      ∀ d, d ≠ c → m'.pins.lookup d = m.pins.lookup d := by
  unfold PinManager.pinWithType at h
  cases hlookup : m.pins.lookup c with
  | none =>
    rw [hlookup] at h
    obtain rfl := Except.ok.inj h
    refine ⟨_, AList.lookup_insert _, ?_, fun d hd => AList.lookup_insert_ne hd⟩
    rw [refs, hlookup]
    rfl
  | some info =>
    rw [hlookup] at h
    obtain ⟨refCount, hadd, h⟩ := Except.bind_eq_ok_iff.mp h
    obtain ⟨-, rfl⟩ := addU32_eq_ok_iff.mp hadd
    dsimp only at h
    split at h
    · obtain rfl := Except.ok.inj h
      refine ⟨_, AList.lookup_insert _, ?_, fun d hd => AList.lookup_insert_ne hd⟩
      rw [refs_of_lookup hlookup]
    · obtain rfl := Except.ok.inj h
      refine ⟨_, AList.lookup_insert _, ?_, fun d hd => AList.lookup_insert_ne hd⟩
      rw [refs_of_lookup hlookup]

end Pinning

section Walk

variable {m : PinManager} {root : Cid} {info : PinInfo} {now : Cid → ℕ} {walk : PinWalk}

/-- **The links of one block**: the new ones are pushed, or one of them is full. -/
theorem pinLinks_cases (now : Cid → ℕ) (links : List Cid) (hI : WalkInv m root info walk) :
    (∃ walk', pinLinks root now links walk = (walk', .ok ()) ∧
      (∀ y ∈ firstNew links walk.seen, ¬ m.Full y) ∧
      walk'.toProcess = (firstNew links walk.seen).reverse ++ walk.toProcess ∧
      walk'.seen = walk.seen ∪ (firstNew links walk.seen).toFinset ∧
      WalkInv m root info walk') ∨
    ((∃ walk' msg, pinLinks root now links walk = (walk', .error (.panic msg))) ∧
      ∃ y ∈ firstNew links walk.seen, m.Full y) := by
  induction links generalizing walk with
  | nil =>
    refine Or.inl ⟨walk, rfl, fun y hy => absurd hy List.not_mem_nil, rfl, ?_, hI⟩
    exact (Finset.union_empty _).symm
  | cons link links ih =>
    unfold pinLinks firstNew
    by_cases hseen : link ∈ walk.seen
    · rw [if_pos hseen, if_pos hseen]
      exact ih hI
    rw [if_neg hseen, if_neg hseen]
    have hrefs := hI.fresh link hseen
    by_cases hfull : m.Full link
    · have hfull' : walk.manager.Full link := by rwa [Full, hrefs]
      obtain ⟨msg, hpin⟩ := hfull'.pinIndirect root (now link)
      rw [hpin]
      exact Or.inr ⟨⟨_, msg, rfl⟩, link, List.mem_cons_self, hfull⟩
    · have hroom : walk.manager.refs link + 1 < 2 ^ 32 := by
        rw [hrefs]
        exact Nat.lt_of_not_le hfull
      obtain ⟨manager, hpin⟩ := exists_pinIndirect hroom root (now link)
      rw [hpin]
      dsimp only
      -- the root has been seen, so the link is another block
      have hne : root ≠ link := by
        rintro rfl
        exact hseen hI.root_mem
      have hI' : WalkInv m root info ⟨manager, link :: walk.toProcess, insert link walk.seen,
          walk.pinnedCount + 1⟩ := by
        refine ⟨(lookup_pinIndirect hpin hne).trans hI.lookup_root,
          Finset.mem_insert_of_mem hI.root_mem, ?_⟩
        intro c hc
        obtain ⟨hc, hcseen⟩ := not_or.mp (mt Finset.mem_insert.mpr hc)
        exact (refs_of_lookup_eq (lookup_pinIndirect hpin hc)).trans (hI.fresh c hcseen)
      rcases ih hI' with ⟨walk', hrun, hroom', hstack, hmarks, hI''⟩ | ⟨hpanic, y, hy, hfull⟩
      · refine Or.inl ⟨walk', hrun, List.forall_mem_cons.mpr ⟨hfull, hroom'⟩, ?_, ?_, hI''⟩
        · rw [hstack, List.reverse_cons, List.append_assoc]
          rfl
        · rw [hmarks, List.toFinset_cons, Finset.insert_union, Finset.union_insert]
      · exact Or.inr ⟨hpanic, y, List.mem_cons_of_mem _ hy, hfull⟩

variable {linkResolver : Cid → Except Error (List Cid)}

/-- **One round**: the walk is done, the block on top cannot be resolved, one of its links is full,
or the walk goes on. -/
theorem pinStep_cases (linkResolver : Cid → Except Error (List Cid)) (now : Cid → ℕ)
    (hI : WalkInv m root info walk) :
    (walk.toProcess = [] ∧
      ∃ n, pinStep linkResolver root now walk = .inr (walk.manager, .ok n)) ∨
    (∃ x stack e, walk.toProcess = x :: stack ∧ linkResolver x = .error e ∧
      pinStep linkResolver root now walk = .inr (walk.manager, .error (.error e))) ∨
    (∃ x stack links, walk.toProcess = x :: stack ∧ linkResolver x = .ok links ∧
      (∃ y ∈ firstNew links walk.seen, m.Full y) ∧
      ∃ m' msg, pinStep linkResolver root now walk = .inr (m', .error (.panic msg))) ∨
    ∃ x stack links walk', walk.toProcess = x :: stack ∧ linkResolver x = .ok links ∧
      (∀ y ∈ firstNew links walk.seen, ¬ m.Full y) ∧
      pinStep linkResolver root now walk = .inl walk' ∧
      walk'.toProcess = (firstNew links walk.seen).reverse ++ stack ∧
      walk'.seen = walk.seen ∪ (firstNew links walk.seen).toFinset ∧
      WalkInv m root info walk' := by
  unfold pinStep
  cases hstack : walk.toProcess with
  | nil => exact Or.inl ⟨rfl, _, rfl⟩
  | cons x stack =>
    refine Or.inr ?_
    cases hlinks : linkResolver x with
    | error e => exact Or.inl ⟨x, stack, e, rfl, hlinks, by simp only [hlinks]⟩
    | ok links =>
      -- the links are pinned one after the other
      have hI' : WalkInv m root info { walk with toProcess := stack } :=
        ⟨hI.lookup_root, hI.root_mem, hI.fresh⟩
      refine Or.inr ?_
      rcases pinLinks_cases now links hI' with
        ⟨walk', hrun, hroom, htop, hmarks, hI''⟩ | ⟨⟨walk', msg, hrun⟩, hfull⟩
      · exact Or.inr ⟨x, stack, links, walk', rfl, hlinks, hroom, by simp only [hlinks, hrun], htop,
          hmarks, hI''⟩
      · exact Or.inl ⟨x, stack, links, rfl, hlinks, hfull, walk'.manager, msg,
          by simp only [hlinks, hrun]⟩

/-- When every block that the walk comes to can be resolved, it does not leave with an error. -/
theorem not_error_of_resolves (hI : WalkInv m root info walk)
    (hresolves : ∀ c, Comes linkResolver m.Full walk.toProcess walk.seen c →
      ∃ links, linkResolver c = .ok links) {fuel : ℕ} {r : PinManager × Except Fault ℕ}
    (h : WhileLoop.run (pinStep linkResolver root now) fuel walk = some r) (e : Error) :
    r.2 ≠ .error (.error e) := by
  refine WhileLoop.run_elim
    (fun walk => WalkInv m root info walk ∧ ∀ c,
      Comes linkResolver m.Full walk.toProcess walk.seen c → ∃ links, linkResolver c = .ok links)
    (fun r => r.2 ≠ .error (.error e)) ?_ ⟨hI, hresolves⟩ h
  rintro walk ⟨hI, hresolves⟩
  rcases pinStep_cases linkResolver now hI with
    ⟨hempty, n, heq⟩ | ⟨x, stack, e', hstack, hfail, -⟩ |
    ⟨x, stack, links, -, -, -, m', msg, heq⟩ |
    ⟨x, stack, links, walk', hstack, hlinks, hroom, heq, htop, hmarks, hI'⟩
  · rw [heq]
    simp
  · -- the block on top is one that the walk has come to
    obtain ⟨links, hok⟩ := hresolves x (by rw [hstack]; exact .top)
    rw [hok] at hfail
    cases hfail
  · -- a count at its limit is a panic, not an error
    rw [heq]
    simp
  · -- what the walk comes to from there, it comes to from here
    rw [heq]
    refine ⟨hI', fun c hc => hresolves c ?_⟩
    rw [htop, hmarks] at hc
    rw [hstack]
    exact .next hlinks hroom hc

/-- When the walk comes to a block that cannot be resolved, it leaves with an error, and the root
has its reference. -/
theorem returns_error_of_comes {stack : List Cid} {seen : Finset Cid} {c : Cid} {e : Error}
    (h : Comes linkResolver m.Full stack seen c) (hfail : linkResolver c = .error e)
    (hI : WalkInv m root info walk) (hstack : walk.toProcess = stack) (hseen : walk.seen = seen) :
    ∃ m' e', WhileLoop.Returns (pinStep linkResolver root now) walk (m', .error (.error e')) ∧
      m'.pins.lookup root = some info := by
  induction h generalizing walk with
  | @top x stack seen =>
    refine ⟨walk.manager, e, .of_done ?_, hI.lookup_root⟩
    rw [pinStep, hstack]
    simp only [hfail]
  | @next x c stack links seen hlinks hroom _ ih =>
    rcases pinStep_cases linkResolver now hI with
      ⟨hempty, n, heq⟩ | ⟨x', stack', e', hstack', hfail', -⟩ |
      ⟨x', stack', links', hstack', hlinks', ⟨y, hy, hfull⟩, -⟩ |
      ⟨x', stack', links', walk', hstack', hlinks', -, heq, htop, hmarks, hI'⟩
    · rw [hstack] at hempty
      cases hempty
    · obtain ⟨rfl, rfl⟩ := List.cons.inj (hstack.symm.trans hstack')
      rw [hlinks] at hfail'
      cases hfail'
    · obtain ⟨rfl, rfl⟩ := List.cons.inj (hstack.symm.trans hstack')
      obtain rfl := Except.ok.inj (hlinks.symm.trans hlinks')
      -- a link that is full would have ended the walk before
      rw [hseen] at hy
      exact absurd hfull (hroom y hy)
    · obtain ⟨rfl, rfl⟩ := List.cons.inj (hstack.symm.trans hstack')
      obtain rfl := Except.ok.inj (hlinks.symm.trans hlinks')
      subst hseen
      obtain ⟨m', e', hreturns, hroot⟩ := ih hfail hI' htop hmarks
      exact ⟨m', e', .of_next heq hreturns, hroot⟩

/-- **A failed recursive pin leaves the pins alone exactly when it cannot happen**: the root has no
room for another reference, or every block that the walk comes to can be resolved. -/
theorem pinRecursive_intact_iff (linkResolver : Cid → Except Error (List Cid)) (m : PinManager)
    (root : Cid) (now : Cid → ℕ) :
    (∀ fuel m' e, pinRecursive linkResolver fuel m root now = some (m', .error (.error e)) →
      (∀ c, m'.pins.lookup c = m.pins.lookup c) ∧ m'.stats = m.stats) ↔
    m.Full root ∨
      ∀ c, Comes linkResolver m.Full [root] {root} c → ∃ links, linkResolver c = .ok links := by
  by_cases hfull : m.Full root
  · refine ⟨fun _ => Or.inl hfull, fun _ fuel m' e h => ?_⟩
    obtain ⟨msg, hpin⟩ := hfull.pinWithType .recursive none (now root)
    rw [pinRecursive, hpin] at h
    cases Option.some.inj h
  obtain ⟨m₁, hpin⟩ := exists_pinWithType (Nat.lt_of_not_le hfull) .recursive none (now root)
  obtain ⟨info, hroot, hcount, hother⟩ := pinWithType_root hpin
  have hI : WalkInv m root info ⟨m₁, [root], {root}, 1⟩ := by
    refine ⟨hroot, Finset.mem_singleton_self root, fun c hc => refs_of_lookup_eq (hother c ?_)⟩
    rintro rfl
    exact hc (Finset.mem_singleton_self c)
  have hrun : ∀ fuel, pinRecursive linkResolver fuel m root now =
      WhileLoop.run (pinStep linkResolver root now) fuel ⟨m₁, [root], {root}, 1⟩ := by
    intro fuel
    rw [pinRecursive, hpin]
  constructor
  · intro hintact
    refine Or.inr fun c hc => ?_
    cases hlinks : linkResolver c with
    | ok links => exact ⟨links, rfl⟩
    | error e =>
      obtain ⟨m', e', ⟨fuel, hreturns⟩, hlookup⟩ := returns_error_of_comes hc hlinks hI rfl rfl
      -- the root has one reference more than before
      have hsame := (hintact fuel m' e' ((hrun fuel).trans hreturns)).1 root
      have hrefs := refs_of_lookup_eq hsame
      rw [refs_of_lookup hlookup, hcount] at hrefs
      exact absurd hrefs (Nat.succ_ne_self _)
  · rintro (h | hresolves) fuel m' e h'
    · exact absurd h hfull
    · rw [hrun] at h'
      exact absurd rfl (not_error_of_resolves hI hresolves h' e)

end Walk

theorem not_forall_pinRecursive_intact :
    ¬ ∀ (linkResolver : Cid → Except Error (List Cid)) (m : PinManager) (root : Cid)
      (now : Cid → ℕ) (fuel : ℕ) (m' : PinManager) (e : Error),
      pinRecursive linkResolver fuel m root now = some (m', .error (.error e)) →
        (∀ c, m'.pins.lookup c = m.pins.lookup c) ∧ m'.stats = m.stats := by
  intro hall
  have hstats := (hall (fun _ => .error (.blockNotFound "")) new (sampleCid 1) (fun _ => 0) 1 _ _
    rfl).2
  exact absurd (congrArg PinStats.totalPins hstats) (by decide)

end PinManager

end Ipfrs.Storage
