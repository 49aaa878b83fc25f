import Ipfrs.Core.CidReference
import Ipfrs.Lib.AssocMap
import Ipfrs.Lib.LazyHeap

/-!
# Want lists

The `WantList` of the transport crate (`ipfrs-transport/src/want_list.rs`): a map from CIDs to
wanted entries, and a heap with an item for every version of an entry. Items of old versions stay in
the heap.

An `Instant` is a number of nanoseconds; operations that read the clock are given its readings. A
`HashMap` is an association list, and operations that iterate over it are given the order, which may
change from one to the next. A `BinaryHeap` is a `LazyHeap`: which one of several greatest items
comes out is up to it. The counter of versions is a `u64`, here a number that does not wrap.

* `Queued` — every entry has exactly one item of its version, with its recorded priority;
* `Queued.enqueue`, `Queued.erase`, `Queued.pop_cases` — the operations keep it;
* `Run.faithful` — in every run, the entries are a map of bounded size, `pop` returns an entry whose
  recorded priority is greatest, and nothing is lost or returned twice.
-/

namespace Ipfrs.Transport

inductive Priority where
  | low
  | normal
  | high
  | urgent
  | critical
  deriving DecidableEq, Repr

/-- A priority as an `i32`. -/
def Priority.value : Priority → ℤ
  | low => 0
  | normal => 50
  | high => 100
  | urgent => 200
  | critical => 300

structure WantListConfig where
  maxWants : ℕ
  defaultTimeout : ℕ

structure WantEntry where
  cid : Cid
  priority : ℤ
  createdAt : ℕ
  expiresAt : ℕ
  retryCount : ℕ := 0
  lastAttempt : Option ℕ := none
  sendDontHave : Bool := false
  deadline : Option ℕ := none
  tag : Option String := none
  deriving DecidableEq

namespace WantEntry

def new (cid : Cid) (priority : ℤ) (timeout now : ℕ) : WantEntry where
  cid := cid
  priority := priority
  createdAt := now
  expiresAt := now + timeout

def isExpired (entry : WantEntry) (now : ℕ) : Bool := now ≥ entry.expiresAt

def effectivePriority (entry : WantEntry) (now : ℕ) : ℤ :=
  match entry.deadline with
  | none => entry.priority
  | some deadline =>
    if now ≥ deadline then max entry.priority Priority.critical.value
    else if deadline - now < 10 ^ 9 then max entry.priority Priority.urgent.value
    else if deadline - now < 5 * 10 ^ 9 then max entry.priority Priority.high.value
    else entry.priority

end WantEntry

structure HeapEntry where
  cid : Cid
  priority : ℤ
  createdAt : ℕ
  version : ℕ
  deriving DecidableEq

namespace HeapEntry

/-- `cmp`: a higher priority first, then an earlier creation. -/
def cmp (x y : HeapEntry) : Ordering :=
  (compare x.priority y.priority).then (compare y.createdAt x.createdAt)

/-- The order of `cmp`. -/
def Le (x y : HeapEntry) : Prop := (cmp x y).isLE

instance : DecidableRel Le := fun _ _ => inferInstanceAs (Decidable (_ = true))

theorem le_iff {x y : HeapEntry} : Le x y ↔
    x.priority < y.priority ∨ x.priority = y.priority ∧ y.createdAt ≤ x.createdAt := by
  unfold Le cmp
  rcases h : compare x.priority y.priority with _ | _ | _
  · simp [compare_lt_iff_lt.mp h]
  · have heq := compare_eq_iff_eq.mp h
    simp [heq, Nat.isLE_compare]
  · have hgt := compare_gt_iff_gt.mp h
    simp [Ordering.then, not_lt.mpr hgt.le, hgt.ne']

instance : Std.Total Le where
  total x y := by
    rw [le_iff, le_iff]
    omega

instance : IsTrans HeapEntry Le where
  trans x y z := by
    rw [le_iff, le_iff, le_iff]
    omega

end HeapEntry

structure WantList where
  heap : List HeapEntry
  entries : AList fun _ : Cid => WantEntry × ℕ
  versionCounter : ℕ
  config : WantListConfig

namespace WantList

def new (config : WantListConfig) : WantList := ⟨[], ∅, 0, config⟩

variable (w : WantList)

/-- What `add` and `update_priority` both do: a new version of an entry, with its item. -/
def enqueue (cid : Cid) (entry : WantEntry) (priority : ℤ) : WantList :=
  let version := w.versionCounter + 1
  { w with
    versionCounter := version
    entries := w.entries.insert cid (entry, version)
    heap := ⟨cid, priority, entry.createdAt, version⟩ :: w.heap }

/-- `add`. The clock is read for the effective priority. -/
def add (entry : WantEntry) (now : ℕ) : WantList × Bool :=
  if entry.cid ∈ w.entries then (w, false)
  else if w.entries.entries.length ≥ w.config.maxWants then (w, false)
  else (w.enqueue entry.cid entry (entry.effectivePriority now), true)

/-- `remove`. The item stays in the heap. -/
def remove (cid : Cid) : WantList × Option WantEntry :=
  ({ w with entries := w.entries.erase cid }, (w.entries.lookup cid).map Prod.fst)

def updatePriority (cid : Cid) (newPriority : ℤ) : WantList × Bool :=
  match w.entries.lookup cid with
  | some (entry, _) => (w.enqueue cid { entry with priority := newPriority } newPriority, true)
  | none => (w, false)

/-- What `boost_deadline_priorities` collects for one entry. The clock was read at the beginning,
and is read again for the effective priority. -/
def boosts (now : ℕ) (reading : Cid → ℕ) (cid : Cid) : List (Cid × ℤ) :=
  match w.entries.lookup cid with
  | none => []
  | some (entry, _) =>
    match entry.deadline with
    | none => []
    | some deadline =>
      let effective := entry.effectivePriority (reading cid)
      (if effective > entry.priority then [(cid, effective)] else []) ++
        if now ≥ deadline ∧ entry.priority < Priority.critical.value then
          [(cid, Priority.critical.value)] else []

/-- Several updates, one after the other. -/
def updateAll (updates : List (Cid × ℤ)) : WantList :=
  updates.foldl (fun w update => (w.updatePriority update.1 update.2).1) w

/-- `boost_deadline_priorities`, with the entries in a given order. -/
def boostDeadlinePriorities (order : List Cid) (now : ℕ) (reading : Cid → ℕ) : WantList :=
  w.updateAll (order.flatMap (w.boosts now reading))

/-- `cleanup_expired`, with the entries in a given order. The clock is read for every entry. -/
def cleanupExpired (order : List Cid) (reading : Cid → ℕ) : WantList × List WantEntry :=
  let cidsToRemove := order.filter fun cid =>
    ((w.entries.lookup cid).map fun entry => entry.1.isExpired (reading cid)).getD false
  cidsToRemove.foldl
    (fun (w, expired) cid => ((w.remove cid).1, expired ++ (w.remove cid).2.toList)) (w, [])

/-- The loop of `pop`. Every iteration takes an item out of the heap. -/
def popLoop (tie : List HeapEntry → ℕ) : ℕ → WantList → WantList × Option WantEntry
  | 0, w => (w, none)
  | fuel + 1, w =>
    match LazyHeap.popMax HeapEntry.Le tie w.heap with
    | none => (w, none)
    | some (heapEntry, rest) =>
      let w := { w with heap := rest }
      match w.entries.lookup heapEntry.cid with
      | some (_, version) =>
        if version = heapEntry.version then w.remove heapEntry.cid
        else popLoop tie fuel w
      | none => popLoop tie fuel w

def pop (tie : List HeapEntry → ℕ) : WantList × Option WantEntry :=
  popLoop tie (w.heap.length + 1) w

/-- `clear`. The counter goes on. -/
def clear : WantList := { w with heap := [], entries := ∅ }

def get (cid : Cid) : Option WantEntry := (w.entries.lookup cid).map Prod.fst

def len : ℕ := w.entries.entries.length

/-! ### What the heap has for the entries -/

/-- The version of the entry of a CID. -/
def version (cid : Cid) : Option ℕ := (w.entries.lookup cid).map Prod.snd

/-- **Queued**: every entry has exactly one item of its version, with its recorded priority and its
time of creation, and the entries are under their CIDs. -/
structure Queued (w : WantList) (recorded : Cid → ℤ) : Prop where
  tracks : ∃ item : Cid → HeapEntry,
    LazyHeap.Tracks HeapEntry.cid HeapEntry.version w.versionCounter w.version item w.heap ∧
    ∀ c e v, w.entries.lookup c = some (e, v) → item c = ⟨c, recorded c, e.createdAt, v⟩
  cid_eq : ∀ c e v, w.entries.lookup c = some (e, v) → e.cid = c

variable {w w' : WantList} {recorded : Cid → ℤ} {c cid : Cid} {entry : WantEntry} {priority : ℤ}

theorem version_enqueue : (w.enqueue cid entry priority).version =
    Function.update w.version cid (some (w.versionCounter + 1)) := by
  ext1 c
  by_cases hc : c = cid
  · subst hc
    simp [version, enqueue]
  · simp [version, enqueue, AList.lookup_insert_ne hc, hc]

theorem version_erase : ({ w with entries := w.entries.erase cid } : WantList).version =
    Function.update w.version cid none := by
  ext1 c
  by_cases hc : c = cid
  · subst hc
    simp [version]
  · simp [version, AList.lookup_erase_ne hc, hc]

theorem queued_new (config : WantListConfig) : Queued (new config) recorded where
  tracks := ⟨fun c => ⟨c, 0, 0, 0⟩, .empty, fun _ _ _ h => by cases h⟩
  cid_eq _ _ _ h := by cases h

/-- **A new version of an entry.** -/
theorem Queued.enqueue (h : Queued w recorded) (hcid : entry.cid = cid) :
    Queued (w.enqueue cid entry priority) (Function.update recorded cid priority) where
  tracks := by
    obtain ⟨item, htracks, hitem⟩ := h.tracks
    let x : HeapEntry := ⟨cid, priority, entry.createdAt, w.versionCounter + 1⟩
    refine ⟨Function.update item cid x, ?_, fun c e v hlookup => ?_⟩
    · rw [version_enqueue]
      exact htracks.put (x := x) rfl
    obtain ⟨rfl, heq⟩ | ⟨hne, hlookup⟩ := AssocMap.lookup_insert_eq_some.mp hlookup
    · obtain ⟨rfl, rfl⟩ := Prod.mk.inj heq
      rw [Function.update_self, Function.update_self]
    · rw [Function.update_of_ne hne, Function.update_of_ne hne]
      exact hitem c e v hlookup
  cid_eq c e v hlookup := by
    obtain ⟨rfl, heq⟩ | ⟨-, hlookup⟩ := AssocMap.lookup_insert_eq_some.mp hlookup
    · obtain ⟨rfl, rfl⟩ := Prod.mk.inj heq
      exact hcid
    · exact h.cid_eq c e v hlookup

/-- **An entry that goes.** -/
theorem Queued.remove (h : Queued w recorded) (cid : Cid) : Queued (w.remove cid).1 recorded where
  tracks := by
    obtain ⟨item, htracks, hitem⟩ := h.tracks
    refine ⟨item, ?_, fun c e v hlookup => hitem c e v (AssocMap.lookup_of_lookup_erase hlookup)⟩
    rw [WantList.remove, version_erase]
    exact htracks.drop cid
  cid_eq c e v hlookup := h.cid_eq c e v (AssocMap.lookup_of_lookup_erase hlookup)

theorem queued_clear : Queued w.clear recorded where
  tracks := ⟨fun c => ⟨c, 0, 0, 0⟩, .empty, fun _ _ _ h => by cases h⟩
  cid_eq _ _ _ h := by cases h

/-- The loop of `pop` takes items until one has the version of its entry. -/
theorem popLoop_eq (tie : List HeapEntry → ℕ) (fuel : ℕ) (w : WantList) :
    popLoop tie fuel w =
      match LazyHeap.popLive HeapEntry.Le tie
        (LazyHeap.live HeapEntry.cid HeapEntry.version w.version) fuel w.heap with
      | (some x, rest) => { w with heap := rest }.remove x.cid
      | (none, rest) => ({ w with heap := rest }, none) := by
  induction fuel generalizing w with
  | zero => rfl
  | succ fuel ih =>
    rw [popLoop, LazyHeap.popLive]
    rcases LazyHeap.popMax HeapEntry.Le tie w.heap with _ | ⟨x, rest⟩
    · rfl
    · dsimp only
      have hversion : ({ w with heap := rest } : WantList).version = w.version := rfl
      have hlive : LazyHeap.live HeapEntry.cid HeapEntry.version w.version x =
          decide (((w.entries.lookup x.cid).map Prod.snd) = some x.version) := rfl
      rw [hlive]
      rcases w.entries.lookup x.cid with _ | ⟨e, v⟩
      · rw [Option.map_none, if_neg (by simp)]
        exact (ih _).trans (by rw [hversion])
      · dsimp only
        by_cases hv : v = x.version
        · rw [if_pos hv, Option.map_some, hv, if_pos (by simp)]
        · rw [if_neg hv, if_neg (by simpa using hv)]
          exact (ih _).trans (by rw [hversion])

/-- **What `pop` does.** There is no entry, or an entry of greatest recorded priority goes, the
earliest one among several. -/
theorem Queued.pop_cases (h : Queued w recorded) (tie : List HeapEntry → ℕ) :
    (w.pop tie).1.config = w.config ∧
    (((w.pop tie).2 = none ∧ w.entries = ∅ ∧ (w.pop tie).1.entries = ∅ ∧
      Queued (w.pop tie).1 recorded) ∨
    ∃ c e v, w.entries.lookup c = some (e, v) ∧ (w.pop tie).2 = some e ∧
      (w.pop tie).1.entries = w.entries.erase c ∧ Queued (w.pop tie).1 recorded ∧
      ∀ c' e' v', w.entries.lookup c' = some (e', v') →
        recorded c' < recorded c ∨ recorded c' = recorded c ∧ e.createdAt ≤ e'.createdAt) := by
  obtain ⟨item, htracks, hitem⟩ := h.tracks
  rw [pop, popLoop_eq]
  rcases hpop : LazyHeap.popLive HeapEntry.Le tie
    (LazyHeap.live HeapEntry.cid HeapEntry.version w.version) (w.heap.length + 1) w.heap with
    ⟨result, rest⟩
  obtain ⟨rfl, hnone, hrest⟩ | ⟨c, rfl, hkey, hversion, hgreatest, hrest⟩ :=
    htracks.pop (Nat.lt_succ_self _) hpop
  · -- no item is live, and every entry has one
    have hempty : w.entries = ∅ := by
      refine AList.ext (List.eq_nil_iff_forall_not_mem.mpr fun ⟨c, e, v⟩ hmem => ?_)
      have hlookup : w.entries.lookup c = some (e, v) := AList.mem_lookup_iff.mpr hmem
      have hc := hnone c
      rw [version, hlookup] at hc
      cases hc
    exact ⟨rfl, .inl ⟨rfl, hempty, hempty, ⟨item, hrest, hitem⟩, h.cid_eq⟩⟩
  · rw [version, Option.map_eq_some_iff] at hversion
    obtain ⟨⟨e, v⟩, hlookup, -⟩ := hversion
    refine ⟨rfl, .inr ⟨c, e, v, hlookup, ?_, ?_, ?_, fun c' e' v' hlookup' => ?_⟩⟩
    · show (w.entries.lookup (item c).cid).map Prod.fst = some e
      rw [hkey, hlookup]
      rfl
    · show w.entries.erase (item c).cid = w.entries.erase c
      rw [hkey]
    · refine ⟨⟨item, ?_, fun c' e' v' hlookup' => ?_⟩, fun c' e' v' hlookup' => ?_⟩
      · show LazyHeap.Tracks _ _ _ ({ w with entries := w.entries.erase (item c).cid } :
          WantList).version item rest
        rw [hkey, version_erase]
        exact hrest
      · exact hitem c' e' v' (AssocMap.lookup_of_lookup_erase hlookup')
      · exact h.cid_eq c' e' v' (AssocMap.lookup_of_lookup_erase hlookup')
    · -- the item of the other entry is not greater
      have hle := hgreatest c' (by rw [version, hlookup']; rfl)
      rw [HeapEntry.le_iff, hitem c e v hlookup, hitem c' e' v' hlookup'] at hle
      exact hle

end WantList

/-! ### Runs -/

/-- The operations, with the readings of the clock and the orders of iteration. -/
inductive WantOp where
  | add (entry : WantEntry) (now : ℕ)
  | remove (cid : Cid)
  | updatePriority (cid : Cid) (newPriority : ℤ)
  | boostDeadlinePriorities (order : List Cid) (now : ℕ) (reading : Cid → ℕ)
  | cleanupExpired (order : List Cid) (reading : Cid → ℕ)
  | pop (tie : List HeapEntry → ℕ)
  | clear

/-- What an operation returns: a flag, or the entries that it gives out. -/
inductive WantResult where
  | done (flag : Bool)
  | gave (entries : List WantEntry)

namespace WantList

variable (w : WantList)

/-- An operation, and what it returns. -/
def perform : WantOp → WantList × WantResult
  | .add entry now => ((w.add entry now).1, .done (w.add entry now).2)
  | .remove cid => ((w.remove cid).1, .gave (w.remove cid).2.toList)
  | .updatePriority cid newPriority =>
    ((w.updatePriority cid newPriority).1, .done (w.updatePriority cid newPriority).2)
  | .boostDeadlinePriorities order now reading =>
    (w.boostDeadlinePriorities order now reading, .done true)
  | .cleanupExpired order reading =>
    ((w.cleanupExpired order reading).1, .gave (w.cleanupExpired order reading).2)
  | .pop tie => ((w.pop tie).1, .gave (w.pop tie).2.toList)
  | .clear => (w.clear, .done true)

/-- An order of iteration has every CID once. -/
def Iterates : WantOp → Prop
  | .boostDeadlinePriorities order _ _ => order.Perm w.entries.keys
  | .cleanupExpired order _ => order.Perm w.entries.keys
  | _ => True

/-- An update records a priority if there is an entry. -/
def recordUpdate (recorded : Cid → ℤ) (update : Cid × ℤ) : Cid → ℤ :=
  if update.1 ∈ w.entries then Function.update recorded update.1 update.2 else recorded

/-- The priorities recorded last: the effective one when an entry is added, and then the value of
every update. -/
def record (recorded : Cid → ℤ) : WantOp → Cid → ℤ
  | .add entry now =>
    if (w.add entry now).2 then
      Function.update recorded entry.cid (entry.effectivePriority now)
    else recorded
  | .updatePriority cid newPriority => w.recordUpdate recorded (cid, newPriority)
  | .boostDeadlinePriorities order now reading =>
    (order.flatMap (w.boosts now reading)).foldl w.recordUpdate recorded
  | _ => recorded

/-- The want lists that operations make of a new one, with what was called and returned, the last
call first, and the priorities recorded last. -/
inductive Run (config : WantListConfig) :
    List (WantOp × WantResult) → WantList → (Cid → ℤ) → Prop
  | new : Run config [] (.new config) fun _ => 0
  | step {history : List (WantOp × WantResult)} {w : WantList} {recorded : Cid → ℤ} {op : WantOp}
      (h : Run config history w recorded) (horder : w.Iterates op) :
      Run config ((op, (w.perform op).2) :: history) (w.perform op).1 (w.record recorded op)

/-- How often a CID was added since the list was cleared. -/
def added : List (WantOp × WantResult) → Cid → ℕ
  | [], _ => 0
  | (.clear, _) :: _, _ => 0
  | (.add entry _, .done true) :: history, c =>
    added history c + if entry.cid = c then 1 else 0
  | _ :: history, c => added history c

/-- How many entries of a CID were given out since the list was cleared. -/
def given : List (WantOp × WantResult) → Cid → ℕ
  | [], _ => 0
  | (.clear, _) :: _, _ => 0
  | (_, .gave entries) :: history, c => given history c + entries.countP fun e => e.cid = c
  | _ :: history, c => given history c

/-- The entry of a CID as it was added last. -/
def lastAdded : List (WantOp × WantResult) → Cid → Option WantEntry
  | [], _ => none
  | (.add entry _, .done true) :: history, c =>
    if entry.cid = c then some entry else lastAdded history c
  | _ :: history, c => lastAdded history c

/-! ### What an operation does -/

section Operations

variable {w w' w'' : WantList} {recorded : Cid → ℤ} {c cid : Cid} {entry : WantEntry}
  {newPriority : ℤ}

/-- One for a CID that is wanted, zero for another. -/
def present (w : WantList) (c : Cid) : ℕ := if c ∈ w.entries then 1 else 0

/-- `w'` has the entries of `w`, but for their priorities. -/
structure Keeps (w w' : WantList) : Prop where
  mem_iff : ∀ c, c ∈ w'.entries ↔ c ∈ w.entries
  len : w'.len = w.len
  config : w'.config = w.config
  get : ∀ c e, w'.get c = some e → ∃ e₀, w.get c = some e₀ ∧ e = { e₀ with priority := e.priority }

theorem Keeps.refl (w : WantList) : Keeps w w :=
  ⟨fun _ => Iff.rfl, rfl, rfl, fun _ e h => ⟨e, h, rfl⟩⟩

theorem Keeps.trans (h : Keeps w w') (h' : Keeps w' w'') : Keeps w w'' where
  mem_iff c := (h'.mem_iff c).trans (h.mem_iff c)
  len := h'.len.trans h.len
  config := h'.config.trans h.config
  get c e he := by
    obtain ⟨e₁, he₁, heq₁⟩ := h'.get c e he
    obtain ⟨e₀, he₀, heq₀⟩ := h.get c e₁ he₁
    exact ⟨e₀, he₀, by rw [heq₁, heq₀]⟩

theorem Keeps.present (h : Keeps w w') (c : Cid) : w'.present c = w.present c := by
  rw [WantList.present, WantList.present]
  simp only [h.mem_iff]

/-- **An update** changes one priority, and records it. -/
theorem updatePriority_spec (h : Queued w recorded) (cid : Cid) (newPriority : ℤ) :
    Keeps w (w.updatePriority cid newPriority).1 ∧
      Queued (w.updatePriority cid newPriority).1 (w.recordUpdate recorded (cid, newPriority)) := by
  rw [updatePriority, recordUpdate]
  rcases hlookup : w.entries.lookup cid with _ | ⟨e, v⟩
  · rw [if_neg (AList.lookup_eq_none.mp hlookup)]
    exact ⟨Keeps.refl w, h⟩
  · have hmem : cid ∈ w.entries := AssocMap.mem_of_lookup hlookup
    rw [if_pos hmem]
    refine ⟨⟨fun c => ?_, ?_, rfl, fun c e' he' => ?_⟩, h.enqueue (h.cid_eq cid e v hlookup)⟩
    · show c ∈ w.entries.insert cid _ ↔ _
      rw [AList.mem_insert]
      exact or_iff_right_of_imp fun h => h ▸ hmem
    · show (w.entries.insert cid _).entries.length = w.entries.entries.length
      rw [AssocMap.length_insert, AssocMap.length_erase hlookup]
    · obtain ⟨⟨e₁, v₁⟩, he₁, rfl⟩ := Option.map_eq_some_iff.mp he'
      obtain ⟨rfl, heq⟩ | ⟨-, hother⟩ := AssocMap.lookup_insert_eq_some.mp he₁
      · obtain ⟨rfl, -⟩ := Prod.mk.inj heq
        exact ⟨e, by rw [WantList.get, hlookup]; rfl, rfl⟩
      · exact ⟨e₁, by rw [WantList.get, hother]; rfl, rfl⟩

/-- **Several updates.** -/
theorem updateAll_spec (h : Queued w recorded) (updates : List (Cid × ℤ)) :
    Keeps w (w.updateAll updates) ∧
      Queued (w.updateAll updates) (updates.foldl w.recordUpdate recorded) := by
  induction updates generalizing w recorded with
  | nil => exact ⟨Keeps.refl w, h⟩
  | cons update updates ih =>
    obtain ⟨hkeeps, hqueued⟩ := updatePriority_spec h update.1 update.2
    obtain ⟨hkeeps', hqueued'⟩ := ih hqueued
    -- the same CIDs are wanted before and after the first update
    have hrecord : (w.updatePriority update.1 update.2).1.recordUpdate = w.recordUpdate := by
      ext recorded update'
      rw [recordUpdate, recordUpdate]
      simp only [hkeeps.mem_iff]
    rw [hrecord] at hqueued'
    exact ⟨hkeeps.trans hkeeps', hqueued'⟩

/-- `w'` has the entries of `w` except for those that were given out. -/
structure Gives (w w' : WantList) (entries : List WantEntry) : Prop where
  present : ∀ c, w.present c = entries.countP (fun e => e.cid = c) + w'.present c
  len : w'.len ≤ w.len
  config : w'.config = w.config
  get : ∀ c e, w'.get c = some e → w.get c = some e

/-- **An entry that is erased** is given out. -/
theorem gives_erase {e : WantEntry} {v : ℕ} (hlookup : w.entries.lookup cid = some (e, v))
    (hcid : e.cid = cid) (hentries : w'.entries = w.entries.erase cid)
    (hconfig : w'.config = w.config) : Gives w w' [e] where
  present c := by
    rw [WantList.present, WantList.present, hentries, List.countP_singleton, hcid]
    by_cases hc : c = cid
    · subst hc
      simp [AssocMap.mem_of_lookup hlookup, AList.mem_erase]
    · simp [hc, Ne.symm hc, AList.mem_erase]
  len := by
    rw [len, len, hentries, AssocMap.length_erase hlookup]
    exact Nat.le_succ _
  config := hconfig
  get c e' he' := by
    rw [WantList.get, hentries] at he'
    obtain ⟨entry, hentry, rfl⟩ := Option.map_eq_some_iff.mp he'
    rw [WantList.get, AssocMap.lookup_of_lookup_erase hentry]
    rfl

theorem gives_nil (hentries : w'.entries = w.entries) (hconfig : w'.config = w.config) :
    Gives w w' [] where
  present c := by rw [WantList.present, WantList.present, hentries, List.countP_nil, Nat.zero_add]
  len := by rw [len, len, hentries]
  config := hconfig
  get c e he := by rwa [WantList.get, hentries] at he

theorem Gives.trans {entries entries' : List WantEntry} (h : Gives w w' entries)
    (h' : Gives w' w'' entries') : Gives w w'' (entries ++ entries') where
  present c := by rw [h.present, h'.present, List.countP_append, Nat.add_assoc]
  len := h'.len.trans h.len
  config := h'.config.trans h.config
  get c e he := h.get c e (h'.get c e he)

theorem remove_spec (h : Queued w recorded) (cid : Cid) :
    Gives w (w.remove cid).1 (w.remove cid).2.toList := by
  rcases hlookup : w.entries.lookup cid with _ | ⟨e, v⟩
  · have hnone : (w.remove cid).2 = none := by rw [remove, hlookup]; rfl
    rw [hnone]
    exact gives_nil (AssocMap.erase_of_lookup_eq_none hlookup) rfl
  · have hsome : (w.remove cid).2 = some e := by rw [remove, hlookup]; rfl
    rw [hsome]
    exact gives_erase hlookup (h.cid_eq cid e v hlookup) rfl rfl

/-- **The removals of `cleanup_expired`.** -/
theorem foldl_remove_spec (h : Queued w recorded) (cids : List Cid) (expired : List WantEntry) :
    ∃ entries, cids.foldl (fun (p : WantList × List WantEntry) cid =>
        ((p.1.remove cid).1, p.2 ++ (p.1.remove cid).2.toList)) (w, expired) =
      ((cids.foldl (fun w cid => (w.remove cid).1) w), expired ++ entries) ∧
      Gives w (cids.foldl (fun w cid => (w.remove cid).1) w) entries ∧
      Queued (cids.foldl (fun w cid => (w.remove cid).1) w) recorded := by
  induction cids generalizing w expired with
  | nil => exact ⟨[], by simp, gives_nil rfl rfl, h⟩
  | cons cid cids ih =>
    obtain ⟨entries, heq, hgives, hqueued⟩ :=
      ih (h.remove cid) (expired ++ (w.remove cid).2.toList)
    refine ⟨(w.remove cid).2.toList ++ entries, ?_, (remove_spec h cid).trans hgives, hqueued⟩
    rw [List.foldl_cons, heq, List.foldl_cons, List.append_assoc]

theorem cleanupExpired_spec (h : Queued w recorded) (order : List Cid) (reading : Cid → ℕ) :
    Gives w (w.cleanupExpired order reading).1 (w.cleanupExpired order reading).2 ∧
      Queued (w.cleanupExpired order reading).1 recorded := by
  obtain ⟨entries, heq, hgives, hqueued⟩ := foldl_remove_spec h
    (order.filter fun cid =>
      ((w.entries.lookup cid).map fun entry => entry.1.isExpired (reading cid)).getD false) []
  have hresult : w.cleanupExpired order reading = _ := heq
  rw [hresult]
  exact ⟨hgives, hqueued⟩

theorem pop_spec (h : Queued w recorded) (tie : List HeapEntry → ℕ) :
    Gives w (w.pop tie).1 (w.pop tie).2.toList ∧ Queued (w.pop tie).1 recorded := by
  obtain ⟨hconfig, ⟨hnone, hempty, hempty', hqueued⟩ |
    ⟨c, e, v, hlookup, hsome, hentries, hqueued, -⟩⟩ := h.pop_cases tie
  · rw [hnone]
    exact ⟨gives_nil (hempty'.trans hempty.symm) hconfig, hqueued⟩
  · rw [hsome]
    exact ⟨gives_erase hlookup (h.cid_eq c e v hlookup) hentries hconfig, hqueued⟩

/-- **An addition** is refused, or makes an entry for a CID that had none. -/
theorem add_spec (h : Queued w recorded) (entry : WantEntry) (now : ℕ) :
    ((w.add entry now) = (w, false)) ∨
    ((w.add entry now).2 = true ∧ entry.cid ∉ w.entries ∧ w.len < w.config.maxWants ∧
      (w.add entry now).1.len = w.len + 1 ∧ (w.add entry now).1.config = w.config ∧
      (∀ c, (w.add entry now).1.present c = w.present c + if entry.cid = c then 1 else 0) ∧
      (∀ c, (w.add entry now).1.get c = if entry.cid = c then some entry else w.get c) ∧
      Queued (w.add entry now).1
        (Function.update recorded entry.cid (entry.effectivePriority now))) := by
  unfold add
  split
  · exact .inl rfl
  · next hnew =>
    split
    · exact .inl rfl
    · next hroom =>
      -- the want is new, and there is room for it
      have hnone : w.entries.lookup entry.cid = none := AList.lookup_eq_none.mpr hnew
      refine .inr ⟨rfl, hnew, not_le.mp hroom, ?_, rfl, fun c => ?_, fun c => ?_, h.enqueue rfl⟩
      · show (w.entries.insert entry.cid _).entries.length = _
        rw [AssocMap.length_insert, AssocMap.erase_of_lookup_eq_none hnone]
        rfl
      · show (if c ∈ w.entries.insert entry.cid _ then 1 else 0) = _
        by_cases hc : entry.cid = c
        · subst hc
          simp [present, hnew]
        · simp [present, AList.mem_insert, hc, Ne.symm hc]
      · show ((w.entries.insert entry.cid _).lookup c).map Prod.fst = _
        by_cases hc : entry.cid = c
        · subst hc
          simp
        · rw [AList.lookup_insert_ne (Ne.symm hc), if_neg hc]
          rfl

end Operations

/-! ### Every run -/

section Runs

variable {config : WantListConfig} {history : List (WantOp × WantResult)} {w : WantList}
  {recorded : Cid → ℤ} {op : WantOp}

/-- What every step keeps. -/
structure Faithful (config : WantListConfig) (history : List (WantOp × WantResult)) (w : WantList)
    (recorded : Cid → ℤ) : Prop where
  queued : Queued w recorded
  config_eq : w.config = config
  len_le : w.len ≤ config.maxWants
  ledger : ∀ c, added history c = given history c + w.present c
  get : ∀ c e, w.get c = some e →
    ∃ a, lastAdded history c = some a ∧ e = { a with priority := e.priority }

theorem faithful_new (config : WantListConfig) (recorded : Cid → ℤ) :
    Faithful config [] (.new config) recorded where
  queued := queued_new config
  config_eq := rfl
  len_le := Nat.zero_le _
  ledger _ := rfl
  get _ _ h := by cases h

theorem Faithful.keep (h : Faithful config history w recorded) {history' : _} {w' : WantList}
    {recorded' : Cid → ℤ} (hkeeps : Keeps w w') (hqueued : Queued w' recorded')
    (hadded : added history' = added history) (hgiven : given history' = given history)
    (hlast : lastAdded history' = lastAdded history) : Faithful config history' w' recorded' where
  queued := hqueued
  config_eq := hkeeps.config.trans h.config_eq
  len_le := hkeeps.len.trans_le h.len_le
  ledger c := by rw [hadded, hgiven, hkeeps.present, h.ledger]
  get c e he := by
    obtain ⟨e₀, he₀, heq₀⟩ := hkeeps.get c e he
    obtain ⟨a, ha, heq⟩ := h.get c e₀ he₀
    exact ⟨a, hlast ▸ ha, by rw [heq₀, heq]⟩

theorem Faithful.give (h : Faithful config history w recorded) {history' : _} {w' : WantList}
    {entries : List WantEntry} (hgives : Gives w w' entries) (hqueued : Queued w' recorded)
    (hadded : added history' = added history)
    (hgiven : ∀ c, given history' c = given history c + entries.countP fun e => e.cid = c)
    (hlast : lastAdded history' = lastAdded history) : Faithful config history' w' recorded where
  queued := hqueued
  config_eq := hgives.config.trans h.config_eq
  len_le := hgives.len.trans h.len_le
  ledger c := by rw [hadded, hgiven, h.ledger, hgives.present, Nat.add_assoc]
  get c e he := hlast ▸ h.get c e (hgives.get c e he)

/-- **One step.** An addition is noted in the history; the others keep the wants, or give some out
and note that. -/
theorem Faithful.step (h : Faithful config history w recorded) :
    Faithful config ((op, (w.perform op).2) :: history) (w.perform op).1
      (w.record recorded op) := by
  cases op with
  | add entry now =>
    rw [perform, record]
    obtain hrefused | ⟨hok, -, hroom, hlen, hconfig, hpresent, hget, hqueued⟩ :=
      add_spec h.queued entry now
    · rw [hrefused]
      exact h.keep (Keeps.refl w) h.queued rfl rfl rfl
    · -- a want that is added is the last one for its CID
      rw [hok, if_pos rfl]
      refine ⟨hqueued, hconfig.trans h.config_eq, ?_, fun c => ?_, fun c e he => ?_⟩
      · rw [hlen, ← h.config_eq]
        exact hroom
      · show added history c + _ = given history c + _
        rw [hpresent, h.ledger, Nat.add_assoc]
      · rw [hget] at he
        show ∃ a, (if entry.cid = c then some entry else lastAdded history c) = some a ∧ _
        split at he
        · next hc =>
          obtain rfl := Option.some.inj he
          exact ⟨entry, if_pos hc, rfl⟩
        · next hc =>
          rw [if_neg hc]
          exact h.get c e he
  | remove cid =>
    exact h.give (remove_spec h.queued cid) (h.queued.remove cid) rfl (fun _ => rfl) rfl
  | updatePriority cid newPriority =>
    obtain ⟨hkeeps, hqueued⟩ := updatePriority_spec h.queued cid newPriority
    exact h.keep hkeeps hqueued rfl rfl rfl
  | boostDeadlinePriorities order now reading =>
    obtain ⟨hkeeps, hqueued⟩ := updateAll_spec h.queued (order.flatMap (w.boosts now reading))
    exact h.keep hkeeps hqueued rfl rfl rfl
  | cleanupExpired order reading =>
    obtain ⟨hgives, hqueued⟩ := cleanupExpired_spec h.queued order reading
    exact h.give hgives hqueued rfl (fun _ => rfl) rfl
  | pop tie =>
    obtain ⟨hgives, hqueued⟩ := pop_spec h.queued tie
    exact h.give hgives hqueued rfl (fun _ => rfl) rfl
  | clear =>
    exact ⟨queued_clear, h.config_eq, Nat.zero_le _, fun _ => rfl, fun _ _ he => by cases he⟩

theorem Run.toFaithful (h : Run config history w recorded) :
    Faithful config history w recorded := by
  induction h with
  | new => exact faithful_new config _
  | step _ _ ih => exact ih.step

/-- **A faithful priority queue.** In every run, there is at most one entry for a CID, the one that
was added last but for its priority, and there are at most `max_wants`. What was added since the
list was cleared was given out once or is there. `pop` returns nothing exactly when there is no
entry; what it returns is an entry with the greatest recorded priority, the earliest one among
several, and only this entry goes. -/
theorem Run.faithful (h : Run config history w recorded) :
    (∀ c e, w.get c = some e →
      e.cid = c ∧ ∃ a, lastAdded history c = some a ∧ e = { a with priority := e.priority }) ∧
    w.len ≤ config.maxWants ∧
    (∀ c, added history c = given history c + w.present c) ∧
    ∀ tie, ((w.pop tie).2 = none ↔ ∀ c, w.get c = none) ∧
      ∀ e, (w.pop tie).2 = some e → w.get e.cid = some e ∧
        (∀ c, (w.pop tie).1.get c = if c = e.cid then none else w.get c) ∧
        ∀ c e', w.get c = some e' → recorded c < recorded e.cid ∨
          recorded c = recorded e.cid ∧ e.createdAt ≤ e'.createdAt := by
  have hfaithful := h.toFaithful
  have hqueued := hfaithful.queued
  have hlookup : ∀ c e, w.get c = some e → ∃ v, w.entries.lookup c = some (e, v) := by
    intro c e he
    obtain ⟨⟨e', v⟩, hv, rfl⟩ := Option.map_eq_some_iff.mp he
    exact ⟨v, hv⟩
  refine ⟨fun c e he => ?_, hfaithful.len_le, hfaithful.ledger, fun tie => ?_⟩
  · obtain ⟨v, hv⟩ := hlookup c e he
    exact ⟨hqueued.cid_eq c e v hv, hfaithful.get c e he⟩
  · obtain ⟨-, ⟨hnone, hempty, -⟩ | ⟨c, e, v, hv, hsome, hentries, -, hgreatest⟩⟩ :=
      hqueued.pop_cases tie
    · refine ⟨iff_of_true hnone fun c => ?_, fun e he => ?_⟩
      · rw [WantList.get, hempty]
        rfl
      · rw [hnone] at he
        cases he
    · -- what is popped is a want, the greatest of them
      have hcid : e.cid = c := hqueued.cid_eq c e v hv
      have hget : w.get c = some e := by rw [WantList.get, hv]; rfl
      refine ⟨iff_of_false (by rw [hsome]; simp) fun hall => ?_, fun e' he' => ?_⟩
      · rw [hall c] at hget
        cases hget
      · obtain rfl := Option.some.inj (hsome.symm.trans he')
        rw [hcid]
        refine ⟨hget, fun c' => ?_, fun c' e' he' => ?_⟩
        · rw [WantList.get, hentries]
          by_cases hc : c' = c
          · rw [hc, AList.lookup_erase, if_pos rfl]
            rfl
          · rw [AList.lookup_erase_ne hc, if_neg hc]
            rfl
        · obtain ⟨v', hv'⟩ := hlookup c' e' he'
          exact hgreatest c' e' v' hv'

end Runs

section Sample

open scoped CidReference

/-- Two CIDs, the first of which gets the higher priority by an update. It comes out first, although
the item that was made when it was added is still in the heap. -/
theorem Run.faithful_two :
    let _ := CidReference.byteHash
    let a : Cid := Cid.ofData Codec.raw .sha256 [0]
    let b : Cid := Cid.ofData Codec.raw .sha256 [1]
    let w₁ := ((WantList.new ⟨8, 30⟩).perform (.add (.new a 10 30 0) 0)).1
    let w₂ := (w₁.perform (.add (.new b 20 30 1) 1)).1
    let w₃ := (w₂.perform (.updatePriority a 100)).1
    (w₃.pop fun _ => 0).2 = some { WantEntry.new a 10 30 0 with priority := 100 } ∧
      (w₃.pop fun _ => 0).1.get b = w₃.get b := by
  intro _ a b w₁ w₂ w₃
  have hrun : Run ⟨8, 30⟩ _ w₃ _ := .step (.step (.step .new trivial) trivial) trivial
  have hpop : (w₃.pop fun _ => 0).2 = some { WantEntry.new a 10 30 0 with priority := 100 } := by
    decide +kernel
  obtain ⟨-, hothers, -⟩ := (hrun.faithful.2.2.2 fun _ => 0).2 _ hpop
  exact ⟨hpop, (hothers b).trans (if_neg (by decide +kernel))⟩

end Sample

end WantList

end Ipfrs.Transport
