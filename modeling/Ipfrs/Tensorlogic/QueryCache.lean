import Ipfrs.Core.Float64
import Ipfrs.Lib.Lru
import Ipfrs.Tensorlogic.Reasoning

/-!
# Cached answers

The engine with a cache in front of it. The cache is a least-recently-used map from keys to answers
with the time at which they were found, and the key of a goal keeps its name and, of its arguments,
only what a constant is: every variable, compound term and reference has the same key.

A cached answer is the engine's answer to *some* goal with that key (`Valid`), which every query
keeps, whatever is driven out or expires.

* `query_spec` — one query answers with a cached answer or with the engine's, and keeps this;
* `run_eq` — so the answers are the engine's if goals with one key have one answer;
* `run_eq_iff` — and only then.
-/

namespace Ipfrs.Tensorlogic

/-! ### Keys -/

/-- `GroundArg`. A floating point number is kept as its bits. -/
inductive GroundArg where
  | string (s : String)
  | int (i : Int64)
  | float (bits : UInt64)
  | variable
deriving DecidableEq

structure QueryKey where
  predicateName : String
  groundArgs : List GroundArg
deriving DecidableEq

/-- The key of one argument. -/
def GroundArg.ofTerm : Term → GroundArg
  | .const (.string s) => .string s
  | .const (.int i) => .int i
  | .const (.float f) => .float ((F64.parse f).getD 0)
  | .const (.bool b) => .int (if b then 1 else 0)
  | .var _ => .variable
  | .func _ _ => .variable
  | .ref _ => .variable

def QueryKey.fromPredicate (pred : Predicate) : QueryKey where
  predicateName := pred.name
  groundArgs := pred.args.map GroundArg.ofTerm

/-! ### The cache -/

/-- `CachedResult`, with readings of a clock for instants. -/
structure CachedResult where
  solutions : List Substitution
  cachedAt : ℕ
  ttl : Option ℕ

def CachedResult.isExpired (result : CachedResult) (now : ℕ) : Bool :=
  match result.ttl with
  | some ttl => now - result.cachedAt > ttl
  | none => false

structure QueryCache where
  cache : Lru QueryKey CachedResult
  defaultTtl : Option ℕ

namespace QueryCache

/-- `QueryCache::new` and `QueryCache::with_ttl`: a capacity of zero becomes 100. -/
def new (capacity : ℕ) (defaultTtl : Option ℕ) : QueryCache where
  cache := Lru.empty (if capacity = 0 then 100 else capacity) (by split <;> omega)
  defaultTtl := defaultTtl

/-- `QueryCache::get`: an expired entry goes. -/
def get (c : QueryCache) (now : ℕ) (key : QueryKey) : QueryCache × Option (List Substitution) :=
  match c.cache.get key with
  | (cache, some result) =>
    if result.isExpired now then ({ c with cache := (cache.pop key).1 }, none)
    else ({ c with cache := cache }, some result.solutions)
  | (cache, none) => ({ c with cache := cache }, none)

def insert (c : QueryCache) (now : ℕ) (key : QueryKey) (solutions : List Substitution) :
    QueryCache :=
  let result := { solutions := solutions, cachedAt := now, ttl := c.defaultTtl }
  { c with cache := (c.cache.put key result).1 }

end QueryCache

structure MemoizedInferenceEngine where
  engine : InferenceEngine
  cache : QueryCache

namespace MemoizedInferenceEngine

/-- `MemoizedInferenceEngine::query`. An empty answer is not cached. -/
def query (m : MemoizedInferenceEngine) (fuel : ℕ) (kb : KnowledgeBase) (now : ℕ)
    (goal : Predicate) : MemoizedInferenceEngine × Option (List Substitution) :=
  let key := QueryKey.fromPredicate goal
  match m.cache.get now key with
  | (cache, some cached) => ({ m with cache := cache }, some cached)
  | (cache, none) =>
    match m.engine.query fuel kb goal with
    | some solutions =>
      if solutions.isEmpty then ({ m with cache := cache }, some solutions)
      else ({ m with cache := cache.insert now key solutions }, some solutions)
    | none => ({ m with cache := cache }, none)

/-- A sequence of queries, each with the reading of the clock, and their answers. -/
def run (fuel : ℕ) (kb : KnowledgeBase) :
    MemoizedInferenceEngine → List (ℕ × Predicate) → List (Option (List Substitution))
  | _, [] => []
  | m, (now, goal) :: calls =>
    (m.query fuel kb now goal).2 :: run fuel kb (m.query fuel kb now goal).1 calls

end MemoizedInferenceEngine

/-! ### What the cache holds -/

section

variable {fuel : ℕ} {kb : KnowledgeBase} {G : Set Predicate}

/-- Goals with one key have one answer, if one of them has an answer that is cached. -/
def KeysDecide (engine : InferenceEngine) (fuel : ℕ) (kb : KnowledgeBase) (G : Set Predicate) :
    Prop :=
  ∀ g ∈ G, ∀ g' ∈ G, QueryKey.fromPredicate g = QueryKey.fromPredicate g' →
    ∀ sols, sols ≠ [] → engine.query fuel kb g = some sols → engine.query fuel kb g' = some sols

/-- A cached answer is the engine's answer to every goal with its key. -/
def Valid (fuel : ℕ) (kb : KnowledgeBase) (G : Set Predicate) (engine : InferenceEngine)
    (cache : QueryCache) : Prop :=
  ∀ key result, cache.cache.lookup key = some result →
    ∀ g ∈ G, QueryKey.fromPredicate g = key → engine.query fuel kb g = some result.solutions

theorem valid_new (engine : InferenceEngine) (capacity : ℕ) (ttl : Option ℕ) :
    Valid fuel kb G engine (.new capacity ttl) := by
  intro key result h
  rw [QueryCache.new, Lru.lookup_empty] at h
  cases h

theorem get_spec (c : QueryCache) (now : ℕ) (key : QueryKey) :
    (∀ key' result, (c.get now key).1.cache.lookup key' = some result →
      c.cache.lookup key' = some result) ∧
    ∀ sols, (c.get now key).2 = some sols →
      ∃ result, c.cache.lookup key = some result ∧ result.solutions = sols := by
  obtain ⟨hvalue, -, hlookup⟩ := Lru.get_spec c.cache key
  rw [QueryCache.get]
  rcases hget : c.cache.get key with ⟨cache, value⟩
  rw [hget] at hvalue hlookup
  dsimp only at hvalue hlookup
  cases value with
  | none => exact ⟨fun key' result h => by rwa [hlookup] at h, fun sols h => by cases h⟩
  | some result =>
    dsimp only
    split
    · refine ⟨fun key' result' h => ?_, fun sols h => by cases h⟩
      rw [← hlookup]
      exact (Lru.of_lookup_pop h).2
    · refine ⟨fun key' result' h => by rwa [hlookup] at h, fun sols h => ?_⟩
      exact ⟨result, hvalue.symm, Option.some.inj h⟩

variable {m : MemoizedInferenceEngine} {engine : InferenceEngine}

/-- **One query** gives the engine's answer, and the cache holds nothing else after it. -/
theorem query_spec (hkeys : KeysDecide m.engine fuel kb G)
    (hvalid : Valid fuel kb G m.engine m.cache) (now : ℕ) {goal : Predicate} (hgoal : goal ∈ G) :
    (m.query fuel kb now goal).2 = m.engine.query fuel kb goal ∧
      (m.query fuel kb now goal).1.engine = m.engine ∧
      Valid fuel kb G m.engine (m.query fuel kb now goal).1.cache := by
  obtain ⟨hentries, hanswer⟩ := get_spec m.cache now (.fromPredicate goal)
  have hget : Valid fuel kb G m.engine (m.cache.get now (.fromPredicate goal)).1 :=
    fun key result h => hvalid key result (hentries key result h)
  rw [MemoizedInferenceEngine.query]
  rcases hcache : m.cache.get now (.fromPredicate goal) with ⟨cache, cached⟩
  rw [hcache] at hget hanswer
  cases cached with
  | some sols =>
    obtain ⟨result, hresult, rfl⟩ := hanswer sols rfl
    exact ⟨(hvalid _ result hresult goal hgoal rfl).symm, rfl, hget⟩
  | none =>
    cases hquery : m.engine.query fuel kb goal with
    | none => exact ⟨rfl, rfl, hget⟩
    | some sols =>
      dsimp only
      split
      · exact ⟨rfl, rfl, hget⟩
      · next hne =>
        refine ⟨rfl, rfl, fun key result h g hg hkey => ?_⟩
        rcases Lru.of_lookup_push h with ⟨rfl, rfl⟩ | ⟨-, h⟩
        · exact hkeys goal hgoal g hg hkey.symm sols (by simpa using hne) hquery
        · exact hget key result h g hg hkey

/-- **The answers are the engine's** if goals with one key have one answer, also when entries expire
or are driven out. -/
theorem run_eq (hkeys : KeysDecide m.engine fuel kb G) (hvalid : Valid fuel kb G m.engine m.cache)
    {calls : List (ℕ × Predicate)} (hcalls : ∀ c ∈ calls, c.2 ∈ G) :
    m.run fuel kb calls = calls.map fun c => m.engine.query fuel kb c.2 := by
  induction calls generalizing m with
  | nil => rfl
  | cons c calls ih =>
    obtain ⟨now, goal⟩ := c
    obtain ⟨hgoal, hrest⟩ := List.forall_mem_cons.mp hcalls
    obtain ⟨hanswer, hengine, hcache⟩ := query_spec hkeys hvalid now hgoal
    rw [MemoizedInferenceEngine.run, List.map_cons, hanswer]
    congr 1
    rw [← hengine] at hkeys hcache
    have htail := ih hkeys hcache hrest
    rwa [hengine] at htail

/-- No entry expires: no two readings of the clock are further apart than the time to live. -/
def NoExpiry (ttl : Option ℕ) (calls : List (ℕ × Predicate)) : Prop :=
  ∀ t, ttl = some t → ∀ c ∈ calls, ∀ c' ∈ calls, c.1 - c'.1 ≤ t

/-- Right after a query with a non-empty answer, a goal with the same key gets that answer. -/
theorem query_again (capacity : ℕ) (ttl : Option ℕ) {g g' : Predicate}
    (hkey : QueryKey.fromPredicate g = QueryKey.fromPredicate g') {sols : List Substitution}
    (hne : sols ≠ []) (hquery : engine.query fuel kb g = some sols) :
    MemoizedInferenceEngine.run fuel kb ⟨engine, .new capacity ttl⟩ [(0, g), (0, g')] =
      [some sols, some sols] := by
  let empty : QueryCache := .new capacity ttl
  have hempty : ∀ key, empty.cache.lookup key = none := fun key => Lru.lookup_empty ..
  have hmiss : ∀ key, empty.get 0 key = (empty, none) := by
    intro key
    rw [QueryCache.get, Lru.get_of_lookup_eq_none (hempty key)]
  have hfirst : MemoizedInferenceEngine.query ⟨engine, empty⟩ fuel kb 0 g =
      (⟨engine, empty.insert 0 (.fromPredicate g) sols⟩, some sols) := by
    rw [MemoizedInferenceEngine.query, hmiss]
    dsimp only
    rw [hquery]
    dsimp only
    rw [if_neg (by simpa using hne)]
  -- the entry is there, and no time has passed
  let result : CachedResult := { solutions := sols, cachedAt := 0, ttl := ttl }
  have hroom : empty.cache.lookup (.fromPredicate g) = none →
      empty.cache.size < empty.cache.capacity := fun _ => empty.cache.pos
  have hentry : (empty.insert 0 (.fromPredicate g) sols).cache.lookup (.fromPredicate g') =
      some result := by
    show (empty.cache.push (.fromPredicate g) result).1.lookup (.fromPredicate g') = _
    rw [Lru.lookup_push_of_room hroom, if_pos hkey.symm]
  have hfresh : result.isExpired 0 = false := by
    cases ttl <;> rfl
  have hsecond : (MemoizedInferenceEngine.query
      ⟨engine, empty.insert 0 (.fromPredicate g) sols⟩ fuel kb 0 g').2 = some sols := by
    obtain ⟨hvalue, -, -⟩ := Lru.get_spec (empty.insert 0 (.fromPredicate g) sols).cache
      (.fromPredicate g')
    rw [hentry] at hvalue
    rw [MemoizedInferenceEngine.query, QueryCache.get]
    rcases hget : (empty.insert 0 (.fromPredicate g) sols).cache.get (.fromPredicate g')
      with ⟨cache, value⟩
    rw [hget] at hvalue
    dsimp only at hvalue
    subst hvalue
    dsimp only
    rw [hfresh]
    rfl
  rw [MemoizedInferenceEngine.run, MemoizedInferenceEngine.run, MemoizedInferenceEngine.run]
  show [_, _] = _
  rw [hfirst, hsecond]

/-- **The cache changes no answer** of any sequence of queries for goals of `G` if and only if goals
of `G` with one key have one answer, where one of them has an answer that is cached. -/
theorem run_eq_iff {capacity : ℕ} {ttl : Option ℕ} :
    (∀ calls : List (ℕ × Predicate), (∀ c ∈ calls, c.2 ∈ G) → NoExpiry ttl calls →
      MemoizedInferenceEngine.run fuel kb ⟨engine, .new capacity ttl⟩ calls =
        calls.map fun c => engine.query fuel kb c.2) ↔
      KeysDecide engine fuel kb G := by
  constructor
  · intro h g hg g' hg' hkey sols hne hquery
    have hrun := h [(0, g), (0, g')] (by simp [hg, hg']) (by
      intro t _ c hc c' hc'
      have hzero : ∀ c ∈ [((0 : ℕ), g), (0, g')], c.1 = 0 := by simp
      rw [hzero c hc, hzero c' hc']
      exact Nat.zero_le t)
    rw [query_again capacity ttl hkey hne hquery] at hrun
    exact (List.cons.inj (List.cons.inj hrun).2).1.symm
  · intro hkeys calls hcalls _
    exact run_eq (m := ⟨engine, .new capacity ttl⟩) hkeys (valid_new engine capacity ttl) hcalls

end

/-- Variables have one key: after `p(X)`, the goal `p(Y)` is answered with a binding of `X`. -/
theorem run_renamed_goal :
    MemoizedInferenceEngine.run 1 ⟨[⟨"p", [.const (.string "a")]⟩], []⟩
        ⟨⟨100, 100⟩, .new 100 none⟩ [(0, ⟨"p", [.var "X"]⟩), (0, ⟨"p", [.var "Y"]⟩)] ≠
      [(0, ⟨"p", [.var "X"]⟩), (0, ⟨"p", [.var "Y"]⟩)].map fun c : ℕ × Predicate =>
        InferenceEngine.query ⟨100, 100⟩ 1 ⟨[⟨"p", [.const (.string "a")]⟩], []⟩ c.2 := by
  intro h
  have hX : InferenceEngine.query ⟨100, 100⟩ 1 ⟨[⟨"p", [.const (.string "a")]⟩], []⟩
      ⟨"p", [.var "X"]⟩ = some [Finmap.insert "X" (.const (.string "a")) ∅] := by
    rfl
  have hY : InferenceEngine.query ⟨100, 100⟩ 1 ⟨[⟨"p", [.const (.string "a")]⟩], []⟩
      ⟨"p", [.var "Y"]⟩ = some [Finmap.insert "Y" (.const (.string "a")) ∅] := by
    rfl
  have hkey : QueryKey.fromPredicate ⟨"p", [.var "X"]⟩ =
      QueryKey.fromPredicate ⟨"p", [.var "Y"]⟩ := rfl
  rw [query_again 100 none hkey (by simp) hX, List.map_cons, List.map_cons, hX, hY] at h
  simp only [List.map_nil, List.cons.injEq, Option.some.injEq, and_true, true_and] at h
  have hlookup := congrArg (fun s : Substitution => s.lookup "X") h
  simp only [Finmap.lookup_insert] at hlookup
  cases hlookup

end Ipfrs.Tensorlogic
