import Ipfrs.Core.DagCbor
import Ipfrs.Core.Fnv

/-!
# Merkle trees of manifests

The Merkle tree over the CIDs of a manifest (`ipfrs-core/src/manifest.rs`).

`verify_proof` recomputes the root and knows nothing else about the tree: it takes proofs of any
length and any index. `verifyProof_sound` says what an accepted proof stands for when the index is
one of the list and the proof is as long as the one that `proof_for` returns, and
`verifyProof_proofFor` that these proofs are accepted.

`build` keeps all levels in one list, and `proof_for` finds its way in it by running offsets. The
lemmas about it split the list at the offset: the levels below, a level, and the levels above
(`exists_proofLoop`).
-/

namespace Ipfrs.Manifest

/-! ### Hashes as strings -/

/-- A digit of `{:016x}`. -/
def hexDigit (d : ℕ) : Char := "0123456789abcdef".toList.getD d '0'

/-- The last `k` hexadecimal digits of a number. -/
def hexDigits : ℕ → ℕ → String
  | 0, _ => ""
  | k + 1, n => (hexDigits k (n / 16)).push (hexDigit (n % 16))

def fnv1aHex (data : Bytes) : String := hexDigits 16 (fnv1a data).toNat

def combineHashes (left right : String) : String := fnv1aHex (utf8 left ++ utf8 right)

/-! ### The tree -/

structure MerkleTree where
  leaves : List String
  nodes : List String
  deriving DecidableEq, Repr

/-- The next level: pairs are combined, and the last node of an odd level with itself. -/
def nextLevel : List String → List String
  | left :: right :: level => combineHashes left right :: nextLevel level
  | [last] => [combineHashes last last]
  | [] => []

/-- The loop of `build`: the levels above `current_level`, one after the other. -/
def levelsAbove : ℕ → List String → List String
  | 0, _ => []
  | fuel + 1, level =>
    if level.length > 1 then nextLevel level ++ levelsAbove fuel (nextLevel level) else []

namespace MerkleTree

/-- The hashes of the leaves. -/
def leafHashes (cids : List String) : List String := cids.map fun c => fnv1aHex (utf8 c)

/-- `MerkleTree::build`. Every level is shorter than the one below, so the loop goes round less than
`cids.len()` times. -/
def build (cids : List String) : MerkleTree :=
  if cids = [] then ⟨[], []⟩
  else ⟨cids, leafHashes cids ++ levelsAbove cids.length (leafHashes cids)⟩

def root (tree : MerkleTree) : Option String := tree.nodes.getLast?

/-- The loop of `proof_for`. -/
def proofLoop (nodes : List String) : ℕ → ℕ → ℕ → ℕ → Except Fault (List String)
  | 0, _, _, _ => .ok []
  | fuel + 1, currentIndex, levelSize, levelStart =>
    if levelSize > 1 then
      let siblingIndex :=
        if currentIndex % 2 = 0 then min (currentIndex + 1) (levelSize - 1) else currentIndex - 1
      match nodes[levelStart + siblingIndex]? with
      | none => .error (.panic "index out of bounds")
      | some sibling => do
        let proof ← proofLoop nodes fuel (currentIndex / 2) ((levelSize + 1) / 2)
          (levelStart + levelSize)
        return sibling :: proof
    else .ok []

def proofFor (tree : MerkleTree) (index : ℕ) : Except Fault (Option (List String)) :=
  let n := tree.leaves.length
  if n = 0 ∨ index ≥ n then .ok none
  else do
    let proof ← proofLoop tree.nodes n index n 0
    return some proof

/-- The body of the loop of `verify_proof`. -/
def walkStep (current : String × ℕ) (sibling : String) : String × ℕ :=
  (if current.2 % 2 = 0 then combineHashes current.1 sibling
    else combineHashes sibling current.1, current.2 / 2)

def verifyProof (leaf : String) (index : ℕ) (proof : List String) (root : String) : Bool :=
  (proof.foldl walkStep (fnv1aHex (utf8 leaf), index)).1 == root

end MerkleTree

/-! ### Strings of hashes -/

theorem utf8_injective : Function.Injective utf8 := by
  intro s t h
  have hs := fromUtf8_utf8 s
  rw [h, fromUtf8_utf8] at hs
  exact (Option.some.inj hs).symm

theorem hexDigit_injective {d e : ℕ} (hd : d < 16) (he : e < 16) (h : hexDigit d = hexDigit e) :
    d = e := by
  have hall : ∀ d < 16, ∀ e < 16, hexDigit d = hexDigit e → d = e := by decide
  exact hall d hd e he h

theorem length_hexDigits (k n : ℕ) : (utf8 (hexDigits k n)).length = k := by
  induction k generalizing n with
  | zero => rfl
  | succ k ih =>
    have hsize : ∀ d < 16, (hexDigit d).utf8Size = 1 := by decide
    have hk := ih (n / 16)
    rw [length_utf8] at hk ⊢
    rw [hexDigits, String.utf8ByteSize_push, hk, hsize _ (Nat.mod_lt _ (by omega))]

variable {n i fuel index size : ℕ} {level cids proof : List String} {x current r y leaf : String}

theorem hexDigits_injective {k m : ℕ} (hn : n < 16 ^ k) (hm : m < 16 ^ k)
    (h : hexDigits k n = hexDigits k m) : n = m := by
  induction k generalizing n m with
  | zero => omega
  | succ k ih =>
    rw [hexDigits, hexDigits] at h
    have hlist := congrArg String.toList h
    rw [String.toList_push, String.toList_push] at hlist
    obtain ⟨hhigh, hlow⟩ := List.append_inj' hlist rfl
    have hdiv := ih (n := n / 16) (m := m / 16) (by omega) (by omega) (String.toList_inj.mp hhigh)
    have hmod := hexDigit_injective (Nat.mod_lt n (by omega)) (Nat.mod_lt m (by omega))
      (List.cons.inj hlow).1
    omega

@[simp] theorem length_fnv1aHex (data : Bytes) : (utf8 (fnv1aHex data)).length = 16 :=
  length_hexDigits 16 _

theorem fnv1aHex_inj {d d' : Bytes} : fnv1aHex d = fnv1aHex d' ↔ fnv1a d = fnv1a d' := by
  refine ⟨fun h => UInt64.toNat_inj.mp ?_, fun h => by rw [fnv1aHex, h, fnv1aHex]⟩
  exact hexDigits_injective (fnv1a d).toNat_lt (fnv1a d').toNat_lt h

/-! ### What is hashed -/

/-- The byte strings that `nextLevel` hashes. -/
def levelInputs : List String → List Bytes
  | left :: right :: level => (utf8 left ++ utf8 right) :: levelInputs level
  | [last] => [utf8 last ++ utf8 last]
  | [] => []

/-- The byte strings that the loop of `build` hashes. -/
def inputsAbove : ℕ → List String → List Bytes
  | 0, _ => []
  | fuel + 1, level =>
    if level.length > 1 then levelInputs level ++ inputsAbove fuel (nextLevel level) else []

/-- The byte strings that `build` hashes. -/
def buildInputs (cids : List String) : List Bytes :=
  cids.map utf8 ++ inputsAbove cids.length (MerkleTree.leafHashes cids)

/-- The byte strings that the loop of `verify_proof` hashes. -/
def walkInputs : String → ℕ → List String → List Bytes
  | _, _, [] => []
  | current, index, sibling :: proof =>
    (if index % 2 = 0 then utf8 current ++ utf8 sibling else utf8 sibling ++ utf8 current)
      :: walkInputs (MerkleTree.walkStep (current, index) sibling).1 (index / 2) proof

/-- The byte strings that `verify_proof` hashes. -/
def verifyInputs (leaf : String) (index : ℕ) (proof : List String) : List Bytes :=
  utf8 leaf :: walkInputs (fnv1aHex (utf8 leaf)) index proof

/-- The hash function is injective on the byte strings that are hashed. -/
def CollisionFree (cids : List String) (leaf : String) (index : ℕ) (proof : List String) : Prop :=
  Set.InjOn fnv1a {d | d ∈ buildInputs cids ∨ d ∈ verifyInputs leaf index proof}

theorem nextLevel_eq (level : List String) :
    nextLevel level = (levelInputs level).map fnv1aHex := by
  induction level using nextLevel.induct with
  | case1 left right level ih => rw [nextLevel, levelInputs, List.map_cons, ih, combineHashes]
  | case2 last => rfl
  | case3 => rfl

theorem length_nextLevel (level : List String) :
    (nextLevel level).length = (level.length + 1) / 2 := by
  induction level using nextLevel.induct with
  | case1 left right level ih =>
    rw [nextLevel, List.length_cons, ih, List.length_cons, List.length_cons]
    omega
  | case2 last => rw [nextLevel, List.length_singleton, List.length_singleton]
  | case3 => rfl

theorem walkStep_fst (current : String) (index : ℕ) (sibling : String) :
    (MerkleTree.walkStep (current, index) sibling).1
      = fnv1aHex (if index % 2 = 0 then utf8 current ++ utf8 sibling
        else utf8 sibling ++ utf8 current) := by
  unfold MerkleTree.walkStep
  dsimp only
  split <;> rfl

/-- All of them are strings of 16 bytes, as the hashes are. -/
def Hashes (level : List String) : Prop := ∀ s ∈ level, (utf8 s).length = 16

theorem hashes_nextLevel (level : List String) : Hashes (nextLevel level) := by
  intro s hs
  rw [nextLevel_eq] at hs
  obtain ⟨d, -, rfl⟩ := List.mem_map.mp hs
  exact length_fnv1aHex d

/-- What is hashed for the parent of a node: its own hash, on its side. -/
theorem levelInputs_parent (hlevel : Hashes level) (hx : level[i]? = some x) :
    ∃ y : String, (utf8 y).length = 16 ∧ (levelInputs level)[i / 2]?
      = some (if i % 2 = 0 then utf8 x ++ utf8 y else utf8 y ++ utf8 x) := by
  induction level using nextLevel.induct generalizing i with
  | case1 left right level ih =>
    obtain _ | _ | i := i
    · obtain rfl := Option.some.inj hx
      exact ⟨right, hlevel right (by simp), rfl⟩
    · obtain rfl := Option.some.inj hx
      exact ⟨left, hlevel left (by simp), rfl⟩
    · -- two places further on
      have hrest : Hashes level := fun s hs =>
        hlevel s (List.mem_cons_of_mem _ (List.mem_cons_of_mem _ hs))
      obtain ⟨y, hy, hget⟩ := ih hrest hx
      refine ⟨y, hy, ?_⟩
      rw [show (i + 1 + 1) / 2 = i / 2 + 1 by omega, show (i + 1 + 1) % 2 = i % 2 by omega]
      exact hget
  | case2 last =>
    obtain _ | i := i
    · obtain rfl := Option.some.inj hx
      exact ⟨last, hlevel last (by simp), rfl⟩
    · exact absurd hx (by simp)
  | case3 => exact absurd hx (by simp)

/-! ### Soundness -/

/-- The level that is left when the loop of `build` ends. -/
def topLevel : ℕ → List String → List String
  | 0, level => level
  | fuel + 1, level => if level.length > 1 then topLevel fuel (nextLevel level) else level

/-- The number of levels above one of `n` nodes. -/
def levelsOver : ℕ → ℕ → ℕ
  | 0, _ => 0
  | fuel + 1, n => if n > 1 then levelsOver fuel ((n + 1) / 2) + 1 else 0

theorem topLevel_spec (hne : level ≠ []) (hfuel : level.length ≤ fuel + 1) :
    ∃ r, topLevel fuel level = [r] ∧ (level ++ levelsAbove fuel level).getLast? = some r := by
  -- a level that is not cut any more has one node
  have hsingle : ∀ level : List String, level ≠ [] → level.length ≤ 1 → ∃ r, level = [r] := by
    intro level hne hle
    refine List.length_eq_one_iff.mp ?_
    have hpos := List.length_pos_of_ne_nil hne
    omega
  induction fuel generalizing level with
  | zero =>
    obtain ⟨r, rfl⟩ := hsingle level hne hfuel
    exact ⟨r, rfl, rfl⟩
  | succ fuel ih =>
    rw [topLevel, levelsAbove]
    split
    · next hlen =>
      have hnext := length_nextLevel level
      have hne' : nextLevel level ≠ [] := by
        rw [← List.length_pos_iff, hnext]
        omega
      obtain ⟨r, htop, hlast⟩ := ih hne' (by omega)
      refine ⟨r, htop, ?_⟩
      rw [List.getLast?_append, hlast, Option.some_or]
    · next hlen =>
      obtain ⟨r, rfl⟩ := hsingle level hne (by omega)
      exact ⟨r, rfl, rfl⟩

@[simp] theorem length_leafHashes (cids : List String) :
    (MerkleTree.leafHashes cids).length = cids.length := List.length_map _

theorem hashes_leafHashes (cids : List String) : Hashes (MerkleTree.leafHashes cids) := by
  intro s hs
  obtain ⟨c, -, rfl⟩ := List.mem_map.mp hs
  exact length_fnv1aHex _

theorem build_of_ne_nil (hne : cids ≠ []) : MerkleTree.build cids
    = ⟨cids, MerkleTree.leafHashes cids
      ++ levelsAbove cids.length (MerkleTree.leafHashes cids)⟩ := if_neg hne

theorem exists_root (hne : cids ≠ []) :
    ∃ r, (MerkleTree.build cids).root = some r ∧
      topLevel cids.length (MerkleTree.leafHashes cids) = [r] := by
  have hne' : MerkleTree.leafHashes cids ≠ [] := fun hnil => hne (List.map_eq_nil_iff.mp hnil)
  obtain ⟨r, htop, hlast⟩ :=
    topLevel_spec hne' ((length_leafHashes cids).le.trans (Nat.le_succ _))
  refine ⟨r, ?_, htop⟩
  rw [build_of_ne_nil hne]
  exact hlast

theorem proofLoop_length {nodes : List String} {start : ℕ}
    (h : MerkleTree.proofLoop nodes fuel index size start = .ok proof) :
    proof.length = levelsOver fuel size := by
  induction fuel generalizing index size start proof with
  | zero =>
    obtain rfl := Except.ok.inj h
    rfl
  | succ fuel ih =>
    unfold MerkleTree.proofLoop at h
    rw [levelsOver]
    split at h
    · next hsize =>
      rw [if_pos hsize]
      dsimp only at h
      split at h
      · exact absurd h (by simp)
      · obtain ⟨rest, hrest, hproof⟩ := Except.bind_eq_ok_iff.mp h
        obtain rfl := Except.ok.inj hproof
        rw [List.length_cons, ih hrest]
    · next hsize =>
      obtain rfl := Except.ok.inj h
      rw [if_neg hsize]
      rfl

theorem eq_of_walk_nil (hx : level[index]? = some x) (hlen : proof.length = 0) (htop : level = [r])
    (hr : (proof.foldl MerkleTree.walkStep (current, index)).1 = r) : current = x := by
  subst htop
  obtain rfl := List.length_eq_zero_iff.mp hlen
  obtain _ | index := index
  · exact hr.trans (Option.some.inj hx)
  · exact absurd hx (by simp)

/-- Two pairs with the same bytes have the same node at the index, if those nodes are equally long:
it is the half on the side of the index. -/
theorem eq_of_pair_eq {x' y' : String} (hlen : (utf8 x).length = (utf8 x').length)
    (h : (if index % 2 = 0 then utf8 x ++ utf8 y else utf8 y ++ utf8 x)
      = if index % 2 = 0 then utf8 x' ++ utf8 y' else utf8 y' ++ utf8 x') : x = x' := by
  apply utf8_injective
  by_cases heven : index % 2 = 0
  · rw [if_pos heven, if_pos heven] at h
    exact (List.append_inj h hlen).1
  · rw [if_neg heven, if_neg heven] at h
    exact (List.append_inj' h hlen).2

/-- **A walk of the right length that ends at the top** began at the node with its index. The
induction goes up the levels, and the argument comes back down: equal hashes come from equal byte
strings, and the node on the way is the half of them on its side. -/
theorem eq_of_walk {S : Set Bytes} (hfree : Set.InjOn fnv1a S) (hlevel : Hashes level)
    (hcurrent : (utf8 current).length = 16) (hfuel : level.length ≤ fuel + 1)
    (hx : level[index]? = some x) (hlen : proof.length = levelsOver fuel level.length)
    (hbuild : ∀ d ∈ inputsAbove fuel level, d ∈ S)
    (hwalk : ∀ d ∈ walkInputs current index proof, d ∈ S) (htop : topLevel fuel level = [r])
    (hr : (proof.foldl MerkleTree.walkStep (current, index)).1 = r) : current = x := by
  induction fuel generalizing level index x current proof with
  | zero => exact eq_of_walk_nil hx hlen htop hr
  | succ fuel ih =>
    rw [topLevel] at htop
    rw [levelsOver] at hlen
    rw [inputsAbove] at hbuild
    by_cases hmany : level.length > 1
    · rw [if_pos hmany] at htop hlen hbuild
      obtain _ | ⟨sibling, proof⟩ := proof
      · exact absurd hlen (by simp)
      have hnext := length_nextLevel level
      obtain ⟨y, hy, hparent⟩ := levelInputs_parent hlevel hx
      set treeInput := if index % 2 = 0 then utf8 x ++ utf8 y else utf8 y ++ utf8 x with htree
      set walkInput := if index % 2 = 0 then utf8 current ++ utf8 sibling
        else utf8 sibling ++ utf8 current with hinput
      have hstep : MerkleTree.walkStep (current, index) sibling
          = (fnv1aHex walkInput, index / 2) := Prod.ext (walkStep_fst current index sibling) rfl
      have hup : (nextLevel level)[index / 2]? = some (fnv1aHex treeInput) := by
        rw [nextLevel_eq, List.getElem?_map, hparent, Option.map_some]
      -- one level up, the walk is at the parent
      have heq : fnv1aHex walkInput = fnv1aHex treeInput := by
        have hlen' : proof.length = levelsOver fuel (nextLevel level).length := by
          rw [hnext]
          simpa using hlen
        rw [List.foldl_cons, hstep] at hr
        refine ih (hashes_nextLevel level) (length_fnv1aHex _) (by omega) hup hlen'
          (fun d hd => hbuild d (List.mem_append_right _ hd)) (fun d hd => ?_) htop hr
        refine hwalk d ?_
        rw [walkInputs, hstep]
        exact List.mem_cons_of_mem _ hd
      have hbytes : walkInput = treeInput := by
        refine hfree (hwalk _ ?_) (hbuild _ (List.mem_append_left _ ?_)) (fnv1aHex_inj.mp heq)
        · rw [walkInputs]
          exact List.mem_cons_self
        · exact List.mem_of_getElem? hparent
      -- the nodes on the way have 16 bytes, so the halves agree
      have hxlen : (utf8 x).length = 16 := hlevel x (List.mem_of_getElem? hx)
      exact eq_of_pair_eq (hcurrent.trans hxlen.symm) hbytes
    · rw [if_neg hmany] at htop hlen
      exact eq_of_walk_nil hx hlen htop hr

/-- **Soundness of Merkle proofs.** When an accepted proof is as long as the one that `proof_for`
returns for its index, its leaf is the CID at that index. -/
theorem verifyProof_sound {honest : List String} (hroot : (MerkleTree.build cids).root = some r)
    (hhonest : (MerkleTree.build cids).proofFor index = .ok (some honest))
    (hlen : proof.length = honest.length) (hfree : CollisionFree cids leaf index proof)
    (haccept : MerkleTree.verifyProof leaf index proof r = true) : cids[index]? = some leaf := by
  have hne : cids ≠ [] := by
    rintro rfl
    exact absurd hroot (by simp [MerkleTree.build, MerkleTree.root])
  obtain ⟨r', hroot', htop⟩ := exists_root hne
  obtain rfl : r' = r := Option.some.inj (hroot'.symm.trans hroot)
  rw [build_of_ne_nil hne] at hhonest
  -- the honest proof has one hash for each level
  obtain ⟨hin, hsteps⟩ :
      index < cids.length ∧ honest.length = levelsOver cids.length cids.length := by
    unfold MerkleTree.proofFor at hhonest
    dsimp only at hhonest
    split at hhonest
    · exact absurd hhonest (by simp)
    · next hrange =>
      obtain ⟨p, hp, heq⟩ := Except.bind_eq_ok_iff.mp hhonest
      obtain rfl := Option.some.inj (Except.ok.inj heq)
      exact ⟨by omega, proofLoop_length hp⟩
  have hx : (MerkleTree.leafHashes cids)[index]? = some (fnv1aHex (utf8 cids[index])) := by
    rw [MerkleTree.leafHashes, List.getElem?_map, List.getElem?_eq_getElem hin, Option.map_some]
  have hwalk := eq_of_walk hfree (hashes_leafHashes cids)
    (length_fnv1aHex (utf8 leaf)) ((length_leafHashes cids).le.trans (Nat.le_succ _)) hx
    (by rw [hlen, hsteps, length_leafHashes])
    (fun d hd => Or.inl (List.mem_append_right _ hd))
    (fun d hd => Or.inr (List.mem_cons_of_mem _ hd)) htop (beq_iff_eq.mp haccept)
  have hbytes : utf8 leaf = utf8 cids[index] := by
    refine hfree (Or.inr List.mem_cons_self) (Or.inl (List.mem_append_left _ ?_))
      (fnv1aHex_inj.mp hwalk)
    exact List.mem_map_of_mem (List.getElem_mem hin)
  rw [utf8_injective hbytes, List.getElem?_eq_getElem hin]

/-! ### Completeness -/

/-- The place that `proof_for` takes a node's sibling from. -/
def siblingIndex (size i : ℕ) : ℕ := if i % 2 = 0 then min (i + 1) (size - 1) else i - 1

theorem siblingIndex_lt (hi : i < size) : siblingIndex size i < size := by
  unfold siblingIndex
  split <;> omega

/-- `build` combines a node with the sibling that `proof_for` finds for it, itself if it is the last
one of an odd level, and in the order that `verify_proof` takes. -/
theorem nextLevel_parent (hx : level[i]? = some x)
    (hy : level[siblingIndex level.length i]? = some y) :
    (nextLevel level)[i / 2]? = some (MerkleTree.walkStep (x, i) y).1 := by
  induction level using nextLevel.induct generalizing i with
  | case1 left right level ih =>
    obtain _ | _ | i := i
    · -- the left node of the first pair
      have hsib : siblingIndex (left :: right :: level).length 0 = 1 := by simp [siblingIndex]
      rw [hsib] at hy
      obtain rfl := Option.some.inj hx
      obtain rfl := Option.some.inj hy
      rfl
    · -- the right node of the first pair
      obtain rfl := Option.some.inj hx
      obtain rfl := Option.some.inj hy
      rfl
    · -- two places further on
      change level[i]? = some x at hx
      have hin : i < level.length := (List.getElem?_eq_some_iff.mp hx).1
      have hsib : siblingIndex (left :: right :: level).length (i + 1 + 1)
          = siblingIndex level.length i + 2 := by
        simp only [siblingIndex, List.length_cons]
        split <;> split <;> omega
      rw [hsib] at hy
      have hrest := ih hx hy
      rw [nextLevel, show (i + 1 + 1) / 2 = i / 2 + 1 by omega, List.getElem?_cons_succ, hrest]
      simp only [MerkleTree.walkStep, show (i + 1 + 1) % 2 = i % 2 by omega]
  | case2 last =>
    obtain _ | i := i
    · obtain rfl := Option.some.inj hx
      obtain rfl := Option.some.inj hy
      rfl
    · exact absurd hx (by simp)
  | case3 => exact absurd hx (by simp)

/-- **The proof leads to the top.** The nodes after `below` are a level of the tree and all levels
above it, so the loop of `proof_for` finds its siblings where `build` has put them. -/
theorem exists_proofLoop (below : List String) (hfuel : level.length ≤ fuel + 1)
    (hx : level[i]? = some x) (htop : topLevel fuel level = [r]) :
    ∃ proof, MerkleTree.proofLoop (below ++ (level ++ levelsAbove fuel level)) fuel i level.length
        below.length = .ok proof ∧ (proof.foldl MerkleTree.walkStep (x, i)).1 = r := by
  -- a level of one node is the top
  have hsingle : ∀ {level : List String} {i : ℕ} {x : String}, level = [r] →
      level[i]? = some x → x = r := by
    rintro level i x rfl hx
    obtain _ | i := i
    · exact (Option.some.inj hx).symm
    · exact absurd hx (by simp)
  induction fuel generalizing i below level x with
  | zero => exact ⟨[], rfl, hsingle htop hx⟩
  | succ fuel ih =>
    rw [topLevel] at htop
    rw [MerkleTree.proofLoop, levelsAbove]
    by_cases hmany : level.length > 1
    · rw [if_pos hmany] at htop
      rw [if_pos hmany, if_pos hmany]
      have hin : i < level.length := (List.getElem?_eq_some_iff.mp hx).1
      have hsib := siblingIndex_lt hin
      have hnext := length_nextLevel level
      -- the sibling is in the same level
      have hget : (below ++ (level ++ (nextLevel level ++ levelsAbove fuel (nextLevel level))))[
          below.length + siblingIndex level.length i]?
            = some level[siblingIndex level.length i] := by
        rw [List.getElem?_append_right (by omega), Nat.add_sub_cancel_left,
          List.getElem?_append_left hsib, List.getElem?_eq_getElem hsib]
      have hup := nextLevel_parent hx (List.getElem?_eq_getElem hsib)
      obtain ⟨proof, hproof, hwalk⟩ := ih (below ++ level) (by omega) hup htop
      refine ⟨level[siblingIndex level.length i] :: proof, ?_, hwalk⟩
      change (match (_ : List String)[below.length + siblingIndex level.length i]? with
        | none => _
        | some sibling => _) = _
      rw [hget]
      rw [List.append_assoc, hnext, List.length_append] at hproof
      dsimp only
      rw [hproof]
      rfl
    · rw [if_neg hmany] at htop
      rw [if_neg hmany]
      exact ⟨[], rfl, hsingle htop hx⟩

/-- Half a number, rounded up: the length of the level above. -/
def halfUp (n : ℕ) : ℕ := (n + 1) / 2

/-- The number of levels above one of `n` nodes is the number of halvings down to one. -/
theorem halfUp_iterate_levelsOver (hpos : 0 < n) (hfuel : n ≤ fuel + 1) :
    halfUp^[levelsOver fuel n] n = 1 ∧ ∀ k < levelsOver fuel n, halfUp^[k] n ≠ 1 := by
  induction fuel generalizing n with
  | zero =>
    obtain rfl : n = 1 := by omega
    exact ⟨rfl, fun k hk => absurd hk (Nat.not_lt_zero k)⟩
  | succ fuel ih =>
    rw [levelsOver]
    split
    · next hmany =>
      obtain ⟨hone, hmin⟩ := ih (n := (n + 1) / 2) (by omega) (by omega)
      refine ⟨hone, fun k hk => ?_⟩
      obtain _ | k := k
      · exact Nat.ne_of_gt hmany
      · exact hmin k (Nat.lt_of_succ_lt_succ hk)
    · next hmany =>
      obtain rfl : n = 1 := by omega
      exact ⟨rfl, fun k hk => absurd hk (Nat.not_lt_zero k)⟩

/-- **Completeness of Merkle proofs.** For every place of every list, `proof_for` returns a proof
that `verify_proof` accepts, with one hash for each halving of the length down to one. -/
theorem verifyProof_proofFor (cids : List String) (i : Fin cids.length) :
    ∃ r proof, (MerkleTree.build cids).root = some r ∧
      (MerkleTree.build cids).proofFor i = .ok (some proof) ∧
      MerkleTree.verifyProof cids[i] i proof r = true ∧
      halfUp^[proof.length] cids.length = 1 ∧ ∀ k < proof.length, halfUp^[k] cids.length ≠ 1 := by
  have hpos : 0 < cids.length := i.pos
  have hne : cids ≠ [] := List.length_pos_iff.mp hpos
  obtain ⟨r, hroot, htop⟩ := exists_root hne
  have hx : (MerkleTree.leafHashes cids)[i.val]? = some (fnv1aHex (utf8 cids[i])) := by
    rw [MerkleTree.leafHashes, List.getElem?_map, List.getElem?_eq_getElem i.isLt, Option.map_some]
    rfl
  -- the leaves are the lowest level
  obtain ⟨proof, hproof, hwalk⟩ := exists_proofLoop []
    ((length_leafHashes cids).le.trans (Nat.le_succ _)) hx htop
  rw [List.nil_append, length_leafHashes, List.length_nil] at hproof
  refine ⟨r, proof, hroot, ?_, beq_iff_eq.mpr hwalk, ?_⟩
  · have hin : ¬ (cids.length = 0 ∨ i.val ≥ cids.length) := by
      have hi := i.isLt
      omega
    rw [build_of_ne_nil hne, MerkleTree.proofFor]
    dsimp only
    rw [if_neg hin, hproof]
    rfl
  · rw [proofLoop_length hproof]
    exact halfUp_iterate_levelsOver hpos (Nat.le_succ _)

/-! ### Fixed lists -/

theorem collisionFree_of_list (h : ∀ d ∈ buildInputs cids ++ verifyInputs leaf index proof,
      ∀ d' ∈ buildInputs cids ++ verifyInputs leaf index proof, fnv1a d = fnv1a d' → d = d') :
    CollisionFree cids leaf index proof :=
  fun d hd d' hd' heq => h d (List.mem_append.mpr hd) d' (List.mem_append.mpr hd') heq

theorem verifyProof_sound_abc :
    ∃ r proof, (MerkleTree.build ["a", "b", "c"]).root = some r ∧
      (MerkleTree.build ["a", "b", "c"]).proofFor 2 = .ok (some proof) ∧
        MerkleTree.verifyProof "c" 2 proof r = true ∧ ["a", "b", "c"][2]? = some "c" := by
  have hroot : (MerkleTree.build ["a", "b", "c"]).root = some "8905c7390e356b8c" := by
    decide +kernel
  have hproof : (MerkleTree.build ["a", "b", "c"]).proofFor 2
      = .ok (some [fnv1aHex (utf8 "c"),
        combineHashes (fnv1aHex (utf8 "a")) (fnv1aHex (utf8 "b"))]) := by
    decide +kernel
  have hfree : CollisionFree ["a", "b", "c"] "c" 2 [fnv1aHex (utf8 "c"),
      combineHashes (fnv1aHex (utf8 "a")) (fnv1aHex (utf8 "b"))] :=
    collisionFree_of_list (by decide +kernel)
  have haccept : MerkleTree.verifyProof "c" 2 [fnv1aHex (utf8 "c"),
      combineHashes (fnv1aHex (utf8 "a")) (fnv1aHex (utf8 "b"))] "8905c7390e356b8c" = true := by
    decide +kernel
  exact ⟨_, _, hroot, hproof, haccept, verifyProof_sound hroot hproof rfl hfree haccept⟩

/-- An index beyond the list is accepted with an empty proof; and the two hashes of a list of two,
one after the other, are accepted as a leaf. -/
theorem not_forall_verifyProof_sound :
    (¬ ∀ (cids : List String) (leaf r : String) (index : ℕ) (proof : List String),
      (MerkleTree.build cids).root = some r → CollisionFree cids leaf index proof →
        MerkleTree.verifyProof leaf index proof r = true → index < cids.length) ∧
    ¬ ∀ (cids : List String) (leaf r : String) (index : ℕ) (proof : List String),
      (MerkleTree.build cids).root = some r → CollisionFree cids leaf index proof →
        MerkleTree.verifyProof leaf index proof r = true → index < cids.length →
          cids[index]? = some leaf := by
  constructor
  · intro h
    have hlt := h ["a"] "a" (fnv1aHex (utf8 "a")) 1 [] rfl
      (collisionFree_of_list (by decide +kernel)) (by decide +kernel)
    exact absurd hlt (by decide)
  · intro h
    have heq := h ["a", "b"] (fnv1aHex (utf8 "a") ++ fnv1aHex (utf8 "b"))
      (combineHashes (fnv1aHex (utf8 "a")) (fnv1aHex (utf8 "b"))) 0 []
      (by decide +kernel) (collisionFree_of_list (by decide +kernel)) (by decide +kernel)
      (by decide)
    exact absurd heq (by decide +kernel)

end Ipfrs.Manifest
