import Mathlib.Data.List.Infix

/-!
# File systems and directory trees

A file system maps a path, the list of its names, to nothing, a directory or a file. Two operations
write to it: `createDirAll`, which makes a directory and all directories above it, and `write`,
which sets the contents of a file. A directory tree is what a program finds when it lists a
directory: the entries of each directory come in some order, and some are neither files nor
directories.

* `Recreates` — what is under a path is a given tree, whatever the order of its entries.
* `Frame` — what an operation at a path leaves as it was.
-/

/-- What is at a path. -/
inductive FileEntry (β : Type) where
  | dir
  | file (data : β)
  deriving DecidableEq, Repr

/-- A directory tree, with the entries of a directory as they are listed. -/
inductive FileTree (κ β : Type) where
  | file (data : β)
  | dir (entries : List (κ × FileTree κ β))
  | other

/-- A file system. -/
abbrev FileSystem (κ β : Type) := List κ → Option (FileEntry β)

namespace FileTree

variable {κ β : Type}

/-- **Induction over directory trees**: the hypothesis is about every entry of a directory. -/
@[elab_as_elim, induction_eliminator]
theorem ind {P : FileTree κ β → Prop} (file : ∀ data, P (file data))
    (dir : ∀ entries, (∀ e ∈ entries, P e.2) → P (dir entries)) (other : P other)
    (t : FileTree κ β) : P t :=
  @FileTree.rec κ β P (fun es => ∀ e ∈ es, P e.2) (fun e => P e.2) file dir other
    (fun _ h => absurd h List.not_mem_nil)
    (fun _ _ he hes _ h => (List.mem_cons.mp h).elim (fun heq => heq ▸ he) (hes _))
    (fun _ _ h => h) t

/-- The names in a directory are different. -/
inductive Wf : FileTree κ β → Prop
  | file (data : β) : Wf (file data)
  | dir {entries : List (κ × FileTree κ β)} (nodup : (entries.map Prod.fst).Nodup)
      (wf : ∀ e ∈ entries, Wf e.2) : Wf (dir entries)
  | other : Wf other

variable {entries : List (κ × FileTree κ β)} {name : κ}

theorem Wf.of_dir (h : Wf (FileTree.dir entries)) :
    (entries.map Prod.fst).Nodup ∧ ∀ e ∈ entries, Wf e.2 := by
  cases h with
  | dir nodup wf => exact ⟨nodup, wf⟩

theorem sizeOf_lt_of_mem [SizeOf κ] [SizeOf β] {e : κ × FileTree κ β} (h : e ∈ entries) :
    sizeOf e.2 < sizeOf (dir entries) := by
  have hlt := List.sizeOf_lt_of_mem h
  obtain ⟨name, t⟩ := e
  simp only [Prod.mk.sizeOf_spec, dir.sizeOf_spec] at hlt ⊢
  omega

variable [DecidableEq κ]

/-- What is at a path of a tree, as far as it is a file or a directory. -/
def entryAt : FileTree κ β → List κ → Option (FileEntry β)
  | file data, [] => some (.file data)
  | dir _, [] => some .dir
  | dir entries, name :: path =>
    match entries.lookup name with
    | some t => t.entryAt path
    | none => none
  | _, _ => none

theorem entryAt_dir_of_mem (h : (entries.map Prod.fst).Nodup) {t : FileTree κ β}
    (ht : (name, t) ∈ entries) (path : List κ) :
    (dir entries).entryAt (name :: path) = t.entryAt path := by
  obtain ⟨l₁, l₂, rfl⟩ := List.append_of_mem ht
  rw [List.map_append, List.map_cons, List.nodup_append] at h
  -- no entry before it has the name
  have hlookup : (l₁ ++ (name, t) :: l₂).lookup name = some t := by
    refine List.lookup_eq_some_iff.mpr ⟨l₁, l₂, rfl, fun e he => ?_⟩
    have hne := h.2.2 e.1 (List.mem_map_of_mem he) name List.mem_cons_self
    simpa using hne.symm
  rw [entryAt, hlookup]

theorem mem_of_entryAt_dir {path : List κ} {x : FileEntry β}
    (h : (dir entries).entryAt (name :: path) = some x) :
    ∃ t, (name, t) ∈ entries ∧ t.entryAt path = some x := by
  rw [entryAt] at h
  split at h
  · next t hlookup =>
    obtain ⟨l₁, l₂, rfl, -⟩ := List.lookup_eq_some_iff.mp hlookup
    exact ⟨t, List.mem_append_right _ List.mem_cons_self, h⟩
  · exact absurd h (by simp)

@[simp] theorem entryAt_other (path : List κ) :
    (other : FileTree κ β).entryAt path = none := by
  cases path <;> rfl

theorem entryAt_dir_of_forall (h : ∀ t, (name, t) ∈ entries → t = .other) (path : List κ) :
    (dir entries).entryAt (name :: path) = none := by
  refine Option.eq_none_iff_forall_ne_some.mpr fun x hx => ?_
  obtain ⟨t, hmem, hat⟩ := mem_of_entryAt_dir hx
  rw [h t hmem, entryAt_other] at hat
  exact absurd hat (by simp)

end FileTree

namespace FileSystem

variable {κ β : Type} [DecidableEq κ]

variable (fs : FileSystem κ β)

/-- Make a directory, and the directories above it. -/
def createDirAll (path : List κ) : Except String (FileSystem κ β) :=
  -- a file above the path and a file at the path are different errors
  if path.inits.all fun above => above = path || (fs above).all (· matches .dir) then
    if (fs path).all (· matches .dir) then
      .ok fun q => if q <+: path then some .dir else fs q
    else .error "File exists (os error 17)"
  else .error "Not a directory (os error 20)"

/-- Set the contents of a file. -/
def write (path : List κ) (data : β) : Except String (FileSystem κ β) :=
  match fs path.dropLast, fs path with
  | some .dir, some .dir => .error "Is a directory (os error 21)"
  | some .dir, _ => .ok (Function.update fs path (some (.file data)))
  | some (.file _), _ => .error "Not a directory (os error 20)"
  | none, _ => .error "No such file or directory (os error 2)"

/-- No file is in the way of a directory. -/
def NoFile (path : List κ) : Prop :=
  ∀ above, above <+: path → ∀ data, fs above ≠ some (.file data)

/-- There is room for a directory, which is empty if it exists. -/
structure Clear (fs : FileSystem κ β) (path : List κ) : Prop where
  noFile : NoFile fs path
  empty : ∀ q, q ≠ [] → fs (path ++ q) = none

/-- What is at a path and under it is the tree `t`. -/
def Recreates (path : List κ) (t : FileTree κ β) : Prop :=
  ∀ q, fs (path ++ q) = t.entryAt q

/-- Elsewhere nothing has changed, but for the directories that were made above `path`. -/
def Frame (path : List κ) (fs fs' : FileSystem κ β) : Prop :=
  ∀ q, ¬ path <+: q → fs' q = fs q ∨ q <+: path ∧ fs' q = some .dir

variable {path : List κ} {fs fs' : FileSystem κ β} {data : β} {name name' : κ}

omit [DecidableEq κ] in
theorem Frame.trans {fs₁ fs₂ fs₃ : FileSystem κ β} (h : Frame path fs₁ fs₂)
    (h' : Frame path fs₂ fs₃) : Frame path fs₁ fs₃ := by
  intro q hq
  rcases h' q hq with h₃ | h₃
  · rw [h₃]
    exact h q hq
  · exact Or.inr h₃

theorem createDirAll_eq_ok (h : createDirAll fs path = .ok fs') :
    fs' = fun q => if q <+: path then some .dir else fs q := by
  unfold createDirAll at h
  split at h
  · split at h
    · exact (Except.ok.inj h).symm
    · exact absurd h (by simp)
  · exact absurd h (by simp)

theorem createDirAll_of_noFile (h : NoFile fs path) :
    createDirAll fs path = .ok fun q => if q <+: path then some .dir else fs q := by
  -- whatever is there on the way down is a directory
  have hall (above : List κ) (habove : above <+: path) :
      (fs above).all (· matches .dir) = true := by
    cases hat : fs above with
    | none => rfl
    | some x =>
      cases x with
      | dir => rfl
      | file data => exact absurd hat (h above habove data)
  rw [createDirAll, if_pos, if_pos (hall path (List.prefix_refl path))]
  rw [List.all_eq_true]
  intro above habove
  rw [hall above ((List.mem_inits above path).mp habove), Bool.or_true]

theorem createDirAll_frame (h : createDirAll fs path = .ok fs') : Frame path fs fs' := by
  obtain rfl := createDirAll_eq_ok h
  intro q hq
  simp only
  split
  · next hle => exact Or.inr ⟨hle, rfl⟩
  · exact Or.inl rfl

theorem write_eq_ok (h : write fs path data = .ok fs') :
    fs' = Function.update fs path (some (.file data)) := by
  unfold write at h
  split at h
  · exact absurd h (by simp)
  · exact (Except.ok.inj h).symm
  · exact absurd h (by simp)
  · exact absurd h (by simp)

theorem write_of_dir (hdir : fs path.dropLast = some .dir) (hpath : fs path = none) (data : β) :
    write fs path data = .ok (Function.update fs path (some (.file data))) := by
  rw [write, hdir, hpath]

theorem write_frame (h : write fs path data = .ok fs') : Frame path fs fs' := by
  obtain rfl := write_eq_ok h
  intro q hq
  refine Or.inl (Function.update_of_ne ?_ _ _)
  rintro rfl
  exact hq (List.prefix_refl q)

/-! ### The entries of a directory -/

/-- Making a directory where there is room leaves an empty one, with directories above. -/
theorem createDirAll_of_clear (h : Clear fs path) :
    ∃ fs', createDirAll fs path = .ok fs' ∧ (∀ above, above <+: path → fs' above = some .dir) ∧
      ∀ name q, fs' (path ++ name :: q) = none := by
  refine ⟨_, createDirAll_of_noFile h.noFile, fun above habove => if_pos habove, fun name q => ?_⟩
  -- what is below the path was not there, and is not made
  have hnot : ¬ path ++ name :: q <+: path := by
    intro hle
    have hlen := hle.length_le
    simp only [List.length_append, List.length_cons] at hlen
    omega
  simp only [if_neg hnot, h.empty _ (List.cons_ne_nil name q)]

theorem recreates_dir {entries : List (κ × FileTree κ β)} (hnodup : (entries.map Prod.fst).Nodup)
    (hdir : fs path = some .dir)
    (hentry : ∀ name t, (name, t) ∈ entries → t ≠ .other → Recreates fs (path ++ [name]) t)
    (hnone : ∀ name, (∀ t, (name, t) ∈ entries → t = .other) →
      ∀ q, fs (path ++ name :: q) = none) : Recreates fs path (.dir entries) := by
  intro q
  cases q with
  | nil => rw [List.append_nil, hdir, FileTree.entryAt]
  | cons name q =>
    -- nothing of this name is to be there, or there is an entry for it
    by_cases h : ∀ t, (name, t) ∈ entries → t = .other
    · rw [hnone name h, FileTree.entryAt_dir_of_forall h]
    · obtain ⟨t, ht⟩ := not_forall.mp h
      obtain ⟨hmem, hne⟩ := Classical.not_imp.mp ht
      rw [FileTree.entryAt_dir_of_mem hnodup hmem, ← hentry name t hmem hne q, List.append_assoc]
      rfl

omit [DecidableEq κ] in
theorem append_singleton_prefix_iff {q : List κ} :
    path ++ [name] <+: path ++ name' :: q ↔ name = name' := by
  rw [List.prefix_append_right_inj, List.cons_prefix_cons]
  exact and_iff_left (List.nil_prefix)

omit [DecidableEq κ] in
theorem clear_entry (hdirs : ∀ above, above <+: path → fs above = some .dir)
    (hnew : ∀ q, fs (path ++ name :: q) = none) : Clear fs (path ++ [name]) where
  noFile above habove data := by
    rcases List.prefix_concat_iff.mp habove with rfl | habove
    · simp [hnew []]
    · simp [hdirs above habove]
  empty q _ := by
    rw [List.append_assoc]
    exact hnew q

theorem recreates_write (hclear : Clear fs path) (data : β) :
    Recreates (Function.update fs path (some (.file data))) path (.file data) := by
  intro q
  cases q with
  | nil => rw [List.append_nil, Function.update_self, FileTree.entryAt]
  | cons a q =>
    have hne : path ++ a :: q ≠ path := by simp
    rw [Function.update_of_ne hne, hclear.empty _ (List.cons_ne_nil a q)]
    rfl

omit [DecidableEq κ] in
theorem Frame.of_entry (h : Frame (path ++ [name]) fs fs') : Frame path fs fs' := by
  intro q hq
  have hq' : ¬ path ++ [name] <+: q := fun hle => hq ((List.prefix_append path [name]).trans hle)
  rcases h q hq' with heq | ⟨hle, hdir⟩
  · exact Or.inl heq
  · -- made above the entry: the directory itself is excluded by `hq`
    rcases List.prefix_concat_iff.mp hle with rfl | hle
    · exact absurd (List.prefix_append path [name]) hq
    · exact Or.inr ⟨hle, hdir⟩

omit [DecidableEq κ] in
theorem Frame.entry_ne (h : Frame (path ++ [name]) fs fs') (hne : name ≠ name') (q : List κ) :
    fs' (path ++ name' :: q) = fs (path ++ name' :: q) := by
  rcases h _ (mt append_singleton_prefix_iff.mp hne) with heq | ⟨hle, -⟩
  · exact heq
  · -- a path through another entry is not above this one
    have hlen := hle.length_le
    rw [List.length_append, List.length_append] at hlen
    obtain rfl : q = [] := by
      cases q with
      | nil => rfl
      | cons a q =>
        simp only [List.length_cons, List.length_nil] at hlen
        omega
    have hname : name' = name := append_singleton_prefix_iff.mp hle
    exact absurd hname.symm hne

omit [DecidableEq κ] in
theorem Frame.entry_dir (h : Frame (path ++ [name]) fs fs') {above : List κ}
    (habove : above <+: path) (hdir : fs above = some .dir) : fs' above = some .dir := by
  have hnot : ¬ path ++ [name] <+: above := by
    intro hle
    have hlen := hle.length_le.trans habove.length_le
    rw [List.length_append, List.length_singleton] at hlen
    omega
  rcases h above hnot with heq | ⟨-, heq⟩
  exacts [heq.trans hdir, heq]

end FileSystem
