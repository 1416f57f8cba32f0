import AndroidWork.FileTree

/-!
# Copies of files and folders

`FileOperator.copyFile` and `copyDir` over a file system. `listFiles` may give the names
of a folder in any order.
-/
namespace FileOperator

open FileTree

variable {Name : Type} [DecidableEq Name]

/-- The file system; a file is its bytes. -/
abbrev Files (Name : Type) := Tree Name (List UInt8)

/-- `File.createNewFile`, none for its exception. -/
def createNewFile (t : Files Name) : List Name → Option (Files Name × Bool)
  | [] => some (t, false)
  | n :: p =>
    match t (n :: p), t p with
    | some _, _ => some (t, false)
    | none, some .folder => some (set t (n :: p) (.file []), true)
    | none, _ => none

/-- The part of `copyFile` behind the creation: the destination is cut to nothing before
the source is read. -/
def copyContent (t : Files Name) (srcFile destFile : List Name) : Files Name × Bool :=
  match t srcFile, t destFile with
  | some (.file _), some (.file _) =>
    let t := set t destFile (.file [])
    match t srcFile with
    | some (.file content) => (set t destFile (.file content), true)
    | _ => (t, false)
  | _, _ => (t, false)

def copyFile (t : Files Name) (srcFile destFile : List Name) : Files Name × Bool :=
  if (t destFile).isSome then copyContent t srcFile destFile
  else
    match createNewFile t destFile with
    | none => (t, false)
    | some (t, false) => (t, false)
    | some (t, true) => copyContent t srcFile destFile

/-- The loop over the names in a folder, `copyDir` for the folders among them. -/
def copyEntries (copyDir : Files Name → List Name → List Name → Option (Files Name × Bool))
    (src dest : List Name) :
    List Name → Files Name → Option (Files Name × Bool)
  | [], t => some (t, true)
  | n :: names, t =>
    match t (n :: src) with
    | some (.file _) =>
      let (t, result) := copyFile t (n :: src) (n :: dest)
      if result then copyEntries copyDir src dest names t else some (t, false)
    | some .folder => do
      let (t, result) ← copyDir t (n :: src) (n :: dest)
      if result then copyEntries copyDir src dest names t else some (t, false)
    | none => copyEntries copyDir src dest names t

def prepare (t : Files Name) (destFile : List Name) : Files Name :=
  if (t destFile).isSome then t else mkdirs t destFile

/-- `copyDir` to a depth of so many calls, none where that is not enough. -/
def copyDir (listFiles : Files Name → List Name → List Name) :
    Nat → Files Name → List Name → List Name → Option (Files Name × Bool)
  | 0, _, _, _ => none
  | depth + 1, t, srcFile, destFile =>
    match t srcFile with
    | some .folder =>
      let t := prepare t destFile
      copyEntries (copyDir listFiles depth) srcFile destFile (listFiles t srcFile) t
    | _ => some (t, false)

/-- Every name of a folder once, in some order. -/
def Lists (listFiles : Files Name → List Name → List Name) : Prop :=
  ∀ t, Closed t → ∀ p, IsFolder t p → (listFiles t p).Nodup ∧ ∀ n,
    n ∈ listFiles t p ↔ t (n :: p) ≠ none

theorem prepare_eq (t : Files Name) (p : List Name) : prepare t p = mkdirs t p := by
  unfold prepare
  split
  next hsome =>
    cases p with
    | nil => rfl
    | cons n p => rw [mkdirs, if_pos hsome]
  next => rfl

theorem copyContent_eq {t : Files Name} {src dest : List Name} {content : List UInt8}
    (hsrc : t src = some (.file content))
    (hdest : IsFile t dest) : copyContent t src dest =
      (set t dest (.file (if src = dest then [] else content)), true) := by
  obtain ⟨old, hold⟩ := hdest
  obtain rfl | hne := eq_or_ne src dest
  · simp [copyContent, hsrc, set_set]
  · simp [copyContent, hsrc, hold, hne, set_set]

/-- A file is copied where its place is a file, or free in a folder. -/
theorem copyFile_writes {t : Files Name} {src p : List Name} {n : Name} {content : List UInt8}
    (hsrc : t src = some (.file content))
    (hdest : IsFile t (n :: p) ∨ t (n :: p) = none ∧ IsFolder t p) :
    copyFile t src (n :: p) =
      (set t (n :: p) (.file (if src = n :: p then [] else content)), true) := by
  obtain hfile | ⟨hnone, hfolder⟩ := hdest
  · have hsome := Option.isSome_iff_ne_none.mpr hfile.exists
    rw [copyFile, if_pos hsome, copyContent_eq hsrc hfile]
  · have hne : src ≠ n :: p := by
      rintro rfl
      simp [hsrc] at hnone
    rw [IsFolder] at hfolder
    have hcontent : copyContent (set t (n :: p) (.file [])) src (n :: p) = _ :=
      copyContent_eq (by rwa [set_other _ _ hne]) ⟨[], set_same _ _ _⟩
    simp only [copyFile, hnone, createNewFile, hfolder, Option.isSome_none,
      Bool.false_eq_true, if_false]
    rw [hcontent, set_set]

/-- Elsewhere nothing is done. -/
theorem copyFile_fails {t : Files Name} {src p : List Name} {n : Name} (hdest : ¬ IsFile t (n :: p))
    (hfree : t (n :: p) = none → ¬ IsFolder t p) : copyFile t src (n :: p) = (t, false) := by
  cases hp : t (n :: p) with
  | none =>
    have hcreate : createNewFile t (n :: p) = none := by
      simp only [createNewFile, hp]
      split
      next heq => cases heq
      next _ hfolder => exact absurd hfolder (hfree hp)
      next => rfl
    simp [copyFile, hp, hcreate]
  | some node =>
    cases node with
    | folder => simp [copyFile, copyContent, hp]
    | file content => exact absurd ⟨content, hp⟩ hdest

/-- The two cases of a copy. -/
theorem copyFile_cases {t : Files Name} {src p : List Name} {n : Name} {content : List UInt8}
    (hsrc : t src = some (.file content)) :
    (copyFile t src (n :: p) = (t, false) ∧ ¬ IsFile t (n :: p) ∧
      (t (n :: p) = none → ¬ IsFolder t p)) ∨
      (copyFile t src (n :: p) =
        (set t (n :: p) (.file (if src = n :: p then [] else content)), true) ∧
        (IsFile t (n :: p) ∨ t (n :: p) = none ∧ IsFolder t p)) := by
  by_cases hdest : IsFile t (n :: p) ∨ t (n :: p) = none ∧ IsFolder t p
  · exact .inr ⟨copyFile_writes hsrc hdest, hdest⟩
  · obtain ⟨hfile, hfree⟩ := not_or.mp hdest
    have hfree' : t (n :: p) = none → ¬ IsFolder t p := fun hnone hfolder => hfree ⟨hnone, hfolder⟩
    exact .inl ⟨copyFile_fails hfile hfree', hfile, hfree'⟩

theorem closed_copyFile {t : Files Name} (h : Closed t) {src p : List Name} {n : Name}
    (hsrc : IsFile t src) :
    Closed (copyFile t src (n :: p)).1 := by
  obtain ⟨content, hsrc⟩ := hsrc
  obtain ⟨heq, -⟩ | ⟨heq, hdest⟩ := copyFile_cases (n := n) (p := p) hsrc
  · rwa [heq]
  · rw [heq]
    obtain hfile | ⟨hnone, hfolder⟩ := hdest
    · exact closed_set h (h.parent n p hfile.exists) fun hfolder =>
        absurd hfile (not_isFile_of_isFolder hfolder)
    · exact closed_set h hfolder fun hfolder => absurd hnone hfolder.exists

theorem grows_copyFile {t : Files Name} {src p : List Name} {n : Name} (hsrc : IsFile t src) :
    Grows t (copyFile t src (n :: p)).1 := by
  obtain ⟨content, hsrc⟩ := hsrc
  obtain ⟨heq, -⟩ | ⟨heq, hdest⟩ := copyFile_cases (n := n) (p := p) hsrc
  · rw [heq]
    exact Grows.refl t
  · rw [heq]
    intro u
    obtain rfl | hne := eq_or_ne u (n :: p)
    · refine ⟨fun hfolder => ?_, fun _ => ⟨_, set_same _ _ _⟩⟩
      obtain hfile | ⟨hnone, -⟩ := hdest
      · exact absurd hfile (not_isFile_of_isFolder hfolder)
      · exact absurd hnone hfolder.exists
    · simp only [IsFolder, IsFile, set_other _ _ hne]
      exact ⟨id, id⟩

/-- Only the destination changes. -/
theorem copyFile_other {t : Files Name} {src p : List Name} {n : Name} (hsrc : IsFile t src)
    {u : List Name} (hne : u ≠ n :: p) :
    (copyFile t src (n :: p)).1 u = t u := by
  obtain ⟨content, hsrc⟩ := hsrc
  obtain ⟨heq, -⟩ | ⟨heq, -⟩ := copyFile_cases (n := n) (p := p) hsrc
  · rw [heq]
  · simp [heq, hne]

/-- The folder is there, or a file is in its way. -/
theorem prepared {t : Files Name} (h : Closed t) (p : List Name) :
    IsFolder (prepare t p) p ∨ Blocked (prepare t p) p := by
  rw [prepare_eq, blocked_mkdirs_iff]
  by_cases hp : Blocked t p
  · exact .inr hp
  · exact .inl (isFolder_mkdirs h hp)

end FileOperator
