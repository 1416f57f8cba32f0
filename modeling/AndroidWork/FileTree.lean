import Mathlib.Tactic
import Mathlib.Data.Set.Finite.Basic
import Mathlib.Data.Finset.Dedup

/-!
# Trees of files and folders

A file system without links, as far as `java.io.File` tells of it: what stands at a
path, the creation of folders and files, and what that keeps.
-/
namespace FileTree

variable {Name Content : Type}

inductive Node (Content : Type) where
  | folder
  | file (content : Content)

/-- What stands at a path. The innermost name of a path is its first. -/
abbrev Tree (Name Content : Type) := List Name → Option (Node Content)

def IsFolder (t : Tree Name Content) (p : List Name) : Prop := t p = some .folder

def IsFile (t : Tree Name Content) (p : List Name) : Prop := ∃ content, t p = some (.file content)

/-- There is a root, what exists is in a folder, and there is only so much. -/
structure Closed (t : Tree Name Content) : Prop where
  root : IsFolder t []
  parent : ∀ n p, t (n :: p) ≠ none → IsFolder t p
  finite : {p | t p ≠ none}.Finite

/-- A file stands at the path or above it. -/
def Blocked (t : Tree Name Content) (p : List Name) : Prop := ∃ u, u <:+ p ∧ IsFile t u

/-- Folders stay folders and files stay files. -/
def Grows (t t' : Tree Name Content) : Prop :=
  ∀ u, (IsFolder t u → IsFolder t' u) ∧ (IsFile t u → IsFile t' u)

theorem not_isFile_of_isFolder {t : Tree Name Content} {p : List Name} (h : IsFolder t p) :
    ¬ IsFile t p := by
  rintro ⟨content, hcontent⟩
  rw [IsFolder, hcontent] at h
  cases h

theorem IsFolder.exists {t : Tree Name Content} {p : List Name}
    (h : IsFolder t p) : t p ≠ none := by
  simp [IsFolder.eq_1 t p ▸ h]

theorem IsFile.exists {t : Tree Name Content} {p : List Name} (h : IsFile t p) : t p ≠ none := by
  obtain ⟨content, hcontent⟩ := h
  simp [hcontent]

theorem isFolder_or_isFile {t : Tree Name Content} {p : List Name} (h : t p ≠ none) :
    IsFolder t p ∨ IsFile t p := by
  cases hp : t p with
  | none => exact absurd hp h
  | some node =>
    cases node with
    | folder => exact .inl hp
    | file content => exact .inr ⟨content, hp⟩

theorem Grows.refl (t : Tree Name Content) : Grows t t := fun _ => ⟨id, id⟩

theorem Grows.trans {t t' t'' : Tree Name Content} (h : Grows t t')
    (h' : Grows t' t'') : Grows t t'' :=
  fun u => ⟨(h' u).1 ∘ (h u).1, (h' u).2 ∘ (h u).2⟩

theorem Grows.exists {t t' : Tree Name Content} (h : Grows t t') {p : List Name}
    (hp : t p ≠ none) : t' p ≠ none := by
  obtain hfolder | hfile := isFolder_or_isFile hp
  · exact ((h p).1 hfolder).exists
  · exact ((h p).2 hfile).exists

theorem Grows.blocked {t t' : Tree Name Content} (h : Grows t t') {p : List Name}
    (hp : Blocked t p) : Blocked t' p := by
  obtain ⟨u, hu, hfile⟩ := hp
  exact ⟨u, hu, (h u).2 hfile⟩

/-- What is not a file before is not one for its type. -/
theorem Grows.isFile_of_exists {t t' : Tree Name Content} (h : Grows t t')
    {p : List Name} (hp : t p ≠ none)
    (hfile : IsFile t' p) : IsFile t p := by
  obtain hfolder | hbefore := isFolder_or_isFile hp
  · exact absurd hfile (not_isFile_of_isFolder ((h p).1 hfolder))
  · exact hbefore

/-- All that is above something is a folder. -/
theorem Closed.above {t : Tree Name Content} (h : Closed t) {r p : List Name} (hr : r ≠ [])
    (hp : t (r ++ p) ≠ none) :
    IsFolder t p := by
  induction r with
  | nil => exact absurd rfl hr
  | cons n r ih =>
    have hparent := h.parent n (r ++ p) hp
    obtain rfl | hne := eq_or_ne r []
    · exact hparent
    · exact ih hne hparent.exists

/-- A folder and all above it. -/
theorem Closed.isFolder_above {t : Tree Name Content} (h : Closed t) {r p : List Name}
    (hfolder : IsFolder t (r ++ p)) :
    IsFolder t p := by
  obtain rfl | hne := eq_or_ne r []
  · exact hfolder
  · exact h.above hne hfolder.exists

theorem Closed.not_blocked {t : Tree Name Content} (h : Closed t) {p : List Name}
    (hp : IsFolder t p) : ¬ Blocked t p := by
  rintro ⟨u, ⟨r, rfl⟩, hfile⟩
  exact not_isFile_of_isFolder (h.isFolder_above hp) hfile

theorem Blocked.under {t : Tree Name Content} {p : List Name} (h : Blocked t p) (r : List Name) :
    Blocked t (r ++ p) := by
  obtain ⟨u, hu, hfile⟩ := h
  exact ⟨u, hu.trans (List.suffix_append r p), hfile⟩

theorem Closed.exists_depth {t : Tree Name Content} (h : Closed t) :
    ∃ depth, ∀ p, t p ≠ none → p.length ≤ depth := by
  obtain ⟨depth, hdepth⟩ := (h.finite.image List.length).bddAbove
  exact ⟨depth, fun p hp => hdepth ⟨p, hp, rfl⟩⟩

variable [DecidableEq Name]

def set (t : Tree Name Content) (p : List Name) (node : Node Content) : Tree Name Content :=
  Function.update t p (some node)

@[simp] theorem set_same (t : Tree Name Content) (p : List Name) (node : Node Content) :
    set t p node p = some node := by
  simp [set]

@[simp] theorem set_other (t : Tree Name Content) {p u : List Name}
    (node : Node Content) (h : u ≠ p) :
    set t p node u = t u := by simp [set, h]

theorem set_set (t : Tree Name Content) (p : List Name) (node node' : Node Content) :
    set (set t p node) p node' = set t p node' := by simp [set]

theorem closed_set {t : Tree Name Content} (h : Closed t) {n : Name} {p : List Name}
    (hp : IsFolder t p) {node : Node Content}
    (hnode : IsFolder t (n :: p) → node = .folder) : Closed (set t (n :: p) node) := by
  have hfolder : ∀ u, IsFolder t u → IsFolder (set t (n :: p) node) u := by
    intro u hu
    obtain rfl | hne := eq_or_ne u (n :: p)
    · rw [IsFolder, set_same, hnode hu]
    · rwa [IsFolder, set_other _ _ hne]
  refine ⟨hfolder [] h.root, fun m u hu => ?_, ?_⟩
  · by_cases heq : m :: u = n :: p
    · obtain ⟨rfl, rfl⟩ := List.cons_eq_cons.mp heq
      exact hfolder u hp
    · rw [set_other _ _ heq] at hu
      exact hfolder u (h.parent m u hu)
  · refine (h.finite.insert (n :: p)).subset fun u hu => ?_
    by_cases heq : u = n :: p
    · exact .inl heq
    · exact .inr (by simpa [heq] using hu)

/-- `File.mkdir`, none where it makes nothing. -/
def mkdir (t : Tree Name Content) : List Name → Option (Tree Name Content)
  | [] => none
  | n :: p =>
    match t (n :: p), t p with
    | none, some .folder => some (set t (n :: p) .folder)
    | _, _ => none

/-- `File.mkdirs`, whose answer is left out. -/
def mkdirs (t : Tree Name Content) : List Name → Tree Name Content
  | [] => t
  | n :: p =>
    if (t (n :: p)).isSome then t
    else
      match mkdir t (n :: p) with
      | some t' => t'
      | none => (mkdir (mkdirs t p) (n :: p)).getD (mkdirs t p)

theorem mkdir_some {t t' : Tree Name Content} {p : List Name} (h : mkdir t p = some t') :
    t p = none ∧ (∃ n q, p = n :: q ∧ IsFolder t q) ∧ t' = set t p .folder := by
  cases p with
  | nil => cases h
  | cons n p =>
    simp only [mkdir] at h
    split at h
    next hnone hfolder => exact ⟨hnone, ⟨n, p, rfl, hfolder⟩, (Option.some.inj h).symm⟩
    next => cases h

/-- What `mkdirs` does: nothing, or one folder more. -/
theorem mkdirs_induction {motive : Tree Name Content → Prop} {t : Tree Name Content} (p : List Name)
    (hfirst : motive t)
    (hmkdir : ∀ t u t', u <:+ p → motive t → mkdir t u = some t' → motive t') :
    motive (mkdirs t p) := by
  induction p with
  | nil => exact hfirst
  | cons n p ih =>
    have hbelow := ih fun t u t' hu => hmkdir t u t' (hu.trans (List.suffix_cons n p))
    simp only [mkdirs]
    split
    next => exact hfirst
    split
    next hsome => exact hmkdir _ _ _ (List.suffix_refl _) hfirst hsome
    next =>
      cases hmk : mkdir (mkdirs t p) (n :: p) with
      | none => exact hbelow
      | some t' => exact hmkdir _ _ _ (List.suffix_refl _) hbelow hmk

theorem closed_mkdirs {t : Tree Name Content} (h : Closed t) (p : List Name) :
    Closed (mkdirs t p) :=
  mkdirs_induction p h fun t u t' _ hclosed hmkdir => by
    obtain ⟨-, ⟨n, q, rfl, hq⟩, rfl⟩ := mkdir_some hmkdir
    exact closed_set hclosed hq fun _ => rfl

/-- What was there stays as it was. -/
theorem mkdirs_exists {t : Tree Name Content} (p : List Name) {u : List Name} (hu : t u ≠ none) :
    mkdirs t p u = t u := by
  refine mkdirs_induction (motive := fun t' => t' u = t u) p rfl fun t' v t'' _ hold hmkdir => ?_
  obtain ⟨hnone, -, rfl⟩ := mkdir_some hmkdir
  have hne : u ≠ v := by
    rintro rfl
    exact hu (hold ▸ hnone)
  rw [set_other _ _ hne, hold]

/-- What is new is a folder, at the path or above it. -/
theorem mkdirs_new {t : Tree Name Content} (p : List Name) {u : List Name} (hu : t u = none) :
    mkdirs t p u = none ∨ IsFolder (mkdirs t p) u ∧ u <:+ p := by
  refine mkdirs_induction (motive := fun t' => t' u = none ∨ IsFolder t' u ∧ u <:+ p) p (.inl hu)
    fun t' v t'' hv hold hmkdir => ?_
  obtain ⟨-, -, rfl⟩ := mkdir_some hmkdir
  obtain rfl | hne := eq_or_ne u v
  · exact .inr ⟨set_same _ _ _, hv⟩
  · rwa [IsFolder, set_other _ _ hne]

theorem grows_mkdirs (t : Tree Name Content) (p : List Name) : Grows t (mkdirs t p) := by
  refine fun u => ⟨fun hu => ?_, fun hu => ?_⟩
  · rwa [IsFolder, mkdirs_exists p hu.exists]
  · rwa [IsFile, mkdirs_exists p hu.exists]

theorem mkdirs_file_iff (t : Tree Name Content) (p : List Name) {u : List Name}
    {content : Content} :
    mkdirs t p u = some (.file content) ↔ t u = some (.file content) := by
  by_cases hu : t u = none
  · refine iff_of_false (fun hfile => ?_) (by simp [hu])
    obtain hnone | ⟨hfolder, -⟩ := mkdirs_new p hu
    · simp [hnone] at hfile
    · exact not_isFile_of_isFolder hfolder ⟨content, hfile⟩
  · rw [mkdirs_exists p hu]

theorem blocked_mkdirs_iff (t : Tree Name Content) (p : List Name) {u : List Name} :
    Blocked (mkdirs t p) u ↔ Blocked t u := by
  simp [Blocked, IsFile, mkdirs_file_iff]

/-- Where no file is in the way the folder is there. -/
theorem isFolder_mkdirs {t : Tree Name Content} (h : Closed t) {p : List Name}
    (hp : ¬ Blocked t p) :
    IsFolder (mkdirs t p) p := by
  induction p with
  | nil => exact h.root
  | cons n p ih =>
    have hparent := ih fun hblocked => hp (hblocked.under [n])
    by_cases hexists : t (n :: p) = none
    · have hbelow : mkdirs t p (n :: p) = none := by
        obtain hnone | ⟨-, hsuffix⟩ := mkdirs_new p hexists
        · exact hnone
        · exact absurd hsuffix.length_le (by simp)
      have hmkdir : mkdir (mkdirs t p) (n :: p) = some (set (mkdirs t p) (n :: p) .folder) := by
        rw [IsFolder] at hparent
        simp [mkdir, hbelow, hparent]
      cases hfirst : mkdir t (n :: p) with
      | none => simp [mkdirs, hexists, hfirst, hmkdir, IsFolder]
      | some t' =>
        obtain ⟨-, -, rfl⟩ := mkdir_some hfirst
        simp [mkdirs, hexists, hfirst, IsFolder]
    · have hsome := Option.isSome_iff_ne_none.mpr hexists
      rw [mkdirs, if_pos hsome]
      obtain hfolder | hfile := isFolder_or_isFile hexists
      · exact hfolder
      · exact absurd ⟨_, List.suffix_refl _, hfile⟩ hp

end FileTree
