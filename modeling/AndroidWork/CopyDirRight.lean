import AndroidWork.CopyDirEnd

/-!
# When copyDir copies

Whether what `copyDir` says it has copied is there: for a destination beside the source,
inside it or above it, and for the source itself.
-/
namespace FileOperator

open FileTree
open CommutingWords (power power_add power_one power_zero)

variable {Name : Type} [DecidableEq Name] {listFiles : Files Name → List Name → List Name}
    {src dest : List Name}
  {t₀ : Files Name}

/-- The copy comes to its end in whatever order folders are listed, and where it says true
all of the source that was there is at its place in the destination. -/
def Right (t : Files Name) (src dest : List Name) : Prop :=
  ∀ listFiles, Lists listFiles → ∃ depth t' result, copyDir listFiles depth t src dest =
    some (t', result) ∧
    (result = true → ∀ r node, t (r ++ src) = some node → t' (r ++ dest) = some node)

/-- No folder of the source has a file at its place or above it. -/
def FoldersFree (t : Files Name) (src dest : List Name) : Prop :=
  ∀ r, IsFolder t (r ++ src) → ¬ Blocked t (r ++ dest)

/-- The files of a source that is the destination are empty; in a source `dest/q` the files
`r` and `q/.../q/r` are equal. -/
def SameText (t : Files Name) (src dest : List Name) : Prop :=
  (src = dest → ∀ r content, t (r ++ src) = some (.file content) → content = []) ∧
    ∀ q r i content content', src = q ++ dest → t (r ++ src) = some (.file content) →
      t (r ++ power i q ++ src) = some (.file content') → content' = content

def Suits (t : Files Name) (src dest : List Name) : Prop :=
  IsFolder t src → Ends t src dest ∧ (Refused t src dest ∨ SameText t src dest ∧
    FoldersFree t src dest)

/-- The contents that copies can bring to a path. -/
inductive Comes (t : Files Name) (src dest : List Name) : List Name → List UInt8 → Prop where
  | here {u : List Name} {content : List UInt8} (h : t u = some (.file content)) :
    Comes t src dest u content
  | copied {r : List Name} {content : List UInt8} (h : Comes t src dest (r ++ src) content) :
    Comes t src dest (r ++ dest) (if src = dest then [] else content)

theorem comes_nil {u : List Name} {content : List UInt8} (htext : SameText t₀ src dest)
    (heq : src = dest)
    (h : Comes t₀ src dest u content) (r : List Name) (hu : u = r ++ src) : content = [] := by
  cases h with
  | here h => exact htext.1 heq r content (hu ▸ h)
  | copied h => exact if_pos heq

/-- Where it comes from. -/
theorem comes_from {u : List Name} {content : List UInt8} (hne : src ≠ dest)
    (hinside : ∀ p, p ≠ [] → dest ≠ p ++ src)
    (h : Comes t₀ src dest u content) :
    ∀ r, u = r ++ src → ∃ r', t₀ (r' ++ src) = some (.file content) ∧
      (r' = r ∨ ∃ q i, src = q ++ dest ∧ r' = r ++ power i q) := by
  induction h with
  | here h =>
    rintro r rfl
    exact ⟨r, h, .inl rfl⟩
  | @copied r₁ content h ih =>
    intro r heq
    rw [if_neg hne]
    have hdest : dest <:+ r ++ src := heq ▸ List.suffix_append r₁ dest
    obtain ⟨q, rfl⟩ | ⟨p, rfl⟩ := List.suffix_or_suffix_of_suffix hdest (List.suffix_append r src)
    · rw [← List.append_assoc, List.append_left_inj] at heq
      obtain ⟨r', hr', hfrom⟩ := ih r₁ rfl
      refine ⟨r', hr', .inr ?_⟩
      obtain rfl | ⟨q', i, hq', rfl⟩ := hfrom
      · exact ⟨q, 1, rfl, by rw [power_one, heq]⟩
      · obtain rfl := List.append_cancel_right hq'
        exact ⟨q, i + 1, rfl, by rw [heq, Nat.add_comm, power_add, power_one, List.append_assoc]⟩
    · obtain rfl | hp := eq_or_ne p []
      · exact absurd rfl hne
      · exact absurd rfl (hinside p hp)

/-- Nothing else can come to a file of the source. -/
theorem comes_eq (htext : SameText t₀ src dest)
    (hinside : ∀ p, p ≠ [] → dest ≠ p ++ src) {r : List Name}
    {content content' : List UInt8} (hfile : t₀ (r ++ src) = some (.file content))
    (h : Comes t₀ src dest (r ++ src) content') : content' = content := by
  obtain heq | hne := eq_or_ne src dest
  · rw [comes_nil htext heq h r rfl, htext.1 heq r content hfile]
  · obtain ⟨r', hr', rfl | ⟨q, i, hq, rfl⟩⟩ := comes_from hne hinside h r rfl
    · simpa [hfile] using hr'.symm
    · exact htext.2 q r i content content' hq hfile hr'

/-- Nothing on the way is changed but by what belongs there. -/
structure Copying (t₀ : Files Name) (src dest : List Name) (t : Files Name) : Prop where
  closed : Closed t
  grows : Grows t₀ t
  comes : ∀ u content, t u = some (.file content) → Comes t₀ src dest u content
  free : ∀ r, IsFolder t₀ (r ++ src) → ¬ Blocked t (r ++ dest)

/-- What is written to a place is what the source had there. -/
theorem Copying.written (htext : SameText t₀ src dest)
    (hinside : ∀ p, p ≠ [] → dest ≠ p ++ src) {t : Files Name}
    (hI : Copying t₀ src dest t) {s : List Name} {content : List UInt8}
    (hcontent : t (s ++ src) = some (.file content))
    {node : Node (List UInt8)} (hnode : t₀ (s ++ src) = some node) :
    Node.file (if s ++ src = s ++ dest then [] else content) = node := by
  obtain ⟨old, hold⟩ := hI.grows.isFile_of_exists (hnode ▸ Option.some_ne_none node)
    ⟨content, hcontent⟩
  obtain rfl : Node.file old = node := Option.some.inj (hold.symm.trans hnode)
  by_cases hpaths : src = dest
  · rw [if_pos (by rw [hpaths]), htext.1 hpaths _ old hold]
  · rw [if_neg fun heq => hpaths (List.append_cancel_left heq),
      comes_eq htext hinside hold (hI.comes _ content hcontent)]

theorem Copying.set (h : Closed t₀) {t : Files Name} (hI : Copying t₀ src dest t)
    {n : Name} {s : List Name}
    {content : List UInt8} (hcontent : t (n :: s ++ src) = some (.file content))
    (heq : copyFile t (n :: s ++ src) (n :: s ++ dest) =
      (FileTree.set t (n :: s ++ dest) (.file (if n :: s ++ src = n :: s ++ dest then
        [] else content)), true)) :
    Copying t₀ src dest (FileTree.set t (n :: s ++ dest)
      (.file (if n :: s ++ src = n :: s ++ dest then [] else content))) := by
  have hclosed : Closed (copyFile t (n :: s ++ src) (n :: s ++ dest)).1 :=
    closed_copied hI.closed ⟨content, hcontent⟩
  have hgrows : Grows t (copyFile t (n :: s ++ src) (n :: s ++ dest)).1 :=
    grows_copied ⟨content, hcontent⟩
  rw [heq] at hclosed hgrows
  refine ⟨hclosed, hI.grows.trans hgrows, fun u content' hu => ?_, ?_⟩
  · obtain rfl | hne := eq_or_ne u (n :: s ++ dest)
    · have hpaths : n :: s ++ src = n :: s ++ dest ↔ src = dest := List.append_right_inj _
      simp only [set_same, Option.some.injEq, Node.file.injEq, hpaths] at hu
      exact hu ▸ .copied (hI.comes (n :: s ++ src) content hcontent)
    · rw [set_other _ _ hne] at hu
      exact hI.comes u content' hu
  · rintro r hr ⟨u, hu, content', hfile⟩
    by_cases hne : u = n :: s ++ dest
    · -- a folder of the source under a file of it
      subst hne
      obtain ⟨x, rfl⟩ := (CommutingWords.append_suffix_iff dest).mp hu
      rw [List.append_assoc] at hr
      exact not_isFile_of_isFolder ((hI.grows _).1 (h.isFolder_above hr)) ⟨content, hcontent⟩
    · rw [set_other _ _ hne] at hfile
      exact hI.free r hr ⟨u, hu, content', hfile⟩

theorem Copying.prepare {t : Files Name} (hI : Copying t₀ src dest t) (p : List Name) :
    Copying t₀ src dest (FileOperator.prepare t p) := by
  refine ⟨closed_prepare hI.closed _, hI.grows.trans (grows_prepare t _),
    fun u content hu => ?_, fun r hr => ?_⟩
  · rw [prepare_eq, mkdirs_file_iff] at hu
    exact hI.comes u content hu
  · rw [prepare_eq, blocked_mkdirs_iff]
    exact hI.free r hr

end FileOperator
