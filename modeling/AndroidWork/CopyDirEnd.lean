import AndroidWork.CopyDirWalk
import AndroidWork.CommutingWords

/-!
# When copyDir ends

A walk to a destination that is not inside the source ends, and one to a destination
`src/p` inside it where a file stands on the path `src/p/p/...`; no other does.
-/
namespace FileOperator

open FileTree
open CommutingWords (power power_add power_one power_zero)

variable {Name : Type} [DecidableEq Name] {listFiles : Files Name → List Name → List Name}
    {src dest : List Name}
  {t₀ : Files Name}

/-- A destination `src/p` inside the source is one of which `src/p`, `src/p/p`, ... some path
has a file on it. -/
def Ends (t : Files Name) (src dest : List Name) : Prop :=
  ∀ p, p ≠ [] → dest = p ++ src → ∃ i, Blocked t (power i p ++ src)

/-- A file of the source has a folder at its place, or a file above it. -/
def Refused (t : Files Name) (src dest : List Name) : Prop :=
  ∃ n s, IsFile t (n :: s ++ src) ∧ (IsFolder t (n :: s ++ dest) ∨ Blocked t (s ++ dest))

theorem closed_prepare {t : Files Name} (h : Closed t) (p : List Name) : Closed (prepare t p) :=
  prepare_eq t p ▸ closed_mkdirs h p

theorem grows_prepare (t : Files Name) (p : List Name) : Grows t (prepare t p) :=
  prepare_eq t p ▸ grows_mkdirs t p

theorem prepare_exists {t : Files Name} (p : List Name) {u : List Name} (hu : t u ≠ none) :
    prepare t p u = t u :=
  prepare_eq t p ▸ mkdirs_exists p hu

theorem prepare_new {t : Files Name} (p : List Name) {u : List Name} (hu : t u = none) :
    prepare t p u = none ∨ IsFolder (prepare t p) u ∧ u <:+ p :=
  prepare_eq t p ▸ mkdirs_new p hu

/-- A copied file changes its place only. -/
theorem copied_other {t : Files Name} {n : Name} {s u : List Name}
    (hfile : IsFile t (n :: s ++ src)) (hne : u ≠ n :: s ++ dest) :
    (copyFile t (n :: s ++ src) (n :: s ++ dest)).1 u = t u := copyFile_other hfile hne

theorem copied_cases (dest : List Name) {t : Files Name} {n : Name} {s : List Name}
    {content : List UInt8}
    (hfile : t (n :: s ++ src) = some (.file content)) :
    (copyFile t (n :: s ++ src) (n :: s ++ dest) = (t, false) ∧ ¬ IsFile t (n :: s ++ dest) ∧
        (t (n :: s ++ dest) = none → ¬ IsFolder t (s ++ dest))) ∨
      copyFile t (n :: s ++ src) (n :: s ++ dest) =
          (set t (n :: s ++ dest) (.file (if n :: s ++ src = n :: s ++ dest then [] else content)),
            true) ∧
        (IsFile t (n :: s ++ dest) ∨ t (n :: s ++ dest) = none ∧ IsFolder t (s ++ dest)) :=
  copyFile_cases hfile

theorem closed_copied {t : Files Name} (h : Closed t) {n : Name} {s : List Name}
    (hfile : IsFile t (n :: s ++ src)) :
    Closed (copyFile t (n :: s ++ src) (n :: s ++ dest)).1 := closed_copyFile h hfile

theorem grows_copied {t : Files Name} {n : Name} {s : List Name}
    (hfile : IsFile t (n :: s ++ src)) :
    Grows t (copyFile t (n :: s ++ src) (n :: s ++ dest)).1 := grows_copyFile hfile

/-- A destination that lies no deeper than the source: nothing gets deeper than it was. -/
theorem terminates_short (h : Closed t₀) (hlists : Lists listFiles) (hsrc : IsFolder t₀ src)
    (hlen : dest.length ≤ src.length) :
    ∃ depth t' b, copyDir listFiles depth t₀ src dest = some (t', b) := by
  obtain ⟨bound, hbound⟩ := h.exists_depth
  have hwalk : Walk src dest (fun t => Closed t ∧ ∀ u, t u ≠ none → u.length ≤ bound) fun _ _ =>
    True := by
    refine ⟨fun _ => And.left, ?_, ?_⟩
    · rintro t s ⟨hclosed, hdepth⟩ hfolder
      refine ⟨⟨closed_prepare hclosed _, fun u hu => ?_⟩, trivial, fun _ => id⟩
      by_cases hold : t u = none
      · obtain hnone | ⟨-, hsuffix⟩ := prepare_new (s ++ dest) hold
        · exact absurd hnone hu
        · have := hsuffix.length_le
          have := hdepth _ hfolder.exists
          simp only [List.length_append] at *
          omega
      · exact hdepth u hold
    · rintro t n s ⟨hclosed, hdepth⟩ hfile
      refine ⟨⟨closed_copied hclosed hfile, fun u hu => ?_⟩, fun _ => trivial, fun _ => id⟩
      by_cases hplace : u = n :: s ++ dest
      · have := hdepth _ hfile.exists
        subst hplace
        simp only [List.length_append, List.length_cons] at *
        omega
      · rw [copied_other hfile hplace] at hu
        exact hdepth u hu
  have hdepth : ∀ (t : Files Name) (s : List Name),
      (Closed t ∧ ∀ u, t u ≠ none → u.length ≤ bound) →
      t (s ++ src) ≠ none → s.length ≤ bound := by
    rintro t s ⟨-, hdepth⟩ hexists
    have := hdepth _ hexists
    simp only [List.length_append] at this
    omega
  obtain ⟨t', b, hresult⟩ := hwalk.terminates hlists hdepth (bound + 1) t₀ []
    ⟨h, hbound⟩ hsrc.exists (by simp)
  exact ⟨_, t', b, hresult⟩

/-- No folder of the source has its place inside the source. -/
def Apart (t₀ : Files Name) (src dest : List Name) : Prop :=
  ∀ s, IsFolder t₀ (s ++ src) → ¬ src <:+ s ++ dest

/-- What is new is a folder over the place of a folder of the source, or the place of a file. -/
def News (t₀ : Files Name) (src dest : List Name) (t : Files Name) : Prop :=
  ∀ u, t₀ u = none → (IsFolder t u → ∃ s, IsFolder t₀ (s ++ src) ∧ u <:+ s ++ dest) ∧
    (IsFile t u → ∃ s, IsFile t₀ (s ++ src) ∧ u = s ++ dest)

/-- The source is as it was. -/
structure Beside (t₀ : Files Name) (src dest : List Name) (t : Files Name) : Prop where
  closed : Closed t
  grows : Grows t₀ t
  source : ∀ s, t (s ++ src) = t₀ (s ++ src)
  news : News t₀ src dest t

omit [DecidableEq Name] in
theorem beside_self (h : Closed t₀) (src dest : List Name) : Beside t₀ src dest t₀ :=
  ⟨h, Grows.refl t₀, fun _ => rfl, fun _ hu =>
    ⟨fun hfolder => absurd hu hfolder.exists, fun hfile => absurd hu hfile.exists⟩⟩

theorem Beside.prepare (hapart : Apart t₀ src dest) {t : Files Name}
    (hI : Beside t₀ src dest t) {s : List Name}
    (hfolder : IsFolder t (s ++ src)) :
    Beside t₀ src dest (FileOperator.prepare t (s ++ dest)) := by
  have hold : IsFolder t₀ (s ++ src) := by rwa [IsFolder, ← hI.source]
  refine ⟨closed_prepare hI.closed _, hI.grows.trans (grows_prepare t _),
    fun s' => ?_, fun u hu => ?_⟩
  · by_cases hnew : t (s' ++ src) = none
    · obtain hnone | ⟨-, hsuffix⟩ := prepare_new (s ++ dest) hnew
      · rw [hnone, ← hI.source, hnew]
      · exact absurd ((List.suffix_append s' src).trans hsuffix) (hapart s hold)
    · rw [prepare_exists _ hnew, hI.source]
  · by_cases hnew : t u = none
    · obtain hnone | ⟨hmade, hsuffix⟩ := prepare_new (s ++ dest) hnew
      · exact ⟨fun hfolder' => absurd hnone hfolder'.exists, fun hfile => absurd hnone hfile.exists⟩
      · exact ⟨fun _ => ⟨s, hold, hsuffix⟩,
          fun hfile => absurd hfile (not_isFile_of_isFolder hmade)⟩
    · simpa only [IsFolder, IsFile, prepare_exists _ hnew] using hI.news u hu

omit [DecidableEq Name] in
/-- The place of a file is no part of the source, where it is written to. -/
theorem Beside.place_ne (hsrc : IsFolder t₀ src) (hapart : Apart t₀ src dest) {t : Files Name}
    (hI : Beside t₀ src dest t)
    {n : Name} {s : List Name} (hfile : IsFile t (n :: s ++ src))
    (hplace : IsFile t (n :: s ++ dest) ∨ t (n :: s ++ dest) = none ∧ IsFolder t (s ++ dest))
    (s' : List Name) :
    s' ++ src ≠ n :: s ++ dest := by
  intro heq
  obtain hroot | habove := List.suffix_cons_iff.mp (show src <:+ n :: (s ++ dest) from ⟨s', heq⟩)
  · have hfolder : IsFolder t (n :: s ++ dest) := by
      rw [List.cons_append, ← hroot]
      exact (hI.grows src).1 hsrc
    obtain hfile | ⟨hnone, -⟩ := hplace
    · exact not_isFile_of_isFolder hfolder hfile
    · exact hfolder.exists hnone
  · have hparent : IsFolder t (s ++ src) := hI.closed.parent n _ hfile.exists
    rw [IsFolder, hI.source] at hparent
    exact hapart s hparent habove

theorem Beside.copied (hsrc : IsFolder t₀ src) (hapart : Apart t₀ src dest) {t : Files Name}
    (hI : Beside t₀ src dest t)
    {n : Name} {s : List Name} (hfile : IsFile t (n :: s ++ src)) :
    Beside t₀ src dest (copyFile t (n :: s ++ src) (n :: s ++ dest)).1 := by
  have hclosed := @closed_copied Name _ src dest t hI.closed n s hfile
  have hgrows := @grows_copied Name _ src dest t n s hfile
  obtain ⟨content, hcontent⟩ := id hfile
  obtain ⟨heq, -⟩ | ⟨heq, hplace⟩ := copied_cases dest hcontent
  · rwa [heq]
  refine ⟨hclosed, hI.grows.trans hgrows, fun s' => ?_, fun u hu => ?_⟩
  · rw [copied_other hfile (hI.place_ne hsrc hapart hfile hplace s'), hI.source]
  · by_cases hu' : u = n :: s ++ dest
    · rw [heq, hu']
      have hnew : IsFile t₀ (n :: s ++ src) := ⟨content, hI.source (n :: s) ▸ hcontent⟩
      exact ⟨fun hfolder => absurd ⟨_, set_same _ _ _⟩ (not_isFile_of_isFolder hfolder),
        fun _ => ⟨n :: s, hnew, rfl⟩⟩
    · simpa only [IsFolder, IsFile, copied_other hfile hu'] using hI.news u hu

theorem walk_apart (hsrc : IsFolder t₀ src) (hapart : Apart t₀ src dest) :
    Walk src dest (Beside t₀ src dest) fun _ _ => True :=
  ⟨fun _ => Beside.closed, fun _ _ hI hfolder => ⟨hI.prepare hapart hfolder, trivial, fun _ => id⟩,
    fun _ _ _ hI hfile => ⟨hI.copied hsrc hapart hfile, fun _ => trivial, fun _ => id⟩⟩

/-- A destination apart from the source leaves it as it is. -/
theorem terminates_apart (h : Closed t₀) (hlists : Lists listFiles) (hsrc : IsFolder t₀ src)
    (hapart : Apart t₀ src dest) :
    ∃ depth t' b, copyDir listFiles depth t₀ src dest = some (t', b) := by
  obtain ⟨bound, hbound⟩ := h.exists_depth
  have hdepth : ∀ t s, Beside t₀ src dest t → t (s ++ src) ≠ none → s.length ≤ bound := by
    intro t s hI hexists
    have := hbound _ (hI.source s ▸ hexists)
    simp only [List.length_append] at this
    omega
  obtain ⟨t', b, hresult⟩ := (walk_apart hsrc hapart).terminates hlists hdepth (bound + 1) t₀ []
    (beside_self h src dest)
    hsrc.exists (by simp)
  exact ⟨_, t', b, hresult⟩

/-- In a destination `src/p` inside the source no path gets longer behind the copies of `p` at
its beginning. -/
structure Inside (t₀ : Files Name) (src p : List Name) (bound : Nat) (t : Files Name) : Prop where
  closed : Closed t
  grows : Grows t₀ t
  short : ∀ x i, ¬ p <:+ x → t (x ++ power i p ++ src) ≠ none → x.length ≤ bound + p.length

omit [DecidableEq Name] in
theorem inside_self (h : Closed t₀) {bound : Nat} (hbound : ∀ p, t₀ p ≠ none → p.length ≤ bound)
    (src p : List Name) :
    Inside t₀ src p bound t₀ := by
  refine ⟨h, Grows.refl t₀, fun x i _ hexists => ?_⟩
  have := hbound _ hexists
  simp only [List.length_append] at this
  omega

theorem Inside.prepare {p : List Name} {bound : Nat} {t : Files Name}
    (hI : Inside t₀ src p bound t) {s : List Name}
    (hfolder : IsFolder t (s ++ src)) :
    Inside t₀ src p bound (FileOperator.prepare t (s ++ (p ++ src))) := by
  refine ⟨closed_prepare hI.closed _, hI.grows.trans (grows_prepare t _), fun x i hx hexists => ?_⟩
  by_cases hold : t (x ++ power i p ++ src) = none
  · obtain hnone | ⟨-, hsuffix⟩ := prepare_new (s ++ (p ++ src)) hold
    · exact absurd hnone hexists
    rw [← List.append_assoc] at hsuffix
    have hpath := (CommutingWords.append_suffix_iff src).mp hsuffix
    cases i with
    | zero =>
      -- a part of `p` itself
      obtain hlt | hge := Nat.lt_or_ge x.length p.length
      · omega
      · rw [power_zero, List.append_nil] at hpath
        exact absurd (List.suffix_of_suffix_length_le (List.suffix_append s p) hpath hge) hx
    | succ i =>
      -- what is new had its source one `p` further up
      rw [power_add, power_one, ← List.append_assoc] at hpath
      obtain ⟨y, rfl⟩ := (CommutingWords.append_suffix_iff p).mp hpath
      rw [List.append_assoc] at hfolder
      exact hI.short x i hx (hI.closed.isFolder_above hfolder).exists
  · exact hI.short x i hx hold

theorem Inside.copied {p : List Name} {bound : Nat} {t : Files Name}
    (hI : Inside t₀ src p bound t) {n : Name}
    {s : List Name} (hfile : IsFile t (n :: s ++ src)) :
    Inside t₀ src p bound (copyFile t (n :: s ++ src) (n :: s ++ (p ++ src))).1 := by
  refine ⟨closed_copied hI.closed hfile, hI.grows.trans (grows_copied hfile),
    fun x i hx hexists => ?_⟩
  by_cases hplace : x ++ power i p ++ src = n :: s ++ (p ++ src)
  · rw [← List.append_assoc, List.append_left_inj] at hplace
    cases i with
    | zero =>
      rw [power_zero, List.append_nil] at hplace
      exact absurd (hplace ▸ List.suffix_append _ _) hx
    | succ i =>
      rw [power_add, power_one, ← List.append_assoc, List.append_left_inj] at hplace
      exact hI.short x i hx (hplace ▸ hfile.exists)
  · rw [copied_other hfile hplace] at hexists
    exact hI.short x i hx hexists

omit [DecidableEq Name] in
/-- Before a file there are not many copies of `p`. -/
theorem Inside.length_le {p : List Name} (hp : p ≠ []) {i₀ : Nat}
    (hends : Blocked t₀ (power i₀ p ++ src)) {bound : Nat}
    {t : Files Name} (hI : Inside t₀ src p bound t) {s : List Name}
    (hexists : t (s ++ src) ≠ none) :
    s.length ≤ bound + p.length + (power i₀ p).length := by
  obtain ⟨x, i, rfl, hx⟩ := CommutingWords.exists_power hp s
  have hle : i ≤ i₀ := by
    by_contra hlt
    obtain ⟨m, rfl⟩ := Nat.exists_eq_add_of_lt (not_le.mp hlt)
    have hne : x ++ power (m + 1) p ≠ [] := by simp [power_add, hp]
    have hbelow : t (x ++ power (m + 1) p ++ (power i₀ p ++ src)) ≠ none := by
      rw [Nat.add_assoc, Nat.add_comm, power_add] at hexists
      simpa using hexists
    exact hI.closed.not_blocked (hI.closed.above hne hbelow) (hI.grows.blocked hends)
  have hshort := hI.short x i hx hexists
  have hpower := (CommutingWords.suffix_power p hle).length_le
  rw [List.length_append]
  omega

theorem terminates_inside (h : Closed t₀) (hlists : Lists listFiles) (hsrc : IsFolder t₀ src)
    {p : List Name} (hp : p ≠ [])
    {i₀ : Nat} (hends : Blocked t₀ (power i₀ p ++ src)) :
    ∃ depth t' b, copyDir listFiles depth t₀ src (p ++ src) = some (t', b) := by
  obtain ⟨bound, hbound⟩ := h.exists_depth
  have hwalk : Walk src (p ++ src) (Inside t₀ src p bound) fun _ _ => True :=
    ⟨fun _ => Inside.closed, fun _ _ hI hfolder => ⟨hI.prepare hfolder, trivial, fun _ => id⟩,
      fun _ _ _ hI hfile => ⟨hI.copied hfile, fun _ => trivial, fun _ => id⟩⟩
  have hdepth : ∀ t s, Inside t₀ src p bound t → t (s ++ src) ≠ none →
      s.length ≤ bound + p.length + (power i₀ p).length :=
    fun _ _ hI => hI.length_le hp hends
  obtain ⟨t', b, hresult⟩ :=
    hwalk.terminates hlists hdepth (bound + p.length + (power i₀ p).length + 1) t₀ []
    (inside_self h hbound src p) hsrc.exists (by simp)
  exact ⟨_, t', b, hresult⟩

/-- The three together. -/
theorem terminates (h : Closed t₀) (hlists : Lists listFiles) (hsrc : IsFolder t₀ src)
    (hends : Ends t₀ src dest) :
    ∃ depth t' b, copyDir listFiles depth t₀ src dest = some (t', b) := by
  by_cases hinside : ∃ p, p ≠ [] ∧ dest = p ++ src
  · obtain ⟨p, hp, rfl⟩ := hinside
    obtain ⟨i, hi⟩ := hends p hp rfl
    exact terminates_inside h hlists hsrc hp hi
  obtain hle | hlt := le_or_gt dest.length src.length
  · exact terminates_short h hlists hsrc hle
  · refine terminates_apart h hlists hsrc fun r _ hr => hinside ?_
    obtain ⟨p, rfl⟩ := List.suffix_of_suffix_length_le hr (List.suffix_append r dest) hlt.le
    exact ⟨p, fun hp => by simp [hp] at hlt, rfl⟩

end FileOperator
