import AndroidWork.FileOperator

/-!
# The walk of copyDir

What the steps of a walk keep the walk keeps, and what they bring about at one place it
brings about everywhere, for a walk from one folder to another.
-/
namespace FileOperator

open FileTree

variable {Name : Type} [DecidableEq Name] {listFiles : Files Name → List Name → List Name}
    {src dest : List Name}
  {I : Files Name → Prop} {Done : List Name → Files Name → Prop}

/-- Each step keeps `I`; it brings about `Done` at its place in the source, and loses it nowhere. -/
structure Walk (src dest : List Name) (I : Files Name → Prop)
    (Done : List Name → Files Name → Prop) : Prop where
  closed : ∀ t, I t → Closed t
  folder : ∀ t s, I t → IsFolder t (s ++ src) → I (prepare t (s ++ dest)) ∧
    Done s (prepare t (s ++ dest)) ∧
    ∀ r, Done r t → Done r (prepare t (s ++ dest))
  file : ∀ t n s, I t → IsFile t (n :: s ++ src) →
    I (copyFile t (n :: s ++ src) (n :: s ++ dest)).1 ∧
    ((copyFile t (n :: s ++ src) (n :: s ++ dest)).2 = true →
      Done (n :: s) (copyFile t (n :: s ++ src) (n :: s ++ dest)).1) ∧
      ∀ r, Done r t → Done r (copyFile t (n :: s ++ src) (n :: s ++ dest)).1

/-- What a part of the walk leads to that has to bring about `Done` at these places. -/
structure Leads (I : Files Name → Prop) (Done : List Name → Files Name → Prop) (t : Files Name)
    (places : List Name → Prop)
    (t' : Files Name) (result : Bool) : Prop where
  keeps : I t'
  grows : Grows t t'
  kept : ∀ r, Done r t → Done r t'
  done : result = true → ∀ r, places r → Done r t'

/-- What the source has at a path and below it. -/
def Under (t : Files Name) (src s r : List Name) : Prop := ∃ r', r = r' ++ s ∧ t (r ++ src) ≠ none

/-- What it has at some names of a folder and below them. -/
def UnderNames (t : Files Name) (src s : List Name) (names r : List Name) : Prop :=
  ∃ n ∈ names, Under t src (n :: s) r

omit [DecidableEq Name] in
/-- One name, and the other names from there. -/
theorem Leads.cons {t t₁ t' : Files Name} {s : List Name} {n : Name} {names : List Name} {b : Bool}
    (hfirst : Leads I Done t (Under t src (n :: s)) t₁ true)
    (hrest : Leads I Done t₁ (UnderNames t₁ src s names) t' b) :
    Leads I Done t (UnderNames t src s (n :: names)) t' b := by
  refine ⟨hrest.keeps, hfirst.grows.trans hrest.grows,
    fun r hr => hrest.kept r (hfirst.kept r hr), ?_⟩
  rintro hb r ⟨m, hm, r', hr, hexists⟩
  obtain rfl | hm := List.mem_cons.mp hm
  · exact hrest.kept r (hfirst.done rfl r ⟨r', hr, hexists⟩)
  · exact hrest.done hb r ⟨m, hm, r', hr, hfirst.grows.exists hexists⟩

omit [DecidableEq Name] in
theorem Leads.failed {t t' : Files Name} {places places' : List Name → Prop}
    (h : Leads I Done t places t' false) :
    Leads I Done t places' t' false :=
  ⟨h.keeps, h.grows, h.kept, nofun⟩

theorem Walk.leads_file (h : Walk src dest I Done) {t : Files Name} {n : Name}
    {s : List Name} (hI : I t)
    (hfile : IsFile t (n :: s ++ src)) :
    Leads I Done t (Under t src (n :: s)) (copyFile t (n :: s ++ src) (n :: s ++ dest)).1
      (copyFile t (n :: s ++ src) (n :: s ++ dest)).2 := by
  obtain ⟨hkeeps, hdone, hkept⟩ := h.file t n s hI hfile
  refine ⟨hkeeps, grows_copyFile hfile, hkept, ?_⟩
  rintro hresult r ⟨r', rfl, hexists⟩
  -- nothing is under a file
  obtain rfl | hr' := eq_or_ne r' []
  · exact hdone hresult
  · have hfolder := (h.closed t hI).above hr' (p := n :: s ++ src) (by simpa using hexists)
    exact absurd hfile (not_isFile_of_isFolder hfolder)

/-- A name that is not there is passed over. -/
theorem Walk.leads_none (h : Walk src dest I Done) {t : Files Name} {n : Name}
    {s : List Name} (hI : I t)
    (hnone : t (n :: s ++ src) = none) : Leads I Done t (Under t src (n :: s)) t true := by
  refine ⟨hI, Grows.refl t, fun _ => id, ?_⟩
  rintro - r ⟨r', rfl, hexists⟩
  obtain rfl | hr' := eq_or_ne r' []
  · exact absurd hnone hexists
  · exact absurd hnone ((h.closed t hI).above hr' (p := n :: s ++ src)
      (by simpa using hexists)).exists

theorem Walk.leads_copyEntries (h : Walk src dest I Done)
    {copy : Files Name → List Name → List Name → Option (Files Name × Bool)}
    (hcopy : ∀ t s t' b, I t → copy t (s ++ src) (s ++ dest) = some (t', b) →
      Leads I Done t (Under t src s) t' b)
    (s : List Name) (names : List Name) : ∀ t t' b, I t →
      copyEntries copy (s ++ src) (s ++ dest) names t = some (t', b) →
      Leads I Done t (UnderNames t src s names) t' b := by
  induction names with
  | nil =>
    intro t t' b hI heq
    cases heq
    exact ⟨hI, Grows.refl t, fun _ => id, fun _ r ⟨n, hn, _⟩ => nomatch hn⟩
  | cons n names ih =>
    intro t t' b hI heq
    simp only [copyEntries] at heq
    split at heq
    next content hfile =>
      have hleads := h.leads_file hI ⟨content, hfile⟩
      split at heq
      next hresult =>
        simp only [List.cons_append, hresult] at hleads
        exact hleads.cons (ih _ t' b hleads.keeps heq)
      next hresult =>
        cases heq
        simp only [List.cons_append, Bool.eq_false_iff.mpr hresult] at hleads
        exact hleads.failed
    next hfolder =>
      obtain ⟨⟨t₁, result⟩, hcall, heq⟩ := Option.bind_eq_some_iff.mp heq
      have hleads := hcopy t (n :: s) t₁ result hI hcall
      split at heq
      next hresult =>
        obtain rfl : result = true := hresult
        exact hleads.cons (ih t₁ t' b hleads.keeps heq)
      next hresult =>
        cases heq
        obtain rfl : result = false := Bool.eq_false_iff.mpr hresult
        exact hleads.failed
    next hnone => exact (h.leads_none hI hnone).cons (ih t t' b hI heq)

/-- The rule of the walk: where it says true, `Done` has come about at every place that the
source had. -/
theorem Walk.leads (h : Walk src dest I Done) (hlists : Lists listFiles) : ∀ depth t s t' b, I t →
    copyDir listFiles depth t (s ++ src) (s ++ dest) = some (t', b) →
      Leads I Done t (Under t src s) t' b := by
  intro depth
  induction depth with
  | zero =>
    intro t s t' b _ heq
    cases heq
  | succ depth ih =>
    intro t s t' b hI heq
    simp only [copyDir] at heq
    split at heq
    next hfolder =>
      obtain ⟨hkeeps, hdone, hkept⟩ := h.folder t s hI hfolder
      have hgrows : Grows t (prepare t (s ++ dest)) := prepare_eq t (s ++ dest) ▸ grows_mkdirs t _
      have hleads := h.leads_copyEntries ih s _ _ _ _ hkeeps heq
      refine ⟨hleads.keeps, hgrows.trans hleads.grows, fun r hr => hleads.kept r (hkept r hr), ?_⟩
      rintro hb r ⟨r', rfl, hexists⟩
      obtain rfl | ⟨r', n, rfl⟩ := List.eq_nil_or_concat' r'
      · exact hleads.kept s hdone
      · -- the name under the folder of this call
        have hname : t (n :: s ++ src) ≠ none := by
          obtain rfl | hr' := eq_or_ne r' []
          · exact hexists
          · exact ((h.closed t hI).above hr' (by simpa using hexists)).exists
        have hlisted := ((hlists _ (h.closed _ hkeeps) _ ((hgrows _).1 hfolder)).2 n).mpr
          (hgrows.exists hname)
        exact hleads.done hb _ ⟨n, hlisted, r', by simp, hgrows.exists hexists⟩
    next =>
      cases heq
      exact ⟨hI, Grows.refl t, fun _ => id, fun hb => absurd hb Bool.false_ne_true⟩

/-- The folder at the place is prepared. -/
def Ready (dest : List Name) (s : List Name) (t : Files Name) : Prop :=
  IsFolder t (s ++ dest) ∨ Blocked t (s ++ dest)

omit [DecidableEq Name] in
theorem Ready.grows {t t' : Files Name} {s : List Name} (h : Ready dest s t) (hgrows : Grows t t') :
    Ready dest s t' :=
  h.imp (hgrows _).1 hgrows.blocked

/-- Where the source stays below a depth, the walk comes to its end. -/
theorem Walk.terminates (h : Walk src dest I Done) (hlists : Lists listFiles) {bound : Nat}
    (hbound : ∀ t s, I t → t (s ++ src) ≠ none → s.length ≤ bound) :
    ∀ depth t s, I t → t (s ++ src) ≠ none →
      bound < depth + s.length → ∃ t' b, copyDir listFiles depth t (s ++ src)
      (s ++ dest) = some (t', b) := by
  intro depth
  induction depth with
  | zero =>
    intro t s hI hexists hlt
    have := hbound t s hI hexists
    omega
  | succ depth ih =>
    intro t s hI hexists hlt
    have hentries : ∀ names t, I t →
        ∃ t' b, copyEntries (copyDir listFiles depth) (s ++ src) (s ++ dest) names t =
          some (t', b) := by
      intro names
      induction names with
      | nil => exact fun t _ => ⟨t, true, rfl⟩
      | cons n names ihnames =>
        intro t hI
        simp only [copyEntries]
        split
        next content hcontent =>
          split
          · exact ihnames _ (h.file t n s hI ⟨content, hcontent⟩).1
          · exact ⟨_, _, rfl⟩
        next hsub =>
          obtain ⟨t₁, result, hcall⟩ := ih t (n :: s) hI (IsFolder.exists hsub) (by simp; omega)
          have hkeeps := (h.leads hlists depth t (n :: s) t₁ result hI hcall).keeps
          have hcall' : copyDir listFiles depth t (n :: (s ++ src)) (n :: (s ++ dest)) =
              some (t₁, result) := hcall
          rw [hcall']
          cases result
          · exact ⟨t₁, false, rfl⟩
          · exact ihnames t₁ hkeeps
        next => exact ihnames t hI
    obtain hfolder | ⟨content, hcontent⟩ := isFolder_or_isFile hexists
    · obtain ⟨t', b, hresult⟩ := hentries (listFiles (prepare t (s ++ dest)) (s ++ src)) _
        (h.folder t s hI hfolder).1
      rw [IsFolder] at hfolder
      exact ⟨t', b, by simpa only [copyDir, hfolder] using hresult⟩
    · exact ⟨t, false, by simp only [copyDir, hcontent]⟩

end FileOperator
