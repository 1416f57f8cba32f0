import AndroidWork.CommutingWords

/-!
# Dex files put into a class loader

`InstallDex`: five branches by the version of the platform, each of which rebuilds the
arrays that its class loader searches. What the platform makes of a file is a parameter.
-/
namespace InstallDex

open CommutingWords (power)

variable {File Zip Dex IOException γ : Type}

/-- An element of `dexElements`, as its constructor takes it. -/
structure Element (File Dex : Type) where
  file : File
  isDirectory : Bool
  zip : File
  dexFile : Dex

/-- The fields of a class loader and of its `pathList` that are read or set.
`dexElementsSuppressedExceptions` is looked for in the loader: none where it has no such
field, `some none` where the field is null. -/
structure Loader (File Zip Dex IOException : Type) where
  path : String
  mPaths : List (Option String)
  mFiles : List (Option File)
  mZips : List (Option Zip)
  mDexs : List (Option Dex)
  dexElements : List (Option (Element File Dex))
  dexElementsSuppressedExceptions : Option (Option (List IOException))

/-- What the platform does; `newZipFile` and `loadDex` fail with none. -/
structure Platform (File Zip Dex IOException : Type) where
  getAbsolutePath : File → String
  newFile : String → File
  newZipFile : File → Option Zip
  loadDex : String → String → Int → Option Dex
  makeDexElements14 : List File → File → List (Element File Dex)
  makeDexElements19 : List File → File → List (Element File Dex) × List IOException
  loadDexFile23 : File → File → Dex
  loadDexFile24 : File → File → Loader File Zip Dex IOException →
    List (Option (Element File Dex)) → Dex
  /-- The file whose classes an element finds. -/
  searches : Element File Dex → File

/-- The loader that an `install` leaves, whether it returns or throws. -/
inductive Outcome (File Zip Dex IOException : Type) where
  | returned (loader : Loader File Zip Dex IOException)
  | thrown (loader : Loader File Zip Dex IOException)

def Outcome.loader : Outcome File Zip Dex IOException → Loader File Zip Dex IOException
  | .returned loader | .thrown loader => loader

/-- `System.arraycopy` inside the bounds of both arrays. -/
def arraycopy (src : List γ) (srcPos : Nat) (dest : List γ) (destPos length : Nat) : List γ :=
  dest.take destPos ++ (src.drop srcPos).take length ++ dest.drop (destPos + length)

def expandFieldArray (original extraElements : List (Option γ)) (head : Bool) : List (Option γ) :=
  let combined := List.replicate (original.length + extraElements.length) none
  if head then
    let combined := arraycopy extraElements 0 combined 0 extraElements.length
    arraycopy original 0 combined extraElements.length original.length
  else
    let combined := arraycopy original 0 combined 0 original.length
    arraycopy extraElements 0 combined original.length extraElements.length

namespace V4

/-- The path and the four arrays as far as they are filled. -/
structure Extra (File Zip Dex : Type) where
  path : String
  extraPaths : List String := []
  extraFiles : List File := []
  extraZips : List Zip := []
  extraDexs : List Dex := []

def loop (p : Platform File Zip Dex IOException) :
    List File → Extra File Zip Dex → Option (Extra File Zip Dex)
  | [], x => some x
  | additionalEntry :: entries, x => do
    let entryPath := p.getAbsolutePath additionalEntry
    let zip ← p.newZipFile additionalEntry
    -- the update of the loop
    let dex ← p.loadDex entryPath (entryPath ++ ".dex") 0
    loop p entries
      { path := x.path ++ ":" ++ entryPath
        extraPaths := x.extraPaths ++ [entryPath]
        extraFiles := x.extraFiles ++ [additionalEntry]
        extraZips := x.extraZips ++ [zip]
        extraDexs := x.extraDexs ++ [dex] }

def install (p : Platform File Zip Dex IOException) (loader : Loader File Zip Dex IOException)
    (additionalClassPathEntries : List File) (head : Bool) : Outcome File Zip Dex IOException :=
  match loop p additionalClassPathEntries { path := loader.path } with
  | none => .thrown loader
  | some x =>
    .returned { loader with
      path := x.path
      mPaths := expandFieldArray loader.mPaths (x.extraPaths.map some) head
      mFiles := expandFieldArray loader.mFiles (x.extraFiles.map some) head
      mZips := expandFieldArray loader.mZips (x.extraZips.map some) head
      mDexs := expandFieldArray loader.mDexs (x.extraDexs.map some) head }

end V4

/-- The elements put into `pathList.dexElements`. -/
def Loader.expandDexElements (loader : Loader File Zip Dex IOException)
    (extraElements : List (Element File Dex))
    (head : Bool) : Loader File Zip Dex IOException :=
  { loader with dexElements := expandFieldArray loader.dexElements (extraElements.map some) head }

def V14.install (p : Platform File Zip Dex IOException) (loader : Loader File Zip Dex IOException)
    (additionalClassPathEntries : List File) (optimizedDirectory : File) (head : Bool) :
    Outcome File Zip Dex IOException :=
  .returned (loader.expandDexElements
    (p.makeDexElements14 additionalClassPathEntries optimizedDirectory) head)

def V19.install (p : Platform File Zip Dex IOException) (loader : Loader File Zip Dex IOException)
    (additionalClassPathEntries : List File) (optimizedDirectory : File) (head : Bool) :
    Outcome File Zip Dex IOException :=
  let (elements, suppressedExceptions) :=
    p.makeDexElements19 additionalClassPathEntries optimizedDirectory
  let loader := loader.expandDexElements elements head
  if suppressedExceptions.isEmpty then .returned loader
  else
    match loader.dexElementsSuppressedExceptions with
    | none => .thrown loader
    | some none =>
      .returned { loader with dexElementsSuppressedExceptions := some (some suppressedExceptions) }
    | some (some old) =>
      .returned
        { loader with dexElementsSuppressedExceptions := some (some (suppressedExceptions ++ old)) }

/-- The one element that the last two branches make of the first file. -/
def newElement (p : Platform File Zip Dex IOException) (file : File) (dex : Dex) :
    Element File Dex :=
  { file := p.newFile "", isDirectory := false, zip := file, dexFile := dex }

def V23.install (p : Platform File Zip Dex IOException) (loader : Loader File Zip Dex IOException)
    (additionalClassPathEntries : List File) (optimizedDirectory : File) (head : Bool) :
    Outcome File Zip Dex IOException :=
  match additionalClassPathEntries with
  | [] => .thrown loader
  | file :: _ =>
    let dex := p.loadDexFile23 file optimizedDirectory
    .returned (loader.expandDexElements [newElement p file dex] head)

def V24.install (p : Platform File Zip Dex IOException) (loader : Loader File Zip Dex IOException)
    (additionalClassPathEntries : List File) (optimizedDirectory : File) (head : Bool) :
    Outcome File Zip Dex IOException :=
  match additionalClassPathEntries with
  | [] => .thrown loader
  | file :: _ =>
    let dex := p.loadDexFile24 file optimizedDirectory loader loader.dexElements
    .returned (loader.expandDexElements [newElement p file dex] head)

def loadThirdPartyDexes (p : Platform File Zip Dex IOException) (sdk : Int)
    (loader : Loader File Zip Dex IOException)
    (dexDir : File) (files : List File) (head : Bool) : Outcome File Zip Dex IOException :=
  if files.isEmpty then .returned loader
  else if sdk ≥ 24 then V24.install p loader files dexDir head
  else if sdk ≥ 23 then V23.install p loader files dexDir head
  else if sdk ≥ 19 then V19.install p loader files dexDir head
  else if sdk ≥ 14 then V14.install p loader files dexDir head
  else V4.install p loader files head

/-- The old list with the new one at the head or at the tail. -/
def added (head : Bool) (old new : List γ) : List γ := if head then new ++ old else old ++ new

theorem expandFieldArray_eq (original extraElements : List (Option γ)) (head : Bool) :
    expandFieldArray original extraElements head = added head original extraElements := by
  cases head <;> simp [expandFieldArray, arraycopy, added]

/-- The paths, each with a colon behind it. -/
def terminated : List String → String
  | [] => ""
  | path :: paths => path ++ ":" ++ terminated paths

/-- The paths, each with a colon before it. -/
def led : List String → String
  | [] => ""
  | path :: paths => ":" ++ path ++ led paths

/-- The text of a path list with new paths at the head or at the tail. -/
def addedPath (head : Bool) (old : String) (paths : List String) : String :=
  if head then terminated paths ++ old else old ++ led paths

/-- What one file is in each of the structures. -/
def Made (f : File → Option γ) (files : List File) (made : List γ) : Prop :=
  List.Forall₂ (fun file x => f file = some x) files made

/-- Every structure of the branch is the old one with all files, in their order, at the side
that was asked for. -/
def Extended (p : Platform File Zip Dex IOException) (sdk : Int)
    (old new : Loader File Zip Dex IOException)
    (files : List File) (head : Bool) : Prop :=
  if sdk ≥ 14 then
    ∃ elements : List (Element File Dex), elements.map p.searches = files ∧
      new.dexElements = added head old.dexElements (elements.map some)
  else
    new.path = addedPath head old.path (files.map p.getAbsolutePath) ∧
      new.mPaths = added head old.mPaths ((files.map p.getAbsolutePath).map some) ∧
      new.mFiles = added head old.mFiles (files.map some) ∧
      (∃ zips, Made p.newZipFile files zips ∧ new.mZips = added head old.mZips (zips.map some)) ∧
      ∃ dexs, Made (fun file => p.loadDex (p.getAbsolutePath file)
        (p.getAbsolutePath file ++ ".dex") 0) files dexs ∧
        new.mDexs = added head old.mDexs (dexs.map some)

/-- The platform makes one element of each file. -/
structure OnePerFile (p : Platform File Zip Dex IOException) (files : List File) : Prop where
  newZipFile : ∀ file ∈ files, (p.newZipFile file).isSome
  loadDex :
    ∀ file ∈ files, (p.loadDex (p.getAbsolutePath file) (p.getAbsolutePath file ++ ".dex") 0).isSome
  makeDexElements14 : ∀ dir, (p.makeDexElements14 files dir).map p.searches = files
  makeDexElements19 : ∀ dir, (p.makeDexElements19 files dir).1.map p.searches = files
  newElement : ∀ file dex, p.searches (newElement p file dex) = file

/-- One file from version 23 on; before version 14 the tail, or a path and new paths that
repeat the same text. -/
def Suits (p : Platform File Zip Dex IOException) (sdk : Int)
    (loader : Loader File Zip Dex IOException)
    (files : List File) (head : Bool) : Prop :=
  if sdk ≥ 23 then files.length = 1
  else if sdk ≥ 14 then True
  else head = true → ∃ w i j, (loader.path ++ ":").toList = power i w ∧
    (terminated (files.map p.getAbsolutePath)).toList = power j w

theorem loop_eq (p : Platform File Zip Dex IOException) {files : List File}
    {zips : List Zip} {dexs : List Dex}
    (hzips : Made p.newZipFile files zips)
    (hdexs : Made (fun file => p.loadDex (p.getAbsolutePath file)
      (p.getAbsolutePath file ++ ".dex") 0) files dexs)
    (x : V4.Extra File Zip Dex) :
    V4.loop p files x = some
      { path := x.path ++ led (files.map p.getAbsolutePath)
        extraPaths := x.extraPaths ++ files.map p.getAbsolutePath
        extraFiles := x.extraFiles ++ files
        extraZips := x.extraZips ++ zips
        extraDexs := x.extraDexs ++ dexs } := by
  induction hzips generalizing dexs x with
  | nil =>
    cases hdexs
    simp [V4.loop, led]
  | cons hzip _ ih =>
    obtain _ | ⟨hdex, hdexs⟩ := hdexs
    simp only [V4.loop, hzip, hdex, Option.bind_eq_bind, Option.bind_some]
    rw [ih hdexs]
    simp [led, String.append_assoc]

theorem exists_made {f : File → Option γ} {files : List File}
    (h : ∀ file ∈ files, (f file).isSome) :
    ∃ made, Made f files made := by
  induction files with
  | nil => exact ⟨[], .nil⟩
  | cons file files ih =>
    obtain ⟨x, hx⟩ := Option.isSome_iff_exists.mp (h file List.mem_cons_self)
    obtain ⟨made, hmade⟩ := ih fun f hf => h f (List.mem_cons_of_mem _ hf)
    exact ⟨x :: made, .cons hx hmade⟩

/-- The colons before the paths and one behind are the colons behind them and one before. -/
theorem led_append (paths : List String) : led paths ++ ":" = ":" ++ terminated paths := by
  induction paths with
  | nil => rfl
  | cons path paths ih =>
    rw [led, terminated, String.append_assoc, ih, String.append_assoc, String.append_assoc]

/-- Where the path at the tail is what the head wants. -/
theorem path_eq_iff (path : String) (paths : List String) (head : Bool) :
    path ++ led paths = addedPath head path paths ↔
      (head = true → ∃ w i j, (path ++ ":").toList = power i w ∧
        (terminated paths).toList = power j w) := by
  cases head with
  | false => simp [addedPath]
  | true =>
    have hcommute : path ++ led paths = terminated paths ++ path ↔
        (path ++ ":").toList ++ (terminated paths).toList =
          (terminated paths).toList ++ (path ++ ":").toList := by
      rw [← String.toList_append, ← String.toList_append, String.toList_inj,
        String.append_assoc, ← led_append,
        ← String.append_assoc, ← String.append_assoc, String.append_left_inj]
    rw [addedPath, if_pos rfl, hcommute, CommutingWords.append_comm_iff]
    simp

theorem added_inj {head : Bool} {old new new' : List γ} :
    added head old new = added head old new' ↔ new = new' := by
  cases head <;> simp [added]

theorem loader_install19 (p : Platform File Zip Dex IOException)
    (loader : Loader File Zip Dex IOException)
    (files : List File) (dir : File) (head : Bool) :
    (V19.install p loader files dir head).loader.dexElements =
      added head loader.dexElements ((p.makeDexElements19 files dir).1.map some) := by
  simp only [V19.install]
  split
  next => exact expandFieldArray_eq _ _ _
  next => split <;> exact expandFieldArray_eq _ _ _

theorem installed4 {p : Platform File Zip Dex IOException} {files : List File}
    (hp : OnePerFile p files) {sdk : Int}
    (hsdk : sdk < 14) (loader : Loader File Zip Dex IOException) (head : Bool) :
    Extended p sdk loader (V4.install p loader files head).loader files head ↔
    Suits p sdk loader files head := by
  obtain ⟨zips, hzips⟩ := exists_made hp.newZipFile
  obtain ⟨dexs, hdexs⟩ := exists_made hp.loadDex
  rw [V4.install, loop_eq p hzips hdexs, Extended, Suits, if_neg (by omega), if_neg (by omega),
    if_neg (by omega), ← path_eq_iff]
  refine ⟨fun h => h.1, fun hpath => ⟨hpath, ?_, ?_, ⟨zips, hzips, ?_⟩, dexs, hdexs, ?_⟩⟩
  all_goals simp [Outcome.loader, expandFieldArray_eq]

/-- One element is all files where there is one. -/
theorem installedFirst {p : Platform File Zip Dex IOException} {file : File} {files : List File}
    {loader : Loader File Zip Dex IOException} {head : Bool} {element : Element File Dex}
    (helement : p.searches element = file)
    {sdk : Int} (hsdk : sdk ≥ 23) : Extended p sdk loader (loader.expandDexElements [element] head)
    (file :: files) head ↔
      Suits p sdk loader (file :: files) head := by
  rw [Extended, Suits, if_pos (by omega), if_pos hsdk, Loader.expandDexElements,
    expandFieldArray_eq]
  simp only [added_inj]
  constructor
  · rintro ⟨elements, hfiles, hsome⟩
    have hlength := congrArg List.length hsome
    rw [← hfiles]
    simpa using hlength.symm
  · intro hone
    obtain rfl : files = [] := by simpa using hone
    exact ⟨[element], by simp [helement], rfl⟩

/-- Every structure of the loader is extended as asked just where the branch suits the files. -/
theorem extended_iff (p : Platform File Zip Dex IOException) (sdk : Int)
    (loader : Loader File Zip Dex IOException)
    (dexDir : File) (files : List File) (head : Bool) (hfiles : files ≠ [])
    (hp : OnePerFile p files) :
    Extended p sdk loader (loadThirdPartyDexes p sdk loader dexDir files head).loader files head ↔
      Suits p sdk loader files head := by
  obtain ⟨file, rest, rfl⟩ := List.exists_cons_of_ne_nil hfiles
  simp only [loadThirdPartyDexes, List.isEmpty_cons, Bool.false_eq_true, if_false]
  split
  next h24 => exact installedFirst (hp.newElement _ _) (by omega)
  split
  next h23 => exact installedFirst (hp.newElement _ _) h23
  split
  next h19 =>
    rw [Extended, Suits, if_pos (by omega), if_neg (by omega), if_pos (by omega)]
    exact iff_of_true ⟨_, hp.makeDexElements19 dexDir,
      loader_install19 p loader _ dexDir head⟩ trivial
  split
  next h14 =>
    rw [Extended, Suits, if_pos h14, if_neg (by omega), if_pos h14]
    exact iff_of_true ⟨_, hp.makeDexElements14 dexDir, expandFieldArray_eq _ _ _⟩ trivial
  next h4 => exact installed4 hp (by omega) loader head

/-- A platform whose files are their names and whose elements remember the archive. -/
def byName : Platform String String String Empty where
  getAbsolutePath file := "/sdcard/" ++ file
  newFile name := name
  newZipFile file := some file
  loadDex source _ _ := some source
  makeDexElements14 files _ := files.map fun file =>
    { file := file, isDirectory := false, zip := file, dexFile := file }
  makeDexElements19 files _ :=
    (files.map fun file => { file := file, isDirectory := false, zip := file, dexFile := file }, [])
  loadDexFile23 file _ := file
  loadDexFile24 file _ _ _ := file
  searches := Element.zip

/-- A loader that searches one archive. -/
def oneArchive : Loader String String String Empty where
  path := "/system/a.jar"
  mPaths := [some "/system/a.jar"]
  mFiles := [some "a.jar"]
  mZips := [some "a.jar"]
  mDexs := [none]
  dexElements := [some { file := "", isDirectory := false, zip := "a.jar", dexFile := "a.jar" }]
  dexElementsSuppressedExceptions := none

theorem onePerFile_byName (files : List String) : OnePerFile byName files where
  newZipFile _ _ := rfl
  loadDex _ _ := rfl
  makeDexElements14 _ := by simp [byName, Function.comp_def]
  makeDexElements19 _ := by simp [byName, Function.comp_def]
  newElement _ _ := rfl

theorem extended_oneArchive : Extended byName 10 oneArchive
    (loadThirdPartyDexes byName 10 oneArchive "dex" ["b.jar", "c.jar"] false).loader
      ["b.jar", "c.jar"] false :=
  (extended_iff byName 10 oneArchive "dex" ["b.jar", "c.jar"] false (by simp)
    (onePerFile_byName _)).mpr nofun

/-- Of two files the newest platform gets the first. -/
theorem not_extended_oneArchive : ¬ Extended byName 24 oneArchive
    (loadThirdPartyDexes byName 24 oneArchive "dex" ["b.jar", "c.jar"] true).loader
      ["b.jar", "c.jar"] true := by
  rintro ⟨elements, hfiles, helements⟩
  have hlength := congrArg List.length helements
  have htwo := congrArg List.length hfiles
  simp [loadThirdPartyDexes, V24.install, Outcome.loader, Loader.expandDexElements,
    expandFieldArray_eq, added] at hlength htwo
  omega

end InstallDex
