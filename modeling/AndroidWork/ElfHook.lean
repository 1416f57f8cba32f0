import Mathlib.Data.BitVec
import Mathlib.Tactic

/-!
# The fields of an ELF image that the hook reads

`getElfInfoBySegmentView` assigns the fields of `ElfInfo` that the tags of the
dynamic table name; `findSymByName` and `elfHook` read them unchecked. An
`ElfInfo` starts uninitialised, and to read a field that is not assigned stops
the run here.
-/
namespace ElfHook

abbrev Byte := BitVec 8
abbrev Addr := BitVec 32
abbrev Word := BitVec 32
abbrev Memory := Addr → Byte

def word (m : Memory) (a : Addr) : Word := m (a + 3) ++ m (a + 2) ++ m (a + 1) ++ m a
def half (m : Memory) (a : Addr) : BitVec 16 := m (a + 1) ++ m a

def setWord (m : Memory) (a : Addr) (w : Word) : Memory := fun b =>
  if b - a < 4 then (w >>> (8 * (b - a))).truncate 8 else m b

/-- `strcmp` finds no difference. -/
def isText (m : Memory) : Addr → List Byte → Bool
  | a, [] => m a = 0
  | a, c :: cs => m a = c && isText m (a + 1) cs

abbrev dtPltrelsz : Word := 2
abbrev dtHash : Word := 4
abbrev dtStrtab : Word := 5
abbrev dtSymtab : Word := 6
abbrev dtRel : Word := 17
abbrev dtRelsz : Word := 18
abbrev dtJmprel : Word := 23
abbrev ptDynamic : Word := 2
abbrev rArmAbs32 : Word := 0x02
abbrev rArmGlobDat : Word := 0x15
abbrev rArmJumpSlot : Word := 0x16

structure ElfHandle where
  base : Addr
  fromfile : Bool

/-- The fields that the tags decide are none until they are assigned. -/
structure ElfInfo where
  elfBase : Addr
  dyn : Addr
  dynsz : Word
  sym : Option Addr := none
  symsz : Option Word := none
  relplt : Option Addr := none
  relpltsz : Option Word := none
  reldyn : Option Addr := none
  reldynsz : Option Word := none
  nbucket : Option Word := none
  nchain : Option Word := none
  bucket : Option Addr := none
  chain : Option Addr := none
  symstr : Option Addr := none

/-- Why a run does not return. -/
inductive Stop where
  | unassigned
  | exits
  | divides
  | outOfTurns
  deriving DecidableEq

def read {α : Type} : Option α → Except Stop α
  | none => .error .unassigned
  | some a => .ok a

def findSegmentByType (m : Memory) (base : Addr) (type : Word) : Option Addr :=
  let phdr := base + word m (base + 28)
  ((List.range (half m (base + 44)).toNat).map fun i => phdr + 32 * BitVec.ofNat 32 i).find?
    fun p => word m p = type

def getSegmentInfo (m : Memory) (handle : ElfHandle) (type : Word) : Option (Addr × Word) :=
  (findSegmentByType m handle.base type).map fun p =>
    if handle.fromfile then (handle.base + word m (p + 4), word m (p + 16))
    else (handle.base + word m (p + 8), word m (p + 20))

/-- The entries `d_tag`, `d_un`. -/
def dynamicTable (m : Memory) (dyn : Addr) (dynsz : Word) : List (Word × Word) :=
  (List.range dynsz.toNat).map fun i =>
    (word m (dyn + 8 * BitVec.ofNat 32 i), word m (dyn + 8 * BitVec.ofNat 32 i + 4))

/-- The turn of the loop for one entry. -/
def assign (m : Memory) (info : ElfInfo) (d : Word × Word) : ElfInfo :=
  if d.1 = dtSymtab then { info with sym := some (info.elfBase + d.2) }
  else if d.1 = dtStrtab then { info with symstr := some (info.elfBase + d.2) }
  else if d.1 = dtRel then { info with reldyn := some (info.elfBase + d.2) }
  else if d.1 = dtRelsz then { info with reldynsz := some (d.2 / 8) }
  else if d.1 = dtJmprel then { info with relplt := some (info.elfBase + d.2) }
  else if d.1 = dtPltrelsz then { info with relpltsz := some (d.2 / 8) }
  else if d.1 = dtHash then
    let rawdata := info.elfBase + d.2
    let nbucket := word m rawdata
    let nchain := word m (rawdata + 4)
    let bucket := rawdata + 8
    { info with nbucket, nchain, bucket, chain := bucket + 4 * nbucket, symsz := nchain }
  else info

def getElfInfoBySegmentView (m : Memory) (handle : ElfHandle) : Except Stop ElfInfo :=
  match getSegmentInfo m handle ptDynamic with
  | none => .error .exits
  | some (dyn, size) =>
    .ok ((dynamicTable m dyn (size / 8)).foldl (assign m)
      { elfBase := handle.base, dyn, dynsz := size / 8 })

def elfHash (name : List Byte) : Word :=
  name.foldl (fun h c =>
    let h := (h <<< 4) + c.zeroExtend 32
    let g := h &&& 0xf0000000
    let h := h ^^^ g
    h ^^^ (g >>> 24)) 0

def isNamed (m : Memory) (info : ElfInfo) (symbol : List Byte) (index : Word) :
    Except Stop Bool := do
  let symstr ← read info.symstr
  let sym ← read info.sym
  return isText m (symstr + word m (sym + 16 * index)) symbol

/-- The chain from `index` on, for at most `turns` turns. -/
def findSymLoop (m : Memory) (info : ElfInfo) (symbol : List Byte) :
    Nat → Word → Except Stop (Option Word)
  | 0, _ => .error .outOfTurns
  | turns + 1, index => do
    let chain ← read info.chain
    let index := word m (chain + 4 * index)
    if ← isNamed m info symbol index then return some index
    else if index ≠ 0 then findSymLoop m info symbol turns index
    else return none

/-- The index of the symbol; a pointer into the symbol table is not null. -/
def findSymByName (m : Memory) (info : ElfInfo) (symbol : List Byte) (turns : Nat) :
    Except Stop (Option Word) := do
  let nbucket ← read info.nbucket
  if nbucket = 0 then .error .divides
  else
    let bucket ← read info.bucket
    let index := word m (bucket + 4 * (elfHash symbol % nbucket))
    if ← isNamed m info symbol index then return some index
    else findSymLoop m info symbol turns index

/-- The process's memory and `*old_func`. -/
structure Process where
  memory : Memory
  oldFunc : Word

/-- `modifyMemAccess` fails at some addresses; the result says whether this one did. -/
def replaceFunc (modifyMemAccess : Addr → Bool) (replace : Word) (addr : Addr)
    (p : Process) : Process × Bool :=
  if word p.memory addr = replace then (p, false)
  else
    let p := if p.oldFunc = 0 then { p with oldFunc := word p.memory addr } else p
    if modifyMemAccess addr then (p, true)
    else ({ p with memory := setWord p.memory addr replace }, false)

/-- One of the two loops over relocations, at `i` with `left` to go. -/
def relocate (modifyMemAccess : Addr → Bool) (replace : Word) (elfBase : Addr) (symidx : Word)
    (types : List Word)
    (once : Bool) (rels : Option Addr) : Nat → Nat → Process → Except Stop (Process × Bool)
  | 0, _, p => .ok (p, false)
  | left + 1, i, p => do
    let relplt ← read rels
    let rel := relplt + 8 * BitVec.ofNat 32 i
    let info := word p.memory (rel + 4)
    if info >>> 8 = symidx ∧ info &&& 0xff ∈ types then
      let done := replaceFunc modifyMemAccess replace (elfBase + word p.memory rel) p
      if done.2 || once then return done
      else relocate modifyMemAccess replace elfBase symidx types once rels left (i + 1) done.1
    else relocate modifyMemAccess replace elfBase symidx types once rels left (i + 1) p

/-- Both loops of `elfHook`. -/
def hookRelocations (modifyMemAccess : Addr → Bool) (replace : Word) (info : ElfInfo)
    (symidx : Word) (p : Process) :
    Except Stop Process := do
  let relpltsz ← read info.relpltsz
  let done ← relocate modifyMemAccess replace info.elfBase symidx
    [rArmJumpSlot] true info.relplt relpltsz.toNat 0 p
  if done.2 then return done.1
  else
    let reldynsz ← read info.reldynsz
    let done ← relocate modifyMemAccess replace info.elfBase symidx
      [rArmAbs32, rArmGlobDat] false info.reldyn
      reldynsz.toNat 0 done.1
    return done.1

/-- `opened` is what `openElfBySoname` finds. -/
def elfHook (modifyMemAccess : Addr → Bool) (opened : Option ElfHandle)
    (symbol : List Byte) (replace : Word)
    (turns : Nat) (p : Process) : Except Stop Process :=
  match opened with
  | none => return p
  | some handle => do
    let info ← getElfInfoBySegmentView p.memory handle
    match ← findSymByName p.memory info symbol turns with
    | none => return p
    | some symidx => hookRelocations modifyMemAccess replace info symidx p

/-- No field is read that is not assigned. -/
def Assigned {α : Type} (x : Except Stop α) : Prop := x ≠ .error .unassigned

/-- The last entry of a tag decides. -/
def value (table : List (Word × Word)) (tag : Word) : Option Word :=
  (table.reverse.find? fun d => d.1 = tag).map Prod.snd

/-- The fields as the tags of the table give them. -/
def described (m : Memory) (base dyn : Addr) (dynsz : Word)
    (table : List (Word × Word)) : ElfInfo :=
  let rawdata := (value table dtHash).map (base + ·)
  { elfBase := base, dyn, dynsz
    sym := (value table dtSymtab).map (base + ·)
    symstr := (value table dtStrtab).map (base + ·)
    reldyn := (value table dtRel).map (base + ·)
    reldynsz := (value table dtRelsz).map (· / 8)
    relplt := (value table dtJmprel).map (base + ·)
    relpltsz := (value table dtPltrelsz).map (· / 8)
    nbucket := rawdata.map (word m)
    nchain := rawdata.map fun a => word m (a + 4)
    bucket := rawdata.map (· + 8)
    chain := rawdata.map fun a => a + 8 + 4 * word m a
    symsz := rawdata.map fun a => word m (a + 4) }

/-- From `index` the chain comes to `symidx` before it ends. -/
inductive Reaches (named : Word → Bool) (chain : Word → Word) : Word → Word → Prop where
  | here {index : Word} (h : named index) : Reaches named chain index index
  | next {index symidx : Word} (h : ¬ named index) (hne : index ≠ 0)
    (hrest : Reaches named chain (chain index) symidx) :
      Reaches named chain index symidx

/-- The bucket's own index is not checked for 0. -/
def Finds (named : Word → Bool) (chain : Word → Word) (index symidx : Word) : Prop :=
  (named index ∧ index = symidx) ∨ (¬ named index ∧ Reaches named chain (chain index) symidx)

/-- The slots of the relocations of a symbol, from `i` on. -/
def slots (m : Memory) (elfBase : Addr) (symidx : Word) (types : List Word) (relplt : Addr)
    (i left : Nat) : List Addr :=
  ((List.range' i left).map fun i => relplt + 8 * BitVec.ofNat 32 i).filterMap fun rel =>
    if word m (rel + 4) >>> 8 = symidx ∧ word m (rel + 4) &&& 0xff ∈ types then
      some (elfBase + word m rel) else none

variable (modifyMemAccess : Addr → Bool) (replace : Word) (m : Memory) (symbol : List Byte)

/-- `replaceFunc` does not get to write the slot. -/
def Refuses (slot : Addr) : Prop := word m slot ≠ replace ∧ modifyMemAccess slot

/-- A table is there unless it is empty. -/
def HasTable (size rels : Option Word) : Prop := ∃ n, size = some n ∧ (n ≠ 0 → rels.isSome)

/-- Both relocation tables, the second only where the first one's slot can be written. -/
def Relocatable (info : ElfInfo) (symidx : Word) : Prop :=
  HasTable info.relpltsz info.relplt ∧
    ((∃ n relplt, info.relpltsz = some n ∧ info.relplt = some relplt ∧
      ∃ slot ∈ (slots m info.elfBase symidx [rArmJumpSlot] relplt 0 n.toNat).head?,
        Refuses modifyMemAccess replace m slot) ∨
      HasTable info.reldynsz info.reldyn)

/-- The hash table, the symbols and their names, and the relocations if the symbol is found. -/
def Complete (info : ElfInfo) : Prop :=
  ∃ nbucket bucket chain, info.nbucket = some nbucket ∧ info.bucket = some bucket ∧
    info.chain = some chain ∧
    (nbucket ≠ 0 → ∃ symstr sym, info.symstr = some symstr ∧ info.sym = some sym ∧
      ∀ symidx, Finds (fun index => isText m (symstr + word m (sym + 16 * index)) symbol)
        (fun index => word m (chain + 4 * index))
          (word m (bucket + 4 * (elfHash symbol % nbucket))) symidx →
        Relocatable modifyMemAccess replace m info symidx)

section Fields

theorem value_concat (table : List (Word × Word)) (d : Word × Word) (tag : Word) :
    value (table ++ [d]) tag = if d.1 = tag then some d.2 else value table tag := by
  simp only [value, List.reverse_append, List.reverse_singleton,
    List.singleton_append, List.find?_cons]
  by_cases h : d.1 = tag <;> simp [h]

/-- The loop over the table assigns the fields as described. -/
theorem foldl_assign (base dyn : Addr) (dynsz : Word) (table : List (Word × Word)) :
    table.foldl (assign m) { elfBase := base, dyn, dynsz } = described m base dyn dynsz table := by
  induction table using List.reverseRecOn with
  | nil => rfl
  | append_singleton table d ih =>
    rw [List.foldl_concat, ih]
    unfold assign described
    simp only [value_concat]
    split_ifs <;> simp_all

end Fields

section Reads

variable {α β : Type}

theorem assigned_bind {x : Except Stop α} {f : α → Except Stop β} :
    Assigned (x >>= f) ↔ Assigned x ∧ ∀ a, x = .ok a → Assigned (f a) := by
  cases x with
  | error stop =>
    constructor
    · exact fun h => ⟨fun hstop => h (by cases hstop; rfl), nofun⟩
    · exact fun h hstop => h.1 (by cases hstop; rfl)
  | ok a =>
    constructor
    · rintro h
      exact ⟨nofun, fun b hb => by cases hb; exact h⟩
    · exact fun h => h.2 a rfl

theorem assigned_read_bind {o : Option α} {f : α → Except Stop β} :
    Assigned (read o >>= f) ↔ ∃ a, o = some a ∧ Assigned (f a) := by
  rw [assigned_bind]
  cases o with
  | none => exact iff_of_false (fun h => h.1 rfl) nofun
  | some a =>
    constructor
    · exact fun h => ⟨a, rfl, h.2 a rfl⟩
    · rintro ⟨b, hb, h⟩
      cases hb
      exact ⟨nofun, fun c hc => by cases hc; exact h⟩

end Reads

section Symbols

variable {m symbol} {info : ElfInfo} {symstr sym chain : Addr}

theorem isNamed_eq (hsymstr : info.symstr = some symstr)
    (hsym : info.sym = some sym) (index : Word) :
    isNamed m info symbol index = .ok (isText m (symstr + word m (sym + 16 * index)) symbol) := by
  rw [isNamed, hsymstr, hsym]
  rfl

theorem findSymLoop_succ (hsymstr : info.symstr = some symstr) (hsym : info.sym = some sym)
    (hchain : info.chain = some chain) (turns : Nat) (index : Word) :
    findSymLoop m info symbol (turns + 1) index =
      if isText m (symstr + word m (sym + 16 * word m (chain + 4 * index))) symbol then
        .ok (some (word m (chain + 4 * index)))
      else if word m (chain + 4 * index) ≠ 0 then
        findSymLoop m info symbol turns (word m (chain + 4 * index))
      else .ok none := by
  rw [findSymLoop, hchain]
  show (isNamed m info symbol (word m (chain + 4 * index)) >>= _) = _
  rw [isNamed_eq hsymstr hsym]
  rfl

/-- The walk reads no field that is not assigned, and gives what the chain comes to. -/
theorem findSymLoop_spec (hsymstr : info.symstr = some symstr) (hsym : info.sym = some sym)
    (hchain : info.chain = some chain) (turns : Nat) (index : Word) :
    Assigned (findSymLoop m info symbol turns index) ∧
      ∀ symidx, findSymLoop m info symbol turns index = .ok (some symidx) →
        Reaches (fun index => isText m (symstr + word m (sym + 16 * index)) symbol)
          (fun index => word m (chain + 4 * index)) (word m (chain + 4 * index)) symidx := by
  induction turns generalizing index with
  | zero => exact ⟨nofun, nofun⟩
  | succ turns ih =>
    rw [findSymLoop_succ hsymstr hsym hchain]
    split
    · rename_i hnamed
      refine ⟨nofun, fun symidx h => ?_⟩
      cases h
      exact .here hnamed
    · rename_i hnamed
      split
      · rename_i hne
        obtain ⟨hassigned, hreaches⟩ := ih (word m (chain + 4 * index))
        exact ⟨hassigned, fun symidx h => .next hnamed hne (hreaches symidx h)⟩
      · exact ⟨nofun, nofun⟩

theorem exists_findSymLoop (hsymstr : info.symstr = some symstr) (hsym : info.sym = some sym)
    (hchain : info.chain = some chain) {i symidx : Word}
    (h : Reaches (fun index => isText m (symstr + word m (sym + 16 * index)) symbol)
      (fun index => word m (chain + 4 * index)) i symidx) :
    ∀ index, word m (chain + 4 * index) = i → ∃ turns, findSymLoop m info symbol turns index =
      .ok (some symidx) := by
  induction h with
  | here hnamed =>
    intro index hindex
    refine ⟨1, ?_⟩
    rw [findSymLoop_succ hsymstr hsym hchain, hindex, if_pos hnamed]
  | next hnamed hne _ ih =>
    intro index hindex
    obtain ⟨turns, hturns⟩ := ih _ rfl
    refine ⟨turns + 1, ?_⟩
    rw [findSymLoop_succ hsymstr hsym hchain, hindex, if_neg hnamed, if_pos hne]
    exact hturns

theorem assigned_isNamed {index : Word} (h : Assigned (isNamed m info symbol index)) :
    ∃ symstr sym, info.symstr = some symstr ∧ info.sym = some sym := by
  obtain ⟨symstr, hsymstr, h⟩ := assigned_read_bind.mp h
  obtain ⟨sym, hsym, -⟩ := assigned_read_bind.mp h
  exact ⟨symstr, sym, hsymstr, hsym⟩

variable {nbucket : Word} {bucket : Addr}

/-- What is left of the lookup once the bucket is read. -/
theorem findSymByName_eq (hnbucket : info.nbucket = some nbucket)
    (hbucket : info.bucket = some bucket) (hne : nbucket ≠ 0)
    (turns : Nat) :
    findSymByName m info symbol turns =
      isNamed m info symbol (word m (bucket + 4 * (elfHash symbol % nbucket))) >>= fun named =>
        if named then .ok (some (word m (bucket + 4 * (elfHash symbol % nbucket))))
        else findSymLoop m info symbol turns
            (word m (bucket + 4 * (elfHash symbol % nbucket))) := by
  rw [findSymByName, hnbucket]
  show (if nbucket = 0 then _ else _) = _
  rw [if_neg hne, hbucket]
  rfl

theorem findSymByName_finds (hnbucket : info.nbucket = some nbucket)
    (hbucket : info.bucket = some bucket)
    (hne : nbucket ≠ 0) (hsymstr : info.symstr = some symstr) (hsym : info.sym = some sym)
    (hchain : info.chain = some chain) :
    (∀ turns, Assigned (findSymByName m info symbol turns)) ∧
      ∀ symidx, (∃ turns, findSymByName m info symbol turns = .ok (some symidx)) ↔
        Finds (fun index => isText m (symstr + word m (sym + 16 * index)) symbol)
        (fun index => word m (chain + 4 * index))
          (word m (bucket + 4 * (elfHash symbol % nbucket))) symidx := by
  have heq : ∀ turns, findSymByName m info symbol turns =
      if isText m (symstr + word m (sym + 16 * word m (bucket + 4 * (elfHash symbol % nbucket))))
        symbol then
        .ok (some (word m (bucket + 4 * (elfHash symbol % nbucket))))
      else findSymLoop m info symbol turns (word m (bucket + 4 * (elfHash symbol % nbucket))) := by
    intro turns
    rw [findSymByName_eq hnbucket hbucket hne, isNamed_eq hsymstr hsym]
    rfl
  simp only [heq, Finds]
  by_cases hnamed :
    isText m (symstr + word m (sym + 16 * word m (bucket + 4 * (elfHash symbol % nbucket)))) symbol
  · simp only [hnamed, if_true, true_and, not_true_eq_false, false_and, or_false]
    refine ⟨fun _ => nofun, fun symidx => ?_⟩
    simp
  · simp only [hnamed, Bool.false_eq_true, if_false, false_and, not_false_eq_true,
      true_and, false_or]
    refine ⟨fun turns => (findSymLoop_spec hsymstr hsym hchain turns _).1, fun symidx => ?_⟩
    constructor
    · rintro ⟨turns, hturns⟩
      exact (findSymLoop_spec hsymstr hsym hchain turns _).2 symidx hturns
    · exact fun h => exists_findSymLoop hsymstr hsym hchain h _ rfl

end Symbols

section Relocations

variable {modifyMemAccess replace} {elfBase symidx : Word} {types : List Word}

theorem relocate_some (once : Bool) (relplt : Addr) (left i : Nat) (p : Process) :
    ∃ done, relocate modifyMemAccess replace elfBase symidx types once
      (some relplt) left i p = .ok done := by
  induction left generalizing i p with
  | zero => exact ⟨_, rfl⟩
  | succ left ih =>
    rw [relocate]
    simp only [read, bind, Except.bind]
    split
    · split
      · exact ⟨_, rfl⟩
      · exact ih _ _
    · exact ih _ _

theorem assigned_relocate (once : Bool) (rels : Option Addr) (n : Word) (p : Process) :
    Assigned (relocate modifyMemAccess replace elfBase symidx types once rels n.toNat 0 p) ↔
    (n ≠ 0 → rels.isSome) := by
  cases rels with
  | some relplt =>
    obtain ⟨done, hdone⟩ : ∃ done, relocate modifyMemAccess replace elfBase symidx types once
        (some relplt) n.toNat 0 p = .ok done :=
      relocate_some once relplt n.toNat 0 p
    rw [hdone]
    exact iff_of_true nofun fun _ => rfl
  | none =>
    rcases eq_or_ne n 0 with rfl | hne
    · exact iff_of_true nofun fun h => absurd rfl h
    · obtain ⟨left, hleft⟩ := Nat.exists_eq_succ_of_ne_zero (BitVec.toNat_ne_iff_ne.mpr hne)
      rw [show n.toNat = left + 1 from hleft]
      exact iff_of_false (fun h => h rfl) fun h => nomatch h hne

/-- The first loop tries the first slot of the symbol only. -/
theorem relocate_once (relplt : Addr) (left i : Nat) (p : Process) :
    relocate modifyMemAccess replace elfBase symidx types true (some relplt) left i p =
      .ok (((slots p.memory elfBase symidx types relplt i left).head?.map fun slot =>
        replaceFunc modifyMemAccess replace slot p).getD (p, false)) := by
  induction left generalizing i with
  | zero => rfl
  | succ left ih =>
    rw [relocate, slots, List.range'_succ, List.map_cons, List.filterMap_cons]
    simp only [read, bind, Except.bind]
    split
    · rw [if_pos (Bool.or_true _)]
      rfl
    · exact ih (i + 1)

theorem replaceFunc_failed (slot : Addr) (p : Process) :
    (replaceFunc modifyMemAccess replace slot p).2 = true ↔
    Refuses modifyMemAccess replace p.memory slot := by
  unfold replaceFunc Refuses
  split
  · rename_i h
    exact iff_of_false nofun fun hr => hr.1 h
  · rename_i h
    rw [and_iff_right h]
    simp only []
    split
    · rename_i hfails
      exact iff_of_true rfl hfails
    · rename_i hfails
      exact iff_of_false nofun hfails

theorem assigned_hookRelocations (info : ElfInfo) (p : Process) :
    Assigned (hookRelocations modifyMemAccess replace info symidx p) ↔
      Relocatable modifyMemAccess replace p.memory info symidx := by
  have hsecond : ∀ q : Process, Assigned (do
      let reldynsz ← read info.reldynsz
      let done ← relocate modifyMemAccess replace info.elfBase symidx
        [rArmAbs32, rArmGlobDat] false info.reldyn
        reldynsz.toNat 0 q
      return done.1) ↔ HasTable info.reldynsz info.reldyn := by
    intro q
    rw [assigned_read_bind]
    simp only [assigned_bind, assigned_relocate, HasTable]
    exact exists_congr fun n => and_congr_right fun _ => and_iff_left fun _ _ h => nomatch h
  have hfirst : ∀ done : Process × Bool, Assigned (if done.2 then return done.1 else do
      let reldynsz ← read info.reldynsz
      let done ← relocate modifyMemAccess replace info.elfBase symidx
        [rArmAbs32, rArmGlobDat] false info.reldyn
        reldynsz.toNat 0 done.1
      return done.1) ↔ done.2 = true ∨ HasTable info.reldynsz info.reldyn := by
    intro done
    split
    · rename_i hfailed
      exact iff_of_true nofun (.inl hfailed)
    · rename_i hfailed
      rw [hsecond, or_iff_right hfailed]
  rw [hookRelocations, assigned_read_bind]
  simp only [assigned_bind, assigned_relocate, hfirst]
  rw [Relocatable, HasTable]
  cases hrelplt : info.relplt with
  | none =>
    constructor
    · rintro ⟨n, hn, htable, hrest⟩
      have hzero : n = 0 := by
        by_contra hne
        cases htable hne
      subst hzero
      exact ⟨⟨0, hn, htable⟩, .inr ((hrest (p, false) rfl).resolve_left nofun)⟩
    · rintro ⟨⟨n, hn, htable⟩, hrest⟩
      have hzero : n = 0 := by
        by_contra hne
        cases htable hne
      subst hzero
      refine ⟨0, hn, htable, fun done _ => .inr (hrest.resolve_left ?_)⟩
      rintro ⟨_, _, _, h, _⟩
      cases h
  | some relplt =>
    simp only [relocate_once, Except.ok.injEq, forall_eq']
    have hslots : ∀ slot? : Option Addr,
        ((slot?.map fun slot => replaceFunc modifyMemAccess replace slot p).getD (p, false)).2 =
          true ↔
          ∃ slot ∈ slot?, Refuses modifyMemAccess replace p.memory slot := by
      intro slot?
      cases slot? with
      | none => exact iff_of_false nofun nofun
      | some slot => simpa using replaceFunc_failed slot p
    simp only [hslots]
    constructor
    · rintro ⟨n, hn, htable, hrest⟩
      exact ⟨⟨n, hn, htable⟩, hrest.imp_left fun hrefuses => ⟨n, relplt, hn, rfl, hrefuses⟩⟩
    · rintro ⟨⟨n, hn, htable⟩, hrest⟩
      refine ⟨n, hn, htable, hrest.imp_left ?_⟩
      rintro ⟨n', relplt', hn', hrelplt', hrefuses⟩
      cases hn.symm.trans hn'
      cases hrelplt'
      exact hrefuses

/-- The three fields of DT_HASH come together. -/
theorem hash_described (m : Memory) (base dyn : Addr) (dynsz : Word)
    (table : List (Word × Word)) {nbucket : Word}
    (h : (described m base dyn dynsz table).nbucket = some nbucket) : ∃ bucket chain,
      (described m base dyn dynsz table).bucket = some bucket ∧
      (described m base dyn dynsz table).chain = some chain := by
  simp only [described] at h ⊢
  cases hhash : value table dtHash with
  | none =>
    rw [hhash] at h
    cases h
  | some hash => exact ⟨_, _, rfl, rfl⟩

theorem assigned_lookup (info : ElfInfo) (symbol : List Byte) (p : Process)
    (hhash : ∀ nbucket, info.nbucket = some nbucket → ∃ bucket chain, info.bucket = some bucket ∧
      info.chain = some chain) :
    (∀ turns, Assigned (findSymByName p.memory info symbol turns >>= fun found =>
      match found with
      | none => return p
      | some symidx => hookRelocations modifyMemAccess replace info symidx p)) ↔
      Complete modifyMemAccess replace p.memory symbol info := by
  have hfound : ∀ found : Option Word, Assigned (match found with
      | none => return p
      | some symidx => hookRelocations modifyMemAccess replace info symidx p) ↔
      ∀ symidx, found = some symidx → Relocatable modifyMemAccess replace p.memory info symidx := by
    intro found
    cases found with
    | none => exact iff_of_true nofun nofun
    | some symidx => simpa using assigned_hookRelocations info p
  simp only [assigned_bind, hfound]
  constructor
  · intro h
    obtain ⟨nbucket, hnbucket, hread⟩ := assigned_read_bind.mp (h 0).1
    obtain ⟨bucket, chain, hbucket, hchain⟩ := hhash nbucket hnbucket
    refine ⟨nbucket, bucket, chain, hnbucket, hbucket, hchain, fun hne => ?_⟩
    have hassigned := (h 0).1
    rw [findSymByName_eq hnbucket hbucket hne] at hassigned
    obtain ⟨symstr, sym, hsymstr, hsym⟩ := assigned_isNamed (assigned_bind.mp hassigned).1
    refine ⟨symstr, sym, hsymstr, hsym, fun symidx hfinds => ?_⟩
    obtain ⟨turns, hturns⟩ :=
      ((findSymByName_finds hnbucket hbucket hne hsymstr hsym hchain).2 symidx).mpr hfinds
    exact (h turns).2 _ hturns symidx rfl
  · rintro ⟨nbucket, bucket, chain, hnbucket, hbucket, hchain, hcomplete⟩ turns
    rcases eq_or_ne nbucket 0 with rfl | hne
    · have hdivides : findSymByName p.memory info symbol turns = .error .divides := by
        rw [findSymByName, hnbucket]
        rfl
      rw [hdivides]
      exact ⟨nofun, nofun⟩
    · obtain ⟨symstr, sym, hsymstr, hsym, hrelocatable⟩ := hcomplete hne
      refine ⟨(findSymByName_finds hnbucket hbucket hne hsymstr hsym hchain).1 turns,
        fun found hturns symidx hsymidx => ?_⟩
      subst hsymidx
      exact hrelocatable symidx
        (((findSymByName_finds hnbucket hbucket hne hsymstr hsym hchain).2 symidx).mp
          ⟨turns, hturns⟩)

end Relocations

/-- No run reads a field that is not assigned, exactly for the images whose table
has what the lookup and the relocations need. -/
theorem assigned_iff (opened : Option ElfHandle) (p : Process) :
    (∀ turns, Assigned (elfHook modifyMemAccess opened symbol replace turns p)) ↔
      ∀ handle dyn size, opened = some handle → getSegmentInfo p.memory handle ptDynamic =
        some (dyn, size) →
        Complete modifyMemAccess replace p.memory symbol
          (described p.memory handle.base dyn (size / 8)
            (dynamicTable p.memory dyn (size / 8))) := by
  cases opened with
  | none => exact iff_of_true (fun _ => nofun) nofun
  | some handle =>
    cases hsegment : getSegmentInfo p.memory handle ptDynamic with
    | none =>
      refine iff_of_true (fun turns => ?_) fun handle' dyn size hopened h => ?_
      · rw [elfHook, getElfInfoBySegmentView, hsegment]
        exact nofun
      · cases hopened
        rw [hsegment] at h
        cases h
    | some segment =>
      obtain ⟨dyn, size⟩ := segment
      simp only [elfHook, getElfInfoBySegmentView, hsegment, foldl_assign]
      refine Iff.trans (assigned_lookup _ symbol p fun _ =>
        hash_described p.memory handle.base dyn (size / 8) (dynamicTable p.memory dyn (size / 8)))
          ⟨fun h handle' dyn' size' hopened h' => ?_, fun h => h handle dyn size rfl hsegment⟩
      cases hopened
      cases hsegment.symm.trans h'
      exact h

def malloc : List Byte := [0x6d, 0x61, 0x6c, 0x6c, 0x6f, 0x63]

/-- At 0x1000, a table with the symbols, their names and a GNU hash only. -/
def gnuHashed : Memory :=
  [(0x101c, 52), (0x102c, 1), (0x1034, ptDynamic), (0x103c, 0x100), (0x1048, 24),
    (0x1100, dtSymtab), (0x1104, 0x200),
    (0x1108, dtStrtab), (0x110c, 0x300), (0x1110, 0x6ffffef5), (0x1114, 0x400)].foldl
      (fun m w => setWord m w.1 w.2) 0

theorem not_assigned_gnuHashed :
    ¬ Assigned (elfHook (fun _ => false) (some ⟨0x1000, false⟩) malloc 0x2000 1 ⟨gnuHashed, 0⟩) :=
  fun h => h rfl

end ElfHook
