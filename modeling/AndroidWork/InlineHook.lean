import AndroidWork.MemoryBytes
import AndroidWork.Relocate

/-!
# The table of inline hooks

inlineHook.c over the memory of the process and the program counters of its
other threads. What `malloc` gives for `orig_instructions` is the list of bytes
in it; where `mmap` maps a page is an argument. The calls are `none` where the
code goes through a null pointer or writes behind `orig_boundaries`.
-/
namespace InlineHook

open ArmMachine (Byte Half Word Memory put bytesAt halves words halfBytes wordBytes)
open Relocate

def PAGE_SIZE : Nat := 4096

def SET_BIT0 (addr : Word) : Word := addr ||| 1
def CLEAR_BIT0 (addr : Word) : Word := addr &&& 0xFFFFFFFE
def TEST_BIT0 (addr : Word) : Bool := addr &&& 1 ≠ 0

/-- `enum ele7en_status`, as far as it is returned here. -/
inductive Ele7enStatus where
  | ELE7EN_OK
  | ELE7EN_ERROR_NOT_EXECUTABLE
  | ELE7EN_ERROR_NOT_REGISTERED
  | ELE7EN_ERROR_NOT_HOOKED
  | ELE7EN_ERROR_ALREADY_REGISTERED
  | ELE7EN_ERROR_ALREADY_HOOKED
  deriving DecidableEq, Repr

/-- `enum hook_status`. -/
inductive HookStatus where
  | REGISTERED
  | HOOKED
  deriving DecidableEq, Repr

/-- `boundaries` are the first `count` pairs of `orig_boundaries` and
`trampoline_boundaries`. -/
structure InlineHookItem where
  target_addr : Word
  new_addr : Word
  proto_addr : Option Word
  orig_instructions : List Byte
  boundaries : List (Nat × Nat)
  trampoline_instructions : Word
  length : Nat
  status : HookStatus

/-- A slot of the static table that was never used. -/
def InlineHookItem.zero : InlineHookItem := ⟨0, 0, none, [], [], 0, 0, .REGISTERED⟩

/-- A line of `/proc/self/maps`, and whether it says `r-xp`. -/
structure Mapping where
  start : Word
  stop : Word
  executable : Bool

/-- The process: the table `info`, with what slots behind its size still hold. -/
structure Process where
  size : Nat
  item : Nat → InlineHookItem
  mem : Memory
  threads : List Word
  maps : List Mapping

def Process.start (mem : Memory) (threads : List Word) (maps : List Mapping) : Process :=
  ⟨0, fun _ => .zero, mem, threads, maps⟩

inductive Action where
  | ACTION_ENABLE
  | ACTION_DISABLE
  deriving DecidableEq, Repr

/-- The new `ARM_pc`, where the function returns true. -/
def doProcessThreadPC (item : InlineHookItem) (pc : Word) (action : Action) : Option Word :=
  match action with
  | .ACTION_ENABLE =>
    let offset := pc - CLEAR_BIT0 item.target_addr
    (item.boundaries.find? fun b => offset = BitVec.ofNat 32 b.1).map fun b =>
      item.trampoline_instructions + BitVec.ofNat 32 b.2
  | .ACTION_DISABLE =>
    let offset := pc - item.trampoline_instructions
    (item.boundaries.find? fun b => offset = BitVec.ofNat 32 b.2).map fun b =>
      CLEAR_BIT0 item.target_addr + BitVec.ofNat 32 b.1

/-- The items looked at: the one given, else all of the table. -/
def processThreadPC (items : List InlineHookItem) (action : Action) (pc : Word) : Word :=
  (items.findSome? fun item => doProcessThreadPC item pc action).getD pc

def freeze (p : Process) (items : List InlineHookItem) (action : Action) : Process :=
  { p with threads := p.threads.map (processThreadPC items action) }

/-- The items of the table. -/
def Process.live (p : Process) : List InlineHookItem := (List.range p.size).map p.item

def isExecutableAddr (maps : List Mapping) (addr : Word) : Bool :=
  maps.any fun line => line.executable && decide (line.start ≤ addr) && decide (addr ≤ line.stop)

def findInlineHookItem (p : Process) (target_addr : Word) : Option Nat :=
  (List.range p.size).find? fun i => (p.item i).target_addr = target_addr

def Process.setItem (p : Process) (i : Nat) (item : InlineHookItem) : Process :=
  { p with item := fun j => if j = i then item else p.item j }

def addInlineHookItem (p : Process) : Option (Nat × Process) :=
  if 1024 ≤ p.size then none else some (p.size, { p with size := p.size + 1 })

def deleteInlineHookItem (p : Process) (pos : Nat) : Process :=
  { p.setItem pos (p.item (p.size - 1)) with size := p.size - 1 }

def relocateInstruction (load : Word → Word) (target_addr : Word) (orig_instructions : List Byte) :
    List Byte × List (Nat × Nat) :=
  if TEST_BIT0 target_addr then
    let r := relocateInstructionInThumb load (target_addr - 1) (halves orig_instructions)
    (r.trampoline_instructions.flatMap halfBytes, r.boundaries)
  else
    let r := relocateInstructionInArm load target_addr (words orig_instructions)
    (r.trampoline_instructions.flatMap wordBytes, r.boundaries)

/-- A slot that is used again still has its boundaries: new ones go behind them. -/
def registerInlineHook (p : Process) (target_addr new_addr : Word)
    (proto_addr : Option Word) (page : Word) :
    Option (Ele7enStatus × Process) :=
  if !isExecutableAddr p.maps target_addr || !isExecutableAddr p.maps new_addr then
    some (.ELE7EN_ERROR_NOT_EXECUTABLE, p)
  else
    match findInlineHookItem p target_addr with
    | some i =>
      match (p.item i).status with
      | .REGISTERED => some (.ELE7EN_ERROR_ALREADY_REGISTERED, p)
      | .HOOKED => some (.ELE7EN_ERROR_ALREADY_HOOKED, p)
    | none =>
      (addInlineHookItem p).bind fun (i, p') =>
        let length := if TEST_BIT0 target_addr then 12 else 8
        let orig_instructions := bytesAt p.mem (CLEAR_BIT0 target_addr) length
        let mapped := put p.mem page (List.replicate PAGE_SIZE 0)
        let r := relocateInstruction (ArmMachine.word mapped) target_addr orig_instructions
        let boundaries := (p.item i).boundaries ++ r.2
        if 4 < boundaries.length then none
        else
          let item := ⟨target_addr, new_addr, proto_addr, orig_instructions, boundaries, page,
            length, .REGISTERED⟩
          some (.ELE7EN_OK, { p'.setItem i item with mem := put mapped page r.1 })

/-- What is written over the first instructions of the target. -/
def patch (target_addr new_addr : Word) : List Byte :=
  if TEST_BIT0 target_addr then
    ((if (CLEAR_BIT0 target_addr).toNat % 4 ≠ 0 then [(0xBF00 : Half)] else []) ++
      [0xF8DF, 0xF000, (new_addr &&& 0xFFFF).truncate 16, (new_addr >>> 16).truncate 16]).flatMap
        halfBytes
  else [0xe51ff004, new_addr].flatMap wordBytes

/-- What is written through `proto_addr`. -/
def proto (item : InlineHookItem) : Word :=
  if TEST_BIT0 item.target_addr then SET_BIT0 item.trampoline_instructions
    else item.trampoline_instructions

def doInlineHook (p : Process) (i : Nat) : Process :=
  let item := p.item i
  let patched := put p.mem (CLEAR_BIT0 item.target_addr) (patch item.target_addr item.new_addr)
  let mem := item.proto_addr.elim patched fun cell => put patched cell (wordBytes (proto item))
  { p.setItem i { item with status := .HOOKED } with mem }

def doInlineUnHook (p : Process) (i : Nat) : Process :=
  let item := p.item i
  deleteInlineHookItem
    { p with mem := put p.mem (CLEAR_BIT0 item.target_addr) item.orig_instructions } i

def inlineHook (p : Process) (target_addr : Word) : Ele7enStatus × Process :=
  match findInlineHookItem p target_addr with
  | none => (.ELE7EN_ERROR_NOT_REGISTERED, p)
  | some i =>
    match (p.item i).status with
    | .REGISTERED => (.ELE7EN_OK, doInlineHook (freeze p [p.item i] .ACTION_ENABLE) i)
    | .HOOKED => (.ELE7EN_ERROR_ALREADY_HOOKED, p)

def inlineUnHook (p : Process) (target_addr : Word) : Ele7enStatus × Process :=
  match (List.range p.size).find? fun i =>
    (p.item i).target_addr = target_addr ∧ (p.item i).status = .HOOKED with
  | some i => (.ELE7EN_OK, doInlineUnHook (freeze p [p.item i] .ACTION_DISABLE) i)
  | none => (.ELE7EN_ERROR_NOT_HOOKED, p)

def inlineHookAll (p : Process) : Process :=
  (List.range p.size).foldl (fun p i => if (p.item i).status = .REGISTERED then
    doInlineHook p i else p)
    (freeze p p.live .ACTION_ENABLE)

/-- The loop of `inlineUnHookAll` from `i` on: behind an item that was taken out
the same slot is looked at again, so that each turn leaves fewer to look at. -/
def unHookLoop : Nat → Nat → Process → Process
  | 0, _, p => p
  | fuel + 1, i, p =>
    if i < p.size then
      if (p.item i).status = .HOOKED then
        unHookLoop fuel i (doInlineUnHook p i) else unHookLoop fuel (i + 1) p
    else p

def inlineUnHookAll (p : Process) : Process := unHookLoop p.size 0 (freeze p p.live .ACTION_DISABLE)

end InlineHook
