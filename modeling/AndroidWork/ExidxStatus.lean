import AndroidWork.ExidxProgress

/-!
# The status of an unwinding step

`step` of the crash collector and `Step` of libmemcheck, with the cursor as it
lies on the stack: every field is written before it is read, `step_status`
excepted. When two runs that differ in it give the same result.
-/
namespace ExidxStatus

open Leb128 (Byte)
open EhabiTable (Mem Word)
open ExidxDecode
open ExidxExtract
open ExidxProgress (Reported decoded decoded_bytes decoded_cantUnwind decoded_generic
  decoded_none passed)

/-- What is outside the registers: memory, the load address of the library that
`dladdr` finds at an address, and what `/proc/self/maps` has as readable. -/
structure Process where
  mem : Mem
  dladdr : Word → Option Word
  readable : Word → Bool

/-- The registers of a `sigcontext`. -/
structure SigContext where
  regs : Fin 17 → Word

def armExidx : Word := 0x70000001

def ePhoff (mem : Mem) (ehdr : Word) : Word := mem (ehdr + 28)
def ePhnum (mem : Mem) (ehdr : Word) : Nat := (mem (ehdr + 44) &&& 0xffff).toNat
def pType (mem : Mem) (phdr : Word) : Word := mem phdr
def pPaddr (mem : Mem) (phdr : Word) : Word := mem (phdr + 12)
def pMemsz (mem : Mem) (phdr : Word) : Word := mem (phdr + 20)

/-- The loop over the program headers, from the last of `n` down. -/
def findExidx (mem : Mem) (pPHdr : Word) : Nat → Word
  | 0 => pPHdr
  | n + 1 => if pType mem (pPHdr + 32 * BitVec.ofNat 32 n) = armExidx then
    pPHdr + 32 * BitVec.ofNat 32 n else findExidx mem pPHdr n

/-- The collector's correction of a pc that is a return address. -/
def getRealPc (P : Process) (pc : Word) : Word :=
  if P.readable pc = false then pc
  else if pc &&& 1 ≠ 0 then
    if P.readable (pc - 5) = false then pc
    else if 0xE0000000 < P.mem (pc - 5) &&& 0xF8000000 then pc - 4
    else pc - 2
  else pc - 4

/-- libmemcheck copies the registers one by one, and leaves the last one out. -/
def copied : Copy → Fin 17 → Prop
  | .crash, _ => True
  | .memcheck, i => i.val < 16

instance (copy : Copy) (i : Fin 17) : Decidable (copied copy i) :=
  match copy with
  | .crash => inferInstanceAs (Decidable True)
  | .memcheck => inferInstanceAs (Decidable (i.val < 16))

def copyregsToCursor (copy : Copy) (sigCtx : SigContext) (c : TCursor) : TCursor :=
  { c with regs := fun i => if copied copy i then sigCtx.regs i else c.regs i }

def copyregsToSigctx (copy : Copy) (c : TCursor) (sigCtx : SigContext) : SigContext :=
  ⟨fun i => if copied copy i then c.regs i else sigCtx.regs i⟩

/-- `pc = get_real_pc(pc)`, where the collector asks for it. -/
def stepPc (copy : Copy) (P : Process) (bNextCode : Bool) (pc : Word) : Word :=
  match copy with
  | .crash => if bNextCode then getRealPc P pc else pc
  | .memcheck => pc

/-- The cursor that is handed to `arm_exidx_step`, or none where the step gives
up before. The search for the first valid entry may take `fuel` turns. -/
def setUp (copy : Copy) (P : Process) (bNextCode : Bool) (cursor : TCursor)
    (sigCtx : SigContext) (fuel : Nat) :
    Option (Option TCursor) :=
  let cursor := copyregsToCursor copy sigCtx cursor
  let pc := cursor.regs armPc
  match P.dladdr pc with
  | none => some none
  | some dliFbase =>
    let pPHdr := findExidx P.mem (dliFbase + ePhoff P.mem dliFbase) (ePhnum P.mem dliFbase)
    if pType P.mem pPHdr ≠ armExidx then some none
    else
      let exidxStart := pPaddr P.mem pPHdr + dliFbase
      (ExidxTable.moveToValidAddr P.mem fuel exidxStart.toNat).map fun valid =>
        some { cursor with
          exidxStartAddr := BitVec.ofInt 32 valid.1
          exidxEndAddr := exidxStart + pMemsz P.mem pPHdr - 8
          baseAddr := dliFbase
          pcOffest := stepPc copy P bNextCode pc - dliFbase }

/-- Behind `arm_exidx_step`: the collector writes the registers back whatever the
result, libmemcheck only where it is not negative. -/
def writeBack (copy : Copy) (sigCtx : SigContext) (ret : Int) (c : TCursor) : Int × SigContext :=
  match copy with
  | .crash => (ret, copyregsToSigctx .crash c sigCtx)
  | .memcheck => if ret < 0 then (ret, sigCtx) else (1, copyregsToSigctx .memcheck c sigCtx)

/-- `step` and `Step`, none where `fuel` is used up. -/
def step (copy : Copy) (wide : WideShift) (P : Process) (bNextCode : Bool) (cursor : TCursor)
    (fuel : Nat) (sigCtx : SigContext) :
    Option (Except Fault (Int × SigContext)) :=
  (setUp copy P bNextCode cursor sigCtx fuel).map fun found =>
    match found with
    | none => .ok (-1, sigCtx)
    | some cursor =>
      (armExidxStep copy wide P.mem cursor).map fun r => writeBack copy sigCtx r.1 r.2

/-- The cursor with another status. -/
def withStatus (c : TCursor) (status : Int) : TCursor := { c with stepStatus := status }

/-- The result does not depend on the status that the cursor starts with. -/
def Indifferent (copy : Copy) (wide : WideShift) (P : Process) (bNextCode : Bool) (cursor : TCursor)
    (sigCtx : SigContext) : Prop :=
  ∀ status status' fuel, step copy wide P bNextCode (withStatus cursor status) fuel sigCtx =
    step copy wide P bNextCode (withStatus cursor status') fuel sigCtx

/-- An instruction whose outcome does not leave the status in charge: bytes run
out in it, or it finishes with pc and lr equal, or libmemcheck refuses it. -/
def Decides (copy : Copy) (wide : WideShift) (bs : List Byte) (c : TCursor) : Prop :=
  match decodeOp wide bs with
  | .error _ => True
  | .ok (e, _) =>
    e.cmd = .finish ∧ c.regs armPc = c.regs armLr ∨ copy = .memcheck ∧
      (e.cmd = .refused ∨ e.cmd = .reserved)

/-- The instructions come to one that decides. -/
inductive ComesToDecide (copy : Copy) (wide : WideShift) (mem : Mem) :
    List Byte → TCursor → Prop where
  | here {op buf c} (h : Decides copy wide (op :: buf) c) :
    ComesToDecide copy wide mem (op :: buf) c
  | next {op buf rest e c} (h : decodeOp wide (op :: buf) = .ok (e, rest))
    (hret : 0 ≤ (armExidxApplyCmd mem e c).1)
      (hs : ComesToDecide copy wide mem rest (armExidxApplyCmd mem e c).2) :
        ComesToDecide copy wide mem (op :: buf) c

/-- An entry without instructions is reported; those of an entry come to one that decides. -/
def Settled (copy : Copy) (wide : WideShift) (mem : Mem) (c : TCursor) : Prop :=
  if (content copy mem c).bytes mem = [] then
    Reported copy mem c else ComesToDecide copy wide mem (passed copy mem c) c

section

variable {copy : Copy} {wide : WideShift} {mem : Mem} {c : TCursor}

@[simp] theorem withStatus_status (s : Int) : (withStatus c s).stepStatus = s := rfl
@[simp] theorem withStatus_regs (s : Int) : (withStatus c s).regs = c.regs := rfl
@[simp] theorem withStatus_withStatus (s t : Int) :
    withStatus (withStatus c s) t = withStatus c t := rfl
@[simp] theorem withStatus_self : withStatus c c.stepStatus = c := rfl

theorem regPopLoop_withStatus (data : Word) (s : Int) (n : Nat) :
    regPopLoop mem data n (withStatus c s) = withStatus (regPopLoop mem data n c) s := by
  induction n with
  | zero => rfl
  | succ n ih =>
    rw [regPopLoop_succ, regPopLoop_succ, ih, popTurn, popTurn]
    split <;> rfl

variable (mem) in
/-- A command reads the status nowhere, and a finish alone writes it. -/
theorem armExidxApplyCmd_withStatus (e : ArmExbufData)
    (h : ¬ (e.cmd = .finish ∧ c.regs armPc = c.regs armLr)) (s : Int) :
    armExidxApplyCmd mem e (withStatus c s) =
      ((armExidxApplyCmd mem e c).1, withStatus (armExidxApplyCmd mem e c).2 s) := by
  obtain ⟨cmd, data⟩ := e
  cases cmd with
  | finish =>
    have hne : ¬ c.regs armPc = c.regs armLr := fun heq => h ⟨rfl, heq⟩
    simp [armExidxApplyCmd, hne]
    rfl
  | regPop => simp [armExidxApplyCmd, regPopLoop_withStatus]
  | _ => rfl

theorem armExidxApplyCmd_pcLr (e : ArmExbufData)
    (h : e.cmd = .finish ∧ c.regs armPc = c.regs armLr) (s : Int) :
    armExidxApplyCmd mem e (withStatus c s) = (0, withStatus c stepPcLr) := by
  simp [armExidxApplyCmd, h.1, h.2]
  rfl

variable (mem c) in
theorem armExidxApplyCmd_ret (e : ArmExbufData) :
    (armExidxApplyCmd mem e c).1 = if e.cmd = .refused ∨ e.cmd = .reserved then -1 else 0 := by
  obtain ⟨cmd, data⟩ := e
  cases cmd with
  | finish =>
    simp only [armExidxApplyCmd]
    split <;> rfl
  | _ => rfl

theorem comesToDecide_fault {op : Byte} {buf : List Byte} {x : Fault}
    (h : decodeOp wide (op :: buf) = .error x) :
    ComesToDecide copy wide mem (op :: buf) c := by
  apply ComesToDecide.here
  rw [Decides, h]
  trivial

theorem comesToDecide_cons {op : Byte} {buf rest : List Byte} {e : ArmExbufData}
    (h : decodeOp wide (op :: buf) = .ok (e, rest)) :
    ComesToDecide copy wide mem (op :: buf) c ↔
      (e.cmd = .finish ∧ c.regs armPc = c.regs armLr ∨ copy = .memcheck ∧
        (e.cmd = .refused ∨ e.cmd = .reserved)) ∨
      0 ≤ (armExidxApplyCmd mem e c).1 ∧ ComesToDecide copy wide mem rest
        (armExidxApplyCmd mem e c).2 := by
  constructor
  · rintro (hhere | ⟨hnext, hret, hs⟩)
    · rw [Decides, h] at hhere
      exact .inl hhere
    · rw [h] at hnext
      cases hnext
      exact .inr ⟨hret, hs⟩
  · rintro (hhere | ⟨hret, hs⟩)
    · apply ComesToDecide.here
      rw [Decides, h]
      exact hhere
    · exact .next h hret hs

/-- A finish moves `buf` to the end. -/
theorem decodeOp_finish {op : Byte} {buf rest : List Byte} {e : ArmExbufData}
    (h : decodeOp wide (op :: buf) = .ok (e, rest))
    (hcmd : e.cmd = .finish) : rest = [] := by
  have hop {f : ArmExbufData} (hf : f.cmd ≠ .finish)
      (h : Except.ok (f, buf) = (Except.ok (e, rest) : Except Fault _)) : rest = [] := by
    cases h
    exact absurd hcmd hf
  have hop2 {f : Byte → ArmExbufData} (hf : ∀ op2, (f op2).cmd ≠ .finish)
      (h : readOp2 buf f = .ok (e, rest)) : rest = [] := by
    obtain ⟨op2, -, rfl⟩ := readOp2_ok h
    exact absurd hcmd (hf op2)
  have hite {p : Prop} [Decidable p] {a b : ArmExbufData} (ha : a.cmd ≠ .finish)
      (hb : b.cmd ≠ .finish) :
      (if p then a else b).cmd ≠ .finish := by
    split
    · exact ha
    · exact hb
  rw [decodeOp] at h
  refine ite_elim h (fun _ => hop (by simp)) fun _ h => ?_
  refine ite_elim h (fun _ => hop (by simp)) fun _ h => ?_
  refine ite_elim h (fun _ => hop2 fun _ => hite (by simp) (by simp)) fun _ h => ?_
  refine ite_elim h (fun _ h => ite_elim h (fun _ => hop (by simp)) fun _ =>
    hop (by simp)) fun _ h => ?_
  refine ite_elim h (fun _ => hop (by simp)) fun _ h => ?_
  refine ite_elim h (fun _ h => ?_) fun _ h => ?_
  · cases h
    rfl
  refine ite_elim h (fun _ => hop2 fun _ => hite (by simp) (by simp)) fun _ h => ?_
  refine ite_elim h (fun _ h => ?_) fun _ h => ?_
  · split at h
    · cases h
    · cases h
      cases hcmd
  refine ite_elim h (fun _ => hop2 (by simp)) fun _ h => ?_
  refine ite_elim h (fun _ => hop (by simp)) fun _ h => ?_
  refine ite_elim h (fun _ => hop (by simp)) fun _ h => ?_
  refine ite_elim h (fun _ => hop2 (by simp)) fun _ h => ?_
  exact ite_elim h (fun _ => hop2 fun _ => hite (by simp) (by simp)) fun _ => hop (by simp)

/-- How the instructions end, whatever the status was. -/
inductive Fate (copy : Copy) (wide : WideShift) (mem : Mem) (bs : List Byte)
    (c : TCursor) : Prop where
  | fault (x : Fault) (hrun : ∀ s, armExidxDecode wide mem bs (withStatus c s) = .error x)
    (h : ComesToDecide copy wide mem bs c)
  | pcLr (c' : TCursor) (hrun : ∀ s, armExidxDecode wide mem bs (withStatus c s) =
    .ok (0, withStatus c' stepPcLr))
      (h : ComesToDecide copy wide mem bs c)
  | refused (c' : TCursor) (hrun : ∀ s, armExidxDecode wide mem bs (withStatus c s) =
    .ok (-1, withStatus c' s))
      (h : ComesToDecide copy wide mem bs c ↔ copy = .memcheck)
  | through (c' : TCursor) (hrun : ∀ s, armExidxDecode wide mem bs (withStatus c s) =
    .ok (0, withStatus c' s))
      (h : ¬ ComesToDecide copy wide mem bs c)

theorem fate (copy : Copy) (wide : WideShift) (mem : Mem) (bs : List Byte) (c : TCursor) :
    Fate copy wide mem bs c := by
  -- on the bytes that are left, of which every instruction takes some
  induction hn : bs.length using Nat.strong_induction_on generalizing bs c with
  | _ n ih =>
    cases bs with
    | nil =>
      refine .through c (fun s => by rw [armExidxDecode]) ?_
      intro h
      cases h
    | cons op buf =>
      cases hd : decodeOp wide (op :: buf) with
      | error x => exact .fault x (fun s => armExidxDecode_fault mem _ hd) (comesToDecide_fault hd)
      | ok v =>
        obtain ⟨e, rest⟩ := v
        have hturn (s : Int) := armExidxDecode_turn mem (withStatus c s) hd
        have hcons : ComesToDecide copy wide mem (op :: buf) c ↔ _ := comesToDecide_cons hd
        by_cases hpc : e.cmd = .finish ∧ c.regs armPc = c.regs armLr
        · refine .pcLr c (fun s => ?_) (hcons.mpr (.inl (.inl hpc)))
          rw [hturn, armExidxApplyCmd_pcLr e hpc, if_neg (lt_irrefl 0),
            decodeOp_finish hd hpc.1, armExidxDecode]
        · have happly (s : Int) := armExidxApplyCmd_withStatus mem e hpc s
          have hret := armExidxApplyCmd_ret mem c e
          by_cases hrefuse : e.cmd = .refused ∨ e.cmd = .reserved
          · rw [if_pos hrefuse] at hret
            refine .refused (armExidxApplyCmd mem e c).2 (fun s => ?_) ?_
            · rw [hturn, happly, hret]
              rfl
            · rw [hcons, hret]
              simp [hpc, hrefuse]
          · rw [if_neg hrefuse] at hret
            have hlen := (decodeOp_suffix hd).length_le
            have hon : ComesToDecide copy wide mem (op :: buf) c ↔
                ComesToDecide copy wide mem rest (armExidxApplyCmd mem e c).2 := by
              rw [hcons, hret]
              simp [hpc, hrefuse]
            have hruns (s : Int) : armExidxDecode wide mem (op :: buf) (withStatus c s) =
                armExidxDecode wide mem rest (withStatus (armExidxApplyCmd mem e c).2 s) := by
              rw [hturn, happly, hret, if_neg (lt_irrefl 0)]
            rcases ih rest.length (by rw [← hn, List.length_cons]; omega) rest
              (armExidxApplyCmd mem e c).2 rfl with
              ⟨x, hrun, h⟩ | ⟨c', hrun, h⟩ | ⟨c', hrun, h⟩ | ⟨c', hrun, h⟩
            · exact .fault x (fun s => (hruns s).trans (hrun s)) (hon.mpr h)
            · exact .pcLr c' (fun s => (hruns s).trans (hrun s)) (hon.mpr h)
            · exact .refused c' (fun s => (hruns s).trans (hrun s)) (hon.trans h)
            · exact .through c' (fun s => (hruns s).trans (hrun s)) (fun h' => h (hon.mp h'))

/-- What the step makes of the decoder's result and the status. -/
def verdict : Copy → Int → Int → Int
  | .crash, ret, status =>
    if status = stepStop then -3 else if ret = -1 then -1 else if status = stepPcLr then -2 else 0
  | .memcheck, ret, status =>
    if status = stepStop ∨ ret = -1 then -1 else if status = stepPcLr then -2 else 0

theorem armExidxStep_verdict (copy : Copy) (wide : WideShift) (mem : Mem) (c : TCursor) :
    armExidxStep copy wide mem c = (decoded copy wide mem c).map fun p =>
  (verdict copy p.1 p.2.stepStatus, p.2) := by
  rw [armExidxStep]
  cases hdecoded : decoded copy wide mem c with
  | error e =>
    simp only [decoded] at hdecoded
    simp only [hdecoded, Except.map]
  | ok p =>
    simp only [decoded] at hdecoded
    simp only [hdecoded, Except.map]
    cases copy with
    | crash =>
      simp only [verdict]
      split_ifs <;> rfl
    | memcheck =>
      simp only [verdict]
      split_ifs <;> rfl

/-- What the caller of the step gets from a cursor. -/
def outcome (copy : Copy) (wide : WideShift) (mem : Mem) (sigCtx : SigContext) (c : TCursor) :
    Except Fault (Int × SigContext) :=
  (armExidxStep copy wide mem c).map fun r => writeBack copy sigCtx r.1 r.2

variable {sigCtx : SigContext}

theorem outcome_error {x : Fault} (h : decoded copy wide mem c = .error x) :
    outcome copy wide mem sigCtx c = .error x := by
  rw [outcome, armExidxStep_verdict, h]
  rfl

theorem outcome_ok {r : Int} {c' : TCursor} (h : decoded copy wide mem c = .ok (r, c')) :
    outcome copy wide mem sigCtx c = .ok
      (writeBack copy sigCtx (verdict copy r c'.stepStatus) c') := by
  rw [outcome, armExidxStep_verdict, h]
  rfl

/-- A status that is kept, after something else than libmemcheck's refusal, shows. -/
theorem outcome_kept {r : Int} {c' : TCursor} (hr : copy = .memcheck → r ≠ -1)
    (h : ∀ s, decoded copy wide mem (withStatus c s) = .ok (r, withStatus c' s)) :
    outcome copy wide mem sigCtx (withStatus c stepStop) ≠
      outcome copy wide mem sigCtx (withStatus c 0) := by
  rw [outcome_ok (h stepStop), outcome_ok (h 0)]
  intro heq
  have hret := congrArg Prod.fst (Except.ok.inj heq)
  cases copy with
  | crash =>
    simp only [writeBack, verdict, withStatus_status, if_true, stepStop, stepPcLr] at hret
    split_ifs at hret
    all_goals omega
  | memcheck =>
    have hr := hr rfl
    simp [writeBack, verdict, stepStop, stepPcLr, hr] at hret

/-- libmemcheck's refusal ends the walk whatever the status is, and leaves the registers. -/
theorem outcome_refused {c' : TCursor} (h : decoded .memcheck wide mem c = .ok (-1, c')) :
    outcome .memcheck wide mem sigCtx c = .ok (-1, sigCtx) := by
  rw [outcome_ok h]
  simp [writeBack, verdict]

theorem decoded_passed (h : (content copy mem c).bytes mem ≠ []) (s : Int) :
    decoded copy wide mem (withStatus c s) = armExidxDecode wide mem (passed copy mem c)
    (withStatus c s) := decoded_bytes wide h

theorem outcome_settled (h : Settled copy wide mem c) (s t : Int) :
    outcome copy wide mem sigCtx (withStatus c s) =
      outcome copy wide mem sigCtx (withStatus c t) := by
  rw [Settled] at h
  by_cases hbytes : (content copy mem c).bytes mem = []
  · rw [if_pos hbytes] at h
    by_cases hnone : keyValueAddr mem c = 0
    · have hrun (s : Int) : decoded copy wide mem (withStatus c s) =
          .ok (0, withStatus c stepStop) := decoded_none wide hnone
      rw [outcome_ok (hrun s), outcome_ok (hrun t)]
    · have hentry := h.resolve_left hnone
      cases copy with
      | crash =>
        have hrun (s : Int) : decoded .crash wide mem (withStatus c s) =
            .ok (0, withStatus c stepStop) :=
          decoded_cantUnwind wide hnone hentry
        rw [outcome_ok (hrun s), outcome_ok (hrun t)]
      | memcheck =>
        have hrun (s : Int) : decoded .memcheck wide mem (withStatus c s) =
            .ok (-1, withStatus c s) :=
          decoded_generic (c := withStatus c s) wide hnone hentry hbytes
        rw [outcome_refused (hrun s), outcome_refused (hrun t)]
  · rw [if_neg hbytes] at h
    rcases fate copy wide mem (passed copy mem c) c with ⟨x, hrun, -⟩ | ⟨c', hrun, -⟩
      | ⟨c', hrun, hcopy⟩ | ⟨c', -, hno⟩
    · rw [outcome_error ((decoded_passed hbytes s).trans (hrun s)),
        outcome_error ((decoded_passed hbytes t).trans (hrun t))]
    · rw [outcome_ok ((decoded_passed hbytes s).trans (hrun s)),
        outcome_ok ((decoded_passed hbytes t).trans (hrun t))]
    · obtain rfl := hcopy.mp h
      rw [outcome_refused ((decoded_passed hbytes s).trans (hrun s)),
        outcome_refused ((decoded_passed hbytes t).trans (hrun t))]
    · exact absurd h hno

theorem outcome_unsettled (h : ¬ Settled copy wide mem c) :
    outcome copy wide mem sigCtx (withStatus c stepStop) ≠
      outcome copy wide mem sigCtx (withStatus c 0) := by
  rw [Settled] at h
  by_cases hbytes : (content copy mem c).bytes mem = []
  · rw [if_pos hbytes] at h
    obtain ⟨hfound, hentry⟩ := not_or.mp h
    cases copy with
    | crash => exact outcome_kept nofun fun s =>
      decoded_generic (c := withStatus c s) wide hfound hentry hbytes
    | memcheck =>
      exact outcome_kept (fun _ => by decide) fun s =>
        decoded_cantUnwind (c := withStatus c s) wide hfound (not_not.mp hentry)
  · rw [if_neg hbytes] at h
    rcases fate copy wide mem (passed copy mem c) c with ⟨x, -, hyes⟩ | ⟨c', -, hyes⟩
      | ⟨c', hrun, hcopy⟩ | ⟨c', hrun, -⟩
    · exact absurd hyes h
    · exact absurd hyes h
    · exact outcome_kept (fun hmemcheck => absurd (hcopy.mpr hmemcheck) h) fun s =>
        (decoded_passed hbytes s).trans (hrun s)
    · exact outcome_kept (fun _ => by decide) fun s => (decoded_passed hbytes s).trans (hrun s)

end

/-- Setting the cursor up keeps the status. -/
theorem setUp_withStatus (copy : Copy) (P : Process) (bNextCode : Bool) (cursor : TCursor)
    (sigCtx : SigContext) (fuel : Nat)
    (s : Int) : setUp copy P bNextCode (withStatus cursor s) sigCtx fuel =
      (setUp copy P bNextCode cursor sigCtx fuel).map (Option.map fun c => withStatus c s) := by
  have hcursor : copyregsToCursor copy sigCtx (withStatus cursor s) =
      withStatus (copyregsToCursor copy sigCtx cursor) s := rfl
  simp only [setUp, hcursor, withStatus_regs]
  cases P.dladdr ((copyregsToCursor copy sigCtx cursor).regs armPc) with
  | none => rfl
  | some dliFbase =>
    simp only
    split
    · rfl
    · rw [Option.map_map]
      rfl

section

variable {copy : Copy} {wide : WideShift} {P : Process} {bNextCode : Bool} {cursor c : TCursor}
    {sigCtx : SigContext} {fuel : Nat}

theorem step_found (h : setUp copy P bNextCode cursor sigCtx fuel = some (some c)) (s : Int) :
    step copy wide P bNextCode (withStatus cursor s) fuel sigCtx =
      some (outcome copy wide P.mem sigCtx (withStatus c s)) := by
  rw [step, setUp_withStatus, h]
  rfl

theorem not_indifferent (h : setUp copy P bNextCode cursor sigCtx fuel = some (some c))
    (hno : ¬ Settled copy wide P.mem c) :
    ¬ Indifferent copy wide P bNextCode cursor sigCtx := by
  intro hsame
  have heq := hsame stepStop 0 fuel
  rw [step_found h, step_found h] at heq
  exact outcome_unsettled hno (Option.some.inj heq)

end

/-- The status does not matter exactly where what the step finds settles its outcome. -/
theorem indifferent_iff (copy : Copy) (wide : WideShift) (P : Process) (bNextCode : Bool)
    (cursor : TCursor) (sigCtx : SigContext) :
    Indifferent copy wide P bNextCode cursor sigCtx ↔
      ∀ fuel c, setUp copy P bNextCode cursor sigCtx fuel = some (some c) →
        Settled copy wide P.mem c := by
  constructor
  · intro h fuel c hc
    by_contra hno
    exact not_indifferent hc hno h
  · intro h s t fuel
    cases hsetUp : setUp copy P bNextCode cursor sigCtx fuel with
    | none =>
      rw [step, step, setUp_withStatus, setUp_withStatus, hsetUp]
      rfl
    | some found =>
      cases found with
      | none =>
        rw [step, step, setUp_withStatus, setUp_withStatus, hsetUp]
        rfl
      | some c => rw [step_found hsetUp, step_found hsetUp, outcome_settled (h fuel c hsetUp) s t]

/-- A library at 0x10000 with one program header, and an index of two functions
at 0x200 and 0x300 that leave the stack as it is. -/
def leaf : Process where
  mem a :=
    match a with
    | 0x1001c => 52
    | 0x1002c => 1
    | 0x10034 => armExidx
    | 0x10040 => 0x100
    | 0x10048 => 16
    | 0x10100 => 0x100
    | 0x10104 => 0x80b0b0b0
    | 0x10108 => 0x1f8
    | 0x1010c => 0x80b0b0b0
    | _ => 0
  dladdr _ := some 0x10000
  readable _ := true

/-- In the first function, called from the second. -/
def leafContext : SigContext := ⟨fun i => if i = armPc then
    0x10204 else if i = armLr then 0x10304 else 0⟩

/-- What lies on the stack. -/
def leafCursor : TCursor := ⟨fun _ => 0, 0, 0, 0, 0, 0⟩

theorem keyValueAddr_leaf {c : TCursor} (hstart : c.exidxStartAddr = 0x10100)
    (hend : c.exidxEndAddr = 0x10108)
    (hbase : c.baseAddr = 0x10000) (hpc : c.pcOffest = 0x204) :
    keyValueAddr leaf.mem c = 0x10100 := by
  have hmid : (0x10100 : Int) + (0x10108 - 0x10100) / 8 / 2 * 8 = 0x10100 := by decide
  have hbounds : (((0x10100 : Word).toNat : Nat) : Int) = 0x10100 ∧
      (((0x10108 : Word).toNat : Nat) : Int) = 0x10108 := by decide
  rw [keyValueAddr, hstart, hend, hbase, hpc, hbounds.1, hbounds.2, ExidxTable.searchExidxValue,
    if_neg (by decide)]
  simp only [hmid]
  rw [if_pos (by decide)]
  decide

/-- A finish with pc and lr different leaves the status in charge. -/
theorem not_settled_leaf {copy : Copy} {c : TCursor} (hkey : keyValueAddr leaf.mem c = 0x10100)
    (hregs : c.regs armPc ≠ c.regs armLr) : ¬ Settled copy .zero leaf.mem c := by
  have hcontent : content copy leaf.mem c = .opcodes 0x80b0b0b0 := by
    unfold content
    rw [hkey]
    rfl
  have hbytes : (content copy leaf.mem c).bytes leaf.mem = [0xb0, 0xb0, 0xb0] := by
    rw [hcontent]
    decide
  have hpassed : passed copy leaf.mem c = [0xb0, 0xb0, 0xb0] := by
    rw [passed, hbytes]
    decide
  have hfinish : decodeOp .zero [0xb0, 0xb0, 0xb0] = .ok ({ cmd := .finish }, []) := rfl
  rw [Settled, if_neg (by rw [hbytes]; exact List.cons_ne_nil _ _), hpassed,
    comesToDecide_cons hfinish]
  rintro (hhere | ⟨-, hlater⟩)
  · simp [hregs] at hhere
  · cases hlater

/-- Both copies go on with a status of 0 and stop with one of -1. -/
theorem not_indifferent_leaf :
    ¬ Indifferent .crash .zero leaf false leafCursor leafContext ∧
    ¬ Indifferent .memcheck .zero leaf false leafCursor leafContext := by
  have hdiffers (copy : Copy) {c : TCursor}
      (hsetUp : setUp copy leaf false leafCursor leafContext 1 = some (some c))
      (hstart : c.exidxStartAddr = 0x10100) (hend : c.exidxEndAddr = 0x10108)
        (hbase : c.baseAddr = 0x10000)
      (hpc : c.pcOffest = 0x204) (hregs : c.regs armPc ≠ c.regs armLr) :
      ¬ Indifferent copy .zero leaf false leafCursor leafContext :=
    not_indifferent hsetUp (not_settled_leaf (keyValueAddr_leaf hstart hend hbase hpc) hregs)
  exact ⟨hdiffers .crash rfl (by decide) (by decide) (by decide) (by decide) (by decide),
    hdiffers .memcheck rfl (by decide) (by decide) (by decide) (by decide) (by decide)⟩

end ExidxStatus
