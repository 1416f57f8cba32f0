import AndroidWork.ArmMachine

/-!
# Instructions that are executed elsewhere

Each instruction of a piece of code is replaced by a chunk of code at another
place, and behind the last chunk control goes back to the code. If every chunk
does what its instruction does, the chunks do together what the code does, from
every instruction on.
-/
namespace CodeRelocation

open ArmMachine

variable {ι : Type} {n : Nat}

section Runs

variable (effect : ι → Word → Core → Option (Core × Flow))
    (spill : ι → Core → Core) (size : ι → Word)
  (holds : Core → Prop) (thumb : Bool)

/-- The instructions from address `a` on, one after another, until control leaves
them; `holds` is true all the way. What is done to the core in advance of an
instruction is its `spill`. -/
inductive Runs : Word → List ι → Core → State → Prop where
  | through {a : Word} {c : Core} (hc : holds c) : Runs a [] c ⟨c, a, thumb⟩
  | next {a : Word} {i : ι} {is : List ι} {c c' : Core} {s : State} (hc : holds c)
    (hspill : holds (spill i c))
      (h : effect i a (spill i c) = some (c', .next)) (hs : Runs (a + size i) is c' s) :
        Runs a (i :: is) c s
  | jump {a : Word} {i : ι} {is : List ι} {c c' : Core} {b : Word} {thumb' : Bool} (hc : holds c)
      (hspill : holds (spill i c)) (h : effect i a (spill i c) = some (c', .jump b thumb')) :
      Runs a (i :: is) c ⟨c', b, thumb'⟩

/-- The chunks stand one behind another from `t` on, each doing what its
instruction does, and behind the last of them control goes back to the code. -/
def Chunked (step : State → Option State) : Word → Word → List ι → Prop
  | a, t, [] => ∀ c, holds c → Steps step ⟨c, t, thumb⟩ ⟨c, a, thumb⟩
  | a, t, i :: is => ∃ t',
    (∀ c r, holds c → holds (spill i c) → effect i a (spill i c) = some r →
      (r.2 = .next → holds r.1) →
      Steps step ⟨c, t, thumb⟩ (land t' thumb r)) ∧ Chunked step (a + size i) t' is

variable {effect spill size holds thumb} {step : State → Option State}

theorem Runs.holds_start {a : Word} {is : List ι} {c : Core} {s : State}
    (h : Runs effect spill size holds thumb a is c s) :
    holds c := by
  cases h with
  | through hc => exact hc
  | next hc => exact hc
  | jump hc => exact hc

theorem Runs.mono {holds' : Core → Prop} {a : Word} {is : List ι} {c : Core} {s : State}
    (h : Runs effect spill size holds thumb a is c s) (himp : ∀ c, holds c → holds' c) :
    Runs effect spill size holds' thumb a is c s := by
  induction h with
  | through hc => exact .through (himp _ hc)
  | next hc hspill heffect _ ih => exact .next (himp _ hc) (himp _ hspill) heffect ih
  | jump hc hspill heffect => exact .jump (himp _ hc) (himp _ hspill) heffect

theorem Runs.steps {a t : Word} {is : List ι} {c : Core} {s : State}
    (h : Runs effect spill size holds thumb a is c s)
    (hchunks : Chunked effect spill size holds thumb step a t is) : Steps step ⟨c, t, thumb⟩ s := by
  induction h generalizing t with
  | through hc => exact hchunks _ hc
  | next hc hspill h hs ih =>
    obtain ⟨t', hchunk, hrest⟩ := hchunks
    exact (hchunk _ _ hc hspill h fun _ => hs.holds_start).trans (ih hrest)
  | jump hc hspill h =>
    obtain ⟨t', hchunk, -⟩ := hchunks
    exact hchunk _ _ hc hspill h fun hnext => by cases hnext

end Runs

/-- What is asked of every instruction at its address. -/
def All (size : ι → Word) (p : ι → Word → Prop) : Word → List ι → Prop
  | _, [] => True
  | a, i :: is => p i a ∧ All size p (a + size i) is

theorem All.mono {size : ι → Word} {q q' : ι → Word → Prop} {a : Word} {is : List ι}
    (h : All size q a is)
    (himp : ∀ i a, q i a → q' i a) : All size q' a is := by
  induction is generalizing a with
  | nil => trivial
  | cons i is ih => exact ⟨himp i a h.1, ih h.2⟩

/-- What is emitted for an instruction of a given address, and behind all of them. -/
structure Relocation (ι : Type) (n : Nat) where
  size : ι → Word
  chunk : ι → Word → List (BitVec n)
  ending : Word → List (BitVec n)
  thumb : Bool
  read : Memory → Word → BitVec n
  unit : Word

namespace Relocation

variable (R : Relocation ι n)

def emitted : Word → List ι → List (BitVec n)
  | a, [] => R.ending a
  | a, i :: is => R.chunk i a ++ emitted (a + R.size i) is

/-- The address behind the chunk of an instruction whose chunk stands at `t`. -/
def follow (i : ι) (a t : Word) : Word := t + R.unit * BitVec.ofNat 32 (R.chunk i a).length

/-- The address of instruction `k`; behind all of them, the address there. -/
def addr : Word → List ι → Nat → Word
  | a, i :: is, k + 1 => addr (a + R.size i) is k
  | a, _, _ => a

/-- The address of the chunk of instruction `k`; behind all of them, that of the ending. -/
def chunkAddr : Word → Word → List ι → Nat → Word
  | a, t, i :: is, k + 1 => chunkAddr (a + R.size i) (R.follow i a t) is k
  | _, t, _, _ => t

/-- Each instruction with the address behind its chunk. -/
def linked : Word → Word → List ι → List (ι × Word)
  | _, _, [] => []
  | a, t, i :: is => (i, R.follow i a t) :: linked (a + R.size i) (R.follow i a t) is

/-- The chunks are in memory from `t` on. -/
def InMemory (m : Memory) (t : Word) (l : List (BitVec n)) : Prop := Stored (R.read m) R.unit t l

section

variable (effect : ι → Word → Word → Core → Option (Core × Flow)) (spill : ι → Core → Core)
    (step : State → Option State)
  (good : ι → Word → Prop) (kept : Core → ι → Word → Prop) (start aligned : Word → Prop)

/-- A relocation that is right: a chunk does what its instruction does, given the
address behind the chunk for the return addresses of calls, and the ending
jumps. `start` is true of addresses of instructions, `aligned` of those of
chunks. -/
structure Right : Prop where
  next : ∀ i a, start a → good i a → start (a + R.size i)
  follow : ∀ i a t, aligned t → aligned (R.follow i a t)
  chunk : ∀ i a t c r, start a → good i a → aligned t → R.InMemory c.mem t (R.chunk i a) →
    R.InMemory (spill i c).mem t (R.chunk i a) → kept c i a →
    effect i (R.follow i a t) a (spill i c) = some r →
    (r.2 = .next → R.InMemory r.1.mem t (R.chunk i a)) →
    Steps step ⟨c, t, R.thumb⟩ (land (R.follow i a t) R.thumb r)
  ending : ∀ a t c, start a → aligned t → R.InMemory c.mem t (R.ending a) →
    Steps step ⟨c, t, R.thumb⟩ ⟨c, a, R.thumb⟩

/-- All that is needed of the instructions, their chunks and the cores on the way. -/
structure Laid (holds : Core → Prop) (a t : Word) (is : List ι) : Prop where
  start : start a
  aligned : aligned t
  good : All R.size good a is
  code : ∀ c, holds c → R.InMemory c.mem t (R.emitted a is)
  kept : ∀ c, holds c → All R.size (kept c) a is

variable {R effect spill step good kept start aligned} {holds : Core → Prop}
    {a t : Word} {is : List ι}

theorem Laid.tail {i : ι} (hR : R.Right effect spill step good kept start aligned)
    (h : R.Laid good kept start aligned holds a t (i :: is)) :
    R.Laid good kept start aligned holds (a + R.size i) (R.follow i a t) is := by
  constructor
  · exact hR.next i a h.start h.good.1
  · exact hR.follow i a t h.aligned
  · exact h.good.2
  · exact fun c hc => ((stored_append ..).mp (h.code c hc)).2
  · exact fun c hc => (h.kept c hc).2

theorem Laid.drop (hR : R.Right effect spill step good kept start aligned)
    (h : R.Laid good kept start aligned holds a t is)
    (k : Nat) : R.Laid good kept start aligned holds (R.addr a is k)
    (R.chunkAddr a t is k) (is.drop k) := by
  induction k generalizing a t is with
  | zero => cases is <;> exact h
  | succ k ih =>
    cases is with
    | nil => exact h
    | cons i is => exact ih (h.tail hR)

theorem drop_linked (a t : Word) (is : List ι) (k : Nat) :
    (R.linked a t is).drop k = R.linked (R.addr a is k) (R.chunkAddr a t is k) (is.drop k) := by
  induction k generalizing a t is with
  | zero => cases is <;> rfl
  | succ k ih =>
    cases is with
    | nil => rfl
    | cons i is => exact ih ..

theorem Laid.chunked (hR : R.Right effect spill step good kept start aligned)
    (h : R.Laid good kept start aligned holds a t is) :
    Chunked (fun i : ι × Word => effect i.1 i.2) (fun i => spill i.1)
    (fun i => R.size i.1) holds R.thumb step a t
      (R.linked a t is) := by
  induction is generalizing a t with
  | nil => exact fun c hc => hR.ending a t c h.start h.aligned (h.code c hc)
  | cons i is ih =>
    refine ⟨R.follow i a t, fun c r hc hspill heffect hnext => ?_, ih (h.tail hR)⟩
    exact hR.chunk i a t c r h.start h.good.1 h.aligned ((stored_append ..).mp (h.code c hc)).1
      ((stored_append ..).mp (h.code _ hspill)).1 (h.kept c hc).1 heffect
      fun hflow => ((stored_append ..).mp (h.code _ (hnext hflow))).1

/-- From the chunk of instruction `k` on the chunks do what the code does from
instruction `k` on. -/
theorem Laid.steps (hR : R.Right effect spill step good kept start aligned)
    (h : R.Laid good kept start aligned holds a t is)
    {k : Nat} {b u : Word} (haddr : R.addr a is k = b) (hchunk : R.chunkAddr a t is k = u)
    {c : Core} {s : State}
    (hruns : Runs (fun i : ι × Word => effect i.1 i.2) (fun i => spill i.1)
      (fun i => R.size i.1) holds R.thumb b
      ((R.linked a t is).drop k) c s) : Steps step ⟨c, u, R.thumb⟩ s := by
  rw [← haddr, drop_linked] at hruns
  rw [← hchunk]
  exact hruns.steps ((h.drop hR k).chunked hR)

end

end Relocation

end CodeRelocation
