import Mathlib.Logic.Function.Basic
import Mathlib.Tactic

/-!
# Call frame tables

Call frame instructions describe a table with a row for each location of a
function: how the canonical frame address is computed there, and how the
caller's registers are recovered. Registers, values and locations are of any
types.
-/
namespace CallFrames

/-- How a register of the caller is recovered. -/
inductive Rule (ρ V : Type) where
  | undefined
  | sameValue
  | offset (n : V)
  | valOffset (n : V)
  | register (q : ρ)
  deriving DecidableEq, Repr

/-- The canonical frame address is a register and an offset. -/
structure Row (ρ V : Type) where
  cfa : Option (ρ × V)
  rule : ρ → Rule ρ V

inductive Insn (ρ V L : Type) where
  | advance (delta : L)
  | setRule (r : ρ) (rule : Rule ρ V)
  | restore (r : ρ)
  | rememberState
  | restoreState
  | defCfa (r : ρ) (n : V)
  | defCfaRegister (r : ρ)
  | defCfaOffset (n : V)
  | nop
  deriving DecidableEq, Repr

/-- The location reached, its row, the rules behind the common instructions, and
the rows that were remembered. -/
structure Table (ρ V L : Type) where
  loc : L
  row : Row ρ V
  initial : ρ → Rule ρ V
  remembered : List (Row ρ V)

variable {ρ V L : Type}

section Locations

variable [Add L]

/-- Where the next instruction stands. -/
def Insn.loc (loc : L) : Insn ρ V L → L
  | .advance delta => loc + delta
  | _ => loc

variable [LE L] [DecidableLE L]

/-- The instructions at locations up to `pc`, from the location `loc` on. -/
def reached (pc : L) : L → List (Insn ρ V L) → List (Insn ρ V L)
  | _, [] => []
  | loc, i :: is => if loc ≤ pc then i :: reached pc (i.loc loc) is else []

theorem reached_nops {is : List (Insn ρ V L)} (h : ∀ i ∈ is, i = .nop) (pc loc : L) :
    ∀ i ∈ reached pc loc is, i = .nop := by
  induction is generalizing loc with
  | nil => exact h
  | cons i is ih =>
    rw [reached]
    split
    · exact List.forall_mem_cons.mpr ⟨h i List.mem_cons_self,
        ih (fun j hj => h j (List.mem_cons_of_mem i hj)) _⟩
    · exact fun _ hi => absurd hi List.not_mem_nil

end Locations

section Tables

variable [DecidableEq ρ] [Add L]

def Row.set (row : Row ρ V) (r : ρ) (rule : Rule ρ V) : Row ρ V :=
  { row with rule := Function.update row.rule r rule }

def Table.exec (t : Table ρ V L) : Insn ρ V L → Table ρ V L
  | .advance delta => { t with loc := t.loc + delta }
  | .setRule r rule => { t with row := t.row.set r rule }
  | .restore r => { t with row := t.row.set r (t.initial r) }
  | .rememberState => { t with remembered := t.row :: t.remembered }
  | .restoreState => t.remembered.casesOn t fun row rest => { t with row, remembered := rest }
  | .defCfa r n => { t with row := { t.row with cfa := some (r, n) } }
  | .defCfaRegister r => { t with row := { t.row with cfa := t.row.cfa.map fun p => (r, p.2) } }
  | .defCfaOffset n => { t with row := { t.row with cfa := t.row.cfa.map fun p => (p.1, n) } }
  | .nop => t

/-- Before any instruction every register is as it was. -/
def Table.start (loc : L) : Table ρ V L :=
  ⟨loc, ⟨none, fun _ => .sameValue⟩, fun _ => .sameValue, []⟩

/-- The table behind the common instructions, whose rules are restored later. -/
def Table.common (t : Table ρ V L) (is : List (Insn ρ V L)) : Table ρ V L :=
  let t' := is.foldl Table.exec t
  { t' with initial := t'.row.rule }

theorem Table.exec_loc (t : Table ρ V L) (i : Insn ρ V L) : (t.exec i).loc = i.loc t.loc := by
  cases i with
  | restoreState =>
    rw [exec]
    cases t.remembered <;> rfl
  | _ => rfl

variable [LE L] [DecidableLE L]

/-- The instructions are carried out as long as the location is not behind `pc`. -/
def Table.upTo (pc : L) : List (Insn ρ V L) → Table ρ V L → Table ρ V L
  | [], t => t
  | i :: is, t => if t.loc ≤ pc then upTo pc is (t.exec i) else t

/-- The row of a function that begins at `begins`, for the location `pc`. -/
def rowAt (pc begins : L) (common own : List (Insn ρ V L)) : Row ρ V :=
  let t := Table.upTo pc common (Table.start begins)
  (Table.upTo pc own { t with initial := t.row.rule }).row

@[simp] theorem Row.set_same (row : Row ρ V) (r : ρ) (rule : Rule ρ V) :
    (row.set r rule).rule r = rule := Function.update_self ..
@[simp] theorem Row.set_other (row : Row ρ V) {r q : ρ} (rule : Rule ρ V) (h : q ≠ r) :
    (row.set r rule).rule q = row.rule q :=
  Function.update_of_ne h ..
@[simp] theorem Row.set_cfa (row : Row ρ V) (r : ρ) (rule : Rule ρ V) :
    (row.set r rule).cfa = row.cfa := rfl

theorem Row.set_self {row : Row ρ V} {r : ρ} {rule : Rule ρ V} (h : row.rule r = rule) :
    row.set r rule = row := by
  rw [Row.set, ← h, Function.update_eq_self]

/-- Padding ends a table. -/
theorem Table.upTo_nops {pc : L} {is : List (Insn ρ V L)} (h : ∀ i ∈ is, i = .nop)
    (t : Table ρ V L) : t.upTo pc is = t := by
  induction is generalizing t with
  | nil => rfl
  | cons i is ih =>
    rw [h i List.mem_cons_self, upTo]
    split
    · exact ih (fun j hj => h j (List.mem_cons_of_mem i hj)) t
    · rfl

end Tables

section Recovery

variable [Add V] (load : V → Option V) (regs : ρ → V)

def Row.cfaValue (row : Row ρ V) : Option V := row.cfa.map fun p => regs p.1 + p.2

/-- What a rule gives for a register, when the canonical frame address is `cfa`. -/
def Rule.value (cfa : V) (r : ρ) : Rule ρ V → Option V
  | .undefined => none
  | .sameValue => some (regs r)
  | .offset n => load (cfa + n)
  | .valOffset n => some (cfa + n)
  | .register q => some (regs q)

/-- The caller's value of a register. -/
def Row.caller (row : Row ρ V) (r : ρ) : Option V :=
  (row.cfaValue regs).bind fun cfa => (row.rule r).value load regs cfa r

end Recovery

end CallFrames
