import Mathlib.Tactic

/-!
# Chains of cells

A memory with finitely many live cells, and the lists of addresses that the
links of its cells run through. A chain that ends never meets a cell twice.
-/
namespace LinkedChain

variable {Cell : Type}

/-- Memory in which only finitely many addresses are live. -/
structure Heap (Cell : Type) where
  cell : Nat → Option Cell
  bound : Nat
  dead : ∀ a, bound ≤ a → cell a = none

namespace Heap

def empty : Heap Cell := ⟨fun _ => none, 0, fun _ _ => rfl⟩

/-- Write a cell, which makes it live. -/
def set (h : Heap Cell) (a : Nat) (c : Cell) : Heap Cell where
  cell x := if x = a then some c else h.cell x
  bound := max h.bound (a + 1)
  dead x hx := by
    have ha : x ≠ a := by omega
    rw [if_neg ha, h.dead x (by omega)]

/-- The cell is live no more. -/
def free (h : Heap Cell) (a : Nat) : Heap Cell where
  cell x := if x = a then none else h.cell x
  bound := h.bound
  dead x hx := by
    split
    · rfl
    · exact h.dead x hx

@[simp] theorem set_same (h : Heap Cell) (a : Nat) (c : Cell) : (h.set a c).cell a = some c := by
  simp [set]
@[simp] theorem set_other (h : Heap Cell) {a x : Nat} (c : Cell) (hx : x ≠ a) :
    (h.set a c).cell x = h.cell x := by
  simp [set, hx]
@[simp] theorem free_other (h : Heap Cell) {a x : Nat} (hx : x ≠ a) :
    (h.free a).cell x = h.cell x := by
  simp [free, hx]

end Heap

variable (link : Cell → Option Nat) {h h' : Heap Cell} {a : Option Nat} {x d : Nat}
    {xs ys : List Nat}

/-- From `a` the links run through these addresses and end. -/
def Chain (h : Heap Cell) : Option Nat → List Nat → Prop
  | a, [] => a = none
  | a, x :: xs => a = some x ∧ ∃ c, h.cell x = some c ∧ Chain h (link c) xs

variable {link}

theorem Chain.congr (hchain : Chain link h a xs) (hsame : ∀ x ∈ xs, h'.cell x = h.cell x) :
    Chain link h' a xs := by
  induction xs generalizing a with
  | nil => exact hchain
  | cons x xs ih =>
    obtain ⟨hx, c, hc, hrest⟩ := hchain
    refine ⟨hx, c, ?_, ih hrest fun y hy => hsame y (List.mem_cons_of_mem x hy)⟩
    rw [hsame x List.mem_cons_self, hc]

/-- The links leave no choice. -/
theorem Chain.unique (hxs : Chain link h a xs) (hys : Chain link h a ys) : xs = ys := by
  induction xs generalizing a ys with
  | nil =>
    cases ys with
    | nil => rfl
    | cons y ys => exact absurd (hxs.symm.trans hys.1) nofun
  | cons x xs ih =>
    cases ys with
    | nil => exact absurd (hys.symm.trans hxs.1) nofun
    | cons y ys =>
      obtain ⟨hx, c, hc, hxs⟩ := hxs
      obtain ⟨hy, c', hc', hys⟩ := hys
      cases hx.symm.trans hy
      cases hc.symm.trans hc'
      rw [ih hxs hys]

theorem Chain.suffix (hchain : Chain link h a (xs ++ x :: ys)) :
    Chain link h (some x) (x :: ys) := by
  induction xs generalizing a with
  | nil => exact ⟨rfl, hchain.2⟩
  | cons y xs ih =>
    obtain ⟨-, c, -, hrest⟩ := hchain
    exact ih hrest

theorem Chain.live (hchain : Chain link h a xs) (hx : x ∈ xs) : ∃ c, h.cell x = some c := by
  obtain ⟨before, after, rfl⟩ := List.append_of_mem hx
  obtain ⟨-, c, hc, -⟩ := hchain.suffix
  exact ⟨c, hc⟩

/-- A cell met twice would have two chains behind it. -/
theorem Chain.nodup (hchain : Chain link h a xs) : xs.Nodup := by
  induction xs generalizing a with
  | nil => exact List.nodup_nil
  | cons x xs ih =>
    obtain ⟨hx, c, hc, hrest⟩ := hchain
    refine List.nodup_cons.mpr ⟨fun hmem => ?_, ih hrest⟩
    obtain ⟨before, after, rfl⟩ := List.append_of_mem hmem
    have hself : Chain link h (some x) (x :: (before ++ x :: after)) := ⟨rfl, c, hc, hrest⟩
    have hlen := congrArg List.length (hself.unique hrest.suffix)
    simp only [List.length_cons, List.length_append] at hlen
    omega

/-- A cell without a link is put behind the last one. -/
theorem Chain.concat {c c' : Cell} (hchain : Chain link h a (xs ++ [x])) (hd : d ∉ xs ++ [x])
    (hkeep : ∀ y ≠ x, y ≠ d → h'.cell y = h.cell y) (hx : h'.cell x = some c)
    (hlink : link c = some d)
    (hd' : h'.cell d = some c') (hend : link c' = none) : Chain link h' a (xs ++ [x, d]) := by
  induction xs generalizing a with
  | nil => exact ⟨hchain.1, c, hx, hlink, c', hd', hend⟩
  | cons y xs ih =>
    have hnodup := hchain.nodup
    obtain ⟨hy, cy, hcy, hrest⟩ := hchain
    have hyx : y ≠ x := by
      rintro rfl
      exact (List.nodup_cons.mp hnodup).1 (List.mem_append_right xs List.mem_cons_self)
    have hyd : y ≠ d := by
      rintro rfl
      exact hd List.mem_cons_self
    refine ⟨hy, cy, (hkeep y hyx hyd).trans hcy,
      ih hrest fun hmem => hd (List.mem_cons_of_mem y hmem)⟩

end LinkedChain
