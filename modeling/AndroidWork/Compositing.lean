import Mathlib.Tactic

/-!
# Compositing layers on a canvas

A canvas is painted layer by layer. A layer has a rectangle and pixels that may
let the canvas show through. In an animation it also has a disposal, which is
carried out before the next layer is painted.
-/
namespace Compositing

variable {α : Type}

/-- The pixel at every place, `x` before `y`. -/
abbrev Canvas (α : Type) := Int → Int → α

structure Rect where
  left : Int
  top : Int
  width : Int
  height : Int
  deriving DecidableEq, Repr

def Rect.Contains (r : Rect) (x y : Int) : Prop :=
  r.left ≤ x ∧ x < r.left + r.width ∧ r.top ≤ y ∧ y < r.top + r.height

instance (r : Rect) (x y : Int) : Decidable (r.Contains x y) :=
  inferInstanceAs (Decidable (_ ∧ _ ∧ _ ∧ _))

/-- No edge of `s` lies outside `r`. -/
def Rect.Covers (r s : Rect) : Prop :=
  r.left ≤ s.left ∧ s.left + s.width ≤ r.left + r.width ∧ r.top ≤ s.top ∧
    s.top + s.height ≤ r.top + r.height

instance (r s : Rect) : Decidable (r.Covers s) := inferInstanceAs (Decidable (_ ∧ _ ∧ _ ∧ _))

theorem Rect.Covers.contains {r s : Rect} (h : r.Covers s) {x y : Int} (hs : s.Contains x y) :
    r.Contains x y := by
  obtain ⟨hl, hr, ht, hb⟩ := h
  obtain ⟨hx, hx', hy, hy'⟩ := hs
  exact ⟨by omega, by omega, by omega, by omega⟩

def fill (r : Rect) (v : α) (c : Canvas α) : Canvas α :=
  fun x y => if r.Contains x y then v else c x y

@[simp] theorem fill_inside {r : Rect} {x y : Int} (h : r.Contains x y) (v : α) (c : Canvas α) :
    fill r v c x y = v := if_pos h
@[simp] theorem fill_outside {r : Rect} {x y : Int} (h : ¬ r.Contains x y) (v : α) (c : Canvas α) :
    fill r v c x y = c x y := if_neg h

/-- The part of `src` in a rectangle replaces that of `dst`. -/
def copy (r : Rect) (src dst : Canvas α) : Canvas α :=
  fun x y => if r.Contains x y then src x y else dst x y

@[simp] theorem copy_inside {r : Rect} {x y : Int} (h : r.Contains x y) (src dst : Canvas α) :
    copy r src dst x y = src x y := if_pos h
@[simp] theorem copy_outside {r : Rect} {x y : Int} (h : ¬ r.Contains x y) (src dst : Canvas α) :
    copy r src dst x y = dst x y := if_neg h

/-- Equal pixels throughout a rectangle. -/
def AgreeOn (r : Rect) (c d : Canvas α) : Prop := ∀ x y, r.Contains x y → c x y = d x y

theorem AgreeOn.refl (r : Rect) (c : Canvas α) : AgreeOn r c c := fun _ _ _ => rfl
theorem AgreeOn.symm {r : Rect} {c d : Canvas α} (h : AgreeOn r c d) : AgreeOn r d c :=
  fun x y hr => (h x y hr).symm
theorem AgreeOn.trans {r : Rect} {c d e : Canvas α} (h : AgreeOn r c d) (h' : AgreeOn r d e) :
    AgreeOn r c e := fun x y hr => (h x y hr).trans (h' x y hr)

/-- `pixel x y = none` lets the canvas show through. -/
structure Layer (α : Type) where
  rect : Rect
  pixel : Int → Int → Option α

/-- The layer leaves this place of the canvas alone. -/
def Layer.ShowsThrough (l : Layer α) (x y : Int) : Prop := l.rect.Contains x y → l.pixel x y = none

def Layer.over (l : Layer α) (c : Canvas α) : Canvas α := fun x y =>
  if l.rect.Contains x y then (l.pixel x y).getD (c x y) else c x y

theorem Layer.over_of_showsThrough {l : Layer α} {x y : Int}
    (h : l.ShowsThrough x y) (c : Canvas α) :
    l.over c x y = c x y := by
  rw [Layer.over]
  by_cases hr : l.rect.Contains x y
  · rw [if_pos hr, h hr]
    rfl
  · rw [if_neg hr]

theorem Layer.over_of_pixel {l : Layer α} {x y : Int} {v : α} (hr : l.rect.Contains x y)
    (h : l.pixel x y = some v) (c : Canvas α) : l.over c x y = v := by
  rw [Layer.over, if_pos hr, h]
  rfl

theorem Layer.showsThrough_of_outside {l : Layer α} {x y : Int} (h : ¬ l.rect.Contains x y) :
    l.ShowsThrough x y := fun hr => absurd hr h

/-- What happens to a layer before the next one is painted: it stays, its
rectangle is blanked, or the canvas before it comes back. -/
inductive Disposal where
  | keep
  | background
  | previous
  deriving DecidableEq, Repr

/-- A layer of an animation. -/
structure Cel (α : Type) extends Layer α where
  disposal : Disposal

/-- The canvas a cel leaves behind, from the one before it was painted and the
one after. -/
def Cel.dispose (l : Cel α) (blank : α) (before after : Canvas α) : Canvas α :=
  match l.disposal with
  | .keep => after
  | .background => fill l.rect blank after
  | .previous => before

/-- The canvas that cel `i` is painted on. -/
def under (blank : α) (L : Nat → Cel α) : Nat → Canvas α
  | 0 => fun _ _ => blank
  | i + 1 => (L i).dispose blank (under blank L i) ((L i).over (under blank L i))

/-- The canvas with cel `i` painted. -/
def shown (blank : α) (L : Nat → Cel α) (i : Nat) : Canvas α := (L i).over (under blank L i)

theorem under_succ (blank : α) (L : Nat → Cel α) (i : Nat) :
    under blank L (i + 1) = (L i).dispose blank (under blank L i) (shown blank L i) := rfl

/-- Through a cel the canvas below it is seen. -/
theorem shown_of_showsThrough {blank : α} {L : Nat → Cel α} {i : Nat} {x y : Int}
    (h : (L i).ShowsThrough x y) : shown blank L i x y = under blank L i x y :=
  Layer.over_of_showsThrough h _

end Compositing
