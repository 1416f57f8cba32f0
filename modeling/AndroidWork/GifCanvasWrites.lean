import AndroidWork.GifInterlace

/-!
# The writes of setPixels

Every write to the canvas on its own, with the pixel of the frame that it is for.
A frame is cut off at the right and at the bottom edge of the canvas and nowhere
else, and the rectangle of the last image is cleared whole.
-/
namespace BaseGifDecoder

open GifFile (int_eq int_bounds)
open GifLzwDecoder (Byte Reader Source)

/-- `dest[place] = color`, with the row and the column of the data for a pixel. -/
structure Write where
  place : Int
  color : Color
  pixel : Option (Int × Int)
  deriving DecidableEq

/-- The writes up to a place that `pixels` does not have, if they are `cut`. -/
structure Writes where
  list : List Write
  cut : Bool

def Write.perform (size : Int) (dest : Int → Color) (w : Write) : Except Fault (Int → Color) :=
  if 0 ≤ w.place ∧ w.place < size then
    .ok (Function.update dest w.place w.color) else .error .destIndex

def Writes.perform (size : Int) (w : Writes) (dest : Int → Color) : Except Fault (Int → Color) := do
  let dest ← w.list.foldlM (Write.perform size) dest
  if w.cut then .error .pixelsIndex else .ok dest

def Writes.cons (w : Write) (ws : Writes) : Writes := ⟨w :: ws.list, ws.cut⟩

/-- What comes later is not reached behind a cut. -/
def Writes.append (w w' : Writes) : Writes := if w.cut then w else ⟨w.list ++ w'.list, w'.cut⟩

section

variable (size : Int) (dest : Int → Color)

@[simp] theorem perform_none : Writes.perform size ⟨[], false⟩ dest = .ok dest := rfl

@[simp] theorem perform_cut : Writes.perform size ⟨[], true⟩ dest = .error .pixelsIndex := rfl

theorem perform_cons (w : Write) (ws : Writes) :
    (ws.cons w).perform size dest = w.perform size dest >>= ws.perform size := by
  simp only [Writes.perform, Writes.cons, List.foldlM_cons, bind_assoc]
  rfl

theorem perform_whole (list : List Write) :
    Writes.perform size ⟨list, false⟩ dest = list.foldlM (Write.perform size) dest := by
  rw [Writes.perform]
  cases list.foldlM (Write.perform size) dest <;> rfl

theorem perform_append (w w' : Writes) :
    (w.append w').perform size dest = w.perform size dest >>= w'.perform size := by
  cases hcut : w.cut with
  | true =>
    simp only [Writes.append, Writes.perform, hcut, if_true]
    cases w.list.foldlM (Write.perform size) dest <;> rfl
  | false =>
    simp only [Writes.append, Writes.perform, hcut, Bool.false_eq_true, if_false,
      List.foldlM_append]
    cases w.list.foldlM (Write.perform size) dest <;> rfl

end

/-- The writes of `fillRow`. -/
def fillRowWrites (c : Color) : Nat → Int → List Write
  | 0, _ => []
  | n + 1, k => ⟨k, c, none⟩ :: fillRowWrites c n (k + 1)

/-- The writes of `fillRows`. -/
def Screen.fillRowsWrites (s : Screen) (c : Color) : Nat → Int → List Write
  | 0, _ => []
  | n + 1, i =>
    let n1 := int ((s.lry + i) * s.width + s.lrx)
    fillRowWrites c (int (n1 + s.lrw) - n1).toNat n1 ++ s.fillRowsWrites c n (i + 1)

/-- The background is filled in. -/
def Screen.fills (s : Screen) : Prop := s.lastDispose = 2 ∧ s.lastImage.isSome

instance (s : Screen) : Decidable s.fills := inferInstanceAs (Decidable (_ ∧ _))

/-- The writes of `startingContents`, and what they are made to. -/
def Screen.startingWrites (s : Screen) (frame : GifFrameData) : Writes where
  list := if s.fills then s.fillRowsWrites (if frame.transparency then
    0 else s.lastBgColor) s.lrh.toNat 0 else []
  cut := false

def Screen.lastPixels (s : Screen) : Int → Color :=
  if 0 < s.lastDispose then (s.lastImage.map Bitmap.pixels).getD fun _ => 0 else fun _ => 0

/-- The writes of `copyRow`. -/
def copyRowWrites (act : Table) (pixels : Nat × (Int → Byte)) (row : Int) :
    Nat → Int → Int → Int → Writes
  | 0, _, _, _ => ⟨[], false⟩
  | n + 1, column, dx, sx =>
    if 0 ≤ sx ∧ sx < pixels.1 then
      let rest := copyRowWrites act pixels row n (column + 1) (dx + 1) (sx + 1)
      if act (pixels.2 sx).toNat = 0 then
        rest else rest.cons ⟨dx, act (pixels.2 sx).toNat, some (row, column)⟩
    else ⟨[], true⟩

/-- The writes of `paintRow`. -/
def Screen.paintRowWrites (s : Screen) (frame : GifFrameData) (act : Table)
    (pixels : Nat × (Int → Byte)) (i line : Int) :
    Writes :=
  if line + frame.iy < s.height then
    let k := int ((line + frame.iy) * s.width)
    let dx := int (k + frame.ix)
    let dlim := if int (k + s.width) < int (dx + frame.iw) then
      int (k + s.width) else int (dx + frame.iw)
    copyRowWrites act pixels i (dlim - dx).toNat 0 dx (int (i * frame.iw))
  else ⟨[], false⟩

/-- The writes of `paintRows`. -/
def Screen.paintRowsWrites (s : Screen) (frame : GifFrameData) (act : Table)
    (pixels : Nat × (Int → Byte)) :
    Nat → Int → Pass → Writes
  | 0, _, _ => ⟨[], false⟩
  | n + 1, i, p =>
    (s.paintRowWrites frame act pixels i (frame.lineOf i p).1).append
      (s.paintRowsWrites frame act pixels n (i + 1) (frame.lineOf i p).2)

/-- The writes of `setPixels`, behind the disposal of the last image. -/
def Screen.writes (s : Screen) (frame : GifFrameData) (act : Table)
    (pixels : Nat × (Int → Byte)) : Writes :=
  (s.startingWrites frame).append (s.paintRowsWrites frame act pixels frame.ih.toNat 0 ⟨1, 8, 0⟩)

section Performs

variable (s : Screen) (frame : GifFrameData) (act : Table)
    (pixels : Nat × (Int → Byte)) (size : Int)

theorem fillRow_perform (c : Color) (n : Nat) (k : Int) (dest : Int → Color) :
    fillRow size c n k dest = (fillRowWrites c n k).foldlM (Write.perform size) dest := by
  induction n generalizing k dest with
  | zero => rfl
  | succ n ih =>
    rw [fillRow, fillRowWrites, List.foldlM_cons, Write.perform]
    split
    · exact ih (k + 1) _
    · rfl

theorem fillRows_perform (c : Color) (n : Nat) (i : Int) (dest : Int → Color) :
    s.fillRows size c n i dest = (s.fillRowsWrites c n i).foldlM (Write.perform size) dest := by
  induction n generalizing i dest with
  | zero => rfl
  | succ n ih =>
    rw [Screen.fillRows, Screen.fillRowsWrites, List.foldlM_append, ← fillRow_perform]
    congr 1
    funext dest
    exact ih (i + 1) dest

theorem startingContents_perform : s.startingContents frame size =
    (s.startingWrites frame).perform size s.lastPixels := by
  by_cases hfills : s.fills
  · obtain ⟨last, hlast⟩ := Option.isSome_iff_exists.mp hfills.2
    have hpos : 0 < s.lastDispose := by rw [hfills.1]; decide
    rw [Screen.startingWrites, if_pos hfills, perform_whole, Screen.lastPixels, if_pos hpos, hlast,
      Screen.startingContents,
      if_pos hpos, hlast, ← fillRows_perform]
    exact if_pos hfills.1
  · rw [Screen.startingWrites, if_neg hfills, perform_none, Screen.lastPixels,
      Screen.startingContents]
    split
    · cases hlast : s.lastImage with
      | none => rfl
      | some last =>
        apply if_neg
        intro hbackground
        exact hfills ⟨hbackground, by rw [hlast]; rfl⟩
    · rfl

theorem copyRow_perform (row : Int) (n : Nat) (column dx sx : Int) (dest : Int → Color) :
    copyRow act pixels size n dx sx dest =
      (copyRowWrites act pixels row n column dx sx).perform size dest := by
  induction n generalizing column dx sx dest with
  | zero => rfl
  | succ n ih =>
    rw [copyRow, copyRowWrites]
    by_cases hin : 0 ≤ sx ∧ sx < pixels.1
    · rw [if_pos hin, if_pos hin]
      by_cases hcolor : act (pixels.2 sx).toNat = 0
      · simp only [hcolor, if_true]
        exact ih _ _ _ dest
      · simp only [hcolor, if_false, perform_cons, Write.perform]
        by_cases hout : 0 ≤ dx ∧ dx < size
        · rw [if_pos hout, if_pos hout, ok_bind]
          exact ih _ _ _ _
        · rw [if_neg hout, if_neg hout, error_bind]
    · rw [if_neg hin, if_neg hin, perform_cut]

theorem paintRow_perform (i line : Int) (dest : Int → Color) :
    s.paintRow frame act pixels size i line dest =
      (s.paintRowWrites frame act pixels i line).perform size dest := by
  rw [Screen.paintRow, Screen.paintRowWrites]
  split
  · exact copyRow_perform act pixels size i _ 0 _ _ dest
  · rfl

theorem paintRows_perform (n : Nat) (i : Int) (p : Pass) (dest : Int → Color) :
    s.paintRows frame act pixels size n i p dest =
      (s.paintRowsWrites frame act pixels n i p).perform size dest := by
  induction n generalizing i p dest with
  | zero => rfl
  | succ n ih =>
    rw [Screen.paintRows, Screen.paintRowsWrites, perform_append, ← paintRow_perform]
    congr 1
    funext dest
    exact ih (i + 1) _ dest

/-- All that `setPixels` does to the canvas is in its writes. -/
theorem setPixels_perform (argb4444 : Color → Color) :
    Screen.setPixels argb4444 s frame act pixels =
      if int (s.width * s.height) < 0 then .error .negativeArraySize
      else (do
        let dest ← (s.recall.writes frame act pixels).perform
            (int (s.width * s.height)) s.recall.lastPixels
        let image ← createBitmap argb4444 dest s.width s.height
        .ok { s.recall with image := some image }) := by
  simp only [Screen.setPixels, Screen.writes, perform_append, ← startingContents_perform,
    recall_width, recall_height, bind_assoc]
  split
  · rfl
  · congr 1
    funext dest
    rw [paintRows_perform]

end Performs

end BaseGifDecoder
