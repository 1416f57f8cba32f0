import AndroidWork.GifCanvasWrites
import Mathlib.Tactic.Linarith

/-!
# Where setPixels writes

The places of the writes from the size of the screen and the rectangles. Screens
and rectangles are read from a file, so their numbers are 16 bits wide, but
products of two such numbers may not be ints any more.
-/
namespace BaseGifDecoder

open GifFile (int_eq int_bounds)
open GifLzwDecoder (Byte Reader Source)

/-- A number that `readShort` gives. Those of a stream are negative where it has ended. -/
def IsShort : Source → Int → Prop
  | .stream, x => -2 ^ 8 ≤ x ∧ x < 2 ^ 16
  | .rawData, x => -2 ^ 15 ≤ x ∧ x < 2 ^ 15

/-- A rectangle as it is read. -/
structure Rectangle (source : Source) (x y w h : Int) : Prop where
  left : IsShort source x
  top : IsShort source y
  width : IsShort source w
  height : IsShort source h
  ended : source = .stream → w < 0 → h < 0

/-- The scale for a required size, -1 for none; a division by 0 has no value. -/
def scaleFor (require size scale : Int) : Option Int :=
  if require ≠ -1 ∧ require < size then if require = 0 then
    none else some (max scale (size.tdiv require)) else some scale

/-- The screen of `readLSD`, which is scaled down to what is required. The quotient of two such
numbers is the same for a `float`. -/
def screenSize (requireWidth requireHeight width height : Int) : Option (Int × Int) := do
  let scale ← scaleFor requireHeight height 1
  let scale ← scaleFor requireWidth width scale
  some (width.tdiv scale, height.tdiv scale)

section

variable {source : Source} {r : Reader} {p : Int × Reader}

theorem low_byte (low : Byte) : -2 ^ 8 ≤
    (BitVec.ofInt 32 low.toNat ||| BitVec.ofInt 32 (-1) <<< 8).toInt ∧
    (BitVec.ofInt 32 low.toNat ||| BitVec.ofInt 32 (-1) <<< 8).toInt < 2 ^ 16 := by
  revert low
  decide +kernel

theorem readShort_ended (hsource : r.source = .stream) (hbytes : r.bytes = []) :
    readShort r = .ok (-1, r) := by
  have hread : r.read = (-1, r) := by simp only [Reader.read, hbytes, hsource]
  simp only [readShort, hsource, hread]
  rfl

theorem readShort_short (h : readShort r = .ok p) :
    IsShort r.source p.1 ∧ p.2.source = r.source ∧
    (r.source = .stream → p.1 < 0 → p.2.bytes = []) := by
  obtain ⟨source, bytes, formatError⟩ := r
  cases source with
  | stream =>
    cases bytes with
    | nil =>
      have hshort : IsShort .stream (-1) := ⟨by decide, by decide⟩
      rw [readShort_ended rfl rfl] at h
      cases h
      exact ⟨hshort, rfl, fun _ _ => rfl⟩
    | cons low bytes =>
      cases bytes with
      | nil =>
        cases h
        exact ⟨low_byte low, rfl, fun _ _ => rfl⟩
      | cons high bytes =>
        cases h
        have hlow := low.isLt
        have hhigh := high.isLt
        simp only [Reader.read, GifFile.or_shift, IsShort]
        refine ⟨by omega, trivial, fun _ hneg => absurd hneg (by omega)⟩
  | rawData =>
    cases bytes with
    | nil => cases h
    | cons low bytes =>
      cases bytes with
      | nil => cases h
      | cons high bytes =>
        cases h
        exact ⟨⟨BitVec.le_toInt _, BitVec.toInt_lt⟩, rfl, by rintro ⟨⟩⟩

/-- The rectangle of a frame is read. -/
theorem readDescriptor_rectangle {frame frame' : GifFrameData} {r' : Reader}
    (h : readDescriptor frame r = .ok (frame', r')) :
    Rectangle r.source frame'.ix frame'.iy frame'.iw frame'.ih := by
  obtain ⟨⟨ix, r₁⟩, h₁, h⟩ := bind_eq_ok h
  obtain ⟨⟨iy, r₂⟩, h₂, h⟩ := bind_eq_ok h
  obtain ⟨⟨iw, r₃⟩, h₃, h⟩ := bind_eq_ok h
  obtain ⟨⟨ih, r₄⟩, h₄, h⟩ := bind_eq_ok h
  obtain ⟨hix, hs₁, -⟩ := readShort_short h₁
  obtain ⟨hiy, hs₂, -⟩ := readShort_short h₂
  obtain ⟨hiw, hs₃, hend⟩ := readShort_short h₃
  obtain ⟨hih, hs₄, -⟩ := readShort_short h₄
  simp only at hs₁ hs₂ hs₃ hs₄ hix hiy hiw hih hend
  cases h
  refine ⟨hix, hs₁ ▸ hiy, hs₁ ▸ hs₂ ▸ hiw, hs₁ ▸ hs₂ ▸ hs₃ ▸ hih, ?_⟩
  intro hsource hneg
  have hsource₂ : r₂.source = .stream := (hs₂.trans hs₁).trans hsource
  rw [readShort_ended (hs₃.trans hsource₂) (hend hsource₂ hneg)] at h₄
  cases h₄
  exact (by decide : (-1 : Int) < 0)

theorem IsShort.tdiv {x scale : Int} (h : IsShort source x) (hscale : 1 ≤ scale) :
    IsShort source (x.tdiv scale) := by
  have hbetween : 0 ≤ x.tdiv scale ∧ x.tdiv scale ≤ x ∨ x ≤ x.tdiv scale ∧ x.tdiv scale ≤ 0 := by
    obtain hpos | hneg := le_total 0 x
    · exact .inl ⟨Int.tdiv_nonneg hpos (by omega), Int.tdiv_le_self scale hpos⟩
    · have hle := Int.tdiv_le_self scale (neg_nonneg.mpr hneg)
      have hnonneg := Int.tdiv_nonneg (neg_nonneg.mpr hneg) (by omega : 0 ≤ scale)
      rw [Int.neg_tdiv] at hle hnonneg
      exact .inr ⟨by omega, by omega⟩
  cases source <;> simp only [IsShort] at h ⊢ <;> omega

theorem scaleFor_pos {require size scale scale' : Int}
    (h : scaleFor require size scale = some scale') (hscale : 1 ≤ scale) :
    1 ≤ scale' := by
  rw [scaleFor] at h
  split at h
  · split at h
    · cases h
    · cases h
      exact hscale.trans (le_max_left _ _)
  · cases h
    exact hscale

/-- Scaled or not, the size of the screen is of 16 bits. -/
theorem screenSize_short {requireWidth requireHeight width height : Int} {size : Int × Int}
    (hwidth : IsShort source width)
    (hheight : IsShort source height)
    (h : screenSize requireWidth requireHeight width height = some size) :
    IsShort source size.1 ∧ IsShort source size.2 := by
  obtain ⟨scale, hfirst, h⟩ := Option.bind_eq_some_iff.mp h
  obtain ⟨scale', hsecond, h⟩ := Option.bind_eq_some_iff.mp h
  have hscale := scaleFor_pos hsecond (scaleFor_pos hfirst le_rfl)
  cases h
  exact ⟨hwidth.tdiv hscale, hheight.tdiv hscale⟩

end

/-- In the array and, for a pixel, where the frame has it on the canvas. -/
structure Screen.Right (s : Screen) (frame : GifFrameData) (w : Write) : Prop where
  inside : 0 ≤ w.place ∧ w.place < int (s.width * s.height)
  pixel : ∀ row column, w.pixel = some (row, column) → ∃ line : Nat,
    (lines frame.interlace frame.ih.toNat)[row.toNat]? = some line ∧
      0 ≤ column + frame.ix ∧ column + frame.ix < s.width ∧ 0 ≤ line + frame.iy ∧
      line + frame.iy < s.height ∧
      w.place = (line + frame.iy) * s.width + (column + frame.ix)

/-- The writes of `setPixels`, which ends at once where there is no array. -/
def Screen.allWrites (s : Screen) (frame : GifFrameData) (act : Table)
    (pixels : Nat × (Int → Byte)) : List Write :=
  if int (s.width * s.height) < 0 then [] else (s.recall.writes frame act pixels).list

/-- Every write is right, whatever the colours and the pixels are. -/
def Screen.WritesRight (s : Screen) (frame : GifFrameData) : Prop :=
  ∀ act pixels, pixels.1 < 2 ^ 31 → ∀ w ∈ s.allWrites frame act pixels, s.Right frame w

/-- An interlaced frame with a pass that has no line. -/
def GifFrameData.Strays (frame : GifFrameData) : Prop :=
  frame.interlace = true ∧ 2 ≤ frame.ih ∧ frame.ih ≤ 4

instance (frame : GifFrameData) : Decidable frame.Strays := inferInstanceAs (Decidable (_ ∧ _))

/-- The lines that the rows of the data are painted on. -/
def GifFrameData.paintedLines (frame : GifFrameData) : List Nat :=
  if frame.Strays then [0, 4, 2, 1].take frame.ih.toNat else lines frame.interlace frame.ih.toNat

/-- Each row of the rectangle is in the array, or its end is not an int. -/
def Screen.FillFits (s : Screen) : Prop :=
  0 < s.lrw → ∀ j : Nat, j < s.lrh →
    0 ≤ (s.lry + j) * s.width + s.lrx ∧ (s.lry + j) * s.width + s.lrx + s.lrw ≤ s.width * s.height ∨
      (s.lry + j) * s.width + s.lrx < 2 ^ 31 ∧ 2 ^ 31 ≤ (s.lry + j) * s.width + s.lrx + s.lrw

/-- Row `i` of the data, on a line above the bottom edge: it is behind the right edge, or it starts
on
the canvas and the line is its own, or its end is not an int. -/
def Screen.RowFits (s : Screen) (frame : GifFrameData) (i line : Nat) : Prop :=
  s.width ≤ frame.ix ∧ (line + frame.iy) * s.width + frame.ix < 2 ^ 31 ∨
    0 ≤ frame.ix ∧ frame.ix < s.width ∧ 0 ≤ line + frame.iy ∧ (i = 0 ∨ ¬ frame.Strays) ∨
    frame.ix < s.width ∧ 2 ^ 31 ≤ (line + frame.iy) * s.width + frame.ix + frame.iw

/-- The rows whose pixels have a place in an array. -/
def Screen.RowsFit (s : Screen) (frame : GifFrameData) : Prop :=
  0 < frame.iw → ∀ i line : Nat, frame.paintedLines[i]? = some line → i * frame.iw < 2 ^ 31 - 1 →
    line + frame.iy < s.height →
    s.RowFits frame i line

def Screen.Fits (s : Screen) (frame : GifFrameData) : Prop :=
  int (s.width * s.height) < 0 ∨ (s.fills → s.FillFits) ∧ s.RowsFit frame

theorem int_add (x : Int) : ∃ q, int x = x + q * 2 ^ 32 ∧ -2 ^ 31 ≤ int x ∧ int x < 2 ^ 31 := by
  refine ⟨-((x + 2 ^ 31) / 2 ^ 32), ?_, int_bounds x⟩
  rw [int, BitVec.toInt_ofInt, Int.bmod_def]
  norm_num
  split <;> omega

/-- Where a row of the frame starts on the canvas, and how many of its pixels are taken. -/
def Screen.span (s : Screen) (frame : GifFrameData) (line : Int) : Int × Nat :=
  let k := int ((line + frame.iy) * s.width)
  let dx := int (k + frame.ix)
  let dlim := if int (k + s.width) < int (dx + frame.iw) then
    int (k + s.width) else int (dx + frame.iw)
  (dx, (dlim - dx).toNat)

/-- A screen that has an array. -/
structure Screen.Sized (s : Screen) (source : Source) : Prop where
  width : IsShort source s.width
  height : IsShort source s.height
  nonneg : 0 ≤ s.width * s.height
  lt : s.width * s.height < 2 ^ 31

section

variable {s : Screen} {source : Source}

theorem IsShort.bounds {x : Int} (h : IsShort source x) : -2 ^ 15 ≤ x ∧ x < 2 ^ 16 := by
  cases source <;> simp only [IsShort] at h <;> omega

theorem sized_of (hwidth : IsShort source s.width) (hheight : IsShort source s.height)
    (hsize : ¬ int (s.width * s.height) < 0) :
    s.Sized source := by
  have hw := hwidth.bounds
  have hh := hheight.bounds
  have hlow : -2 ^ 31 ≤ s.width * s.height := by nlinarith
  have hhigh : s.width * s.height < 2 ^ 32 := by nlinarith
  obtain ⟨q, hq, hqbounds⟩ := int_add (s.width * s.height)
  constructor
  · exact hwidth
  · exact hheight
  · omega
  · omega

theorem Screen.Sized.size (h : s.Sized source) : int (s.width * s.height) = s.width * s.height := by
  have hnonneg := h.nonneg
  have hlt := h.lt
  exact int_eq (by omega) (by omega)

end

section

variable {frame : GifFrameData}

theorem length_paintedLines : frame.paintedLines.length = frame.ih.toNat := by
  rw [GifFrameData.paintedLines]
  split
  · rename_i hstrays
    obtain ⟨-, hlow, hhigh⟩ := hstrays
    rw [List.length_take]
    simp only [List.length_cons, List.length_nil]
    omega
  · exact length_lines _ _

theorem runs_paintedLines : Runs frame 0 ⟨1, 8, 0⟩ frame.paintedLines := by
  by_cases hstrays : frame.Strays
  · obtain ⟨hinterlace, hlow, hhigh⟩ := id hstrays
    have hih : frame.ih = 2 ∨ frame.ih = 3 ∨ frame.ih = 4 := by omega
    rw [GifFrameData.paintedLines, if_pos hstrays]
    obtain h | h | h := hih <;> simp [h, Runs, GifFrameData.lineOf, hinterlace, Pass.turn]
  · rw [GifFrameData.paintedLines, if_neg hstrays]
    by_cases hnone : frame.ih ≤ 0
    · have hempty : lines frame.interlace frame.ih.toNat = [] := by
        rw [← List.length_eq_zero_iff, length_lines]
        omega
      rw [hempty]
      trivial
    · apply runs_lines (by omega)
      intro hinterlace
      by_contra hsmall
      exact hstrays ⟨hinterlace, by omega, by omega⟩

theorem rowsFrom_get {i : Int} {p : Pass} {L : List Nat} (h : Runs frame i p L) (k : Nat) :
    (frame.rowsFrom L.length i p)[k]? = L[k]?.map fun line : Nat => (i + k, (line : Int)) := by
  induction L generalizing i p k with
  | nil => rfl
  | cons line L ih =>
    obtain ⟨hline, hrest⟩ := h
    rw [List.length_cons, GifFrameData.rowsFrom]
    cases k with
    | zero => simp [hline]
    | succ k =>
      have hnext : i + 1 + k = i + (k + 1 : Nat) := by push_cast; ring
      rw [List.getElem?_cons_succ, List.getElem?_cons_succ, ih hrest k, hnext]

theorem painted_row (k : Nat) :
    (frame.rowsFrom frame.ih.toNat 0 ⟨1, 8, 0⟩)[k]? = frame.paintedLines[k]?.map fun line : Nat =>
  ((k : Int), (line : Int)) := by
  have hruns : Runs frame 0 ⟨1, 8, 0⟩ frame.paintedLines := runs_paintedLines
  simpa only [length_paintedLines, zero_add] using rowsFrom_get hruns k

end

section

variable {s : Screen} {frame : GifFrameData} {act : Table} {pixels : Nat × (Int → Byte)} {w : Write}
    {n : Nat} {i : Int} {p : Pass}

theorem mem_append {ws ws' : Writes} (h : w ∈ (ws.append ws').list) :
    w ∈ ws.list ∨ w ∈ ws'.list := by
  rw [Writes.append] at h
  split at h
  · exact .inl h
  · exact List.mem_append.mp h

theorem mem_append_left {ws : Writes} (ws' : Writes) (h : w ∈ ws.list) :
    w ∈ (ws.append ws').list := by
  rw [Writes.append]
  split
  · exact h
  · exact List.mem_append_left _ h

theorem mem_append_right {ws ws' : Writes} (hcut : ws.cut = false) (h : w ∈ ws'.list) :
    w ∈ (ws.append ws').list := by
  rw [Writes.append, hcut]
  exact List.mem_append_right _ h

theorem row_of_mem (h : w ∈ (s.paintRowsWrites frame act pixels n i p).list) :
    ∃ row ∈ frame.rowsFrom n i p, w ∈ (s.paintRowWrites frame act pixels row.1 row.2).list := by
  induction n generalizing i p with
  | zero => simp [Screen.paintRowsWrites] at h
  | succ n ih =>
    obtain hfirst | hlater := mem_append h
    · exact ⟨_, List.mem_cons_self, hfirst⟩
    · obtain ⟨row, hrow, hw⟩ := ih hlater
      exact ⟨row, List.mem_cons_of_mem _ hrow, hw⟩

/-- A row is painted when no row before it is cut. -/
theorem mem_of_row {k : Nat} {row : Int × Int} (hrow : (frame.rowsFrom n i p)[k]? = some row)
    (huncut : ∀ j < k, ∀ row, (frame.rowsFrom n i p)[j]? = some row →
      (s.paintRowWrites frame act pixels row.1 row.2).cut = false)
    (h : w ∈ (s.paintRowWrites frame act pixels row.1 row.2).list) :
    w ∈ (s.paintRowsWrites frame act pixels n i p).list := by
  induction n generalizing i p k with
  | zero => simp [GifFrameData.rowsFrom] at hrow
  | succ n ih =>
    rw [GifFrameData.rowsFrom] at hrow huncut
    cases k with
    | zero =>
      obtain rfl : _ = row := by simpa using hrow
      exact mem_append_left _ h
    | succ k =>
      have hfirst : (s.paintRowWrites frame act pixels i (frame.lineOf i p).1).cut = false :=
        huncut 0 (Nat.succ_pos k) _ rfl
      apply mem_append_right hfirst
      apply ih hrow
      intro j hj row hrow
      exact huncut (j + 1) (Nat.succ_lt_succ hj) row hrow

/-- The places of a row are those of its pixels, one by one. -/
theorem place_of_mem {row column dx sx : Int}
    (h : w ∈ (copyRowWrites act pixels row n column dx sx).list) :
    0 ≤ sx ∧ ∃ c : Nat, c < n ∧ w.place = dx + c ∧ w.pixel = some (row, column + c) ∧
    sx + c < pixels.1 := by
  induction n generalizing column dx sx with
  | zero => simp [copyRowWrites] at h
  | succ n ih =>
    rw [copyRowWrites] at h
    split at h
    · rename_i hin
      refine ⟨hin.1, ?_⟩
      have hlater (h : w ∈ (copyRowWrites act pixels row n (column + 1) (dx + 1) (sx + 1)).list) :
          ∃ c : Nat, c < n + 1 ∧ w.place = dx + c ∧ w.pixel = some (row, column + c) ∧
            sx + c < pixels.1 := by
        obtain ⟨-, c, hc, hplace, hpixel, hhigh⟩ := ih h
        have hcolumn : column + 1 + c = column + (c + 1 : Nat) := by push_cast; ring
        exact ⟨c + 1, by omega, by push_cast; omega, by rw [hpixel, hcolumn], by push_cast; omega⟩
      split at h
      · exact hlater h
      · obtain rfl | h := List.mem_cons.mp h
        · exact ⟨0, by omega, by simp, by simp, by simpa using hin.2⟩
        · exact hlater h
    · simp at h

theorem uncut_of {row column dx sx : Int} (hlow : 0 ≤ sx) (hhigh : sx + n ≤ pixels.1) :
    (copyRowWrites act pixels row n column dx sx).cut = false := by
  induction n generalizing column dx sx with
  | zero => rfl
  | succ n ih =>
    have hrest : (copyRowWrites act pixels row n (column + 1) (dx + 1) (sx + 1)).cut = false := by
      apply ih
      · omega
      · push_cast at hhigh
        omega
    rw [copyRowWrites, if_pos (by omega)]
    split
    · exact hrest
    · exact hrest

/-- Pixels that are all painted. -/
def solid : Nat × (Int → Byte) := (2 ^ 31 - 1, fun _ => 0)

theorem first_mem {row column dx sx : Int} (hn : 0 < n) (hlow : 0 ≤ sx) (hhigh : sx < 2 ^ 31 - 1) :
    ⟨dx, 1, some (row, column)⟩ ∈ (copyRowWrites (fun _ => 1) solid row n column dx sx).list := by
  obtain ⟨n, rfl⟩ : ∃ m, n = m + 1 := ⟨n - 1, by omega⟩
  rw [copyRowWrites, if_pos ⟨hlow, by simpa [solid] using hhigh⟩, if_neg (by decide)]
  exact List.mem_cons_self

end

section

variable {s : Screen} {frame : GifFrameData} {source : Source} {line : Int}

/-- The first place of a line above the bottom edge is an int, and so is the end of the line. -/
theorem line_bounds (hs : s.Sized source)
    (hframe : Rectangle source frame.ix frame.iy frame.iw frame.ih) (hline : 0 ≤ line)
    (hbottom : line + frame.iy < s.height) :
    -2 ^ 30 ≤ (line + frame.iy) * s.width ∧
    (0 < s.width → (line + frame.iy) * s.width + s.width < 2 ^ 31) ∧
      (s.width ≤ 0 → (line + frame.iy) * s.width ≤ 2 ^ 30 ∧
        0 ≤ (line + frame.iy) * s.width + s.width) ∧
        (source = .rawData → (line + frame.iy) * s.width ≤ 2 ^ 30) := by
  have hwidth := hs.width
  have hheight := hs.height
  have htop := hframe.top
  have hnonneg := hs.nonneg
  have hlt := hs.lt
  generalize hy : line + frame.iy = y at *
  have hylow : frame.iy ≤ y := by omega
  refine ⟨?_, ?_, ?_, ?_⟩
  · cases source <;> simp only [IsShort] at hwidth hheight htop <;> nlinarith
  · intro hpos
    nlinarith
  · intro hneg
    cases source <;> simp only [IsShort] at hwidth hheight htop <;> constructor <;> nlinarith
  · rintro rfl
    simp only [IsShort] at hwidth hheight htop
    nlinarith

/-- Of a row that has pixels: those on the canvas, or none, or too many where its start is no int.
-/
theorem span_cases (hs : s.Sized source)
    (hframe : Rectangle source frame.ix frame.iy frame.iw frame.ih) (hline : 0 ≤ line)
    (hbottom : line + frame.iy < s.height) (hiw : 0 < frame.iw) {m : Int}
    (hm : (line + frame.iy) * s.width + frame.ix = m) :
    (frame.ix < s.width → m + frame.iw < 2 ^ 31 →
        (s.span frame line).1 = m ∧ ((s.span frame line).2 : Int) =
          min (s.width - frame.ix) frame.iw) ∧
      (frame.ix < s.width → 2 ^ 31 ≤ m + frame.iw → (s.span frame line).2 = 0) ∧
      (s.width ≤ frame.ix → m < 2 ^ 31 → (s.span frame line).2 = 0) ∧
      (s.width ≤ frame.ix → 2 ^ 31 ≤ m → (s.span frame line).1 < 0 ∧ 0 < (s.span frame line).2 ∧
        ((s.span frame line).2 : Int) ≤ frame.iw) := by
  obtain ⟨hlow, hright, hleft, -⟩ := line_bounds hs hframe hline hbottom
  have hw := hs.width.bounds
  have hix := hframe.left.bounds
  have hiw' := hframe.width.bounds
  simp only [Screen.span]
  generalize (line + frame.iy) * s.width = k at *
  have hk : int k = k := by
    apply int_eq <;> omega
  have hend : int (k + s.width) = k + s.width := by
    apply int_eq <;> omega
  obtain ⟨q, hq, hqbounds⟩ := int_add (k + frame.ix)
  obtain ⟨r, hr, hrbounds⟩ := int_add (int (k + frame.ix) + frame.iw)
  rw [hk, hend]
  generalize int (int (k + frame.ix) + frame.iw) = dlim at *
  generalize int (k + frame.ix) = dx at *
  refine ⟨?_, ?_, ?_, ?_⟩
  · intro hin hint
    constructor
    · omega
    · split <;> omega
  · intro hin hint
    split <;> omega
  · intro hout hint
    split <;> omega
  · intro hout hint
    refine ⟨?_, ?_, ?_⟩
    · omega
    · split <;> omega
    · split <;> omega

/-- A row without pixels takes none. -/
theorem span_none (hs : s.Sized source)
    (hframe : Rectangle source frame.ix frame.iy frame.iw frame.ih) (hline : 0 ≤ line)
    (hbottom : line + frame.iy < s.height) (hih : 0 ≤ frame.ih) (hiw : frame.iw ≤ 0) :
    (s.span frame line).2 = 0 := by
  obtain ⟨hlow, hright, hleft, hraw⟩ := line_bounds hs hframe hline hbottom
  have hw := hs.width.bounds
  have hix := hframe.left.bounds
  have hiw' := hframe.width.bounds
  have hended := hframe.ended
  have hraw : frame.iw < 0 → (line + frame.iy) * s.width ≤ 2 ^ 30 := by
    intro hneg
    cases source with
    | stream => exact absurd (hended rfl hneg) hih.not_gt
    | rawData => exact hraw rfl
  simp only [Screen.span]
  generalize (line + frame.iy) * s.width = k at *
  have hk : int k = k := by
    apply int_eq <;> omega
  obtain ⟨q, hq, hqbounds⟩ := int_add (k + frame.ix)
  obtain ⟨r, hr, hrbounds⟩ := int_add (int (k + frame.ix) + frame.iw)
  rw [hk]
  split <;> omega

theorem span_le (hs : s.Sized source)
    (hframe : Rectangle source frame.ix frame.iy frame.iw frame.ih) (hline : 0 ≤ line)
    (hbottom : line + frame.iy < s.height) (hiw : 0 < frame.iw) :
    ((s.span frame line).2 : Int) ≤ frame.iw := by
  obtain ⟨hon, hlong, hbehind, hfar⟩ := span_cases hs hframe hline hbottom hiw rfl
  by_cases hin : frame.ix < s.width
  · by_cases hint : (line + frame.iy) * s.width + frame.ix + frame.iw < 2 ^ 31
    · have := (hon hin hint).2
      omega
    · have := hlong hin (by omega)
      omega
  · by_cases hint : (line + frame.iy) * s.width + frame.ix < 2 ^ 31
    · have := hbehind (by omega) hint
      omega
    · exact (hfar (by omega) (by omega)).2.2

end

section

variable {frame : GifFrameData} {i line : Nat}

/-- The line that a row is painted on is its own. -/
theorem own_line (hpainted : frame.paintedLines[i]? = some line) :
    (lines frame.interlace frame.ih.toNat)[i]? = some line ↔ i = 0 ∨ ¬ frame.Strays := by
  by_cases hstrays : frame.Strays
  · obtain ⟨hinterlace, hlow, hhigh⟩ := id hstrays
    have hlt : i < frame.ih.toNat := by
      rw [← length_paintedLines]
      exact (List.getElem?_eq_some_iff.mp hpainted).1
    rw [GifFrameData.paintedLines, if_pos hstrays] at hpainted
    simp only [hstrays, not_true, or_false, hinterlace]
    obtain ⟨n, hn⟩ : ∃ n, frame.ih.toNat = n := ⟨_, rfl⟩
    have hrange : n = 2 ∨ n = 3 ∨ n = 4 := by omega
    rw [hn] at hpainted hlt ⊢
    obtain rfl | rfl | rfl := hrange
    all_goals
      interval_cases i <;> obtain rfl := Option.some.inj hpainted <;> decide
  · rw [GifFrameData.paintedLines, if_neg hstrays] at hpainted
    exact iff_of_true hpainted (.inr hstrays)

variable {s : Screen} {source : Source} {act : Table} {pixels : Nat × (Int → Byte)} {w : Write}

theorem paintRowWrites_eq (hbottom : (line : Int) + frame.iy < s.height) :
    s.paintRowWrites frame act pixels i line =
    copyRowWrites act pixels i (s.span frame line).2 0 (s.span frame line).1 (int (i * frame.iw)) :=
  if_pos hbottom

theorem paintRowWrites_below (hbottom : ¬ (line : Int) + frame.iy < s.height) :
    s.paintRowWrites frame act pixels i line = ⟨[], false⟩ :=
  if_neg hbottom

theorem row_lt (hpainted : frame.paintedLines[i]? = some line) : (i : Int) < frame.ih := by
  have hlt := (List.getElem?_eq_some_iff.mp hpainted).1
  rw [length_paintedLines] at hlt
  omega

/-- A row that fits is painted right. -/
theorem right_of_fits (hs : s.Sized source)
    (hframe : Rectangle source frame.ix frame.iy frame.iw frame.ih)
    (hpainted : frame.paintedLines[i]? = some line) (hpixels : pixels.1 < 2 ^ 31)
    (hfits : s.RowsFit frame)
    (hw : w ∈ (s.paintRowWrites frame act pixels i line).list) : s.Right frame w := by
  have hlt := row_lt hpainted
  have hline : (0 : Int) ≤ line := Int.natCast_nonneg line
  by_cases hbottom : (line : Int) + frame.iy < s.height
  · rw [paintRowWrites_eq hbottom] at hw
    obtain ⟨hsx, c, hc, hplace, hpixel, hdata⟩ := place_of_mem hw
    by_cases hiw : 0 < frame.iw
    · have hreached : i * frame.iw < 2 ^ 31 - 1 := by
        have hih := hframe.height.bounds
        have hiw' := hframe.width.bounds
        have hproduct : (i : Int) * frame.iw < 2 ^ 32 := by nlinarith
        have hproduct' : 0 ≤ (i : Int) * frame.iw := by positivity
        obtain ⟨q, hq, hqbounds⟩ := int_add (i * frame.iw)
        omega
      obtain ⟨hon, hlong, hbehind, -⟩ := span_cases hs hframe hline hbottom hiw rfl
      obtain ⟨hout, hint⟩ | ⟨hleft, hin, htop, hown⟩ | ⟨hin, hint⟩ :=
        hfits hiw i line hpainted hreached hbottom
      · have := hbehind hout hint
        omega
      · by_cases hint : ((line : Int) + frame.iy) * s.width + frame.ix + frame.iw < 2 ^ 31
        · obtain ⟨hstart, hcount⟩ := hon hin hint
          have hlow : 0 ≤ ((line : Int) + frame.iy) * s.width := mul_nonneg htop (by omega)
          have hhigh : ((line : Int) + frame.iy) * s.width + s.width ≤ s.width * s.height := by
            nlinarith
          constructor
          · rw [hs.size]
            omega
          · intro row column hrow
            obtain ⟨rfl, rfl⟩ : (i : Int) = row ∧ 0 + (c : Int) = column := by
              simpa [hpixel] using hrow
            exact ⟨line, (own_line hpainted).mpr hown, by omega, by omega, htop, hbottom, by omega⟩
        · have := hlong hin (by omega)
          omega
      · have := hlong hin hint
        omega
    · have := span_none hs hframe hline hbottom (by omega) (by omega)
      omega
  · rw [paintRowWrites_below hbottom] at hw
    cases hw

/-- The first pixel of a row tells whether the row fits. -/
theorem fits_of_first (hs : s.Sized source)
    (hframe : Rectangle source frame.ix frame.iy frame.iw frame.ih)
    (hpainted : frame.paintedLines[i]? = some line) (hbottom : (line : Int) + frame.iy < s.height)
    (hiw : 0 < frame.iw)
    (hfirst : 0 < (s.span frame line).2 → s.Right frame ⟨(s.span frame line).1, 1, some (i, 0)⟩) :
    s.RowFits frame i line := by
  have hline : (0 : Int) ≤ line := Int.natCast_nonneg line
  obtain ⟨hon, hlong, hbehind, hfar⟩ := span_cases hs hframe hline hbottom hiw rfl
  by_cases hin : frame.ix < s.width
  · by_cases hint : ((line : Int) + frame.iy) * s.width + frame.ix + frame.iw < 2 ^ 31
    · obtain ⟨hstart, hcount⟩ := hon hin hint
      obtain ⟨own, hown, hleft, -, htop, -, hplace⟩ := (hfirst (by omega)).pixel i 0 rfl
      have hsame : (line : Int) = own := by
        have hproduct : ((line : Int) + frame.iy) * s.width = (own + frame.iy) * s.width := by
          simp only at hplace
          omega
        have := mul_right_cancel₀ (by omega) hproduct
        omega
      obtain rfl : line = own := by exact_mod_cast hsame
      exact .inr (.inl ⟨by omega, hin, htop, (own_line hpainted).mp hown⟩)
    · exact .inr (.inr ⟨hin, by omega⟩)
  · by_cases hint : ((line : Int) + frame.iy) * s.width + frame.ix < 2 ^ 31
    · exact .inl ⟨by omega, hint⟩
    · obtain ⟨hneg, hpos, -⟩ := hfar (by omega) (by omega)
      have := (hfirst hpos).inside.1
      simp only at this
      omega

theorem rows_right (hs : s.Sized source)
    (hframe : Rectangle source frame.ix frame.iy frame.iw frame.ih)
    (hpixels : pixels.1 < 2 ^ 31) (hfits : s.RowsFit frame)
    (hw : w ∈ (s.paintRowsWrites frame act pixels frame.ih.toNat 0 ⟨1, 8, 0⟩).list) :
    s.Right frame w := by
  obtain ⟨row, hrow, hw⟩ := row_of_mem hw
  obtain ⟨i, hi⟩ := List.mem_iff_getElem?.mp hrow
  rw [painted_row, Option.map_eq_some_iff] at hi
  obtain ⟨line, hpainted, rfl⟩ := hi
  exact right_of_fits hs hframe hpainted hpixels hfits hw

theorem rowsFit_of_right (hs : s.Sized source)
    (hframe : Rectangle source frame.ix frame.iy frame.iw frame.ih)
    (h : ∀ w ∈ (s.paintRowsWrites frame (fun _ => 1) solid frame.ih.toNat 0 ⟨1, 8, 0⟩).list,
      s.Right frame w) :
    s.RowsFit frame := by
  intro hiw i line hpainted hreached hbottom
  apply fits_of_first hs hframe hpainted hbottom hiw
  intro hpos
  have hrow : (frame.rowsFrom frame.ih.toNat 0 ⟨1, 8, 0⟩)[i]? = some ((i : Int), (line : Int)) := by
    rw [painted_row, hpainted]
    rfl
  have hdata (j : Nat) (hj : j ≤ i) :
      0 ≤ (j : Int) * frame.iw ∧ (j : Int) * frame.iw ≤ i * frame.iw ∧
      int (j * frame.iw) = j * frame.iw := by
    have hlow : 0 ≤ (j : Int) * frame.iw := mul_nonneg (Int.natCast_nonneg j) hiw.le
    have hhigh : (j : Int) * frame.iw ≤ i * frame.iw := mul_le_mul_of_nonneg_right (by omega) hiw.le
    exact ⟨hlow, hhigh, int_eq (by omega) (by omega)⟩
  apply h
  apply mem_of_row hrow
  · -- the rows before it end before its pixels
    intro j hj row hrow
    rw [painted_row, Option.map_eq_some_iff] at hrow
    obtain ⟨line', hpainted', rfl⟩ := hrow
    by_cases hbottom' : (line' : Int) + frame.iy < s.height
    · have hle := span_le hs hframe (Int.natCast_nonneg line') hbottom' hiw
      obtain ⟨hlow, -, hint⟩ := hdata j hj.le
      have hnext := (hdata (j + 1) hj).2.1
      push_cast at hnext
      rw [add_mul, one_mul] at hnext
      rw [paintRowWrites_eq hbottom', hint]
      apply uncut_of hlow
      show _ ≤ ((2 ^ 31 - 1 : Nat) : Int)
      norm_num
      omega
    · rw [paintRowWrites_below hbottom']
  · obtain ⟨hlow, -, hint⟩ := hdata i le_rfl
    rw [paintRowWrites_eq hbottom, hint]
    exact first_mem hpos hlow hreached

end

/-- Where a row of the last rectangle starts, and how many places of it are filled. -/
def Screen.fillSpan (s : Screen) (i : Int) : Int × Nat :=
  let n1 := int ((s.lry + i) * s.width + s.lrx)
  (n1, (int (n1 + s.lrw) - n1).toNat)

section

variable {s : Screen} {frame : GifFrameData} {source : Source} {w : Write} {c : Color} {n : Nat}

theorem mem_fillRowWrites {k : Int} : w ∈ fillRowWrites c n k ↔ ∃ j :
    Nat, j < n ∧ w = ⟨k + j, c, none⟩ := by
  induction n generalizing k with
  | zero => simp [fillRowWrites]
  | succ n ih =>
    rw [fillRowWrites, List.mem_cons, ih]
    constructor
    · rintro (rfl | ⟨j, hj, rfl⟩)
      · exact ⟨0, by omega, by simp⟩
      · have hnext : k + 1 + j = k + (j + 1 : Nat) := by push_cast; ring
        exact ⟨j + 1, by omega, by rw [hnext]⟩
    · rintro ⟨j, hj, rfl⟩
      cases j with
      | zero => exact .inl (by simp)
      | succ j =>
        have hnext : k + (j + 1 : Nat) = k + 1 + j := by push_cast; ring
        exact .inr ⟨j, by omega, by rw [hnext]⟩

@[simp] theorem fillRowsWrites_succ (i : Int) : s.fillRowsWrites c (n + 1) i =
    fillRowWrites c (s.fillSpan i).2 (s.fillSpan i).1 ++ s.fillRowsWrites c n (i + 1) := rfl

theorem mem_fillRowsWrites {i : Int} : w ∈ s.fillRowsWrites c n i ↔
    ∃ j : Nat, j < n ∧ w ∈ fillRowWrites c (s.fillSpan (i + j)).2 (s.fillSpan (i + j)).1 := by
  induction n generalizing i with
  | zero => simp [Screen.fillRowsWrites]
  | succ n ih =>
    rw [fillRowsWrites_succ, List.mem_append, ih]
    constructor
    · rintro (hw | ⟨j, hj, hw⟩)
      · exact ⟨0, by omega, by simpa using hw⟩
      · have hnext : i + 1 + j = i + (j + 1 : Nat) := by push_cast; ring
        exact ⟨j + 1, by omega, by rwa [← hnext]⟩
    · rintro ⟨j, hj, hw⟩
      cases j with
      | zero => exact .inl (by simpa using hw)
      | succ j =>
        have hnext : i + (j + 1 : Nat) = i + 1 + j := by push_cast; ring
        exact .inr ⟨j, by omega, by rwa [← hnext]⟩

theorem fill_bounds (hwidth : IsShort source s.width)
    (hlast : Rectangle source s.lrx s.lry s.lrw s.lrh) {j : Nat}
    (hj : j < s.lrh) : -2 ^ 31 ≤ (s.lry + j) * s.width + s.lrx ∧
      (source = .rawData → -2 ^ 31 ≤ (s.lry + j) * s.width + s.lrx + s.lrw ∧
        (s.lry + j) * s.width + s.lrx < 2 ^ 31) := by
  have hleft := hlast.left
  have htop := hlast.top
  have hlrw := hlast.width
  have hheight := hlast.height
  have hlow : 0 ≤ (j : Int) := Int.natCast_nonneg j
  generalize (j : Int) = j at *
  obtain ⟨y, hy⟩ : ∃ y, s.lry + j = y := ⟨_, rfl⟩
  rw [hy]
  cases source with
  | stream =>
    simp only [IsShort] at hwidth hleft htop hlrw hheight
    have hproduct : -2 ^ 26 ≤ y * s.width := by
      obtain hneg | hpos := lt_or_ge s.width 0
      · nlinarith
      · nlinarith
    exact ⟨by omega, nofun⟩
  | rawData =>
    simp only [IsShort] at hwidth hleft htop hlrw hheight
    have hproduct : -2 ^ 31 + 2 ^ 16 ≤ y * s.width ∧ y * s.width < 2 ^ 31 - 2 ^ 15 := by
      obtain hneg | hpos := lt_or_ge s.width 0
      · constructor <;> nlinarith
      · constructor <;> nlinarith
    exact ⟨by omega, fun _ => ⟨by omega, by omega⟩⟩

theorem fillSpan_none (hwidth : IsShort source s.width)
    (hlast : Rectangle source s.lrx s.lry s.lrw s.lrh) {j : Nat}
    (hj : j < s.lrh) (hlrw : s.lrw ≤ 0) : (s.fillSpan j).2 = 0 := by
  obtain ⟨-, hraw⟩ := fill_bounds hwidth hlast hj
  have hended := hlast.ended
  have hw := hlast.width.bounds
  have hraw : s.lrw < 0 →
      -2 ^ 31 ≤ (s.lry + j) * s.width + s.lrx + s.lrw ∧ (s.lry + j) * s.width + s.lrx < 2 ^ 31 := by
    intro hneg
    cases source with
    | stream =>
      have := hended rfl hneg
      omega
    | rawData => exact hraw rfl
  simp only [Screen.fillSpan]
  generalize (s.lry + j) * s.width + s.lrx = v at *
  obtain ⟨q, hq, hqbounds⟩ := int_add v
  obtain ⟨r, hr, hrbounds⟩ := int_add (int v + s.lrw)
  omega

/-- The places of a row of the rectangle whose start is an int. -/
theorem fillSpan_of_lt {j v : Int} (hv : (s.lry + j) * s.width + s.lrx = v) (hlow : -2 ^ 31 ≤ v)
    (hhigh : v < 2 ^ 31)
    (hlrw : 0 < s.lrw) (hlrw' : s.lrw < 2 ^ 16) :
    (s.fillSpan j).1 = v ∧ (s.fillSpan j).2 = if v + s.lrw < 2 ^ 31 then s.lrw.toNat else 0 := by
  simp only [Screen.fillSpan, hv, int_eq hlow hhigh, true_and]
  obtain ⟨r, hr, hrbounds⟩ := int_add (v + s.lrw)
  split <;> omega

theorem fill_right (hs : s.Sized source) (hlast : Rectangle source s.lrx s.lry s.lrw s.lrh)
    (hfits : s.FillFits)
    (hw : w ∈ s.fillRowsWrites c s.lrh.toNat 0) : s.Right frame w := by
  obtain ⟨j, hj, hw⟩ := mem_fillRowsWrites.mp hw
  obtain ⟨k, hk, rfl⟩ := mem_fillRowWrites.mp hw
  have hlt := hs.lt
  have hw := hlast.width.bounds
  have hj : (j : Int) < s.lrh := by omega
  rw [zero_add] at hk ⊢
  refine ⟨?_, nofun⟩
  rw [hs.size]
  by_cases hlrw : 0 < s.lrw
  · have hlow := (fill_bounds hs.width hlast hj).1
    obtain hin | hfar := hfits hlrw j hj
    · obtain ⟨hstart, hcount⟩ := fillSpan_of_lt rfl hlow (by omega) hlrw (by omega)
      rw [if_pos (by omega)] at hcount
      simp only
      omega
    · obtain ⟨-, hcount⟩ := fillSpan_of_lt rfl hlow hfar.1 hlrw (by omega)
      rw [if_neg (by omega)] at hcount
      omega
  · have := fillSpan_none hs.width hlast hj (by omega)
    omega

/-- A row that would start behind the ints starts at a negative one. -/
theorem fill_start_lt {j : Int} (hlrw : 0 < s.lrw) (hlrw' : s.lrw < 2 ^ 16)
    (hright : ∀ w ∈ fillRowWrites c (s.fillSpan j).2 (s.fillSpan j).1, s.Right frame w)
    (hbelow : (s.lry + j) * s.width + s.lrx < 2 ^ 32) : (s.lry + j) * s.width + s.lrx < 2 ^ 31 := by
  by_contra hlarge
  have hspan : (s.fillSpan j).1 < 0 ∧ 0 < (s.fillSpan j).2 := by
    simp only [Screen.fillSpan]
    generalize (s.lry + j) * s.width + s.lrx = v at *
    obtain ⟨q, hq, hqbounds⟩ := int_add v
    obtain ⟨r, hr, hrbounds⟩ := int_add (int v + s.lrw)
    omega
  have hfirst := (hright _ (mem_fillRowWrites.mpr ⟨0, hspan.2, rfl⟩)).inside.1
  simp only at hfirst
  omega

theorem fillFits_of_right (hs : s.Sized source) (hlast : Rectangle source s.lrx s.lry s.lrw s.lrh)
    (h : ∀ w ∈ s.fillRowsWrites c s.lrh.toNat 0, s.Right frame w) : s.FillFits := by
  intro hlrw j hj
  have hwidth := hs.width.bounds
  have hw := hlast.width.bounds
  have hrow (j : Nat) (hj : j < s.lrh) : ∀ w ∈ fillRowWrites c (s.fillSpan j).2 (s.fillSpan j).1,
      s.Right frame w := by
    intro w hw
    apply h
    exact mem_fillRowsWrites.mpr ⟨j, by omega, by rwa [zero_add]⟩
  -- one row starts less than 2 ^ 16 places behind the last
  have hstart : (s.lry + j) * s.width + s.lrx < 2 ^ 31 := by
    induction j with
    | zero =>
      apply fill_start_lt hlrw (by omega) (hrow 0 hj)
      have hleft := hlast.left.bounds
      have htop := hlast.top.bounds
      rw [Nat.cast_zero, add_zero]
      nlinarith
    | succ j ih =>
      have hbefore := ih (by omega)
      apply fill_start_lt hlrw (by omega) (hrow (j + 1) hj)
      have hnext : (s.lry + (j + 1 : Nat)) * s.width = (s.lry + j) * s.width + s.width := by
        push_cast; ring
      omega
  have hlow := (fill_bounds hs.width hlast hj).1
  obtain ⟨hplace, hcount⟩ := fillSpan_of_lt rfl hlow hstart hlrw (by omega)
  by_cases hend : (s.lry + j) * s.width + s.lrx + s.lrw < 2 ^ 31
  · rw [if_pos hend] at hcount
    have hfirst := (hrow j hj _ (mem_fillRowWrites.mpr ⟨0, by omega, rfl⟩)).inside
    have hlast := (hrow j hj _ (mem_fillRowWrites.mpr ⟨s.lrw.toNat - 1, by omega, rfl⟩)).inside
    rw [hs.size] at hfirst hlast
    simp only at hfirst hlast
    omega
  · exact .inr ⟨hstart, by omega⟩

end

section

variable {s : Screen} {frame : GifFrameData} {source : Source}

theorem recall_fills (s : Screen) : s.recall.fills ↔ s.fills := by
  by_cases h : s.lastDispose = 3
  · have hnot : ¬ s.fills := fun hfills => absurd (h.symm.trans hfills.1) (by decide)
    obtain ⟨last, hrecall⟩ := recall_eq s
    refine iff_of_false (fun hfills => ?_) hnot
    rw [hrecall] at hfills
    exact absurd (h.symm.trans hfills.1) (by decide)
  · rw [recall_of_ne h]

/-- The writes of a sized screen are right if and only if the rectangles fit. -/
theorem writes_right_iff (hs : s.Sized source) (hlast : Rectangle source s.lrx s.lry s.lrw s.lrh)
    (hframe : Rectangle source frame.ix frame.iy frame.iw frame.ih) :
    (∀ act pixels, pixels.1 < 2 ^ 31 → ∀ w ∈ (s.writes frame act pixels).list, s.Right frame w) ↔
      (s.fills → s.FillFits) ∧ s.RowsFit frame := by
  constructor
  · intro h
    have hsolid := h (fun _ => 1) solid (by decide)
    constructor
    · intro hfills
      apply fillFits_of_right hs hlast
      intro w hw
      apply hsolid
      apply mem_append_left
      rw [Screen.startingWrites, if_pos hfills]
      exact hw
    · apply rowsFit_of_right hs hframe
      intro w hw
      apply hsolid
      exact mem_append_right rfl hw
  · rintro ⟨hfill, hrows⟩ act pixels hpixels w hw
    obtain hw | hw := mem_append hw
    · rw [Screen.startingWrites] at hw
      split at hw
      · rename_i hfills
        exact fill_right hs hlast (hfill hfills) hw
      · cases hw
    · exact rows_right hs hframe hpixels hrows hw

/-- `setPixels` writes right if and only if there is no array, or the rectangles fit. -/
theorem writesRight_iff (hwidth : IsShort source s.width) (hheight : IsShort source s.height)
    (hlast : Rectangle source s.lrx s.lry s.lrw s.lrh)
    (hframe : Rectangle source frame.ix frame.iy frame.iw frame.ih) :
    s.WritesRight frame ↔ s.Fits frame := by
  rw [Screen.WritesRight, Screen.Fits]
  by_cases hnone : int (s.width * s.height) < 0
  · have hempty (act : Table) (pixels : Nat × (Int → Byte)) :
        s.allWrites frame act pixels = [] := if_pos hnone
    simp [hempty, hnone]
  · have hs : s.Sized source := sized_of hwidth hheight hnone
    have hall (act : Table) (pixels : Nat × (Int → Byte)) :
        s.allWrites frame act pixels = (s.recall.writes frame act pixels).list :=
      if_neg hnone
    have hfills := recall_fills s
    simp only [hall, hnone, false_or]
    -- recalling an image changes nothing else
    obtain ⟨last, hrecall⟩ := recall_eq s
    have hiff := @writes_right_iff { s with lastImage := last } frame source
      ⟨hs.width, hs.height, hs.nonneg, hs.lt⟩ hlast hframe
    rw [← hrecall, hfills, hrecall] at hiff
    rw [hrecall]
    constructor
    · intro h
      exact hiff.mp fun act pixels hpixels w hw =>
        ⟨(h act pixels hpixels w hw).inside, (h act pixels hpixels w hw).pixel⟩
    · intro h act pixels hpixels w hw
      have hright := hiff.mpr h act pixels hpixels w hw
      exact ⟨hright.inside, hright.pixel⟩

/-- A screen behind a first image of this size, which is to be cleared. -/
def clearing (width height lrw lrh : Int) : Screen where
  width := width
  height := height
  bgColor := 0
  lastBgColor := 0
  image := some ⟨width, height, fun _ => 0⟩
  lrx := 0
  lry := 0
  lrw := lrw
  lrh := lrh
  lastImage := some ⟨width, height, fun _ => 0⟩
  lastDispose := 2
  frameCount := 2
  frames := []

/-- A frame of one pixel. -/
def onePixel (ix iy : Int) : GifFrameData :=
  { newFrameData with ix := ix, iy := iy, iw := 1, ih := 1 }

theorem writesRight_iff_corner :
    (clearing 2 2 1 1).WritesRight (onePixel 1 1) ↔ (clearing 2 2 1 1).Fits (onePixel 1 1) := by
  have hfour : IsShort .stream 4 :=
    (readShort_short (rfl : readShort ⟨.stream, [4, 0], false⟩ = .ok (4, ⟨.stream, [], false⟩))).1
  -- a screen of four by four, scaled down to half of it
  have hscreen : IsShort .stream 2 ∧ IsShort .stream 2 :=
    screenSize_short hfour hfour (by decide : screenSize 2 (-1) 4 4 = some (2, 2))
  have hlast : Rectangle .stream 0 0 1 1 := readDescriptor_rectangle
    (rfl : readDescriptor newFrameData ⟨.stream, [0, 0, 0, 0, 1, 0, 1, 0, 0], false⟩ =
      .ok ({ onePixel 0 0 with lctSize := 2 }, ⟨.stream, [], false⟩))
  have hcorner : Rectangle .stream 1 1 1 1 := readDescriptor_rectangle
    (rfl : readDescriptor newFrameData ⟨.stream, [1, 0, 1, 0, 1, 0, 1, 0, 0], false⟩ =
      .ok ({ onePixel 1 1 with lctSize := 2 }, ⟨.stream, [], false⟩))
  exact @writesRight_iff (clearing 2 2 1 1) (onePixel 1 1) .stream hscreen.1 hscreen.2 hlast hcorner

/-- An image of four by four is cleared on a screen scaled down to two by two, and a pixel to the
left
of the screen is painted at the right edge of the line above. -/
theorem writes_astray : screenSize 2 (-1) 4 4 = some (2, 2) ∧
    ¬ (clearing 2 2 4 4).WritesRight (onePixel 0 0) ∧
    ¬ (clearing 2 2 1 1).WritesRight (onePixel (-1) 1) := by
  refine ⟨by decide, fun h => ?_, fun h => ?_⟩
  · have hmem : ⟨4, 0, none⟩ ∈ (clearing 2 2 4 4).allWrites (onePixel 0 0) (fun _ => 1) solid := by
      apply mem_append_left
      show (⟨4, 0, none⟩ : Write) ∈ (clearing 2 2 4 4).fillRowsWrites 0 4 0
      decide
    have hinside := (h _ solid (by decide) _ hmem).inside
    exact absurd hinside (by decide)
  · have hmem : ⟨1, 1, some (0, 0)⟩ ∈ (clearing 2 2 1 1).allWrites (onePixel (-1) 1)
        (fun _ => 1) solid := by
      apply mem_append_right rfl
      apply mem_append_left
      exact List.mem_cons_self
    obtain ⟨line, -, hleft, -⟩ := (h _ solid (by decide) _ hmem).pixel 0 0 rfl
    exact absurd hleft (by decide)

end

end BaseGifDecoder
