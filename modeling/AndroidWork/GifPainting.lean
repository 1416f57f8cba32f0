import AndroidWork.Compositing
import AndroidWork.GifFileModes

/-!
# What BaseGifDecoder paints

An image of a GIF as a layer: its rows are for lines in order or, interlaced, in
four passes. The loops of `setPixels` paint this layer on the canvas.
-/
namespace BaseGifDecoder

open Compositing (Canvas Rect Layer)
open GifFile (int_eq int_bounds)
open GifLzwDecoder (Byte)

/-- The lines of one pass. -/
def passLines (height start step : Nat) : List Nat :=
  List.range' start ((height - start + step - 1) / step) step

/-- The line that each row of the data is for. -/
def lines (interlace : Bool) (height : Nat) : List Nat :=
  if interlace then passLines height 0 8 ++
    (passLines height 4 8 ++ (passLines height 2 4 ++ passLines height 1 2))
  else List.range height

/-- The destination holds a canvas, line after line. -/
def Depicts (s : Screen) (dest : Int → Color) (c : Canvas Color) : Prop :=
  ∀ x y, 0 ≤ x → x < s.width → 0 ≤ y → y < s.height → dest (y * s.width + x) = c x y

/-- A colour that is not painted when it is 0. -/
def overlay (c under : Color) : Color := if c = 0 then under else c

/-- A row of `n` pixels painted from `dx` on. -/
def copied (act : Table) (pixels : Int → Byte) (n : Nat) (dx sx : Int) (dest : Int → Color) :
    Int → Color := fun j =>
  if dx ≤ j ∧ j < dx + n then overlay (act (pixels (sx + (j - dx))).toNat) (dest j) else dest j

section Rows

variable {act : Table} {pixels : Nat × (Int → Byte)} {size : Int}

theorem copied_succ (n : Nat) (dx sx : Int) (dest : Int → Color) :
    copied act pixels.2 n (dx + 1) (sx + 1)
    (Function.update dest dx (overlay (act (pixels.2 sx).toNat) (dest dx))) =
      copied act pixels.2 (n + 1) dx sx dest := by
  funext j
  have hstep : sx + 1 + (j - (dx + 1)) = sx + (j - dx) := by omega
  simp only [copied, hstep]
  by_cases hj : j = dx
  · subst hj
    rw [if_neg (by omega), if_pos (by omega)]
    simp
  · rw [Function.update_of_ne hj]
    exact if_congr (by omega) rfl rfl

theorem copyRow_eq (n : Nat) (dx sx : Int) (dest : Int → Color) (hdx : 0 ≤ dx)
    (hdlim : 0 < n → dx + n ≤ size) (hsx : 0 ≤ sx)
    (hslim : 0 < n → sx + n ≤ pixels.1) :
    copyRow act pixels size n dx sx dest = .ok (copied act pixels.2 n dx sx dest) := by
  induction n generalizing dx sx dest with
  | zero =>
    have hnone : copied act pixels.2 0 dx sx dest = dest := by
      funext j
      apply if_neg
      omega
    rw [hnone]
    rfl
  | succ n ih =>
    have hin : 0 ≤ sx ∧ sx < pixels.1 := by omega
    have hout : 0 ≤ dx ∧ dx < size := by omega
    rw [copyRow, if_pos hin, ← copied_succ]
    by_cases hcolor : act (pixels.2 sx).toNat = 0
    · rw [if_pos hcolor, ih (dx + 1) (sx + 1) dest (by omega) (by omega) (by omega) (by omega)]
      simp [overlay, hcolor]
    · have hpaint : overlay (act (pixels.2 sx).toNat) (dest dx) = act (pixels.2 sx).toNat :=
        if_neg hcolor
      rw [if_neg hcolor, if_pos hout, hpaint]
      apply ih <;> omega

end Rows

/-- The canvas has an array, and the frame's numbers are 16 bits wide. -/
structure Room (s : Screen) (frame : GifFrameData) (pixels : Nat × (Int → Byte)) : Prop where
  width : 0 < s.width
  height : 0 < s.height
  size : s.width * s.height + 2 ^ 17 ≤ 2 ^ 31
  ix : 0 ≤ frame.ix ∧ frame.ix < 2 ^ 16
  iy : 0 ≤ frame.iy
  iw : 0 ≤ frame.iw ∧ frame.iw < 2 ^ 16
  ih : 0 ≤ frame.ih
  data : frame.iw * frame.ih < 2 ^ 31
  pixels : frame.iw * frame.ih ≤ pixels.1

/-- Row `i` of the data, painted on a line of the frame. -/
def paintLine (frame : GifFrameData) (act : Table) (pixels : Int → Byte) (i line : Nat)
    (c : Canvas Color) : Canvas Color :=
  fun x y =>
    if frame.ix ≤ x ∧ x < frame.ix + frame.iw ∧ y = frame.iy + line then
      overlay (act (pixels (i * frame.iw + (x - frame.ix))).toNat) (c x y)
    else c x y

theorem line_unique {w x y z : Int} (hx : 0 ≤ x) (hxw : x < w) (hlow : z * w ≤ y * w + x)
    (hhigh : y * w + x < z * w + w) :
    y = z := by
  have hw : 0 < w := by omega
  have hyz : y < z + 1 := by
    apply lt_of_mul_lt_mul_right _ hw.le
    rw [add_mul, one_mul]
    omega
  have hzy : z < y + 1 := by
    apply lt_of_mul_lt_mul_right _ hw.le
    rw [add_mul, one_mul]
    omega
  omega

section Lines

variable {s : Screen} {frame : GifFrameData} (act : Table) {pixels : Nat × (Int → Byte)}
    {dest : Int → Color} {c : Canvas Color}

theorem paintRow_depicts (room : Room s frame pixels) (h : Depicts s dest c) {i : Nat}
    (hi : i < frame.ih) (line : Nat) :
    ∃ dest', s.paintRow frame act pixels (s.width * s.height) i line dest = .ok dest' ∧
      Depicts s dest' (paintLine frame act pixels.2 i line c) := by
  have hwidth := room.width
  have hsize := room.size
  have hix := room.ix
  have hiy := room.iy
  have hiw := room.iw
  by_cases hline : (line : Int) + frame.iy < s.height
  · have hk : ((line : Int) + frame.iy) * s.width + s.width ≤ s.width * s.height := by
      calc ((line : Int) + frame.iy) * s.width + s.width =
          ((line : Int) + frame.iy + 1) * s.width := by ring
        _ ≤ s.height * s.width := mul_le_mul_of_nonneg_right (by omega) hwidth.le
        _ = s.width * s.height := mul_comm _ _
    have hk0 : 0 ≤ ((line : Int) + frame.iy) * s.width := mul_nonneg (by omega) hwidth.le
    have hrow : (i : Int) * frame.iw + frame.iw ≤ frame.iw * frame.ih := by
      calc (i : Int) * frame.iw + frame.iw = (i + 1) * frame.iw := by ring
        _ ≤ frame.ih * frame.iw := mul_le_mul_of_nonneg_right (by omega) hiw.1
        _ = frame.iw * frame.ih := mul_comm _ _
    have hrow0 : 0 ≤ (i : Int) * frame.iw := mul_nonneg (by omega) hiw.1
    have hdata := room.data
    have hpixels := room.pixels
    rw [Screen.paintRow, if_pos hline]
    generalize hkdef : ((line : Int) + frame.iy) * s.width = k at *
    generalize hsxdef : (i : Int) * frame.iw = sx at *
    -- no number overflows
    have hints : int k = k ∧ int (k + frame.ix) = k + frame.ix ∧ int (k + s.width) = k + s.width ∧
        int (k + frame.ix + frame.iw) = k + frame.ix + frame.iw ∧ int sx = sx := by
      refine ⟨?_, ?_, ?_, ?_, ?_⟩ <;> apply int_eq <;> omega
    simp only [hints]
    obtain ⟨n, hn⟩ : ∃ n, ((if k + s.width < k + frame.ix + frame.iw then
      k + s.width else k + frame.ix + frame.iw) -
        (k + frame.ix)).toNat = n := ⟨_, rfl⟩
    have hlim : (n : Int) = max 0 (min (s.width - frame.ix) frame.iw) := by
      rw [← hn]
      split <;> omega
    rw [hn, copyRow_eq n _ _ dest (by omega) (by omega) hrow0 (by omega)]
    refine ⟨_, rfl, fun x y hx hxw hy hyh => ?_⟩
    simp only [copied, paintLine, hsxdef]
    by_cases hin : frame.ix ≤ x ∧ x < frame.ix + frame.iw ∧ y = frame.iy + line
    · have hplace : y * s.width + x = k + x := by
        rw [hin.2.2, add_comm frame.iy, hkdef]
      have hcolumn : sx + (k + x - (k + frame.ix)) = sx + (x - frame.ix) := by omega
      rw [if_pos hin, ← h x y hx hxw hy hyh, hplace, if_pos (by omega), hcolumn]
    · rw [if_neg hin, ← h x y hx hxw hy hyh]
      apply if_neg
      rintro ⟨hlow, hhigh⟩
      have hy : y = line + frame.iy := by
        apply line_unique hx hxw <;> omega
      have hplace : y * s.width + x = k + x := by
        rw [hy, hkdef]
      omega
  · rw [Screen.paintRow, if_neg hline]
    refine ⟨dest, rfl, fun x y hx hxw hy hyh => ?_⟩
    rw [paintLine, if_neg (by omega)]
    exact h x y hx hxw hy hyh

/-- The lines that the rows from `i` on are painted on. -/
def Runs (frame : GifFrameData) : Int → Pass → List Nat → Prop
  | _, _, [] => True
  | i, p, line :: lines =>
    (frame.lineOf i p).1 = line ∧ Runs frame (i + 1) (frame.lineOf i p).2 lines

def paintLines (frame : GifFrameData) (act : Table) (pixels : Int → Byte) :
    Nat → List Nat → Canvas Color → Canvas Color
  | _, [], c => c
  | i, line :: lines, c =>
    paintLines frame act pixels (i + 1) lines (paintLine frame act pixels i line c)

theorem paintRows_depicts (room : Room s frame pixels) {i : Nat} {p : Pass} {L : List Nat}
    (hruns : Runs frame i p L)
    (hlen : ((i + L.length : Nat) : Int) ≤ frame.ih) (h : Depicts s dest c) :
    ∃ dest', s.paintRows frame act pixels (s.width * s.height) L.length i p dest = .ok dest' ∧
      Depicts s dest' (paintLines frame act pixels.2 i L c) := by
  induction L generalizing i p dest c with
  | nil => exact ⟨dest, rfl, h⟩
  | cons line L ih =>
    obtain ⟨hline, hrest⟩ := hruns
    rw [List.length_cons] at hlen
    obtain ⟨dest', hrow, h'⟩ := paintRow_depicts act room h (by omega : (i : Int) < frame.ih) line
    obtain ⟨dest'', hrows, h''⟩ := ih (i := i + 1) hrest (by omega) h'
    exact ⟨dest'', by rw [List.length_cons, Screen.paintRows, hline,
      hrow, ok_bind]; exact hrows, h''⟩

end Lines

section Order

variable {frame : GifFrameData} {n : Nat}

theorem runs_range' (h : frame.interlace = false) (m i : Nat) (p : Pass) :
    Runs frame i p (List.range' i m) := by
  induction m generalizing i p with
  | zero => trivial
  | succ m ih =>
    have hline : frame.lineOf i p = ((i : Int), p) := by simp [GifFrameData.lineOf, h]
    simp only [List.range'_succ, Runs, hline, true_and]
    exact ih (i + 1) p

theorem turn_of_lt {p : Pass} {ih : Int} (h : p.iline < ih) : p.turn ih = p := if_neg h.not_ge

/-- The lines of a pass, and those behind it. -/
theorem runs_pass (h : frame.interlace = true) {pass : Int} {inc : Nat} {rest : List Nat} (m : Nat)
    {i : Int} {line : Nat}
    (hin : ∀ j < m, ((line + inc * j : Nat) : Int) < frame.ih)
    (hrest : Runs frame (i + m) ⟨pass, inc, (line + inc * m : Nat)⟩ rest) :
    Runs frame i ⟨pass, inc, line⟩ (List.range' line m inc ++ rest) := by
  induction m generalizing i line with
  | zero => simpa using hrest
  | succ m ih =>
    have hfirst : ((line : Nat) : Int) < frame.ih := by simpa using hin 0 (Nat.succ_pos m)
    have hline : frame.lineOf i ⟨pass, inc, line⟩ =
        ((line : Int), ⟨pass, inc, (line + inc : Nat)⟩) := by
      simp [GifFrameData.lineOf, h, turn_of_lt (p := ⟨pass, inc, line⟩) hfirst]
    rw [List.range'_succ, List.cons_append]
    refine ⟨by rw [hline], ?_⟩
    rw [hline]
    apply ih
    · intro j hj
      have := hin (j + 1) (Nat.succ_lt_succ hj)
      rwa [show line + inc + inc * j = line + inc * (j + 1) by ring]
    · rw [show line + inc + inc * m = line + inc * (m + 1) by
        ring, show i + 1 + m = i + (m + 1 : Nat) by push_cast; ring]
      exact hrest

/-- A pass that is over gives way to the next one, which has a line. -/
theorem runs_turn (h : frame.interlace = true) {i : Int} {p : Pass} {rest : List Nat}
    (hline : (p.turn frame.ih).iline < frame.ih)
    (hrest : Runs frame i (p.turn frame.ih) rest) : Runs frame i p rest := by
  cases rest with
  | nil => trivial
  | cons line rest =>
    have hsame : frame.lineOf i p = frame.lineOf i (p.turn frame.ih) := by
      simp [GifFrameData.lineOf, h, turn_of_lt hline]
    rw [Runs, hsame]
    exact hrest

theorem length_lines (interlace : Bool) (height : Nat) :
    (lines interlace height).length = height := by
  cases interlace with
  | false => simp [lines]
  | true =>
    simp only [lines, passLines, if_true, List.length_append, List.length_range']
    omega

theorem mem_lines {interlace : Bool} {height line : Nat} (h : line ∈ lines interlace height) :
    line < height := by
  cases interlace with
  | false => simpa [lines] using h
  | true =>
    simp only [lines, passLines, if_true, List.mem_append, List.mem_range'] at h
    omega

theorem nodup_lines (interlace : Bool) (height : Nat) : (lines interlace height).Nodup := by
  cases interlace with
  | false => simpa [lines] using List.nodup_range
  | true =>
    have hpass (start step : Nat) (h : 0 < step) : (passLines height start step).Nodup :=
      List.nodup_range' _ h
    simp only [lines, if_true, List.nodup_append, hpass _ _ (by decide : 0 < 8),
      hpass _ _ (by decide : 0 < 4),
      hpass _ _ (by decide : 0 < 2), true_and]
    refine ⟨⟨?_, ?_⟩, ?_⟩
    all_goals
      intro a ha b hb
      simp only [passLines, List.mem_append, List.mem_range'] at ha hb
      omega

/-- The lines of a pass that has one, and those behind it. -/
theorem runs_passLines (h : frame.interlace = true) (hih : frame.ih = n) {pass : Int}
    {start step : Nat} (hstep : 0 < step)
    (hstart : start < n) {i : Int} {rest : List Nat}
    (hrest : ∀ i line, n ≤ line → Runs frame i ⟨pass, step, (line : Nat)⟩ rest) :
    Runs frame i ⟨pass, step, start⟩ (passLines n start step ++ rest) := by
  have hdiv := Nat.div_add_mod (n - start + step - 1) step
  have hmod := Nat.mod_lt (n - start + step - 1) hstep
  apply runs_pass h
  · intro j hj
    have hle : step * (j + 1) ≤ step * ((n - start + step - 1) / step) := Nat.mul_le_mul_left _ hj
    rw [Nat.mul_succ] at hle
    omega
  · apply hrest
    omega

theorem runs_next (h : frame.interlace = true) (hih : frame.ih = n) {p : Pass} {next : Pass}
    {i : Int} {rest : List Nat}
    (hturn : p.turn n = next) (hnext : next.iline < n) (hrest : Runs frame i next rest) :
    Runs frame i p rest := by
  apply runs_turn h
  · rw [hih, hturn]
    exact hnext
  · rw [hih, hturn]
    exact hrest

/-- The passes come one after the other, if each of them has a line. -/
theorem runs_lines (hih : frame.ih = n) (hpasses : frame.interlace = true → n ≤ 1 ∨ 5 ≤ n) :
    Runs frame 0 ⟨1, 8, 0⟩ (lines frame.interlace n) := by
  cases h : frame.interlace with
  | false =>
    rw [lines, if_neg Bool.false_ne_true, List.range_eq_range']
    exact runs_range' h n 0 _
  | true =>
    rw [lines, if_pos rfl]
    have hfirst (rest : List Nat) (hn : 0 < n)
        (hrest : ∀ i line, n ≤ line → Runs frame i ⟨1, (8 : Nat), (line : Nat)⟩ rest) :
        Runs frame 0 ⟨1, (8 : Nat), (0 : Nat)⟩ (passLines n 0 8 ++ rest) :=
          runs_passLines h hih (by decide) hn hrest
    rcases hpasses h with hsmall | hlarge
    · interval_cases n
      · trivial
      · exact hfirst [] (by decide) fun _ _ _ => trivial
    · have hturn (pass : Int) (inc : Int) {line : Nat} (hline : n ≤ line) :
          Pass.turn ⟨pass, inc, line⟩ n =
          if pass + 1 = 2 then ⟨2, inc, 4⟩ else if pass + 1 = 3 then
            ⟨3, 4, 2⟩ else if pass + 1 = 4 then ⟨4, 2, 1⟩
          else ⟨pass + 1, inc, line⟩ := if_pos (show (n : Int) ≤ line by exact_mod_cast hline)
      refine hfirst _ (by omega) fun i line hline => ?_
      apply runs_next h hih (hturn 1 _ hline) (by simp; omega)
      show Runs frame i ⟨2, (8 : Nat), (4 : Nat)⟩ _
      refine runs_passLines h hih (by decide) (by omega) fun i line hline => ?_
      apply runs_next h hih (hturn 2 _ hline) (by simp; omega)
      show Runs frame i ⟨3, (4 : Nat), (2 : Nat)⟩ _
      refine runs_passLines h hih (by decide) (by omega) fun i line hline => ?_
      apply runs_next h hih (hturn 3 _ hline) (by simp; omega)
      rw [← List.append_nil (passLines n 1 2)]
      show Runs frame i ⟨4, (2 : Nat), (1 : Nat)⟩ _
      exact runs_passLines h hih (by decide) (by omega) fun _ _ _ => trivial

end Order

/-- A frame as the layer that it is on the canvas. -/
def frameLayer (frame : GifFrameData) (act : Table) (pixels : Int → Byte) : Layer Color where
  rect := ⟨frame.ix, frame.iy, frame.iw, frame.ih⟩
  pixel x y := ((lines frame.interlace frame.ih.toNat).idxOf? (y - frame.iy).toNat).bind fun i =>
    let c := act (pixels (i * frame.iw + (x - frame.ix))).toNat
    if c = 0 then none else some c

section Layers

variable {frame : GifFrameData} {act : Table} {pixels : Int → Byte} {c : Canvas Color}

theorem paintLines_eq {L : List Nat} (hnodup : L.Nodup) (i : Nat) (c : Canvas Color) (x y : Int) :
    paintLines frame act pixels i L c x y =
      if frame.ix ≤ x ∧ x < frame.ix + frame.iw ∧ frame.iy ≤ y then
        match L.idxOf? (y - frame.iy).toNat with
        | some r => overlay (act (pixels (((i + r : Nat) : Int) * frame.iw + (x - frame.ix))).toNat)
            (c x y)
        | none => c x y
      else c x y := by
  induction L generalizing i c with
  | nil => simp [paintLines]
  | cons line L ih =>
    obtain ⟨hnot, hrest⟩ := List.nodup_cons.mp hnodup
    rw [paintLines, ih hrest]
    by_cases hin : frame.ix ≤ x ∧ x < frame.ix + frame.iw ∧ frame.iy ≤ y
    · rw [if_pos hin, if_pos hin, List.idxOf?_cons]
      by_cases hline : line = (y - frame.iy).toNat
      · have hnone : L.idxOf? line = none := by simpa using hnot
        have hy : y = frame.iy + line := by omega
        simp [hnone, paintLine, hin.1, hin.2.1, hy]
      · have hother : paintLine frame act pixels i line c x y = c x y := by
          apply if_neg
          omega
        simp only [hother, beq_iff_eq, if_neg hline]
        cases L.idxOf? (y - frame.iy).toNat with
        | none => rfl
        | some r => simp [Nat.add_assoc, Nat.add_comm 1]
    · have hother : paintLine frame act pixels i line c x y = c x y := by
        apply if_neg
        omega
      rw [if_neg hin, if_neg hin, hother]

/-- The rows of a frame paint its layer. -/
theorem paintLines_layer :
    paintLines frame act pixels 0 (lines frame.interlace frame.ih.toNat)
      c = (frameLayer frame act pixels).over c := by
  funext x y
  rw [paintLines_eq (nodup_lines _ _), Layer.over]
  by_cases hin : frame.ix ≤ x ∧ x < frame.ix + frame.iw ∧ frame.iy ≤ y
  · rw [if_pos hin]
    cases hrow : (lines frame.interlace frame.ih.toNat).idxOf? (y - frame.iy).toNat with
    | none => simp [frameLayer, hrow]
    | some r =>
      have hmem : (y - frame.iy).toNat ∈ lines frame.interlace frame.ih.toNat := by
        by_contra hnot
        rw [List.idxOf?_eq_none_iff.mpr hnot] at hrow
        cases hrow
      have hlt := mem_lines hmem
      have hcontains : (frameLayer frame act pixels).rect.Contains x y :=
        ⟨hin.1, hin.2.1, hin.2.2, show y < frame.iy + frame.ih by omega⟩
      rw [if_pos hcontains]
      simp only [frameLayer, hrow, Option.bind_some, Nat.zero_add, overlay]
      split <;> rfl
  · have hnot : ¬ (frameLayer frame act pixels).rect.Contains x y := fun h =>
      hin ⟨h.1, h.2.1, h.2.2.1⟩
    rw [if_neg hin, if_neg hnot]

end Layers

section Clearing

variable {s : Screen} {dest : Int → Color} {canvas : Canvas Color}

theorem fillRow_eq {size : Int} (c : Color) (n : Nat) (k : Int) (dest : Int → Color) (hk : 0 ≤ k)
    (hlim : 0 < n → k + n ≤ size) :
    fillRow size c n k dest = .ok fun j => if k ≤ j ∧ j < k + n then c else dest j := by
  induction n generalizing k dest with
  | zero =>
    have hnone : (fun j => if k ≤ j ∧ j < k + (0 : Nat) then c else dest j) = dest := by
      funext j
      apply if_neg
      omega
    rw [hnone]
    rfl
  | succ n ih =>
    rw [fillRow, if_pos (by omega), ih _ _ (by omega) (by omega)]
    congr 1
    funext j
    by_cases hj : j = k
    · subst hj
      simp
    · rw [Function.update_of_ne hj]
      exact if_congr (by omega) rfl rfl

/-- The last image rectangle has no edge outside the canvas. -/
structure Inside (s : Screen) : Prop where
  lrx : 0 ≤ s.lrx
  lry : 0 ≤ s.lry
  lrw : 0 ≤ s.lrw
  lrh : 0 ≤ s.lrh
  right : s.lrx + s.lrw ≤ s.width
  bottom : s.lry + s.lrh ≤ s.height

theorem fillRows_depicts (hinside : Inside s) (hwidth : 0 < s.width)
    (hsize : s.width * s.height < 2 ^ 31) (c : Color) (n i : Nat)
    (hn : ((i + n : Nat) : Int) ≤ s.lrh) (h : Depicts s dest canvas) :
    ∃ dest', s.fillRows (s.width * s.height) c n i dest = .ok dest' ∧
      Depicts s dest' (Compositing.fill ⟨s.lrx, s.lry + i, s.lrw, n⟩ c canvas) := by
  have hlrx := hinside.lrx
  have hlry := hinside.lry
  have hlrw := hinside.lrw
  have hright := hinside.right
  have hbottom := hinside.bottom
  induction n generalizing i dest canvas with
  | zero =>
    refine ⟨dest, rfl, fun x y hx hxw hy hyh => ?_⟩
    rw [h x y hx hxw hy hyh, Compositing.fill_outside]
    rintro ⟨-, -, hlow, hhigh⟩
    simp only at hlow hhigh
    omega
  | succ n ih =>
    have hk : (s.lry + i) * s.width + s.width ≤ s.width * s.height := by
      calc (s.lry + i) * s.width + s.width = (s.lry + i + 1) * s.width := by ring
        _ ≤ s.height * s.width := mul_le_mul_of_nonneg_right (by omega) hwidth.le
        _ = s.width * s.height := mul_comm _ _
    have hk0 : 0 ≤ (s.lry + i) * s.width := mul_nonneg (by omega) hwidth.le
    have hints : int ((s.lry + i) * s.width + s.lrx) = (s.lry + i) * s.width + s.lrx ∧
        int ((s.lry + i) * s.width + s.lrx + s.lrw) = (s.lry + i) * s.width + s.lrx + s.lrw := by
      constructor <;> apply int_eq <;> omega
    generalize hkdef : (s.lry + i) * s.width = k at *
    have hcount : ((k + s.lrx + s.lrw - (k + s.lrx)).toNat : Int) = s.lrw := by omega
    have hfill := fillRow_eq c (k + s.lrx + s.lrw - (k + s.lrx)).toNat (k + s.lrx) dest (by omega)
      (fun _ =>
        (by omega : k + s.lrx + ((k + s.lrx + s.lrw - (k + s.lrx)).toNat : Int) ≤
          s.width * s.height))
    rw [hcount] at hfill
    have hline : Depicts s (fun j => if k + s.lrx ≤ j ∧ j < k + s.lrx + s.lrw then c else dest j)
        (Compositing.fill ⟨s.lrx, s.lry + i, s.lrw, 1⟩ c canvas) := by
      intro x y hx hxw hy hyh
      rw [Compositing.fill, ← h x y hx hxw hy hyh]
      by_cases hin : s.lrx ≤ x ∧ x < s.lrx + s.lrw ∧ y = s.lry + i
      · have hplace : y * s.width + x = k + x := by rw [hin.2.2, hkdef]
        have hcontains : Rect.Contains ⟨s.lrx, s.lry + i, s.lrw, 1⟩ x y :=
          ⟨hin.1, hin.2.1, hin.2.2.ge, by simp; omega⟩
        rw [if_pos hcontains]
        apply if_pos
        omega
      · have hnot : ¬ Rect.Contains ⟨s.lrx, s.lry + i, s.lrw, 1⟩ x y := by
          rintro ⟨hl, hr, ht, hb⟩
          simp only at hl hr ht hb
          omega
        rw [if_neg hnot]
        apply if_neg
        rintro ⟨hlow, hhigh⟩
        have hy : y = s.lry + i := by
          apply line_unique hx hxw <;> omega
        have hplace : y * s.width + x = k + x := by rw [hy, hkdef]
        omega
    obtain ⟨dest', hrest, h'⟩ := ih (i + 1) (by omega) hline
    refine ⟨dest', ?_, fun x y hx hxw hy hyh => ?_⟩
    · rw [Screen.fillRows, hkdef, hints.1, hints.2, hfill, ok_bind]
      exact hrest
    · rw [h' x y hx hxw hy hyh]
      -- the first row, and those below it
      have hrows : Rect.Contains ⟨s.lrx, s.lry + i, s.lrw, (n + 1 : Nat)⟩ x y ↔
          Rect.Contains ⟨s.lrx, s.lry + (i + 1 : Nat), s.lrw, n⟩ x y ∨
          Rect.Contains ⟨s.lrx, s.lry + i, s.lrw, 1⟩ x y := by
        simp only [Rect.Contains]
        omega
      simp only [Compositing.fill, hrows]
      by_cases hbelow : Rect.Contains ⟨s.lrx, s.lry + (i + 1 : Nat), s.lrw, n⟩ x y
      · rw [if_pos hbelow, if_pos (.inl hbelow)]
      · simp only [hbelow, if_false, false_or]

theorem fillRows_empty {size : Int} (h : s.lrw = 0) (c : Color) (n : Nat) (i : Int)
    (dest : Int → Color) :
    s.fillRows size c n i dest = .ok dest := by
  induction n generalizing i with
  | zero => rfl
  | succ n ih =>
    have hint (x : Int) : int (int x + 0) - int x = 0 := by
      have := int_bounds x
      rw [add_zero, int_eq this.1 this.2, sub_self]
    rw [Screen.fillRows, h, hint, Int.toNat_zero, fillRow, ok_bind]
    exact ih _

/-- The last image rectangle is filled, if its pixels are on the canvas. -/
theorem cleared_depicts (hplace : 0 ≤ s.lrx ∧ 0 ≤ s.lry ∧ 0 ≤ s.lrw ∧ 0 ≤ s.lrh)
    (hinside : 0 < s.lrw → 0 < s.lrh → s.lrx + s.lrw ≤ s.width ∧ s.lry + s.lrh ≤ s.height)
    (hwidth : 0 < s.width)
    (hsize : s.width * s.height < 2 ^ 31) (c : Color) (h : Depicts s dest canvas) :
    ∃ dest', s.fillRows (s.width * s.height) c s.lrh.toNat 0 dest = .ok dest' ∧
      Depicts s dest' (Compositing.fill ⟨s.lrx, s.lry, s.lrw, s.lrh⟩ c canvas) := by
  obtain ⟨hlrx, hlry, hlrw, hlrh⟩ := hplace
  have hnone (hempty : s.lrw = 0 ∨ s.lrh = 0) :
      Depicts s dest (Compositing.fill ⟨s.lrx, s.lry, s.lrw, s.lrh⟩ c canvas) := by
    intro x y hx hxw hy hyh
    rw [h x y hx hxw hy hyh, Compositing.fill_outside]
    rintro ⟨hleft, hright, htop, hbottom⟩
    simp only at hleft hright htop hbottom
    omega
  by_cases hw : s.lrw = 0
  · exact ⟨dest, fillRows_empty hw c _ _ _, hnone (.inl hw)⟩
  · by_cases hh : s.lrh = 0
    · refine ⟨dest, ?_, hnone (.inr hh)⟩
      rw [hh]
      rfl
    · obtain ⟨hright, hbottom⟩ := hinside (by omega) (by omega)
      have hrows := fillRows_depicts ⟨hlrx, hlry, hlrw, hlrh, hright, hbottom⟩ hwidth hsize c
        s.lrh.toNat 0 (by omega) h
      simpa [Int.toNat_of_nonneg hlrh] using hrows

end Clearing

section

variable {argb4444 : Color → Color} {s : Screen} {frame : GifFrameData}
    {pixels : Nat × (Int → Byte)}

/-- What a bitmap keeps of two canvases is the same. -/
def Alike (argb4444 : Color → Color) (c c' : Canvas Color) : Prop :=
  ∀ x y, argb4444 (c x y) = argb4444 (c' x y)

theorem Alike.over {c c' : Canvas Color} (h : Alike argb4444 c c') (l : Layer Color) :
    Alike argb4444 (l.over c) (l.over c') := by
  intro x y
  simp only [Layer.over]
  split
  · cases l.pixel x y with
    | none => exact h x y
    | some v => rfl
  · exact h x y

theorem Alike.fill {c c' : Canvas Color} (h : Alike argb4444 c c') (r : Rect) (v : Color) :
    Alike argb4444 (Compositing.fill r v c) (Compositing.fill r v c') := by
  intro x y
  simp only [Compositing.fill]
  split
  · rfl
  · exact h x y

/-- The bitmap is the canvas, as far as it keeps colours. -/
structure Pictures (argb4444 : Color → Color) (w h : Int) (c : Canvas Color)
    (b : Bitmap) : Prop where
  width : b.width = w
  height : b.height = h
  pixels : ∀ x y, 0 ≤ x → x < w → 0 ≤ y → y < h → b.pixels (y * w + x) = argb4444 (c x y)

/-- What has become of a bitmap can be painted on. -/
theorem Pictures.depicts {c : Canvas Color} {b : Bitmap}
    (h : Pictures argb4444 s.width s.height c b)
    (hkept : ∀ c, argb4444 (argb4444 c) = argb4444 c) :
    ∃ c', Depicts s b.pixels c' ∧ Alike argb4444 c' c :=
  ⟨fun x y => argb4444 (c x y), h.pixels, fun _ _ => hkept _⟩

theorem link_eq (s : Screen) (delay : Int) :
    ∃ index, s.link delay = .ok (s.append delay index) := by
  rw [Screen.link]
  split
  · exact ⟨0, rfl⟩
  · exact ⟨_, rfl⟩

/-- What was shown last is all that a disposal changes. -/
theorem recall_eq (s : Screen) : ∃ last, s.recall = { s with lastImage := last } := by
  rw [Screen.recall]
  split
  · exact ⟨_, rfl⟩
  · exact ⟨s.lastImage, rfl⟩

@[simp] theorem recall_width (s : Screen) : s.recall.width = s.width := by
  obtain ⟨last, h⟩ := recall_eq s
  rw [h]

@[simp] theorem recall_height (s : Screen) : s.recall.height = s.height := by
  obtain ⟨last, h⟩ := recall_eq s
  rw [h]

theorem Room.recall (room : Room s frame pixels) : Room s.recall frame pixels := by
  refine ⟨?_, ?_, ?_, room.ix, room.iy, room.iw, room.ih, room.data, room.pixels⟩
  · simpa using room.width
  · simpa using room.height
  · simpa using room.size

section Disposals

variable {size : Int} {b : Bitmap}

theorem recall_of_ne (h : s.lastDispose ≠ 3) : s.recall = s := if_neg h

theorem startingContents_none (h : s.lastDispose = 0) :
    s.recall.startingContents frame size = .ok fun _ => 0 := by
  rw [recall_of_ne (by omega), Screen.startingContents, if_neg (by omega)]

theorem startingContents_keep (hpos : 0 < s.lastDispose) (hbackground : s.lastDispose ≠ 2)
    (hprevious : s.lastDispose ≠ 3)
    (hlast : s.lastImage = some b) : s.recall.startingContents frame size = .ok b.pixels := by
  rw [recall_of_ne hprevious, Screen.startingContents, if_pos hpos, hlast]
  exact if_neg hbackground

theorem startingContents_background (h : s.lastDispose = 2) (hlast : s.lastImage = some b) :
    s.recall.startingContents frame size =
      s.fillRows size (if frame.transparency then 0 else s.lastBgColor) s.lrh.toNat 0 b.pixels := by
  rw [recall_of_ne (by omega), Screen.startingContents, if_pos (by omega), hlast]
  exact if_pos h

theorem startingContents_previous (h : s.lastDispose = 3) (hbefore : s.beforeLast = some b) :
    s.recall.startingContents frame size = .ok b.pixels := by
  rw [Screen.recall, if_pos h, Screen.startingContents]
  simp only [h, hbefore]
  rfl

theorem startingContents_previous_none (h : s.lastDispose = 3) (hbefore : s.beforeLast = none) :
    s.recall.startingContents frame size = .ok fun _ => 0 := by
  rw [Screen.recall, if_pos h, Screen.startingContents]
  simp only [h, hbefore]
  rfl

end Disposals

/-- The layer of a frame is painted on what the last image's disposal leaves. -/
theorem setPixels_depicts (act : Table) (room : Room s frame pixels)
    (hpasses : frame.interlace = true → frame.ih ≤ 1 ∨ 5 ≤ frame.ih)
    {dest : Int → Color} {start : Canvas Color}
    (hstart : s.recall.startingContents frame (s.width * s.height) = .ok dest)
    (h : Depicts s dest start) {c : Canvas Color} (halike : Alike argb4444 start c) :
    ∃ b, Screen.setPixels argb4444 s frame act pixels = .ok { s.recall with image := some b } ∧
      Pictures argb4444 s.width s.height ((frameLayer frame act pixels.2).over c) b := by
  have hwidth := room.width
  have hheight := room.height
  have hih := room.ih
  have hsize : int (s.width * s.height) = s.width * s.height := by
    have := mul_pos hwidth hheight
    have := room.size
    apply int_eq <;> omega
  have hruns : Runs frame (0 : Nat) ⟨1, 8, 0⟩ (lines frame.interlace frame.ih.toNat) :=
    runs_lines (Int.toNat_of_nonneg hih).symm fun hinterlace => by
      have := hpasses hinterlace
      omega
  have hlength := length_lines frame.interlace frame.ih.toNat
  have hrecalled : Depicts s.recall dest start := by
    simpa only [Depicts, recall_width, recall_height] using h
  have hrun := paintRows_depicts act room.recall hruns (by omega) hrecalled
  rw [hlength, Nat.cast_zero, recall_width, recall_height] at hrun
  obtain ⟨dest', hrows, hdest'⟩ := hrun
  refine ⟨⟨s.width, s.height, fun i => argb4444 (dest' i)⟩, ?_, rfl, rfl,
    fun x y hx hxw hy hyh => ?_⟩
  · have hnonneg : ¬ s.width * s.height < 0 := (mul_pos hwidth hheight).not_gt
    have hempty : ¬ (s.width ≤ 0 ∨ s.height ≤ 0) := by omega
    rw [Screen.setPixels, hsize, if_neg hnonneg]
    simp only [hstart, ok_bind, hrows, createBitmap, recall_width, recall_height, hempty, if_false]
  · have hplace := hdest' x y hx (by simpa using hxw) hy (by simpa using hyh)
    rw [recall_width, paintLines_layer] at hplace
    show argb4444 (dest' (y * s.width + x)) = _
    rw [hplace]
    exact halike.over _ x y

end

end BaseGifDecoder
