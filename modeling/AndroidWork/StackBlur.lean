import AndroidWork.SlidingWindow
import Mathlib.Data.BitVec

/-!
# Stack blur

`BlurTransformation.transform` and `BitmapUtil.doBlur`, which share their body. The
three colours run in step, so the arrays `r`, `g`, `b` are one array of triples
here, and each of the sums is a triple. An index outside an array stops the run.
-/
namespace StackBlur

open SlidingWindow

/-- Red, green and blue as ints. -/
abbrev Rgb := Fin 3 → BitVec 32

/-- The value of an int expression. -/
def int (z : Int) : Int := z.bmod (2 ^ 32)

variable {α : Type}

def get (a : List α) (i : Int) : Option α := if 0 ≤ i then a[i.toNat]? else none

def set (a : List α) (i : Int) (v : α) : Option (List α) :=
  if 0 ≤ i ∧ i < a.length then some (a.set i.toNat v) else none

def channels (p : BitVec 32) : Rgb :=
  ![(p &&& 0xff0000).sshiftRight 16, (p &&& 0x00ff00).sshiftRight 8, p &&& 0x0000ff]

/-- The table `dv`. -/
def quotients (radius : Nat) : List (BitVec 32) :=
  let div := radius + radius + 1
  let divsum := ((div + 1) >>> 1) * ((div + 1) >>> 1)
  (List.range (256 * divsum)).map fun i => BitVec.ofNat 32 (i / divsum)

def divided (dv : List (BitVec 32)) (sum : Rgb) : Option Rgb := do
  let r ← get dv (sum 0).toInt
  let g ← get dv (sum 1).toInt
  let b ← get dv (sum 2).toInt
  return ![r, g, b]

/-- `sum` stands for `rsum`, `gsum` and `bsum`, and so on. -/
structure Window where
  stack : List Rgb
  stackpointer : Nat
  sum : Rgb
  insum : Rgb
  outsum : Rgb

def Window.start (s : Window) : Window := { s with sum := 0, insum := 0, outsum := 0 }

/-- The turn for `i` of the loop from `-radius` to `radius`. -/
def fillTurn (radius : Nat) (i : Int) (sir : Rgb) (s : Window) : Option Window := do
  let stack ← set s.stack (i + radius) sir
  let rbs := BitVec.ofInt 32 (radius + 1 - |i|)
  return { s with
    stack
    sum := fun c => s.sum c + sir c * rbs
    insum := if i > 0 then s.insum + sir else s.insum
    outsum := if i > 0 then s.outsum else s.outsum + sir }

/-- One place further, where the new value is `sir`. -/
def slide (radius : Nat) (sir : Rgb) (s : Window) : Option Window := do
  let div := radius + radius + 1
  let sum := s.sum - s.outsum
  let stackstart : Int := s.stackpointer - radius + div
  let old ← get s.stack (stackstart.tmod div)
  let outsum := s.outsum - old
  let stack ← set s.stack (stackstart.tmod div) sir
  let insum := s.insum + sir
  let sum := sum + insum
  let stackpointer := (s.stackpointer + 1) % div
  let sir ← get stack stackpointer
  return { stack, stackpointer, sum, insum := insum - sir, outsum := outsum + sir }

/-- An entry of `vmin`, which the first row or column writes. -/
def vminTurn (line i : Nat) (v : Int) (vmin : List Int) : Option (List Int) :=
  if line = 0 then set vmin i v else some vmin

structure Rows where
  rgb : List Rgb
  vmin : List Int
  window : Window
  yi : Int
  yw : Int

def rowTurn (w radius : Nat) (pix dv : List (BitVec 32)) (y x : Nat) (s : Rows) : Option Rows := do
  let wm : Int := w - 1
  let rgb ← set s.rgb s.yi (← divided dv s.window.sum)
  let vmin ← vminTurn y x (min (int (x + radius + 1)) wm) s.vmin
  let p ← get pix (s.yw + (← get vmin x))
  let window ← slide radius (channels p) s.window
  return { s with rgb, vmin, window, yi := s.yi + 1 }

def rowFill (w radius : Nat) (pix : List (BitVec 32)) (yi : Int) (k : Nat) (window : Window) :
    Option Window := do
  let wm : Int := w - 1
  let i : Int := k - radius
  let p ← get pix (yi + min wm (max i 0))
  fillTurn radius i (channels p) window

def row (w radius : Nat) (pix dv : List (BitVec 32)) (y : Nat) (s : Rows) : Option Rows := do
  let window ← loop (rowFill w radius pix s.yi) (2 * radius + 1) s.window.start
  let s ← loop (rowTurn w radius pix dv y) w
    { s with window := { window with stackpointer := radius } }
  return { s with yw := s.yw + w }

structure Columns where
  pix : List (BitVec 32)
  vmin : List Int
  window : Window
  yi : Int

def columnTurn (w h radius : Nat) (rgb : List Rgb) (dv : List (BitVec 32)) (x y : Nat)
    (s : Columns) : Option Columns := do
  let hm : Int := h - 1
  let alpha := 0xff000000 &&& (← get s.pix s.yi)
  let v ← divided dv s.window.sum
  let pix ← set s.pix s.yi (alpha ||| v 0 <<< 16 ||| v 1 <<< 8 ||| v 2)
  let vmin ← vminTurn x y (min (int (y + (radius + 1))) hm * w) s.vmin
  let sir ← get rgb (x + (← get vmin y))
  let window ← slide radius sir s.window
  return { pix, vmin, window, yi := s.yi + w }

def columnFill (w h radius : Nat) (rgb : List Rgb) (x k : Nat) :
    Window × Int → Option (Window × Int) := fun (window, yp) => do
  let hm : Int := h - 1
  let i : Int := k - radius
  let sir ← get rgb (max 0 yp + x)
  let window ← fillTurn radius i sir window
  return (window, if i < hm then int (yp + w) else yp)

def column (w h radius : Nat) (rgb : List Rgb) (dv : List (BitVec 32)) (x : Nat) (s : Columns) :
    Option Columns := do
  let (window, _) ← loop (columnFill w h radius rgb x) (2 * radius + 1)
    (s.window.start, int (-radius * w))
  loop (columnTurn w h radius rgb dv x) h
    { s with window := { window with stackpointer := radius }, yi := x }

/-- The body of both functions, from `pix` to `pix`. -/
def stackBlur (w h radius : Nat) (pix : List (BitVec 32)) : Option (List (BitVec 32)) := do
  let dv := quotients radius
  let rows ← loop (row w radius pix dv) h
    { rgb := List.replicate (w * h) 0, vmin := List.replicate (max w h) 0
      window := ⟨List.replicate (radius + radius + 1) 0, 0, 0, 0, 0⟩, yi := 0, yw := 0 }
  let columns ← loop (column w h radius rows.rgb dv) w ⟨pix, rows.vmin, rows.window, rows.yi⟩
  return columns.pix

structure Bitmap where
  width : Nat
  height : Nat
  pixels : List (BitVec 32)
  width_pos : 0 < width
  height_pos : 0 < height
  length_pixels : pixels.length = width * height

/-- The pixels that the bitmap from the pool gets; null is none. -/
def transform (radius : Int) (toTransform : Bitmap) : Option (Option (List (BitVec 32))) := do
  if radius < 1 then return none
  else return some (← stackBlur toTransform.width toTransform.height radius.toNat
    toTransform.pixels)

/-- The pixels of the result and those of `sentBitmap` behind the call. -/
def doBlur (sentBitmap : Bitmap) (radius : Int) (canReuseInBitmap : Bool) :
    Option (Option (List (BitVec 32)) × List (BitVec 32)) := do
  if radius < 1 then return (none, sentBitmap.pixels)
  else
    let pix ← stackBlur sentBitmap.width sentBitmap.height radius.toNat sentBitmap.pixels
    return (some pix, if canReuseInBitmap then pix else sentBitmap.pixels)

/-- Places beyond an edge repeat the edge. -/
def clamp (n : Nat) (i : Int) : Nat := (max 0 (min i (n - 1))).toNat

def average (radius : Nat) (v : Int → Nat) (c : Int) : Nat :=
  (∑ i ∈ Finset.range (2 * radius + 1), (weight radius i).toNat * v (c - radius + i)) /
    (radius + 1) ^ 2

/-- The row average at `x` of the row `y`. -/
def rowAverage (w radius : Nat) (pix : List (BitVec 32)) (y x : Nat) (c : Fin 3) : Nat :=
  average radius (fun i => (channels (pix.getD (y * w + clamp w i) 0) c).toNat) x

def blurred (w h radius : Nat) (pix : List (BitVec 32)) (y x : Nat) (c : Fin 3) : Nat :=
  average radius (fun i => rowAverage w radius pix (clamp h i) x c) y

/-- The table and the sums of the index arithmetic fit in an int. -/
structure Fits (w h radius : Nat) : Prop where
  table : 256 * (radius + 1) ^ 2 < 2 ^ 31
  pixels : w * h < 2 ^ 31
  above : radius * w ≤ 2 ^ 31
  right : w + radius < 2 ^ 31
  below : h + radius < 2 ^ 31

end StackBlur
