import AndroidWork.GifCanvas
import AndroidWork.GifLzwEncoder
import AndroidWork.WebpCanvas

/-!
# Exporting an animation as a GIF

`Gifflen.encodeFrameSequence` draws frame after frame and hands each with the
delay that `drawFrame` returned to `Gifflen::addFrame`. Delays are ints that
the demuxer and giflib give in milliseconds and hundredths of a second.
-/
namespace GifExport

open Compositing (Canvas)

abbrev Byte := BitVec 8
abbrev Color8888 := BitVec 32

inductive FrameSequence where
  | webp (A : WebpCanvas.FrameSequence)
  | gif (G : GifCanvas.GifFileType)

def FrameSequence.frameCount : FrameSequence → Nat
  | .webp A => A.frameCount
  | .gif G => G.imageCount

/-- How long a frame is shown, in milliseconds. -/
def FrameSequence.duration : FrameSequence → Nat → Int
  | .webp A, i => (A.frame i).duration
  | .gif G, i => GifCanvas.getDelayMs (G.savedImages i).gcb

/-- The native state, with the bitmap that is drawn into. -/
def FrameSequence.State : FrameSequence → Type
  | .webp _ => WebpCanvas.Buffers
  | .gif _ => GifCanvas.StateGif × Canvas Color8888

def FrameSequence.createState : (fs : FrameSequence) → fs.State
  | .webp _ => fun _ _ _ => WebpCanvas.transparent
  | .gif _ => (.fresh, fun _ _ => GifCanvas.transparent)

def FrameSequence.getFrame : (fs : FrameSequence) → Nat → Int → fs.State → Int × fs.State
  | .webp A, frameNr, previousFrameNr, mem => WebpCanvas.drawFrame A frameNr mem previousFrameNr
  | .gif G, frameNr, previousFrameNr, s => GifCanvas.drawFrame G s.1 s.2 frameNr previousFrameNr

def FrameSequence.frameBitmap : (fs : FrameSequence) → fs.State → Canvas Color8888
  | .webp _, mem => mem .output
  | .gif _, s => s.2

/-- What `init` keeps. `encodePixels` stands for the scaling of the bitmap, the
palette and the compressed indices. -/
structure Gifflen where
  imgw : Nat
  imgh : Nat
  optCol : Nat
  encodePixels : Canvas Color8888 → List Byte

def transparentColorIndex : Byte := 255

/-- A number in two bytes, as it is cut off by `char`. -/
def cutOff (n : Int) : List Byte := [BitVec.ofInt 8 n, BitVec.ofInt 8 (n.tdiv 0x100)]

/-- The array has exactly the pixels that `addFrame` asks for. -/
def Gifflen.addFrameNative (g : Gifflen) (data : Canvas Color8888) (delay : Int) : List Byte :=
  [0x21, 0xf9, 4, 9] ++ cutOff delay ++ [transparentColorIndex, 0, 0x2c, 0, 0, 0, 0] ++
    cutOff g.imgw ++ cutOff g.imgh ++
    [0x80 + BitVec.ofNat 8 (GifLzwEncoder.maxBits g.optCol) - 1] ++ g.encodePixels data

/-- A delay in milliseconds. -/
def Gifflen.addFrame (g : Gifflen) (pixels : Canvas Color8888) (delay : Int) : List Byte :=
  g.addFrameNative pixels (delay.tdiv 10)

def encodeTurn (fs : FrameSequence) (g : Gifflen) (s : fs.State × List (List Byte)) (i : Nat) :
    fs.State × List (List Byte) :=
  let r := fs.getFrame i (i - 2) s.1
  (r.2, s.2 ++ [g.addFrame (fs.frameBitmap r.2) r.1])

/-- The encoded frames. -/
def encodeFrameSequence (fs : FrameSequence) (g : Gifflen) : List (List Byte) :=
  ((List.range fs.frameCount).foldl (encodeTurn fs g) (fs.createState, [])).2

/-- The delay that a frame's control block gives, in hundredths of a second. -/
def delayTime (frame : List Byte) : Int := (frame.getD 4 0).toNat + 256 * (frame.getD 5 0).toNat

/-- The i-th frame is to be shown as long as the source's. -/
def KeepsDelay (fs : FrameSequence) (g : Gifflen) (i : Nat) : Prop :=
  ∃ frame, (encodeFrameSequence fs g)[i]? = some frame ∧ delayTime frame = (fs.duration i).tdiv 10

/-- The frame decodes, and so does the one before it where it is drawn again. -/
def FrameSequence.drawable : FrameSequence → Nat → Bool
  | .webp A, i =>
    (A.frame i).fragment.isSome &&
      (A.isKeyFrame i || WebpCanvas.willBeCleared (A.frame (i - 1)) ||
        (A.frame (i - 1)).fragment.isSome)
  | .gif _, _ => true

/-- The frame before, for the first one the last. -/
def FrameSequence.previous (fs : FrameSequence) (i : Nat) : Nat :=
  (i + fs.frameCount - 1) % fs.frameCount

section Drawing

open WebpCanvas (drawTurn drawLoop findStart drawFrame getFrame_succ)

variable (A : WebpCanvas.FrameSequence)

theorem drawTurn_ok (frameNr i : Nat) (s : WebpCanvas.DrawState) :
    (drawTurn A frameNr i s).1 =
      ((A.frame i).fragment.isSome || decide (i ≠ frameNr) && WebpCanvas.willBeCleared
        (A.frame i)) := by
  unfold drawTurn
  simp only [getFrame_succ]
  have hcleared : WebpCanvas.willBeCleared { A.frame i with frameNum := i + 1 } =
      WebpCanvas.willBeCleared (A.frame i) := rfl
  rw [hcleared]
  split
  · rename_i hdrawn
    unfold WebpCanvas.decodeFrame
    cases hfragment : (A.frame i).fragment with
    | none =>
      rcases hdrawn with rfl | hkept
      · simp
      · simp only [Bool.not_eq_eq_eq_not, Bool.not_true] at hkept
        simp [hkept]
    | some pixels =>
      simp only [Option.isSome_some, Bool.true_or]
      split
      · split <;> rfl
      · rfl
  · rename_i hskipped
    simp only [not_or, Bool.not_eq_eq_eq_not, Bool.not_true, Bool.not_eq_false] at hskipped
    simp [hskipped.1, hskipped.2]

/-- The export redraws the frame before unless the frame stands alone. -/
theorem findStart_export (i : Nat) :
    findStart A (max ((i : Int) - 2 + 1) 0).toNat i = if A.isKeyFrame i then i else i - 1 := by
  cases i with
  | zero => simp [findStart, WebpCanvas.FrameSequence.isKeyFrame]
  | succ i =>
    have hstart : (max (((i + 1 : Nat) : Int) - 2 + 1) 0).toNat = i := by omega
    rw [hstart, findStart, if_pos (Nat.lt_succ_self i)]
    split
    · rfl
    · cases i with
      | zero => rfl
      | succ i => exact if_neg (lt_irrefl _)

theorem drawLoop_one (i : Nat) (s : WebpCanvas.DrawState) :
    (drawLoop A i 1 i s).1 = (A.frame i).fragment.isSome := by
  have hturn : (drawTurn A i i s).1 = (A.frame i).fragment.isSome := by simp [drawTurn_ok]
  show (if (drawTurn A i i s).1 then (true, (drawTurn A i i s).2) else drawTurn A i i s).1 = _
  split
  · rename_i hok
    rw [← hturn, hok]
  · exact hturn

theorem drawLoop_two {i : Nat} (hi : i ≠ 0) (s : WebpCanvas.DrawState) :
    (drawLoop A i 2 (i - 1) s).1 =
      ((A.frame i).fragment.isSome && (WebpCanvas.willBeCleared (A.frame (i - 1)) ||
        (A.frame (i - 1)).fragment.isSome)) := by
  have hturn : (drawTurn A i (i - 1) s).1 =
      (WebpCanvas.willBeCleared (A.frame (i - 1)) || (A.frame (i - 1)).fragment.isSome) := by
    simp [drawTurn_ok, show i - 1 ≠ i by omega, Bool.or_comm]
  have hnext : i - 1 + 1 = i := by omega
  show (if (drawTurn A i (i - 1) s).1 then drawLoop A i 1 (i - 1 + 1) (drawTurn A i (i - 1) s).2
    else drawTurn A i (i - 1) s).1 = _
  rw [hnext, ← hturn]
  split
  · rename_i hok
    rw [drawLoop_one, hok, Bool.and_true]
  · rename_i hfailed
    rw [Bool.not_eq_true] at hfailed
    rw [hfailed, Bool.and_false]

theorem drawFrame_export (i : Nat) (mem : WebpCanvas.Buffers) :
    (drawFrame A i mem ((i : Int) - 2)).1 =
      if (FrameSequence.webp A).drawable i then
        (A.frame ((FrameSequence.webp A).previous i)).duration else -1 := by
  have hloop : ∀ s, (drawLoop A i (i + 1 - findStart A (max ((i : Int) - 2 + 1) 0).toNat i)
      (findStart A (max ((i : Int) - 2 + 1) 0).toNat i) s).1 =
        (FrameSequence.webp A).drawable i := by
    intro s
    rw [findStart_export, FrameSequence.drawable]
    by_cases hkey : A.isKeyFrame i
    · rw [if_pos hkey, hkey, Nat.add_sub_cancel_left, drawLoop_one]
      simp
    · have hi : i ≠ 0 := by
        rintro rfl
        exact hkey rfl
      rw [if_neg hkey, show i + 1 - (i - 1) = 2 by omega, drawLoop_two A hi]
      rw [Bool.not_eq_true] at hkey
      rw [hkey, Bool.false_or]
  unfold drawFrame
  simp only [hloop]
  split
  · rw [getFrame_succ]
    rfl
  · rfl

end Drawing

theorem getFrame_export (fs : FrameSequence) (i : Nat) (s : fs.State) :
    (fs.getFrame i (i - 2) s).1 = if fs.drawable i then fs.duration (fs.previous i) else -1 := by
  cases fs with
  | webp A => exact drawFrame_export A i s
  | gif G => rfl

section Delays

/-- A number as two bytes keep it. -/
def kept (n : Int) : Int := n % 256 + 256 * (n.tdiv 256 % 256)

theorem kept_bounds (n : Int) : 0 ≤ kept n ∧ kept n < 65536 := by
  unfold kept
  omega

theorem kept_eq {n : Int} (hn : 0 ≤ n) (hlt : n < 65536) : kept n = n := by
  unfold kept
  rw [Int.tdiv_eq_ediv_of_nonneg hn]
  omega

variable (fs : FrameSequence) (g : Gifflen)

theorem delayTime_addFrame (pixels : Canvas Color8888) (delay : Int) :
    delayTime (g.addFrame pixels delay) = kept (delay.tdiv 10) := by
  simp only [delayTime, Gifflen.addFrame, Gifflen.addFrameNative, cutOff,
    List.cons_append, List.nil_append,
    List.getD_cons_succ, List.getD_cons_zero, BitVec.toNat_ofInt, kept]
  omega

/-- Frame after frame, each with the delay that drawing it returned. -/
theorem encodeTurns (n : Nat) :
    ((List.range n).foldl (encodeTurn fs g) (fs.createState, [])).2.map delayTime =
      (List.range n).map fun i =>
  kept ((if fs.drawable i then fs.duration (fs.previous i) else -1).tdiv 10) := by
  induction n with
  | zero => rfl
  | succ n ih =>
    rw [List.range_succ, List.foldl_concat, List.map_append, ← ih, encodeTurn, List.map_append]
    simp only [List.map_cons, List.map_nil, delayTime_addFrame, getFrame_export]

theorem keepsDelay_iff {i : Nat} (hi : i < fs.frameCount) : KeepsDelay fs g i ↔
    kept ((if fs.drawable i then fs.duration (fs.previous i) else -1).tdiv 10) =
      (fs.duration i).tdiv 10 := by
  have hframe := congrArg (·[i]?) (encodeTurns fs g fs.frameCount)
  simp only [List.getElem?_map, List.getElem?_range hi, Option.map_some] at hframe
  obtain ⟨frame, hget, hdelay⟩ := Option.map_eq_some_iff.mp hframe
  rw [← hdelay, KeepsDelay]
  constructor
  · rintro ⟨frame', hget', hkeeps⟩
    cases hget.symm.trans hget'
    exact hkeeps
  · exact fun h => ⟨frame, hget, h⟩

/-- The source's delay in the unit of the export. -/
def FrameSequence.delay (i : Nat) : Int := (fs.duration i).tdiv 10

/-- Every frame keeps its delay, exactly when all fit into two bytes and each is the
delay of the frame before it, or 0 where the frame cannot be drawn. -/
theorem keepsDelays_iff : (∀ i < fs.frameCount, KeepsDelay fs g i) ↔
    ∀ i < fs.frameCount, 0 ≤ fs.delay i ∧ fs.delay i < 65536 ∧
      fs.delay i = if fs.drawable i then fs.delay (fs.previous i) else 0 := by
  have hprevious : ∀ i < fs.frameCount, fs.previous i < fs.frameCount :=
    fun i hi => Nat.mod_lt _ (by omega)
  have hkept : ∀ i, (∀ j < fs.frameCount, 0 ≤ fs.delay j ∧ fs.delay j < 65536) → i < fs.frameCount →
      kept ((if fs.drawable i then fs.duration (fs.previous i) else -1).tdiv 10) =
        if fs.drawable i then fs.delay (fs.previous i) else 0 := by
    intro i hbounds hi
    split
    · obtain ⟨hnonneg, hlt⟩ := hbounds _ (hprevious i hi)
      exact kept_eq hnonneg hlt
    · rfl
  constructor
  · intro h
    have hbounds : ∀ j < fs.frameCount, 0 ≤ fs.delay j ∧ fs.delay j < 65536 := by
      intro j hj
      rw [FrameSequence.delay, ← (keepsDelay_iff fs g hj).mp (h j hj)]
      exact kept_bounds _
    intro i hi
    refine ⟨(hbounds i hi).1, (hbounds i hi).2, ?_⟩
    rw [← hkept i hbounds hi, (keepsDelay_iff fs g hi).mp (h i hi)]
    rfl
  · intro h i hi
    rw [keepsDelay_iff fs g hi, hkept i (fun j hj => ⟨(h j hj).1, (h j hj).2.1⟩) hi]
    exact (h i hi).2.2.symm

end Delays

/-- Two frames of 100 and 200 ms. -/
def uneven : WebpCanvas.FrameSequence where
  width := 1
  height := 1
  frameCount := 2
  frame i := ⟨i + 1, 0, 0, 1, 1, false, .none, .noBlend, 100 * (i + 1), some fun _ _ => 0⟩

def small : Gifflen := ⟨1, 1, 2, fun _ => []⟩

theorem not_keepsDelay_uneven : (encodeFrameSequence (.webp uneven) small).map
    delayTime = [20, 10] ∧
    ¬ KeepsDelay (.webp uneven) small 0 := by
  refine ⟨encodeTurns (.webp uneven) small 2, ?_⟩
  rw [keepsDelay_iff _ _ (by decide)]
  decide

end GifExport
