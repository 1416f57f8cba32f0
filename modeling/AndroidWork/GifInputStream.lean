import AndroidWork.BulkReads
import AndroidWork.GifRunsEnd

/-!
# BaseGifDecoder over an input that gives less than is asked for

`read` asks for one byte, and `readBlock` asks again until its block is full. A
colour table is asked for once, and an answer that is short is taken for the end
of the input.
-/
namespace BaseGifDecoder

open GifLzwDecoder (Byte Reader Further)
open BulkReads (Splits)
open Turns (Settles)

namespace InputStream

/-- `readBlock`: `in.read(mBlock, n, mBlockSize - n)` until the block is full. -/
def readBlock (p : Splits) (r : Reader) : List Byte × Reader :=
  let blockSize := r.read.1
  let r := r.read.2
  if 0 < blockSize then
    let (block, bytes) := p.fill id blockSize.toNat blockSize.toNat r.bytes
    (block, { r with bytes := bytes, formatError :=
      r.formatError || decide (block.length < blockSize.toNat) })
  else ([], r)

/-- `readColorTable`: one `in.read(c)`. -/
def readColorTable (p : Splits) (ncolors : Nat) (r : Reader) : Option Table × Reader :=
  let (c, bytes) := p.bulk (3 * ncolors) r.bytes
  if c.length < 3 * ncolors then (none, { r with bytes := bytes, formatError := true })
  else (some (colorAt c ncolors), { r with bytes := bytes })

/-- However the input splits a block, all of it is read. -/
theorem readBlock_eq (p : Splits) {r : Reader} (hsource : r.source = .stream) :
    readBlock p r = r.readBlock := by
  have hread : r.read.2.source = .stream := (GifLzwDecoder.read_source r).trans hsource
  have hcap : ∀ want, 0 < want → 0 < id want ∧ id want ≤ want := fun want h => ⟨h, le_rfl⟩
  rw [readBlock, Reader.readBlock, p.fill_eq hcap _ _ _ le_rfl]
  simp only [hread]
  by_cases hpos : 0 < r.read.1
  · rw [if_pos hpos, if_pos hpos, List.length_take]
    have hshort : min r.read.1.toNat
        r.read.2.bytes.length < r.read.1.toNat ↔
        (r.read.2.bytes.length : Int) < r.read.1 := by omega
    simp only [hshort]
  · rw [if_neg hpos, if_neg hpos]

/-- The fields of an image descriptor. -/
def readFields (frame : GifFrameData) (r : Reader) : Except Fault (GifFrameData × Reader) := do
  let (ix, r) ← readShort r
  let (iy, r) ← readShort r
  let (iw, r) ← readShort r
  let (ih, r) ← readShort r
  let packed := r.read
  .ok ({ frame with
    ix := ix
    iy := iy
    iw := iw
    ih := ih
    lctFlag := decide (field packed.1 0x80 ≠ 0)
    interlace := decide (field packed.1 0x40 ≠ 0)
    lctSize := (2 <<< (field packed.1 7).toNat : Nat) }, packed.2)

/-- And the local colour table behind them. -/
def readTable (p : Splits) (frame : GifFrameData) (r : Reader) : GifFrameData × Reader :=
  let (lct, r) := if frame.lctFlag then readColorTable p frame.lctSize.toNat r else (none, r)
  ({ frame with lct := lct }, r)

/-- The decoder that has read the frame's data up to its table, and the table. -/
def describe (p : Splits) (ref : Nat) (frame : GifFrameData) (r : Reader) (s : Decoder) : Decoder :=
  { s with reader := (readTable p frame r).2, objects := s.objects.set ref (readTable p frame r).1 }

variable (argb4444 : Color → Color)

def readImage (p : Splits) (turns ref : Nat) (s : Decoder) : Except Fault Decoder :=
  match s.objects[ref]? with
  | none => .error .nullPointer
  | some frame => do
    let (frame, r) ← readFields frame s.reader
    (describe p ref frame r s).playSingleFrame argb4444 turns ref

/-- Behind the image separator, with a frame to read the image into. -/
def forImage (s : Decoder) : Decoder :=
  let s := s.withReader s.reader.read.2
  if s.header.currentFrame = none then s.newFrame else s

/-- One turn of `readContents`. Only an image can have a colour table. -/
def readContent (p : Splits) (turns : Nat) (s : Decoder) : Except Fault (Bool × Decoder) :=
  if s.reader.read.1 = 0x2C then
    match (forImage s).header.currentFrame with
    | none => .error .nullPointer
    | some ref => (readImage argb4444 p turns ref (forImage s)).map fun s => (false, s)
  else s.readContent argb4444 turns

def readContents (p : Splits) (turns : Nat) : Nat → Decoder → Ended
  | 0, s => ⟨s, some .cutOff⟩
  | n + 1, s =>
    if s.reader.formatError then ⟨s, none⟩
    else
      match readContent argb4444 p turns s with
      | .error e => ⟨s, some e⟩
      | .ok (true, s) => ⟨s, none⟩
      | .ok (false, s) => readContents p turns n s

/-- The global colour table, and the background colour that is in it. -/
def openTable (s : Decoder) (table : Option Table × Reader) : Except Fault Decoder :=
  match table with
  | (none, r) => .ok (s.withReader { r with formatError := true })
  | (some gct, r) =>
    if 0 ≤ s.header.bgIndex ∧ s.header.bgIndex < 256 then
      .ok { s with
        reader := r
        header := { s.header with gct := some gct }
        screen := { s.screen with bgColor := gct s.header.bgIndex } }
    else .error .actIndex

def readHeader (p : Splits) (s : Decoder) : Except Fault Decoder :=
  let (id, r) := readId 6 s.reader
  let s := s.withReader r
  if id.take 3 = [0x47, 0x49, 0x46] then do
    let s ← readLSD s
    if s.header.gctFlag = true ∧ s.reader.formatError = false then
      openTable s (readColorTable p s.header.gctSize.toNat s.reader)
    else .ok s
  else .ok s.fail

def readStream (p : Splits) (turns : Nat) (data : List Byte) : Ended :=
  match readHeader p (initial .stream data) with
  | .error e => ⟨initial .stream data, some e⟩
  | .ok s => if s.reader.formatError then ⟨s, none⟩ else readContents argb4444 p turns turns s

/-- `mStatus`, which is still STATUS_PARSING where an exception ends the run. -/
inductive Status where
  | parsing
  | finish
  | formatError
  deriving DecidableEq, Repr

/-- What a caller finds: the header with its current frame, and the frames with
their images and delays. -/
structure Result where
  status : Status
  header : GifHeaderData
  currentFrame : Option GifFrameData
  frames : List GifFrame

def result (e : Ended) : Result where
  status := if e.decoder.reader.formatError then .formatError else if e.fault = none then
    .finish else .parsing
  header := e.decoder.header
  currentFrame := e.decoder.header.currentFrame.bind fun ref => e.decoder.objects[ref]?
  frames := e.decoder.screen.frames

section Tables

/-- A colour table that is asked for: the bytes that are left, and those that are wanted. -/
structure Request where
  left : Nat
  want : Nat

/-- The input answers with less than the table. -/
def cuts (p : Splits) (t : Request) : Bool := decide (p.size t.left t.want < t.want)

/-- The global colour table, behind the screen descriptor. -/
def headerTable (s : Decoder) : Option Request :=
  let (id, r) := readId 6 s.reader
  if id.take 3 = [0x47, 0x49, 0x46] then
    match readLSD (s.withReader r) with
    | .error _ => none
    | .ok s =>
      if s.header.gctFlag = true ∧ s.reader.formatError = false then
        some ⟨s.reader.bytes.length, 3 * s.header.gctSize.toNat⟩
      else none
  else none

/-- The local colour table behind these fields. -/
def localTable (frame : GifFrameData) (r : Reader) : Option Request :=
  if frame.lctFlag then some ⟨r.bytes.length, 3 * frame.lctSize.toNat⟩ else none

/-- The local colour table of the image that comes next. -/
def imageTable (s : Decoder) : Option Request :=
  if s.reader.read.1 = 0x2C then
    match (forImage s).header.currentFrame.bind fun ref => (forImage s).objects[ref]? with
    | none => none
    | some frame =>
      match readFields frame (forImage s).reader with
      | .error _ => none
      | .ok (frame, r) => localTable frame r
  else none

/-- The local colour tables that reading comes to, given every one of them whole. -/
def contentTables (turns : Nat) : Nat → Decoder → List Request
  | 0, _ => []
  | n + 1, s =>
    if s.reader.formatError then []
    else
      (imageTable s).toList ++
        match s.readContent argb4444 turns with
        | .ok (false, s) => contentTables turns n s
        | _ => []

/-- And all of them. -/
def tables (turns : Nat) (data : List Byte) : List Request :=
  (headerTable (initial .stream data)).toList ++
    match BaseGifDecoder.readHeader (initial .stream data) with
    | .error _ => []
    | .ok s => if s.reader.formatError then [] else contentTables argb4444 turns turns s

end Tables

section ColorTables

variable {p : Splits}

theorem size_of_gives {t : Request} (h : cuts p t = false) :
    p.size t.left t.want = t.want ∧ t.want ≤ t.left := by
  have hwant := p.le_want t.left t.want
  have hleft := p.le_left t.left t.want
  rw [cuts, decide_eq_false_iff_not] at h
  omega

theorem readColorTable_cut {ncolors : Nat} {r : Reader}
    (h : cuts p ⟨r.bytes.length, 3 * ncolors⟩ = true) :
    ∃ bytes, readColorTable p ncolors r = (none, { r with bytes := bytes, formatError := true }) ∧
      bytes.length ≤ r.bytes.length := by
  rw [cuts, decide_eq_true_iff] at h
  refine ⟨r.bytes.drop (p.size r.bytes.length (3 * ncolors)), ?_, ?_⟩
  · have hlength : (r.bytes.take (p.size r.bytes.length (3 * ncolors))).length < 3 * ncolors := by
      rw [List.length_take, Nat.min_eq_left (p.le_left _ _)]
      exact h
    exact if_pos hlength
  · rw [List.length_drop]
    exact Nat.sub_le _ _

theorem readColorTable_gives {ncolors : Nat} {r : Reader}
    (h : cuts p ⟨r.bytes.length, 3 * ncolors⟩ = false) :
    readColorTable p ncolors r =
      (some (colorAt (r.bytes.take (3 * ncolors)) ncolors),
        { r with bytes := r.bytes.drop (3 * ncolors) }) := by
  obtain ⟨hsize, hle⟩ := size_of_gives h
  have hlength : ¬ (r.bytes.take (3 * ncolors)).length < 3 * ncolors := by
    rw [List.length_take, Nat.min_eq_left hle]
    exact lt_irrefl _
  simp only [readColorTable, Splits.bulk, hsize, hlength, if_false]

theorem readColorTable_further (p : Splits) (ncolors : Nat) (r : Reader) :
    Further r (readColorTable p ncolors r).2 := by
  cases hcut : cuts p ⟨r.bytes.length, 3 * ncolors⟩ with
  | true =>
    obtain ⟨bytes, hread, hlength⟩ := readColorTable_cut hcut
    rw [hread]
    exact ⟨rfl, hlength⟩
  | false =>
    rw [readColorTable_gives hcut]
    exact ⟨rfl, by rw [List.length_drop]; exact Nat.sub_le _ _⟩

theorem cuts_whole (t : Request) : cuts .whole t = decide (t.left < t.want) := by
  have hiff : min t.left t.want < t.want ↔ t.left < t.want := by omega
  exact decide_eq_decide.mpr hiff

/-- What any input gives, a whole one does. -/
theorem whole_of_gives {t : Request} (h : cuts p t = false) : cuts .whole t = false := by
  rw [cuts_whole]
  exact decide_eq_false (size_of_gives h).2.not_gt

/-- The first table is cut by both, or by one of them, or leaves it to the others. -/
theorem find?_cuts_cons_iff {q : Splits} {t : Request} {rest : List Request} {same : Prop}
    (hboth : cuts p t = true → cuts q t = true → same)
    (hleft : cuts p t = true → cuts q t = false → ¬ same)
    (hright : cuts p t = false → cuts q t = true → ¬ same)
    (hneither : cuts p t = false → cuts q t = false →
      (same ↔ rest.find? (cuts p) = rest.find? (cuts q))) :
    same ↔ (t :: rest).find? (cuts p) = (t :: rest).find? (cuts q) := by
  have hrest {c : Request → Bool} (hc : c t = false) : rest.find? c ≠ some t := fun h => by
    rw [List.find?_some h] at hc
    cases hc
  rw [List.find?_cons, List.find?_cons]
  cases hp : cuts p t with
  | true =>
    cases hq : cuts q t with
    | true => exact iff_of_true (hboth hp hq) rfl
    | false => exact iff_of_false (hleft hp hq) (hrest hq).symm
  | false =>
    cases hq : cuts q t with
    | true => exact iff_of_false (hright hp hq) (hrest hp)
    | false => exact hneither hp hq

/-- What a file gives. -/
theorem readColorTable_whole (ncolors : Nat) {r : Reader} (hsource : r.source = .stream) :
    readColorTable .whole ncolors r = BaseGifDecoder.readColorTable ncolors r := by
  simp only [BaseGifDecoder.readColorTable, hsource]
  by_cases h : r.bytes.length < 3 * ncolors
  · rw [if_pos h]
    have hdrop : r.bytes.drop (min r.bytes.length (3 * ncolors)) = r.bytes.drop (3 * ncolors) := by
      rw [Nat.min_eq_left h.le, List.drop_length, List.drop_eq_nil_of_le h.le]
    have hlength : (r.bytes.take (min r.bytes.length (3 * ncolors))).length < 3 * ncolors := by
      rw [List.length_take]
      omega
    simp only [readColorTable, Splits.bulk, Splits.whole, hlength, if_true, hdrop, hsource]
  · rw [if_neg h, readColorTable_gives (by rw [cuts_whole]; exact decide_eq_false h), hsource]

end ColorTables

section Images

variable (argb4444 : Color → Color) {p : Splits} {s : Decoder} {frame : GifFrameData} {r : Reader}

theorem readShort_stream (hsource : r.source = .stream) :
    ∃ v, readShort r = .ok (v, r.read.2.read.2) := by
  simp only [readShort, hsource]
  exact ⟨_, rfl⟩

theorem readFields_stream (hsource : r.source = .stream) (frame : GifFrameData) :
    ∃ frame' r', readFields frame r = .ok (frame', r') ∧ Further r r' ∧
      readDescriptor frame r = .ok (readTable .whole frame' r') := by
  have hstep {r : Reader} (h : r.source = .stream) :
      ∃ v r', readShort r = .ok (v, r') ∧ Further r r' := by
    obtain ⟨v, hv⟩ := readShort_stream h
    exact ⟨v, r.read.2.read.2, hv, (GifLzwDecoder.read_further r).trans
      (GifLzwDecoder.read_further _)⟩
  obtain ⟨ix, r₁, h₁, hf₁⟩ := hstep hsource
  obtain ⟨iy, r₂, h₂, hf₂⟩ := hstep (hf₁.source.trans hsource)
  have hf₂ := hf₁.trans hf₂
  obtain ⟨iw, r₃, h₃, hf₃⟩ := hstep (hf₂.source.trans hsource)
  have hf₃ := hf₂.trans hf₃
  obtain ⟨ih, r₄, h₄, hf₄⟩ := hstep (hf₃.source.trans hsource)
  have hf := (hf₃.trans hf₄).trans (GifLzwDecoder.read_further r₄)
  set frame' : GifFrameData := { frame with
    ix := ix
    iy := iy
    iw := iw
    ih := ih
    lctFlag := decide (field r₄.read.1 0x80 ≠ 0)
    interlace := decide (field r₄.read.1 0x40 ≠ 0)
    lctSize := (2 <<< (field r₄.read.1 7).toNat : Nat) } with hframe
  refine ⟨frame', r₄.read.2, ?_, hf, ?_⟩
  · simp only [readFields, h₁, h₂, h₃, h₄, ok_bind]
    rfl
  · simp only [readDescriptor, h₁, h₂, h₃, h₄, ok_bind, readTable,
      readColorTable_whole _ (hf.source.trans hsource)]
    rfl

theorem forImage_reader (s : Decoder) : (forImage s).reader = s.reader.read.2 := by
  rw [forImage]
  split <;> rfl

/-- An image needs a frame; then its table is all that the input's answers are for. -/
theorem image_cases (hsource : s.reader.source = .stream) (hcode : s.reader.read.1 = 0x2C) :
    (imageTable s = none ∧ ∀ p turns, readContent argb4444 p turns s = .error .nullPointer) ∨
    ∃ ref frame r, (forImage s).header.currentFrame = some ref ∧ ref < (forImage s).objects.length ∧
      Further s.reader.read.2 r ∧ imageTable s = localTable frame r ∧
      ∀ p turns, readContent argb4444 p turns s =
        ((describe p ref frame r (forImage s)).playSingleFrame argb4444 turns ref).map fun s =>
  (false, s) := by
  have hreader : (forImage s).reader = s.reader.read.2 := forImage_reader s
  have hread (p : Splits) (turns : Nat) : readContent argb4444 p turns s =
      match (forImage s).header.currentFrame with
      | none => .error .nullPointer
      | some ref =>
        (readImage argb4444 p turns ref (forImage s)).map fun s => (false, s) := if_pos hcode
  simp only [imageTable, hcode, if_true, hread]
  cases hcurrent : (forImage s).header.currentFrame with
  | none => exact .inl ⟨rfl, fun _ _ => rfl⟩
  | some ref =>
    simp only [readImage, Option.bind_some]
    cases hobject : (forImage s).objects[ref]? with
    | none => exact .inl ⟨rfl, fun _ _ => rfl⟩
    | some frame =>
      obtain ⟨frame', r, hfields, hr, -⟩ := readFields_stream (r := (forImage s).reader)
        (hreader ▸ (GifLzwDecoder.read_source s.reader).trans hsource) frame
      refine .inr ⟨ref, frame', r, rfl, (List.getElem?_eq_some_iff.mp hobject).1, hreader ▸ hr, ?_,
        fun p turns => ?_⟩
      · simp only [hfields]
      · simp only [hfields, ok_bind]

theorem readTable_further (p : Splits) (frame : GifFrameData) (r : Reader) :
    Further r (readTable p frame r).2 := by
  rw [readTable]
  cases frame.lctFlag with
  | false => exact .refl r
  | true => exact readColorTable_further p _ r

/-- An input that gives all there is is what the decoder was modelled over. -/
theorem readContent_whole (turns : Nat) (hsource : s.reader.source = .stream) :
    readContent argb4444 .whole turns s = s.readContent argb4444 turns := by
  by_cases hcode : s.reader.read.1 = 0x2C
  · have hread : s.readContent argb4444 turns =
        match (forImage s).header.currentFrame with
        | none => .error .nullPointer
        | some ref =>
          ((forImage s).readImage argb4444 turns ref).map fun s => (false, s) := if_pos hcode
    rw [readContent, if_pos hcode, hread]
    cases (forImage s).header.currentFrame with
    | none => rfl
    | some ref =>
      simp only [readImage, Decoder.readImage]
      cases (forImage s).objects[ref]? with
      | none => rfl
      | some frame =>
        have hsource : (forImage s).reader.source = .stream := by
          rw [forImage_reader]
          exact (GifLzwDecoder.read_source s.reader).trans hsource
        obtain ⟨frame', r, hfields, hr, hdescriptor⟩ := readFields_stream hsource frame
        have hstream : (readTable .whole frame' r).2.source = .stream :=
          (readTable_further .whole frame' r).source.trans (hr.source.trans hsource)
        simp only [hfields, hdescriptor, ok_bind, hstream]
        rfl
  · exact if_neg hcode

theorem readTable_gives (h : ∀ t ∈ localTable frame r, cuts p t = false) :
    readTable p frame r = readTable .whole frame r := by
  rw [readTable, readTable]
  cases hflag : frame.lctFlag with
  | false => rfl
  | true =>
    have hp : cuts p ⟨r.bytes.length, 3 * frame.lctSize.toNat⟩ = false :=
      h _ (by rw [localTable, hflag]; rfl)
    simp only [if_true, readColorTable_gives hp, readColorTable_gives (whole_of_gives hp)]

/-- Without a table that is cut, the turn is that of a whole input. -/
theorem readContent_gives (turns : Nat) (hsource : s.reader.source = .stream)
    (h : ∀ t ∈ imageTable s, cuts p t = false) :
    readContent argb4444 p turns s = s.readContent argb4444 turns := by
  rw [← readContent_whole argb4444 turns hsource]
  by_cases hcode : s.reader.read.1 = 0x2C
  · rcases image_cases argb4444 hsource hcode with ⟨-, hnull⟩ | ⟨ref, frame, r, -,
      -, -, htable, hread⟩
    · rw [hnull, hnull]
    · rw [hread, hread, describe, describe, readTable_gives (htable ▸ h)]
  · rw [readContent, readContent, if_neg hcode, if_neg hcode]

/-- The colour table of the frame that was read last. -/
def currentTable (s : Decoder) : Option Table :=
  (s.header.currentFrame.bind fun ref => s.objects[ref]?).bind GifFrameData.lct

theorem imageTable_some {t : Request} (h : imageTable s = some t) : s.reader.read.1 = 0x2C := by
  by_contra hcode
  rw [imageTable, if_neg hcode] at h
  cases h

theorem localTable_some {t : Request} (h : localTable frame r = some t) :
    frame.lctFlag = true ∧ t = ⟨r.bytes.length, 3 * frame.lctSize.toNat⟩ := by
  rw [localTable] at h
  split at h
  · rename_i hflag
    exact ⟨hflag, (Option.some.inj h).symm⟩
  · cases h

/-- An image that has a table. -/
theorem image_some (hsource : s.reader.source = .stream) {t : Request}
    (htable : imageTable s = some t) :
    ∃ ref frame r, (forImage s).header.currentFrame = some ref ∧ ref < (forImage s).objects.length ∧
      Further s.reader.read.2 r ∧ frame.lctFlag = true ∧
      t = ⟨r.bytes.length, 3 * frame.lctSize.toNat⟩ ∧
      ∀ p turns, readContent argb4444 p turns s =
        ((describe p ref frame r (forImage s)).playSingleFrame argb4444 turns ref).map fun s =>
  (false, s) := by
  obtain ⟨hnone, -⟩ | ⟨ref, frame, r, hcurrent, href, hr, hlocal, hread⟩ :=
    image_cases argb4444 hsource (imageTable_some htable)
  · rw [hnone] at htable
    cases htable
  · obtain ⟨hflag, ht⟩ := localTable_some (hlocal.symm.trans htable)
    exact ⟨ref, frame, r, hcurrent, href, hr, hflag, ht, hread⟩

theorem forImage_screen (s : Decoder) : (forImage s).screen = s.screen := by
  rw [forImage]
  split <;> rfl

theorem forImage_gct (s : Decoder) : (forImage s).header.gct = s.header.gct := by
  rw [forImage]
  split <;> rfl

theorem describe_current {ref : Nat} (hcurrent : (forImage s).header.currentFrame = some ref)
    (href : ref < (forImage s).objects.length) :
    ((describe p ref frame r (forImage s)).header.currentFrame.bind fun i =>
      (describe p ref frame r (forImage s)).objects[i]?) = some (readTable p frame r).1 := by
  have hheader : (describe p ref frame r (forImage s)).header = (forImage s).header := rfl
  rw [hheader, hcurrent]
  exact List.getElem?_set_self href

theorem playSingleFrame_noTable {ref : Nat} (turns : Nat) (hobject : s.objects[ref]? = some frame)
    (hflag : frame.lctFlag = true)
    (hlct : frame.lct = none) : s.playSingleFrame argb4444 turns ref = .ok s.fail := by
  have hscreen : s.screen.chooseBackground frame s.header.bgIndex = s.screen := by
    rw [Screen.chooseBackground, hflag]
    exact if_neg fun h => Bool.noConfusion h.1
  simp only [Decoder.playSingleFrame, Decoder.playFrame, hobject, hflag, if_true, hlct, hscreen]

/-- A table that is cut is the end of the run, and how much of it was read makes no difference. -/
theorem readContent_cut (hsource : s.reader.source = .stream) {t : Request}
    (htable : imageTable s = some t) :
    ∃ base : Decoder, currentTable base = none ∧ base.screen.frames = s.screen.frames ∧
      ∀ p turns, cuts p t = true → ∃ bytes, bytes.length ≤ s.reader.bytes.length ∧
        readContent argb4444 p turns s = .ok (false, base.withReader ⟨.stream, bytes, true⟩) := by
  obtain ⟨ref, frame, r, hcurrent, href, hr, hflag, rfl, hread⟩ :=
    image_some argb4444 hsource htable
  have hobject : ((forImage s).objects.set ref { frame with lct := none })[ref]? =
      some { frame with lct := none } :=
    List.getElem?_set_self href
  refine ⟨{ forImage s with objects := (forImage s).objects.set ref { frame with lct := none } },
    ?_,
    congrArg Screen.frames (forImage_screen s), fun p turns hcut => ?_⟩
  · show ((forImage s).header.currentFrame.bind fun ref => _).bind _ = none
    rw [hcurrent]
    exact congrArg (fun object => object.bind GifFrameData.lct) hobject
  · obtain ⟨bytes, hshort, hlength⟩ := readColorTable_cut hcut
    refine ⟨bytes, hlength.trans (hr.length.trans (GifLzwDecoder.read_length _)), ?_⟩
    have hdescribe : describe p ref frame r (forImage s) = { forImage s with
        reader := ⟨.stream, bytes, true⟩
        objects := (forImage s).objects.set ref { frame with lct := none } } := by
      have hstream : r.source = .stream :=
        hr.source.trans ((GifLzwDecoder.read_source _).trans hsource)
      simp only [describe, readTable, hflag, if_true, hshort, hstream]
    have hplay := playSingleFrame_noTable argb4444 (s := { forImage s with
      reader := ⟨.stream, bytes, true⟩
      objects := (forImage s).objects.set ref { frame with lct := none } }) turns hobject hflag rfl
    rw [hread, hdescribe, hplay]
    rfl

/-- With its table, an image gives a frame, an error behind the table, or an exception. -/
theorem readContent_table (hsource : s.reader.source = .stream) {t : Request}
    (htable : imageTable s = some t)
    (hgives : cuts p t = false) {turns : Nat} {go : Bool} {s' : Decoder}
    (h : readContent argb4444 p turns s = .ok (go, s')) :
    go = false ∧ ((s'.reader.formatError = true ∧ currentTable s' ≠ none) ∨
    s.screen.frames.length < s'.screen.frames.length) := by
  obtain ⟨ref, frame, r, hcurrent, href, hr, hflag, rfl, hread⟩ :=
    image_some argb4444 hsource htable
  rw [hread] at h
  have hstream : (describe p ref frame r (forImage s)).reader.source = .stream :=
    (readTable_further p frame r).source.trans
      (hr.source.trans ((GifLzwDecoder.read_source _).trans hsource))
  cases hplay : (describe p ref frame r (forImage s)).playSingleFrame argb4444 turns ref with
  | error e =>
    rw [hplay] at h
    cases h
  | ok u =>
    rw [hplay] at h
    cases h
    obtain ⟨-, hheader, hshown⟩ := (playSingleFrame_settles argb4444 hstream ref).sound turns hplay
    refine ⟨rfl, ?_⟩
    rcases hshown with ⟨herror, hobjects, -⟩ | hframes
    · left
      refine ⟨herror, ?_⟩
      have hlct : (readTable p frame r).1.lct ≠ none := by
        simp only [readTable, hflag, if_true, readColorTable_gives hgives]
        exact nofun
      rw [currentTable, hheader, hobjects, describe_current hcurrent href]
      exact hlct
    · right
      have hscreen : (describe p ref frame r (forImage s)).screen = s.screen := forImage_screen s
      rw [hframes, hscreen]
      exact Nat.lt_succ_self _

/-- Every turn settles, and gets on. -/
theorem readContent_settles (p : Splits) (hsource : s.reader.source = .stream) :
    Settles Fault.cutOff (fun x => Onward s x.2 ∧ (x.1 = false → Closer s x.2)) fun turns =>
  readContent argb4444 p turns s := by
  by_cases hcode : s.reader.read.1 = 0x2C
  · rcases image_cases argb4444 hsource hcode with ⟨-, hnull⟩ | ⟨ref, frame, r, -, -, hr, -, hread⟩
    · simp only [hnull]
      exact .error nofun
    · simp only [hread]
      have hfurther : Further s.reader.read.2 (describe p ref frame r (forImage s)).reader :=
        hr.trans (readTable_further p frame r)
      have honward : Onward s (describe p ref frame r (forImage s)) :=
        ⟨(GifLzwDecoder.read_further _).trans hfurther, forImage_gct s,
          (congrArg (fun screen => screen.frames.length) (forImage_screen s)).ge⟩
      have hshorter := GifLzwDecoder.read_shorter hsource (by rw [hcode]; decide)
      exact (playSingleFrame_settles argb4444 (honward.reader.source.trans hsource) ref).map fun u
        hu =>
        ⟨honward.trans hu.onward, fun _ => .inr
          ((hu.reader.length.trans hfurther.length).trans_lt hshorter)⟩
  · have hother : (fun turns => readContent argb4444 p turns s) = fun turns =>
      s.readContent argb4444 turns :=
      funext fun turns => if_neg hcode
    rw [hother]
    exact BaseGifDecoder.readContent_settles argb4444 hsource hcode

end Images

section Contents

variable (argb4444 : Color → Color) {p q : Splits} {s : Decoder}

theorem readContents_onward (p : Splits) (turns n : Nat) (hsource : s.reader.source = .stream) :
    Onward s (readContents argb4444 p turns n s).decoder := by
  induction n generalizing s with
  | zero => exact .refl s
  | succ n ih =>
    rw [readContents]
    split
    · exact .refl s
    · split
      · exact .refl s
      · rename_i hread
        exact ((readContent_settles argb4444 p hsource).sound turns hread).1
      · rename_i hread
        have honward := ((readContent_settles argb4444 p hsource).sound turns hread).1
        exact honward.trans (ih (honward.reader.source.trans hsource))

/-- A turn that is followed by an end is, once it is given enough turns itself. -/
theorem ends_of_turn {k m : Nat} {next : Nat → Nat → Ended}
    (hturn : ∀ turns ≥ k, ∀ n, (match readContent argb4444 p turns s with
      | .error e => (⟨s, some e⟩ : Ended)
      | .ok (true, s) => ⟨s, none⟩
      | .ok (false, s) => readContents argb4444 p turns n s) = next turns n)
    (hnext : ∀ turns ≥ m, ∀ n ≥ m, (next turns n).fault ≠ some .cutOff) :
    ∃ m, ∀ turns ≥ m, ∀ n ≥ m, (readContents argb4444 p turns n s).fault ≠ some .cutOff := by
  refine ⟨max k (m + 1), fun turns hturns n hn => ?_⟩
  obtain ⟨n, rfl⟩ : ∃ j, n = j + 1 := ⟨n - 1, by omega⟩
  rw [readContents]
  split
  · exact nofun
  · rw [hturn turns (by omega) n]
    exact hnext turns (by omega) n (by omega)

/-- The contents are read in a number of turns. -/
theorem readContents_ends (p : Splits) (hsource : s.reader.source = .stream) :
    ∃ m, ∀ turns ≥ m, ∀ n ≥ m, (readContents argb4444 p turns n s).fault ≠ some .cutOff := by
  induction hlen : s.reader.bytes.length using Nat.strong_induction_on generalizing s with
  | h length ih =>
    subst hlen
    obtain ⟨k, res, hres, hk⟩ := (readContent_settles argb4444 p hsource).ends
    cases res with
    | error e =>
      exact ends_of_turn argb4444 (m := 0) (fun turns hturns n => by rw [hk turns hturns])
        fun _ _ _ _ h => hres (congrArg Except.error (Option.some.inj h))
    | ok x =>
      obtain ⟨honward, hcloser⟩ := (readContent_settles argb4444 p hsource).sound k (hk k le_rfl)
      obtain ⟨done, s'⟩ := x
      cases done with
      | true =>
        have hnext : ∀ turns ≥ 0, ∀ n ≥ 0,
            ((fun _ _ => ⟨s', none⟩ : Nat → Nat → Ended) turns n).fault ≠ some .cutOff :=
          fun _ _ _ _ => nofun
        exact ends_of_turn argb4444 (fun turns hturns n => by rw [hk turns hturns]) hnext
      | false =>
        have hturn : ∀ turns ≥ k, ∀ n, (match readContent argb4444 p turns s with
            | .error e => (⟨s, some e⟩ : Ended)
            | .ok (true, s) => ⟨s, none⟩
            | .ok (false, s) => readContents argb4444 p turns n s) =
              readContents argb4444 p turns n s' :=
          fun turns hturns n => by rw [hk turns hturns]
        rcases hcloser rfl with herror | hshorter
        · refine ends_of_turn argb4444 (m := 1) hturn fun turns _ n hn => ?_
          obtain ⟨n, rfl⟩ : ∃ j, n = j + 1 := ⟨n - 1, by omega⟩
          rw [readContents, if_pos herror]
          exact nofun
        · obtain ⟨m, hm⟩ := ih _ hshorter (honward.reader.source.trans hsource) rfl
          exact ends_of_turn argb4444 hturn hm

theorem readContents_failed (p : Splits) (turns n : Nat) (h : s.reader.formatError = true) :
    (readContents argb4444 p turns n s).decoder = s := by
  cases n with
  | zero => rfl
  | succ n => rw [readContents, if_pos h]

theorem result_failed {e : Ended} (h : e.decoder.reader.formatError = true) :
    result e = ⟨.formatError, e.decoder.header,
      e.decoder.header.currentFrame.bind fun ref => e.decoder.objects[ref]?,
      e.decoder.screen.frames⟩ := by
  rw [result, if_pos h]

/-- The table of the frame that was read last. -/
def Result.currentTable (r : Result) : Option Table := r.currentFrame.bind GifFrameData.lct

/-- What a caller finds when a table was cut, and when it was not. -/
theorem result_cut (hsource : s.reader.source = .stream)
    (herror : s.reader.formatError = false) {t : Request}
    (htable : imageTable s = some t) :
    ∃ stopped : Result, (∀ p turns n, cuts p t = true →
      result (readContents argb4444 p turns (n + 1) s) = stopped) ∧
      ∀ q turns n, cuts q t = false → result
        (readContents argb4444 q turns (n + 1) s) ≠ stopped := by
  obtain ⟨base, hcurrent, hframes, hcut⟩ := readContent_cut argb4444 hsource htable
  have hgo : ¬ s.reader.formatError = true := by
    rw [herror]
    exact Bool.false_ne_true
  refine ⟨⟨.formatError, base.header, base.header.currentFrame.bind fun ref => base.objects[ref]?,
    base.screen.frames⟩,
    fun p turns n hp => ?_, fun q turns n hq heq => ?_⟩
  · obtain ⟨bytes, -, hread⟩ := hcut p turns hp
    rw [readContents, if_neg hgo, hread]
    have hdecoder :=
      readContents_failed argb4444 p turns n (s := base.withReader ⟨.stream, bytes, true⟩) rfl
    simp only []
    rw [result_failed (by rw [hdecoder]; rfl), hdecoder]
    rfl
  · have hstatus := congrArg Result.status heq
    have htable' : (result (readContents argb4444 q turns (n + 1) s)).currentTable = none :=
      (congrArg Result.currentTable heq).trans hcurrent
    have hlength : (result (readContents argb4444 q turns (n + 1) s)).frames.length =
        s.screen.frames.length := by
      rw [heq]
      exact congrArg List.length hframes
    rw [readContents, if_neg hgo] at hstatus htable' hlength
    cases hread : readContent argb4444 q turns s with
    | error e =>
      simp only [hread, result, herror, Bool.false_eq_true, if_false, reduceCtorEq] at hstatus
    | ok x =>
      obtain ⟨done, s'⟩ := x
      obtain ⟨rfl, ⟨hfailed, hlct⟩ | hmore⟩ := readContent_table argb4444 hsource htable hq hread
      · simp only [hread] at htable'
        have hdecoder := readContents_failed argb4444 q turns n hfailed
        refine hlct ?_
        rw [← htable', result_failed (by rw [hdecoder]; exact hfailed), hdecoder]
        rfl
      · simp only [hread] at hlength
        have hstream :=
          ((readContent_settles argb4444 q hsource).sound turns hread).1.reader.source.trans hsource
        have honward := (readContents_onward argb4444 q turns n hstream).frames
        exact (hmore.trans_le honward).ne' hlength

/-- Two inputs give the same exactly when the first table that they cut is the same. -/
theorem readContents_result_iff (turns n : Nat) (hsource : s.reader.source = .stream) :
    result (readContents argb4444 p turns n s) = result (readContents argb4444 q turns n s) ↔
      (contentTables argb4444 turns n s).find? (cuts p) =
        (contentTables argb4444 turns n s).find? (cuts q) := by
  induction n generalizing s with
  | zero => exact iff_of_true rfl rfl
  | succ n ih =>
    cases herror : s.reader.formatError with
    | true =>
      rw [readContents, readContents, contentTables, if_pos herror, if_pos herror, if_pos herror]
      exact iff_of_true rfl rfl
    | false =>
      have hgo : ¬ s.reader.formatError = true := by
        rw [herror]
        exact Bool.false_ne_true
      -- neither cuts a table here: both take the turn of a whole input
      have hwhole (hp : ∀ t ∈ imageTable s, cuts p t = false)
          (hq : ∀ t ∈ imageTable s, cuts q t = false) :
          result (readContents argb4444 p turns (n + 1) s) =
            result (readContents argb4444 q turns (n + 1) s) ↔
            (match s.readContent argb4444 turns with
              | .ok (false, s) => contentTables argb4444 turns n s
              | _ => []).find? (cuts p) =
            (match s.readContent argb4444 turns with
              | .ok (false, s) => contentTables argb4444 turns n s
              | _ => []).find? (cuts q) := by
        have hread := readContent_gives argb4444 turns hsource hp
        rw [readContents, readContents, if_neg hgo, if_neg hgo, hread,
          readContent_gives argb4444 turns hsource hq]
        cases hturn : s.readContent argb4444 turns with
        | error e => exact iff_of_true rfl rfl
        | ok x =>
          obtain ⟨done, s'⟩ := x
          cases done with
          | true => exact iff_of_true rfl rfl
          | false =>
            exact ih (((readContent_settles argb4444 p hsource).sound turns
              (hread.trans hturn)).1.reader.source.trans hsource)
      rw [contentTables, if_neg hgo]
      cases htable : imageTable s with
      | none => exact hwhole (by rw [htable]; exact nofun) (by rw [htable]; exact nofun)
      | some t =>
        obtain ⟨stopped, hcut, hgives⟩ := result_cut argb4444 hsource herror htable
        simp only [Option.toList_some, List.singleton_append]
        refine find?_cuts_cons_iff (fun hp hq => ?_) (fun hp hq => ?_)
          (fun hp hq => ?_) fun hp hq => ?_
        · exact (hcut p turns n hp).trans (hcut q turns n hq).symm
        · exact fun h => hgives q turns n hq (h.symm.trans (hcut p turns n hp))
        · exact fun h => hgives p turns n hp (h.trans (hcut q turns n hq))
        · refine hwhole ?_ ?_
          · rw [htable]
            rintro _ ⟨⟩
            exact hp
          · rw [htable]
            rintro _ ⟨⟩
            exact hq

end Contents

section Header

variable {p q : Splits} {s : Decoder}

theorem readId_further (n : Nat) (r : Reader) : Further r (readId n r).2 := by
  induction n generalizing r with
  | zero => exact .refl r
  | succ n ih => exact (GifLzwDecoder.read_further r).trans (ih _)

theorem readLSD_stream (hsource : s.reader.source = .stream) :
    ∃ t, readLSD s = .ok t ∧ t.reader.source = .stream ∧ t.header.gct = s.header.gct := by
  obtain ⟨width, hwidth⟩ := readShort_stream hsource
  have hnext : s.reader.read.2.read.2.source = .stream := by
    rw [GifLzwDecoder.read_source, GifLzwDecoder.read_source, hsource]
  obtain ⟨height, hheight⟩ := readShort_stream hnext
  simp only [readLSD, hwidth, hheight, ok_bind]
  refine ⟨_, rfl, ?_, rfl⟩
  simp only [GifLzwDecoder.read_source, hsource]

/-- A header without a table is read in one way, and one with a table up to there. -/
theorem header_cases (hsource : s.reader.source = .stream) :
    (headerTable s = none ∧
      ∃ t, t.reader.source = .stream ∧ BaseGifDecoder.readHeader s = .ok t ∧ ∀ p,
        readHeader p s = .ok t) ∨
    ∃ t : Decoder, t.reader.source = .stream ∧ t.header.gct = s.header.gct ∧
      headerTable s = some ⟨t.reader.bytes.length, 3 * t.header.gctSize.toNat⟩ ∧
      BaseGifDecoder.readHeader s = openTable t
        (BaseGifDecoder.readColorTable t.header.gctSize.toNat t.reader) ∧
      ∀ p, readHeader p s = openTable t (readColorTable p t.header.gctSize.toNat t.reader) := by
  simp only [headerTable, BaseGifDecoder.readHeader, readHeader]
  have hid : (readId 6 s.reader).2.source = .stream :=
    (readId_further 6 s.reader).source.trans hsource
  by_cases hgif : (readId 6 s.reader).1.take 3 = [0x47, 0x49, 0x46]
  · simp only [hgif, if_true]
    obtain ⟨t, hlsd, hstream, hgct⟩ := readLSD_stream (s := s.withReader (readId 6 s.reader).2) hid
    simp only [hlsd, ok_bind]
    by_cases htable : t.header.gctFlag = true ∧ t.reader.formatError = false
    · rw [if_pos htable, if_pos htable]
      refine .inr ⟨t, hstream, hgct, rfl, ?_, fun p => if_pos htable⟩
      rcases BaseGifDecoder.readColorTable t.header.gctSize.toNat t.reader with ⟨table, r⟩
      cases table <;> rfl
    · rw [if_neg htable, if_neg htable]
      exact .inl ⟨rfl, t, hstream, rfl, fun p => if_neg htable⟩
  · simp only [hgif, if_false]
    exact .inl ⟨trivial, _, hid, rfl, fun _ => rfl⟩

end Header

section Runs

variable (argb4444 : Color → Color) {p q : Splits}

/-- Behind the header, whose table is cut or is there. -/
theorem readStream_opened {turns : Nat} {data : List Byte} {t : Decoder}
    {table : Option Table × Reader}
    (h : readHeader p (initial .stream data) = openTable t table) :
    readStream argb4444 p turns data =
      match openTable t table with
      | .error e => ⟨initial .stream data, some e⟩
      | .ok s => if s.reader.formatError then
        ⟨s, none⟩ else readContents argb4444 p turns turns s := by
  rw [readStream, h]

/-- With the global table, the run ends with it, unless it throws. -/
theorem readStream_gives (turns : Nat) {data : List Byte} {t : Decoder} {gct : Table}
    {r : Reader} (hr : r.source = .stream) (h : readHeader p (initial .stream data) =
      openTable t (some gct, r)) :
    (result (readStream argb4444 p turns data)).status ≠ .formatError ∨
      (result (readStream argb4444 p turns data)).header.gct = some gct := by
  rw [readStream_opened argb4444 h, openTable]
  by_cases hindex : 0 ≤ t.header.bgIndex ∧ t.header.bgIndex < 256
  · rw [if_pos hindex]
    right
    simp only []
    split
    · rfl
    · exact (readContents_onward argb4444 p turns turns (s := { t with
        reader := r
        header := { t.header with gct := some gct }
        screen := { t.screen with bgColor := gct t.header.bgIndex } }) hr).gct
  · rw [if_neg hindex]
    exact .inl nofun

theorem readStream_cut (turns : Nat) {data : List Byte} {t : Decoder} {r : Reader}
    (h : readHeader p (initial .stream data) = openTable t (none, r)) :
    result (readStream argb4444 p turns data) =
      ⟨.formatError, t.header, t.header.currentFrame.bind fun ref => t.objects[ref]?,
        t.screen.frames⟩ := by
  rw [readStream_opened argb4444 h]
  rfl

/-- For any number of turns. -/
theorem readStream_result_iff (turns : Nat) (data : List Byte) :
    result (readStream argb4444 p turns data) = result (readStream argb4444 q turns data) ↔
      (tables argb4444 turns data).find? (cuts p) = (tables argb4444
        turns data).find? (cuts q) := by
  rcases header_cases (s := initial .stream data) rfl with
    ⟨htable, t, hsource, hwhole, hread⟩ | ⟨t, hsource, hgct, htable, hwhole, hread⟩
  · rw [readStream, readStream, hread, hread, tables, htable, hwhole]
    simp only [Option.toList_none, List.nil_append]
    split
    · exact iff_of_true rfl rfl
    · exact readContents_result_iff argb4444 turns turns hsource
  · have hnone : t.header.gct = none := hgct
    set request : Request := ⟨t.reader.bytes.length, 3 * t.header.gctSize.toNat⟩ with hrequest
    set gct : Table := colorAt
      (t.reader.bytes.take (3 * t.header.gctSize.toNat)) t.header.gctSize.toNat with hcolors
    set r : Reader := { t.reader with bytes := t.reader.bytes.drop (3 *
      t.header.gctSize.toNat) } with hr
    have hcut {p : Splits} (hp : cuts p request = true) : result
        (readStream argb4444 p turns data) =
        ⟨.formatError, t.header, t.header.currentFrame.bind fun ref =>
          t.objects[ref]?, t.screen.frames⟩ := by
      obtain ⟨bytes, hshort, -⟩ := readColorTable_cut hp
      exact readStream_cut argb4444 turns ((hread p).trans (congrArg (openTable t) hshort))
    have hgives {p : Splits} (hp : cuts p request = false) :
        readHeader p (initial .stream data) = openTable t (some gct, r) :=
      (hread p).trans (congrArg (openTable t) (readColorTable_gives hp))
    have hdiffer {p q : Splits} (hp : cuts p request = true) (hq : cuts q request = false) :
        result (readStream argb4444 p turns data) ≠ result (readStream argb4444 q turns data) := by
      intro heq
      rw [hcut hp] at heq
      rcases readStream_gives argb4444 turns
        (show r.source = .stream from hsource) (hgives hq) with hstatus | htable
      · exact hstatus (congrArg Result.status heq).symm
      · rw [← congrArg Result.header heq] at htable
        exact nomatch hnone.symm.trans htable
    rw [tables, htable]
    simp only [Option.toList_some, List.singleton_append]
    refine find?_cuts_cons_iff (fun hp hq => ?_) (fun hp hq => ?_) (fun hp hq => ?_) fun hp hq => ?_
    · exact (hcut hp).trans (hcut hq).symm
    · exact hdiffer hp hq
    · exact (hdiffer hq hp).symm
    · have hopen : BaseGifDecoder.readHeader (initial .stream data) = openTable t
          (some gct, r) := by
        rw [hwhole, ← readColorTable_whole _ hsource, readColorTable_gives (whole_of_gives hp)]
      rw [readStream_opened argb4444 (hgives hp), readStream_opened argb4444
        (hgives hq), hopen, openTable]
      by_cases hindex : 0 ≤ t.header.bgIndex ∧ t.header.bgIndex < 256
      · rw [if_pos hindex]
        simp only []
        split
        · exact iff_of_true rfl rfl
        · exact readContents_result_iff argb4444 turns turns hsource
      · rw [if_neg hindex]
        exact iff_of_true rfl rfl

theorem readHeader_settles (p : Splits) (data : List Byte) :
    Settles Fault.cutOff (fun s => s.reader.source = .stream) fun _ =>
  readHeader p (initial .stream data) := by
  rcases header_cases (s := initial .stream data) rfl with ⟨-, t, hsource, -, hread⟩
    | ⟨t, hsource, -, -, -, hread⟩
  · simp only [hread]
    exact .ok hsource
  · have hstream := (readColorTable_further p t.header.gctSize.toNat t.reader).source
    simp only [hread]
    generalize readColorTable p t.header.gctSize.toNat t.reader = opened at hstream
    obtain ⟨table, r⟩ := opened
    cases table with
    | none => exact .ok (hstream.trans hsource)
    | some gct => exact .ite (fun _ => .ok (hstream.trans hsource)) fun _ => .error nofun

theorem readStream_ends (p : Splits) (data : List Byte) :
    ∃ m, ∀ turns ≥ m, (readStream argb4444 p turns data).fault ≠ some .cutOff := by
  simp only [readStream]
  have hheader := readHeader_settles p data
  cases hread : readHeader p (initial .stream data) with
  | error e =>
    obtain ⟨n, res, hres, hn⟩ := hheader.ends
    rw [← hn n le_rfl, hread] at hres
    exact ⟨0, fun _ _ h => hres (congrArg Except.error (Option.some.inj h))⟩
  | ok s =>
    obtain ⟨m, hm⟩ := readContents_ends argb4444 p (hheader.sound 0 hread)
    refine ⟨m, fun turns hturns => ?_⟩
    simp only []
    split
    · exact nofun
    · exact hm turns hturns turns hturns

/-- The decoder as it is modelled elsewhere reads an input that gives all there is. -/
theorem readStream_whole (turns : Nat) (data : List Byte) :
    readStream argb4444 .whole turns data = BaseGifDecoder.readStream argb4444 turns data := by
  have hcontents {n : Nat} {s : Decoder} (hsource : s.reader.source = .stream) :
      readContents argb4444 .whole turns n s = s.readContents argb4444 turns n := by
    induction n generalizing s with
    | zero => rfl
    | succ n ih =>
      rw [readContents, Decoder.readContents]
      split
      · rfl
      · rw [readContent_whole argb4444 turns hsource]
        cases hread : s.readContent argb4444 turns with
        | error e => rfl
        | ok x =>
          obtain ⟨done, s'⟩ := x
          cases done with
          | true => rfl
          | false => exact ih (((readContent_settles argb4444 .whole hsource).sound turns
              ((readContent_whole argb4444 turns hsource).trans hread)).1.reader.source.trans
                hsource)
  have hheader : readHeader .whole (initial .stream data) =
      BaseGifDecoder.readHeader (initial .stream data) := by
    rcases header_cases (s := initial .stream data) rfl with ⟨-, t, -, hwhole, hread⟩
      | ⟨t, hsource, -, -, hwhole, hread⟩
    · rw [hwhole, hread]
    · rw [hwhole, hread, readColorTable_whole _ hsource]
  rw [readStream, BaseGifDecoder.readStream, readFile]
  cases hread : readHeader .whole (initial .stream data) with
  | error e => rw [← hheader, hread]
  | ok s =>
    rw [← hheader, hread]
    simp only [hcontents ((readHeader_settles .whole data).sound 0 hread)]

/-- Both runs end, and a caller finds the same. -/
def SameResult (p q : Splits) (data : List Byte) : Prop :=
  ∃ m, ∀ turns ≥ m, (readStream argb4444 p turns data).fault ≠ some .cutOff ∧
    (readStream argb4444 q turns data).fault ≠ some .cutOff ∧
    result (readStream argb4444 p turns data) = result (readStream argb4444 q turns data)

/-- The first colour table that one of them cuts is the first that the other cuts, or none is cut.
-/
def SameFirstCut (p q : Splits) (data : List Byte) : Prop :=
  ∃ m, ∀ turns ≥ m, (tables argb4444 turns data).find? (cuts p) =
    (tables argb4444 turns data).find? (cuts q)

theorem sameResult_iff (p q : Splits) (data : List Byte) :
    SameResult argb4444 p q data ↔ SameFirstCut argb4444 p q data := by
  constructor
  · rintro ⟨m, hm⟩
    exact ⟨m, fun turns hturns => (readStream_result_iff argb4444 turns data).mp
      (hm turns hturns).2.2⟩
  · rintro ⟨m, hm⟩
    obtain ⟨mp, hp⟩ := readStream_ends argb4444 p data
    obtain ⟨mq, hq⟩ := readStream_ends argb4444 q data
    refine ⟨max m (max mp mq), fun turns hturns => ⟨hp turns (by omega), hq turns (by omega), ?_⟩⟩
    exact (readStream_result_iff argb4444 turns data).mpr (hm turns (by omega))

/-- A screen of one pixel with a global table of two colours, and no image. -/
def emptyGif : List Byte :=
  [0x47, 0x49, 0x46, 0x38, 0x39, 0x61, 1, 0, 1, 0, 0x80, 0, 0, 0, 0, 0, 0, 0, 0, 0x3b]

/-- One byte at a time, the table is taken for the end of the input. -/
theorem not_sameResult_emptyGif : ¬ SameResult id .whole .single emptyGif := by
  rintro ⟨m, hm⟩
  have hwhole : (result (readStream id .whole (m + 1) emptyGif)).status = .finish := rfl
  have hsingle : (result (readStream id .single (m + 1) emptyGif)).status = .formatError := rfl
  rw [(hm (m + 1) (Nat.le_succ m)).2.2, hsingle] at hwhole
  cases hwhole

end Runs

end InputStream

end BaseGifDecoder
