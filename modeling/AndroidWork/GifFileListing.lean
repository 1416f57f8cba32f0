import AndroidWork.GifFileStream

/-!
# A whole file listed as raw data

Every image is described in the frame object that the last control extension
made. An image without one of its own is described over the image before it.
-/
namespace GifFile

open BaseGifDecoder
open GifLzwDecoder (Byte Reader Source Buffers)

/-- Frame data without the place of the image data. -/
def bare (frame : GifFrameData) : GifFrameData := { frame with bufferFrameStart := 0 }

/-- What the object of an image ends as: the last image before the next control extension. -/
def settled : GifFrameData × Image → List Block → GifFrameData × Image
  | p, [] => p
  | p, .control _ :: _ => p
  | p, .image i :: blocks => settled (i.describe .rawData p.1, i) blocks
  | p, .extension _ :: blocks => settled p blocks

/-- The images that are listed, as their objects end. -/
def listedFrames : Option GifFrameData → List Block → List (GifFrameData × Image)
  | _, [] => []
  | _, .control c :: blocks => listedFrames (some (c.frame .rawData)) blocks
  | current, .image i :: blocks =>
    let frame := i.describe .rawData (current.getD newFrameData)
    settled (frame, i) blocks :: listedFrames (some frame) blocks
  | current, .extension _ :: blocks => listedFrames current blocks

/-- An object that holds an image, and the place of its data. -/
def Holds (s : Decoder) (ref : Nat) (p : GifFrameData × Image) : Prop :=
  ∃ object post, s.objects[ref]? = some object ∧ bare object = p.1 ∧
    s.data.drop object.bufferFrameStart = p.2.data ++ post

section

variable {argb4444 : Color → Color} {f : File} {s s' : Decoder} {current : Option GifFrameData}
    {post : List Byte}

/-- Listing takes nothing back, and only the current object is written. -/
structure Extends (s s' : Decoder) (refs : List Nat) : Prop where
  frames : s'.header.frames = s.header.frames ++ refs
  frameCount : s'.header.frameCount = s.header.frameCount + refs.length
  gct : s'.header.gct = s.header.gct
  bgIndex : s'.header.bgIndex = s.header.bgIndex
  data : s'.data = s.data
  screen : s'.screen = s.screen
  length : s.objects.length ≤ s'.objects.length
  current : s'.header.currentFrame = s.header.currentFrame ∨
    ∃ ref, s'.header.currentFrame = some ref ∧ s.objects.length ≤ ref
  objects : ∀ k < s.objects.length, s.header.currentFrame ≠ some k → s'.objects[k]? = s.objects[k]?

theorem Extends.trans {s₁ s₂ : Decoder} {refs refs' : List Nat} (h : Extends s s₁ refs)
    (h' : Extends s₁ s₂ refs') :
    Extends s s₂ (refs ++ refs') := by
  refine ⟨?_, ?_, h'.gct.trans h.gct, h'.bgIndex.trans h.bgIndex, h'.data.trans h.data,
    h'.screen.trans h.screen,
    h.length.trans h'.length, ?_, fun k hk hcurrent => ?_⟩
  · rw [h'.frames, h.frames, List.append_assoc]
  · rw [h'.frameCount, h.frameCount, List.length_append, Nat.add_assoc]
  · rcases h'.current with heq | ⟨ref, href, hnew⟩
    · rw [heq]
      exact h.current
    · exact .inr ⟨ref, href, h.length.trans hnew⟩
  · rw [h'.objects k (lt_of_lt_of_le hk h.length), h.objects k hk hcurrent]
    rcases h.current with heq | ⟨ref, href, hnew⟩
    · rwa [heq]
    · rw [href]
      rintro ⟨⟩
      exact absurd hnew (Nat.not_le.mpr hk)

/-- What an object holds stays when another one is current. -/
theorem Extends.holds {refs : List Nat} {k : Nat} {p : GifFrameData × Image} (h : Extends s s' refs)
    (hcurrent : s.header.currentFrame ≠ some k) (hholds : Holds s k p) : Holds s' k p := by
  obtain ⟨object, rest, hobject, hbare, hdata⟩ := hholds
  refine ⟨object, rest, ?_, hbare, ?_⟩
  · rw [h.objects k (List.getElem?_eq_some_iff.mp hobject).1 hcurrent, hobject]
  · rw [h.data, hdata]

theorem extends_controlled (s : Decoder) (c : Control) (r : Reader) :
    Extends s (controlled s c r) [] := by
  refine ⟨(List.append_nil _).symm, rfl, rfl, rfl, rfl, rfl, ?_,
    .inr ⟨s.objects.length, rfl, le_rfl⟩, fun k hk _ => ?_⟩
  · simp only [controlled, List.length_append]
    omega
  · exact List.getElem?_append_left hk

theorem extends_counted (s : Decoder) (r : Reader) (count : Int) :
    Extends s { s with reader := r, loopCount := count } [] :=
  ⟨(List.append_nil _).symm, rfl, rfl, rfl, rfl, rfl, le_rfl, .inl rfl, fun _ _ _ => rfl⟩

/-- The decoder behind a listed image. -/
def listed (s : Decoder) (frame : GifFrameData) (start : Nat) (r : Reader) : Decoder :=
  { s with
    reader := r
    objects := (readied s).set (nextRef s) { frame with bufferFrameStart := start }
    header := { s.header with
      currentFrame := some (nextRef s)
      frameCount := s.header.frameCount + 1
      frames := s.header.frames ++ [nextRef s] } }

theorem extends_listed (s : Decoder) (frame : GifFrameData) (start : Nat) (r : Reader) :
    Extends s (listed s frame start r) [nextRef s] := by
  refine ⟨rfl, rfl, rfl, rfl, rfl, rfl, ?_, ?_, fun k hk hcurrent => ?_⟩
  · simp only [listed, List.length_set, readied]
    split
    · simp
    · exact le_rfl
  · simp only [listed, nextRef]
    cases s.header.currentFrame with
    | none => exact .inr ⟨_, rfl, le_rfl⟩
    | some ref => exact .inl rfl
  · have hne : nextRef s ≠ k := by
      rw [nextRef]
      cases hframe : s.header.currentFrame with
      | none => exact hk.ne'
      | some ref =>
        rintro rfl
        exact hcurrent hframe
    simp only [listed, List.getElem?_set_ne hne, readied]
    split
    · exact List.getElem?_append_left hk
    · rfl

theorem modify_set {α : Type} (g : α → α) (l : List α) (k : Nat) (a : α) :
    (l.set k a).modify k g = l.set k (g a) := by
  induction l generalizing k with
  | nil => simp
  | cons b l ih =>
    cases k with
    | zero => rfl
    | succ k => exact congrArg (b :: ·) (ih k)

/-- An image is listed with the place of its data. -/
theorem Reading.readContent_listed (i : Image)
    (h : Reading .rawData f s current ((Block.image i).bytes ++ post)) :
    ∃ n, ∀ turns ≥ n, s.readContent argb4444 turns =
      .ok (false, listed s (i.describe .rawData (current.getD newFrameData))
      (s.data.length - (i.data ++ post).length) ⟨.rawData, post, false⟩) := by
  obtain ⟨-, -, body, data, -, hbody, hblocks, -⟩ := i.spelled post
  obtain ⟨n, hn⟩ := skip_blocks .rawData hblocks
  refine ⟨n, fun turns hturns => ?_⟩
  have hread : (⟨.rawData, i.data ++ post, false⟩ : Reader).read.2 = ⟨.rawData, body, false⟩ := by
    rw [hbody]
    rfl
  rw [h.readContent_image i turns]
  simp only [Decoder.listFrame, GifFile.described, Bool.false_eq_true, if_false, hread,
    hn turns hturns, ok_bind, Except.map,
    listed, modify_set]

/-- The listed image is in its object. -/
theorem holds_listed {i : Image} (h : Reading .rawData f s current ((Block.image i).bytes ++ post))
    (hsuffix : s.reader.bytes <:+ s.data) (frame : GifFrameData) (r : Reader) :
    Holds (listed s frame (s.data.length - (i.data ++ post).length) r) (nextRef s)
    (bare frame, i) := by
  have hlt := (List.getElem?_eq_some_iff.mp h.readied).1
  refine ⟨_, post, List.getElem?_set_self hlt, rfl, ?_⟩
  rw [h.reader] at hsuffix
  have hdata : i.data ++ post <:+ s.data := by
    refine List.IsSuffix.trans ⟨0x2C :: i.descriptor, ?_⟩ hsuffix
    simp only [Block.bytes, List.cons_append, List.append_assoc]
  exact (List.suffix_iff_eq_drop.mp hdata).symm

theorem Reading.listed {i : Image}
    (h : Reading .rawData f s current ((Block.image i).bytes ++ post)) (frame : GifFrameData)
    (start : Nat) : Reading .rawData f (listed s frame start ⟨.rawData, post, false⟩)
      (some { frame with bufferFrameStart := start }) post := by
  have hlt := (List.getElem?_eq_some_iff.mp h.readied).1
  exact reading_some rfl h.gct h.bgIndex rfl (List.getElem?_set_self hlt)

theorem describe_bare (i : Image) (current : Option GifFrameData) :
    i.describe .rawData ((current.map bare).getD newFrameData) =
      bare (i.describe .rawData (current.getD newFrameData)) := by
  cases current <;> rfl

/-- What listing the blocks that are left gives: the images of `listedFrames`, and
in the current object what it settles to. -/
structure Listing (s s' : Decoder) (current : Option GifFrameData) (blocks : List Block)
    (refs : List Nat) : Prop where
  grown : Extends s s' refs
  images : List.Forall₂ (Holds s') refs (listedFrames (current.map bare) blocks)
  settled : ∀ ref p, s.header.currentFrame = some ref →
    current.map bare = some p.1 → Holds s ref p →
    Holds s' ref (settled p blocks)

/-- The blocks that are left are listed. -/
theorem Reading.listContents (blocks : List Block)
    (h : Reading .rawData f s current (blocks.flatMap Block.bytes ++ 0x3b :: post))
    (hsuffix : s.reader.bytes <:+ s.data) :
    ∃ n s' refs, (∀ turns ≥ n, ∀ fuel ≥ n, s.readContents argb4444 turns fuel = ⟨s', none⟩) ∧
      s'.reader = ⟨.rawData, post, false⟩ ∧ Listing s s' current blocks refs := by
  induction blocks generalizing s current with
  | nil =>
    refine ⟨1, s.withReader ⟨.rawData, post, false⟩, [], fun turns _ fuel hfuel => ?_, rfl,
      extends_counted s _ s.loopCount, .nil, fun _ _ _ _ hholds => hholds⟩
    obtain ⟨fuel, rfl⟩ : ∃ k, fuel = k + 1 := ⟨fuel - 1, by omega⟩
    rw [Decoder.readContents, h.reader, h.trailer turns]
    rfl
  | cons block blocks ih =>
    rw [List.flatMap_cons, List.append_assoc] at h
    -- a turn that reads the block and goes on
    have hgoes (n : Nat) (s₁ : Decoder) (current₁ : Option GifFrameData) (refs₁ : List Nat)
        (hturn : ∀ turns ≥ n, s.readContent argb4444 turns = .ok (false, s₁))
          (hgrown : Extends s s₁ refs₁)
        (h₁ : Reading .rawData f s₁ current₁ (blocks.flatMap Block.bytes ++ 0x3b :: post)) :
        ∃ n s' refs, (∀ turns ≥ n, ∀ fuel ≥ n, s.readContents argb4444 turns fuel = ⟨s', none⟩) ∧
          s'.reader = ⟨.rawData, post, false⟩ ∧ Extends s s' (refs₁ ++ refs) ∧
          Listing s₁ s' current₁ blocks refs := by
      have hsuffix₁ : s₁.reader.bytes <:+ s₁.data := by
        rw [h₁.reader, hgrown.data]
        rw [h.reader] at hsuffix
        exact List.IsSuffix.trans ⟨_, rfl⟩ hsuffix
      obtain ⟨m, s', refs, hrun, hreader, hlisting⟩ := ih h₁ hsuffix₁
      refine ⟨max n m + 1, s', refs, fun turns hturns fuel hfuel => ?_, hreader,
        hgrown.trans hlisting.grown, hlisting⟩
      obtain ⟨fuel, rfl⟩ : ∃ k, fuel = k + 1 := ⟨fuel - 1, by omega⟩
      rw [Decoder.readContents, h.reader, hturn turns (by omega)]
      exact hrun turns (by omega) fuel (by omega)
    cases block with
    | control c =>
      obtain ⟨n, s', refs, hrun, hreader, hgrown, hlisting⟩ :=
        hgoes 0 (controlled s c ⟨.rawData, _, false⟩) _ []
        (fun turns _ => readContent_control c turns h.reader) (extends_controlled _ _ _) h.control
      refine ⟨n, s', refs, hrun, hreader, hgrown, hlisting.images, fun ref p href _ hholds => ?_⟩
      -- the control extension makes a new object current
      obtain ⟨object, rest, hobject, hbare, hdata⟩ := hholds
      have hlt := (List.getElem?_eq_some_iff.mp hobject).1
      refine hlisting.grown.holds (fun hcurrent => ?_) ⟨object, rest, ?_, hbare, hdata⟩
      · exact absurd (Option.some.inj hcurrent) hlt.ne'
      · exact (List.getElem?_append_left hlt).trans hobject
    | extension e =>
      obtain ⟨n, count, hn⟩ := readContent_extension (s := s) e h.reader
      obtain ⟨n, s', refs, hrun, hreader, hgrown, hlisting⟩ :=
        hgoes n { s with reader := ⟨.rawData, _, false⟩, loopCount := count }
        _ [] hn (extends_counted _ _ _) (h.extension count)
      exact ⟨n, s', refs, hrun, hreader, hgrown, hlisting.images, hlisting.settled⟩
    | image i =>
      obtain ⟨n, hn⟩ := h.readContent_listed i
      obtain ⟨n, s', refs, hrun, hreader, hgrown, hlisting⟩ :=
        hgoes n _ _ _ hn (extends_listed _ _ _ _) (h.listed _ _)
      have hsettled : Holds s' (nextRef s)
          (GifFile.settled (bare (i.describe .rawData (current.getD newFrameData)), i) blocks) :=
        hlisting.settled (nextRef s) (bare (i.describe .rawData (current.getD newFrameData)), i) rfl
          rfl
          (holds_listed h hsuffix _ _)
      refine ⟨n, s', nextRef s :: refs, hrun, hreader, hgrown, ?_, fun ref p href hcurrent _ => ?_⟩
      · rw [listedFrames, describe_bare]
        exact .cons hsettled hlisting.images
      · have href' : nextRef s = ref := by
          rw [nextRef, href]
          rfl
        rw [← describe_bare, hcurrent, href'] at hsettled
        exact hsettled

end

end GifFile
