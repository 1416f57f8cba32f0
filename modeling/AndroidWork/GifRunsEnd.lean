import AndroidWork.GifFileModes
import AndroidWork.GifImageEnd
import AndroidWork.Turns

/-!
# Reading a stream comes to an end

Every part of a file is read in a number of turns, and no part goes back.
-/
namespace GifLzwDecoder

/-- `r'` is `r`, read further. -/
structure Further (r r' : Reader) : Prop where
  source : r'.source = r.source
  length : r'.bytes.length ≤ r.bytes.length

theorem Further.refl (r : Reader) : Further r r := ⟨rfl, le_rfl⟩

theorem Further.trans {r r' r'' : Reader} (h : Further r r')
    (h' : Further r' r'') : Further r r'' :=
  ⟨h'.source.trans h.source, h'.length.trans h.length⟩

theorem read_further (r : Reader) : Further r r.read.2 := ⟨read_source r, read_length r⟩

theorem readBlock_further (r : Reader) : Further r r.readBlock.2 :=
  ⟨readBlock_source r, le_trans (Nat.le_add_right _ _) (readBlock_length r)⟩

theorem read_shorter {r : Reader} (hsource : r.source = .stream) (h : r.read.1 ≠ -1) :
    r.read.2.bytes.length < r.bytes.length := by
  rw [Reader.read] at h ⊢
  split at h
  · rw [hsource] at h
    exact absurd rfl h
  · rename_i b bytes hbytes
    rw [hbytes]
    exact Nat.lt_succ_self bytes.length

/-- The size of a block is a byte of the input. -/
theorem readBlock_shorter {r : Reader} (h : 0 < r.read.1) :
    r.readBlock.2.bytes.length < r.bytes.length := by
  have hread : r.read.2.bytes.length < r.bytes.length := by
    rw [Reader.read] at h ⊢
    split at h
    · split at h
      · exact absurd (show (0 : Int) < -1 from h) (by decide)
      · exact absurd h (lt_irrefl 0)
    · rename_i b bytes hbytes
      rw [hbytes]
      exact Nat.lt_succ_self bytes.length
  refine lt_of_le_of_lt ?_ hread
  rw [Reader.readBlock, if_pos h]
  split
  · rw [List.length_drop]
    exact Nat.sub_le _ _
  · split
    · rw [List.length_drop]
      exact Nat.sub_le _ _
    · exact le_rfl

section

variable {k : Params} {s t : Decoder}

theorem loadByte_further (s : Decoder) : Further s.reader (loadByte s).2.reader := by
  have hread : Further s.reader (if s.block = [] then
      s.reader.readBlock else (s.block, s.reader)).2 := by
    split
    · exact readBlock_further _
    · exact .refl _
  rw [loadByte]
  generalize (if s.block = [] then s.reader.readBlock else (s.block, s.reader)) = r at hread
  obtain ⟨block, r⟩ := r
  cases block <;> exact hread

theorem turn_further {go : Bool} (h : turn k s = .ok (go, t)) : Further s.reader t.reader := by
  by_cases hasks : Asks s
  · rw [turn_load hasks.1 hasks.2] at h
    have hload := loadByte_further s
    rwa [Except.ok.inj h] at hload
  · rw [(turn_input hasks h).1]
    exact .refl _

theorem loop_further {turns : Nat} (h : loop k turns s = .ok (some t)) :
    Further s.reader t.reader := by
  induction turns generalizing s with
  | zero =>
    rw [loop] at h
    split at h
    · cases h
    · cases h
      exact .refl _
  | succ turns ih =>
    rw [loop] at h
    by_cases hpi : s.pi < k.npix
    · rw [if_pos hpi] at h
      cases hturn : turn k s with
      | error e =>
        simp only [hturn] at h
        cases h
      | ok p =>
        obtain ⟨go, u⟩ := p
        simp only [hturn] at h
        cases go with
        | false =>
          cases h
          exact turn_further hturn
        | true => exact (turn_further hturn).trans (ih h)
    · rw [if_neg hpi] at h
      cases h
      exact .refl _

theorem start_eq {iw ih : Nat} {buf : Buffers} {r : Reader} (h : start iw ih buf r = .ok (k, s)) :
    ∃ pixels, s = initial k buf r.read.2 pixels := by
  rw [start] at h
  obtain ⟨⟨n, pixels⟩, -, h⟩ := eq_ok_of_bind h
  simp only at h
  split at h
  · cases h
  · cases h
    exact ⟨pixels, rfl⟩

/-- Without bits in a code, the decoder stops at the first one. -/
theorem loop_settles (hkept : Kept k s) (hsize : s.codeSize = k.codeSize) (hbits : s.bits = 0) :
    ∃ n res, res ≠ .ok none ∧ ∀ turns ≥ n, loop k turns s = res := by
  by_cases hk : 0 < k.codeSize
  · obtain ⟨n, u, -, ⟨-, hn⟩ | ⟨-, ⟨t, -, hn⟩ | ⟨e, -, hn⟩⟩⟩ := loop_halts hk (hsize ▸ hk)
    · exact ⟨n, .ok (some u), nofun, hn⟩
    · exact ⟨n, .ok (some t), nofun, hn⟩
    · exact ⟨n, .error e, nofun, hn⟩
  · rcases hkept with ⟨hfits, -⟩ | hidle
    · exact absurd hfits.codeSize hk
    · have hstop : s.available < nextCode s := by
        rw [hidle.nextCode]
        exact hidle.neg
      have hturn := turn_stop (k := k) hidle.stack (by omega) (.inl hstop)
      by_cases hpi : s.pi < k.npix
      · refine ⟨1, .ok (some (dropCode s)), nofun, fun turns hturns => ?_⟩
        obtain ⟨turns, rfl⟩ : ∃ n, turns = n + 1 := ⟨turns - 1, by omega⟩
        rw [loop, if_pos hpi]
        simp only [hturn]
      · exact ⟨0, .ok (some s), nofun, fun turns _ => loop_done hpi turns⟩

theorem decodeImageData_further {iw ih : Nat} {buf : Buffers} {r : Reader} {turns : Nat}
    {res : Reader × Buffers}
    (h : decodeImageData iw ih buf r turns = .ok (some res)) : Further r res.1 := by
  rw [decodeImageData] at h
  cases hstart : start iw ih buf r with
  | error e =>
    simp only [hstart] at h
    cases h
  | ok p =>
    obtain ⟨k, s⟩ := p
    simp only [hstart] at h
    obtain ⟨pixels, rfl⟩ := start_eq hstart
    cases hloop : loop k turns (initial k buf r.read.2 pixels) with
    | error e =>
      simp only [hloop] at h
      cases h
    | ok t =>
      simp only [hloop] at h
      cases t with
      | none => cases h
      | some t =>
        cases h
        exact (read_further r).trans (loop_further hloop)

theorem decodeImageData_settles (iw ih : Nat) (buf : Buffers) (r : Reader) :
    ∃ n res, res ≠ .ok none ∧ ∀ turns ≥ n, decodeImageData iw ih buf r turns = res := by
  rcases start_cases iw ih buf r with ⟨-, hstart⟩ | ⟨-, -, hstart⟩ | ⟨-, -, k, s, hstart, hkept⟩
  · exact ⟨0, .error .negativeArraySize, by simp, fun turns _ => by rw [decodeImageData, hstart]⟩
  · exact ⟨0, .error .prefixIndex, by simp, fun turns _ => by rw [decodeImageData, hstart]⟩
  · obtain ⟨pixels, rfl⟩ := start_eq hstart
    obtain ⟨n, res, hres, hn⟩ := loop_settles hkept rfl rfl
    cases res with
    | error e =>
      exact ⟨n, .error e, by simp, fun turns hturns => by
        simp only [decodeImageData, hstart, hn turns hturns]⟩
    | ok t =>
      cases t with
      | none => exact absurd rfl hres
      | some t =>
        refine ⟨n,
          .ok (some (t.reader, ⟨some (k.pixelsLength, cleared k t), t.prefixes, t.suffixes⟩)), by
            simp, ?_⟩
        intro turns hturns
        simp only [decodeImageData, hstart, hn turns hturns]

end

end GifLzwDecoder

namespace BaseGifDecoder

open GifLzwDecoder (Reader Further Source)
open Turns (Settles)

theorem skip_settles (r : Reader) : Settles Fault.cutOff (Further r) fun turns => skip turns r := by
  induction hlen : r.bytes.length using Nat.strong_induction_on generalizing r with
  | h length ih =>
    subst hlen
    refine .turn rfl ?_
    by_cases hmore : 0 < r.read.1 ∧ r.readBlock.2.formatError = false
    · have hskip : (fun turns => skip (turns + 1) r) = fun turns => skip turns r.readBlock.2 :=
        funext fun turns => if_pos hmore
      rw [hskip]
      exact (ih _ (GifLzwDecoder.readBlock_shorter hmore.1) _ rfl).imp fun r' =>
        (GifLzwDecoder.readBlock_further r).trans
    · have hskip : (fun turns => skip (turns + 1) r) = fun _ => .ok r.readBlock.2 :=
        funext fun turns => if_neg hmore
      rw [hskip]
      exact .ok (GifLzwDecoder.readBlock_further r)

/-- What reading leaves alone, or adds to. -/
structure Onward (s s' : Decoder) : Prop where
  reader : Further s.reader s'.reader
  gct : s'.header.gct = s.header.gct
  frames : s.screen.frames.length ≤ s'.screen.frames.length

theorem Onward.refl (s : Decoder) : Onward s s := ⟨.refl _, rfl, le_rfl⟩

theorem Onward.trans {s s' s'' : Decoder} (h : Onward s s') (h' : Onward s' s'') : Onward s s'' :=
  ⟨h.reader.trans h'.reader, h'.gct.trans h.gct, h.frames.trans h'.frames⟩

theorem Onward.withReader {s : Decoder} {r : Reader} (h : Further s.reader r) :
    Onward s (s.withReader r) := ⟨h, rfl, le_rfl⟩

theorem readNetscapeExt_settles (s : Decoder) :
    Settles Fault.cutOff (Onward s) fun turns => s.readNetscapeExt turns := by
  induction hlen : s.reader.bytes.length using Nat.strong_induction_on generalizing s with
  | h length ih =>
    subst hlen
    refine .turn rfl ?_
    set t : Decoder :=
      { s with reader := s.reader.readBlock.2,
               loopCount := loopCountOf s.reader.readBlock.1 s.loopCount } with ht
    have honward : Onward s t := ⟨GifLzwDecoder.readBlock_further s.reader, rfl, le_rfl⟩
    by_cases hmore : 0 < s.reader.read.1 ∧ t.reader.formatError = false
    · have hext : (fun turns => s.readNetscapeExt (turns + 1)) = fun turns =>
        t.readNetscapeExt turns :=
        funext fun turns => if_pos hmore
      rw [hext]
      exact (ih _ (GifLzwDecoder.readBlock_shorter hmore.1) t rfl).imp fun s' => honward.trans
    · have hext : (fun turns => s.readNetscapeExt (turns + 1)) = fun _ => .ok t :=
        funext fun turns => if_neg hmore
      rw [hext]
      exact .ok honward

section Playing

variable (argb4444 : Color → Color)

theorem link_frames {s t : Screen} {delay : Int} (h : s.link delay = .ok t) :
    t.frames.length = s.frames.length + 1 := by
  rw [Screen.link] at h
  split at h <;> cases h <;> exact List.length_append

theorem showFrame_frames {s t : Screen} {frame : GifFrameData} {act : Table}
    {pixels : Nat × (Int → GifLzwDecoder.Byte)}
    (h : Screen.showFrame argb4444 Screen.link s frame act pixels = .ok t) :
    t.frames.length = s.frames.length + 1 := by
  rw [Screen.showFrame] at h
  obtain ⟨u, hset, h⟩ := bind_eq_ok h
  obtain ⟨v, hlink, h⟩ := bind_eq_ok h
  cases h
  have hframes : u.frames = { s with frameCount := s.frameCount + 1 }.frames :=
    GifFile.setPixels_frames hset
  exact (link_frames hlink).trans (congrArg (fun frames => frames.length + 1) hframes)

theorem link_ne_cutOff (s : Screen) (delay : Int) : s.link delay ≠ .error .cutOff := by
  rw [Screen.link]
  split <;> simp

theorem showFrame_ne_cutOff (s : Screen) (frame : GifFrameData) (act : Table)
    (pixels : Nat × (Int → GifLzwDecoder.Byte)) :
    Screen.showFrame argb4444 Screen.link s frame act pixels ≠ .error .cutOff := by
  rw [Screen.showFrame]
  exact bind_ne_error GifFile.setPixels_ne_cutOff fun u =>
    bind_ne_error (link_ne_cutOff u _) fun v => by simp

theorem decodeImageData_settles (s : Decoder) (frame : GifFrameData) :
    Settles Fault.cutOff (fun t => Further (s.imageReader frame) t.reader ∧ t.header = s.header ∧
    t.screen = s.screen ∧
      t.objects = s.objects) fun turns => s.decodeImageData turns frame := by
  constructor
  · intro turns t h
    rw [Decoder.decodeImageData] at h
    split at h
    · cases h
    · cases h
    · rename_i hdecode
      cases h
      exact ⟨GifLzwDecoder.decodeImageData_further hdecode, rfl, rfl, rfl⟩
  · obtain ⟨n, res, hres, hn⟩ :=
      GifLzwDecoder.decodeImageData_settles (BitVec.ofInt 32 frame.iw).toNat
      (BitVec.ofInt 32 frame.ih).toNat s.buffers (s.imageReader frame)
    cases res with
    | error f =>
      exact ⟨n, .error (.lzw f), by simp, fun turns hturns => by
        simp only [Decoder.decodeImageData, hn turns hturns]⟩
    | ok p =>
      cases p with
      | none => exact absurd rfl hres
      | some p =>
        refine ⟨n, .ok { s with reader := p.1, buffers := p.2 }, by simp, fun turns hturns => ?_⟩
        simp only [Decoder.decodeImageData, hn turns hturns]

/-- What playing a frame gives: an error in the format, or one more frame. -/
structure Played (s s' : Decoder) : Prop where
  reader : Further s.reader s'.reader
  header : s'.header = s.header
  shown : (s'.reader.formatError = true ∧ s'.objects = s.objects ∧ s'.screen.frames =
    s.screen.frames) ∨
    s'.screen.frames.length = s.screen.frames.length + 1

theorem Played.onward {s s' : Decoder} (h : Played s s') : Onward s s' :=
  ⟨h.reader, congrArg GifHeaderData.gct h.header, h.shown.elim (fun h => h.2.2 ▸ le_rfl) fun h =>
    h ▸ Nat.le_succ _⟩

theorem activeTable_ne_cutOff (frame : GifFrameData) (act : Table) :
    frame.activeTable act ≠ .error .cutOff := by
  rw [GifFrameData.activeTable]
  split
  · split <;> simp
  · simp

theorem leaveImage_settles {s : Decoder} (hsource : s.reader.source = .stream) :
    Settles Fault.cutOff (Further s.reader) fun turns => s.leaveImage turns := by
  have hleave : (fun turns => s.leaveImage turns) = fun turns => skip turns s.reader := by
    funext turns
    simp only [Decoder.leaveImage, hsource]
  rw [hleave]
  exact skip_settles s.reader

theorem imageReader_stream {s : Decoder} (hsource : s.reader.source = .stream)
    (frame : GifFrameData) :
    s.imageReader frame = s.reader := by
  simp only [Decoder.imageReader, hsource]

theorem playSingleFrame_settles {s : Decoder} (hsource : s.reader.source = .stream) (ref : Nat) :
    Settles Fault.cutOff (Played s) fun turns => s.playSingleFrame argb4444 turns ref := by
  simp only [Decoder.playSingleFrame, Decoder.playFrame]
  cases s.objects[ref]? with
  | none => exact .error (by simp)
  | some frame =>
    simp only []
    set t : Decoder := { s with screen := s.screen.chooseBackground frame s.header.bgIndex } with ht
    have hframes : t.screen.frames = s.screen.frames := GifFile.chooseBackground_frames _ _ _
    cases (if frame.lctFlag then frame.lct else s.header.gct) with
    | none => exact .ok ⟨⟨rfl, le_rfl⟩, rfl, .inl ⟨rfl, rfl, hframes⟩⟩
    | some act =>
      simp only []
      by_cases herror : s.reader.formatError = true
      · simp only [herror, if_true]
        exact .ok ⟨.refl _, rfl, .inl ⟨herror, rfl, hframes⟩⟩
      · simp only [herror]
        refine Settles.bind (.fixed (activeTable_ne_cutOff frame act) fun _ _ =>
          trivial) fun act _ => ?_
        refine (decodeImageData_settles t frame).bind fun u hu => ?_
        obtain ⟨hreader, hheader, hscreen, hobjects⟩ := hu
        rw [imageReader_stream (show t.reader.source = .stream from hsource)] at hreader
        refine (leaveImage_settles (hreader.source.trans hsource)).bind fun r hr => ?_
        by_cases hr' : r.formatError = true
        · simp only [hr', if_true]
          exact .ok ⟨hreader.trans hr, hheader,
            .inl ⟨hr', hobjects, by rw [← hframes, ← hscreen]; rfl⟩⟩
        · simp only [hr']
          cases u.buffers.pixels with
          | none => exact .error (by simp)
          | some pixels =>
            refine Settles.bind (.fixed (showFrame_ne_cutOff argb4444 u.screen frame act pixels)
              fun _ h => showFrame_frames argb4444 h)
              fun screen hshown => ?_
            refine .ok ⟨hreader.trans hr, hheader, .inr ?_⟩
            rw [hscreen, hframes] at hshown
            exact hshown

theorem readShort_further {r : Reader} {p : Int × Reader} (h : readShort r = .ok p) :
    Further r p.2 := by
  rw [readShort] at h
  split at h
  · cases h
    exact (GifLzwDecoder.read_further r).trans (GifLzwDecoder.read_further _)
  · split at h
    · rename_i bytes hbytes
      cases h
      refine ⟨rfl, ?_⟩
      show bytes.length ≤ r.bytes.length
      rw [hbytes, List.length_cons, List.length_cons]
      omega
    · cases h

theorem readShort_ne_cutOff (r : Reader) : readShort r ≠ .error .cutOff := by
  rw [readShort]
  split
  · simp
  · split <;> simp

theorem readGraphicControlExt_settles (frame : GifFrameData) (r : Reader) :
    Settles Fault.cutOff (fun p => Further r p.2) fun _ => readGraphicControlExt frame r := by
  refine Settles.bind (.fixed (readShort_ne_cutOff _) fun p h => readShort_further h) fun p hp =>
    .ok ?_
  exact (((GifLzwDecoder.read_further r).trans (GifLzwDecoder.read_further _)).trans hp).trans
    ((GifLzwDecoder.read_further _).trans (GifLzwDecoder.read_further _))

theorem readExtension_settles (s : Decoder) : Settles Fault.cutOff (Onward s) fun turns =>
  s.readExtension turns := by
  have hread : Further s.reader s.reader.read.2 := GifLzwDecoder.read_further s.reader
  have hblock : Further s.reader s.reader.read.2.readBlock.2 :=
    hread.trans (GifLzwDecoder.readBlock_further _)
  refine .ite (fun _ => ?_) fun _ => .ite (fun _ => .ite (fun _ => ?_) fun _ => ?_) fun _ => ?_
  · exact (readGraphicControlExt_settles newFrameData _).map fun p hp =>
      ⟨hread.trans hp, rfl, le_rfl⟩
  · have hext : Onward s ((s.withReader s.reader.read.2).withReader s.reader.read.2.readBlock.2) :=
      .withReader hblock
    exact (readNetscapeExt_settles _).imp fun t => hext.trans
  · exact (skip_settles s.reader.read.2.readBlock.2).map fun r hr =>
      Onward.withReader (hblock.trans hr)
  · exact (skip_settles s.reader.read.2).map fun r hr => Onward.withReader (hread.trans hr)

/-- The reader is past its place, or has failed. -/
def Closer (s s' : Decoder) : Prop :=
  s'.reader.formatError = true ∨ s'.reader.bytes.length < s.reader.bytes.length

/-- The turns of `readContents` that are not about an image. -/
theorem readContent_settles {s : Decoder} (hsource : s.reader.source = .stream)
    (hcode : s.reader.read.1 ≠ 0x2C) :
    Settles Fault.cutOff (fun p => Onward s p.2 ∧ (p.1 = false → Closer s p.2)) fun turns =>
  s.readContent argb4444 turns := by
  have hread : Onward s (s.withReader s.reader.read.2) :=
    .withReader (GifLzwDecoder.read_further s.reader)
  refine .ite (fun h => absurd h hcode) fun _ => .ite (fun hext => ?_) fun _ =>
    .ite (fun _ => ?_) fun _ =>
    .ite (fun hzero => ?_) fun _ => ?_
  · refine (readExtension_settles (s.withReader s.reader.read.2)).map fun t ht =>
      ⟨hread.trans ht, fun _ => .inr ?_⟩
    exact lt_of_le_of_lt ht.reader.length
      (GifLzwDecoder.read_shorter hsource (by rw [hext]; decide))
  · exact .ok ⟨hread, nofun⟩
  · exact .ok ⟨hread, fun _ => .inr (GifLzwDecoder.read_shorter hsource (by rw [hzero]; decide))⟩
  · exact .ok ⟨⟨⟨hread.reader.source, hread.reader.length⟩, rfl, le_rfl⟩, fun _ => .inl rfl⟩

end Playing

end BaseGifDecoder
