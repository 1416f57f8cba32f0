import AndroidWork.WebpHeaderParser

/-!
# The two header parsers

`ImageHeaderParser.getType`, which decides how an image is decoded, against
`WebpHeaderParser.getType`.
-/
namespace ImageHeaderParser

open WebpHeaderParser

inductive ImageType where
  | gif
  | webpAnimated
  | webpStatic
  | bitmap
  deriving DecidableEq

def gifHeader : BitVec 32 := 0x474946
def vp8Header : BitVec 32 := 0x56503800
def vp8HeaderMask : BitVec 32 := 0xFFFFFF00
def vp8HeaderTypeMask : BitVec 32 := 0x000000FF
def vp8HeaderTypeExtended : BitVec 32 := 0x00000058
def vp8HeaderTypeLossless : BitVec 32 := 0x0000004C

def isStaticWebpType (imageType : WebpImageType) : Bool :=
  imageType = .simple || imageType = .lossless || imageType =
    .losslessWithAlpha || imageType = .extended ||
    imageType = .extendedWithAlpha

def isAnimatedWebpType (imageType : WebpImageType) : Bool := imageType = .extendedAnimated

/-- `supported` is `WebpHeaderParser.sIsExtendedWebpSupported`. -/
def shouldDecode (supported : Bool) (webpType : WebpImageType) : ImageType :=
  if isStaticWebpType webpType && webpType ≠ .simple then if supported then
    .webpStatic else .webpAnimated
  else if isAnimatedWebpType webpType then .webpAnimated
  else .webpStatic

variable {σ : Type}

def getType (supported : Bool) (reader : Reader σ) : StateM σ ImageType := do
  let firstFourBytes ← getFourBytes reader
  if firstFourBytes.sshiftRight 8 = gifHeader then return .gif
  if firstFourBytes ≠ riffHeader then return .bitmap
  let _ ← reader.skip 4
  let thirdFourBytes ← getFourBytes reader
  if thirdFourBytes ≠ webpHeader then return .bitmap
  let fourthFourBytes ← getFourBytes reader
  if fourthFourBytes &&& vp8HeaderMask ≠ vp8Header then return .bitmap
  let webpImageType ← (do
    if fourthFourBytes &&& vp8HeaderTypeMask = vp8HeaderTypeExtended then
      let _ ← reader.skip 4
      let flags ← reader.getByte
      return if flags &&& webpExtendedAnimFlag ≠ 0 then .extendedAnimated
        else if flags &&& webpExtendedAlphaFlag ≠ 0 then .extendedWithAlpha
        else .extended
    else if fourthFourBytes &&& vp8HeaderTypeMask = vp8HeaderTypeLossless then
      let _ ← reader.skip 4
      let flags ← reader.getByte
      return if flags &&& webpLosslessAlphaFlag ≠ 0 then .losslessWithAlpha else .lossless
    else return .simple)
  return shouldDecode supported webpImageType

/-- `getType(InputStream)`; its `StreamReader` is the one of `WebpHeaderParser`, word for word. -/
def getTypeOfStream (supported : Bool) (is : InputStream) : ImageType :=
  (getType supported StreamReader.reader is).1

theorem append_inj {v w : Nat} {a a' : BitVec v} {b b' : BitVec w} :
    a ++ b = a' ++ b' ↔ a = a' ∧ b = b' := by
  constructor
  · intro h
    have hlow := congrArg (BitVec.setWidth w) h
    rw [BitVec.setWidth_append_eq_right, BitVec.setWidth_append_eq_right] at hlow
    subst hlow
    exact ⟨(BitVec.append_left_inj b).mp h, rfl⟩
  · rintro ⟨rfl, rfl⟩
    rfl

def four (a b c d : Byte) : BitVec 32 := a ++ b ++ c ++ d

theorem four_inj {a b c d x y z w : Byte} :
    four a b c d = four x y z w ↔ (a = x ∧ b = y ∧ c = z) ∧ d = w := by
  rw [four, four, append_inj, append_inj, append_inj, and_assoc (a := a = x)]

theorem and_four (a b c d x y z w : Byte) :
    four a b c d &&& four x y z w = four (a &&& x) (b &&& y) (c &&& z) (d &&& w) := by
  rw [four, four, four, BitVec.and_append, BitVec.and_append, BitVec.and_append]

/-- The three characters of VP8 before the last one of a chunk's code. -/
def HasVp8 (bytes : List Byte) : Prop :=
  byteAt bytes 12 = 0x56 ∧ byteAt bytes 13 = 0x50 ∧ byteAt bytes 14 = 0x38

instance (bytes : List Byte) : Decidable (HasVp8 bytes) := instDecidableAnd

theorem code_eq (bytes : List Byte) (c : Byte) :
    fourAt bytes 12 = four 0x56 0x50 0x38 c ↔ HasVp8 bytes ∧ byteAt bytes 15 = c := four_inj

theorem code_masked (bytes : List Byte) : fourAt bytes 12 &&& vp8HeaderMask = vp8Header ↔
    HasVp8 bytes := by
  show four _ _ _ _ &&& four 0xFF 0xFF 0xFF 0x00 = four 0x56 0x50 0x38 0x00 ↔ _
  rw [and_four, four_inj]
  simp only [show (0xFF : Byte) = BitVec.allOnes 8 from rfl, BitVec.and_allOnes]
  exact and_iff_left BitVec.and_zero

theorem code_type (bytes : List Byte) (c : Byte) :
    fourAt bytes 12 &&& vp8HeaderTypeMask = four 0 0 0 c ↔ byteAt bytes 15 = c := by
  show four _ _ _ _ &&& four 0x00 0x00 0x00 0xFF = _ ↔ _
  rw [and_four, four_inj]
  simp only [show (0xFF : Byte) = BitVec.allOnes 8 from rfl, BitVec.and_allOnes]
  exact and_iff_right ⟨BitVec.and_zero, BitVec.and_zero, BitVec.and_zero⟩

/-- The container of a WebP image, with a chunk whose code starts with VP8. -/
def IsVp8 (bytes : List Byte) : Prop :=
  fourAt bytes 0 = riffHeader ∧ fourAt bytes 8 = webpHeader ∧ HasVp8 bytes

instance (bytes : List Byte) : Decidable (IsVp8 bytes) := instDecidableAnd

theorem typeOf_eq (bytes : List Byte) :
    typeOf bytes =
      if IsVp8 bytes then
        if byteAt bytes 15 = 0x20 then .simple
        else if byteAt bytes 15 = 0x4C then if byteAt bytes 20 &&& 0x08 ≠ 0 then
            .losslessWithAlpha else .lossless
        else if byteAt bytes 15 = 0x58 then
          if byteAt bytes 20 &&& 0x02 ≠ 0 then .extendedAnimated
          else if byteAt bytes 20 &&& 0x10 ≠ 0 then .extendedWithAlpha
          else .extended
        else .noneWebp
      else .noneWebp := by
  have hsimple : fourAt bytes 12 = webpVp8Header ↔ HasVp8 bytes ∧ byteAt bytes 15 = 0x20 :=
    code_eq bytes 0x20
  have hlossless : fourAt bytes 12 = webpVp8lHeader ↔ HasVp8 bytes ∧ byteAt bytes 15 = 0x4C :=
    code_eq bytes 0x4C
  have hextended : fourAt bytes 12 = webpVp8xHeader ↔ HasVp8 bytes ∧ byteAt bytes 15 = 0x58 :=
    code_eq bytes 0x58
  simp only [typeOf, hsimple, hlossless, hextended, IsVp8]
  by_cases hriff : fourAt bytes 0 = riffHeader <;> by_cases hwebp : fourAt bytes 8 = webpHeader <;>
    by_cases hvp8 : HasVp8 bytes <;> simp [hriff, hwebp, hvp8]

def typeOfImage (supported : Bool) (bytes : List Byte) : ImageType :=
  if (fourAt bytes 0).sshiftRight 8 = gifHeader then .gif
  else if IsVp8 bytes then
    shouldDecode supported
      (if byteAt bytes 15 = 0x58 then
        if byteAt bytes 20 &&& 0x02 ≠ 0 then .extendedAnimated
        else if byteAt bytes 20 &&& 0x10 ≠ 0 then .extendedWithAlpha
        else .extended
      else if byteAt bytes 15 = 0x4C then if byteAt bytes 20 &&& 0x08 ≠ 0 then
        .losslessWithAlpha else .lossless
      else .simple)
  else .bitmap

theorem getType_eq_typeOfImage {reader : Reader σ} {rest : σ → List Byte} (h : Reads reader rest)
    (supported : Bool) (s : σ) :
    (getType supported reader s).1 = typeOfImage supported (rest s) := by
  obtain ⟨hfirst, hthird, hfourth, -⟩ := header_eq h s
  obtain ⟨hanim, halpha, hlossless⟩ := flags_eq h s
  rw [behindCode] at hanim halpha hlossless
  rw [getType, run_bind, hfirst, typeOfImage]
  by_cases hgif : (fourAt (rest s) 0).sshiftRight 8 = gifHeader
  · rw [if_pos hgif, if_pos hgif, run_pure]
  rw [if_neg hgif, if_neg hgif]
  by_cases hriff : fourAt (rest s) 0 = riffHeader
  · by_cases hwebp : fourAt (rest s) 8 = webpHeader
    · simp only [hriff, hwebp, ne_eq, not_true_eq_false, if_false, run_bind, hthird, hfourth,
        code_masked, IsVp8, true_and]
      by_cases hvp8 : HasVp8 (rest s)
      · have hextended : fourAt (rest s) 12 &&& vp8HeaderTypeMask = vp8HeaderTypeExtended ↔
            byteAt (rest s) 15 = 0x58 :=
          code_type (rest s) 0x58
        have htype : fourAt (rest s) 12 &&& vp8HeaderTypeMask = vp8HeaderTypeLossless ↔
        byteAt (rest s) 15 = 0x4C :=
          code_type (rest s) 0x4C
        simp only [hvp8, not_true_eq_false, if_false, if_true, run_bind, run_pure, hextended, htype]
        by_cases hx : byteAt (rest s) 15 = 0x58
        · rw [if_pos hx, if_pos hx]
          simp only [run_bind, run_pure, hanim, halpha]
        rw [if_neg hx, if_neg hx]
        by_cases hl : byteAt (rest s) 15 = 0x4C
        · rw [if_pos hl, if_pos hl]
          simp only [run_bind, run_pure, hlossless]
        · rw [if_neg hl, if_neg hl, run_pure]
      · simp only [hvp8, not_false_eq_true, if_true, if_false, run_pure]
    · simp [hriff, hwebp, run_bind, hthird, run_pure, IsVp8]
  · simp [hriff, run_pure, IsVp8]

/-- They find the same WebP images and the same animations, and take nothing of a
header that ends before its flag byte. -/
def Agree (bytes : List Byte) (image : ImageType) (webp : WebpImageType) : Prop :=
  (image = .webpStatic ∨ image = .webpAnimated ↔ webp ≠ .noneWebp) ∧
    (image = .webpAnimated ↔ webp = .extendedAnimated) ∧
    (bytes.length ≤ 20 → image ≠ .webpAnimated ∧ webp.hasAlpha = false ∧ webp.hasAnimation = false)

theorem byteAt_of_length_le {bytes : List Byte} {i : Nat} (h : bytes.length ≤ i) :
    byteAt bytes i = 0xFF := by
  simp [byteAt, List.getD_eq_getElem?_getD, List.getElem?_eq_none h]

theorem not_gif_of_riff {bytes : List Byte} (h : fourAt bytes 0 = riffHeader) :
    (fourAt bytes 0).sshiftRight 8 ≠ gifHeader := by
  rw [h]
  decide

theorem agree_of_not_vp8 {bytes : List Byte} (h : ¬ IsVp8 bytes) :
    Agree bytes (typeOfImage true bytes) (typeOf bytes) := by
  rw [typeOf_eq, if_neg h, typeOfImage, if_neg h]
  split_ifs <;> simp [Agree, WebpImageType.hasAlpha, WebpImageType.hasAnimation]

theorem agree_shouldDecode {bytes : List Byte} {webpType : WebpImageType}
    (h : webpType ≠ .noneWebp) :
    Agree bytes (shouldDecode true webpType) webpType ↔
      (bytes.length ≤ 20 → webpType.hasAlpha = false ∧ webpType.hasAnimation = false) := by
  cases webpType <;>
    simp_all [Agree, shouldDecode, isStaticWebpType, isAnimatedWebpType, WebpImageType.hasAlpha,
      WebpImageType.hasAnimation]

theorem agree_iff_of_vp8 {bytes : List Byte} (h : IsVp8 bytes) :
    Agree bytes (typeOfImage true bytes) (typeOf bytes) ↔
      byteAt bytes 15 = 0x20 ∨ (byteAt bytes 15 = 0x4C ∨ byteAt bytes 15 = 0x58) ∧
      20 < bytes.length := by
  rw [typeOf_eq, if_pos h, typeOfImage, if_neg (not_gif_of_riff h.1), if_pos h]
  have hend : bytes.length ≤ 20 → byteAt bytes 20 = 0xFF := byteAt_of_length_le
  by_cases hsimple : byteAt bytes 15 = 0x20
  · simp [hsimple, agree_shouldDecode, WebpImageType.hasAlpha, WebpImageType.hasAnimation]
  by_cases hl : byteAt bytes 15 = 0x4C
  · rw [if_neg (by rw [hl]; decide), if_pos hl, if_neg hsimple, if_pos hl,
      agree_shouldDecode (by split_ifs <;> simp)]
    by_cases hlength : bytes.length ≤ 20
    · simp [hl, hend hlength, hlength, WebpImageType.hasAlpha]
    · simp [hl, hlength, Nat.lt_of_not_le hlength]
  by_cases hx : byteAt bytes 15 = 0x58
  · rw [if_pos hx, if_neg hsimple, if_neg hl, if_pos hx, agree_shouldDecode (by split_ifs <;> simp)]
    by_cases hlength : bytes.length ≤ 20
    · simp [hx, hend hlength, hlength, WebpImageType.hasAlpha, WebpImageType.hasAnimation]
    · simp [hx, hlength, Nat.lt_of_not_le hlength]
  · rw [if_neg hx, if_neg hl, if_neg hsimple, if_neg hl, if_neg hx]
    refine iff_of_false (fun hagree => hagree.1.mp (.inl rfl) rfl) ?_
    simp only [hsimple, hl, hx, false_or, false_and, not_false_eq_true]

/-- The parsers agree unless the code is not one of the three of WebP, and where it is
one of the two with flags and the flags are missing. -/
theorem getType_agree_iff (bytes : List Byte) (skips skips' : Nat → Nat) :
    Agree bytes (getTypeOfStream true ⟨bytes, skips, 0⟩)
    (WebpHeaderParser.getTypeOfStream ⟨bytes, skips', 0⟩) ↔
      (IsVp8 bytes → byteAt bytes 15 = 0x20 ∨ (byteAt bytes 15 = 0x4C ∨ byteAt bytes 15 = 0x58) ∧
        20 < bytes.length) := by
  rw [getTypeOfStream, WebpHeaderParser.getTypeOfStream, getType_eq_typeOfImage StreamReader.reads,
    getType_eq StreamReader.reads]
  by_cases h : IsVp8 bytes
  · rw [agree_iff_of_vp8 h]
    exact ⟨fun hcode _ => hcode, fun hcode => hcode h⟩
  · exact iff_of_true (agree_of_not_vp8 h) fun hvp8 => absurd hvp8 h

/-- RIFF, four bytes of a length, WEBP and the code. -/
def container (code : List Byte) : List Byte :=
  [0x52, 0x49, 0x46, 0x46, 0, 0, 0, 0, 0x57, 0x45, 0x42, 0x50] ++ code

/-- A chunk VP8Z is an image for one parser only, and a file that ends behind VP8X is an
animation for both. -/
theorem not_agree :
    ¬ Agree (container [0x56, 0x50, 0x38, 0x5A])
      (getTypeOfStream true ⟨container [0x56, 0x50, 0x38, 0x5A], fun _ => 4, 0⟩)
      (WebpHeaderParser.getTypeOfStream ⟨container [0x56, 0x50, 0x38, 0x5A], fun _ => 4, 0⟩) ∧
    ¬ Agree (container [0x56, 0x50, 0x38, 0x58])
      (getTypeOfStream true ⟨container [0x56, 0x50, 0x38, 0x58], fun _ => 4, 0⟩)
      (WebpHeaderParser.getTypeOfStream ⟨container [0x56, 0x50, 0x38, 0x58], fun _ => 4, 0⟩) := by
  simp only [getTypeOfStream, WebpHeaderParser.getTypeOfStream,
    getType_eq_typeOfImage StreamReader.reads,
    getType_eq StreamReader.reads]
  rw [agree_iff_of_vp8 (by decide), agree_iff_of_vp8 (by decide)]
  decide

end ImageHeaderParser
