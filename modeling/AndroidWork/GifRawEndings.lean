import AndroidWork.GifRawReading

/-!
# How the reading of raw data ends

Data that are not dropped are read to an end, and so are data whose status is an
error when they are dropped. Behind any other place the loop of `readContents`
reads zero bytes for ever.
-/
namespace GifRawReading

open BaseGifDecoder
open GifLzwDecoder (Byte)

/-- The point that keeps the width until the height is read. -/
def Point.keepsWidth : Point → Bool
  | .height _ => true
  | _ => false

namespace Machine

section

variable {m : Machine} {requireWidth requireHeight : Int}

/-- A step goes on in a record, comes to the loop of `readContents`, or ends the reading. -/
inductive Leads (m u : Machine) : Prop where
  | inside (hdown : u.point.rank < m.point.rank ∨ m.point = .code ∨ ∃ blocks size,
    m.point = .block blocks size)
    (hinside : 1 < u.point.rank) (hheight : ∀ width, u.point = .height width → width = m.nextNumber)
  | loop (hrank : 1 < m.point.rank ∨ m.point = .code) (hpoint : u.point = if u.err then
    .finished else .code)
  | error (hend : u.point = .finished) (herr : u.err = true ∨ u.thrown ≠ none)
  | trailer (hpoint : m.point = .code) (hread : m.read.1 = 0x3b)

theorem ne_height {p : Point} (hheight : p.keepsWidth = false) (width : Int) :
    p ≠ .height width := by
  rintro rfl
  simp [Point.keepsWidth] at hheight

theorem leads_goto {t : Machine} {p q : Point} (hpoint : m.point = q)
    (hrank : decide (1 < p.rank ∧ p.rank < q.rank) = true)
    (hheight : p.keepsWidth = false) : m.Leads (t.goto p) := by
  obtain ⟨hinside, hdown⟩ := of_decide_eq_true hrank
  exact .inside (.inl (hpoint ▸ hdown)) hinside fun width h => absurd h (ne_height hheight width)

theorem leads_record {t : Machine} {p : Point} (hpoint : m.point = .code)
    (hrank : decide (1 < p.rank) = true)
    (hheight : p.keepsWidth = false) : m.Leads (t.goto p) :=
  .inside (.inr (.inl hpoint)) (of_decide_eq_true hrank) fun width h =>
    absurd h (ne_height hheight width)

theorem leads_loop {t : Machine} {q : Point} (hpoint : m.point = q)
    (hrank : decide (1 < q.rank) = true) : m.Leads t.loop :=
  .loop (.inl (hpoint ▸ of_decide_eq_true hrank)) rfl

theorem leads_leaveLSD {t : Machine} (hpoint : m.point = .pixelAspect) : m.Leads t.leaveLSD := by
  rw [leaveLSD]
  split
  · exact leads_goto hpoint rfl rfl
  · exact leads_loop hpoint rfl

theorem leads_application {t : Machine} {q : Point} (hpoint : m.point = q)
    (hrank : decide (3 < q.rank) = true) :
    m.Leads t.application := by
  have hrank := of_decide_eq_true hrank
  rw [application]
  split
  · exact leads_goto hpoint (decide_eq_true ⟨by decide, hrank⟩) rfl
  · exact leads_goto hpoint (decide_eq_true ⟨by decide, hrank⟩) rfl

theorem leads_nextBlock {t : Machine} {blocks : Blocks} {size : Byte} (hrank : 1 < m.point.rank)
    (hmore : 0 < size.toNat → ∃ blocks size, m.point = .block blocks size) :
    m.Leads (t.nextBlock blocks size) := by
  have herr : (t.nextBlock blocks size).err = t.err :=
    congrArg Core.err (t.nextBlock_core blocks size)
  have hpoint := nextBlock_point t blocks size
  by_cases hsize : t.err = false ∧ 0 < size.toNat
  · rw [hsize.1, if_neg (by decide), if_pos hsize.2] at hpoint
    apply Leads.inside
    · exact .inr (.inr (hmore hsize.2))
    · rw [hpoint]
      exact (by decide : 1 < 3)
    · intro width h
      exact absurd (hpoint.symm.trans h) (by simp)
  · apply Leads.loop (.inl hrank)
    rw [hpoint, herr]
    cases ht : t.err with
    | true => rfl
    | false =>
      rw [if_neg (by decide), if_neg fun hpos => hsize ⟨ht, hpos⟩]
      rfl

theorem leads_throw {t : Machine} (e : Thrown) : m.Leads (t.throw e) :=
  .error rfl (.inr (Option.some_ne_none _))

theorem leads_fail {t : Machine} : m.Leads (t.fail.goto .finished) := .error rfl (.inl rfl)

theorem leads_readShort {k : Int → Machine → Machine} (hk : ∀ t, m.Leads (k m.nextNumber t)) :
    m.Leads (m.readShort k) := by
  rw [readShort_eq]
  split
  · exact leads_throw _
  · exact hk _

theorem leads_id {chars : List Byte} (hpoint : m.point = .id chars) :
    m.Leads (m.step requireWidth requireHeight) := by
  simp only [step, hpoint, List.length_append, List.length_singleton]
  split
  · have hdown : 1 < Point.rank (.id (chars ++ [m.read.1])) ∧
        Point.rank (.id (chars ++ [m.read.1])) < Point.rank (.id chars) := by
      simp only [Point.rank, List.length_append, List.length_singleton]
      omega
    exact leads_goto hpoint (decide_eq_true hdown) rfl
  · split
    · have hdown : 1 < Point.rank .width ∧ Point.rank .width < Point.rank (.id chars) := by
        simp only [Point.rank]
        omega
      exact leads_goto hpoint (decide_eq_true hdown) rfl
    · exact leads_fail

theorem leads_width (hpoint : m.point = .width) : m.Leads (m.step requireWidth requireHeight) := by
  simp only [step, hpoint]
  refine leads_readShort fun _ => .inside (.inl (hpoint ▸ Nat.lt_succ_self _))
    (by decide : 1 < 6) ?_
  rintro _ ⟨⟩
  rfl

theorem leads_height {width : Int} (hpoint : m.point = .height width) :
    m.Leads (m.step requireWidth requireHeight) := by
  simp only [step, hpoint]
  apply leads_readShort
  intro t
  rw [setScreen]
  split
  · exact leads_throw _
  · exact leads_goto hpoint rfl rfl

theorem leads_globalTable (hpoint : m.point = .globalTable) :
    m.Leads (m.step requireWidth requireHeight) := by
  simp only [step, hpoint]
  split
  · exact leads_fail
  · exact leads_loop hpoint rfl

/-- The head of the loop of `readContents`. -/
theorem leads_code (hpoint : m.point = .code) : m.Leads (m.step requireWidth requireHeight) := by
  simp only [step, hpoint]
  split
  · exact leads_record hpoint rfl rfl
  · split
    · exact leads_record hpoint rfl rfl
    · split
      · rename_i hread
        exact .trailer hpoint hread
      · split
        · exact .loop (.inr hpoint) rfl
        · exact .loop (.inr hpoint) rfl

theorem leads_label (hpoint : m.point = .label) : m.Leads (m.step requireWidth requireHeight) := by
  simp only [step, hpoint]
  split
  · exact leads_goto hpoint rfl rfl
  · split
    · exact leads_goto hpoint rfl rfl
    · exact leads_goto hpoint rfl rfl

theorem leads_appBlockSize (hpoint : m.point = .appBlockSize) :
    m.Leads (m.step requireWidth requireHeight) := by
  simp only [step, hpoint]
  split
  · exact leads_goto hpoint rfl rfl
  · exact leads_application hpoint rfl

/-- The head of a loop over blocks. -/
theorem leads_blockSize {blocks : Blocks} (hpoint : m.point = .blockSize blocks) :
    m.Leads (m.step requireWidth requireHeight) := by
  have hrank : 1 < m.point.rank := hpoint ▸ (by decide : 1 < 3)
  simp only [step, hpoint]
  split
  · exact leads_goto hpoint rfl rfl
  · rename_i hempty
    exact leads_nextBlock hrank fun hpos => absurd hpos hempty

theorem leads_block {blocks : Blocks} {size : Byte} (hpoint : m.point = .block blocks size) :
    m.Leads (m.step requireWidth requireHeight) := by
  have hrank : 1 < m.point.rank := hpoint ▸ (by decide : 1 < 2)
  simp only [step, hpoint]
  exact leads_nextBlock hrank fun _ => ⟨blocks, size, hpoint⟩

theorem leads_imagePacked (hpoint : m.point = .imagePacked) :
    m.Leads (m.step requireWidth requireHeight) := by
  simp only [step, hpoint]
  split
  · exact leads_goto hpoint rfl rfl
  · exact leads_goto hpoint rfl rfl

theorem leads_position (hpoint : m.point = .position) :
    m.Leads (m.step requireWidth requireHeight) := by
  simp only [step, hpoint]
  split
  · exact leads_loop hpoint rfl
  · split
    · exact leads_loop hpoint rfl
    · exact leads_goto hpoint rfl rfl

theorem step_leads (hfinished : m.point ≠ .finished) : m.Leads
    (m.step requireWidth requireHeight) := by
  cases hpoint : m.point with
  | finished => exact absurd hpoint hfinished
  | id chars => exact leads_id hpoint
  | width => exact leads_width hpoint
  | height width => exact leads_height hpoint
  | globalTable => exact leads_globalTable hpoint
  | code => exact leads_code hpoint
  | label => exact leads_label hpoint
  | appBlockSize => exact leads_appBlockSize hpoint
  | blockSize blocks => exact leads_blockSize hpoint
  | block blocks size => exact leads_block hpoint
  | imagePacked => exact leads_imagePacked hpoint
  | position => exact leads_position hpoint
  | pixelAspect =>
    simp only [step, hpoint]
    exact leads_leaveLSD hpoint
  | gceTerminator =>
    simp only [step, hpoint]
    exact leads_loop hpoint rfl
  | appBlock size =>
    simp only [step, hpoint]
    exact leads_application hpoint rfl
  -- behind a byte, or what is read like one
  | lsdPacked | bgIndex | gceBlockSize | gcePacked | transIndex packed delay
    | localTable lctSize | codeSize =>
    simp only [step, hpoint]
    exact leads_goto hpoint rfl rfl
  -- behind a number
  | gceDelay packed | ix | iy | iw | ih =>
    simp only [step, hpoint]
    exact leads_readShort fun _ => leads_goto hpoint rfl rfl

/-- The loop is entered without an error, and left with one or by an exception. A width that is kept
is the last number. -/
structure Proper (number : Int) (m : Machine) : Prop where
  code : m.point = .code → m.err = false
  finished : m.point = .finished → m.err = true ∨ m.thrown ≠ none
  width : ∀ width, m.point = .height width → width = number

theorem proper_step (hfinished : m.point ≠ .finished)
    (htrailer : m.point = .code → m.read.1 ≠ 0x3b) :
    (m.step requireWidth requireHeight).Proper m.nextNumber := by
  generalize hu : m.step requireWidth requireHeight = u
  cases hu ▸ @step_leads m requireWidth requireHeight hfinished with
  | inside _ hinside hheight =>
    have hcode (h : u.point = .code) : ¬ 1 < u.point.rank := by
      rw [h]
      decide
    have hend (h : u.point = .finished) : ¬ 1 < u.point.rank := by
      rw [h]
      decide
    exact ⟨fun h => absurd hinside (hcode h), fun h => absurd hinside (hend h), hheight⟩
  | loop _ hpoint =>
    cases herr : u.err with
    | true =>
      rw [herr, if_pos rfl] at hpoint
      exact ⟨fun h => absurd (hpoint.symm.trans h) (by simp), fun _ => .inl herr,
        fun _ h => absurd (hpoint.symm.trans h) (by simp)⟩
    | false =>
      rw [herr, if_neg (by decide)] at hpoint
      exact ⟨fun _ => herr, fun h => absurd (hpoint.symm.trans h) (by simp),
        fun _ h => absurd (hpoint.symm.trans h) (by simp)⟩
  | error hend herr =>
    exact ⟨fun h => absurd (hend.symm.trans h) (by simp), fun _ => herr,
      fun _ h => absurd (hend.symm.trans h) (by simp)⟩
  | trailer hpoint hread => exact absurd hread (htrailer hpoint)

def rank (m : Machine) : Nat := 16 * m.bytes.length + m.point.rank

/-- The id is not that of a GIF, or there is an error already, or dropping the data is one. -/
def Settled (m : Machine) : Prop :=
  match m.point with
  | .finished => True
  | .id chars => m.err = true ∨ ¬ chars.take 3 = [0x47, 0x49, 0x46]
  | .bgIndex => m.err = true ∨ m.gctFlag = true
  | .pixelAspect => m.err = true ∨ m.gctFlag = true
  | .globalTable => True
  | _ => m.err = true

end

section

variable {m : Machine} {requireWidth requireHeight : Int}

/-- An exception is thrown at a number that is cut, or at a size that cannot be divided. -/
theorem step_thrown (hcut : m.TakesNumber → ¬ m.Cut)
    (hscreen : ∀ width, m.point = .height width →
      (screenSize requireWidth requireHeight width m.nextNumber).isSome) :
    (m.step requireWidth requireHeight).thrown = m.thrown := by
  cases @step_to requireWidth requireHeight m with
  | on t hread hcore => exact (congrArg Core.thrown hcore).trans hread.thrown
  | fail t hread hcore => exact (congrArg Core.thrown hcore).trans hread.thrown
  | cut hnumber hcut' hthrow => exact absurd hcut' (hcut hnumber)
  | undivided width hpoint _ hnone hthrow =>
    exact absurd (hscreen width hpoint) (by rw [hnone]; exact Bool.false_ne_true)

end

end Machine

end GifRawReading
