import AndroidWork.GifLzwFraming

/-!
# The arrays of the compressor

The indices that `GIF_LZW_compressor` and the functions below it use, in order.
They are in range but for images of more than 768 lines, and for those of one
pixel, where the loops look for another line.
-/
namespace GifLzwEncoder

inductive Access where
  | setRaster (e : Nat)
  | raster (e : Nat)
  | bits (i : Nat)
  | lzw (i : Nat)
  | hashtree (i : Nat)
  deriving DecidableEq, Repr

/-- The index is in its array, and a line that is read has been set for the image. -/
def Access.InRange (img : DIB) : Access → Prop
  | .setRaster e => e < 768
  | .raster e => e < 768 ∧ e < img.height
  | .bits i => i < img.width * img.height
  | .lzw i => i < 256
  | .hashtree i => i < hash

/-- `appeoicode`; `fwrite` takes all of `LZW`. -/
def Writer.appendAccesses (w : Writer) : List Access :=
  .lzw (w.lzw.length + 1) :: if w.lzw.length + 1 + 1 = 256 then
    .lzw 0 :: (List.range 256).map .lzw else []

def Writer.emitAccesses : Nat → Writer → List Access
  | 0, _ => []
  | turns + 1, w => if 7 < w.statBits then w.appendAccesses ++ emitAccesses turns w.emitByte else []

def Writer.writeAccesses (w : Writer) (noBits code : Nat) : List Access :=
  let w := { w with
    codeInProgress := w.codeInProgress + code <<< w.statBits
    statBits := w.statBits + noBits }
  w.emitAccesses w.statBits

/-- The loop that clears the hash table. -/
def clearAccesses : List Access := (List.range hash).map .hashtree

def findAccesses (tree : HashTree) (pre suf : Nat) : List Access :=
  (ProbeTable.probes tree (hashNext (pre, suf)) (pre, suf) hash (hashStart (pre, suf))).map
    .hashtree

/-- What follows the inner loop's `break`. -/
def Compressor.wordAccesses (i : Nat) (c : Compressor) : List Access :=
  let out := c.out.writeCode c.sizes.bits c.pre
  c.out.writeAccesses c.sizes.bits c.pre ++ .hashtree i ::
    if c.sizes.code = c.sizes.max ∧ c.sizes.bits = 12 then
      out.writeAccesses c.sizes.bits c.sizes.clear ++ clearAccesses
    else []

/-- The last codes, and the last block. -/
def Compressor.finishAccesses (c : Compressor) : List Access :=
  let out := c.out.writeCode c.sizes.bits c.pre
  let eoi := out.writeCode c.sizes.bits (c.sizes.clear + 1)
  c.out.writeAccesses c.sizes.bits c.pre ++ out.writeAccesses c.sizes.bits (c.sizes.clear + 1) ++
    (if eoi.statBits ≠ 0 then eoi.writeAccesses c.sizes.bits 0 else []) ++
    .lzw 0 :: (List.range ((eoi.flush c.sizes.bits).lzw.length + 1)).map .lzw

/-- Both `while (1)` loops, at most `turns` pixels. -/
def Compressor.accesses (img : DIB) (rasters : Nat → Nat) (bitsColor : Nat) :
    Nat → Compressor → Option (List Access)
  | 0, _ => none
  | turns + 1, c =>
    if c.done then some c.finishAccesses
    else
      let pixel := rasters c.y * img.width + c.x
      let suf := (img.bits pixel).toNat
      let reads := [.raster c.y, .bits pixel] ++ findAccesses c.tree c.pre suf
      let c := c.advance img
      match findHash c.tree c.pre suf with
      | none => none
      | some i =>
        match c.tree i with
        | some word =>
          (accesses img rasters bitsColor turns { c with pre := word.2 }).map fun as =>
            reads ++ [.hashtree i] ++ as
        | none =>
          (accesses img rasters bitsColor turns (c.addWord bitsColor i suf)).map fun as =>
            reads ++ [.hashtree i] ++ c.wordAccesses i ++ as

/-- The accesses for an image that is not interlaced. -/
def accesses (img : DIB) (numColors : Nat) (oldRasters : Nat → Nat) : Option (List Access) :=
  let rasters := rastersFor img oldRasters
  let c := firstState img rasters numColors
  let empty : Writer := ⟨0, 0, [], [BitVec.ofNat 8 (c.sizes.bits - 1)]⟩
  (c.accesses img rasters (maxBits numColors - 1) (img.width * img.height + 2)).map fun as =>
    clearAccesses ++ empty.writeAccesses c.sizes.bits c.sizes.clear ++
      (List.range img.height).map .setRaster ++
      [.raster 0, .bits (rasters 0 * img.width)] ++ as

/-- The run ends, and all of its accesses are in range. -/
def Safe (img : DIB) (run : Option (List Access)) : Prop :=
  ∃ as, run = some as ∧ ∀ a ∈ as, a.InRange img

section

variable {img : DIB}

theorem Safe.append {run : Option (List Access)} (h : Safe img run) {front : List Access}
    (hfront : ∀ a ∈ front, a.InRange img) : Safe img (run.map fun as => front ++ as) := by
  obtain ⟨as, rfl, has⟩ := h
  exact ⟨_, rfl, List.forall_mem_append.mpr ⟨hfront, has⟩⟩

theorem appendAccesses_inRange {w : Writer} (h : w.lzw.length < 255) :
    ∀ a ∈ w.appendAccesses, a.InRange img := by
  rw [Writer.appendAccesses, List.forall_mem_cons]
  refine ⟨show w.lzw.length + 1 < 256 by omega, ?_⟩
  split
  · simp [Access.InRange]
  · simp

theorem emitAccesses_inRange (turns : Nat) {w : Writer} (h : w.lzw.length < 255) :
    ∀ a ∈ w.emitAccesses turns, a.InRange img := by
  induction turns generalizing w with
  | zero => simp [Writer.emitAccesses]
  | succ turns ih =>
    rw [Writer.emitAccesses]
    split
    · have hlength : w.emitByte.lzw.length = (w.lzw.length + 1) % 255 :=
        appendCode_length (Nat.mod_eq_of_lt h).symm _
      exact List.forall_mem_append.mpr ⟨appendAccesses_inRange h,
        ih (hlength ▸ Nat.mod_lt _ (by decide))⟩
    · simp

theorem Writer.Filled.lzw_lt {w : Writer} {n : Nat} (h : w.Filled n) : w.lzw.length < 255 :=
  h.lzw ▸ Nat.mod_lt _ (by decide)

theorem writeAccesses_inRange {w : Writer} {n : Nat} (h : w.Filled n) (noBits code : Nat) :
    ∀ a ∈ w.writeAccesses noBits code, a.InRange img :=
  emitAccesses_inRange _ h.lzw_lt

theorem hashNext_lt (key : Nat × Nat) {i : Nat} (hi : i < hash) : hashNext key i < hash := by
  have hlt := hashStart_lt key
  rw [hashNext]
  simp only [hash] at *
  split <;> split <;> omega

theorem clearAccesses_inRange : ∀ a ∈ clearAccesses, a.InRange img := by
  simp [clearAccesses, Access.InRange]

theorem probes_lt (tree : HashTree) (key : Nat × Nat) :
    ∀ i ∈ ProbeTable.probes tree (hashNext key) key hash (hashStart key), i < hash :=
  ProbeTable.forall_probes (P := fun i => i < hash) (fun _ => hashNext_lt key) hash
    (hashStart_lt key)

theorem findAccesses_inRange (tree : HashTree) (pre suf : Nat) :
    ∀ a ∈ findAccesses tree pre suf, a.InRange img := by
  rw [findAccesses, List.forall_mem_map]
  exact probes_lt tree (pre, suf)

theorem findHash_lt {tree : HashTree} {pre suf i : Nat}
    (h : findHash tree pre suf = some i) : i < hash :=
  probes_lt tree (pre, suf) i (ProbeTable.find_mem_probes hash h)

theorem wordAccesses_inRange {c : Compressor} {k i : Nat}
    (hfilled : c.out.Filled k) (hi : i < hash) :
    ∀ a ∈ c.wordAccesses i, a.InRange img := by
  rw [Compressor.wordAccesses, List.forall_mem_append, List.forall_mem_cons]
  refine ⟨writeAccesses_inRange hfilled _ _, hi, ?_⟩
  split
  · exact List.forall_mem_append.mpr ⟨writeAccesses_inRange (hfilled.writeCode _ _) _ _,
      clearAccesses_inRange⟩
  · simp

theorem finishAccesses_inRange {c : Compressor} {k : Nat} (hfilled : c.out.Filled k) :
    ∀ a ∈ c.finishAccesses, a.InRange img := by
  have hpre := hfilled.writeCode c.sizes.bits c.pre
  have heoi := hpre.writeCode c.sizes.bits (c.sizes.clear + 1)
  have hlast := (heoi.flush c.sizes.bits).lzw_lt
  rw [Compressor.finishAccesses]
  simp only [List.forall_mem_append, List.forall_mem_cons, List.forall_mem_map, List.mem_range]
  refine ⟨⟨⟨writeAccesses_inRange hfilled _ _, writeAccesses_inRange hpre _ _⟩, ?_⟩,
    Nat.succ_pos 255, ?_⟩
  · split
    · exact writeAccesses_inRange heoi _ _
    · simp
  · intro i hi
    show i < 256
    omega

theorem addWord_filled {bitsColor k : Nat} {c : Compressor}
    (hfilled : c.out.Filled k) (i suf : Nat) :
    (c.addWord bitsColor i suf).out.Filled (k + BitPacking.size c.wordCalls) := by
  rw [addWord_out]
  exact hfilled.writeAll _

/-- From any state the rest of the run is in range. -/
theorem loop_accesses {numColors : Nat} (hlo : 2 ≤ numColors) (hhi : numColors ≤ 256)
    (hmax : img.height ≤ 768)
    {rasters : Nat → Nat} (hrasters : ∀ y < img.height, rasters y = y) (count : Nat)
    {turns : Nat} (hturns : count < turns)
    {dict : List (Nat × Nat)} {c : Compressor} (hc : c.Pairs (rootBits numColors) dict)
    {n k : Nat} (hat : c.At img n)
    (hfilled : c.out.Filled k) (hn : n + count = img.width * img.height) :
    Safe img (c.accesses img rasters (maxBits numColors - 1) turns) := by
  obtain ⟨turns, rfl⟩ : ∃ t, turns = t + 1 := ⟨turns - 1, by omega⟩
  induction count generalizing turns dict c n k with
  | zero =>
    have hdone : c.done = true := hat.done hn.ge
    rw [Compressor.accesses, if_pos hdone]
    exact ⟨_, rfl, finishAccesses_inRange hfilled⟩
  | succ count ih =>
    obtain ⟨turns, rfl⟩ : ∃ t, turns = t + 1 := ⟨turns - 1, by omega⟩
    have hdone : c.done = false := hat.not_done (by omega)
    have hnext := advance_at hat hdone
    have hlt := hat.lt hdone
    obtain ⟨hx, hy, hpix⟩ : c.x < img.width ∧ c.y < img.height ∧ n = c.y * img.width + c.x := by
      rwa [Compressor.At, hdone] at hat
    obtain ⟨x, y, done, hadvance⟩ := advance_eq img c
    rw [hadvance] at hnext
    rw [Compressor.accesses, if_neg (by rw [hdone]; exact Bool.false_ne_true)]
    simp only [hrasters c.y hy, ← hpix, hadvance]
    generalize (img.bits n).toNat = suf
    have hlen : dict.length < hash := (hc.length.trans_le (Nat.sub_le _ _)).trans (by decide)
    obtain ⟨i, hfind, hslot⟩ := findHash_paired hc.tree hlen c.pre suf
    have hreads : ∀ a ∈ [.raster c.y, .bits n] ++ findAccesses c.tree c.pre suf ++ [.hashtree i],
        a.InRange img := by
      simp only [List.forall_mem_append, List.forall_mem_cons]
      refine ⟨⟨⟨⟨hy.trans_le hmax, hy⟩, hlt, by simp⟩, findAccesses_inRange _ _ _⟩,
        findHash_lt hfind, by simp⟩
    rw [hfind]
    simp only
    obtain ⟨hmem, hsome⟩ | ⟨hnew, hnone, htree⟩ := hslot
    · rw [hsome]
      have hrest := ih
        (c := { c with pre := 2 ^ rootBits numColors + 2 + dict.idxOf (c.pre, suf),
                       x := x, y := y, done := done })
        ⟨hc.tree, hc.sizes, hc.length⟩ hnext hfilled (by omega) turns (by omega)
      exact hrest.append hreads
    · rw [hnone]
      have hpairs := @addWord_pairs numColors hlo hhi { c with x := x, y := y, done := done } dict
        ⟨hc.tree, hc.sizes, hc.length⟩ i suf htree
      have hrest := ih hpairs.1 (at_of_eq (addWord_place _ i suf) hnext)
        (addWord_filled (c := { c with x := x, y := y, done := done }) hfilled i suf)
          (by omega) turns (by omega)
      exact hrest.append (List.forall_mem_append.mpr
        ⟨hreads, wordAccesses_inRange hfilled (findHash_lt hfind)⟩)

/-- A turn reads the line of its pixel. -/
theorem raster_mem {rasters : Nat → Nat} {bitsColor turns : Nat} {c : Compressor}
    (hdone : c.done = false)
    {as : List Access} (h : c.accesses img rasters bitsColor (turns + 1) = some as) :
    .raster c.y ∈ as := by
  rw [Compressor.accesses, if_neg (by rw [hdone]; exact Bool.false_ne_true)] at h
  simp only at h
  split at h
  · cases h
  · split at h
    · obtain ⟨rest, -, rfl⟩ := Option.map_eq_some_iff.mp h
      simp
    · obtain ⟨rest, -, rfl⟩ := Option.map_eq_some_iff.mp h
      simp

/-- With more lines the one numbered 768 is set. -/
theorem not_safe_of_high {numColors : Nat} (hhigh : 768 < img.height) (old : Nat → Nat) :
    ¬ Safe img (accesses img numColors old) := by
  intro ⟨as, has, hrange⟩
  obtain ⟨loop, -, rfl⟩ := Option.map_eq_some_iff.mp has
  simp only [List.forall_mem_append, List.forall_mem_map, List.mem_range] at hrange
  obtain ⟨⟨⟨-, hset⟩, -⟩, -⟩ := hrange
  exact absurd (hset 768 hhigh) (lt_irrefl 768)

/-- A single pixel has been taken before the loops, and they are not done. -/
theorem not_safe_of_single {numColors : Nat} (hone : img.width * img.height = 1) (old : Nat → Nat) :
    ¬ Safe img (accesses img numColors old) := by
  intro ⟨as, has, hrange⟩
  obtain ⟨loop, hloop, rfl⟩ := Option.map_eq_some_iff.mp has
  have hw : img.width = 1 := Nat.eq_one_of_mul_eq_one_right hone
  have hh : img.height = 1 := Nat.eq_one_of_mul_eq_one_left hone
  have hline : (firstState img (rastersFor img old) numColors).y = 1 := by
    simp [firstState, hw]
  have hset : 1 < 768 ∧ 1 < img.height :=
    hline ▸ (List.forall_mem_append.mp hrange).2 _ (raster_mem rfl hloop)
  omega

/-- The arrays are accessed in range when no more than 768 lines are set, and the
loops have a pixel to take. -/
theorem accesses_safe_iff {numColors : Nat} (hlo : 2 ≤ numColors) (hhi : numColors ≤ 256)
    (hw : 0 < img.width)
    (hh : 0 < img.height) (old : Nat → Nat) :
    Safe img (accesses img numColors old) ↔ img.height ≤ 768 ∧ img.width * img.height ≠ 1 := by
  constructor
  · intro hsafe
    exact ⟨Nat.le_of_not_lt fun hhigh => not_safe_of_high hhigh old hsafe,
      fun hone => not_safe_of_single hone old hsafe⟩
  · intro ⟨hmax, hone⟩
    have hmany : 2 ≤ img.width * img.height := by
      have := Nat.mul_pos hw hh
      omega
    obtain ⟨-, hm8⟩ := rootBits_bounds hlo hhi
    have hrasters : ∀ y < img.height, rastersFor img old y = y := fun y hy => if_pos hy
    have hloop :
        Safe img ((firstState img (rastersFor img old) numColors).accesses img (rastersFor img old)
        (maxBits numColors - 1) (img.width * img.height + 2)) :=
      loop_accesses hlo hhi hmax hrasters (img.width * img.height - 1) (by omega)
        ⟨.empty _, (sizes_eq hlo hhi).1, Nat.zero_lt_of_lt (one_lt_limit hm8)⟩
          (firstState_at hw hmany _)
        ((Writer.Filled.start _).writeCode _ _) (by omega)
    refine hloop.append ?_
    simp only [List.forall_mem_append, List.forall_mem_cons, List.forall_mem_map, List.mem_range]
    refine ⟨⟨⟨clearAccesses_inRange, writeAccesses_inRange (Writer.Filled.start _) _ _⟩,
      fun e he => he.trans_le hmax⟩, ?_⟩
    rw [hrasters 0 hh, Nat.zero_mul]
    exact ⟨⟨by decide, hh⟩, Nat.zero_lt_of_lt hmany, by simp⟩

theorem accesses_safe_twoPixels :
    Safe ⟨2, 1, by decide, fun _ => 0⟩ (accesses ⟨2, 1, by decide, fun _ => 0⟩ 2 (fun _ => 0)) :=
  (accesses_safe_iff (by decide) (by decide) (by decide) (by decide) _).mpr ⟨by decide, by decide⟩

/-- One pixel, and one line too many. -/
theorem not_accesses_safe :
    ¬ Safe ⟨1, 1, by decide, fun _ => 0⟩ (accesses ⟨1, 1, by decide, fun _ => 0⟩ 2 (fun _ => 0)) ∧
      ¬ Safe ⟨1, 769, by decide, fun _ => 0⟩
        (accesses ⟨1, 769, by decide, fun _ => 0⟩ 2 (fun _ => 0)) :=
  ⟨not_safe_of_single rfl _, not_safe_of_high (by decide) _⟩

end

end GifLzwEncoder
