import AndroidWork.GifflenFile
import AndroidWork.NeuQuantNetwork

/-!
# Quantising a picture

`quantise` of NeuQuant: the palette and the indices that `addFrame` writes.
-/
namespace NeuQuant

open GifExport (transparentColorIndex)
open GifLzwDecoder (Byte)
open GifLzwEncoder (maxBits)
open GifflenFile (Quantised)
open SelectionSort

/-- A component without the bias of the network. -/
def unbiased (x : Int) : Int := if 255 < (x + 2 ^ 3) >>> (4 : Nat) then
    255 else (x + 2 ^ 3) >>> (4 : Nat)

section

variable (q : Net)

def Net.unbiasnet : Net :=
  { q with network := fun i =>
      if 0 ≤ i ∧ i < q.netsize then
        ⟨unbiased (q.network i).b, unbiased (q.network i).g, unbiased (q.network i).r, i⟩
      else q.network i }

/-- The index for a colour. The one of transparent pixels is left to them. -/
def Net.inxsearch (b g r dither : Int) (xpos ypos : Nat) : Int :=
  let shades := ditherSearch q b g r ⟨q.netindex g, q.netindex g - 1, 1000, 1000, -1, -1⟩
  let darker := if shades.darker = -1 ∧ shades.brighter ≠ -1 then shades.brighter else shades.darker
  let brighter := if shades.brighter = -1 ∧ shades.darker ≠ -1 then
    shades.darker else shades.brighter
  let index :=
    if dither = 1 then (if (xpos ^^^ ypos) % 2 = 1 then darker else brighter)
    else (search q b g r (searchFrom q g)).best
  if index = transparentColorIndex.toNat then transparentColorIndex.toNat - 1 else index

/-- Byte `k` of the palette: red, green and blue of each entry. -/
def Net.paletteByte (k : Nat) : Byte :=
  let p := q.network (k / 3 : Nat)
  BitVec.ofInt 8 (if k % 3 = 0 then p.r else if k % 3 = 1 then p.g else p.b)

variable (srcimage : DIB) (dither : Int)

/-- The index of the pixel in line `i` and column `j`. -/
def Net.indexAt (i j : Nat) : Byte :=
  let word := srcimage.bits (i * srcimage.width + j)
  if byteOf word 24 = 0 then transparentColorIndex
  else BitVec.ofInt 8 (q.inxsearch (byteOf word 0) (byteOf word 8) (byteOf word 16) dither j i)

/-- The columns of line `i` in the order they are mapped in. -/
def columns (width i : Nat) : List Nat :=
  if i % 2 = 1 then (List.range width).reverse else List.range width

def Net.mapLine (bits : Nat → Byte) (i : Nat) : Nat → Byte :=
  (columns srcimage.width i).foldl
    (fun bits j => Function.update bits (i * srcimage.width + j) (q.indexAt srcimage dither i j))
      bits

def Net.mapColors (bits : Nat → Byte) : Nat → Byte :=
  (List.range srcimage.height).reverse.foldl (q.mapLine srcimage dither) bits

/-- The object and what it leaves in `destimage`, unless `learn` ends the process. -/
def Net.quantise (destimage : Quantised) (numColors quality : Int) : Option (Net × Quantised) :=
  (q.prepared srcimage numColors quality).learn.2.map fun learnt =>
    let net := learnt.unbiasnet
    (net.inxbuild,
      { palette := fun k => if k < 3 * net.netsize then net.paletteByte k else destimage.palette k
        bits := net.inxbuild.mapColors srcimage dither destimage.bits })

theorem mem_columns (width i j : Nat) : j ∈ columns width i ↔ j < width := by
  unfold columns
  split <;> simp

/-- An entry that is only written with one value has it in the end. -/
theorem foldl_update_eq {α β : Type} (at' : α → Nat) (val : α → β) (l : List α)
    (f : Nat → β) (k : Nat) (x : β)
    (h : ∀ a ∈ l, at' a = k → val a = x) (hmem : (∃ a ∈ l, at' a = k) ∨ f k = x) :
    l.foldl (fun f a => Function.update f (at' a) (val a)) f k = x := by
  induction l generalizing f with
  | nil => simpa using hmem
  | cons a l ih =>
    rw [List.foldl_cons]
    apply ih _ (fun b hb => h b (List.mem_cons_of_mem a hb))
    by_cases hat : at' a = k
    · right
      rw [← hat, Function.update_self]
      exact h a List.mem_cons_self hat
    · obtain ⟨b, hb, hbk⟩ | hf := hmem
      · obtain rfl | hb := List.mem_cons.mp hb
        · exact absurd hbk hat
        · exact .inl ⟨b, hb, hbk⟩
      · right
        rw [Function.update_of_ne (Ne.symm hat)]
        exact hf

/-- Every pixel has its index in the end. -/
theorem mapColors_at (bits : Nat → Byte) {i j : Nat} (hi : i < srcimage.height)
    (hj : j < srcimage.width) :
    q.mapColors srcimage dither bits (i * srcimage.width + j) = q.indexAt srcimage dither i j := by
  have hflat : q.mapColors srcimage dither bits =
      ((List.range srcimage.height).reverse.flatMap fun i =>
        (columns srcimage.width i).map fun j => (i, j)).foldl
        (fun bits a => Function.update bits (a.1 * srcimage.width + a.2)
          (q.indexAt srcimage dither a.1 a.2)) bits := by
    rw [List.foldl_flatMap]
    simp only [List.foldl_map]
    rfl
  rw [hflat]
  apply foldl_update_eq (fun a : Nat × Nat => a.1 * srcimage.width + a.2)
    (fun a => q.indexAt srcimage dither a.1 a.2)
  · intro a ha hat
    obtain ⟨i', hi', ha⟩ := List.mem_flatMap.mp ha
    obtain ⟨j', hj', rfl⟩ := List.mem_map.mp ha
    rw [mem_columns] at hj'
    have hlines : i' = i := by
      have hdiv := congrArg (· / srcimage.width) hat
      simpa [Nat.mul_comm _ srcimage.width, Nat.mul_add_div (Nat.zero_lt_of_lt hj),
        Nat.div_eq_of_lt hj', Nat.div_eq_of_lt hj] using hdiv
    subst hlines
    obtain rfl : j' = j := by simpa using hat
    rfl
  · left
    refine ⟨(i, j), ?_, rfl⟩
    apply List.mem_flatMap.mpr
    refine ⟨i, by simpa using hi, ?_⟩
    simpa [mem_columns] using hj

theorem mapColors_pixel (bits : Nat → Byte) {k : Nat} (hk : k < srcimage.total) :
    q.mapColors srcimage dither bits k = q.indexAt srcimage dither (k / srcimage.width)
    (k % srcimage.width) := by
  have hline : k / srcimage.width < srcimage.height := by
    rw [Nat.div_lt_iff_lt_mul srcimage.width_pos, Nat.mul_comm]
    exact hk
  have h := mapColors_at q srcimage dither bits hline (Nat.mod_lt k srcimage.width_pos)
  rwa [Nat.div_add_mod'] at h

end

theorem unbiased_isByte {x : Int} (h : IsBiased x) : IsByte (unbiased x) := by
  have hlo := h.1
  unfold unbiased IsByte
  rw [Int.shiftRight_eq_div_pow]
  split <;> omega

theorem unbiasnet_at {q : Net} {k : Int} (hk : k ∈ places q.netsize) : q.unbiasnet.network k =
    ⟨unbiased (q.network k).b, unbiased (q.network k).g, unbiased (q.network k).r, k⟩ := if_pos hk

/-- What the network is once it has learnt. -/
theorem unbiasnet_bytes {q : Net} (h : Biased q.netsize q.network) : q.unbiasnet.Bytes := by
  intro k hk
  have hbiased := h k hk
  rw [unbiasnet_at (q := q) hk]
  exact ⟨unbiased_isByte hbiased.b, unbiased_isByte hbiased.g, unbiased_isByte hbiased.r⟩

/-- The search comes to the number of a colour. -/
theorem best_mem {q : Net} (hpos : 0 < q.netsize) (h : Biased q.netsize q.network) {b g r : Int}
    (hb : IsByte b) (hg : IsByte g) (hr : IsByte r) :
    (search q.unbiasnet.inxbuild b g r (searchFrom q.unbiasnet.inxbuild g)).best ∈
      places q.netsize := by
  have hbytes := unbiasnet_bytes h
  have hindexed := inxbuild_indexed q.unbiasnet (fun k hk => (hbytes k hk).2.1) hpos
  obtain ⟨k, hk, hbest, -⟩ := search_nearest hindexed hbytes hpos hb hg hr
  obtain ⟨i, hi, hentry⟩ := hindexed.rearranged.exists_place hk
  rw [hbest, hentry, unbiasnet_at (q := q) hi]
  exact hi

theorem inxsearch_mem {q : Net} (hsize : 2 ≤ q.netsize ∧ q.netsize ≤ 256)
    (h : Biased q.netsize q.network) {b g r dither : Int}
    (hdither : dither ≠ 1) (hb : IsByte b) (hg : IsByte g) (hr : IsByte r) (xpos ypos : Nat) :
    q.unbiasnet.inxbuild.inxsearch b g r dither xpos ypos ∈ places q.netsize ∧
      q.unbiasnet.inxbuild.inxsearch b g r dither xpos ypos ≠ 255 := by
  obtain ⟨hlo, hhi⟩ := best_mem (by omega) h hb hg hr
  unfold Net.inxsearch
  simp only [if_neg hdither]
  generalize (search q.unbiasnet.inxbuild b g r (searchFrom q.unbiasnet.inxbuild g)).best =
    best at *
  have hindex : (transparentColorIndex.toNat : Int) = 255 := rfl
  rw [hindex]
  split
  · exact ⟨⟨by omega, by omega⟩, by omega⟩
  · exact ⟨⟨hlo, hhi⟩, by assumption⟩

section

variable (q : Net) (destimage : Quantised) (srcimage : DIB) (numColors : Nat) (quality dither : Int)

/-- A pixel without colour. -/
def DIB.Transparent (k : Nat) : Prop := byteOf (srcimage.bits k) 24 = 0

/-- What the index of a pixel has to be. -/
structure FitsPixel (index : Byte) (transparent : Prop) : Prop where
  free : transparent → index = transparentColorIndex
  colour : ¬ transparent → index.toNat < numColors ∧ index ≠ transparentColorIndex
  code : index.toNat < 2 ^ maxBits numColors

/-- Every pixel gets an index that fits. -/
def WritesIndices : Prop :=
  ∃ net out, q.quantise srcimage dither destimage numColors quality = some (net, out) ∧
    ∀ k < srcimage.width * srcimage.height,
      FitsPixel numColors (out.bits k) (srcimage.Transparent k)

theorem clampColors_eq (hlo : 2 ≤ numColors) (hhi : numColors ≤ 256) :
    clampColors numColors = numColors := by
  unfold clampColors
  rw [if_neg (by omega), if_neg (by omega), Int.toNat_natCast]

/-- The colours whose codes have the index of transparent pixels among them. -/
theorem transparent_code_iff (hlo : 2 ≤ numColors) (hhi : numColors ≤ 256) :
    transparentColorIndex.toNat < 2 ^ maxBits numColors ↔ 128 < numColors := by
  have h : ∀ n : Fin 257, 2 ≤ n.val →
      (transparentColorIndex.toNat < 2 ^ maxBits n.val ↔ 128 < n.val) := by decide +kernel
  exact h ⟨numColors, by omega⟩ hlo

theorem le_two_pow_maxBits (hlo : 2 ≤ numColors) (hhi : numColors ≤ 256) :
    numColors ≤ 2 ^ maxBits numColors := by
  have h : ∀ n : Fin 257, 2 ≤ n.val → n.val ≤ 2 ^ maxBits n.val := by decide +kernel
  exact h ⟨numColors, by omega⟩ hlo

variable {q destimage srcimage numColors quality dither}

/-- The index of a pixel fits unless it is transparent and its index is no code. -/
theorem indexAt_fits_iff {learnt : Net} (hlo : 2 ≤ numColors) (hhi : numColors ≤ 256)
    (hdither : dither ≠ 1)
    (hsize : learnt.netsize = numColors) (hnetwork : Biased numColors learnt.network) {k : Nat} :
    FitsPixel numColors (learnt.unbiasnet.inxbuild.indexAt srcimage dither (k / srcimage.width)
      (k % srcimage.width))
      (srcimage.Transparent k) ↔ (srcimage.Transparent k → 128 < numColors) := by
  have hword : srcimage.bits (k / srcimage.width * srcimage.width + k % srcimage.width) =
      srcimage.bits k := by
    rw [Nat.div_add_mod']
  unfold Net.indexAt
  simp only [hword]
  by_cases ht : srcimage.Transparent k
  · have hbyte : byteOf (srcimage.bits k) 24 = 0 := ht
    rw [if_pos hbyte, ← transparent_code_iff numColors hlo hhi]
    constructor
    · intro h _
      exact h.code
    · intro h
      exact ⟨fun _ => rfl, fun hno => absurd ht hno, h ht⟩
  · have hbyte : byteOf (srcimage.bits k) 24 ≠ 0 := ht
    rw [if_neg hbyte]
    refine iff_of_true ?_ (fun hyes => absurd hyes ht)
    rw [← hsize] at hnetwork
    obtain ⟨hplace, hne⟩ := inxsearch_mem (by omega) hnetwork hdither
      (byteOf_isByte (srcimage.bits k) 0)
      (byteOf_isByte (srcimage.bits k) 8) (byteOf_isByte (srcimage.bits k) 16) (k % srcimage.width)
        (k / srcimage.width)
    rw [hsize] at hplace
    obtain ⟨index, hindex⟩ := Int.eq_ofNat_of_zero_le hplace.1
    rw [hindex] at hplace hne ⊢
    have hlt : index < numColors := Int.ofNat_lt.mp hplace.2
    have hnat : (BitVec.ofInt 8 (index : Int)).toNat = index := by
      rw [BitVec.ofInt_natCast, BitVec.toNat_ofNat]
      exact Nat.mod_eq_of_lt (by omega)
    refine ⟨fun hyes => absurd hyes ht, fun _ => ⟨by rw [hnat]; exact hlt, ?_⟩, ?_⟩
    · intro heq
      have htoNat := congrArg BitVec.toNat heq
      rw [hnat] at htoNat
      exact hne (by rw [htoNat]; rfl)
    · rw [hnat]
      exact hlt.trans_le (le_two_pow_maxBits numColors hlo hhi)

/-- The indices of a picture that is learnt fit unless a pixel is transparent
and the codes are too few. -/
theorem writesIndices_iff_learns (hlo : 2 ≤ numColors) (hhi : numColors ≤ 256)
    (hdither : dither ≠ 1) :
    WritesIndices q destimage srcimage numColors quality dither ↔
      (q.prepared srcimage numColors quality).learn.2.isSome ∧
        ∀ k < srcimage.width * srcimage.height, srcimage.Transparent k → 128 < numColors := by
  unfold WritesIndices Net.quantise
  cases hlearn : (q.prepared srcimage numColors quality).learn.2 with
  | none => simp
  | some learnt =>
    obtain ⟨hsize, hnetwork⟩ := learn_network q srcimage numColors quality hlearn
    rw [clampColors_eq numColors hlo hhi] at hsize hnetwork
    have hfits : ∀ bits k, k < srcimage.width * srcimage.height →
        (FitsPixel numColors (learnt.unbiasnet.inxbuild.mapColors srcimage dither bits k)
          (srcimage.Transparent k) ↔
          (srcimage.Transparent k → 128 < numColors)) := by
      intro bits k hk
      rw [mapColors_pixel learnt.unbiasnet.inxbuild srcimage dither bits hk]
      exact indexAt_fits_iff hlo hhi hdither hsize hnetwork
    simp only [Option.map_some, Option.isSome_some, true_and]
    constructor
    · intro ⟨net, out, hout, hall⟩ k hk
      obtain ⟨rfl, rfl⟩ := Prod.mk.inj (Option.some.inj hout)
      exact (hfits _ k hk).mp (hall k hk)
    · intro hall
      exact ⟨_, _, rfl, fun k hk => (hfits _ k hk).mpr (hall k hk)⟩

/-- All indices fit where learning does not end the process and no pixel is
transparent, or the transparent index is a code. -/
theorem writesIndices_iff (hlo : 2 ≤ numColors) (hhi : numColors ≤ 256) (hdither : dither ≠ 1) :
    WritesIndices q destimage srcimage numColors quality dither ↔
      ((srcimage.width * srcimage.height : Int) < sampleFactor quality ∨
        100 * sampleFactor quality ≤ srcimage.width * srcimage.height) ∧
      ((∀ k < srcimage.width * srcimage.height, ¬ srcimage.Transparent k) ∨ 128 < numColors) := by
  rw [writesIndices_iff_learns hlo hhi hdither, learn_isSome_iff, samplePixels_iff]
  constructor
  · intro ⟨hlearns, hall⟩
    refine ⟨hlearns, ?_⟩
    by_cases hmany : 128 < numColors
    · exact .inr hmany
    · exact .inl fun k hk ht => hmany (hall k hk ht)
  · intro ⟨hlearns, hall⟩
    refine ⟨hlearns, fun k hk ht => ?_⟩
    obtain hnone | hmany := hall
    · exact absurd ht (hnone k hk)
    · exact hmany

end

/-- A square of a hundred pixels, all alike. -/
def tenByTen (word : BitVec 32) : DIB := ⟨10, 10, fun _ => word, by decide, by decide, by decide⟩

theorem writesIndices_black : WritesIndices freshNet ⟨fun _ => 0, fun _ => 0⟩
    (tenByTen 0xff000000) 16 100 0 :=
  (writesIndices_iff (by decide) (by decide) (by decide)).mpr 
    ⟨.inr (by decide), .inl fun _ _ ht => absurd ht (show byteOf 0xff000000 24 ≠ 0 by decide)⟩

/-- Index 255 is no code of four bits. -/
theorem not_writesIndices_transparent :
    ¬ WritesIndices freshNet ⟨fun _ => 0, fun _ => 0⟩ (tenByTen 0) 16 100 0 := by
  intro h
  have hall := ((writesIndices_iff_learns (by decide) (by decide) (by decide)).mp h).2
  exact absurd (hall 0 (by decide) rfl) (by decide)

end NeuQuant
