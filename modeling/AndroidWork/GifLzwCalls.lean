import AndroidWork.GifLzwBytes
import AndroidWork.LzwRuns

/-!
# The codes that the compressor writes

The calls of `write_code` before the last one with EOI, in order. Whatever the
pixels are, the codes are those of the runs that LZW cuts them into.
-/
namespace GifLzwEncoder

open LzwParse (width)
open LzwRuns (codes lastLength)

/-- The calls behind the inner loop's `break`. -/
def Compressor.wordCalls (c : Compressor) : List (Nat × Nat) :=
  if c.sizes.code = c.sizes.max ∧ c.sizes.bits = 12 then
    [(c.sizes.bits, c.pre), (c.sizes.bits, c.sizes.clear)]
  else [(c.sizes.bits, c.pre)]

/-- The calls of both loops, and the sizes that EOI is written with. -/
def Compressor.calls (img : DIB) (rasters : Nat → Nat) (bitsColor : Nat) :
    Nat → Compressor → Option (List (Nat × Nat) × Sizes)
  | 0, _ => none
  | turns + 1, c =>
    if c.done then some ([(c.sizes.bits, c.pre)], c.sizes)
    else
      let suf := (img.bits (rasters c.y * img.width + c.x)).toNat
      let c := c.advance img
      match findHash c.tree c.pre suf with
      | none => none
      | some i =>
        match c.tree i with
        | some word => calls img rasters bitsColor turns { c with pre := word.2 }
        | none => (calls img rasters bitsColor turns (c.addWord bitsColor i suf)).map fun r =>
          (c.wordCalls ++ r.1, r.2)

/-- The calls for an image, the clear code first. -/
def emitted (img : DIB) (numColors : Nat) (oldRasters : Nat → Nat) :
    Option (List (Nat × Nat) × Sizes) :=
  if 768 < img.height then none
  else
    let rasters := rastersFor img oldRasters
    let c := firstState img rasters numColors
    (c.calls img rasters (maxBits numColors - 1) (img.width * img.height + 2)).map fun r =>
      ((c.sizes.bits, c.sizes.clear) :: r.1, r.2)

/-- EOI with its width. -/
def Sizes.eoi (s : Sizes) : Nat × Nat := (s.bits, s.clear + 1)

section

variable {img : DIB} {rasters : Nat → Nat} {bitsColor numColors : Nat}

theorem writeAll_append (w : Writer) (cs ds : List (Nat × Nat)) :
    w.writeAll (cs ++ ds) = (w.writeAll cs).writeAll ds :=
  List.foldl_append

theorem addWord_out (c : Compressor) (i suf : Nat) :
    (c.addWord bitsColor i suf).out = c.out.writeAll c.wordCalls := by
  rw [Compressor.addWord, Compressor.wordCalls]
  simp only [Nat.add_right_cancel_iff]
  by_cases hfull : c.sizes.code = c.sizes.max
  · by_cases h12 : c.sizes.bits = 12
    · rw [if_pos hfull, if_pos h12, if_pos ⟨hfull, h12⟩]
      rfl
    · rw [if_pos hfull, if_neg h12, if_neg fun h => h12 h.2]
      rfl
  · rw [if_neg hfull, if_neg fun h => hfull h.1]
    rfl

/-- The loops do nothing with the writer but these calls and the end. -/
theorem loop_calls (turns : Nat) (c : Compressor) :
    c.loop img rasters bitsColor turns = (c.calls img rasters bitsColor turns).map fun r =>
      (c.out.writeAll (r.1 ++ [r.2.eoi])).close r.2.bits := by
  induction turns generalizing c with
  | zero => rfl
  | succ turns ih =>
    obtain ⟨x, y, done, hadvance⟩ := advance_eq img c
    rw [Compressor.loop, Compressor.calls]
    split
    · rfl
    · simp only [hadvance]
      cases findHash c.tree c.pre (img.bits (rasters c.y * img.width + c.x)).toNat with
      | none => rfl
      | some i =>
        simp only
        cases c.tree i with
        | some word => exact ih _
        | none =>
          simp only
          rw [ih, addWord_out, Option.map_map]
          congr 1
          funext r
          simp only [Function.comp_apply, writeAll_append]

/-- The bytes of an image: the root bits, and what the calls leave. -/
theorem gifLzwCompressor_emitted (old : Nat → Nat) :
    gifLzwCompressor img numColors old = (emitted img numColors old).map fun r =>
      ((⟨0, 0, [], [BitVec.ofNat 8 ((firstSizes (maxBits numColors - 1)).bits - 1)]⟩ :
          Writer).writeAll
        (r.1 ++ [r.2.eoi])).close r.2.bits := by
  rw [gifLzwCompressor, emitted]
  split
  · rfl
  · simp only
    rw [loop_calls, Option.map_map]
    rfl

end

structure Paired (clear : Nat) (dict : List (Nat × Nat)) (tree : HashTree) : Prop where
  placed : ProbeTable.Placed hashStart hashNext tree
  taken : ProbeTable.Occupies tree dict.length
  holds : ∀ key code, ProbeTable.Holds tree key code ↔
    key ∈ dict ∧ code = clear + 2 + dict.idxOf key

theorem Paired.empty (clear : Nat) : Paired clear [] emptyTree := by
  refine ⟨.empty, .empty, fun key code => ⟨?_, ?_⟩⟩
  · rintro ⟨i, hi⟩
    cases hi
  · rintro ⟨hmem, -⟩
    cases hmem

/-- A known pair has its code in the slot that is found, a new pair may have the slot. -/
theorem findHash_paired {clear : Nat} {dict : List (Nat × Nat)} {tree : HashTree}
    (ht : Paired clear dict tree)
    (hlen : dict.length < hash) (pre suf : Nat) :
    ∃ i, findHash tree pre suf = some i ∧
      (((pre, suf) ∈ dict ∧ tree i = some ((pre, suf), clear + 2 + dict.idxOf (pre, suf))) ∨
        ((pre, suf) ∉ dict ∧ tree i = none ∧ Paired clear (dict ++ [(pre, suf)])
          (Function.update tree i (some ((pre, suf), clear + 2 + dict.length))))) := by
  obtain ⟨i, hfind, hslot⟩ := ProbeTable.find_or_insert ht.placed ht.taken hlen (pre, suf)
    (route_injOn (pre, suf))
  refine ⟨i, hfind, ?_⟩
  obtain ⟨code, hsome, hholds⟩ | ⟨hnone, hno, hinsert⟩ := hslot
  · obtain ⟨hmem, rfl⟩ := (ht.holds _ _).mp hholds
    exact .inl ⟨hmem, hsome⟩
  · have hnew : (pre, suf) ∉ dict := fun hmem => hno _ ((ht.holds _ _).mpr ⟨hmem, rfl⟩)
    have hlength : (dict ++ [(pre, suf)]).length = dict.length + 1 := List.length_append
    refine .inr ⟨hnew, hnone, (hinsert _).1, hlength ▸ (hinsert _).2, fun key code => ?_⟩
    rw [ProbeTable.holds_insert hnone, ht.holds, List.mem_append, List.mem_singleton]
    by_cases hkey : key = (pre, suf)
    · subst hkey
      simp [hnew, List.idxOf_append_of_notMem hnew]
    · by_cases hmem : key ∈ dict
      · simp [hkey, hmem, List.idxOf_append_of_mem hmem]
      · simp [hkey, hmem]

/-- What the fields of the compressor say while it takes pixels of any value. -/
structure Compressor.Pairs (m : Nat) (dict : List (Nat × Nat)) (c : Compressor) : Prop where
  tree : Paired (2 ^ m) dict c.tree
  sizes : c.sizes = sizesFor m dict.length
  length : dict.length < limit m

section

variable {img : DIB} {rasters : Nat → Nat} {numColors : Nat}

/-- The calls are the codes of the runs of these pixels. -/
def Compressor.Cuts (img : DIB) (rasters : Nat → Nat) (numColors turns : Nat)
    (dict : List (Nat × Nat))
    (c : Compressor) (xs : List Nat) : Prop :=
  c.calls img rasters (maxBits numColors - 1) turns =
    some (codes (2 ^ rootBits numColors) (limit (rootBits numColors)) dict c.pre xs,
      sizesFor (rootBits numColors) (lastLength (2 ^ rootBits numColors)
        (limit (rootBits numColors)) dict c.pre xs))

theorem cuts_nil {c : Compressor} {dict : List (Nat × Nat)} (hc : c.Pairs (rootBits numColors) dict)
    (hdone : c.done = true) (turns : Nat) : c.Cuts img rasters numColors (turns + 1) dict [] := by
  rw [Compressor.Cuts, Compressor.calls, if_pos hdone, hc.sizes]
  rfl

/-- `wordCalls` by the number of known pairs. -/
theorem wordCalls_eq (hlo : 2 ≤ numColors) (hhi : numColors ≤ 256) {c : Compressor} {n : Nat}
    (hsizes : c.sizes = sizesFor (rootBits numColors) n) :
    c.wordCalls =
      if n + 1 = limit (rootBits numColors) then
        [(width (2 ^ rootBits numColors) n, c.pre),
            (width (2 ^ rootBits numColors) n, 2 ^ rootBits numColors)]
      else [(width (2 ^ rootBits numColors) n, c.pre)] := by
  obtain ⟨-, hm⟩ := rootBits_bounds hlo hhi
  generalize rootBits numColors = m at *
  have hfull : c.sizes.code = c.sizes.max ∧ c.sizes.bits = 12 ↔ n + 1 = limit m := by
    rw [hsizes, limit]
    constructor
    · rintro ⟨heq, h12⟩
      have heq : 2 ^ m + 2 + n = 2 ^ (sizesFor m n).bits := heq
      rw [h12] at heq
      omega
    · intro hlast
      have h12 := width_limit hm hlast
      refine ⟨show 2 ^ m + 2 + n = 2 ^ width (2 ^ m) n from ?_, h12⟩
      rw [h12]
      omega
  rw [Compressor.wordCalls]
  by_cases hlast : n + 1 = limit m
  · rw [if_pos hlast, if_pos (hfull.mpr hlast), hsizes]
    rfl
  · rw [if_neg hlast, if_neg (mt hfull.mp hlast), hsizes]
    rfl

theorem addWord_place {bitsColor : Nat} (c : Compressor) (i suf : Nat) :
    ((c.addWord bitsColor i suf).x, (c.addWord bitsColor i suf).y,
      (c.addWord bitsColor i suf).done) =
      (c.x, c.y, c.done) := by
  rw [Compressor.addWord]
  simp only
  split
  · split <;> rfl
  · rfl

/-- Behind a new pair the table is cleared or has the pair. -/
theorem addWord_pairs (hlo : 2 ≤ numColors) (hhi : numColors ≤ 256) {c : Compressor}
    {dict : List (Nat × Nat)}
    (hc : c.Pairs (rootBits numColors) dict) {i suf : Nat}
    (htree : Paired (2 ^ rootBits numColors) (dict ++ [(c.pre, suf)])
      (Function.update c.tree i (some ((c.pre, suf), 2 ^ rootBits numColors + 2 + dict.length)))) :
    (c.addWord (maxBits numColors - 1) i suf).Pairs (rootBits numColors)
        (if dict.length + 1 = limit (rootBits numColors) then [] else dict ++ [(c.pre, suf)]) ∧
      (c.addWord (maxBits numColors - 1) i suf).pre = suf := by
  rw [addWord_eq hlo hhi hc.sizes]
  by_cases hfull : dict.length + 1 = limit (rootBits numColors)
  · rw [if_pos hfull, if_pos hfull]
    exact ⟨⟨.empty _, rfl, hfull ▸ Nat.succ_pos _⟩, rfl⟩
  · rw [if_neg hfull, if_neg hfull]
    have hlength : (dict ++ [(c.pre, suf)]).length = dict.length + 1 := List.length_append
    refine ⟨⟨htree, ?_, ?_⟩, rfl⟩
    · rw [hlength]
    · have := hc.length
      omega

/-- One turn: the rest cuts what is left from some state on. -/
theorem calls_turn (hlo : 2 ≤ numColors) (hhi : numColors ≤ 256) {c : Compressor}
    {dict : List (Nat × Nat)}
    (hc : c.Pairs (rootBits numColors) dict) (hdone : c.done = false) (turns : Nat) :
    ∃ (dict' : List (Nat × Nat)) (c' : Compressor), c'.Pairs (rootBits numColors) dict' ∧
      (c'.x, c'.y, c'.done) = ((c.advance img).x, (c.advance img).y, (c.advance img).done) ∧
      ∀ xs, c'.Cuts img rasters numColors turns dict' xs →
        c.Cuts img rasters numColors (turns + 1) dict
          ((img.bits (rasters c.y * img.width + c.x)).toNat :: xs) := by
  obtain ⟨x, y, done, hadvance⟩ := advance_eq img c
  generalize hsuf : (img.bits (rasters c.y * img.width + c.x)).toNat = suf
  have hlen : dict.length < hash := (hc.length.trans_le (Nat.sub_le _ _)).trans (by decide)
  obtain ⟨i, hfind, hslot⟩ := findHash_paired hc.tree hlen c.pre suf
  obtain ⟨hmem, hsome⟩ | ⟨hnew, hnone, htree⟩ := hslot
  · -- the run goes on
    refine ⟨dict, { c with pre := 2 ^ rootBits numColors + 2 + dict.idxOf (c.pre, suf),
                           x := x, y := y, done := done },
      ⟨hc.tree, hc.sizes, hc.length⟩, by rw [hadvance], fun xs hxs => ?_⟩
    rw [Compressor.Cuts, Compressor.calls, if_neg (by rw [hdone]; exact Bool.false_ne_true),
      codes, lastLength,
      if_pos hmem, if_pos hmem]
    simp only [hsuf, hadvance, hfind, hsome]
    exact hxs
  · have hpairs := @addWord_pairs numColors hlo hhi { c with x := x, y := y, done := done } dict
      ⟨hc.tree, hc.sizes, hc.length⟩ i suf htree
    refine ⟨_, _, hpairs.1, ?_, fun xs hxs => ?_⟩
    · rw [addWord_place, hadvance]
    · rw [Compressor.Cuts, hpairs.2] at hxs
      rw [Compressor.Cuts, Compressor.calls, if_neg (by rw [hdone]; exact Bool.false_ne_true),
        codes, lastLength,
        if_neg hnew, if_neg hnew]
      simp only [hsuf, hadvance, hfind, hnone, hxs, Option.map_some]
      rw [@wordCalls_eq numColors hlo hhi { c with x := x, y := y, done := done }
        dict.length hc.sizes]
      split <;> rfl

theorem at_of_eq {c c' : Compressor} (h : (c'.x, c'.y, c'.done) = (c.x, c.y, c.done)) {n : Nat}
    (hat : c.At img n) :
    c'.At img n := by
  obtain ⟨hx, hy, hdone⟩ : c'.x = c.x ∧ c'.y = c.y ∧ c'.done = c.done := by simpa using h
  rw [Compressor.At] at hat ⊢
  rw [hx, hy, hdone]
  exact hat

/-- From any state the calls are the codes of the pixels to come. -/
theorem calls_codes (hlo : 2 ≤ numColors) (hhi : numColors ≤ 256)
    (hrasters : ∀ y < img.height, rasters y = y)
    (count : Nat) {turns : Nat} (hturns : count < turns) {dict : List (Nat × Nat)} {c : Compressor}
    (hc : c.Pairs (rootBits numColors) dict) {n : Nat} (hat : c.At img n)
    (hn : n + count = img.width * img.height) :
    c.Cuts img rasters numColors turns dict ((pixelsFrom img n count).map BitVec.toNat) := by
  obtain ⟨turns, rfl⟩ : ∃ t, turns = t + 1 := ⟨turns - 1, by omega⟩
  induction count generalizing turns dict c n with
  | zero =>
    exact cuts_nil hc (hat.done hn.ge) turns
  | succ count ih =>
    obtain ⟨turns, rfl⟩ : ∃ t, turns = t + 1 := ⟨turns - 1, by omega⟩
    have hdone : c.done = false := hat.not_done (by omega)
    have hpix : rasters c.y * img.width + c.x = n := by
      rw [Compressor.At, hdone] at hat
      rw [hrasters c.y hat.2.1, hat.2.2]
    obtain ⟨dict', c', hc', hnext, hturn⟩ :=
      @calls_turn img rasters numColors hlo hhi c dict hc hdone (turns + 1)
    rw [hpix] at hturn
    exact hturn _ (ih hc' (at_of_eq hnext (advance_at hat hdone)) (by omega) turns (by omega))

/-- The pixels that the loops take. Of a single pixel there is none left, and they
take one on the line that an earlier image has left in `rasters[1]`. -/
def taken (img : DIB) (old : Nat → Nat) : List Nat :=
  (if img.width * img.height = 1 then
    [img.bits (old 1)] else pixelsFrom img 1 (img.width * img.height - 1)).map
    BitVec.toNat

theorem emitted_eq (hlo : 2 ≤ numColors) (hhi : numColors ≤ 256) (hw : 0 < img.width)
    (hh : 0 < img.height)
    (hmax : img.height ≤ 768) (old : Nat → Nat) :
    emitted img numColors old =
      some ((rootBits numColors + 1, 2 ^ rootBits numColors) ::
          codes (2 ^ rootBits numColors) (limit (rootBits numColors)) []
          (img.bits 0).toNat (taken img old),
        sizesFor (rootBits numColors)
        (lastLength (2 ^ rootBits numColors) (limit (rootBits numColors)) []
          (img.bits 0).toNat (taken img old))) := by
  obtain ⟨hm, hm8⟩ := rootBits_bounds hlo hhi
  have hsizes := (sizes_eq hlo hhi).1
  have hrasters : ∀ y < img.height, rastersFor img old y = y := fun y hy => if_pos hy
  have hfirst : (firstState img (rastersFor img old) numColors).Pairs (rootBits numColors) [] :=
    ⟨.empty _, hsizes, Nat.zero_lt_of_lt (one_lt_limit hm8)⟩
  have hpre : (firstState img (rastersFor img old) numColors).pre = (img.bits 0).toNat := by
    show (img.bits (rastersFor img old 0 * img.width)).toNat = (img.bits 0).toNat
    rw [hrasters 0 hh, Nat.zero_mul]
  have hcuts : (firstState img (rastersFor img old) numColors).Cuts img
      (rastersFor img old) numColors
      (img.width * img.height + 2) [] (taken img old) := by
    rw [taken]
    by_cases hone : img.width * img.height = 1
    · have hw1 : img.width = 1 := Nat.eq_one_of_mul_eq_one_right hone
      have hh1 : img.height = 1 := Nat.eq_one_of_mul_eq_one_left hone
      obtain ⟨dict, c, hc, hnext, hturn⟩ :=
        @calls_turn img (rastersFor img old) numColors hlo hhi _ _ hfirst rfl 2
      have hdone : c.done = true := by
        have hlast : ((firstState img (rastersFor img old) numColors).advance img).done = true := by
          simp [Compressor.advance, firstState, hw1, hh1]
        simp only [Prod.mk.injEq] at hnext
        rw [hnext.2.2, hlast]
      have hbehind : rastersFor img old (firstState img (rastersFor img old) numColors).y *
          img.width +
          (firstState img (rastersFor img old) numColors).x = old 1 := by
        simp [firstState, rastersFor, hw1, hh1]
      rw [hbehind] at hturn
      rw [if_pos hone, hw1, hh1]
      exact hturn [] (cuts_nil hc hdone 1)
    · rw [if_neg hone]
      have hmany : 2 ≤ img.width * img.height := by
        have := Nat.mul_pos hw hh
        omega
      exact calls_codes hlo hhi hrasters _ (by omega) hfirst (firstState_at hw hmany _) (by omega)
  rw [emitted, if_neg hmax.not_gt]
  simp only
  rw [Compressor.Cuts] at hcuts
  rw [hcuts, hpre, Option.map_some]
  simp only [firstState, hsizes, sizesFor, width_zero hm]

/-- The bytes of an image are those that its codes leave behind the root bits. -/
theorem gifLzwCompressor_calls (hlo : 2 ≤ numColors) (hhi : numColors ≤ 256) {old : Nat → Nat}
    {calls : List (Nat × Nat)} {sizes : Sizes}
    (h : emitted img numColors old = some (calls, sizes)) :
    gifLzwCompressor img numColors old =
      some (((⟨0, 0, [], [BitVec.ofNat 8 (rootBits numColors)]⟩ : Writer).writeAll
        (calls ++ [sizes.eoi])).close
        sizes.bits) := by
  rw [gifLzwCompressor_emitted, h, Option.map_some, (sizes_eq hlo hhi).1]
  simp only [sizesFor, width_zero (rootBits_bounds hlo hhi).1, Nat.add_sub_cancel]

/-- The table of twelve bits is full when the compressor clears it. -/
theorem suits {m : Nat} (hm : 2 ≤ m) (hm8 : m ≤ 8) : LzwRuns.Suits (2 ^ m) 12 (limit m) := by
  have hlow : 2 ^ 2 ≤ 2 ^ m := Nat.pow_le_pow_right two_pos hm
  have hhigh : 2 ^ m ≤ 2 ^ 8 := Nat.pow_le_pow_right two_pos hm8
  have hlog (d : Nat) (hd : d < 2 ^ m) : Nat.log2 (2 ^ m + d) = m := by
    rw [Nat.log2_eq_iff (by omega), pow_succ]
    omega
  refine ⟨?_, ?_⟩
  · rw [hlog 2 (by omega), hlog 1 (by omega)]
  · rw [limit]
    omega

/-- A decoder takes the clear code and the codes of the runs. -/
theorem acceptAll_cleared {m : Nat} (hm : 2 ≤ m) (hm8 : m ≤ 8) {x : Nat}
    {xs : List Nat} (hx : x < 2 ^ m)
    (hxs : ∀ y ∈ xs, y < 2 ^ m) :
    (⟨[], none⟩ : LzwRuns.Decoder).acceptAll (2 ^ m) 12
      ((m + 1, 2 ^ m) :: codes (2 ^ m) (limit m) [] x xs) =
      some (x :: xs) := by
  have hclear : (⟨[], none⟩ : LzwRuns.Decoder).accept (2 ^ m) 12 (m + 1, 2 ^ m) =
      some ([], ⟨[], none⟩) := by
    apply LzwRuns.accept_clear
    · have hlog : Nat.log2 (2 ^ m + 2 + 0) = Nat.log2 (2 ^ m + 1) := (suits hm hm8).first
      have hzero := width_zero hm
      rw [width, Nat.add_zero] at hzero
      rw [LzwStream.width, List.length_nil, hlog, hzero]
      exact min_eq_right (by omega)
    · exact Nat.pow_lt_pow_right one_lt_two (Nat.lt_succ_self _)
  have hfirst : LzwStream.lookup id (2 ^ m) [] x = some [x] := if_pos hx
  have hcodes := LzwRuns.acceptAll_codes (suits hm hm8) (by decide) .nil (.inl ⟨rfl, rfl⟩)
    (Nat.zero_lt_of_lt (one_lt_limit hm8)) hfirst hxs
  rw [LzwRuns.Decoder.acceptAll, hclear, Option.bind_some, hcodes]
  rfl

/-- Of two or more pixels the loops take all but the first. -/
theorem first_taken (hmany : 2 ≤ img.width * img.height) (old : Nat → Nat) :
    (pixelsFrom img 0 (img.width * img.height)).map BitVec.toNat =
      (img.bits 0).toNat :: taken img old := by
  obtain ⟨count, hcount⟩ : ∃ count, img.width * img.height = count + 1 :=
    ⟨_, (Nat.sub_add_cancel (by omega)).symm⟩
  rw [taken, if_neg (by omega), hcount, Nat.add_sub_cancel]
  rfl

/-- A decoder that knows the minimum code size takes all codes, in step with the
compressor, and has the pixels from them. The bytes are what these codes and EOI leave
in the writer behind the minimum code size. -/
theorem emitted_accepted (hlo : 2 ≤ numColors) (hhi : numColors ≤ 256)
    (hmany : 2 ≤ img.width * img.height)
    (hmax : img.height ≤ 768)
    (hpixels : ∀ i < img.width * img.height, (img.bits i).toNat < 2 ^ maxBits numColors)
    (old : Nat → Nat) :
    ∃ calls sizes minimum body, emitted img numColors old = some (calls, sizes) ∧
      gifLzwCompressor img numColors old = some (minimum :: body) ∧
      minimum :: body = ((⟨0, 0, [], [minimum]⟩ : Writer).writeAll (calls ++ [sizes.eoi])).close
        sizes.bits ∧
      (⟨[], none⟩ : LzwRuns.Decoder).acceptAll (2 ^ BitVec.toNat minimum) 12 calls =
        some ((pixelsFrom img 0 (img.width * img.height)).map BitVec.toNat) := by
  obtain ⟨hm, hm8⟩ := rootBits_bounds hlo hhi
  have hw : 0 < img.width := Nat.pos_of_ne_zero fun hzero => by simp [hzero] at hmany
  have hh : 0 < img.height := Nat.pos_of_ne_zero fun hzero => by simp [hzero] at hmany
  have hemitted := emitted_eq hlo hhi hw hh hmax old
  have hbytes := gifLzwCompressor_calls hlo hhi hemitted
  obtain ⟨body, data, hbody, -⟩ := encodes_close (rootBits numColors) _ _
  rw [hbody] at hbytes
  refine ⟨_, _, _, body, hemitted, hbytes, hbody.symm, ?_⟩
  have hroots : ∀ x ∈ (pixelsFrom img 0 (img.width * img.height)).map BitVec.toNat,
      x < 2 ^ rootBits numColors := by
    simp only [pixelsFrom, List.map_map, List.forall_mem_map, List.mem_range'_1]
    intro i hi
    exact (hpixels i (by omega)).trans_le (Nat.pow_le_pow_right two_pos (le_max_right 2 _))
  rw [first_taken hmany old] at hroots ⊢
  rw [BitVec.toNat_ofNat, Nat.mod_eq_of_lt (show rootBits numColors < 2 ^ 8 by omega)]
  exact acceptAll_cleared hm hm8 (List.forall_mem_cons.mp hroots).1
    (List.forall_mem_cons.mp hroots).2

theorem emitted_accepted_twoPixels : ∃ calls sizes minimum body,
    emitted ⟨2, 1, by decide, fun _ => 1⟩ 2 (fun _ => 0) = some (calls, sizes) ∧
      gifLzwCompressor ⟨2, 1, by decide, fun _ => 1⟩ 2 (fun _ => 0) = some (minimum :: body) ∧
      minimum :: body = ((⟨0, 0, [], [minimum]⟩ : Writer).writeAll (calls ++ [sizes.eoi])).close
        sizes.bits ∧
      (⟨[], none⟩ : LzwRuns.Decoder).acceptAll (2 ^ BitVec.toNat minimum) 12 calls = some [1, 1] :=
  emitted_accepted (by decide) (by decide) (by decide) (by decide)
    (fun _ _ => show (1 : Byte).toNat < 2 ^ maxBits 2 by decide) _

end

end GifLzwEncoder
