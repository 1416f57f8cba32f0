import AndroidWork.LzwParse
import AndroidWork.ProbeTable

/-!
# The LZW compressor of Gifflen

`GIF_LZW_compressor` with `find_hash`, `max_bits`, `append_code` and `write_code`,
for an image that is not interlaced. The numbers it computes stay far below 2^31,
so they are natural numbers here.
-/
namespace GifLzwEncoder

abbrev Byte := BitVec 8

/-- An image of 8 bits a pixel. Its size is an int. -/
structure DIB where
  width : Nat
  height : Nat
  size_lt : width * height < 2 ^ 31
  bits : Nat → Byte

def hash : Nat := 11003

/-- `hashtree[i]`: the word `(pre, suf)` and its code, none where the code is -1. -/
abbrev HashTree := Nat → Option ((Nat × Nat) × Nat)

def emptyTree : HashTree := fun _ => none

def hashStart (key : Nat × Nat) : Nat := ((key.1 * 256) ^^^ key.2) % hash

/-- `i = i - o; if (i < 0) i += hash`. -/
def hashNext (key : Nat × Nat) (i : Nat) : Nat :=
  let o := if hashStart key = 0 then 1 else hash - hashStart key
  if i < o then i + hash - o else i - o

/-- `find_hash`, which gives up here when it has been everywhere. -/
def findHash (tree : HashTree) (pre suf : Nat) : Option Nat :=
  ProbeTable.find tree (hashNext (pre, suf)) (pre, suf) hash (hashStart (pre, suf))

def maxBits (num : Nat) : Nat := ((List.range 14).find? fun b => num ≤ 2 ^ b).getD 0

/-- Where the codes go. `lzw` holds `LZW[1]` up to `LZWpos`, `file` what has been
written. -/
structure Writer where
  statBits : Nat
  codeInProgress : Nat
  lzw : List Byte
  file : List Byte

def Writer.appendCode (w : Writer) (code : Byte) : Writer :=
  let lzw := w.lzw ++ [code]
  if lzw.length + 1 = 256 then { w with lzw := [], file := w.file ++ 255 :: lzw }
  else { w with lzw := lzw }

/-- One turn of `while (stat_bits > 7)`. -/
def Writer.emitByte (w : Writer) : Writer :=
  let w' := w.appendCode (BitVec.ofNat 8 w.codeInProgress)
  { w' with codeInProgress := w.codeInProgress >>> 8, statBits := w.statBits - 8 }

/-- `while (stat_bits > 7)`, at most `turns` times. -/
def Writer.emit : Nat → Writer → Writer
  | 0, w => w
  | turns + 1, w => if 7 < w.statBits then emit turns w.emitByte else w

def Writer.writeCode (w : Writer) (noBits code : Nat) : Writer :=
  let w := { w with
    codeInProgress := w.codeInProgress + code <<< w.statBits
    statBits := w.statBits + noBits }
  w.emit w.statBits

/-- The bits that are left, when there are any, the last block, the terminator. -/
def Writer.close (w : Writer) (bits : Nat) : List Byte :=
  let w := if w.statBits ≠ 0 then w.writeCode bits 0 else w
  w.file ++ BitVec.ofNat 8 w.lzw.length :: w.lzw ++ [0]

/-- `clear`, `code`, `bits` and `max`; `EOI` is always `clear + 1`. -/
structure Sizes where
  clear : Nat
  code : Nat
  bits : Nat
  max : Nat
  deriving DecidableEq, Repr

def firstSizes (bitsColor : Nat) : Sizes :=
  let clear := 1 <<< (bitsColor + 1)
  let code := clear + 1 + 1
  let bits := bitsColor + 2
  let max := 1 <<< bits
  if code = max then ⟨4, 6, bits + 1, max * 2⟩ else ⟨clear, code, bits, max⟩

/-- The sizes after the table has been cleared. -/
def clearedSizes (bitsColor clear : Nat) : Sizes :=
  let code := clear + 1 + 1
  let bits := bitsColor + 2
  let max := 1 <<< bits
  if bits = 2 then ⟨4, 6, 3, max * 2⟩ else ⟨clear, code, bits, max⟩

structure Compressor where
  out : Writer
  tree : HashTree
  sizes : Sizes
  pre : Nat
  x : Nat
  y : Nat
  done : Bool

/-- The next pixel to take: `x++`, and on to the next line behind its end. -/
def Compressor.advance (img : DIB) (c : Compressor) : Compressor :=
  if img.width ≤ c.x + 1 then { c with x := 0, y := c.y + 1, done := decide (img.height ≤ c.y + 1) }
  else { c with x := c.x + 1 }

/-- What follows the inner loop's `break`: the word gets the free slot `i`. -/
def Compressor.addWord (bitsColor i suf : Nat) (c : Compressor) : Compressor :=
  let out := c.out.writeCode c.sizes.bits c.pre
  let tree := Function.update c.tree i (some ((c.pre, suf), c.sizes.code))
  let code := c.sizes.code + 1
  if code = c.sizes.max + 1 then
    if c.sizes.bits = 12 then
      { c with
        out := out.writeCode c.sizes.bits c.sizes.clear
        tree := emptyTree
        sizes := clearedSizes bitsColor c.sizes.clear
        pre := suf }
    else
      { c with
        out := out
        tree := tree
        sizes := { c.sizes with code := code, bits := c.sizes.bits + 1, max := c.sizes.max * 2 }
        pre := suf }
  else { c with out := out, tree := tree, sizes := { c.sizes with code := code }, pre := suf }

/-- The last code and the end. -/
def Compressor.finish (c : Compressor) : List Byte :=
  let out := c.out.writeCode c.sizes.bits c.pre
  let out := out.writeCode c.sizes.bits (c.sizes.clear + 1)
  out.close c.sizes.bits

/-- Both `while (1)` loops, at most `turns` pixels. -/
def Compressor.loop (img : DIB) (rasters : Nat → Nat) (bitsColor : Nat) :
    Nat → Compressor → Option (List Byte)
  | 0, _ => none
  | turns + 1, c =>
    if c.done then some c.finish
    else
      let suf := (img.bits (rasters c.y * img.width + c.x)).toNat
      let c := c.advance img
      match findHash c.tree c.pre suf with
      | none => none
      | some i =>
        match c.tree i with
        | some word => loop img rasters bitsColor turns { c with pre := word.2 }
        | none => loop img rasters bitsColor turns (c.addWord bitsColor i suf)

/-- `rasters[e] = e` for the lines of the image. The array is static: behind
them it keeps what an earlier image left there. -/
def rastersFor (img : DIB) (old : Nat → Nat) : Nat → Nat :=
  fun e => if e < img.height then e else old e

/-- The state before the loops. -/
def firstState (img : DIB) (rasters : Nat → Nat) (numColors : Nat) : Compressor :=
  let sizes := firstSizes (maxBits numColors - 1)
  let empty : Writer := ⟨0, 0, [], [BitVec.ofNat 8 (sizes.bits - 1)]⟩
  let below : Bool := decide (img.width ≤ 1)
  { out := empty.writeCode sizes.bits sizes.clear
    tree := emptyTree
    sizes := sizes
    pre := (img.bits (rasters 0 * img.width)).toNat
    x := if below then 0 else 1
    y := if below then 1 else 0
    done := false }

/-- `GIF_LZW_compressor`: the bytes it writes. `rasters` has 768 lines. A turn of
the loop takes one pixel, so there are enough of them. -/
def gifLzwCompressor (img : DIB) (numColors : Nat) (oldRasters : Nat → Nat) : Option (List Byte) :=
  if 768 < img.height then none
  else
    let rasters := rastersFor img oldRasters
    (firstState img rasters numColors).loop img rasters (maxBits numColors - 1)
      (img.width * img.height + 2)

def Writer.writeAll (w : Writer) (codes : List (Nat × Nat)) : Writer :=
  codes.foldl (fun w c => w.writeCode c.1 c.2) w

open LzwParse (Known Closed codeOf codes width finalLength)

theorem hash_prime : hash.Prime := by norm_num [hash]

theorem hashStart_lt (key : Nat × Nat) : hashStart key < hash := Nat.mod_lt _ (by decide)

/-- The way from slot to slot goes round in steps of one size. -/
theorem route_eq (key : Nat × Nat) (n : Nat) :
    ProbeTable.route hashStart hashNext key n =
      (hashStart key + n * if hashStart key = 0 then hash - 1 else hashStart key) % hash := by
  have hlt := hashStart_lt key
  induction n with
  | zero => rw [Nat.zero_mul, Nat.add_zero, Nat.mod_eq_of_lt hlt]; rfl
  | succ n ih =>
    rw [ProbeTable.route_succ, ih, Nat.succ_mul, ← Nat.add_assoc]
    generalize hashStart key + n * (if hashStart key = 0 then hash - 1 else hashStart key) = i
    have hi : i % hash < hash := Nat.mod_lt _ (by decide)
    rw [hashNext, Nat.add_mod i]
    simp only [hash] at *
    split <;> split <;> omega

theorem route_injOn (key : Nat × Nat) :
    Set.InjOn (ProbeTable.route hashStart hashNext key) (Set.Iio hash) := by
  intro n hn m hm h
  have hlt := hashStart_lt key
  have hstep : ∃ d, 0 < d ∧ d < hash ∧
      (if hashStart key = 0 then hash - 1 else hashStart key) = d := by
    split
    · exact ⟨hash - 1, by decide, by decide, rfl⟩
    · exact ⟨_, by omega, hlt, rfl⟩
  obtain ⟨d, hpos, hd, hstep⟩ := hstep
  have hcoprime : Nat.Coprime hash d :=
    (Nat.Prime.coprime_iff_not_dvd hash_prime).mpr (Nat.not_dvd_of_pos_of_lt hpos hd)
  simp only [route_eq, hstep] at h
  have hmod : n * d ≡ m * d [MOD hash] := Nat.ModEq.add_left_cancel' _ h
  have := Nat.ModEq.cancel_right_of_coprime hcoprime hmod
  rwa [Nat.ModEq, Nat.mod_eq_of_lt hn, Nat.mod_eq_of_lt hm] at this

def byteSym (b : Byte) : Nat := b.toNat

theorem byteSym_injective : Function.Injective byteSym := fun _ _ h => BitVec.eq_of_toNat_eq h

/-- The hash table holds the words of a dictionary. -/
structure TreeOf (clear : Nat) (dict : List (List Byte)) (tree : HashTree) : Prop where
  placed : ProbeTable.Placed hashStart hashNext tree
  taken : ∃ taken : Finset Nat, taken.card ≤ dict.length ∧ ∀ i, tree i ≠ none → i ∈ taken
  holds : ∀ key code, ProbeTable.Holds tree key code ↔
    ∃ p x, p ++ [x] ∈ dict ∧ key = (codeOf clear byteSym dict p, x.toNat) ∧
      code = codeOf clear byteSym dict (p ++ [x])

theorem TreeOf.empty (clear : Nat) : TreeOf clear [] emptyTree := by
  refine ⟨ProbeTable.Placed.empty, ProbeTable.Occupies.empty, fun key code => ⟨?_, ?_⟩⟩
  · rintro ⟨i, hi⟩
    cases hi
  · rintro ⟨p, x, hmem, -⟩
    cases hmem

section

variable {clear : Nat} {dict : List (List Byte)} {tree : HashTree} {p : List Byte}

/-- `find_hash` finds the code of a word of the dictionary, and a slot for a word
that is new. -/
theorem findHash_spec (ht : TreeOf clear dict tree) (hc : Closed clear byteSym dict)
    (hp : Known clear byteSym dict p) (hlen : dict.length < hash) (x : Byte) :
    ∃ i, findHash tree (codeOf clear byteSym dict p) x.toNat = some i ∧
      ((p ++ [x] ∈ dict ∧ ∃ key, tree i = some (key, codeOf clear byteSym dict (p ++ [x]))) ∨
        (p ++ [x] ∉ dict ∧ tree i = none ∧
          TreeOf clear (dict ++ [p ++ [x]]) (Function.update tree i
            (some ((codeOf clear byteSym dict p, x.toNat), clear + 2 + dict.length))))) := by
  obtain ⟨i, hfind, hslot⟩ := ProbeTable.find_or_insert ht.placed ht.taken hlen _
    (route_injOn (codeOf clear byteSym dict p, x.toNat))
  refine ⟨i, hfind, ?_⟩
  obtain ⟨code, hsome, hholds⟩ | ⟨hnone, hno, hinsert⟩ := hslot
  · left
    obtain ⟨q, y, hmem, hkey, hcode⟩ := (ht.holds _ _).mp hholds
    obtain ⟨hpq, hxy⟩ := Prod.mk.inj hkey
    obtain rfl := LzwParse.codeOf_inj byteSym_injective hc hp (hc.known_init hmem).2 hpq
    obtain rfl := BitVec.eq_of_toNat_eq hxy
    exact ⟨hmem, _, hcode ▸ hsome⟩
  · have hnew : p ++ [x] ∉ dict := fun hmem => hno _ ((ht.holds _ _).mpr ⟨p, x, hmem, rfl, rfl⟩)
    have hlong : 2 ≤ (p ++ [x]).length := by
      have := List.length_pos_iff.mpr (hp.ne_nil hc)
      rw [List.length_append, List.length_singleton]
      omega
    have hlength : (dict ++ [p ++ [x]]).length = dict.length + 1 := List.length_append
    refine .inr ⟨hnew, hnone, (hinsert _).1, hlength ▸ (hinsert _).2, fun key code => ?_⟩
    rw [ProbeTable.holds_insert hnone, ht.holds]
    constructor
    · rintro (⟨rfl, rfl⟩ | ⟨q, y, hmem, rfl, rfl⟩)
      · refine ⟨p, x, List.mem_append_right _ (List.mem_singleton_self _), ?_, ?_⟩
        · rw [LzwParse.codeOf_extend hc hp]
        · rw [LzwParse.codeOf_new hlong hnew]
      · refine ⟨q, y, List.mem_append_left _ hmem, ?_, ?_⟩
        · rw [LzwParse.codeOf_extend hc (hc.known_init hmem).2]
        · rw [LzwParse.codeOf_extend hc (.inr hmem)]
    · rintro ⟨q, y, hmem, rfl, rfl⟩
      rcases List.mem_append.mp hmem with hmem | hmem
      · right
        refine ⟨q, y, hmem, ?_, ?_⟩
        · rw [LzwParse.codeOf_extend hc (hc.known_init hmem).2]
        · rw [LzwParse.codeOf_extend hc (.inr hmem)]
      · left
        obtain ⟨rfl, hy⟩ := List.append_inj' (List.mem_singleton.mp hmem) rfl
        cases hy
        rw [LzwParse.codeOf_extend hc hp, LzwParse.codeOf_new hlong hnew]
        exact ⟨rfl, rfl⟩

end

/-- The bits of a root code: two colours have codes of two bits. -/
def rootBits (numColors : Nat) : Nat := max 2 (maxBits numColors)

def sizesFor (m n : Nat) : Sizes := ⟨2 ^ m, 2 ^ m + 2 + n, width (2 ^ m) n, 2 ^ width (2 ^ m) n⟩

/-- How many words the table takes before it is cleared. -/
def limit (m : Nat) : Nat := 4095 - 2 ^ m

theorem maxBits_bounds {numColors : Nat} (hlo : 2 ≤ numColors) (hhi : numColors ≤ 256) :
    1 ≤ maxBits numColors ∧ maxBits numColors ≤ 8 := by
  have h : ∀ n : Fin 257, 2 ≤ n.val → 1 ≤ maxBits n.val ∧ maxBits n.val ≤ 8 := by decide +kernel
  exact h ⟨numColors, by omega⟩ hlo

theorem rootBits_bounds {numColors : Nat} (hlo : 2 ≤ numColors) (hhi : numColors ≤ 256) :
    2 ≤ rootBits numColors ∧ rootBits numColors ≤ 8 := by
  have := maxBits_bounds hlo hhi
  rw [rootBits]
  omega

theorem sizes_eq {numColors : Nat} (hlo : 2 ≤ numColors) (hhi : numColors ≤ 256) :
    firstSizes (maxBits numColors - 1) = sizesFor (rootBits numColors) 0 ∧
      clearedSizes (maxBits numColors - 1)
      (2 ^ rootBits numColors) = sizesFor (rootBits numColors) 0 := by
  have h : ∀ b : Fin 9, 1 ≤ b.val → firstSizes (b.val - 1) = sizesFor (max 2 b.val) 0 ∧
      clearedSizes (b.val - 1) (2 ^ max 2 b.val) = sizesFor (max 2 b.val) 0 := by decide +kernel
  have hb := maxBits_bounds hlo hhi
  exact h ⟨maxBits numColors, by omega⟩ hb.1

theorem width_eq_iff (clear n w : Nat) (hw : 0 < w) :
    width clear n = w ↔ 2 ^ (w - 1) ≤ clear + 1 + n ∧ clear + 1 + n < 2 ^ w := by
  have hne : clear + 1 + n ≠ 0 := by omega
  rw [← Nat.le_log2 hne, ← Nat.log2_lt hne, width]
  omega

theorem width_bounds (clear n : Nat) :
    2 ^ (width clear n - 1) ≤ clear + 1 + n ∧ clear + 1 + n < 2 ^ width clear n :=
  (width_eq_iff clear n _ (Nat.succ_pos _)).mp rfl

/-- The width grows when all codes of the old one are taken. -/
theorem width_succ (clear n : Nat) : width clear (n + 1) =
    if clear + 2 + n = 2 ^ width clear n then width clear n + 1 else width clear n := by
  obtain ⟨hlo, hhi⟩ := width_bounds clear n
  have hpos : 0 < width clear n := Nat.succ_pos _
  split
  · rename_i h
    rw [width_eq_iff _ _ _ (Nat.succ_pos _), Nat.succ_sub_one, pow_succ]
    omega
  · rw [width_eq_iff _ _ _ hpos]
    omega

theorem width_mono (clear : Nat) {n n' : Nat} (h : n ≤ n') : width clear n ≤ width clear n' := by
  induction h with
  | refl => exact le_rfl
  | @step n' h ih =>
    rw [width_succ]
    split <;> omega

theorem width_limit {m : Nat} (hm : m ≤ 8) {n : Nat} (hn : n + 1 = limit m) :
    width (2 ^ m) n = 12 := by
  have hpow : 2 ^ m ≤ 2 ^ 8 := Nat.pow_le_pow_right two_pos hm
  rw [limit] at hn
  rw [width_eq_iff _ _ _ (by decide)]
  omega

/-- After the inner loop breaks, the table is cleared or has one more word. -/
theorem addWord_eq {numColors : Nat} (hlo : 2 ≤ numColors) (hhi : numColors ≤ 256)
    {c : Compressor} {n : Nat}
    (hsizes : c.sizes = sizesFor (rootBits numColors) n) (i suf : Nat) :
    c.addWord (maxBits numColors - 1) i suf =
      if n + 1 = limit (rootBits numColors) then
        { c with
          out := (c.out.writeCode (width (2 ^ rootBits numColors) n) c.pre).writeCode
            (width (2 ^ rootBits numColors) n) (2 ^ rootBits numColors)
          tree := emptyTree
          sizes := sizesFor (rootBits numColors) 0
          pre := suf }
      else
        { c with
          out := c.out.writeCode (width (2 ^ rootBits numColors) n) c.pre
          tree := Function.update c.tree i (some ((c.pre, suf), 2 ^ rootBits numColors + 2 + n))
          sizes := sizesFor (rootBits numColors) (n + 1)
          pre := suf } := by
  obtain ⟨-, hm⟩ := rootBits_bounds hlo hhi
  have hcleared := (sizes_eq hlo hhi).2
  generalize rootBits numColors = m at *
  obtain ⟨hlow, hhigh⟩ := width_bounds (2 ^ m) n
  have hsucc := width_succ (2 ^ m) n
  rw [Compressor.addWord]
  simp only [hsizes, sizesFor, Nat.add_right_cancel_iff]
  by_cases hlast : n + 1 = limit m
  · have hw := width_limit hm hlast
    rw [if_pos hlast, hw, if_pos, if_pos rfl, hcleared]
    · rfl
    · rw [limit] at hlast
      omega
  · have hw : 2 ^ m + 2 + n = 2 ^ width (2 ^ m) n → width (2 ^ m) n ≠ 12 := by
      intro heq h12
      rw [h12] at heq
      rw [limit] at hlast
      omega
    rw [if_neg hlast]
    by_cases hfull : 2 ^ m + 2 + n = 2 ^ width (2 ^ m) n
    · rw [if_pos hfull, if_neg (hw hfull)]
      rw [if_pos hfull] at hsucc
      rw [hsucc, pow_succ]
      rfl
    · rw [if_neg hfull]
      rw [if_neg hfull] at hsucc
      rw [hsucc]
      rfl

/-- The pixels from the one numbered `n` on. -/
def pixelsFrom (img : DIB) (n count : Nat) : List Byte := (List.range' n count).map img.bits

/-- The next pixel to take is the one numbered `n`. -/
def Compressor.At (img : DIB) (c : Compressor) (n : Nat) : Prop :=
  if c.done then n = img.width * img.height
  else c.x < img.width ∧ c.y < img.height ∧ n = c.y * img.width + c.x

theorem Compressor.At.lt {img : DIB} {c : Compressor} {n : Nat} (h : c.At img n)
    (hdone : c.done = false) :
    n < img.width * img.height := by
  rw [At, hdone] at h
  obtain ⟨hx, hy, rfl⟩ := h
  calc c.y * img.width + c.x < c.y * img.width + img.width := by omega
    _ = (c.y + 1) * img.width := by ring
    _ ≤ img.height * img.width := Nat.mul_le_mul_right _ hy
    _ = img.width * img.height := Nat.mul_comm _ _

/-- Behind the last pixel the loop is done, and nowhere else. -/
theorem Compressor.At.done {img : DIB} {c : Compressor} {n : Nat} (h : c.At img n)
    (hn : img.width * img.height ≤ n) :
    c.done = true := by
  by_contra hdone
  exact absurd (h.lt (Bool.eq_false_iff.mpr hdone)) (not_lt.mpr hn)

theorem Compressor.At.not_done {img : DIB} {c : Compressor} {n : Nat} (h : c.At img n)
    (hn : n < img.width * img.height) :
    c.done = false := by
  by_contra hdone
  rw [At, if_pos (Bool.eq_true_of_not_eq_false hdone)] at h
  exact absurd h hn.ne

theorem advance_at {img : DIB} {c : Compressor} {n : Nat} (h : c.At img n)
    (hdone : c.done = false) :
    (c.advance img).At img (n + 1) := by
  rw [Compressor.At, hdone] at h
  obtain ⟨hx, hy, rfl⟩ := h
  rw [Compressor.advance]
  split
  · rename_i hend
    have hn : c.y * img.width + c.x + 1 = (c.y + 1) * img.width := by
      rw [Nat.succ_mul]
      omega
    rw [hn]
    by_cases hlast : img.height ≤ c.y + 1
    · have hy' : c.y + 1 = img.height := by omega
      rw [Compressor.At, if_pos (decide_eq_true hlast), hy', Nat.mul_comm]
    · rw [Compressor.At, if_neg (fun h => hlast (of_decide_eq_true h))]
      exact ⟨show 0 < img.width by omega, show c.y + 1 < img.height by omega, rfl⟩
  · rw [Compressor.At, if_neg (by rw [hdone]; exact Bool.false_ne_true)]
    exact ⟨show c.x + 1 < img.width by omega, hy, rfl⟩

theorem advance_eq (img : DIB) (c : Compressor) :
    ∃ x y done, c.advance img = { c with x := x, y := y, done := done } := by
  rw [Compressor.advance]
  split
  · exact ⟨_, _, _, rfl⟩
  · exact ⟨_, _, _, rfl⟩

/-- What the fields of the compressor say while it takes the pixels. -/
structure Coded (m : Nat) (dict : List (List Byte)) (p : List Byte) (c : Compressor) : Prop where
  tree : TreeOf (2 ^ m) dict c.tree
  sizes : c.sizes = sizesFor m dict.length
  pre : c.pre = codeOf (2 ^ m) byteSym dict p
  closed : Closed (2 ^ m) byteSym dict
  known : Known (2 ^ m) byteSym dict p
  length : dict.length < limit m

/-- From any state the loop writes the codes of the phrases that are to come. -/
theorem loop_codes {img : DIB} {numColors : Nat} (hlo : 2 ≤ numColors) (hhi : numColors ≤ 256)
    (hpixels : ∀ i < img.width * img.height, (img.bits i).toNat < 2 ^ rootBits numColors)
    {rasters : Nat → Nat}
    (hrasters : ∀ y < img.height, rasters y = y) (count : Nat) {turns : Nat}
    (hturns : count < turns)
    {dict : List (List Byte)} {p : List Byte} {c : Compressor}
    (hc : Coded (rootBits numColors) dict p c) {n : Nat}
    (hat : c.At img n) (hn : n + count = img.width * img.height) :
    c.loop img rasters (maxBits numColors - 1) turns =
      some
        ((c.out.writeAll (codes (2 ^ rootBits numColors) (limit (rootBits numColors)) byteSym dict p
        (pixelsFrom img n count))).close (width (2 ^ rootBits numColors)
          (finalLength (limit (rootBits numColors)) dict p (pixelsFrom img n count)))) := by
  induction count generalizing turns dict p c n with
  | zero =>
    obtain ⟨turns, rfl⟩ : ∃ t, turns = t + 1 := ⟨turns - 1, by omega⟩
    have hdone : c.done = true := hat.done hn.ge
    rw [Compressor.loop, if_pos hdone, Compressor.finish, hc.pre, hc.sizes]
    rfl
  | succ count ih =>
    obtain ⟨turns, rfl⟩ : ∃ t, turns = t + 1 := ⟨turns - 1, by omega⟩
    have hdone : c.done = false := hat.not_done (by omega)
    have hnext := advance_at hat hdone
    have hpix : img.bits (rasters c.y * img.width + c.x) = img.bits n := by
      rw [Compressor.At, hdone] at hat
      rw [hrasters c.y hat.2.1, hat.2.2]
    obtain ⟨x, y, done, hadvance⟩ := advance_eq img c
    rw [hadvance] at hnext
    have hlen : dict.length < 4095 := hc.length.trans_le (Nat.sub_le _ _)
    obtain ⟨i, hfind, hslot⟩ := findHash_spec hc.tree hc.closed hc.known
      (hlen.trans (by decide)) (img.bits n)
    have hsingle : Known (2 ^ rootBits numColors) byteSym [] [img.bits n] :=
      .inl ⟨_, rfl, hpixels n (by omega)⟩
    have hpixels' : pixelsFrom img n (count + 1) = img.bits n :: pixelsFrom img (n + 1) count := rfl
    rw [Compressor.loop, if_neg (by rw [hdone]; exact Bool.false_ne_true)]
    simp only
    rw [hadvance, hpix, hpixels', codes, finalLength]
    simp only
    rw [hc.pre, hfind]
    simp only
    rcases hslot with ⟨hmem, key, hkey⟩ | ⟨hnew, hnone, htree⟩
    · rw [hkey, if_pos hmem, if_pos hmem]
      exact ih (by omega) (c := { c with pre := _, x := x, y := y, done := done })
        ⟨hc.tree, hc.sizes, rfl, hc.closed, .inr hmem, hc.length⟩ hnext (by omega)
    · rw [hnone, if_neg hnew, if_neg hnew]
      simp only
      rw [addWord_eq hlo hhi
        (c := ⟨c.out, c.tree, c.sizes, codeOf (2 ^ rootBits numColors) byteSym dict p, x, y, done⟩)
          hc.sizes]
      by_cases hfull : dict.length + 1 = limit (rootBits numColors)
      · rw [if_pos hfull, if_pos hfull, if_pos hfull]
        exact ih (by omega) (c := ⟨_, emptyTree, sizesFor (rootBits numColors) 0,
          (img.bits n).toNat, x, y, done⟩)
          ⟨.empty _, rfl, rfl, .nil, hsingle, hfull ▸ Nat.succ_pos _⟩ hnext (by omega)
      · rw [if_neg hfull, if_neg hfull, if_neg hfull]
        refine ih (by omega) (c := ⟨_, _, sizesFor (rootBits numColors) (dict.length + 1),
          (img.bits n).toNat, x, y, done⟩)
          ⟨htree, ?_, rfl, hc.closed.extend hc.known _, ?_, ?_⟩ hnext (by omega)
        · rw [List.length_append]
          rfl
        · exact .inl ⟨_, rfl, hpixels n (by omega)⟩
        · have hlength := hc.length
          rw [List.length_append, List.length_singleton]
          omega

end GifLzwEncoder
