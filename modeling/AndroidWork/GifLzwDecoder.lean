import AndroidWork.Lzw

/-!
# The image data decoder of BaseGifDecoder

`decodeImageData` with `read` and `readBlock`. Arrays are functions of the index
that are asked within their bounds only; an access outside is a fault, where
Java throws. An `int` that can overflow is a bit vector.
-/
namespace GifLzwDecoder

open Lzw (Usable Descends Spells)

abbrev Byte := BitVec 8

def maxStackSize : Int := 4096

inductive Fault where
  | prefixIndex
  | suffixIndex
  | stackIndex
  | pixelsIndex
  | negativeArraySize
  deriving DecidableEq, Repr

/-- `mUseRawData`: bytes come from an input stream or from a byte buffer. -/
inductive Source where
  | stream
  | rawData
  deriving DecidableEq, Repr

/-- Where the bytes come from, those still to be read, and whether `mStatus` was
set to STATUS_FORMAT_ERROR. -/
structure Reader where
  source : Source
  bytes : List Byte
  formatError : Bool

/-- `read`: a stream answers -1 at its end, a byte buffer throws there, which is
caught. -/
def Reader.read (r : Reader) : Int × Reader :=
  match r.bytes with
  | [] =>
    match r.source with
    | .stream => (-1, r)
    | .rawData => (0, { r with formatError := true })
  | b :: bs => (b.toNat, { r with bytes := bs })

/-- `readBlock`: the bytes it leaves in `mBlock`. -/
def Reader.readBlock (r : Reader) : List Byte × Reader :=
  let blockSize := r.read.1
  let r := r.read.2
  if 0 < blockSize then
    match r.source with
    | .stream =>
      (r.bytes.take blockSize.toNat,
        { r with
          bytes := r.bytes.drop blockSize.toNat
          formatError := r.formatError || decide (r.bytes.length < blockSize) })
    | .rawData =>
      if blockSize ≤ r.bytes.length then
        (r.bytes.take blockSize.toNat, { r with bytes := r.bytes.drop blockSize.toNat })
      else ([], { r with formatError := true })
  else ([], r)

/-- What stays the same while the image is decoded. -/
structure Params where
  npix : Int
  dataSize : Int
  pixelsLength : Nat

/-- `1 << n` as Java computes it. -/
def shiftOne (n : Int) : BitVec 32 := 1#32 <<< (n % 32).toNat

def Params.clear (k : Params) : Int := (shiftOne k.dataSize).toInt
def Params.endOfInformation (k : Params) : Int := k.clear + 1
def Params.codeSize (k : Params) : Nat := (k.dataSize + 1).toNat
def Params.codeMask (k : Params) : BitVec 32 := shiftOne (k.dataSize + 1) - 1

/-- The local variables. `block` holds the `count` bytes of the block from `bi`
on, `stack` the `top` bytes of `pixelStack` with the topmost first; `i` and `pi`
are always equal. -/
structure Decoder where
  reader : Reader
  block : List Byte
  datum : BitVec 32
  bits : Nat
  codeSize : Nat
  codeMask : BitVec 32
  available : Int
  oldCode : Int
  first : Int
  stack : List Byte
  prefixes : Int → Int
  suffixes : Int → Byte
  pixels : Int → Byte
  pi : Int

def nullCode : Int := -1

def Decoder.setWord (s : Decoder) (first : Int) (stack : List Byte) : Decoder :=
  { s with first := first, stack := stack }

def Decoder.setOld (s : Decoder) (oldCode : Int) : Decoder := { s with oldCode := oldCode }

def prefixAt (prefixes : Int → Int) (i : Int) : Except Fault Int :=
  if 0 ≤ i ∧ i < maxStackSize then .ok (prefixes i) else .error .prefixIndex

def suffixAt (suffixes : Int → Byte) (i : Int) : Except Fault Byte :=
  if 0 ≤ i ∧ i < maxStackSize then .ok (suffixes i) else .error .suffixIndex

/-- `pixelStack[top++] = b`. -/
def push (b : Byte) (stack : List Byte) : Except Fault (List Byte) :=
  if (stack.length : Int) < maxStackSize + 1 then .ok (b :: stack) else .error .stackIndex

/-- `while (code > clear)`: the root that is reached and the stack. Every turn
takes one of the free `slots` of the stack. -/
def unwind (clear : Int) (prefixes : Int → Int) (suffixes : Int → Byte) :
    Nat → Int → List Byte → Except Fault (Int × List Byte)
  | 0, code, stack => if clear < code then .error .stackIndex else .ok (code, stack)
  | slots + 1, code, stack =>
    if clear < code then
      match suffixAt suffixes code, prefixAt prefixes code with
      | .ok b, .ok parent => unwind clear prefixes suffixes slots parent (b :: stack)
      | .error e, _ => .error e
      | _, .error e => .error e
    else .ok (code, stack)

def freeSlots (stack : List Byte) : Nat := (maxStackSize + 1 - stack.length).toNat

/-- The tables with the string of `oldCode` and `first`. -/
def withString (s : Decoder) : Decoder :=
  let available := s.available + 1
  let grows : Bool := BitVec.ofInt 32 available &&& s.codeMask =
    0 && decide (available < maxStackSize)
  { s with
    prefixes := Function.update s.prefixes s.available (BitVec.ofInt 16 s.oldCode).toInt
    suffixes := Function.update s.suffixes s.available (BitVec.ofInt 8 s.first)
    available := available
    codeSize := if grows then s.codeSize + 1 else s.codeSize
    codeMask := if grows then s.codeMask + BitVec.ofInt 32 available else s.codeMask }

/-- `Add a new string to the string table`, unless it is full. -/
def addString (s : Decoder) : Except Fault Decoder :=
  if s.available < maxStackSize then
    if 0 ≤ s.available then .ok (withString s) else .error .prefixIndex
  else .ok s

/-- A code equal to `available` stands for the last word and its first symbol. -/
def startWord (code : Int) (s : Decoder) : Except Fault (Int × List Byte) :=
  if code = s.available then (push (BitVec.ofInt 8 s.first) s.stack).map fun stack =>
    (s.oldCode, stack)
  else .ok (code, s.stack)

/-- A code that follows another one: its word goes on the stack, a string into
the table. -/
def interpret (k : Params) (inCode : Int) (s : Decoder) : Except Fault Decoder := do
  let (code, stack) ← startWord inCode s
  let (code, stack) ← unwind k.clear s.prefixes s.suffixes (freeSlots stack) code stack
  let b ← suffixAt s.suffixes code
  let stack ← push (BitVec.ofInt 8 b.toNat) stack
  let s ← addString (s.setWord b.toNat stack)
  .ok (s.setOld inCode)

def Decoder.popped (s : Decoder) (b : Byte) (stack : List Byte) : Decoder :=
  { s with stack := stack, pixels := Function.update s.pixels s.pi b, pi := s.pi + 1 }

/-- `Pop a pixel off the pixel stack.` -/
def popPixel (k : Params) (s : Decoder) : Except Fault Decoder :=
  match s.stack with
  | [] => .error .stackIndex
  | b :: stack =>
    if 0 ≤ s.pi ∧ s.pi < k.pixelsLength then .ok (s.popped b stack) else .error .pixelsIndex

def Decoder.loaded (s : Decoder) (r : Reader) (block : List Byte) (b : Byte) : Decoder :=
  { s with
    reader := r
    block := block
    datum := s.datum + (b.setWidth 32 <<< (s.bits % 32))
    bits := s.bits + 8 }

/-- `Load bytes until there are enough bits for a code.` -/
def loadByte (s : Decoder) : Bool × Decoder :=
  let r := if s.block = [] then s.reader.readBlock else (s.block, s.reader)
  match r.1 with
  | [] => (false, { s with reader := r.2 })
  | b :: block => (true, s.loaded r.2 block b)

/-- `Reset decoder.` -/
def reset (k : Params) (s : Decoder) : Decoder :=
  { s with
    codeSize := k.codeSize
    codeMask := k.codeMask
    available := k.clear + 2
    oldCode := nullCode }

def nextCode (s : Decoder) : Int := (s.datum &&& s.codeMask).toInt

def dropCode (s : Decoder) : Decoder :=
  { s with datum := s.datum.sshiftRight (s.codeSize % 32), bits := s.bits - s.codeSize }

/-- The first code after a clear is not looked up in the tables but for its last
symbol. -/
def Decoder.firstCode (s : Decoder) (code : Int) (b : Byte) : Decoder :=
  { s with stack := [b], oldCode := code, first := code }

/-- One turn of the decoding loop; `false` is its `break`. -/
def turn (k : Params) (s : Decoder) : Except Fault (Bool × Decoder) :=
  if s.stack = [] then
    if s.bits < s.codeSize then .ok (loadByte s)
    else
      let code := nextCode s
      let s := dropCode s
      if s.available < code ∨ code = k.endOfInformation then .ok (false, s)
      else if code = k.clear then .ok (true, reset k s)
      else if s.oldCode = nullCode then do
        let b ← suffixAt s.suffixes code
        .ok (true, s.firstCode code b)
      else do
        let s ← interpret k code s
        let s ← popPixel k s
        .ok (true, s)
  else do
    let s ← popPixel k s
    .ok (true, s)

/-- At most `turns` turns; `none` when they do not end the loop. -/
def loop (k : Params) : Nat → Decoder → Except Fault (Option Decoder)
  | turns, s =>
    if s.pi < k.npix then
      match turns with
      | 0 => .ok none
      | turns + 1 =>
        match turn k s with
        | .error e => .error e
        | .ok (false, s) => .ok (some s)
        | .ok (true, s) => loop k turns s
    else .ok (some s)

/-- The fields that outlive a frame: `pixels` with its length, the tables. -/
structure Buffers where
  pixels : Option (Nat × (Int → Byte))
  prefixes : Int → Int
  suffixes : Int → Byte

/-- `npix = iw * ih`. -/
def npixOf (iw ih : Nat) : Int := (BitVec.ofNat 32 (iw * ih)).toInt

/-- `Allocate new pixel array`, unless the last frame's is large enough. -/
def pixelsFor (npix : Int) (pixels : Option (Nat × (Int → Byte))) :
    Except Fault (Nat × (Int → Byte)) :=
  match pixels with
  | some p => if npix ≤ p.1 then .ok p else .ok (npix.toNat, fun _ => 0)
  | none => if npix < 0 then .error .negativeArraySize else .ok (npix.toNat, fun _ => 0)

/-- The state before the first turn: the roots are in the tables. -/
def initial (k : Params) (buf : Buffers) (r : Reader) (pixels : Int → Byte) : Decoder where
  reader := r
  block := []
  datum := 0
  bits := 0
  codeSize := k.codeSize
  codeMask := k.codeMask
  available := k.clear + 2
  oldCode := nullCode
  first := 0
  stack := []
  prefixes := fun i => if 0 ≤ i ∧ i < k.clear then 0 else buf.prefixes i
  suffixes := fun i => if 0 ≤ i ∧ i < k.clear then BitVec.ofInt 8 i else buf.suffixes i
  pixels := pixels
  pi := 0

/-- The start of `decodeImageData`: arrays, the minimum code size, the roots. -/
def start (iw ih : Nat) (buf : Buffers) (r : Reader) : Except Fault (Params × Decoder) := do
  let (pixelsLength, pixels) ← pixelsFor (npixOf iw ih) buf.pixels
  let k : Params := ⟨npixOf iw ih, r.read.1, pixelsLength⟩
  -- the loop over the roots leaves the arrays when there are more than they hold
  if maxStackSize < k.clear then .error .prefixIndex
  else .ok (k, initial k buf r.read.2 pixels)

/-- The pixels once the missing ones are cleared. -/
def cleared (k : Params) (s : Decoder) : Int → Byte := fun i =>
  if s.pi ≤ i ∧ i < k.npix then 0 else s.pixels i

/-- `decodeImageData`, its loop cut off after `turns` turns. -/
def decodeImageData (iw ih : Nat) (buf : Buffers) (r : Reader) (turns : Nat) :
    Except Fault (Option (Reader × Buffers)) :=
  match start iw ih buf r with
  | .error e => .error e
  | .ok (k, s) =>
    match loop k turns s with
    | .error e => .error e
    | .ok none => .ok none
    | .ok (some s) =>
      .ok (some (s.reader, ⟨some (k.pixelsLength, cleared k s), s.prefixes, s.suffixes⟩))

/-- The states at the head of the loop. -/
inductive Reached (k : Params) (s₀ : Decoder) : Decoder → Prop where
  | start : Reached k s₀ s₀
  | turn {s s' : Decoder} (h : Reached k s₀ s) (hpi : s.pi < k.npix)
    (ht : turn k s = .ok (true, s')) :
      Reached k s₀ s'

/-- Table entries have indices below 4096 and parents that descend to a root,
and the stack is not above its slots. -/
structure TableSafe (k : Params) (s : Decoder) : Prop where
  inRange : ∀ c, k.clear + 1 < c → c < s.available → c < maxStackSize
  descends : Descends s.prefixes k.clear s.available
  stack : (s.stack.length : Int) ≤ maxStackSize + 1

/-- The turn takes a code that stands for a word. -/
def TakesCode (k : Params) (s : Decoder) : Prop :=
  s.stack = [] ∧ s.codeSize ≤ s.bits ∧ nextCode s ≤ s.available ∧ nextCode s ≠ k.endOfInformation ∧
    nextCode s ≠ k.clear

/-- The sizes that a minimum code size gives. -/
theorem params_cases (k : Params) (hlo : -1 ≤ k.dataSize) :
    (k.clear = -2 ^ 31 ∧ k.codeMask = 0) ∨ maxStackSize < k.clear ∨
      (0 < k.clear ∧ k.clear ≤ maxStackSize ∧ 0 < k.codeSize ∧ k.codeMask.toNat < 8192) := by
  have hm : (k.dataSize % 32).toNat < 32 := by omega
  have hnext : ((k.dataSize + 1) % 32).toNat = if (k.dataSize % 32).toNat = 31 then 0
      else (k.dataSize % 32).toNat + 1 := by split <;> omega
  have hsize : (k.dataSize % 32).toNat < 31 → 0 < k.codeSize := by
    intro h
    simp only [Params.codeSize]
    omega
  have htable : ∀ m : Fin 32,
      ((1#32 <<< m.val).toInt = -2 ^ 31 ∧ m.val = 31) ∨ 4096 < (1#32 <<< m.val).toInt ∨
      (m.val < 31 ∧ 0 < (1#32 <<< m.val).toInt ∧ (1#32 <<< m.val).toInt ≤ 4096 ∧
        (1#32 <<< (m.val + 1) - 1#32).toNat < 8192) := by decide
  simp only [Params.clear, Params.codeMask, shiftOne, hnext, maxStackSize]
  rcases htable ⟨_, hm⟩ with ⟨hclear, h31⟩ | hbig | ⟨hlt, hpos, hle, hmask⟩
  · left
    simp only at hclear h31
    refine ⟨hclear, ?_⟩
    rw [if_pos h31]
    rfl
  · exact .inr (.inl hbig)
  · right; right
    simp only at hlt hpos hle hmask
    have hne : (k.dataSize % 32).toNat ≠ 31 := by omega
    rw [if_neg hne]
    exact ⟨hpos, hle, hsize hlt, hmask⟩

theorem read_bounds (r : Reader) : -1 ≤ r.read.1 ∧ r.read.1 ≤ 255 := by
  rw [Reader.read]
  cases r.bytes with
  | nil =>
    cases r.source with
    | stream => exact ⟨le_rfl, by simp⟩
    | rawData => exact ⟨by simp, by simp⟩
  | cons b bs =>
    have := b.isLt
    simp only
    omega

theorem ok_bind {α β : Type} (a : α) (f : α → Except Fault β) : (Except.ok a >>= f) = f a := rfl

theorem suffixAt_ok (suffixes : Int → Byte) {i : Int} (h0 : 0 ≤ i) (h : i < maxStackSize) :
    suffixAt suffixes i = .ok (suffixes i) := if_pos ⟨h0, h⟩

theorem prefixAt_ok (prefixes : Int → Int) {i : Int} (h0 : 0 ≤ i) (h : i < maxStackSize) :
    prefixAt prefixes i = .ok (prefixes i) := if_pos ⟨h0, h⟩

theorem push_ok (b : Byte) {stack : List Byte} (h : (stack.length : Int) < maxStackSize + 1) :
    push b stack = .ok (b :: stack) := if_pos h

/-- Following parents puts a word but for its first symbol on the stack. -/
theorem unwind_spells {clear : Int} {prefixes : Int → Int} {suffixes : Int → Byte}
    {c : Int} {w : List Byte}
    (h : Spells prefixes suffixes clear c w) {avail : Int} (hd : Descends prefixes clear avail)
    (hc : Usable clear avail c)
    (hrange : ∀ d, clear + 1 < d → d < avail → d < maxStackSize) (slots : Nat)
    (hslots : w.length ≤ slots + 1) (stack : List Byte) :
    ∃ root tail, w = suffixes root :: tail ∧ 0 ≤ root ∧ root < clear ∧
      unwind clear prefixes suffixes slots c stack = .ok (root, tail ++ stack) := by
  induction h generalizing slots stack with
  | @root c h0 h =>
    refine ⟨c, [], rfl, h0, h, ?_⟩
    cases slots with
    | zero => rw [unwind, if_neg (by omega)]; rfl
    | succ slots => rw [unwind, if_neg (by omega)]; rfl
  | @more c w h hw ih =>
    obtain ⟨hlow, hhigh⟩ := hc.resolve_left fun h' => by omega
    have hnonempty := List.length_pos_iff.mpr hw.ne_nil
    rw [List.length_append, List.length_singleton] at hslots
    obtain ⟨slots, rfl⟩ : ∃ n, slots = n + 1 := ⟨slots - 1, by omega⟩
    obtain ⟨root, tail, hword, h0, hr, hun⟩ :=
      ih (hd c hlow hhigh).2 slots (by omega) (suffixes c :: stack)
    refine ⟨root, tail ++ [suffixes c], by rw [hword]; rfl, h0, hr, ?_⟩
    have hcmax := hrange c hlow hhigh
    rw [unwind, if_pos h, suffixAt_ok suffixes (by omega) hcmax,
      prefixAt_ok prefixes (by omega) hcmax]
    simp only [hun, List.append_assoc, List.singleton_append]

/-- The state once a word has been put on the empty stack. -/
def withWord (code : Int) (b : Byte) (w : List Byte) (s : Decoder) : Decoder :=
  let s := s.setWord b.toNat w
  (if s.available < maxStackSize then withString s else s).setOld code

theorem addString_ok (s : Decoder) (h : 0 ≤ s.available) :
    addString s = .ok (if s.available < maxStackSize then withString s else s) := by
  rw [addString, if_pos h]
  split
  · rfl
  · rfl

/-- Words fit on the stack. -/
theorem TableSafe.word_length {k : Params} {s : Decoder} (h : TableSafe k s)
    (hclear : 0 ≤ k.clear) {c : Int}
    {w : List Byte} (hc : Usable k.clear s.available c)
    (hw : Spells s.prefixes s.suffixes k.clear c w) :
    (w.length : Int) ≤ 4095 := by
  obtain ⟨v, hv, hlen⟩ := h.descends.spells hclear s.suffixes hc
  obtain rfl := hw.unique hv
  rcases hc with hc | hc
  · rcases hlen with hlen | hlen <;> omega
  · have := h.inRange c hc.1 hc.2
    simp only [maxStackSize] at this
    rcases hlen with hlen | hlen <;> omega

/-- A code that stands for a word, or for the last word with its own first
symbol added, puts its word on the stack. -/
theorem interpret_eq (k : Params) (code : Int) (s : Decoder) {c : Int} {w : List Byte}
    (hclear : 0 ≤ k.clear) (hmax : k.clear ≤ maxStackSize) (havail : 0 ≤ s.available)
    (htable : TableSafe k s) (hstack : s.stack = [])
    (hc : c = if code = s.available then s.oldCode else code)
    (husable : Usable k.clear s.available c)
    (hw : Spells s.prefixes s.suffixes k.clear c w) :
    ∃ b tail, w = b :: tail ∧ interpret k code s =
      .ok (withWord code b (w ++ if code = s.available then
        [BitVec.ofInt 8 s.first] else []) s) := by
  have hlen := htable.word_length hclear husable hw
  have hstarted : startWord code s = .ok (c, if code = s.available then
      [BitVec.ofInt 8 s.first] else []) := by
    rw [startWord, hstack, hc]
    split
    · rw [push_ok _ (by simp [maxStackSize])]
      rfl
    · rfl
  have hshort : (if code = s.available then
      [BitVec.ofInt 8 s.first] else [] : List Byte).length ≤ 1 := by
    split <;> simp
  generalize hst : (if code = s.available then
    [BitVec.ofInt 8 s.first] else [] : List Byte) = st at *
  have hslots : w.length ≤ freeSlots st + 1 := by
    simp only [freeSlots, maxStackSize]
    omega
  obtain ⟨root, tail, hword, h0, hr, hun⟩ :=
    unwind_spells hw htable.descends husable htable.inRange (freeSlots st) hslots st
  refine ⟨s.suffixes root, tail, hword, ?_⟩
  have hpush : push (BitVec.ofInt 8 ((s.suffixes root).toNat : Int)) (tail ++ st) =
      .ok (w ++ st) := by
    have hbyte : BitVec.ofInt 8 ((s.suffixes root).toNat : Int) = s.suffixes root := by
      simp
    rw [hbyte, push_ok, hword]
    · rfl
    · rw [hword, List.length_cons] at hlen
      simp only [List.length_append, maxStackSize]
      omega
  have hadd := addString_ok (s.setWord (s.suffixes root).toNat (w ++ st)) havail
  rw [interpret, hstarted, ok_bind]
  simp only
  rw [hun, ok_bind]
  simp only
  rw [suffixAt_ok s.suffixes h0 (by omega), ok_bind, hpush, ok_bind, hadd, ok_bind, withWord]

section

variable {k : Params} {s : Decoder}

theorem popPixel_ok {b : Byte} {stack : List Byte} (h : s.stack = b :: stack) (h0 : 0 ≤ s.pi)
    (hpi : s.pi < k.pixelsLength) : popPixel k s = .ok (s.popped b stack) := by
  rw [popPixel, h]
  exact if_pos ⟨h0, hpi⟩

theorem turn_pop {b : Byte} {stack : List Byte} (h : s.stack = b :: stack) (h0 : 0 ≤ s.pi)
    (hpi : s.pi < k.pixelsLength) : turn k s = .ok (true, s.popped b stack) := by
  rw [turn, if_neg (by rw [h]; exact List.cons_ne_nil _ _), popPixel_ok h h0 hpi, ok_bind]

theorem turn_load (h : s.stack = []) (hbits : s.bits < s.codeSize) :
    turn k s = .ok (loadByte s) := by
  rw [turn, if_pos h, if_pos hbits]

theorem turn_stop (h : s.stack = []) (hbits : s.codeSize ≤ s.bits)
    (hcode : s.available < nextCode s ∨ nextCode s = k.endOfInformation) :
    turn k s = .ok (false, dropCode s) := by
  rw [turn, if_pos h, if_neg hbits.not_gt]
  exact if_pos hcode

theorem turn_clear (h : s.stack = []) (hbits : s.codeSize ≤ s.bits) (hle : nextCode s ≤ s.available)
    (hne : nextCode s ≠ k.endOfInformation) (hcode : nextCode s = k.clear) :
    turn k s = .ok (true, reset k (dropCode s)) := by
  have hno : ¬ ((dropCode s).available < nextCode s ∨ nextCode s = k.endOfInformation) :=
    fun h => h.elim hle.not_gt hne
  rw [turn, if_pos h, if_neg hbits.not_gt]
  simp only
  rw [if_neg hno, if_pos hcode]

theorem turn_first (ht : TakesCode k s) (hold : s.oldCode = nullCode) :
    turn k s = (do
      let b ← suffixAt s.suffixes (nextCode s)
      .ok (true, (dropCode s).firstCode (nextCode s) b)) := by
  obtain ⟨h, hbits, hle, hne, hclear⟩ := ht
  have hno : ¬ ((dropCode s).available < nextCode s ∨ nextCode s = k.endOfInformation) :=
    fun h => h.elim hle.not_gt hne
  have hold' : (dropCode s).oldCode = nullCode := hold
  rw [turn, if_pos h, if_neg hbits.not_gt]
  simp only
  rw [if_neg hno, if_neg hclear, if_pos hold']
  rfl

theorem turn_code (ht : TakesCode k s) (hold : s.oldCode ≠ nullCode) :
    turn k s = (do
      let s ← interpret k (nextCode s) (dropCode s)
      let s ← popPixel k s
      .ok (true, s)) := by
  obtain ⟨h, hbits, hle, hne, hclear⟩ := ht
  have hno : ¬ ((dropCode s).available < nextCode s ∨ nextCode s = k.endOfInformation) :=
    fun h => h.elim hle.not_gt hne
  have hold' : (dropCode s).oldCode ≠ nullCode := hold
  rw [turn, if_pos h, if_neg hbits.not_gt]
  simp only
  rw [if_neg hno, if_neg hclear, if_neg hold']

/-- The ways a turn can go. -/
theorem turn_cases (k : Params) (s : Decoder) :
    s.stack ≠ [] ∨ (s.stack = [] ∧ s.bits < s.codeSize) ∨
    (s.stack = [] ∧ s.codeSize ≤ s.bits ∧
      (s.available < nextCode s ∨ nextCode s = k.endOfInformation)) ∨
    (s.stack = [] ∧ s.codeSize ≤ s.bits ∧ nextCode s ≤ s.available ∧ nextCode s ≠
      k.endOfInformation ∧
      nextCode s = k.clear) ∨ TakesCode k s := by
  by_cases hstack : s.stack = []
  · right
    rcases lt_or_ge s.bits s.codeSize with hbits | hbits
    · exact .inl ⟨hstack, hbits⟩
    · right
      by_cases hstop : s.available < nextCode s ∨ nextCode s = k.endOfInformation
      · exact .inl ⟨hstack, hbits, hstop⟩
      · right
        rw [not_or, not_lt] at hstop
        by_cases hclear : nextCode s = k.clear
        · exact .inl ⟨hstack, hbits, hstop.1, hstop.2, hclear⟩
        · exact .inr ⟨hstack, hbits, hstop.1, hstop.2, hclear⟩
  · exact .inl hstack

end

theorem Reached.trans {k : Params} {s₀ s s' : Decoder} (h : Reached k s₀ s) (h' : Reached k s s') :
    Reached k s₀ s' := by
  induction h' with
  | start => exact h
  | turn h' hpi ht ih => exact ih.turn hpi ht

/-- A run goes on from any state it reaches. -/
theorem Reached.loop {k : Params} {s s' : Decoder} (h : Reached k s s') {turns : Nat}
    {res : Except Fault (Option Decoder)} (hloop : loop k turns s' = res) :
    ∃ more, GifLzwDecoder.loop k (turns + more) s = res := by
  induction h generalizing turns with
  | start => exact ⟨0, hloop⟩
  | turn h hpi ht ih =>
    obtain ⟨more, hmore⟩ :=
      @ih (turns + 1) (by rw [GifLzwDecoder.loop, if_pos hpi, ht]; exact hloop)
    exact ⟨more + 1, by rw [← hmore]; congr 1; omega⟩

end GifLzwDecoder
