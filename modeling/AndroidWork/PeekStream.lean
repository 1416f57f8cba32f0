import AndroidWork.BulkReads
import AndroidWork.EventRuns

/-!
# Streams that can be peeked

Stream.cpp over its three sources. A buffer from `new` holds no bytes yet, and a
write past its end is a call that fails.
-/
namespace PeekStream

open BulkReads EventRuns

abbrev Byte := BitVec 8

/-- A Java input stream and the array that its bytes go through. -/
structure JavaInput where
  splits : Splits
  byteArrayLength : Nat
  length_pos : 0 < byteArrayLength

inductive Source where
  | memory
  | file
  | java (input : JavaInput)

/-- What `doRead` writes, the count it returns, and what is left of the content. -/
structure Done where
  written : List Byte
  count : Nat
  rest : List Byte

/-- `JavaInputStream::doRead`, which returns 0 when the content ends early. -/
def JavaInput.doRead (j : JavaInput) : Nat → Nat → List Byte → List Byte → Done
  | 0, _, written, rest => ⟨written, 0, rest⟩
  | fuel + 1, size, written, rest =>
    let requested := min size j.byteArrayLength
    if rest = [] then ⟨written, 0, rest⟩
    else
      let (bytes, rest) := j.splits.bulk requested rest
      if 0 < size - bytes.length then doRead j fuel (size - bytes.length) (written ++ bytes) rest
      else ⟨written ++ bytes, (written ++ bytes).length, rest⟩

def Source.doRead (source : Source) (size : Nat) (rest : List Byte) : Done :=
  match source with
  | .memory => ⟨rest.take size, (rest.take size).length, rest.drop size⟩
  | .file => ⟨rest.take size, (rest.take size).length, rest.drop size⟩
  | .java input => input.doRead size size [] rest

structure Stream where
  source : Source
  rest : List Byte
  peekBuffer : List (Option Byte)
  peekSize : Nat
  peekOffset : Nat

def openStream (source : Source) (content : List Byte) : Stream := ⟨source, content, [], 0, 0⟩

/-- Bytes written to a buffer, if they are all inside it. -/
def store (buffer : List (Option Byte)) (offset : Nat) (bytes : List Byte) :
    Option (List (Option Byte)) :=
  if bytes = [] then some buffer
  else if offset + bytes.length ≤ buffer.length then
    some (buffer.take offset ++ bytes.map some ++ buffer.drop (offset + bytes.length))
  else none

/-- The bytes that were peeked and not read, at most `size`. -/
def Stream.front (s : Stream) (size : Nat) : List (Option Byte) :=
  (s.peekBuffer.drop s.peekOffset).take (min size (s.peekSize - s.peekOffset))

def Stream.peek (s : Stream) (size : Nat) : Option (List (Option Byte) × Stream) :=
  let peekRemaining := s.peekSize - s.peekOffset
  if peekRemaining < size then
    let buffer := (s.peekBuffer.drop s.peekOffset).take peekRemaining ++
      List.replicate (size - peekRemaining) none
    let read := s.source.doRead (size - peekRemaining) s.rest
    (store buffer s.peekOffset read.written).map fun buffer =>
      let s : Stream := ⟨s.source, read.rest, buffer, peekRemaining + read.count, 0⟩
      (s.front size, s)
  else some (s.front size, s)

/-- Peeked bytes are used up. -/
def Stream.consume (s : Stream) (bytesRead : Nat) : Stream :=
  if s.peekSize - s.peekOffset = 0 then s
  else if s.peekOffset + bytesRead = s.peekSize then
    { s with peekBuffer := [], peekOffset := 0, peekSize := 0 }
  else { s with peekOffset := s.peekOffset + bytesRead }

def Stream.read (s : Stream) (size : Nat) : List (Option Byte) × Stream :=
  let bytesRead := min size (s.peekSize - s.peekOffset)
  let out := s.front size
  let s := s.consume bytesRead
  if 0 < size - bytesRead then
    let read := s.source.doRead (size - bytesRead) s.rest
    (out ++ (read.written.take read.count).map some, { s with rest := read.rest })
  else (out, s)

inductive Call where
  | peek (size : Nat)
  | read (size : Nat)

def Stream.call (s : Stream) : Call → Option (List (Option Byte) × Stream)
  | .peek size => s.peek size
  | .read size => some (s.read size)

/-- The stream behind a call. -/
def after (s : Stream) (c : Call) : Option Stream := (s.call c).map Prod.snd

/-- What a call gives on the content itself, and what it leaves. -/
def onContent (content : List Byte) : Call → List Byte × List Byte
  | .peek size => (content.take size, content)
  | .read size => (content.take size, content.drop size)

/-- What the reads among the calls give on the content. -/
def readBytes : List Byte → List Call → List Byte
  | _, [] => []
  | content, .peek _ :: calls => readBytes content calls
  | content, .read size :: calls => content.take size ++ readBytes (content.drop size) calls

/-- Reads on the content give it in order, without loss or repetition. -/
theorem readBytes_prefix (content : List Byte) (calls : List Call) :
    readBytes content calls <+: content := by
  induction calls generalizing content with
  | nil => exact List.nil_prefix
  | cons c calls ih =>
    cases c with
    | peek size => exact ih content
    | read size =>
      have hcontent := List.take_append_drop size content
      rw [readBytes]
      nth_rewrite 3 [← hcontent]
      exact (List.prefix_append_right_inj _).mpr (ih (content.drop size))

/-- No call writes outside, and each gives what the same call gives on the content. -/
def Returns : Stream → List Byte → List Call → Prop
  | _, _, [] => True
  | s, content, c :: cs =>
    ∃ t, s.call c = some ((onContent content c).1.map some, t) ∧
      Returns t (onContent content c).2 cs

/-- The call takes `n` bytes from the source, and the source gives them all or none. -/
def Stream.Gives (s : Stream) (n : Nat) : Prop :=
  match s.source with
  | .java _ => n ≤ s.rest.length ∨ s.rest = []
  | _ => True

/-- A peek that goes on reading finds as many bytes left as it has given out, and
a Java source is not asked for more than it has. -/
def Fits (s : Stream) : Call → Prop
  | .peek size => s.peekSize - s.peekOffset < size →
    (s.peekOffset = s.peekSize - s.peekOffset ∨ s.rest = []) ∧
    s.Gives (size - (s.peekSize - s.peekOffset))
  | .read size => s.peekSize - s.peekOffset < size → s.Gives (size - (s.peekSize - s.peekOffset))

theorem JavaInput.doRead_eq (j : JavaInput) (fuel size : Nat) (written rest : List Byte)
    (hsize : 0 < size)
    (hfuel : size ≤ fuel) : j.doRead fuel size written rest =
      if size ≤ rest.length then
        ⟨written ++ rest.take size, (written ++ rest.take size).length, rest.drop size⟩
      else ⟨written ++ rest, 0, []⟩ := by
  induction fuel generalizing size written rest with
  | zero => omega
  | succ fuel ih =>
    rw [JavaInput.doRead]
    by_cases hrest : rest = []
    · rw [if_pos hrest, hrest, if_neg (by simpa using hsize.ne')]
      simp
    · rw [if_neg hrest]
      have hpos := j.splits.pos (List.length_pos_iff.mpr hrest)
        (Nat.lt_min.mpr ⟨hsize, j.length_pos⟩)
      have hwant := j.splits.le_want rest.length (min size j.byteArrayLength)
      have hleft := j.splits.le_left rest.length (min size j.byteArrayLength)
      have hmin := Nat.min_le_left size j.byteArrayLength
      simp only [Splits.bulk, List.length_take, Nat.min_eq_left hleft]
      generalize j.splits.size rest.length (min size j.byteArrayLength) = n at *
      by_cases hmore : 0 < size - n
      · have hlen : (size - n ≤ (rest.drop n).length) ↔ size ≤ rest.length := by
          rw [List.length_drop]
          omega
        have htake : rest.take n ++ (rest.drop n).take (size - n) = rest.take size := by
          rw [← List.take_add]
          congr 1
          omega
        rw [if_pos hmore, ih _ _ _ hmore (by omega), List.append_assoc, htake, List.append_assoc,
          List.take_append_drop,
          List.drop_drop]
        simp only [hlen]
        congr 3
        omega
      · obtain rfl : n = size := by omega
        rw [if_neg hmore, if_pos hleft]

variable {s : Stream} {n size : Nat} {left : List Byte}

theorem Stream.Gives.doRead (h : s.Gives n) (hn : 0 < n) :
    s.source.doRead n s.rest = ⟨s.rest.take n, (s.rest.take n).length, s.rest.drop n⟩ := by
  obtain ⟨source, rest, buffer, peekSize, peekOffset⟩ := s
  cases source with
  | memory => rfl
  | file => rfl
  | java input =>
    show input.doRead n n [] rest = _
    rw [input.doRead_eq n n [] rest hn le_rfl]
    rcases h with hle | hrest
    · rw [if_pos hle]
      rfl
    · simp only at hrest
      subst hrest
      rw [if_neg (by simpa using hn.ne')]
      simp

theorem doRead_early (h : ¬ s.Gives n) (hn : 0 < n) :
    s.rest ≠ [] ∧ s.rest.length < n ∧ s.source.doRead n s.rest = ⟨s.rest, 0, []⟩ := by
  obtain ⟨source, rest, buffer, peekSize, peekOffset⟩ := s
  cases source with
  | memory => exact absurd trivial h
  | file => exact absurd trivial h
  | java input =>
    have hnot : ¬ (n ≤ rest.length ∨ rest = []) := h
    rw [not_or] at hnot
    refine ⟨hnot.2, Nat.not_le.mp hnot.1, ?_⟩
    show input.doRead n n [] rest = _
    rw [input.doRead_eq n n [] rest hn le_rfl, if_neg hnot.1]
    rfl

/-- The bytes that were peeked and not read. -/
structure Ahead (s : Stream) (left : List Byte) : Prop where
  bytes : (s.peekBuffer.drop s.peekOffset).take (s.peekSize - s.peekOffset) = left.map some
  length : left.length = s.peekSize - s.peekOffset
  offset_le : s.peekOffset ≤ s.peekSize

theorem ahead_open (source : Source) (content : List Byte) : Ahead (openStream source content) [] :=
  ⟨rfl, rfl, le_rfl⟩

theorem Ahead.front (h : Ahead s left) (size : Nat) : s.front size = (left.take size).map some := by
  rw [Stream.front, ← List.take_take, h.bytes, List.map_take]

/-- A call that the bytes at hand are enough for. -/
theorem Ahead.peek_within (h : Ahead s left) (hsize : size ≤ left.length) :
    s.peek size = some (((left ++ s.rest).take size).map some, s) := by
  rw [Stream.peek, if_neg (by rw [← h.length]; omega), h.front, List.take_append_of_le_length hsize]

@[simp] theorem consume_source (s : Stream) (n : Nat) : (s.consume n).source = s.source := by
  rw [Stream.consume]
  split
  · rfl
  · split <;> rfl

@[simp] theorem consume_rest (s : Stream) (n : Nat) : (s.consume n).rest = s.rest := by
  rw [Stream.consume]
  split
  · rfl
  · split <;> rfl

theorem Ahead.consume (h : Ahead s left) (hn : n ≤ left.length) : Ahead (s.consume n)
    (left.drop n) := by
  obtain ⟨hbytes, hlength, hoffset⟩ := h
  rw [Stream.consume]
  split
  · rename_i hnone
    obtain rfl : left = [] := List.eq_nil_of_length_eq_zero (hlength.trans hnone)
    rw [List.drop_nil]
    exact ⟨hbytes, hlength, hoffset⟩
  · split
    · rename_i hall
      obtain rfl : n = left.length := by omega
      rw [List.drop_length]
      exact ⟨rfl, rfl, le_rfl⟩
    · refine ⟨?_, ?_, ?_⟩
      · rw [List.map_drop, ← hbytes, List.drop_take, List.drop_drop, Nat.sub_sub]
      · rw [List.length_drop, hlength]
        simp only
        omega
      · simp only
        omega

theorem Ahead.read_within (h : Ahead s left) (hsize : size ≤ left.length) :
    s.read size = (((left ++ s.rest).take size).map some, s.consume size) := by
  have hmin : min size (s.peekSize - s.peekOffset) = size := by
    rw [← h.length]
    exact Nat.min_eq_left hsize
  simp only [Stream.read, hmin, Nat.sub_self, lt_irrefl, if_false, h.front,
    List.take_append_of_le_length hsize]

/-- A read that goes on at the source. -/
theorem Ahead.read_beyond (h : Ahead s left) (hsize : left.length < size) :
    s.read size = ((left.map some ++ (((s.source.doRead (size - left.length) s.rest).written.take
        (s.source.doRead (size - left.length) s.rest).count).map some)),
      { s.consume left.length with rest :=
        (s.source.doRead (size - left.length) s.rest).rest }) := by
  have hmin : min size (s.peekSize - s.peekOffset) = left.length := by
    rw [← h.length]
    exact Nat.min_eq_right (Nat.le_of_lt hsize)
  have hmore : 0 < size - left.length := by omega
  simp only [Stream.read, hmin, hmore, if_true, h.front,
    List.take_of_length_le (Nat.le_of_lt hsize), consume_source,
    consume_rest]

/-- A peek that goes on at the source. -/
theorem Ahead.peek_beyond (h : Ahead s left) (hsize : left.length < size) :
    s.peek size = (store (left.map some ++ List.replicate (size - left.length) none) s.peekOffset
      (s.source.doRead (size - left.length) s.rest).written).map fun buffer =>
        (buffer.take (min size (left.length + (s.source.doRead (size - left.length) s.rest).count)),
          ⟨s.source, (s.source.doRead (size - left.length) s.rest).rest, buffer,
            left.length + (s.source.doRead (size - left.length) s.rest).count, 0⟩) := by
  have hbytes := h.bytes
  rw [← h.length] at hbytes
  rw [Stream.peek]
  simp only [← h.length, hbytes, if_pos hsize, Stream.front, List.drop_zero, Nat.sub_zero]

theorem store_nothing (buffer : List (Option Byte)) (offset : Nat) :
    store buffer offset [] = some buffer := if_pos rfl

/-- What is not stored to stays. -/
theorem store_outside {buffer buffer' : List (Option Byte)} {offset j : Nat} {bytes : List Byte}
    (h : store buffer offset bytes = some buffer') (hj : j < offset ∨ offset + bytes.length ≤ j) :
    buffer'[j]? = buffer[j]? := by
  rw [store] at h
  split at h
  · cases h
    rfl
  · split at h
    · rename_i hin
      cases h
      have htake : (buffer.take offset).length = offset := by
        rw [List.length_take]
        omega
      rcases hj with hj | hj
      · rw [List.append_assoc, List.getElem?_append_left (by omega), List.getElem?_take_of_lt hj]
      · have hfront : (buffer.take offset ++ bytes.map some).length = offset + bytes.length := by
          rw [List.length_append, htake, List.length_map]
        rw [List.getElem?_append_right (by omega), hfront, List.getElem?_drop,
          Nat.add_sub_cancel' hj]
    · cases h

/-- Bytes stored right behind the ones at hand. -/
theorem store_behind {more : List Byte} {k : Nat} (hk : more.length ≤ k) :
    store (left.map some ++ List.replicate k none) left.length more =
      some ((left ++ more).map some ++ List.replicate (k - more.length) none) := by
  rw [store]
  split
  · rename_i hnil
    subst hnil
    simp
  · have hin : left.length + more.length ≤
        (left.map some ++ List.replicate k (none : Option Byte)).length := by
      simpa using hk
    have htake : (left.map some ++ List.replicate k (none : Option Byte)).take
      left.length = left.map some :=
      List.take_left' (List.length_map some)
    have hdrop : (left.map some ++ List.replicate k (none : Option Byte)).drop
      (left.length + more.length) =
        List.replicate (k - more.length) none := by
      rw [← List.drop_drop, List.drop_left' (List.length_map some), List.drop_replicate]
    rw [if_pos hin, htake, hdrop, List.map_append]

/-- A call that fits gives what the content has there. -/
theorem Ahead.call_fits {c : Call} (h : Ahead s left) (hfits : Fits s c) :
    ∃ t left', s.call c = some ((onContent (left ++ s.rest) c).1.map some, t) ∧ Ahead t left' ∧
      left' ++ t.rest = (onContent (left ++ s.rest) c).2 := by
  cases c with
  | peek size =>
    by_cases hsize : left.length < size
    · obtain ⟨hplace, hgives⟩ := hfits (by rwa [← h.length])
      rw [← h.length] at hplace hgives
      have hread := hgives.doRead (by omega)
      obtain ⟨more, hmore⟩ : ∃ more, s.rest.take (size - left.length) = more := ⟨_, rfl⟩
      have hk : more.length ≤ size - left.length := by
        rw [← hmore]
        exact List.length_take_le _ _
      have hstore : store (left.map some ++ List.replicate (size - left.length) none)
          s.peekOffset more =
          some ((left ++ more).map some ++ List.replicate
            (size - left.length - more.length) none) := by
        rcases hplace with hoffset | hrest
        · rw [hoffset]
          exact store_behind hk
        · rw [hrest, List.take_nil] at hmore
          rw [← hmore, store_nothing]
          simp
      have hfront :
          ((left ++ more).map some ++ List.replicate (size - left.length - more.length) none).take
          (left.length + more.length) = (left ++ more).map some :=
        List.take_left' (by rw [List.length_map, List.length_append])
      refine ⟨⟨s.source, s.rest.drop (size - left.length), (left ++ more).map some ++
        List.replicate (size - left.length - more.length) none, left.length + more.length, 0⟩,
        left ++ more, ?_,
        ⟨hfront, List.length_append, Nat.zero_le _⟩, ?_⟩
      · have hmin : min size (left.length + more.length) = left.length + more.length := by omega
        rw [Stream.call, h.peek_beyond hsize, hread, hmore, hstore, Option.map_some, hmin, hfront]
        simp only [onContent, List.take_append, List.take_of_length_le (Nat.le_of_lt hsize), hmore]
      · simp only [onContent, ← hmore, List.append_assoc, List.take_append_drop]
    · exact ⟨s, left, h.peek_within (Nat.not_lt.mp hsize), h, rfl⟩
  | read size =>
    by_cases hsize : left.length < size
    · have hgives := hfits (by rwa [← h.length])
      rw [← h.length] at hgives
      have hread := hgives.doRead (by omega)
      have hconsumed := h.consume (n := left.length) le_rfl
      rw [List.drop_length] at hconsumed
      refine ⟨{ s.consume left.length with rest := s.rest.drop (size - left.length) }, [], ?_,
        ⟨hconsumed.bytes, hconsumed.length, hconsumed.offset_le⟩, ?_⟩
      · rw [Stream.call, h.read_beyond hsize, hread]
        simp only [List.take_length, onContent, List.take_append,
          List.take_of_length_le (Nat.le_of_lt hsize), List.map_append]
      · simp only [onContent, List.nil_append, List.drop_append,
          List.drop_eq_nil_of_le (Nat.le_of_lt hsize)]
    · refine ⟨_, left.drop size, congrArg some (h.read_within (Nat.not_lt.mp hsize)),
        h.consume (Nat.not_lt.mp hsize), ?_⟩
      rw [consume_rest, onContent, List.drop_append_of_le_length (Nat.not_lt.mp hsize)]

/-- A call that does not fit writes outside, or gives something else. -/
theorem Ahead.call_wrong {c : Call} (h : Ahead s left) (hfits : ¬ Fits s c) (t : Stream) :
    s.call c ≠ some ((onContent (left ++ s.rest) c).1.map some, t) := by
  cases c with
  | peek size =>
    rw [Fits, Classical.not_imp, ← h.length] at hfits
    obtain ⟨hsize, hwrong⟩ := hfits
    intro heq
    rw [Stream.call, h.peek_beyond hsize, Option.map_eq_some_iff] at heq
    obtain ⟨buffer, hstore, heq⟩ := heq
    have hout := congrArg Prod.fst heq
    simp only [onContent] at hout
    by_cases hgives : s.Gives (size - left.length)
    · obtain ⟨hoffset, hrest⟩ := not_or.mp fun hplace => hwrong ⟨hplace, hgives⟩
      rw [hgives.doRead (by omega)] at hstore hout
      have hmore : 0 < (s.rest.take (size - left.length)).length := by
        have hpos := List.length_pos_iff.mpr hrest
        rw [List.length_take]
        omega
      have hmore' : (s.rest.take (size - left.length)).length ≤ size - left.length :=
        List.length_take_le _ _
      generalize s.rest.take (size - left.length) = more at *
      -- a byte of the result that was never written
      obtain ⟨j, hj, hlow, houtside⟩ : ∃ j, j < left.length + more.length ∧ left.length ≤ j ∧
          (j < s.peekOffset ∨ s.peekOffset + more.length ≤ j) := by
        rcases Nat.lt_or_gt_of_ne hoffset with hlt | hgt
        · exact ⟨left.length + more.length - 1, by omega, by omega, .inr (by omega)⟩
        · exact ⟨left.length, by omega, le_rfl, .inl hgt⟩
      have hblank : buffer[j]? = some none := by
        rw [store_outside hstore houtside, List.getElem?_append_right (by simpa using hlow)]
        simp only [List.length_map, List.getElem?_replicate]
        rw [if_pos (by omega)]
      have hbyte := congrArg (fun out : List (Option Byte) => out[j]?) hout
      simp only at hbyte
      rw [List.getElem?_take_of_lt (by omega), hblank, List.getElem?_map] at hbyte
      obtain ⟨b, -, hb⟩ := Option.map_eq_some_iff.mp hbyte.symm
      cases hb
    · -- a Java source that ends early gives nothing
      obtain ⟨hrest, hshort, hread⟩ := doRead_early hgives (by omega)
      rw [hread] at hout
      have hlength := congrArg List.length hout
      have hpos := List.length_pos_iff.mpr hrest
      simp only [List.length_take, List.length_map, List.length_append] at hlength
      omega
  | read size =>
    rw [Fits, Classical.not_imp, ← h.length] at hfits
    obtain ⟨hsize, hgives⟩ := hfits
    obtain ⟨hrest, hshort, hread⟩ := doRead_early hgives (by omega)
    intro heq
    rw [Stream.call, h.read_beyond hsize, hread] at heq
    have hlength :=
      congrArg (fun o : Option (List (Option Byte) × Stream) => o.map fun p => p.1.length) heq
    simp [onContent] at hlength
    have hpos := List.length_pos_iff.mpr hrest
    omega

/-- Streams give what their content has exactly when every call fits. The reads together then give
the content from its beginning. -/
theorem returns_iff (source : Source) (content : List Byte) (calls : List Call) :
    (Returns (openStream source content) content calls ↔
      Meets after Fits (openStream source content) calls) ∧
      readBytes content calls <+: content := by
  refine ⟨?_, readBytes_prefix content calls⟩
  have hall : ∀ (s : Stream) (left : List Byte), Ahead s left →
      (Returns s (left ++ s.rest) calls ↔ Meets after Fits s calls) := by
    induction calls with
    | nil => exact fun s left _ => iff_of_true trivial trivial
    | cons c calls ih =>
      intro s left h
      by_cases hfits : Fits s c
      · obtain ⟨t, left', hcall, hleft, hcontent⟩ := h.call_fits hfits
        have hafter : after s c = some t := by rw [after, hcall]; rfl
        have hrest := ih t left' hleft
        rw [hcontent] at hrest
        constructor
        · rintro ⟨u, hu, hreturns⟩
          cases (Option.some.inj (hcall.symm.trans hu))
          exact meets_step hfits hafter (hrest.mp hreturns)
        · intro hmeets
          exact ⟨t, hcall, hrest.mpr (hmeets.2 t hafter)⟩
      · refine iff_of_false ?_ fun hmeets => hfits hmeets.1
        rintro ⟨t, hcall, -⟩
        exact h.call_wrong hfits t hcall
  exact hall _ [] (ahead_open source content)

/-- Eight bytes are peeked at behind four: they are written over the four, and the
last four of the result were never written. -/
theorem not_returns_longerPeek :
    ¬ Returns (openStream .memory [1, 2, 3, 4, 5, 6, 7, 8]) [1, 2, 3, 4, 5, 6, 7, 8]
    [.peek 4, .peek 8] := by
  rintro ⟨t, ht, u, hu, -⟩
  have hout : ((openStream .memory [1, 2, 3, 4, 5, 6, 7, 8]).call (.peek 4)).bind
      (fun p => (p.2.call (.peek 8)).map Prod.fst) =
      some [some 1, some 2, some 3, some 4, some 5, some 6, some 7, some 8] := by
    rw [ht, Option.bind_some, hu]
    rfl
  exact absurd hout (by decide)

/-- What each of the calls of `doRead` returns: the bytes it counts, and how many. -/
def doReads (source : Source) : List Byte → List Nat → List (List Byte × Nat)
  | _, [] => []
  | rest, size :: sizes =>
    let done := source.doRead size rest
    (done.written.take done.count, done.count) :: doReads source done.rest sizes

/-- The content cut into pieces of the sizes asked for, as far as it goes. -/
def pieces : List Byte → List Nat → List (List Byte × Nat)
  | _, [] => []
  | rest, size :: sizes => (rest.take size, min size rest.length) :: pieces (rest.drop size) sizes

theorem doReads_memory (rest : List Byte) (sizes : List Nat) :
    doReads .memory rest sizes = pieces rest sizes := by
  induction sizes generalizing rest with
  | nil => rfl
  | cons size sizes ih => simp [doReads, pieces, Source.doRead, ih]

/-- The content ends where a read begins, or behind the last one. -/
def EndsBetween (length : Nat) (sizes : List Nat) : Prop :=
  sizes.sum ≤ length ∨ ∃ k, length = (sizes.take k).sum

theorem endsBetween_zero (sizes : List Nat) : EndsBetween 0 sizes := Or.inr ⟨0, by simp⟩

theorem endsBetween_cons {size length : Nat} (sizes : List Nat) (hsize : 1 ≤ size)
    (hle : size ≤ length) :
    EndsBetween length (size :: sizes) ↔ EndsBetween (length - size) sizes := by
  have hsum : size + sizes.sum ≤ length ↔ sizes.sum ≤ length - size := by omega
  have hat : (∃ k, length = ((size :: sizes).take k).sum) ↔
      ∃ k, length - size = (sizes.take k).sum := by
    constructor
    · intro ⟨k, hk⟩
      cases k with
      | zero =>
        simp at hk
        omega
      | succ k =>
        simp only [List.take_succ_cons, List.sum_cons] at hk
        exact ⟨k, by omega⟩
    · intro ⟨k, hk⟩
      refine ⟨k + 1, ?_⟩
      simp only [List.take_succ_cons, List.sum_cons]
      omega
  rw [EndsBetween, EndsBetween, List.sum_cons, hsum, hat]

theorem not_endsBetween_cons {size length : Nat} (sizes : List Nat) (hpos : 0 < length)
    (hlt : length < size) :
    ¬ EndsBetween length (size :: sizes) := by
  intro h
  obtain hsum | ⟨k, hk⟩ := h
  · simp only [List.sum_cons] at hsum
    omega
  · cases k with
    | zero =>
      simp at hk
      omega
    | succ k =>
      simp only [List.take_succ_cons, List.sum_cons] at hk
      omega

/-- At the end of the content no source gives anything. -/
theorem doReads_java_nil (j : JavaInput) (sizes : List Nat) (hsizes : ∀ size ∈ sizes, 1 ≤ size) :
    doReads (.java j) [] sizes = pieces [] sizes := by
  induction sizes with
  | nil => rfl
  | cons size sizes ih =>
    have hsize := hsizes size List.mem_cons_self
    rw [doReads, Source.doRead, j.doRead_eq size size [] [] hsize le_rfl, if_neg (by simp; omega)]
    simp [pieces, ih fun s hs => hsizes s (List.mem_cons_of_mem size hs)]

theorem doReads_java_iff (j : JavaInput) (content : List Byte) (sizes : List Nat)
    (hsizes : ∀ size ∈ sizes, 1 ≤ size) :
    doReads (.java j) content sizes = pieces content sizes ↔ EndsBetween content.length sizes := by
  induction sizes generalizing content with
  | nil => simp [doReads, pieces, EndsBetween]
  | cons size sizes ih =>
    have hsize := hsizes size List.mem_cons_self
    have hrest : ∀ s ∈ sizes, 1 ≤ s := fun s hs => hsizes s (List.mem_cons_of_mem size hs)
    by_cases hle : size ≤ content.length
    · rw [endsBetween_cons sizes hsize hle, ← List.length_drop, ← ih (content.drop size) hrest,
        doReads, Source.doRead,
        j.doRead_eq size size [] content hsize le_rfl, if_pos hle]
      simp [pieces]
    · by_cases hnil : content = []
      · simp only [hnil, doReads_java_nil j _ hsizes, List.length_nil, endsBetween_zero]
      · have hpos := List.length_pos_iff.mpr hnil
        refine iff_of_false ?_ (not_endsBetween_cons sizes hpos (by omega))
        rw [doReads, Source.doRead, j.doRead_eq size size [] content hsize le_rfl,
          if_neg hle, pieces]
        intro heq
        have hcount := congrArg Prod.snd (List.cons.inj heq).1
        simp only at hcount
        omega

/-- The two sources give the same exactly when no request goes beyond the end. -/
theorem java_reads_as_memory_iff (j : JavaInput) (content : List Byte) (sizes : List Nat)
    (hsizes : ∀ size ∈ sizes, 1 ≤ size) :
    doReads .memory content sizes = pieces content sizes ∧
      (doReads (.java j) content sizes = doReads .memory content sizes ↔
        EndsBetween content.length sizes) := by
  rw [doReads_memory]
  exact ⟨rfl, doReads_java_iff j content sizes hsizes⟩

/-- Bytes that arrive one at a time through an array of four. -/
def slowInput : JavaInput := ⟨Splits.single, 4, by decide⟩

theorem java_reads_as_memory_six :
    doReads (.java slowInput) [1, 2, 3, 4, 5, 6]
    [5, 1, 2] = doReads .memory [1, 2, 3, 4, 5, 6] [5, 1, 2] :=
  (java_reads_as_memory_iff slowInput [1, 2, 3, 4, 5, 6] [5, 1, 2] (by decide)).2.mpr
    (Or.inr ⟨2, by decide⟩)

/-- The last four of six bytes are lost when they are asked for five at a time. -/
theorem java_reads_short :
    doReads (.java slowInput) [1, 2, 3, 4, 5, 6] [2, 5] = [([1, 2], 2), ([], 0)] ∧
      doReads .memory [1, 2, 3, 4, 5, 6] [2, 5] = [([1, 2], 2), ([3, 4, 5, 6], 4)] ∧
      doReads (.java slowInput) [1, 2, 3, 4, 5, 6]
      [2, 5] ≠ doReads .memory [1, 2, 3, 4, 5, 6] [2, 5] := by
  decide

end PeekStream
