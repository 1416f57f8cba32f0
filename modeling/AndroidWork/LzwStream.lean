import AndroidWork.BitPacking

/-!
# Streams of LZW codes

What a stream of codes spells, whoever cut the input into phrases. Codes below
`clear` are symbols, two control codes follow, then the words of the table. A
word joins the table with every code but the first after a clear, until the
codes of `maxWidth` bits are used up; then the table stays as it is.
-/
namespace LzwStream

variable {α : Type} (symbol : Nat → α) (clear maxWidth : Nat)

/-- The width of the next code, while the table holds `n` words. -/
def width (n : Nat) : Nat := min maxWidth (Nat.log2 (clear + 2 + n) + 1)

/-- The word of a code that has one. -/
def lookup (words : List (List α)) (c : Nat) : Option (List α) :=
  if c < clear then some [symbol c] else if c < clear + 2 then none else words[c - (clear + 2)]?

/-- The word of a code behind the word `prev`. The next free code stands for
`prev` with its own first symbol added. -/
def word (words : List (List α)) (prev : Option (List α)) (c : Nat) : Option (List α) :=
  if c = clear + 2 + words.length then prev.bind fun p => p.head?.map fun a =>
    p ++ [a] else lookup symbol clear words c

/-- The table behind a word. -/
def extend (words : List (List α)) (prev : Option (List α)) (w : List α) : List (List α) :=
  match prev with
  | none => words
  | some p => if clear + 2 + words.length < 2 ^ maxWidth then words ++ [p ++ w.take 1] else words

/-- The codes from here on, with their widths, and the symbols that they spell. -/
inductive Stream : List (List α) → Option (List α) → List (Nat × Nat) → List α → Prop where
  | stop (words : List (List α)) (prev : Option (List α)) :
      Stream words prev [(width clear maxWidth words.length, clear + 1)] []
  | clear {words : List (List α)} {prev : Option (List α)} {cs : List (Nat × Nat)} {xs : List α}
      (h : Stream [] none cs xs) : Stream words prev
        ((width clear maxWidth words.length, clear) :: cs) xs
  | code {words : List (List α)} {prev : Option (List α)} {c : Nat} {w : List α}
    {cs : List (Nat × Nat)}
      {xs : List α} (hlt : c < 2 ^ width clear maxWidth words.length)
        (hword : word symbol clear words prev c = some w)
      (h : Stream (extend clear maxWidth words prev w) (some w) cs xs) :
      Stream words prev ((width clear maxWidth words.length, c) :: cs) (w ++ xs)

variable {symbol clear maxWidth} {words : List (List α)} {w : List α} {c : Nat}

theorem lookup_append (v : List α) (h : lookup symbol clear words c = some w) :
    lookup symbol clear (words ++ [v]) c = some w := by
  rw [lookup] at h ⊢
  split at h
  · rwa [if_pos ‹_›]
  · rw [if_neg ‹_›]
    split at h
    · cases h
    · rw [if_neg ‹_›, List.getElem?_append_left (List.getElem?_eq_some_iff.mp h).1]
      exact h

/-- Behind a word its code is in the table. -/
theorem lookup_extend {p : List α} (hlt : c < 2 ^ maxWidth)
    (h : word symbol clear words (some p) c = some w) :
    lookup symbol clear (extend clear maxWidth words (some p) w) c = some w := by
  rw [word] at h
  rw [extend]
  split at h
  · rename_i hc
    obtain ⟨a, hhead, rfl⟩ := Option.map_eq_some_iff.mp h
    have htake : (p ++ [a]).take 1 = [a] := by
      cases p with
      | nil => cases hhead
      | cons b p =>
        cases hhead
        rfl
    rw [if_pos (by omega), htake, lookup, if_neg (by omega), if_neg (by omega), hc,
      Nat.add_sub_cancel_left,
      List.getElem?_concat_length]
  · split
    · exact lookup_append _ h
    · exact h

end LzwStream
