import AndroidWork.LzwParse
import AndroidWork.LzwStream

/-!
# The runs of an LZW coder, and a decoder in step with it

The coder knows a word by the pair of a code and the symbol behind it. A run of
the input goes on while the pair of its code and the next symbol is known. The
symbols are numbers, and nothing keeps them from being those of other codes.
-/
namespace LzwRuns

open BitPacking (size)
open LzwParse (width sizeFrom)

section

variable (clear limit : Nat)

/-- The runs: how many pairs are known where one ends, and its code. -/
def runs : List (Nat × Nat) → Nat → List Nat → List (Nat × Nat)
  | dict, pre, [] => [(dict.length, pre)]
  | dict, pre, x :: xs =>
    if (pre, x) ∈ dict then runs dict (clear + 2 + dict.idxOf (pre, x)) xs
    else if dict.length + 1 = limit then (dict.length, pre) :: runs [] x xs
    else (dict.length, pre) :: runs (dict ++ [(pre, x)]) x xs

/-- The codes of the runs with their widths, and the clear codes between them. -/
def codes : List (Nat × Nat) → Nat → List Nat → List (Nat × Nat)
  | dict, pre, [] => [(width clear dict.length, pre)]
  | dict, pre, x :: xs =>
    if (pre, x) ∈ dict then codes dict (clear + 2 + dict.idxOf (pre, x)) xs
    else if dict.length + 1 = limit then
      (width clear dict.length, pre) :: (width clear dict.length, clear) :: codes [] x xs
    else (width clear dict.length, pre) :: codes (dict ++ [(pre, x)]) x xs

/-- How many pairs are known at the end. -/
def lastLength : List (Nat × Nat) → Nat → List Nat → Nat
  | dict, _, [] => dict.length
  | dict, pre, x :: xs =>
    if (pre, x) ∈ dict then lastLength dict (clear + 2 + dict.idxOf (pre, x)) xs
    else if dict.length + 1 = limit then lastLength [] x xs
    else lastLength (dict ++ [(pre, x)]) x xs

end

variable {clear limit : Nat} {dict : List (Nat × Nat)} {pre : Nat} {xs : List Nat}

theorem runs_length_pos : 0 < (runs clear limit dict pre xs).length := by
  induction xs generalizing dict pre with
  | nil => exact Nat.one_pos
  | cons x xs ih =>
    rw [runs]
    split
    · exact ih
    · split <;> exact Nat.succ_pos _

/-- The codes, and one more of the last width, take bits by the number of runs. -/
theorem size_codes {n : Nat} (hn : (runs clear limit dict pre xs).length = n + 1) :
    size (codes clear limit dict pre xs) + width clear (lastLength clear limit dict pre xs) =
      sizeFrom clear limit dict.length n := by
  induction xs generalizing dict pre n with
  | nil =>
    obtain rfl : n = 0 := by simpa [runs] using hn.symm
    simp only [codes, lastLength, size, sizeFrom]
    omega
  | cons x xs ih =>
    rw [runs] at hn
    rw [codes, lastLength]
    by_cases hmem : (pre, x) ∈ dict
    · simp only [if_pos hmem] at hn ⊢
      exact ih hn
    · by_cases hfull : dict.length + 1 = limit
      · simp only [if_neg hmem, if_pos hfull, List.length_cons, Nat.add_right_cancel_iff] at hn ⊢
        obtain ⟨n, rfl⟩ := Nat.exists_eq_succ_of_ne_zero (hn ▸ runs_length_pos.ne')
        have hrest := ih hn
        rw [List.length_nil] at hrest
        rw [sizeFrom, if_pos hfull, ← hrest]
        simp only [size]
        omega
      · simp only [if_neg hmem, if_neg hfull, List.length_cons, Nat.add_right_cancel_iff] at hn ⊢
        obtain ⟨n, rfl⟩ := Nat.exists_eq_succ_of_ne_zero (hn ▸ runs_length_pos.ne')
        have hrest := ih hn
        rw [List.length_append, List.length_singleton] at hrest
        rw [sizeFrom, if_neg hfull, ← hrest]
        simp only [size]
        omega

theorem lastLength_eq (hlt : dict.length < limit) {n : Nat}
    (hn : (runs clear limit dict pre xs).length = n + 1) :
    lastLength clear limit dict pre xs = (dict.length + n) % limit := by
  induction xs generalizing dict pre n with
  | nil =>
    obtain rfl : n = 0 := by simpa [runs] using hn.symm
    rw [lastLength, Nat.add_zero, Nat.mod_eq_of_lt hlt]
  | cons x xs ih =>
    rw [runs] at hn
    rw [lastLength]
    by_cases hmem : (pre, x) ∈ dict
    · simp only [if_pos hmem] at hn ⊢
      exact ih hlt hn
    · by_cases hfull : dict.length + 1 = limit
      · simp only [if_neg hmem, if_pos hfull, List.length_cons, Nat.add_right_cancel_iff] at hn ⊢
        obtain ⟨n, rfl⟩ := Nat.exists_eq_succ_of_ne_zero (hn ▸ runs_length_pos.ne')
        rw [ih (by rw [List.length_nil]; omega) hn, List.length_nil, Nat.zero_add,
          show dict.length + (n + 1) = limit + n by omega, Nat.add_mod_left]
      · simp only [if_neg hmem, if_neg hfull, List.length_cons, Nat.add_right_cancel_iff] at hn ⊢
        obtain ⟨n, rfl⟩ := Nat.exists_eq_succ_of_ne_zero (hn ▸ runs_length_pos.ne')
        have hlength : (dict ++ [(pre, x)]).length = dict.length + 1 := List.length_append
        rw [ih (by omega) hn, hlength]
        congr 1
        omega

theorem lt_two_pow_width (clear n : Nat) : clear + 1 + n < 2 ^ width clear n := Nat.lt_log2_self

/-- Codes fit in their widths where those of the runs do. -/
theorem codes_fit_iff : (∀ p ∈ codes clear limit dict pre xs, p.2 < 2 ^ p.1) ↔
    ∀ r ∈ runs clear limit dict pre xs, r.2 < 2 ^ width clear r.1 := by
  induction xs generalizing dict pre with
  | nil => simp [codes, runs]
  | cons x xs ih =>
    have hclear : clear < 2 ^ width clear dict.length := by
      have hlt := lt_two_pow_width clear dict.length
      omega
    rw [codes, runs]
    split
    · exact ih
    · split
      · simp only [List.forall_mem_cons, ih, hclear, true_and]
      · simp only [List.forall_mem_cons, ih]

section

variable (clear maxWidth : Nat)

/-- The table of a decoder and the word it has read before. -/
structure Decoder where
  words : List (List Nat)
  prev : Option (List Nat)

/-- A code that has the width the decoder expects, and clears the table or has a
word, which joins the word before it in the table. -/
def Decoder.accept (d : Decoder) (p : Nat × Nat) : Option (List Nat × Decoder) :=
  if p.1 ≠ LzwStream.width clear maxWidth d.words.length ∨ 2 ^ p.1 ≤ p.2 then none
  else if p.2 = clear then some ([], ⟨[], none⟩)
  else (LzwStream.word id clear d.words d.prev p.2).map fun w =>
    (w, ⟨LzwStream.extend clear maxWidth d.words d.prev w, some w⟩)

/-- What the codes spell, when the decoder accepts them all. -/
def Decoder.acceptAll (d : Decoder) : List (Nat × Nat) → Option (List Nat)
  | [] => some []
  | p :: ps => (d.accept clear maxWidth p).bind fun r => (r.2.acceptAll ps).map fun w => r.1 ++ w

end

/-- The words of the pairs. -/
structure Expands (clear : Nat) (words : List (List Nat)) (dict : List (Nat × Nat)) : Prop where
  length : words.length = dict.length
  entry : ∀ i pre x : Nat, dict[i]? = some (pre, x) →
    ∃ v, LzwStream.lookup id clear words pre = some v ∧ words[i]? = some (v ++ [x])

variable {maxWidth : Nat} {words : List (List Nat)} {v : List Nat}

theorem Expands.nil : Expands clear [] [] := ⟨rfl, fun i pre x h => by simp at h⟩

theorem Expands.extend (h : Expands clear words dict)
    (hv : LzwStream.lookup id clear words pre = some v) (x : Nat) :
    Expands clear (words ++ [v ++ [x]]) (dict ++ [(pre, x)]) := by
  refine ⟨by simp [h.length], ?_⟩
  intro i pre' x' hi
  obtain hlt | hge := lt_or_ge i dict.length
  · rw [List.getElem?_append_left hlt] at hi
    obtain ⟨w, hw, hword⟩ := h.entry i pre' x' hi
    refine ⟨w, LzwStream.lookup_append _ hw, ?_⟩
    rw [List.getElem?_append_left (h.length ▸ hlt)]
    exact hword
  · rw [List.getElem?_append_right hge] at hi
    obtain ⟨hlast, hpair⟩ := List.getElem?_eq_some_iff.mp hi
    simp only [List.length_singleton, Nat.lt_one_iff] at hlast
    obtain ⟨rfl, rfl⟩ : pre = pre' ∧ x = x' := by simpa [hlast] using hpair
    refine ⟨v, LzwStream.lookup_append _ hv, ?_⟩
    rw [List.getElem?_append_right (h.length ▸ hge), h.length, hlast]
    rfl

/-- The code of a known pair has the word of the pair. -/
theorem Expands.lookup_pair (h : Expands clear words dict) {x : Nat} (hmem : (pre, x) ∈ dict)
    (hv : LzwStream.lookup id clear words pre = some v) :
    LzwStream.lookup id clear words (clear + 2 + dict.idxOf (pre, x)) = some (v ++ [x]) := by
  have hidx : dict[dict.idxOf (pre, x)]? = some (pre, x) := List.getElem?_idxOf hmem
  obtain ⟨w, hw, hword⟩ := h.entry _ _ _ hidx
  rw [hv] at hw
  obtain rfl := Option.some.inj hw
  rw [LzwStream.lookup, if_neg (by omega), if_neg (by omega), Nat.add_sub_cancel_left]
  exact hword

theorem lookup_bounds (hv : LzwStream.lookup id clear words pre = some v) :
    pre < clear ∨ clear + 2 ≤ pre ∧ pre < clear + 2 + words.length := by
  rw [LzwStream.lookup] at hv
  split at hv
  · exact .inl ‹_›
  · split at hv
    · cases hv
    · have hlt := (List.getElem?_eq_some_iff.mp hv).1
      exact .inr (by omega)

/-- The decoder's table lacks the newest word, which is the one before with the
first symbol of the run. -/
def InStep (d : Decoder) (words : List (List Nat)) (v : List Nat) : Prop :=
  (words = [] ∧ d = ⟨[], none⟩) ∨
    ∃ q b, q ≠ [] ∧ v.head? = some b ∧ words = d.words ++ [q ++ [b]] ∧ d.prev = some q

/-- The first width is that of the first word too, and the table is full when the
next code would need one more bit. -/
structure Suits (clear maxWidth limit : Nat) : Prop where
  first : Nat.log2 (clear + 2) = Nat.log2 (clear + 1)
  full : clear + limit + 1 = 2 ^ maxWidth

variable {d : Decoder}

theorem InStep.words_length (h : InStep d words v) :
    words = [] ∧ d.words = [] ∨ words.length = d.words.length + 1 := by
  obtain ⟨rfl, rfl⟩ | ⟨q, b, -, -, rfl, -⟩ := h
  · exact .inl ⟨rfl, rfl⟩
  · exact .inr (by simp)

theorem log2_lt {n w : Nat} (h : n < 2 ^ w) (hpos : n ≠ 0) : Nat.log2 n + 1 ≤ w :=
  (Nat.log2_lt hpos).mpr h

theorem InStep.ne_nil (h : InStep d words v)
    (hv : LzwStream.lookup id clear words pre = some v) : v ≠ [] := by
  intro hnil
  subst hnil
  obtain ⟨rfl, -⟩ | ⟨q, b, -, hb, -⟩ := h
  · rw [LzwStream.lookup] at hv
    split at hv
    · cases hv
    · split at hv <;> cases hv
  · cases hb

/-- The widths agree. -/
theorem InStep.width (hsuits : Suits clear maxWidth limit) (h : InStep d words v)
    (hlen : words.length < limit) :
    LzwStream.width clear maxWidth d.words.length = width clear words.length := by
  have hfull := hsuits.full
  have hbound : Nat.log2 (clear + 1 + words.length) + 1 ≤ maxWidth := log2_lt (by omega) (by omega)
  rw [LzwStream.width, LzwParse.width]
  obtain ⟨rfl, hwords⟩ | hlength := h.words_length
  · rw [hwords, List.length_nil, Nat.add_zero, Nat.add_zero, hsuits.first]
    exact min_eq_right hbound
  · rw [show clear + 2 + d.words.length = clear + 1 + words.length by omega]
    exact min_eq_right hbound

/-- The widths agree on the clear code too. -/
theorem width_full (hsuits : Suits clear maxWidth limit) {n : Nat} (hn : n + 1 = limit)
    (hwide : 0 < maxWidth) :
    LzwStream.width clear maxWidth n = width clear n := by
  have hfull := hsuits.full
  have hlast : Nat.log2 (clear + 1 + n) + 1 = maxWidth := by
    have hlog : Nat.log2 (clear + 1 + n) = maxWidth - 1 := by
      rw [Nat.log2_eq_iff (by omega), Nat.sub_add_cancel hwide]
      have hhalf : 2 ^ maxWidth = 2 * 2 ^ (maxWidth - 1) := by
        rw [← Nat.pow_succ', Nat.succ_eq_add_one, Nat.sub_add_cancel hwide]
      have hpos := Nat.two_pow_pos (maxWidth - 1)
      omega
    omega
  have hmono : Nat.log2 (clear + 2 + n) + 1 = maxWidth + 1 := by
    rw [show clear + 2 + n = 2 ^ maxWidth by omega, Nat.log2_two_pow]
  rw [LzwStream.width, LzwParse.width, hlast, hmono]
  exact min_eq_left (Nat.le_succ maxWidth)

theorem accept_clear {w : Nat} (hw : LzwStream.width clear maxWidth d.words.length = w)
    (hlt : clear < 2 ^ w) :
    d.accept clear maxWidth (w, clear) = some ([], ⟨[], none⟩) := by
  rw [Decoder.accept, hw]
  simp only
  rw [if_neg (by omega), if_pos trivial]

/-- The word of the run's code, for the decoder. -/
theorem InStep.word (h : InStep d words v) (hv : LzwStream.lookup id clear words pre = some v) :
    LzwStream.word id clear d.words d.prev pre = some v := by
  have hbounds := lookup_bounds hv
  obtain ⟨rfl, rfl⟩ | ⟨q, b, hq, hb, rfl, hprev⟩ := h
  · rw [LzwStream.word, if_neg (by simp only [List.length_nil] at hbounds ⊢; omega)]
    exact hv
  · rw [LzwStream.word]
    rw [List.length_append, List.length_singleton] at hbounds
    rw [LzwStream.lookup] at hv
    split
    · -- the code that the decoder is about to define
      rw [if_neg (by omega), if_neg (by omega), show pre - (clear + 2) = d.words.length by omega,
        List.getElem?_concat_length] at hv
      obtain rfl := Option.some.inj hv
      obtain ⟨a, q, rfl⟩ := List.exists_cons_of_ne_nil hq
      obtain rfl : a = b := by simpa using hb
      rw [hprev]
      rfl
    · rw [LzwStream.lookup]
      split
      · rwa [if_pos ‹_›] at hv
      · rw [if_neg ‹_›] at hv
        split
        · rwa [if_pos ‹_›] at hv
        · rw [if_neg ‹_›, List.getElem?_append_left (by omega)] at hv
          exact hv

theorem InStep.extend (hsuits : Suits clear maxWidth limit) (h : InStep d words v)
    (hlen : words.length < limit) :
    LzwStream.extend clear maxWidth d.words d.prev v = words := by
  have hfull := hsuits.full
  obtain ⟨rfl, rfl⟩ | ⟨q, b, -, hb, rfl, hprev⟩ := h
  · rfl
  · rw [List.length_append, List.length_singleton] at hlen
    obtain ⟨tail, rfl⟩ := List.head?_eq_some_iff.mp hb
    rw [hprev, LzwStream.extend, if_pos (by omega)]
    rfl

/-- The decoder accepts the code of a run and has the coder's words then. -/
theorem InStep.accept (hsuits : Suits clear maxWidth limit) (hwords : Expands clear words dict)
    (h : InStep d words v)
    (hlen : dict.length < limit) (hv : LzwStream.lookup id clear words pre = some v) :
    d.accept clear maxWidth (LzwParse.width clear dict.length, pre) =
      some (v, ⟨words, some v⟩) := by
  rw [← hwords.length] at hlen
  have hbounds := lookup_bounds hv
  have hlt := lt_two_pow_width clear words.length
  rw [Decoder.accept, ← hwords.length, h.width hsuits hlen]
  simp only
  rw [if_neg (by omega), if_neg (by omega), h.word hv, Option.map_some, h.extend hsuits hlen]

/-- A decoder accepts all codes in step with the coder, and they spell the input. -/
theorem acceptAll_codes (hsuits : Suits clear maxWidth limit) (hwide : 0 < maxWidth)
    (hwords : Expands clear words dict)
    (h : InStep d words v) (hlen : dict.length < limit)
    (hv : LzwStream.lookup id clear words pre = some v)
    (hxs : ∀ x ∈ xs, x < clear) :
    d.acceptAll clear maxWidth (codes clear limit dict pre xs) = some (v ++ xs) := by
  induction xs generalizing dict pre words v d with
  | nil =>
    rw [codes, Decoder.acceptAll, h.accept hsuits hwords hlen hv]
    rfl
  | cons x xs ih =>
    have hx : LzwStream.lookup id clear [] x = some [x] := if_pos (hxs x List.mem_cons_self)
    have hxs' : ∀ y ∈ xs, y < clear := fun y hy => hxs y (List.mem_cons_of_mem x hy)
    have haccept := h.accept hsuits hwords hlen hv
    rw [codes]
    split
    case isTrue hmem =>
      -- the run goes on with the same first symbol
      have hon : InStep d words (v ++ [x]) := by
        obtain hfresh | ⟨q, b, hq, hb, hlast, hprev⟩ := h
        · exact .inl hfresh
        · exact .inr ⟨q, b, hq, by rw [List.head?_append, hb]; rfl, hlast, hprev⟩
      rw [ih hwords hon hlen (hwords.lookup_pair hmem hv) hxs', List.append_assoc,
        List.singleton_append]
    case isFalse hnew =>
      split
      case isTrue hfull =>
        have hclear : (⟨words, some v⟩ : Decoder).accept clear maxWidth
            (LzwParse.width clear dict.length, clear) =
            some ([], ⟨[], none⟩) := by
          apply accept_clear
          · rw [hwords.length, width_full hsuits hfull hwide]
          · have hlt := lt_two_pow_width clear dict.length
            omega
        have hrest := ih .nil (.inl ⟨rfl, rfl⟩) (by rw [List.length_nil]; omega) hx hxs'
        rw [Decoder.acceptAll, haccept, Option.bind_some, Decoder.acceptAll, hclear,
          Option.bind_some, hrest]
        rfl
      case isFalse hroom =>
        have hstep : InStep ⟨words, some v⟩ (words ++ [v ++ [x]]) [x] :=
          .inr ⟨v, x, h.ne_nil hv, rfl, rfl, rfl⟩
        have hlast : LzwStream.lookup id clear (words ++ [v ++ [x]]) x = some [x] :=
          if_pos (hxs x List.mem_cons_self)
        have hrest := ih (hwords.extend hv x) hstep
          (by rw [List.length_append, List.length_singleton]; omega) hlast hxs'
        rw [Decoder.acceptAll, haccept, Option.bind_some, hrest]
        rfl

end LzwRuns
