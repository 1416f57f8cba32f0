import AndroidWork.BitPacking

/-!
# The phrases and codes of an LZW coder

The coder cuts its input into phrases, each the longest known word that comes
next. A phrase and the symbol after it become a new word; after `limit` phrases
all new words are forgotten.
-/
namespace LzwParse

open BitPacking (size)

variable {α : Type}

/-- A word is a symbol below `clear`, or it is in the dictionary. -/
def Known (clear : Nat) (sym : α → Nat) (dict : List (List α)) (p : List α) : Prop :=
  (∃ a, p = [a] ∧ sym a < clear) ∨ p ∈ dict

/-- Words of the dictionary add a symbol to a word that is known. -/
def Closed (clear : Nat) (sym : α → Nat) (dict : List (List α)) : Prop :=
  ∀ w ∈ dict, ∃ p a, w = p ++ [a] ∧ p ≠ [] ∧ Known clear sym dict p

variable {clear limit : Nat} {sym : α → Nat} {dict : List (List α)} {p : List α}

theorem Known.ne_nil (hc : Closed clear sym dict) (h : Known clear sym dict p) : p ≠ [] := by
  rcases h with ⟨a, rfl, -⟩ | h
  · exact List.cons_ne_nil _ _
  · obtain ⟨q, a, rfl, -, -⟩ := hc p h
    exact List.append_ne_nil_of_right_ne_nil _ (List.cons_ne_nil _ _)

theorem Known.mono (h : Known clear sym dict p) (w : List α) : Known clear sym (dict ++ [w]) p := by
  rcases h with h | h
  · exact .inl h
  · exact .inr (List.mem_append_left _ h)

theorem Closed.nil : Closed clear sym ([] : List (List α)) := by
  intro w hw
  cases hw

theorem Closed.extend (hc : Closed clear sym dict) (hp : Known clear sym dict p) (x : α) :
    Closed clear sym (dict ++ [p ++ [x]]) := by
  intro w hw
  rcases List.mem_append.mp hw with hw | hw
  · obtain ⟨q, a, hq, hne, hk⟩ := hc w hw
    exact ⟨q, a, hq, hne, hk.mono _⟩
  · exact ⟨p, x, List.mem_singleton.mp hw, hp.ne_nil hc, hp.mono _⟩

/-- What comes before the last symbol of a word is known. -/
theorem Closed.known_init (hc : Closed clear sym dict) {x : α} (h : p ++ [x] ∈ dict) :
    p ≠ [] ∧ Known clear sym dict p := by
  obtain ⟨q, a, heq, hne, hk⟩ := hc _ h
  obtain ⟨rfl, -⟩ := List.append_inj' heq rfl
  exact ⟨hne, hk⟩

theorem Closed.two_le_length (hc : Closed clear sym dict) (h : p ∈ dict) : 2 ≤ p.length := by
  obtain ⟨q, a, rfl, hne, -⟩ := hc p h
  have := List.length_pos_iff.mpr hne
  rw [List.length_append, List.length_singleton]
  omega

/-- The width that the codes have while the dictionary holds `n` words. -/
def width (clear n : Nat) : Nat := Nat.log2 (clear + 1 + n) + 1

/-- The bits of the codes when `n` phrases follow the next one. -/
def sizeFrom (clear limit : Nat) : Nat → Nat → Nat
  | d, 0 => 2 * width clear d
  | d, n + 1 =>
    if d + 1 = limit then 2 * width clear d + sizeFrom clear limit 0 n
    else width clear d + sizeFrom clear limit (d + 1) n

/-- The widths of `n` codes, from a dictionary of `d` words on. -/
def widths (clear d : Nat) : Nat → Nat
  | 0 => 0
  | n + 1 => width clear d + widths clear (d + 1) n

/-- One time round: all widths, and the clear code. -/
theorem sizeFrom_round (clear n : Nat) (c : Nat) {d : Nat} (h : d + (c + 1) = limit) :
    sizeFrom clear limit d (c + 1 + n) = widths clear d (c + 1) + width clear (limit - 1) +
      sizeFrom clear limit 0 n := by
  induction c generalizing d with
  | zero =>
    have hlast : limit - 1 = d := by omega
    rw [show 0 + 1 + n = n + 1 by omega, sizeFrom, if_pos (by omega), hlast]
    simp only [widths]
    omega
  | succ c ih =>
    rw [show c + 1 + 1 + n = (c + 1 + n) + 1 by omega, sizeFrom, if_neg (by omega), ih (by omega)]
    rw [widths.eq_2 clear d (c + 1)]
    omega

theorem sizeFrom_rounds (clear : Nat) {limit : Nat} (hpos : 0 < limit) (j d : Nat) :
    sizeFrom clear limit 0 (limit * j + d) =
      j * (widths clear 0 limit + width clear (limit - 1)) + sizeFrom clear limit 0 d := by
  obtain ⟨c, rfl⟩ : ∃ c, limit = c + 1 := ⟨limit - 1, by omega⟩
  induction j with
  | zero => simp
  | succ j ih =>
    rw [show (c + 1) * (j + 1) + d = c + 1 + ((c + 1) * j + d) by
      ring, sizeFrom_round clear _ c (Nat.zero_add _), ih]
    ring

variable [DecidableEq α]

/-- The phrases of `p ++ xs`, when `p` is known and may go on. -/
def phrases (limit : Nat) : List (List α) → List α → List α → List (List α)
  | _, p, [] => [p]
  | dict, p, x :: xs =>
    if p ++ [x] ∈ dict then phrases limit dict (p ++ [x]) xs
    else if dict.length + 1 = limit then p :: phrases limit [] [x] xs
    else p :: phrases limit (dict ++ [p ++ [x]]) [x] xs

/-- A symbol is its own code; the words of the dictionary come after the two
control codes. -/
def codeOf (clear : Nat) (sym : α → Nat) (dict : List (List α)) (p : List α) : Nat :=
  match p with
  | [a] => sym a
  | p => clear + 2 + dict.idxOf p

/-- The codes of the phrases and of the end, with their widths. -/
def codes (clear limit : Nat) (sym : α → Nat) : List (List α) → List α → List α → List (Nat × Nat)
  | dict, p, [] =>
    [(width clear dict.length, codeOf clear sym dict p), (width clear dict.length, clear + 1)]
  | dict, p, x :: xs =>
    if p ++ [x] ∈ dict then codes clear limit sym dict (p ++ [x]) xs
    else if dict.length + 1 = limit then
      (width clear dict.length, codeOf clear sym dict p) :: (width clear dict.length, clear) ::
        codes clear limit sym [] [x] xs
    else
      (width clear dict.length, codeOf clear sym dict p) ::
        codes clear limit sym (dict ++ [p ++ [x]]) [x] xs

/-- How many words the dictionary holds at the end. -/
def finalLength (limit : Nat) : List (List α) → List α → List α → Nat
  | dict, _, [] => dict.length
  | dict, p, x :: xs =>
    if p ++ [x] ∈ dict then finalLength limit dict (p ++ [x]) xs
    else if dict.length + 1 = limit then finalLength limit [] [x] xs
    else finalLength limit (dict ++ [p ++ [x]]) [x] xs

theorem codeOf_single (a : α) : codeOf clear sym dict [a] = sym a := rfl

theorem codeOf_word (h : 2 ≤ p.length) : codeOf clear sym dict p = clear + 2 + dict.idxOf p := by
  match p, h with
  | a :: b :: p, h => rfl

theorem codeOf_mem (hc : Closed clear sym dict) (h : p ∈ dict) :
    clear + 2 ≤ codeOf clear sym dict p ∧ codeOf clear sym dict p < clear + 2 + dict.length := by
  rw [codeOf_word (hc.two_le_length h)]
  have := List.idxOf_lt_length_iff.mpr h
  omega

/-- Codes of known words stay when the dictionary grows. -/
theorem codeOf_extend (hc : Closed clear sym dict) (h : Known clear sym dict p) (w : List α) :
    codeOf clear sym (dict ++ [w]) p = codeOf clear sym dict p := by
  rcases h with ⟨a, rfl, -⟩ | h
  · rfl
  · have hlen := hc.two_le_length h
    rw [codeOf_word hlen, codeOf_word hlen, List.idxOf_append_of_mem h]

theorem codeOf_new (h : 2 ≤ p.length) (hp : p ∉ dict) :
    codeOf clear sym (dict ++ [p]) p = clear + 2 + dict.length := by
  rw [codeOf_word h, List.idxOf_append_of_notMem hp, List.idxOf_cons_self]
  rfl

/-- Known words have different codes. -/
theorem codeOf_inj (hsym : Function.Injective sym) (hc : Closed clear sym dict) {q : List α}
    (hp : Known clear sym dict p) (hq : Known clear sym dict q)
    (h : codeOf clear sym dict p = codeOf clear sym dict q) : p = q := by
  rcases hp with ⟨a, rfl, ha⟩ | hp
  · rcases hq with ⟨b, rfl, -⟩ | hq
    · rw [codeOf_single, codeOf_single] at h
      rw [hsym h]
    · have := codeOf_mem hc hq
      rw [codeOf_single] at h
      omega
  · rcases hq with ⟨b, rfl, hb⟩ | hq
    · have := codeOf_mem hc hp
      rw [codeOf_single] at h
      omega
    · rw [codeOf_word (hc.two_le_length hp), codeOf_word (hc.two_le_length hq)] at h
      exact (List.idxOf_inj hp).mp (by omega)

theorem phrases_flatten (limit : Nat) (dict : List (List α)) (p xs : List α) :
    (phrases limit dict p xs).flatten = p ++ xs := by
  induction xs generalizing dict p with
  | nil => simp [phrases]
  | cons x xs ih =>
    rw [phrases]
    split
    · rw [ih, List.append_assoc, List.singleton_append]
    · split <;> simp [ih]

theorem phrases_ne_nil (limit : Nat) (dict : List (List α)) (p xs : List α) :
    phrases limit dict p xs ≠ [] := by
  induction xs generalizing dict p with
  | nil => exact List.cons_ne_nil _ _
  | cons x xs ih =>
    rw [phrases]
    split
    · exact ih _ _
    · split <;> exact List.cons_ne_nil _ _

/-- The last code and the end have the last width. -/
theorem le_size_codes (clear limit : Nat) (sym : α → Nat) (dict : List (List α)) (p xs : List α) :
    2 * width clear (finalLength limit dict p xs) ≤ size (codes clear limit sym dict p xs) := by
  induction xs generalizing dict p with
  | nil =>
    simp only [codes, finalLength, size]
    omega
  | cons x xs ih =>
    rw [codes, finalLength]
    split
    · exact ih _ _
    · split
      · have := ih [] [x]
        simp only [size]
        omega
      · have := ih (dict ++ [p ++ [x]]) [x]
        simp only [size]
        omega

theorem size_codes (clear : Nat) (sym : α → Nat) (xs : List α) {n : Nat}
    (hn : (phrases limit dict p xs).length = n + 1) :
    size (codes clear limit sym dict p xs) = sizeFrom clear limit dict.length n := by
  induction xs generalizing dict p n with
  | nil =>
    obtain rfl : n = 0 := by simpa [phrases] using hn.symm
    simp only [codes, size, sizeFrom]
    omega
  | cons x xs ih =>
    rw [phrases] at hn
    rw [codes]
    split at hn
    · rename_i hmem
      rw [if_pos hmem]
      exact ih hn
    · rename_i hmem
      rw [if_neg hmem]
      split at hn
      · rename_i hfull
        obtain ⟨n, rfl⟩ : ∃ n', n = n' + 1 :=
          ⟨n - 1, by
            have := List.length_pos_iff.mpr (phrases_ne_nil limit [] [x] xs)
            rw [List.length_cons] at hn; omega⟩
        rw [if_pos hfull, sizeFrom, if_pos hfull]
        simp only [size]
        rw [ih (Nat.succ_injective hn), List.length_nil]
        omega
      · rename_i hfull
        obtain ⟨n, rfl⟩ : ∃ n', n = n' + 1 :=
          ⟨n - 1, by
            have := List.length_pos_iff.mpr (phrases_ne_nil limit (dict ++ [p ++ [x]]) [x] xs)
            rw [List.length_cons] at hn
            omega⟩
        rw [if_neg hfull, sizeFrom, if_neg hfull]
        simp only [size]
        rw [ih (Nat.succ_injective hn), List.length_append, List.length_singleton]

theorem finalLength_eq (xs : List α) (hlt : dict.length < limit) {n : Nat}
    (hn : (phrases limit dict p xs).length = n + 1) :
    finalLength limit dict p xs = (dict.length + n) % limit := by
  induction xs generalizing dict p n with
  | nil =>
    obtain rfl : n = 0 := by simpa [phrases] using hn.symm
    rw [finalLength, Nat.add_zero, Nat.mod_eq_of_lt hlt]
  | cons x xs ih =>
    rw [phrases] at hn
    rw [finalLength]
    split at hn
    · rename_i hmem
      rw [if_pos hmem]
      exact ih hlt hn
    · rename_i hmem
      rw [if_neg hmem]
      split at hn
      · rename_i hfull
        obtain ⟨n, rfl⟩ : ∃ n', n = n' + 1 :=
          ⟨n - 1, by
            have := List.length_pos_iff.mpr (phrases_ne_nil limit [] [x] xs)
            rw [List.length_cons] at hn; omega⟩
        rw [if_pos hfull, ih (by rw [List.length_nil]; omega) (Nat.succ_injective hn),
          List.length_nil, Nat.zero_add,
          show dict.length + (n + 1) = limit + n by omega, Nat.add_mod_left]
      · rename_i hfull
        obtain ⟨n, rfl⟩ : ∃ n', n = n' + 1 :=
          ⟨n - 1, by
            have := List.length_pos_iff.mpr (phrases_ne_nil limit (dict ++ [p ++ [x]]) [x] xs)
            rw [List.length_cons] at hn
            omega⟩
        have hlen : (dict ++ [p ++ [x]]).length = dict.length + 1 := List.length_append
        rw [if_neg hfull, ih (by omega) (Nat.succ_injective hn), hlen]
        congr 1
        omega

end LzwParse
