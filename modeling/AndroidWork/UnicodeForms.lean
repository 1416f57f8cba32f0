import Mathlib.Tactic

/-!
# UTF-16 and UTF-8

The code units and the bytes of a text, and how their numbers compare: the
bytes are never fewer than the units, and as many only for ASCII.
-/
namespace UnicodeForms

abbrev Unit16 := BitVec 16
abbrev Byte := BitVec 8

/-- UTF-16: one unit, or a surrogate pair above the basic plane. -/
def units (c : Char) : List Unit16 :=
  if c.toNat < 0x10000 then [BitVec.ofNat 16 c.toNat]
  else [BitVec.ofNat 16 (0xd800 + (c.toNat - 0x10000) / 0x400),
    BitVec.ofNat 16 (0xdc00 + (c.toNat - 0x10000) % 0x400)]

def bytes (c : Char) : List Byte := (String.utf8EncodeChar c).map UInt8.toBitVec

def utf16 (cs : List Char) : List Unit16 := cs.flatMap units
def utf8 (cs : List Char) : List Byte := cs.flatMap bytes

theorem bytes_length (c : Char) : (bytes c).length = c.utf8Size := by
  rw [bytes, List.length_map, String.length_utf8EncodeChar]

theorem utf8Size_eq (c : Char) : c.utf8Size =
    if c.toNat ≤ 0x7f then 1 else if c.toNat ≤ 0x7ff then
      2 else if c.toNat ≤ 0xffff then 3 else 4 := by
  simp only [Char.utf8Size, Char.toNat, UInt32.le_iff_toNat_le]
  rfl

/-- Two bytes more, or twice as many, but for ASCII. -/
theorem units_length (c : Char) : (units c).length ≤ (bytes c).length ∧
    ((bytes c).length ≤ (units c).length ↔ c.toNat < 0x80) := by
  rw [bytes_length, utf8Size_eq, units]
  by_cases h : c.toNat < 0x10000
  · rw [if_pos h, List.length_singleton]
    split_ifs <;> omega
  · rw [if_neg h]
    simp only [List.length_cons, List.length_nil]
    split_ifs <;> omega

theorem utf16_cons (c : Char) (cs : List Char) : utf16 (c :: cs) = units c ++ utf16 cs := rfl
theorem utf8_cons (c : Char) (cs : List Char) : utf8 (c :: cs) = bytes c ++ utf8 cs := rfl

theorem utf16_length_le (cs : List Char) : (utf16 cs).length ≤ (utf8 cs).length := by
  induction cs with
  | nil => exact le_rfl
  | cons c cs ih =>
    rw [utf16_cons, utf8_cons, List.length_append, List.length_append]
    exact add_le_add (units_length c).1 ih

/-- At most three bytes a unit. -/
theorem bytes_length_le (c : Char) : (bytes c).length ≤ 3 * (units c).length := by
  rw [bytes_length, utf8Size_eq, units]
  by_cases h : c.toNat < 0x10000
  · rw [if_pos h, List.length_singleton]
    split_ifs <;> omega
  · rw [if_neg h]
    simp only [List.length_cons, List.length_nil]
    split_ifs <;> omega

theorem utf8_length_le (cs : List Char) : (utf8 cs).length ≤ 3 * (utf16 cs).length := by
  induction cs with
  | nil => exact le_rfl
  | cons c cs ih =>
    have hc := bytes_length_le c
    rw [utf16_cons, utf8_cons, List.length_append, List.length_append]
    omega

theorem bytes_pos (c : Char) : 0 < (bytes c).length := by
  rw [bytes_length]
  exact c.utf8Size_pos

theorem units_pos (c : Char) : 0 < (units c).length := by
  rw [units]
  split_ifs <;> simp

/-- The characters that bytes decode to as UTF-8. -/
def decodeUtf8 (bs : List Byte) : Option (List Char) :=
  (bs.map UInt8.ofBitVec).toByteArray.utf8Decode?.map Array.toList

theorem decodeUtf8_utf8 (cs : List Char) : decodeUtf8 (utf8 cs) = some cs := by
  have hbytes : (utf8 cs).map UInt8.ofBitVec = cs.flatMap String.utf8EncodeChar := by
    rw [utf8, List.map_flatMap]
    congr 1
    funext c
    simp [bytes, Function.comp_def]
  have hdecode : (cs.flatMap String.utf8EncodeChar).toByteArray.utf8Decode? = some cs.toArray :=
    List.utf8Decode?_utf8Encode
  rw [decodeUtf8, hbytes, hdecode]
  simp

theorem utf8_length_le_iff (cs : List Char) :
    (utf8 cs).length ≤ (utf16 cs).length ↔ ∀ c ∈ cs, c.toNat < 0x80 := by
  induction cs with
  | nil => simp [utf8, utf16]
  | cons c cs ih =>
    obtain ⟨hle, hascii⟩ := units_length c
    have hrest := utf16_length_le cs
    rw [List.forall_mem_cons, ← hascii, ← ih, utf16_cons, utf8_cons, List.length_append,
      List.length_append]
    omega

/-- The character of an ASCII unit. -/
def ascii (u : Unit16) : Char := Char.ofNat u.toNat

theorem ascii_toNat {u : Unit16} (h : u.toNat < 0x80) : (ascii u).toNat = u.toNat := by
  have hvalid : u.toNat.isValidChar := .inl (show u.toNat < 0xd800 by omega)
  rw [ascii, Char.ofNat, dif_pos hvalid]
  rfl

theorem units_ascii {u : Unit16} (h : u.toNat < 0x80) : units (ascii u) = [u] := by
  rw [units, ascii_toNat h, if_pos (by omega), BitVec.ofNat_toNat, BitVec.setWidth_eq]

theorem bytes_of_ascii {c : Char} (h : c.toNat < 0x80) : bytes c = [BitVec.ofNat 8 c.toNat] := by
  rw [bytes, String.utf8EncodeChar]
  rw [if_pos (show c.val.toNat ≤ 0x7f from Nat.le_of_lt_succ h)]
  rfl

theorem utf16_ascii {us : List Unit16} (h : ∀ u ∈ us, u.toNat < 0x80) :
    utf16 (us.map ascii) = us := by
  induction us with
  | nil => rfl
  | cons u us ih =>
    obtain ⟨hu, hus⟩ := List.forall_mem_cons.mp h
    rw [List.map_cons, utf16_cons, ih hus, units_ascii hu, List.singleton_append]

/-- A unit below 0x80 stands for itself only. -/
theorem units_below {c : Char} {u : Unit16} (hu : u ∈ units c) (hc : c.toNat < 0x80) :
    u.toNat < 0x80 := by
  rw [units, if_pos (by omega), List.mem_singleton] at hu
  rw [hu, BitVec.toNat_ofNat]
  omega

end UnicodeForms
