import AndroidWork.ArmMachine

/-!
# Stretches of memory

Lists of bytes that are read from memory and written to it, and the halfwords
and words that they are.
-/
namespace ArmMachine

/-- Address `b` is one of the `n` from `a` on. -/
def Inside (a : Word) (n : Nat) (b : Word) : Prop := (b - a).toNat < n

instance (a : Word) (n : Nat) (b : Word) : Decidable (Inside a n b) :=
  inferInstanceAs (Decidable (_ < _))

def bytesAt (m : Memory) : Word → Nat → List Byte
  | _, 0 => []
  | a, n + 1 => m a :: bytesAt m (a + 1) n

def put (m : Memory) (a : Word) (bs : List Byte) : Memory :=
  fun b => (bs[(b - a).toNat]?).getD (m b)

section Bytes

variable {m m' : Memory} {a b : Word} {n : Nat} {bs : List Byte}

@[simp] theorem length_bytesAt (m : Memory) (a : Word) (n : Nat) : (bytesAt m a n).length = n := by
  induction n generalizing a with
  | zero => rfl
  | succ n ih => rw [bytesAt, List.length_cons, ih]

theorem getElem?_bytesAt (m : Memory) (a : Word) {i : Nat} (h : i < n) :
    (bytesAt m a n)[i]? = some (m (a + BitVec.ofNat 32 i)) := by
  induction n generalizing a i with
  | zero => omega
  | succ n ih =>
    cases i with
    | zero => exact congrArg (fun b => some (m b)) (BitVec.add_zero a).symm
    | succ i =>
      rw [bytesAt, List.getElem?_cons_succ, ih (a + 1) (by omega), BitVec.add_assoc,
        BitVec.add_comm 1, BitVec.ofNat_add]
      rfl

theorem add_ofNat_sub (a b : Word) : a + BitVec.ofNat 32 (b - a).toNat = b := by
  rw [BitVec.ofNat_toNat, BitVec.setWidth_eq, BitVec.add_comm, BitVec.sub_add_cancel]

theorem toNat_add_ofNat_sub (a : Word) {i : Nat} (h : i < 2 ^ 32) :
    (a + BitVec.ofNat 32 i - a).toNat = i := by
  rw [BitVec.add_comm, BitVec.add_sub_cancel, BitVec.toNat_ofNat, Nat.mod_eq_of_lt h]

theorem put_outside (m : Memory) (h : ¬ Inside a bs.length b) : put m a bs b = m b := by
  rw [put, List.getElem?_eq_none (Nat.le_of_not_lt h), Option.getD_none]

theorem put_inside (m m' : Memory) (h : Inside a bs.length b) : put m a bs b = put m' a bs b := by
  rw [put, put, List.getElem?_eq_getElem h, Option.getD_some, Option.getD_some]

theorem bytesAt_congr (hn : n ≤ 2 ^ 32) (h : ∀ b, Inside a n b → m' b = m b) :
    bytesAt m' a n = bytesAt m a n := by
  apply List.ext_getElem?
  intro i
  by_cases hi : i < n
  · rw [getElem?_bytesAt _ _ hi, getElem?_bytesAt _ _ hi, h]
    rwa [Inside, toNat_add_ofNat_sub a (by omega)]
  · rw [List.getElem?_eq_none (by simpa using hi), List.getElem?_eq_none (by simpa using hi)]

theorem bytesAt_put (m : Memory) (a : Word) (h : bs.length ≤ 2 ^ 32) :
    bytesAt (put m a bs) a bs.length = bs := by
  apply List.ext_getElem?
  intro i
  by_cases hi : i < bs.length
  · rw [getElem?_bytesAt _ _ hi, put, toNat_add_ofNat_sub a (by omega),
      List.getElem?_eq_getElem hi, Option.getD_some]
  · rw [List.getElem?_eq_none (by simpa using hi), List.getElem?_eq_none (by simpa using hi)]

theorem put_bytesAt (m : Memory) (a : Word) (n : Nat) : put m a (bytesAt m a n) = m := by
  funext b
  by_cases h : (b - a).toNat < n
  · rw [put, getElem?_bytesAt _ _ h, Option.getD_some, add_ofNat_sub]
  · exact put_outside m (by rwa [length_bytesAt])

theorem Inside.mono {n' : Nat} (h : Inside a n b) (hn : n ≤ n') : Inside a n' b :=
  Nat.lt_of_lt_of_le h hn

end Bytes

def halfBytes (h : Half) : List Byte := [h.truncate 8, (h >>> 8).truncate 8]
def wordBytes (w : Word) : List Byte :=
  halfBytes (w.truncate 16) ++ halfBytes ((w >>> 16).truncate 16)

def halves : List Byte → List Half
  | b₀ :: b₁ :: bs => (b₁ ++ b₀) :: halves bs
  | _ => []

def words : List Byte → List Word
  | b₀ :: b₁ :: b₂ :: b₃ :: bs => ((b₃ ++ b₂ : Half) ++ (b₁ ++ b₀ : Half)) :: words bs
  | _ => []

section Items

variable {m : Memory} {a : Word}

theorem bytes_of_half (h : Half) : (h >>> 8).truncate 8 ++ h.truncate 8 = h := by
  apply BitVec.eq_of_getLsbD_eq
  intro i hi
  rw [BitVec.getLsbD_append, BitVec.truncate_eq_setWidth, BitVec.truncate_eq_setWidth,
    BitVec.getLsbD_setWidth,
    BitVec.getLsbD_setWidth, BitVec.getLsbD_ushiftRight]
  by_cases h8 : i < 8
  · simp [h8]
  · simp [h8, show i - 8 < 8 by omega, show 8 + (i - 8) = i by omega]

theorem halves_of_word (w : Word) : (w >>> 16).truncate 16 ++ w.truncate 16 = w := by
  apply BitVec.eq_of_getLsbD_eq
  intro i hi
  rw [BitVec.getLsbD_append, BitVec.truncate_eq_setWidth, BitVec.truncate_eq_setWidth,
    BitVec.getLsbD_setWidth,
    BitVec.getLsbD_setWidth, BitVec.getLsbD_ushiftRight]
  by_cases h16 : i < 16
  · simp [h16]
  · simp [h16, show i - 16 < 16 by omega, show 16 + (i - 16) = i by omega]

theorem length_halfBytes (hs : List Half) : (hs.flatMap halfBytes).length = 2 * hs.length := by
  induction hs with
  | nil => rfl
  | cons h hs ih =>
    rw [List.flatMap_cons, List.length_append, ih, List.length_cons, Nat.mul_succ, Nat.add_comm]
    rfl

theorem length_wordBytes (ws : List Word) : (ws.flatMap wordBytes).length = 4 * ws.length := by
  induction ws with
  | nil => rfl
  | cons w ws ih =>
    rw [List.flatMap_cons, List.length_append, ih, List.length_cons, Nat.mul_succ, Nat.add_comm]
    rfl

theorem stored_of_halfBytes {hs : List Half}
    (h : bytesAt m a (2 * hs.length) = hs.flatMap halfBytes) :
    Stored (half m) 2 a hs := by
  induction hs generalizing a with
  | nil => trivial
  | cons x hs ih =>
    rw [List.length_cons, Nat.mul_succ, List.flatMap_cons, halfBytes, bytesAt, bytesAt] at h
    simp only [List.cons_append, List.nil_append, List.cons.injEq] at h
    obtain ⟨h₀, h₁, hrest⟩ := h
    refine ⟨?_, ih ?_⟩
    · rw [half, h₁, h₀, bytes_of_half]
    · rwa [show a + 2 = a + 1 + 1 by bv_omega]

theorem stored_of_wordBytes {ws : List Word}
    (h : bytesAt m a (4 * ws.length) = ws.flatMap wordBytes) :
    Stored (word m) 4 a ws := by
  induction ws generalizing a with
  | nil => trivial
  | cons w ws ih =>
    rw [List.length_cons, Nat.mul_succ, List.flatMap_cons, wordBytes, halfBytes, halfBytes, bytesAt,
      bytesAt, bytesAt, bytesAt] at h
    simp only [List.cons_append, List.nil_append, List.cons.injEq] at h
    obtain ⟨h₀, h₁, h₂, h₃, hrest⟩ := h
    refine ⟨?_, ih ?_⟩
    · rw [word, half, half, h₁, h₀, show a + 2 =
        a + 1 + 1 by bv_omega, h₂, h₃, bytes_of_half, bytes_of_half, halves_of_word]
    · rwa [show a + 4 = a + 1 + 1 + 1 + 1 by bv_omega]

theorem word_congr {m' : Memory} (h : ∀ b, Inside a 4 b → m' b = m b) : word m' a = word m a := by
  have hbyte (k : Word) (hk : k < 4) : m' (a + k) = m (a + k) := h _ (by rw [Inside]; bv_omega)
  have hzero : m' a = m a := h _ (by rw [Inside]; bv_omega)
  have hthree : m' (a + 2 + 1) = m (a + 2 + 1) := h _ (by rw [Inside]; bv_omega)
  rw [word, word, half, half, half, half, hzero, hthree, hbyte 1 (by decide), hbyte 2 (by decide)]

end Items

end ArmMachine
