import Mathlib.Tactic

/-!
# Sub-blocks of GIF data

Data comes in blocks, each behind a byte with its length; an empty block ends it.
-/
namespace SubBlocks

/-- The blocks at the front of `bytes` hold `data`, and `rest` follows them. -/
inductive Blocks : List (BitVec 8) → List (BitVec 8) → List (BitVec 8) → Prop where
  | stop (rest : List (BitVec 8)) : Blocks (0 :: rest) [] rest
  | block {bytes data rest : List (BitVec 8)} (size : BitVec 8) {chunk : List (BitVec 8)}
    (hpos : chunk ≠ [])
      (hsize : chunk.length = size.toNat) (h : Blocks bytes data rest) :
      Blocks (size :: (chunk ++ bytes)) (chunk ++ data) rest

/-- The last block of a writer, which may be empty, and the terminator. -/
theorem Blocks.last {chunk : List (BitVec 8)} (h : chunk.length < 256) (tail : List (BitVec 8)) :
    ∃ rest, Blocks (BitVec.ofNat 8 chunk.length :: (chunk ++ 0 :: tail)) chunk (rest ++ tail) ∧
      ∀ b ∈ rest, b = 0 := by
  have hsize : chunk.length = (BitVec.ofNat 8 chunk.length).toNat := by
    rw [BitVec.toNat_ofNat, Nat.mod_eq_of_lt h]
  cases chunk with
  | nil => exact ⟨[0], .stop _, fun b hb => List.mem_singleton.mp hb⟩
  | cons b chunk =>
    refine ⟨[], ?_, fun b hb => by cases hb⟩
    have hblocks := Blocks.block _ (List.cons_ne_nil b chunk) hsize (.stop tail)
    rwa [List.append_nil] at hblocks

/-- Nothing is left of the last block but the second zero byte of an empty one. -/
theorem Blocks.close {chunk : List (BitVec 8)} (h : chunk.length < 256) :
    Blocks (BitVec.ofNat 8 chunk.length :: (chunk ++ [0])) chunk (if chunk.length = 0 then
      [0] else []) := by
  cases chunk with
  | nil => exact .stop [0]
  | cons b chunk =>
    have hsize : (b :: chunk).length = (BitVec.ofNat 8 (b :: chunk).length).toNat := by
      rw [BitVec.toNat_ofNat, Nat.mod_eq_of_lt h]
    have hblocks := Blocks.block _ (List.cons_ne_nil b chunk) hsize (.stop [])
    rwa [List.append_nil] at hblocks

/-- Bytes hold one list of data only. -/
theorem Blocks.unique {bytes data rest data' rest' : List (BitVec 8)} (h : Blocks bytes data rest)
    (h' : Blocks bytes data' rest') : data = data' ∧ rest = rest' := by
  induction h generalizing data' with
  | stop rest =>
    generalize hbytes : 0 :: rest = bytes at h'
    cases h' with
    | stop rest' => exact ⟨rfl, (List.cons.inj hbytes).2⟩
    | block size hpos hsize h' =>
      obtain ⟨rfl, -⟩ := List.cons.inj hbytes
      exact absurd (List.length_eq_zero_iff.mp hsize) hpos
  | @block bytes data rest size chunk hpos hsize h ih =>
    generalize hbytes : size :: (chunk ++ bytes) = all at h'
    cases h' with
    | stop rest' =>
      obtain ⟨rfl, -⟩ := List.cons.inj hbytes
      exact absurd (List.length_eq_zero_iff.mp hsize) hpos
    | block size' hpos' hsize' h' =>
      obtain ⟨rfl, hchunks⟩ := List.cons.inj hbytes
      obtain ⟨rfl, rfl⟩ := List.append_inj hchunks (hsize.trans hsize'.symm)
      obtain ⟨rfl, hrest⟩ := ih h'
      exact ⟨rfl, hrest⟩

end SubBlocks
