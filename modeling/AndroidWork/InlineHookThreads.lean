import AndroidWork.InlineHookCode

/-!
# The boundaries of an inline hook

What the pairs in `orig_boundaries` and `trampoline_boundaries` are, how many
there are, and where they take the other threads. A slot that was used before
keeps its old pairs in front of the new ones.
-/
namespace InlineHook

open ArmMachine (Byte Half Word Memory put bytesAt halves words)
open Relocate

section Pairs

variable {load : Word → Word}

/-- Pairs that grow in both components, from `q` on. -/
def Growing (q : Nat × Nat) (l : List (Nat × Nat)) : Prop :=
  (∀ r ∈ l, q.1 ≤ r.1 ∧ q.2 ≤ r.2) ∧ l.Pairwise fun r s => r.1 < s.1 ∧ r.2 < s.2

theorem Growing.nil (q : Nat × Nat) : Growing q [] := ⟨fun _ hr => absurd hr List.not_mem_nil, .nil⟩

theorem Growing.cons {q r : Nat × Nat} {l : List (Nat × Nat)} (h : q.1 < r.1) (h' : q.2 < r.2)
    (hl : Growing r l) :
    Growing q (q :: l) := by
  obtain ⟨hle, hpairs⟩ := hl
  constructor
  · intro s hs
    obtain rfl | hs := List.mem_cons.mp hs
    · exact ⟨Nat.le_refl _, Nat.le_refl _⟩
    · have := hle s hs
      omega
  · refine List.pairwise_cons.mpr ⟨fun s hs => ?_, hpairs⟩
    have := hle s hs
    omega

variable (load) in
theorem relocateInArm_pos (p w : Word) : 0 < (relocateInArm load p w).length := by
  simp only [relocateInArm]
  split_ifs <;> simp

theorem relocateInstructionInThumb16_pos (p : Word) (h : Half) :
    0 < (relocateInstructionInThumb16 load p h).length := by
  simp only [relocateInstructionInThumb16]
  split_ifs <;> simp

theorem relocateInstructionInThumb32_pos (p : Word) (h l : Half) :
    0 < (relocateInstructionInThumb32 load p h l).length := by
  simp only [relocateInstructionInThumb32]
  split_ifs <;> simp

theorem growing_arm (p : Word) (o b : Nat) (ws : List Word) :
    Growing (o * 4, b * 4) (relocateInArmLoop load p o b ws).boundaries := by
  induction ws generalizing p o b with
  | nil => exact Growing.nil _
  | cons w ws ih =>
    have hpos := relocateInArm_pos load p w
    refine Growing.cons ?_ ?_ (ih (p + 4) (o + 1) (b + (relocateInArm load p w).length))
    · change o * 4 < (o + 1) * 4
      omega
    · change b * 4 < (b + (relocateInArm load p w).length) * 4
      omega

theorem growing_thumb (p : Word) (o b : Nat) (hs : List Half) :
    Growing (o * 2, b * 2) (relocateInThumbLoop load p o b hs).1.boundaries := by
  fun_induction relocateInThumbLoop load p o b hs with
  | case1 => exact Growing.nil _
  | case2 p o b h hwide =>
    refine Growing.cons (r := (o * 2 + 1, b * 2 + 1)) ?_ ?_ (Growing.nil _)
    · exact Nat.lt_succ_self (o * 2)
    · exact Nat.lt_succ_self (b * 2)
  | case3 p o b h hnarrow =>
    refine Growing.cons (r := (o * 2 + 1, b * 2 + 1)) ?_ ?_ (Growing.nil _)
    · exact Nat.lt_succ_self (o * 2)
    · exact Nat.lt_succ_self (b * 2)
  | case4 p o b h l rest hwide chunk r ih =>
    have hpos : 0 < chunk.length := relocateInstructionInThumb32_pos p h l
    refine Growing.cons ?_ ?_ ih
    · change o * 2 < (o + 2) * 2
      omega
    · change b * 2 < (b + chunk.length) * 2
      omega
  | case5 p o b h l rest hnarrow chunk r ih =>
    have hpos : 0 < chunk.length := relocateInstructionInThumb16_pos p h
    refine Growing.cons ?_ ?_ ih
    · change o * 2 < (o + 1) * 2
      omega
    · change b * 2 < (b + chunk.length) * 2
      omega

theorem arm_pair_le (p : Word) (o b : Nat) (ws : List Word) :
    ∀ r ∈ (relocateInArmLoop load p o b ws).boundaries, r.1 ≤ (o + ws.length) * 4 ∧
      r.2 ≤ (b + 6 * ws.length) * 4 := by
  induction ws generalizing p o b with
  | nil => exact fun r hr => absurd hr List.not_mem_nil
  | cons w ws ih =>
    intro r hr
    have hle := relocateInArm_length load p w
    rw [List.length_cons]
    obtain rfl | hr := List.mem_cons.mp hr
    · omega
    · have := ih (p + 4) (o + 1) (b + (relocateInArm load p w).length) r hr
      omega

theorem thumb_pair_le (p : Word) (o b : Nat) (hs : List Half) :
    ∀ r ∈ (relocateInThumbLoop load p o b hs).1.boundaries, r.1 ≤ (o + hs.length) * 2 ∧
      r.2 ≤ (b + 14 * hs.length) * 2 := by
  fun_induction relocateInThumbLoop load p o b hs with
  | case1 => exact fun r hr => absurd hr List.not_mem_nil
  | case2 p o b h hwide =>
    intro r hr
    rw [List.mem_singleton.mp hr, List.length_singleton]
    omega
  | case3 p o b h hnarrow =>
    intro r hr
    rw [List.mem_singleton.mp hr, List.length_singleton]
    omega
  | case4 p o b h l rest hwide chunk rest' ih =>
    intro r hr
    have hle : chunk.length ≤ 14 := relocateInstructionInThumb32_length load p h l
    rw [List.length_cons, List.length_cons]
    obtain rfl | hr := List.mem_cons.mp hr
    · omega
    · have := ih r hr
      omega
  | case5 p o b h l rest hnarrow chunk rest' ih =>
    intro r hr
    have hle : chunk.length ≤ 14 := relocateInstructionInThumb16_length load p h
    rw [List.length_cons]
    obtain rfl | hr := List.mem_cons.mp hr
    · omega
    · have := ih r hr
      omega

theorem length_words {n : Nat} {bs : List Byte} (h : bs.length = 4 * n) :
    (words bs).length = n := by
  induction n generalizing bs with
  | zero => rw [List.eq_nil_of_length_eq_zero h, words, List.length_nil]; simp
  | succ n ih =>
    obtain ⟨b₀, bs, rfl⟩ := List.exists_cons_of_length_pos (l := bs) (by omega)
    obtain ⟨b₁, bs, rfl⟩ := List.exists_cons_of_length_pos (l := bs)
      (by simp only [List.length_cons] at h; omega)
    obtain ⟨b₂, bs, rfl⟩ := List.exists_cons_of_length_pos (l := bs)
      (by simp only [List.length_cons] at h; omega)
    obtain ⟨b₃, bs, rfl⟩ := List.exists_cons_of_length_pos (l := bs)
      (by simp only [List.length_cons] at h; omega)
    rw [words, List.length_cons, ih]
    simp only [List.length_cons] at h
    omega

theorem length_halves {n : Nat} {bs : List Byte} (h : bs.length = 2 * n) :
    (halves bs).length = n := by
  induction n generalizing bs with
  | zero => rw [List.eq_nil_of_length_eq_zero h, halves, List.length_nil]; simp
  | succ n ih =>
    obtain ⟨b₀, bs, rfl⟩ := List.exists_cons_of_length_pos (l := bs) (by omega)
    obtain ⟨b₁, bs, rfl⟩ := List.exists_cons_of_length_pos (l := bs)
      (by simp only [List.length_cons] at h; omega)
    rw [halves, List.length_cons, ih]
    simp only [List.length_cons] at h
    omega

theorem arm_pairs (p : Word) (o b : Nat) (ws : List Word) :
    (relocateInArmLoop load p o b ws).boundaries.length = ws.length := by
  induction ws generalizing p o b with
  | nil => rfl
  | cons w ws ih =>
    rw [relocateInArmLoop, List.length_cons, List.length_cons, ih]

/-- The instructions of two halfwords that are whole. -/
def wide (hs : List Half) : Nat := (ThumbTrampoline.codes hs).countP fun i => i.size = 4

variable (load) in
theorem thumb_pairs (p : Word) (o b : Nat) (hs : List Half) :
    (relocateInThumbLoop load p o b hs).1.boundaries.length + wide hs = hs.length := by
  fun_induction relocateInThumbLoop load p o b hs with
  | case1 => rfl
  | case2 p o b h hwide =>
    rw [ThumbTrampoline.isWide_eq] at hwide
    rw [wide, ThumbTrampoline.codes, if_pos hwide]
    rfl
  | case3 p o b h hnarrow =>
    rw [ThumbTrampoline.isWide_eq] at hnarrow
    rw [wide, ThumbTrampoline.codes, if_neg hnarrow]
    rfl
  | case4 p o b h l rest hwide chunk rest' ih =>
    rw [ThumbTrampoline.isWide_eq] at hwide
    have hwides : wide (h :: l :: rest) = wide rest + 1 := by
      rw [wide, ThumbTrampoline.codes, if_pos hwide]
      exact List.countP_cons_of_pos (decide_eq_true rfl)
    have hrest : rest'.1.boundaries.length + wide rest = rest.length := ih
    rw [hwides, List.length_cons, List.length_cons, List.length_cons]
    omega
  | case5 p o b h l rest hnarrow chunk rest' ih =>
    rw [ThumbTrampoline.isWide_eq] at hnarrow
    have hwides : wide (h :: l :: rest) = wide (l :: rest) := by
      rw [wide, ThumbTrampoline.codes, if_neg hnarrow]
      exact List.countP_cons_of_neg (by rw [ThumbInstructions.Code.size]; decide)
    have hrest : rest'.1.boundaries.length + wide (l :: rest) = (l :: rest).length := ih
    rw [hwides, List.length_cons, List.length_cons, ← hrest]
    omega

theorem two_wide_le (hs : List Half) : 2 * wide hs ≤ hs.length := by
  induction hs using ThumbTrampoline.codes.induct with
  | case1 => exact Nat.le_refl 0
  | case2 h hwide =>
    rw [wide, ThumbTrampoline.codes, if_pos hwide]
    exact Nat.zero_le 1
  | case3 h hnarrow =>
    rw [wide, ThumbTrampoline.codes, if_neg hnarrow]
    exact Nat.zero_le 1
  | case4 h l rest hwide ih =>
    have hwides : wide (h :: l :: rest) = wide rest + 1 := by
      rw [wide, ThumbTrampoline.codes, if_pos hwide]
      exact List.countP_cons_of_pos (decide_eq_true rfl)
    rw [hwides, List.length_cons, List.length_cons]
    omega
  | case5 h l rest hnarrow ih =>
    have hwides : wide (h :: l :: rest) = wide (l :: rest) := by
      rw [wide, ThumbTrampoline.codes, if_neg hnarrow]
      exact List.countP_cons_of_neg (by rw [ThumbInstructions.Code.size]; decide)
    rw [hwides, List.length_cons]
    exact Nat.le_succ_of_le ih

variable (load) in
/-- The loop ends behind the halfwords, or behind all but the last of them. -/
theorem thumb_end (p : Word) (o b : Nat) (hs : List Half) :
    o + hs.length ≤ (relocateInThumbLoop load p o b hs).2 + 1 ∧
    (relocateInThumbLoop load p o b hs).2 ≤ o + hs.length := by
  fun_induction relocateInThumbLoop load p o b hs with
  | case1 p o b => exact ⟨Nat.le_succ o, Nat.le_refl o⟩
  | case2 p o b h hwide => exact ⟨Nat.le_refl (o + 1), Nat.le_succ o⟩
  | case3 p o b h hnarrow => exact ⟨Nat.le_succ (o + 1), Nat.le_refl (o + 1)⟩
  | case4 p o b h l rest hwide chunk rest' ih =>
    have hrest : o + 2 + rest.length ≤ rest'.2 + 1 ∧ rest'.2 ≤ o + 2 + rest.length := ih
    rw [List.length_cons, List.length_cons]
    change _ ≤ rest'.2 + 1 ∧ rest'.2 ≤ _
    omega
  | case5 p o b h l rest hnarrow chunk rest' ih =>
    have hrest : o + 1 + (l :: rest).length ≤ rest'.2 + 1 ∧ rest'.2 ≤ o + 1 + (l :: rest).length :=
      ih
    rw [List.length_cons]
    change _ ≤ rest'.2 + 1 ∧ rest'.2 ≤ _
    omega

variable (load) in
theorem thumb_whole (p : Word) (o b : Nat) (hs : List Half) :
    (relocateInThumbLoop load p o b hs).2 * 2 =
      o * 2 + ((ThumbTrampoline.codes hs).map fun i => i.size.toNat).sum := by
  fun_induction relocateInThumbLoop load p o b hs with
  | case1 p o b => rfl
  | case2 p o b h hwide =>
    rw [ThumbTrampoline.isWide_eq] at hwide
    rw [ThumbTrampoline.codes, if_pos hwide]
    rfl
  | case3 p o b h hnarrow =>
    rw [ThumbTrampoline.isWide_eq] at hnarrow
    rw [ThumbTrampoline.codes, if_neg hnarrow, Nat.add_mul]
    rfl
  | case4 p o b h l rest hwide chunk rest' ih =>
    rw [ThumbTrampoline.isWide_eq] at hwide
    have hrest : rest'.2 * 2 = (o + 2) * 2 +
        ((ThumbTrampoline.codes rest).map fun i => i.size.toNat).sum := ih
    have hsize : (ThumbInstructions.Code.wide h l).size.toNat = 4 := rfl
    rw [ThumbTrampoline.codes, if_pos hwide, List.map_cons, List.sum_cons, hsize]
    omega
  | case5 p o b h l rest hnarrow chunk rest' ih =>
    rw [ThumbTrampoline.isWide_eq] at hnarrow
    have hrest : rest'.2 * 2 = (o + 1) * 2 +
        ((ThumbTrampoline.codes (l :: rest)).map fun i => i.size.toNat).sum := ih
    have hsize : (ThumbInstructions.Code.narrow h).size.toNat = 2 := rfl
    rw [ThumbTrampoline.codes, if_neg hnarrow, List.map_cons, List.sum_cons, hsize]
    omega

variable (load) in
/-- What is emitted before the jump back ends at a multiple of four. -/
theorem thumb_emitted_length (p : Word) (o b : Nat) (hs : List Half) :
    (relocateInThumbLoop load p o b hs).1.trampoline_instructions.length % 2 = 0 := by
  fun_induction relocateInThumbLoop load p o b hs with
  | case1 => rfl
  | case2 => rfl
  | case3 p o b h hnarrow => exact ThumbRelocation.chunk_length load (.narrow h) p
  | case4 p o b h l rest hwide chunk rest' ih =>
    have hchunk : chunk.length % 2 = 0 := ThumbRelocation.chunk_length load (.wide h l) p
    have hrest : rest'.1.trampoline_instructions.length % 2 = 0 := ih
    rw [List.length_append]
    omega
  | case5 p o b h l rest hnarrow chunk rest' ih =>
    have hchunk : chunk.length % 2 = 0 := ThumbRelocation.chunk_length load (.narrow h) p
    have hrest : rest'.1.trampoline_instructions.length % 2 = 0 := ih
    rw [List.length_append]
    omega

end Pairs

section Own

variable {load : Word → Word} {t : Word} {bs : List Byte}

theorem own_growing (h : bs.length = windowLength t) :
    Growing (0, 0) (relocateInstruction load t bs).2 ∧ ∀ r ∈ (relocateInstruction load t bs).2,
      r.1 < 2 ^ 32 ∧ r.2 < 2 ^ 32 := by
  rw [windowLength] at h
  rw [relocateInstruction]
  split
  · rename_i hbit
    rw [if_pos hbit] at h
    refine ⟨growing_thumb _ 0 0 _, fun r hr => ?_⟩
    have := thumb_pair_le _ 0 0 _ r hr
    rw [length_halves (n := 6) h] at this
    omega
  · rename_i hbit
    rw [if_neg hbit] at h
    refine ⟨growing_arm _ 0 0 _, fun r hr => ?_⟩
    have := arm_pair_le _ 0 0 _ r hr
    rw [length_words (n := 2) h] at this
    omega

theorem own_length (h : bs.length = windowLength t) :
    (relocateInstruction load t bs).2.length = if TEST_BIT0 t then 6 - wide (halves bs) else 2 := by
  rw [windowLength] at h
  rw [relocateInstruction]
  split
  · rename_i hbit
    rw [if_pos hbit] at h
    have hpairs := thumb_pairs load (t - 1 + 4) 0 0 (halves bs)
    rw [length_halves (n := 6) h] at hpairs
    change (relocateInThumbLoop load (t - 1 + 4) 0 0 (halves bs)).1.boundaries.length = _
    omega
  · rename_i hbit
    rw [if_neg hbit] at h
    exact (arm_pairs _ 0 0 _).trans (length_words (n := 2) h)

end Own

section Threads

theorem ofNat_inj {m n : Nat} (hm : m < 2 ^ 32) (hn : n < 2 ^ 32)
    (h : BitVec.ofNat 32 m = BitVec.ofNat 32 n) : m = n := by
  have := congrArg BitVec.toNat h
  rwa [BitVec.toNat_ofNat, BitVec.toNat_ofNat, Nat.mod_eq_of_lt hm, Nat.mod_eq_of_lt hn] at this

theorem Growing.eq_of_fst {q r s : Nat × Nat} {l : List (Nat × Nat)} (h : Growing q l)
    (hr : r ∈ l) (hs : s ∈ l)
    (heq : r.1 = s.1 ∨ r.2 = s.2) : r = s := by
  have hne : l.Pairwise fun r s => r.1 ≠ s.1 ∧ r.2 ≠ s.2 :=
    h.2.imp fun hlt => ⟨Nat.ne_of_lt hlt.1, Nat.ne_of_lt hlt.2⟩
  by_contra hrs
  have hsymm : Std.Symm fun r s : Nat × Nat => r.1 ≠ s.1 ∧ r.2 ≠ s.2 :=
    ⟨fun _ _ hne => ⟨hne.1.symm, hne.2.symm⟩⟩
  have hboth := hne.forall hr hs hrs
  cases heq with
  | inl heq => exact hboth.1 heq
  | inr heq => exact hboth.2 heq

theorem find_iff {f : Nat × Nat → Word} {l : List (Nat × Nat)}
    (hinj : ∀ q ∈ l, ∀ r ∈ l, f q = f r → q = r) (offset : Word)
    (q : Nat × Nat) : l.find? (fun b => offset = f b) = some q ↔ q ∈ l ∧ offset = f q := by
  constructor
  · intro h
    exact ⟨List.mem_of_find?_eq_some h, by simpa using List.find?_some h⟩
  · intro h
    cases hfind : l.find? fun b => offset = f b with
    | none => exact absurd (decide_eq_true h.2) (List.find?_eq_none.mp hfind q h.1)
    | some r =>
      have hr : offset = f r := by simpa using List.find?_some hfind
      rw [hinj r (List.mem_of_find?_eq_some hfind) q h.1 (hr.symm.trans h.2)]

theorem sub_eq_iff (a b c : Word) : a - b = c ↔ a = b + c := by
  constructor
  · intro h
    rw [← h, BitVec.add_comm, BitVec.sub_add_cancel]
  · intro h
    rw [h, BitVec.add_comm, BitVec.add_sub_cancel]

variable {item : InlineHookItem}

/-- An item whose pairs are those of its own relocation. -/
def Exact (item : InlineHookItem) : Prop :=
  item.orig_instructions.length = windowLength item.target_addr ∧
    ∃ load : Word → Word, item.boundaries =
      (relocateInstruction load item.target_addr item.orig_instructions).2

theorem Exact.pairs (h : Exact item) : Growing (0, 0) item.boundaries ∧ ∀ r ∈ item.boundaries,
    r.1 < 2 ^ 32 ∧ r.2 < 2 ^ 32 := by
  obtain ⟨hlength, load, heq⟩ := h
  rw [heq]
  exact own_growing hlength

theorem Exact.enable_iff (h : Exact item) (pc pc' : Word) :
    doProcessThreadPC item pc .ACTION_ENABLE = some pc' ↔
    ∃ q ∈ item.boundaries, pc = CLEAR_BIT0 item.target_addr + BitVec.ofNat 32 q.1 ∧
      pc' = item.trampoline_instructions + BitVec.ofNat 32 q.2 := by
  obtain ⟨hgrowing, hlt⟩ := h.pairs
  simp only [doProcessThreadPC, Option.map_eq_some_iff]
  constructor
  · intro hmove
    obtain ⟨q, hfind, rfl⟩ := hmove
    rw [find_iff (f := fun b => BitVec.ofNat 32 b.1)] at hfind
    · exact ⟨q, hfind.1, (sub_eq_iff ..).mp hfind.2, rfl⟩
    · exact fun r hr s hs heq => hgrowing.eq_of_fst hr hs
        (.inl (ofNat_inj (hlt r hr).1 (hlt s hs).1 heq))
  · intro hmove
    obtain ⟨q, hq, hpc, rfl⟩ := hmove
    refine ⟨q, ?_, rfl⟩
    rw [find_iff (f := fun b => BitVec.ofNat 32 b.1)]
    · exact ⟨hq, (sub_eq_iff ..).mpr hpc⟩
    · exact fun r hr s hs heq => hgrowing.eq_of_fst hr hs
        (.inl (ofNat_inj (hlt r hr).1 (hlt s hs).1 heq))

theorem Exact.disable_iff (h : Exact item) (pc pc' : Word) :
    doProcessThreadPC item pc' .ACTION_DISABLE = some pc ↔
    ∃ q ∈ item.boundaries, pc = CLEAR_BIT0 item.target_addr + BitVec.ofNat 32 q.1 ∧
      pc' = item.trampoline_instructions + BitVec.ofNat 32 q.2 := by
  obtain ⟨hgrowing, hlt⟩ := h.pairs
  simp only [doProcessThreadPC, Option.map_eq_some_iff]
  constructor
  · intro hmove
    obtain ⟨q, hfind, rfl⟩ := hmove
    rw [find_iff (f := fun b => BitVec.ofNat 32 b.2)] at hfind
    · exact ⟨q, hfind.1, rfl, (sub_eq_iff ..).mp hfind.2⟩
    · exact fun r hr s hs heq => hgrowing.eq_of_fst hr hs
        (.inr (ofNat_inj (hlt r hr).2 (hlt s hs).2 heq))
  · intro hmove
    obtain ⟨q, hq, rfl, hpc⟩ := hmove
    refine ⟨q, ?_, rfl⟩
    rw [find_iff (f := fun b => BitVec.ofNat 32 b.2)]
    · exact ⟨hq, (sub_eq_iff ..).mpr hpc⟩
    · exact fun r hr s hs heq => hgrowing.eq_of_fst hr hs
        (.inr (ofNat_inj (hlt r hr).2 (hlt s hs).2 heq))

/-- Calls other than those that take items out. -/
def KeepsItems (_ : Process) : Call → Prop
  | .inlineUnHook _ => False
  | .inlineUnHookAll => False
  | _ => True

/-- Slots that are not in use were never in use, and items have their own pairs. -/
structure Fresh (p : Process) : Prop where
  unused : ∀ i, p.size ≤ i → (p.item i).boundaries = []
  exact : ∀ i < p.size, Exact (p.item i)

theorem Fresh.turn {p p' : Process} (h : Fresh p) (hturn : Turn KeepsItems p p') : Fresh p' := by
  cases hturn with
  | freeze items action => exact ⟨h.unused, h.exact⟩
  | other _ => exact ⟨h.unused, h.exact⟩
  | register _ _ _ _ =>
    rename_i t new proto_addr page _ _ _ _
    constructor
    · intro i hi
      rw [registered_size] at hi
      rw [registered_item, if_neg (by omega)]
      exact h.unused i (by omega)
    · intro i hi
      rw [registered_size] at hi
      rw [registered_item]
      split
      · refine ⟨ArmMachine.length_bytesAt .., ArmMachine.word (mapped p page), ?_⟩
        rw [newItem, h.unused p.size (Nat.le_refl p.size)]
        rfl
      · exact h.exact i (by omega)
  | hook hi _ =>
    rename_i i _
    constructor
    · intro j hj
      rw [doInlineHook_same p i j]
      exact h.unused j hj
    · intro j hj
      rw [doInlineHook_same p i j]
      exact h.exact j hj
  | unHook hmay _ _ =>
    obtain ⟨q, hmay | ⟨t, hmay⟩⟩ := hmay
    · exact hmay.elim
    · exact hmay.elim

theorem fresh_reachable {mem : Memory} {threads : List Word} {maps : List Mapping} {p : Process}
    (h : Reachable KeepsItems (.start mem threads maps) p) : Fresh p :=
  h.invariant (fun _ _ hq hturn => hq.turn hturn)
    ⟨fun _ _ => rfl, fun i hi => absurd hi (Nat.not_lt_zero i)⟩

theorem relocateInArm_load (load load' : Word → Word) (p w : Word) :
    (relocateInArm load p w).length = (relocateInArm load' p w).length := by
  simp only [relocateInArm]
  split_ifs <;> rfl

theorem arm_pairs_load (load load' : Word → Word) (p : Word) (o b : Nat) (ws : List Word) :
    (relocateInArmLoop load p o b ws).boundaries =
      (relocateInArmLoop load' p o b ws).boundaries := by
  induction ws generalizing p o b with
  | nil => rfl
  | cons w ws ih => rw [relocateInArmLoop, relocateInArmLoop, relocateInArm_load load load', ih]

theorem relocateInstructionInThumb16_load (load load' : Word → Word) (p : Word) (h : Half) :
    (relocateInstructionInThumb16 load p h).length =
      (relocateInstructionInThumb16 load' p h).length := by
  simp only [relocateInstructionInThumb16]
  split_ifs <;> rfl

theorem relocateInstructionInThumb32_load (load load' : Word → Word) (p : Word) (h l : Half) :
    (relocateInstructionInThumb32 load p h l).length =
      (relocateInstructionInThumb32 load' p h l).length := by
  simp only [relocateInstructionInThumb32]
  split_ifs <;> rfl

theorem thumb_pairs_load (load load' : Word → Word) (p : Word) (o b : Nat) (hs : List Half) :
    (relocateInThumbLoop load p o b hs).1.boundaries =
      (relocateInThumbLoop load' p o b hs).1.boundaries := by
  induction hs using ThumbTrampoline.codes.induct generalizing p o b with
  | case1 => rfl
  | case2 h hwide =>
    rw [relocateInThumbLoop, relocateInThumbLoop, ThumbTrampoline.isWide_eq,
      if_pos hwide, if_pos hwide]
  | case3 h hnarrow =>
    rw [relocateInThumbLoop, relocateInThumbLoop, ThumbTrampoline.isWide_eq,
      if_neg hnarrow, if_neg hnarrow]
  | case4 h l rest hwide ih =>
    rw [relocateInThumbLoop, relocateInThumbLoop, ThumbTrampoline.isWide_eq,
      if_pos hwide, if_pos hwide]
    change _ :: (relocateInThumbLoop load _ _ (b + (relocateInstructionInThumb32 load p h l).length)
      rest).1.boundaries = _
    rw [relocateInstructionInThumb32_load load load', ih]
  | case5 h l rest hnarrow ih =>
    rw [relocateInThumbLoop, relocateInThumbLoop, ThumbTrampoline.isWide_eq,
      if_neg hnarrow, if_neg hnarrow]
    change _ :: (relocateInThumbLoop load _ _ (b + (relocateInstructionInThumb16 load p h).length)
      (l :: rest)).1.boundaries = _
    rw [relocateInstructionInThumb16_load load load', ih]

/-- The pairs do not depend on what is loaded. -/
theorem pairs_load (load load' : Word → Word) (t : Word) (bs : List Byte) :
    (relocateInstruction load t bs).2 = (relocateInstruction load' t bs).2 := by
  rw [relocateInstruction, relocateInstruction]
  split
  · exact thumb_pairs_load load load' ..
  · exact arm_pairs_load load load' ..

/-- As long as nothing is unhooked, a thread is moved into a trampoline from a
boundary of the target and to the boundary of the same instruction there, and
it is moved back from there and from nowhere else. -/
theorem moves_inverse {mem : Memory} {threads : List Word} {maps : List Mapping} {p : Process}
    (h : Reachable KeepsItems (.start mem threads maps) p) {i : Nat}
    (hi : i < p.size) (pc pc' : Word) :
    (doProcessThreadPC (p.item i) pc .ACTION_ENABLE = some pc' ↔ ∀ load : Word → Word,
      ∃ (k : Nat) (q : Nat × Nat), (relocateInstruction load (p.item i).target_addr
        (p.item i).orig_instructions).2[k]? = some q ∧
        pc = CLEAR_BIT0 (p.item i).target_addr + BitVec.ofNat 32 q.1 ∧
        pc' = (p.item i).trampoline_instructions + BitVec.ofNat 32 q.2) ∧
      (doProcessThreadPC (p.item i) pc .ACTION_ENABLE = some pc' ↔
        doProcessThreadPC (p.item i) pc' .ACTION_DISABLE = some pc) := by
  have hexact := (fresh_reachable h).exact i hi
  obtain ⟨-, load', hpairs⟩ := id hexact
  rw [hexact.enable_iff, hexact.disable_iff]
  refine ⟨?_, Iff.rfl⟩
  constructor
  · intro hmove load
    obtain ⟨q, hq, hpc⟩ := hmove
    rw [hpairs, pairs_load load' load] at hq
    obtain ⟨k, hk⟩ := List.mem_iff_getElem?.mp hq
    exact ⟨k, q, hk, hpc⟩
  · intro hmove
    obtain ⟨k, q, hk, hpc⟩ := hmove load'
    rw [← hpairs] at hk
    exact ⟨q, List.mem_of_getElem? hk, hpc⟩

theorem moves_inverse_second :
    doProcessThreadPC ((sampleRegistered 0xEAFFFFFE 0x100).item 0) 0x104
      .ACTION_ENABLE = some 0x1008 ∧
      doProcessThreadPC ((sampleRegistered 0xEAFFFFFE 0x100).item 0) 0x1008
        .ACTION_DISABLE = some 0x104 := by
  have hreachable : Reachable KeepsItems (sample 0xEAFFFFFE) (sampleRegistered 0xEAFFFFFE 0x100) :=
    sample_reachable trivial (by decide) (by decide)
  obtain ⟨hmove, hback⟩ := moves_inverse hreachable (i := 0) (by decide) 0x104 0x1008
  have henable := hmove.mpr fun load => ⟨1, (4, 8), rfl, by decide, by decide⟩
  exact ⟨henable, hback.mp henable⟩

/-- Where a slot still has the pairs of an item that was taken out, enabling the
new item takes all threads to their places if and only if the first old pair of
each offset, if there is one, happens to have the same place. -/
theorem reused_slot_iff {p : Process} {t new : Word} {proto_addr : Option Word} {page : Word} :
    let own :=
      (relocateInstruction (ArmMachine.word (mapped p page)) t
        (bytesAt p.mem (CLEAR_BIT0 t) (windowLength t))).2
    (∀ q ∈ own, doProcessThreadPC (newItem p t new proto_addr page)
      (CLEAR_BIT0 t + BitVec.ofNat 32 q.1) .ACTION_ENABLE =
        some (page + BitVec.ofNat 32 q.2)) ↔
      ∀ q ∈ own, ∀ r, (p.item p.size).boundaries.find?
        (fun b => BitVec.ofNat 32 q.1 = BitVec.ofNat 32 b.1) = some r →
        BitVec.ofNat 32 r.2 = BitVec.ofNat 32 q.2 := by
  intro own
  obtain ⟨hgrowing, hlt⟩ : Growing (0, 0) own ∧ ∀ r ∈ own, r.1 < 2 ^ 32 ∧ r.2 < 2 ^ 32 :=
    own_growing (ArmMachine.length_bytesAt ..)
  have hmove (q : Nat × Nat) (hq : q ∈ own) :
      doProcessThreadPC (newItem p t new proto_addr page)
        (CLEAR_BIT0 t + BitVec.ofNat 32 q.1) .ACTION_ENABLE =
        some (page + BitVec.ofNat 32
          (((p.item p.size).boundaries.find? fun b => BitVec.ofNat 32 q.1 =
            BitVec.ofNat 32 b.1).getD q).2) := by
    have hown : own.find? (fun b => BitVec.ofNat 32 q.1 = BitVec.ofNat 32 b.1) = some q := by
      rw [find_iff (f := fun b => BitVec.ofNat 32 b.1)]
      · exact ⟨hq, rfl⟩
      · exact fun r hr s hs heq => hgrowing.eq_of_fst hr hs
          (.inl (ofNat_inj (hlt r hr).1 (hlt s hs).1 heq))
    have hoffset : CLEAR_BIT0 t + BitVec.ofNat 32 q.1 - CLEAR_BIT0 t = BitVec.ofNat 32 q.1 :=
      (sub_eq_iff ..).mpr rfl
    change Option.map _ (((p.item p.size).boundaries ++ own).find? fun b =>
      CLEAR_BIT0 t + BitVec.ofNat 32 q.1 - CLEAR_BIT0 t = BitVec.ofNat 32 b.1) = _
    rw [hoffset, List.find?_append, hown]
    cases (p.item p.size).boundaries.find? fun b => BitVec.ofNat 32 q.1 = BitVec.ofNat 32 b.1 with
    | none => rfl
    | some r => rfl
  constructor
  · intro hright q hq r hr
    have heq := hright q hq
    rw [hmove q hq, hr, Option.getD_some, Option.some.injEq] at heq
    exact (BitVec.add_right_inj page).mp heq
  · intro hagree q hq
    rw [hmove q hq]
    cases hr : (p.item p.size).boundaries.find? fun b =>
      BitVec.ofNat 32 q.1 = BitVec.ofNat 32 b.1 with
    | none => rfl
    | some r => rw [Option.getD_some, hagree q hq r hr]

theorem newItem_pairs (p : Process) (t new : Word) (proto_addr : Option Word) (page : Word) :
    (newItem p t new proto_addr page).boundaries.length = (p.item p.size).boundaries.length +
      if TEST_BIT0 t then 6 - wide (halves (bytesAt p.mem (CLEAR_BIT0 t) 12)) else 2 := by
  have hlength := @own_length (ArmMachine.word (mapped p page)) t _
    (ArmMachine.length_bytesAt p.mem (CLEAR_BIT0 t) (windowLength t))
  rw [newItem, List.length_append, hlength]
  cases hbit : TEST_BIT0 t with
  | true => simp only [windowLength, hbit, if_true]
  | false => rfl

/-- In a table from which nothing was taken out, a registration fails for good
exactly where the table is full or a Thumb target begins with fewer than two
instructions of two halfwords: its boundaries do not fit then. -/
theorem registerInlineHook_fresh_iff {mem : Memory} {threads : List Word}
    {maps : List Mapping} {p : Process}
    (h : Reachable KeepsItems (.start mem threads maps) p) (t new : Word)
    (proto_addr : Option Word) (page : Word) :
    registerInlineHook p t new proto_addr page = none ↔
      isExecutableAddr p.maps t = true ∧ isExecutableAddr p.maps new = true ∧
      (∀ i < p.size, (p.item i).target_addr ≠ t) ∧
        (p.size = 1024 ∨ TEST_BIT0 t = true ∧
          wide (halves (bytesAt p.mem (CLEAR_BIT0 t) 12)) < 2) := by
  rw [registerInlineHook_none_iff (reachable_table h).capacity, newItem_pairs,
    (fresh_reachable h).unused p.size (Nat.le_refl p.size),
    List.length_nil, Nat.zero_add]
  cases hbit : TEST_BIT0 t with
  | true =>
    have hfew : 4 < 6 - wide (halves (bytesAt p.mem (CLEAR_BIT0 t) 12)) ↔
        wide (halves (bytesAt p.mem (CLEAR_BIT0 t) 12)) < 2 := by
      omega
    rw [if_pos rfl, hfew, eq_self_iff_true, true_and]
  | false => simp

theorem registerInlineHook_fresh_iff_again :
    registerInlineHook (sampleRegistered 0xEAFFFFFE 0x100) 0x100 0x200 none 0x2000 ≠ none := by
  have hreachable : Reachable KeepsItems (sample 0xEAFFFFFE) (sampleRegistered 0xEAFFFFFE 0x100) :=
    sample_reachable trivial (by decide) (by decide)
  intro hnone
  obtain ⟨-, -, hnew, -⟩ :=
    (registerInlineHook_fresh_iff hreachable 0x100 0x200 none 0x2000).mp hnone
  exact hnew 0 (by decide) rfl

section Slots

variable {may : Process → Call → Prop} {mem : Memory} {threads : List Word}
    {maps : List Mapping} {p : Process}

theorem two_le_own (p : Process) (t : Word) :
    2 ≤ if TEST_BIT0 t then 6 - wide (halves (bytesAt p.mem (CLEAR_BIT0 t) 12)) else 2 := by
  have hwide := two_wide_le (halves (bytesAt p.mem (CLEAR_BIT0 t) 12))
  rw [length_halves (n := 6) (ArmMachine.length_bytesAt ..)] at hwide
  split <;> omega

/-- A slot that was ever used has the pairs of one target at least. -/
def Slots (p : Process) : Prop := ∀ i, (p.item i).boundaries = [] ∨ 2 ≤ (p.item i).boundaries.length

theorem Slots.turn {p' : Process} (h : Slots p) (hturn : Turn may p p') : Slots p' := by
  intro i
  cases hturn with
  | freeze items action => exact h i
  | other _ => exact h i
  | register _ _ _ _ =>
    rename_i t new proto_addr page _ _ _ _
    rw [registered_item]
    split
    · have hown := two_le_own p t
      rw [newItem_pairs]
      exact .inr (by omega)
    · exact h i
  | hook hi _ =>
    rename_i j _
    rw [doInlineHook_same p j i]
    exact h i
  | unHook _ hi _ =>
    rw [doInlineUnHook_item]
    exact h _

theorem slots_reachable (h : Reachable may (.start mem threads maps) p) : Slots p :=
  h.invariant (fun _ _ hq hturn => hq.turn hturn) fun _ => .inl rfl

/-- After every sequence of calls the table has at most 1024 items, no target
twice, and boundaries that fit. A registration fails for good exactly where an
executable target that is not in the table finds it full or the pairs do not fit
into its slot: in one that was never used those of a Thumb target that begins with
fewer than two instructions of two halfwords, in one that was those of every
Thumb target, and of an ARM target behind more than two. -/
theorem table_reachable (h : Reachable may (.start mem threads maps) p) :
    Table p ∧ ∀ t new proto_addr page, registerInlineHook p t new proto_addr page = none ↔
      isExecutableAddr p.maps t = true ∧ isExecutableAddr p.maps new = true ∧
      (∀ i < p.size, (p.item i).target_addr ≠ t) ∧
        (p.size = 1024 ∨
          (p.item p.size).boundaries = [] ∧ TEST_BIT0 t = true ∧
          wide (halves (bytesAt p.mem (CLEAR_BIT0 t) 12)) < 2 ∨
          (p.item p.size).boundaries ≠ [] ∧ (TEST_BIT0 t = true ∨
          2 < (p.item p.size).boundaries.length)) := by
  refine ⟨reachable_table h, fun t new proto_addr page => ?_⟩
  have hwide := two_wide_le (halves (bytesAt p.mem (CLEAR_BIT0 t) 12))
  rw [length_halves (n := 6) (ArmMachine.length_bytesAt ..)] at hwide
  have hfits : 4 < (newItem p t new proto_addr page).boundaries.length ↔
      (p.item p.size).boundaries = [] ∧ TEST_BIT0 t = true ∧
      wide (halves (bytesAt p.mem (CLEAR_BIT0 t) 12)) < 2 ∨
        (p.item p.size).boundaries ≠ [] ∧ (TEST_BIT0 t = true ∨
        2 < (p.item p.size).boundaries.length) := by
    rw [newItem_pairs]
    cases slots_reachable h p.size with
    | inl hnil =>
      rw [hnil, List.length_nil]
      cases TEST_BIT0 t with
      | true => simp only [if_true, true_and, ne_eq, not_true_eq_false, false_and, or_false]; omega
      | false => simp
    | inr htwo =>
      have hne : (p.item p.size).boundaries ≠ [] := List.ne_nil_of_length_pos (by omega)
      cases TEST_BIT0 t with
      | true =>
        simp only [if_true, hne, false_and, ne_eq, not_false_eq_true, true_or, and_self,
          or_true, iff_true]; omega
      | false =>
        simp only [hne, false_and, false_or, ne_eq, not_false_eq_true, Bool.false_eq_true,
          if_false, true_and]; omega
  rw [registerInlineHook_none_iff (reachable_table h).capacity, hfits]

/-- The slot of an item that was hooked and taken out. -/
def sampleEmptied : Process :=
  (inlineUnHook (inlineHook (sampleRegistered 0xEAFFFFFE 0x100) 0x100).2 0x100).2

theorem table_reachable_reused : registerInlineHook sampleEmptied 0x101 0x200 none 0x2000 = none ∧
    registerInlineHook sampleEmptied 0x100 0x200 none 0x2000 ≠ none := by
  have hregistered : Reachable (fun _ _ => True) (sample 0xEAFFFFFE)
      (sampleRegistered 0xEAFFFFFE 0x100) :=
    sample_reachable trivial (by decide) (by decide)
  have hreachable : Reachable (fun _ _ => True) (sample 0xEAFFFFFE) sampleEmptied :=
    (hregistered.tail ⟨.inlineHook 0x100, trivial, rfl⟩).tail ⟨.inlineUnHook 0x100, trivial, rfl⟩
  have hiff := (table_reachable hreachable).2
  have hslot : (sampleEmptied.item sampleEmptied.size).boundaries = [(0, 0), (4, 8)] := by decide
  constructor
  · refine (hiff 0x101 0x200 none 0x2000).mpr
      ⟨by decide, by decide, fun i hi => absurd hi (Nat.not_lt_zero i), .inr (.inr ?_)⟩
    exact ⟨by rw [hslot]; exact List.cons_ne_nil _ _, .inl (by decide)⟩
  · intro hnone
    obtain ⟨-, -, -, hfull⟩ := (hiff 0x100 0x200 none 0x2000).mp hnone
    rw [hslot] at hfull
    revert hfull
    decide

end Slots

/-- The bytes of the whole instructions among those saved. -/
def wholeLength (t : Word) (bs : List Byte) : Nat :=
  if TEST_BIT0 t then ((ThumbTrampoline.codes (halves bs)).map fun i => i.size.toNat).sum
    else 4 * (words bs).length

theorem patch_le_wholeLength (t new : Word) {bs : List Byte} (h : bs.length = windowLength t) :
    (patch t new).length ≤ wholeLength t bs ∧ wholeLength t bs ≤ windowLength t := by
  rw [windowLength] at h
  rw [windowLength, wholeLength]
  cases hbit : TEST_BIT0 t with
  | true =>
    rw [hbit, if_pos rfl] at h
    have hend := thumb_end (fun _ => 0) 0 0 0 (halves bs)
    have hwhole := thumb_whole (fun _ => 0) 0 0 0 (halves bs)
    have hpatch : (patch t new).length ≤ 10 := by
      rw [patch, if_pos hbit]
      split_ifs <;> simp [ArmMachine.halfBytes]
    rw [length_halves (n := 6) h] at hend
    rw [if_pos rfl, if_pos rfl]
    omega
  | false =>
    rw [hbit, if_neg (by decide)] at h
    have hpatch : (patch t new).length = 8 := by
      rw [patch, if_neg (by simp [hbit])]
      rfl
    rw [length_words (n := 2) h, hpatch, if_neg (by decide), if_neg (by decide)]
    exact ⟨Nat.le_refl 8, Nat.le_refl 8⟩

section Returns

open ArmMachine (Core Steps Stored)

variable {load : Word → Word} {t page : Word} {bs : List Byte} {c : Core}

theorem arm_returns (other : Word → Core → Option Core) (hbit : TEST_BIT0 t = false)
    (ht : t.toNat % 4 = 0)
    (hc : bytesAt c.mem page (relocateInstruction load t bs).1.length =
      (relocateInstruction load t bs).1) :
    Steps (ArmInstructions.step other) ⟨c,
      page + BitVec.ofNat 32 ((relocateInstruction load t bs).1.length - 8), false⟩
      ⟨c, CLEAR_BIT0 t + BitVec.ofNat 32 (wholeLength t bs), false⟩ := by
  have hplace : (t + BitVec.ofNat 32 (4 * (words bs).length)).toNat % 4 = 0 := by
    rw [BitVec.toNat_add, BitVec.toNat_ofNat]
    omega
  rw [relocateInstruction, if_neg (by simp [hbit]), ArmMachine.length_wordBytes] at hc
  have hend := ((ArmMachine.stored_append ..).mp (ArmMachine.stored_of_wordBytes hc)).2
  have hlen : (relocateInstruction load t bs).1.length =
      4 * (relocateInArmLoop load (t + 8) 0 0 (words bs)).trampoline_instructions.length + 8 := by
    rw [relocateInstruction, if_neg (by simp [hbit]), ArmMachine.length_wordBytes,
      relocateInstructionInArm,
      List.length_append, Nat.mul_add]
    rfl
  have hstart : page + 4 * BitVec.ofNat 32
      (relocateInArmLoop load (t + 8) 0 0 (words bs)).trampoline_instructions.length =
      page + BitVec.ofNat 32 ((relocateInstruction load t bs).1.length - 8) := by
    rw [hlen, Nat.add_sub_cancel, BitVec.ofNat_mul]
    rfl
  rw [hstart] at hend
  rw [CLEAR_BIT0_of_arm hbit, wholeLength, if_neg (by simp [hbit])]
  exact ArmRelocation.jump_steps hend (ArmMachine.branchExchange_of_aligned hplace) 0

theorem thumb_returns (other : ThumbInstructions.Code → Core → Option Core)
    (hbit : TEST_BIT0 t = true) (hpage : page.toNat % 4 = 0)
    (hc : bytesAt c.mem page (relocateInstruction load t bs).1.length =
      (relocateInstruction load t bs).1) :
    Steps (ThumbInstructions.step other)
      ⟨c, page + BitVec.ofNat 32 ((relocateInstruction load t bs).1.length - 8), true⟩
      ⟨c, CLEAR_BIT0 t + BitVec.ofNat 32 (wholeLength t bs), true⟩ := by
  have hlength := thumb_emitted_length load (t - 1 + 4) 0 0 (halves bs)
  have hwhole := thumb_whole load (t - 1 + 4) 0 0 (halves bs)
  have hplace : (t - 1 + BitVec.ofNat 32
      ((relocateInThumbLoop load (t - 1 + 4) 0 0 (halves bs)).2 * 2)).toNat % 2 = 0 := by
    rw [← CLEAR_BIT0_of_thumb hbit, BitVec.toNat_add, BitVec.toNat_ofNat, toNat_CLEAR_BIT0]
    omega
  rw [relocateInstruction, if_pos hbit, ArmMachine.length_halfBytes] at hc
  have hend := ((ArmMachine.stored_append ..).mp (ArmMachine.stored_of_halfBytes hc)).2
  have hlen : (relocateInstruction load t bs).1.length =
      2 * (relocateInThumbLoop load (t - 1 + 4) 0 0 (halves bs)).1.trampoline_instructions.length +
        8 := by
    rw [relocateInstruction, if_pos hbit, ArmMachine.length_halfBytes, relocateInstructionInThumb,
      List.length_append,
      Nat.mul_add]
    rfl
  have hstart : page + 2 * BitVec.ofNat 32
      (relocateInThumbLoop load (t - 1 + 4) 0 0 (halves bs)).1.trampoline_instructions.length =
      page + BitVec.ofNat 32 ((relocateInstruction load t bs).1.length - 8) := by
    rw [hlen, Nat.add_sub_cancel, BitVec.ofNat_mul]
    rfl
  rw [hstart] at hend
  have haligned : (page + BitVec.ofNat 32 ((relocateInstruction load t bs).1.length - 8)).toNat %
      4 = 0 := by
    rw [← hstart, BitVec.toNat_add, BitVec.toNat_mul, BitVec.toNat_ofNat,
      show (2 : Word).toNat = 2 from rfl]
    omega
  rw [CLEAR_BIT0_of_thumb hbit, wholeLength, if_pos hbit, ← Nat.zero_add (List.sum _),
    ← Nat.zero_mul 2, ← hwhole]
  exact ThumbRelocation.jump_steps haligned hend (ArmMachine.branchExchange_add_one hplace) 0

/-- The last eight bytes of a trampoline lead back behind the whole instructions
among those saved, and these cover all that the hook is written over. -/
theorem returns_behind_patch (other : Word → Core → Option Core)
    (other' : ThumbInstructions.Code → Core → Option Core) (new : Word)
    (h : bs.length = windowLength t) (ht : TEST_BIT0 t = false → t.toNat % 4 = 0)
    (hpage : page.toNat % 4 = 0)
    (hc : bytesAt c.mem page (relocateInstruction load t bs).1.length =
      (relocateInstruction load t bs).1) :
    Steps (if TEST_BIT0 t then ThumbInstructions.step other' else ArmInstructions.step other)
        ⟨c, page + BitVec.ofNat 32 ((relocateInstruction load t bs).1.length - 8), TEST_BIT0 t⟩
        ⟨c, CLEAR_BIT0 t + BitVec.ofNat 32 (wholeLength t bs), TEST_BIT0 t⟩ ∧
      (patch t new).length ≤ wholeLength t bs ∧ wholeLength t bs ≤ windowLength t := by
  refine ⟨?_, patch_le_wholeLength t new h⟩
  cases hbit : TEST_BIT0 t with
  | true => exact thumb_returns other' hbit hpage hc
  | false => exact arm_returns other hbit (ht hbit) hc

/-- A NOP, two branches, and the first half of a third. -/
def cutBytes : List Byte :=
  [0xBF00, 0xF7FF, 0xBFFE, 0xF7FF, 0xBFFE, 0xF7FF].flatMap ArmMachine.halfBytes

def cutCore : Core :=
  { ArmMachine.coreWith [] ArmMachine.clearFlags with
    mem := put (fun _ => 0) 0x1000 (relocateInstruction (fun _ => 0) 0x103 cutBytes).1 }

theorem returns_behind_patch_cut :
    Steps (ThumbInstructions.step fun _ _ => none) ⟨cutCore, 0x1014, true⟩ ⟨cutCore, 0x10C, true⟩ ∧
    (patch 0x103 0x200).length = 10 := by
  have hc : bytesAt cutCore.mem 0x1000 (relocateInstruction (fun _ => 0) 0x103 cutBytes).1.length =
      (relocateInstruction (fun _ => 0) 0x103 cutBytes).1 := ArmMachine.bytesAt_put _ _ (by decide)
  obtain ⟨hsteps, -⟩ := returns_behind_patch (fun _ _ => none) (fun _ _ => none) 0x200 (by decide)
    (by decide) (by decide) hc
  exact ⟨hsteps, by decide⟩

end Returns

end Threads

end InlineHook
