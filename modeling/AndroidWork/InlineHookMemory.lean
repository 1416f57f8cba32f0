import AndroidWork.InlineHookRuns

/-!
# The memory under inline hooks

What the bytes of the program, of the hooked functions and of the trampolines
are after any sequence of calls, where the functions that are registered do not
overlap: the program is as it was, but for what stands over hooked functions.
-/
namespace InlineHook

open ArmMachine (Byte Half Word Memory put bytesAt Inside word halfBytes wordBytes)
open Relocate

section Lengths

variable (load : Word → Word)

theorem length_patch (t new : Word) : (patch t new).length ≤ windowLength t := by
  rw [patch, windowLength]
  split_ifs <;> simp [halfBytes, wordBytes]

theorem relocateInArm_length (p w : Word) : (relocateInArm load p w).length ≤ 6 := by
  simp only [relocateInArm]
  split_ifs <;> simp

theorem relocateInArmLoop_length (p : Word) (o b : Nat) (ws : List Word) :
    (relocateInArmLoop load p o b ws).trampoline_instructions.length ≤ 6 * ws.length := by
  induction ws generalizing p o b with
  | nil => exact Nat.le_refl 0
  | cons w ws ih =>
    have hchunk := relocateInArm_length load p w
    have hrest := ih (p + 4) (o + 1) (b + (relocateInArm load p w).length)
    rw [relocateInArmLoop, List.length_append, List.length_cons]
    omega

theorem relocateInstructionInThumb16_length (p : Word) (h : Half) :
    (relocateInstructionInThumb16 load p h).length ≤ 14 := by
  simp only [relocateInstructionInThumb16]
  split_ifs <;> simp

theorem relocateInstructionInThumb32_length (p : Word) (h l : Half) :
    (relocateInstructionInThumb32 load p h l).length ≤ 14 := by
  simp only [relocateInstructionInThumb32]
  split_ifs <;> simp

theorem relocateInThumbLoop_length (p : Word) (o b : Nat) (hs : List Half) :
    (relocateInThumbLoop load p o b hs).1.trampoline_instructions.length ≤ 14 * hs.length := by
  fun_induction relocateInThumbLoop load p o b hs with
  | case1 => exact Nat.le_refl 0
  | case2 => exact Nat.zero_le _
  | case3 p o b h => exact relocateInstructionInThumb16_length load p h
  | case4 p o b h l rest _ chunk r ih =>
    have hchunk : chunk.length ≤ 14 := relocateInstructionInThumb32_length load p h l
    have hrest : r.1.trampoline_instructions.length ≤ 14 * rest.length := ih
    simp only [List.length_append, List.length_cons]
    omega
  | case5 p o b h l rest _ chunk r ih =>
    have hchunk : chunk.length ≤ 14 := relocateInstructionInThumb16_length load p h
    have hrest : r.1.trampoline_instructions.length ≤ 14 * (l :: rest).length := ih
    simp only [List.length_append, List.length_cons] at hrest ⊢
    omega

theorem halves_length (bs : List Byte) : (ArmMachine.halves bs).length ≤ bs.length := by
  induction bs using ArmMachine.halves.induct with
  | case1 b₀ b₁ bs ih =>
    rw [ArmMachine.halves, List.length_cons, List.length_cons, List.length_cons]
    omega
  | case2 bs h =>
    rw [ArmMachine.halves]
    · exact Nat.zero_le _
    · exact h

theorem words_length (bs : List Byte) : (ArmMachine.words bs).length ≤ bs.length := by
  induction bs using ArmMachine.words.induct with
  | case1 b₀ b₁ b₂ b₃ bs ih =>
    rw [ArmMachine.words, List.length_cons, List.length_cons, List.length_cons,
      List.length_cons, List.length_cons]
    omega
  | case2 bs h =>
    rw [ArmMachine.words]
    · exact Nat.zero_le _
    · exact h

/-- A trampoline fits into its page. -/
theorem trampoline_length (t : Word) {bs : List Byte} (h : bs.length ≤ 12) :
    (relocateInstruction load t bs).1.length ≤ PAGE_SIZE := by
  rw [relocateInstruction, PAGE_SIZE]
  split
  · have hloop := relocateInThumbLoop_length load (t - 1 + 4) 0 0 (ArmMachine.halves bs)
    have hhalves := halves_length bs
    rw [ArmMachine.length_halfBytes, relocateInstructionInThumb, List.length_append]
    simp only [List.length_cons, List.length_nil]
    omega
  · have hloop := relocateInArmLoop_length load (t + 8) 0 0 (ArmMachine.words bs)
    have hwords := words_length bs
    rw [ArmMachine.length_wordBytes, relocateInstructionInArm, List.length_append]
    simp only [List.length_cons, List.length_nil]
    omega

end Lengths

/-- The bytes that are saved for a target. -/
def Window (t b : Word) : Prop := Inside (CLEAR_BIT0 t) (windowLength t) b

/-- The bytes that are written over a hooked item's target. -/
def Patched (item : InlineHookItem) (b : Word) : Prop :=
  Inside (CLEAR_BIT0 item.target_addr) (patch item.target_addr item.new_addr).length b

/-- The page of an item's trampoline. -/
def Page (item : InlineHookItem) (b : Word) : Prop :=
  Inside item.trampoline_instructions PAGE_SIZE b

/-- The cells that an item writes its trampoline's address to. -/
def Cell (item : InlineHookItem) (b : Word) : Prop := ∃ cell ∈ item.proto_addr, Inside cell 4 b

/-- `code` is memory that only hooks write to, `pool` a part of it in no target. What is
registered lies in the code and overlaps with no other target, pages are mapped
where nothing else is, and cells are elsewhere. -/
def Admissible (code pool : Word → Prop) (p : Process) : Call → Prop
  | .registerInlineHook t new proto_addr page =>
    let item := newItem p t new proto_addr page
    (∀ b, Window t b → code b ∧ ¬ pool b) ∧
      (∀ i < p.size, (p.item i).target_addr ≠ t → ∀ b, Window t b →
        ¬ Window (p.item i).target_addr b) ∧
      (∀ b, Page item b → ¬ code b ∧ ∀ i < p.size, ¬ Page (p.item i) b ∧ ¬ Cell (p.item i) b) ∧
      (∀ b, Cell item b → ¬ code b ∧ ¬ Page item b ∧ ∀ i < p.size, ¬ Page (p.item i) b)
  | .other mem _ _ => ∀ b, (code b ∨ ∃ i < p.size, Page (p.item i) b) → mem b = p.mem b
  | _ => True

/-- The trampoline of an item stands in its page; the words of the pool that it
holds are those of `m₀`. -/
def Standing (pool : Word → Prop) (m₀ m : Memory) (item : InlineHookItem) : Prop :=
  ∃ load : Word → Word, (∀ x, (∀ b, Inside x 4 b → pool b) → load x = word m₀ x) ∧
    let bytes := (relocateInstruction load item.target_addr item.orig_instructions).1
    bytes.length ≤ PAGE_SIZE ∧ bytesAt m item.trampoline_instructions bytes.length = bytes

/-- Items and memory after any number of turns from memory `m₀` on. -/
structure Kept (code pool : Word → Prop) (m₀ : Memory) (p : Process) : Prop where
  windows : ∀ i < p.size, ∀ b, Window (p.item i).target_addr b → code b ∧ ¬ pool b
  apart : ∀ i < p.size, ∀ j < p.size, i ≠ j → ∀ b, Window (p.item i).target_addr b →
    ¬ Window (p.item j).target_addr b
  pages : ∀ i < p.size, ∀ b, Page (p.item i) b → ¬ code b
  pagesApart : ∀ i < p.size, ∀ j < p.size, i ≠ j → ∀ b, Page (p.item i) b → ¬ Page (p.item j) b
  cells : ∀ i < p.size, ∀ b, Cell (p.item i) b → ¬ code b ∧ ∀ j < p.size, ¬ Page (p.item j) b
  saved : ∀ i < p.size,
    (p.item i).orig_instructions = bytesAt m₀ (CLEAR_BIT0 (p.item i).target_addr)
      (windowLength (p.item i).target_addr)
  hooked : ∀ i < p.size, (p.item i).status = .HOOKED → ∀ m, ∀ b, Patched (p.item i) b →
    p.mem b = put m (CLEAR_BIT0 (p.item i).target_addr)
      (patch (p.item i).target_addr (p.item i).new_addr) b
  plain : ∀ b, code b → (∀ i < p.size, (p.item i).status = .HOOKED → ¬ Patched (p.item i) b) →
    p.mem b = m₀ b
  standing : ∀ i < p.size, Standing pool m₀ p.mem (p.item i)

section Kept

variable {code pool : Word → Prop} {m₀ : Memory} {p p' : Process}

theorem Patched.window {item : InlineHookItem} {b : Word} (h : Patched item b) :
    Window item.target_addr b :=
  h.mono (length_patch ..)

theorem windowLength_le (t : Word) : windowLength t ≤ 12 := by
  rw [windowLength]
  split <;> omega

theorem Standing.congr {m m' : Memory} {item : InlineHookItem} (h : Standing pool m₀ m item)
    (hpage : ∀ b, Page item b → m' b = m b) : Standing pool m₀ m' item := by
  obtain ⟨load, hload, hle, hbytes⟩ := h
  refine ⟨load, hload, hle, ?_⟩
  rw [← hbytes, ArmMachine.length_bytesAt]
  exact ArmMachine.bytesAt_congr (Nat.le_trans hle (by decide)) fun b hb => hpage b (hb.mono hle)

theorem Kept.freeze (h : Kept code pool m₀ p) (items : List InlineHookItem) (action : Action) :
    Kept code pool m₀ (freeze p items action) :=
  ⟨h.windows, h.apart, h.pages, h.pagesApart, h.cells, h.saved, h.hooked, h.plain, h.standing⟩

theorem Kept.other (h : Kept code pool m₀ p) {mem : Memory} {threads : List Word}
    {maps : List Mapping}
    (hmay : Admissible code pool p (.other mem threads maps)) :
    Kept code pool m₀ { p with mem, threads, maps } := by
  have hcode (b : Word) (hb : code b) : mem b = p.mem b := hmay b (.inl hb)
  refine ⟨h.windows, h.apart, h.pages, h.pagesApart, h.cells, h.saved, ?_, ?_, ?_⟩
  · intro i hi hstatus m b hb
    exact (hcode b (h.windows i hi b hb.window).1).trans (h.hooked i hi hstatus m b hb)
  · exact fun b hb hnot => (hcode b hb).trans (h.plain b hb hnot)
  · exact fun i hi => (h.standing i hi).congr fun b hb => hmay b (.inr ⟨i, hi, hb⟩)

/-- The bytes of a window that no item has are those of the beginning. -/
theorem Kept.window (h : Kept code pool m₀ p) {t : Word} (hcode : ∀ b, Window t b → code b)
    (hapart : ∀ i < p.size, ∀ b, Window t b → ¬ Window (p.item i).target_addr b) :
    bytesAt p.mem (CLEAR_BIT0 t) (windowLength t) = bytesAt m₀ (CLEAR_BIT0 t) (windowLength t) := by
  apply ArmMachine.bytesAt_congr (Nat.le_trans (windowLength_le t) (by decide))
  exact fun b hb => h.plain b (hcode b hb) fun i hi _ hpatched => hapart i hi b hb hpatched.window

theorem registered_mem {t new : Word} {proto_addr : Option Word} {page b : Word}
    (hb : ¬ Inside page PAGE_SIZE b) :
    (registered p t new proto_addr page).mem b = p.mem b := by
  have hbytes : (bytesAt p.mem (CLEAR_BIT0 t) (windowLength t)).length ≤ 12 := by
    rw [ArmMachine.length_bytesAt]
    exact windowLength_le t
  have hlength := trampoline_length (word (mapped p page)) t hbytes
  have htrampoline : (registered p t new proto_addr page).mem b = mapped p page b :=
    ArmMachine.put_outside _ fun hin => hb (hin.mono hlength)
  rw [htrampoline, mapped, ArmMachine.put_outside]
  rwa [List.length_replicate]

/-- The trampoline of a new item, in a page that no code and no other item has anything in. -/
theorem Kept.standing_new (hpool : ∀ b, pool b → code b) (h : Kept code pool m₀ p) {t new : Word}
    {proto_addr : Option Word}
    {page : Word} (hmay : Admissible code pool p (.registerInlineHook t new proto_addr page)) :
    Standing pool m₀ (registered p t new proto_addr page).mem
      (newItem p t new proto_addr page) := by
  obtain ⟨-, -, hpage, -⟩ := hmay
  have hbytes : (newItem p t new proto_addr page).orig_instructions.length ≤ 12 := by
    rw [newItem, ArmMachine.length_bytesAt]
    exact windowLength_le t
  have hlength := trampoline_length (word (mapped p page)) t hbytes
  refine ⟨word (mapped p page), fun x hx => ArmMachine.word_congr fun b hb => ?_, hlength,
    ArmMachine.bytesAt_put _ _ (Nat.le_trans hlength (by decide))⟩
  have hb := hx b hb
  have hmapped : mapped p page b = p.mem b := by
    rw [mapped, ArmMachine.put_outside]
    rw [List.length_replicate]
    exact fun hin => (hpage b hin).1 (hpool b hb)
  rw [hmapped]
  exact h.plain b (hpool b hb) fun i hi _ hpatched => (h.windows i hi b hpatched.window).2 hb

/-- A new item has a window, a page and a cell apart from those of the others. -/
theorem Kept.register (hpool : ∀ b, pool b → code b) (h : Kept code pool m₀ p) {t new : Word}
    {proto_addr : Option Word}
    {page : Word} (hmay : Admissible code pool p (.registerInlineHook t new proto_addr page))
    (hnew : findInlineHookItem p t = none) :
    Kept code pool m₀ (registered p t new proto_addr page) := by
  have hstands := h.standing_new hpool hmay
  obtain ⟨hwindow, hapart, hpage, hcell⟩ := hmay
  have hother (i : Nat) (hi : i < p.size) : ∀ b, Window t b → ¬ Window (p.item i).target_addr b :=
    hapart i hi (find_none hnew hi)
  have hmem {b : Word} (hb : ¬ Page (newItem p t new proto_addr page) b) :
      (registered p t new proto_addr page).mem b = p.mem b :=
    registered_mem hb
  have hcode {b : Word} (hb : code b) : (registered p t new proto_addr page).mem b = p.mem b :=
    hmem fun hin => (hpage b hin).1 hb
  constructor
  case windows =>
    exact registered_all (fun item => ∀ b, Window item.target_addr b → code b ∧
      ¬ pool b) h.windows hwindow
  case apart =>
    exact registered_pairs (fun a a' => ∀ b, Window a.target_addr b → ¬ Window a'.target_addr b)
      h.apart fun i hi =>
      ⟨fun b hb hb' => hother i hi b hb' hb, hother i hi⟩
  case pages =>
    exact registered_all (fun item => ∀ b, Page item b → ¬ code b) h.pages fun b hb =>
      (hpage b hb).1
  case pagesApart =>
    exact registered_pairs (fun a a' => ∀ b, Page a b → ¬ Page a' b) h.pagesApart fun i hi =>
      ⟨fun b hb hb' => ((hpage b hb').2 i hi).1 hb, fun b hb => ((hpage b hb).2 i hi).1⟩
  case cells =>
    refine registered_all (fun item => ∀ b, Cell item b → ¬ code b ∧
      ∀ j < (registered p t new proto_addr page).size,
      ¬ Page ((registered p t new proto_addr page).item j) b)
        (fun i hi b hb => ⟨(h.cells i hi b hb).1, ?_⟩)
      fun b hb => ⟨(hcell b hb).1, ?_⟩
    · exact registered_all (fun item => ¬ Page item b) (h.cells i hi b hb).2 fun hb' =>
        ((hpage b hb').2 i hi).2 hb
    · exact registered_all (fun item => ¬ Page item b) (hcell b hb).2.2 (hcell b hb).2.1
  case saved =>
    exact registered_all (fun item => item.orig_instructions =
      bytesAt m₀ (CLEAR_BIT0 item.target_addr)
      (windowLength item.target_addr)) h.saved (h.window (fun b hb => (hwindow b hb).1) hother)
  case hooked =>
    refine registered_all (fun item => item.status = .HOOKED → ∀ m, ∀ b, Patched item b →
      (registered p t new proto_addr page).mem b =
        put m (CLEAR_BIT0 item.target_addr) (patch item.target_addr item.new_addr) b) ?_ nofun
    intro i hi hstatus m b hb
    rw [hcode (h.windows i hi b hb.window).1]
    exact h.hooked i hi hstatus m b hb
  case plain =>
    intro b hb hnot
    rw [hcode hb]
    refine h.plain b hb fun i hi hstatus => ?_
    have hitem := hnot i (Nat.lt_succ_of_lt hi)
    rw [registered_item, if_neg (by omega)] at hitem
    exact hitem hstatus
  case standing =>
    refine registered_all (Standing pool m₀ (registered p t new proto_addr page).mem) ?_ hstands
    exact fun i hi => (h.standing i hi).congr fun b hb => hmem fun hb' =>
      ((hpage b hb').2 i hi).1 hb

theorem doInlineHook_mem {i : Nat} {b : Word} (h : ¬ Cell (p.item i) b) :
    (doInlineHook p i).mem b =
      put p.mem (CLEAR_BIT0 (p.item i).target_addr)
      (patch (p.item i).target_addr (p.item i).new_addr) b := by
  change ((p.item i).proto_addr.elim _ _ : Memory) b = _
  cases hproto : (p.item i).proto_addr with
  | none => rfl
  | some cell => exact ArmMachine.put_outside _ fun hin => h ⟨cell, hproto, hin⟩

theorem Kept.hook (h : Kept code pool m₀ p) {i : Nat} (hi : i < p.size) :
    Kept code pool m₀ (doInlineHook p i) := by
  have hcell {b : Word} (hb : code b) : ¬ Cell (p.item i) b := fun hc => (h.cells i hi b hc).1 hb
  have helse {b : Word} (hb : ¬ Cell (p.item i) b) (hb' : ¬ Patched (p.item i) b) :
      (doInlineHook p i).mem b = p.mem b := by
    rw [doInlineHook_mem hb]
    exact ArmMachine.put_outside _ hb'
  have hstatus {j : Nat} (hne : j ≠ i) : (doInlineHook p i).item j = p.item j := if_neg hne
  have hsame (j : Nat) : ((doInlineHook p i).item j).target_addr = (p.item j).target_addr ∧
      ((doInlineHook p i).item j).new_addr = (p.item j).new_addr ∧
      ((doInlineHook p i).item j).orig_instructions = (p.item j).orig_instructions ∧
      ((doInlineHook p i).item j).trampoline_instructions = (p.item j).trampoline_instructions ∧
      ((doInlineHook p i).item j).proto_addr = (p.item j).proto_addr := by
    rw [doInlineHook_same p i j]
    exact ⟨rfl, rfl, rfl, rfl, rfl⟩
  constructor
  · intro j hj
    rw [(hsame j).1]
    exact h.windows j hj
  · intro j hj k hk
    rw [(hsame j).1, (hsame k).1]
    exact h.apart j hj k hk
  · intro j hj
    simp only [Page, (hsame j).2.2.2.1]
    exact h.pages j hj
  · intro j hj k hk
    simp only [Page, (hsame j).2.2.2.1, (hsame k).2.2.2.1]
    exact h.pagesApart j hj k hk
  · intro j hj
    simp only [Page, Cell, (hsame _).2.2.2.1, (hsame j).2.2.2.2]
    exact h.cells j hj
  · intro j hj
    rw [(hsame j).1, (hsame j).2.2.1]
    exact h.saved j hj
  · intro j hj hhooked m b hb
    have hpatched : Patched (p.item j) b := by
      simpa only [Patched, (hsame j).1, (hsame j).2.1] using hb
    simp only [Patched, (hsame j).1, (hsame j).2.1] at hb ⊢
    have hcode := (h.windows j hj b hpatched.window).1
    by_cases hne : j = i
    · subst hne
      rw [doInlineHook_mem (hcell hcode)]
      exact ArmMachine.put_inside _ _ hb
    · rw [hstatus hne] at hhooked
      rw [helse (hcell hcode) fun hother => h.apart j hj i hi hne b hpatched.window hother.window]
      exact h.hooked j hj hhooked m b hb
  · intro b hb hnot
    have hnew : ((doInlineHook p i).item i).status = .HOOKED := by
      rw [doInlineHook_item, if_pos rfl]
    have hb' : ¬ Patched (p.item i) b := by
      have := hnot i hi hnew
      simpa only [Patched, (hsame i).1, (hsame i).2.1] using this
    rw [helse (hcell hb) hb']
    refine h.plain b hb fun j hj hhooked => ?_
    by_cases hne : j = i
    · rwa [hne]
    · have := hnot j hj (by rwa [hstatus hne])
      rwa [hstatus hne] at this
  · intro j hj
    have hstanding := (h.standing j hj).congr fun b hb =>
      show (doInlineHook p i).mem b = p.mem b from
        helse (fun hc => (h.cells i hi b hc).2 j hj hb) fun hpatched =>
          h.pages j hj b hb (h.windows i hi b hpatched.window).1
    simpa only [Standing, (hsame j).1, (hsame j).2.2.1, (hsame j).2.2.2.1] using hstanding

theorem doInlineUnHook_mem (p : Process) (i : Nat) :
    (doInlineUnHook p i).mem = put p.mem (CLEAR_BIT0 (p.item i).target_addr)
    (p.item i).orig_instructions := rfl

theorem Kept.unHook (h : Kept code pool m₀ p) {i : Nat} (hi : i < p.size) :
    Kept code pool m₀ (doInlineUnHook p i) := by
  have hlt {k : Nat} (hk : k < (doInlineUnHook p i).size) : moved p.size i k < p.size :=
    (moved_lt hi hk).1
  have hne {k : Nat} (hk : k < (doInlineUnHook p i).size) : moved p.size i k ≠ i :=
    (moved_lt hi hk).2
  have hdistinct {j k : Nat} (hj : j < (doInlineUnHook p i).size)
      (hk : k < (doInlineUnHook p i).size) (hjk : j ≠ k) :
      moved p.size i j ≠ moved p.size i k := fun heq => hjk (moved_inj hj hk heq)
  have helse {b : Word} (hb : ¬ Window (p.item i).target_addr b) :
      (doInlineUnHook p i).mem b = p.mem b := by
    rw [doInlineUnHook_mem, ArmMachine.put_outside]
    rw [h.saved i hi, ArmMachine.length_bytesAt]
    exact hb
  constructor
  · intro j hj
    rw [doInlineUnHook_item]
    exact h.windows _ (hlt hj)
  · intro j hj k hk hjk
    rw [doInlineUnHook_item, doInlineUnHook_item]
    exact h.apart _ (hlt hj) _ (hlt hk) (hdistinct hj hk hjk)
  · intro j hj
    rw [doInlineUnHook_item]
    exact h.pages _ (hlt hj)
  · intro j hj k hk hjk
    rw [doInlineUnHook_item, doInlineUnHook_item]
    exact h.pagesApart _ (hlt hj) _ (hlt hk) (hdistinct hj hk hjk)
  · intro j hj b hb
    rw [doInlineUnHook_item] at hb
    refine ⟨(h.cells _ (hlt hj) b hb).1, fun k hk => ?_⟩
    rw [doInlineUnHook_item]
    exact (h.cells _ (hlt hj) b hb).2 _ (hlt hk)
  · intro j hj
    rw [doInlineUnHook_item]
    exact h.saved _ (hlt hj)
  · intro j hj hhooked m b hb
    rw [doInlineUnHook_item] at hhooked hb ⊢
    rw [helse (h.apart _ (hlt hj) i hi (hne hj) b hb.window)]
    exact h.hooked _ (hlt hj) hhooked m b hb
  · intro b hb hnot
    by_cases hwindow : Window (p.item i).target_addr b
    · have hput : (doInlineUnHook p i).mem b =
          put m₀ (CLEAR_BIT0 (p.item i).target_addr) (p.item i).orig_instructions b := by
        refine ArmMachine.put_inside _ _ ?_
        rw [h.saved i hi, ArmMachine.length_bytesAt]
        exact hwindow
      rw [hput, h.saved i hi, ArmMachine.put_bytesAt]
    · rw [helse hwindow]
      refine h.plain b hb fun j hj hhooked => ?_
      by_cases hji : j = i
      · rw [hji]
        exact fun hpatched => hwindow hpatched.window
      · obtain ⟨k, hk, rfl⟩ := moved_surj hi hj hji
        have := hnot k hk
        rw [doInlineUnHook_item] at this
        exact this hhooked
  · intro j hj
    rw [doInlineUnHook_item]
    exact (h.standing _ (hlt hj)).congr fun b hb =>
      helse fun hwindow => h.pages _ (hlt hj) b hb (h.windows i hi b hwindow).1

theorem Kept.turn (hpool : ∀ b, pool b → code b) (h : Kept code pool m₀ p)
    (hturn : Turn (Admissible code pool) p p') :
    Kept code pool m₀ p' := by
  cases hturn with
  | freeze items action => exact h.freeze items action
  | other hmay => exact h.other hmay
  | register hmay hnew _ _ => exact h.register hpool hmay hnew
  | hook hi _ => exact h.hook hi
  | unHook _ hi _ => exact h.unHook hi

theorem kept_start (m₀ : Memory) (threads : List Word) (maps : List Mapping) :
    Kept code pool m₀ (.start m₀ threads maps) := by
  constructor
  · exact fun i hi => absurd hi (Nat.not_lt_zero i)
  · exact fun i hi => absurd hi (Nat.not_lt_zero i)
  · exact fun i hi => absurd hi (Nat.not_lt_zero i)
  · exact fun i hi => absurd hi (Nat.not_lt_zero i)
  · exact fun i hi => absurd hi (Nat.not_lt_zero i)
  · exact fun i hi => absurd hi (Nat.not_lt_zero i)
  · exact fun i hi => absurd hi (Nat.not_lt_zero i)
  · exact fun b _ _ => rfl
  · exact fun i hi => absurd hi (Nat.not_lt_zero i)

theorem kept_reachable (hpool : ∀ b, pool b → code b) {threads : List Word} {maps : List Mapping}
    (h : Reachable (Admissible code pool) (.start m₀ threads maps) p) : Kept code pool m₀ p :=
  h.invariant (fun _ _ hq hturn => hq.turn hpool hturn) (kept_start m₀ threads maps)

end Kept

section UnHookAll

variable {code pool : Word → Prop} {m₀ : Memory} {p : Process}

/-- Behind the loop no item is hooked. -/
theorem unHookLoop_registered {fuel i : Nat} (hfuel : p.size ≤ fuel + i)
    (hbefore : ∀ j < i, j < p.size → (p.item j).status = .REGISTERED) :
    ∀ j < (unHookLoop fuel i p).size, ((unHookLoop fuel i p).item j).status = .REGISTERED := by
  induction fuel generalizing i p with
  | zero => exact fun j hj => hbefore j (by change j < p.size at hj; omega) hj
  | succ fuel ih =>
    rw [unHookLoop]
    split_ifs with hi hstatus
    · refine ih ?_ fun j hj hsize => ?_
      · rw [doInlineUnHook_size]
        omega
      · rw [doInlineUnHook_item, moved, if_neg (by omega)]
        exact hbefore j hj (Nat.lt_of_lt_of_le hsize (Nat.sub_le p.size 1))
    · refine ih (by omega) fun j hj hsize => ?_
      obtain hj | rfl := Nat.lt_succ_iff_lt_or_eq.mp hj
      · exact hbefore j hj hsize
      · cases hs : (p.item j).status with
        | REGISTERED => rfl
        | HOOKED => exact absurd hs hstatus
    · exact fun j hj => hbefore j (by omega) hj

theorem Kept.turns (hpool : ∀ b, pool b → code b) {p' : Process} (h : Kept code pool m₀ p)
    (hturns : Turns (Admissible code pool) p p') : Kept code pool m₀ p' := by
  induction hturns with
  | refl => exact h
  | tail _ hturn ih => exact ih.turn hpool hturn

/-- After every sequence of calls, the code is as it was in the beginning but for
what stands over the targets of hooked items, and `inlineUnHookAll` brings all
of it back. -/
theorem code_reachable (hpool : ∀ b, pool b → code b) {threads : List Word} {maps : List Mapping}
    (h : Reachable (Admissible code pool) (.start m₀ threads maps) p) :
    (∀ b, code b → (∀ i < p.size, (p.item i).status = .HOOKED → ¬ Patched (p.item i) b) →
      p.mem b = m₀ b) ∧
      (∀ i < p.size, (p.item i).status = .HOOKED → ∀ m b, Patched (p.item i) b →
        p.mem b = put m (CLEAR_BIT0 (p.item i).target_addr)
        (patch (p.item i).target_addr (p.item i).new_addr) b) ∧
      (∀ b, code b → (inlineUnHookAll p).mem b = m₀ b) ∧
      ∀ i < (inlineUnHookAll p).size, ((inlineUnHookAll p).item i).status = .REGISTERED := by
  have hkept := kept_reachable hpool h
  have hturns : Turns (Admissible code pool) (freeze p p.live .ACTION_DISABLE)
      (inlineUnHookAll p) :=
    unHookLoop_turns ⟨p, .inl trivial⟩ ..
  have hend := (hkept.freeze p.live .ACTION_DISABLE).turns hpool hturns
  have hregistered : ∀ i < (inlineUnHookAll p).size,
      ((inlineUnHookAll p).item i).status = .REGISTERED :=
    unHookLoop_registered (p := freeze p p.live .ACTION_DISABLE) (Nat.le_refl _) fun j hj =>
      absurd hj (Nat.not_lt_zero j)
  refine ⟨hkept.plain, hkept.hooked, fun b hb =>
    hend.plain b hb fun i hi hhooked => ?_, hregistered⟩
  rw [hregistered i hi] at hhooked
  cases hhooked

end UnHookAll

/-- The code of the sample process, and a pool in it. -/
def sampleCode (b : Word) : Prop := b < 0x1000

def samplePool (b : Word) : Prop := 0x800 ≤ b ∧ b < 0x900

def sampleHooked (w t : Word) : Process := (inlineHook (sampleRegistered w t) t).2

theorem sample_admissible {w t : Word} (ht : t = 0x100 ∨ t = 0x101) :
    Admissible sampleCode samplePool (sample w) (.registerInlineHook t 0x200 none 0x1000) := by
  have hnone (q : Nat → Prop) (i : Nat) (hi : i < (sample w).size) : q i :=
    absurd hi (Nat.not_lt_zero i)
  refine ⟨fun b hb => ?_, hnone _, fun b hb => ⟨?_, hnone _⟩, fun b hb => ?_⟩
  · rw [sampleCode, samplePool]
    have hinside : Inside 0x100 12 b := by
      obtain rfl | rfl := ht
      · exact hb.mono (by decide)
      · exact hb
    rw [Inside] at hinside
    bv_omega
  · rw [sampleCode]
    have hinside : Inside 0x1000 4096 b := hb
    rw [Inside] at hinside
    bv_omega
  · obtain ⟨cell, hcell, -⟩ := hb
    cases hcell

theorem samplePool_code (b : Word) (h : samplePool b) : sampleCode b := by
  rw [samplePool] at h
  rw [sampleCode]
  bv_omega

theorem sampleHooked_reachable {w t : Word} (ht : t = 0x100 ∨ t = 0x101)
    (hfits : (newItem (sample w) t 0x200 none 0x1000).boundaries.length ≤ 4) :
    Reachable (Admissible sampleCode samplePool) (sample w) (sampleHooked w t) := by
  refine .tail (sample_reachable (sample_admissible ht) ?_ hfits) ⟨.inlineHook t, trivial, rfl⟩
  obtain rfl | rfl := ht <;> decide

theorem code_reachable_hooked :
    (∀ b, sampleCode b → (∀ i < (sampleHooked 0xEAFFFFFE 0x100).size,
        ((sampleHooked 0xEAFFFFFE 0x100).item i).status = .HOOKED →
        ¬ Patched ((sampleHooked 0xEAFFFFFE 0x100).item i) b) →
      (sampleHooked 0xEAFFFFFE 0x100).mem b = (sample 0xEAFFFFFE).mem b) ∧
      ∀ b, sampleCode b → (inlineUnHookAll (sampleHooked 0xEAFFFFFE 0x100)).mem b =
        (sample 0xEAFFFFFE).mem b := by
  have hreachable := sampleHooked_reachable (w := 0xEAFFFFFE) (t := 0x100) (.inl rfl) (by decide)
  obtain ⟨hplain, -, hback, -⟩ := code_reachable samplePool_code hreachable
  exact ⟨hplain, hback⟩

end InlineHook
