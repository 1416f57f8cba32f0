import AndroidWork.GifRunsEnd

/-!
# Image data that are read to their end

What a turn of the decoding loop needs: a whole block where it asks for one, and
a word for the code that it looks up. The data are decoded, and leave no format
error, if and only if every turn has what it needs.
-/
namespace GifLzwDecoder

def InTable (c : Int) : Prop := 0 ≤ c ∧ c < maxStackSize

instance (c : Int) : Decidable (InTable c) := inferInstanceAs (Decidable (_ ∧ _))

/-- From code `c` on the parents lead inside the tables to a code that is no
string, with at most this number of strings on the way. -/
def Leads (clear : Int) (prefixes : Int → Int) : Nat → Int → Prop
  | 0, c => InTable c ∧ c ≤ clear
  | slots + 1, c => InTable c ∧ (c ≤ clear ∨ Leads clear prefixes slots (prefixes c))

instance decidableLeads (clear : Int) (prefixes : Int → Int) :
    ∀ slots c, Decidable (Leads clear prefixes slots c)
  | 0, _ => inferInstanceAs (Decidable (_ ∧ _))
  | slots + 1, c =>
    have := decidableLeads clear prefixes slots (prefixes c)
    inferInstanceAs (Decidable (_ ∧ (_ ∨ _)))

/-- The code has a word that fits on the empty stack, below the symbol that a code
equal to `available` puts there. -/
def HasWord (k : Params) (code : Int) (s : Decoder) : Prop :=
  if code = s.available then Leads k.clear s.prefixes 4095 s.oldCode
    else Leads k.clear s.prefixes 4096 code

/-- The next block is there as a whole. At its end a stream has an empty one. -/
def Reader.HasBlock (r : Reader) : Prop :=
  match r.bytes with
  | [] => r.source = .stream
  | size :: bytes => size.toNat ≤ bytes.length

/-- The turn has what it needs. -/
structure Provided (k : Params) (s : Decoder) : Prop where
  block : Asks s → s.block = [] → s.reader.HasBlock
  first : TakesCode k s → s.oldCode = nullCode → InTable (nextCode s)
  word : TakesCode k s → s.oldCode ≠ nullCode → HasWord k (nextCode s) s

section

variable {clear : Int} {prefixes : Int → Int} {suffixes : Int → Byte} {k : Params} {s t : Decoder}

theorem suffixAt_outside {i : Int} (h : ¬ InTable i) : suffixAt suffixes i = .error .suffixIndex :=
  if_neg h

theorem unwind_root {slots : Nat} {c : Int} (h : c ≤ clear) (stack : List Byte) :
    unwind clear prefixes suffixes slots c stack = .ok (c, stack) := by
  cases slots with
  | zero => rw [unwind, if_neg h.not_gt]
  | succ slots => rw [unwind, if_neg h.not_gt]

theorem unwind_string {slots : Nat} {c : Int} (h : clear < c) (hin : InTable c)
    (stack : List Byte) :
    unwind clear prefixes suffixes (slots + 1) c stack =
      unwind clear prefixes suffixes slots (prefixes c) (suffixes c :: stack) := by
  rw [unwind, if_pos h, suffixAt_ok suffixes hin.1 hin.2, prefixAt_ok prefixes hin.1 hin.2]

theorem unwind_outside {slots : Nat} {c : Int} (h : clear < c) (hout : ¬ InTable c)
    (stack : List Byte) :
    ∃ e, unwind clear prefixes suffixes slots c stack = .error e := by
  cases slots with
  | zero => exact ⟨_, by rw [unwind, if_pos h]⟩
  | succ slots => exact ⟨_, by rw [unwind, if_pos h, suffixAt_outside hout]⟩

/-- Parents that lead to a root leave a slot for its symbol. -/
theorem unwind_of_leads {slots : Nat} {c : Int} (h : Leads clear prefixes slots c)
    (stack : List Byte) :
    ∃ root w, unwind clear prefixes suffixes (slots + 1) c stack = .ok (root, w) ∧ InTable root ∧
      w.length ≤ stack.length + slots := by
  induction slots generalizing c stack with
  | zero => exact ⟨c, stack, unwind_root h.2 stack, h.1, Nat.le_refl _⟩
  | succ slots ih =>
    obtain ⟨hin, hroot | hparent⟩ := h
    · exact ⟨c, stack, unwind_root hroot stack, hin, Nat.le_add_right _ _⟩
    · by_cases hroot : c ≤ clear
      · exact ⟨c, stack, unwind_root hroot stack, hin, Nat.le_add_right _ _⟩
      · obtain ⟨root, w, hunwind, hrootin, hle⟩ := ih hparent (suffixes c :: stack)
        refine ⟨root, w, ?_, hrootin, ?_⟩
        · rw [unwind_string (by omega) hin, hunwind]
        · rw [List.length_cons] at hle
          omega

/-- A root that is found with a slot left for its symbol is one that the parents lead to. -/
theorem leads_of_unwind {slots : Nat} {c root : Int} {stack w : List Byte}
    (h : unwind clear prefixes suffixes (slots + 1) c stack = .ok (root, w)) (hroot : InTable root)
    (hle : w.length ≤ stack.length + slots) : Leads clear prefixes slots c := by
  induction slots generalizing c stack with
  | zero =>
    by_cases hc : c ≤ clear
    · rw [unwind_root hc] at h
      cases h
      exact ⟨hroot, hc⟩
    · by_cases hin : InTable c
      · rw [unwind_string (by omega) hin, unwind] at h
        split at h
        · cases h
        · cases h
          rw [List.length_cons] at hle
          omega
      · obtain ⟨e, he⟩ : ∃ e, unwind clear prefixes suffixes 1 c stack = .error e :=
          unwind_outside (lt_of_not_ge hc) hin stack
        rw [he] at h
        cases h
  | succ slots ih =>
    by_cases hc : c ≤ clear
    · rw [unwind_root hc] at h
      cases h
      exact ⟨hroot, .inl hc⟩
    · by_cases hin : InTable c
      · rw [unwind_string (by omega) hin] at h
        refine ⟨hin, .inr (ih h ?_)⟩
        rw [List.length_cons]
        omega
      · obtain ⟨e, he⟩ : ∃ e, unwind clear prefixes suffixes (slots + 2) c stack = .error e :=
          unwind_outside (lt_of_not_ge hc) hin stack
        rw [he] at h
        cases h

/-- What is behind the beginning of a word. -/
theorem interpret_started {code c : Int} {stack : List Byte} {slots : Nat}
    (hstart : startWord code s = .ok (c, stack))
    (hslots : stack.length + slots = 4096) (havail : 0 ≤ s.available) :
    (∃ t, interpret k code s = .ok t) ↔ Leads k.clear s.prefixes slots c := by
  have hfree : freeSlots stack = slots + 1 := by
    simp only [freeSlots, maxStackSize]
    omega
  rw [interpret, hstart, ok_bind]
  simp only [hfree]
  constructor
  · rintro ⟨t, h⟩
    obtain ⟨⟨root, w⟩, hunwind, h⟩ := eq_ok_of_bind h
    obtain ⟨b, hb, h⟩ := eq_ok_of_bind h
    obtain ⟨w', hpush, -⟩ := eq_ok_of_bind h
    refine leads_of_unwind hunwind ?_ ?_
    · by_contra hout
      rw [suffixAt_outside hout] at hb
      cases hb
    · by_contra hlong
      rw [push, if_neg (by simp only [maxStackSize]; omega)] at hpush
      cases hpush
  · intro h
    obtain ⟨root, w, hunwind, hroot, hle⟩ :=
      @unwind_of_leads k.clear s.prefixes s.suffixes slots c h stack
    have hadd :=
      addString_ok (s.setWord (s.suffixes root).toNat
        (BitVec.ofInt 8 ((s.suffixes root).toNat : Int) :: w)) havail
    rw [hunwind, ok_bind]
    simp only
    rw [suffixAt_ok _ hroot.1 hroot.2, ok_bind,
      push_ok _ (by simp only [maxStackSize]; omega), ok_bind, hadd]
    exact ⟨_, rfl⟩

/-- A code is interpreted if and only if it has a word. -/
theorem interpret_ok_iff {code : Int} (hstack : s.stack = []) (havail : 0 ≤ s.available) :
    (∃ t, interpret k code s = .ok t) ↔ HasWord k code s := by
  rw [HasWord]
  split
  · rename_i heq
    have hstart : startWord code s = .ok (s.oldCode, [BitVec.ofInt 8 s.first]) := by
      rw [startWord, if_pos heq, hstack, push_ok _ (by simp [maxStackSize])]
      rfl
    exact interpret_started hstart rfl havail
  · rename_i hne
    have hstart : startWord code s = .ok (code, []) := by rw [startWord, if_neg hne, hstack]
    exact interpret_started hstart rfl havail

end

section

variable {k : Params} {s t u : Decoder}

/-- What holds at the head of every turn, whatever the codes are. -/
structure Going (k : Params) (s : Decoder) : Prop where
  available : k.clear + 2 ≤ s.available
  pi : 0 ≤ s.pi

/-- The roots fit into the tables, or the decoder stops at the first code. -/
def Underway (k : Params) (s : Decoder) : Prop := Fits k ∧ Going k s ∨ Idle k s

theorem Kept.underway (h : Kept k s) : Underway k s :=
  h.imp_left fun h => ⟨h.1, h.2.available, h.2.pi⟩

theorem Idle.not_takesCode (h : Idle k s) : ¬ TakesCode k s := by
  intro htakes
  have hle := htakes.2.2.1
  have hneg := h.neg
  rw [h.nextCode] at hle
  omega

theorem popPixel_ok_iff (h : s.stack ≠ []) (h0 : 0 ≤ s.pi) (hpi : s.pi < k.pixelsLength) :
    ∃ t, popPixel k s = .ok t := by
  obtain ⟨b, stack, hstack⟩ := List.exists_cons_of_ne_nil h
  exact ⟨_, popPixel_ok hstack h0 hpi⟩

theorem interpret_stack {code : Int} (h : interpret k code s = .ok t) : t.stack ≠ [] := by
  rw [interpret] at h
  obtain ⟨⟨c, stack⟩, -, h⟩ := eq_ok_of_bind h
  obtain ⟨⟨root, w⟩, -, h⟩ := eq_ok_of_bind h
  obtain ⟨b, -, h⟩ := eq_ok_of_bind h
  obtain ⟨w', hpush, h⟩ := eq_ok_of_bind h
  obtain ⟨u, hadd, h⟩ := eq_ok_of_bind h
  rw [push] at hpush
  split at hpush
  · cases hpush
    rw [addString] at hadd
    split at hadd
    · split at hadd
      · cases hadd
        cases h
        exact List.cons_ne_nil _ _
      · cases hadd
    · cases hadd
      cases h
      exact List.cons_ne_nil _ _
  · cases hpush

theorem addString_available (h : addString s = .ok t) : s.available ≤ t.available := by
  rw [addString] at h
  split at h
  · split at h
    · cases h
      exact Int.le_add_one (Int.le_refl _)
    · cases h
  · cases h
    exact Int.le_refl _

/-- A code that follows another one is taken if and only if it has a word. -/
theorem turn_code_ok_iff (hk : Fits k) (hs : Going k s) (hpi : s.pi < k.npix)
    (htakes : TakesCode k s) (hold : s.oldCode ≠ nullCode) :
    (∃ p, turn k s = .ok p) ↔ HasWord k (nextCode s) s := by
  have havail : 0 ≤ (dropCode s).available := by
    have := hs.available
    have := hk.pos
    show 0 ≤ s.available
    omega
  have hiff : (∃ t, interpret k (nextCode s) (dropCode s) = .ok t) ↔ HasWord k (nextCode s) s :=
    interpret_ok_iff htakes.1 havail
  rw [← hiff, turn_code htakes hold]
  constructor
  · rintro ⟨p, h⟩
    obtain ⟨t, ht, -⟩ := eq_ok_of_bind h
    exact ⟨t, ht⟩
  · rintro ⟨t, ht⟩
    have hpi' : t.pi = s.pi := (interpret_pi ht).1
    obtain ⟨u, hu⟩ := popPixel_ok_iff (k := k) (interpret_stack ht) (hpi' ▸ hs.pi)
      (hpi' ▸ hpi.trans_le hk.npix)
    rw [ht, ok_bind, hu]
    exact ⟨_, rfl⟩

/-- A turn throws nothing if and only if the code it takes, if it takes one, has a word. -/
theorem turn_ok_iff (h : Underway k s) (hpi : s.pi < k.npix) : (∃ p, turn k s = .ok p) ↔
    (TakesCode k s → s.oldCode = nullCode → InTable (nextCode s)) ∧
      (TakesCode k s → s.oldCode ≠ nullCode → HasWord k (nextCode s) s) := by
  by_cases htakes : TakesCode k s
  · obtain ⟨hk, hs⟩ | hidle := h
    · by_cases hold : s.oldCode = nullCode
      · simp only [htakes, hold, ne_eq, not_true_eq_false, false_imp_iff, and_true, forall_const,
          turn_first htakes hold]
        constructor
        · rintro ⟨p, hp⟩
          by_contra hout
          rw [suffixAt_outside hout] at hp
          cases hp
        · intro hin
          rw [suffixAt_ok _ hin.1 hin.2]
          exact ⟨_, rfl⟩
      · simp only [htakes, hold, ne_eq, not_false_eq_true, false_imp_iff, forall_const, true_and]
        exact turn_code_ok_iff hk hs hpi htakes hold
    · exact absurd htakes hidle.not_takesCode
  · simp only [htakes, false_imp_iff, and_self, iff_true]
    obtain hpop | ⟨hstack, hbits⟩ | ⟨hstack, hbits, hstop⟩ | ⟨hstack, hbits, hle, hne, hclear⟩
        | htakes' := turn_cases k s
    · obtain ⟨hk, hs⟩ | hidle := h
      · obtain ⟨t, ht⟩ := popPixel_ok_iff hpop hs.pi (hpi.trans_le hk.npix)
        rw [turn, if_neg hpop, ht]
        exact ⟨_, rfl⟩
      · exact absurd hidle.stack hpop
    · exact ⟨_, turn_load hstack hbits⟩
    · exact ⟨_, turn_stop hstack hbits hstop⟩
    · exact ⟨_, turn_clear hstack hbits hle hne hclear⟩
    · exact absurd htakes' htakes

theorem interpret_available {code : Int} (h : interpret k code s = .ok t) :
    s.available ≤ t.available := by
  obtain ⟨b, w, u, hu, rfl⟩ := interpret_ok h
  have hle : (s.setWord b.toNat w).available ≤ u.available := addString_available hu
  exact hle

theorem popPixel_available (h : popPixel k s = .ok t) : t.available = s.available :=
  (popPixel_prefixes h).2

theorem Going.turn (hs : Going k s) (h : turn k s = .ok (true, t)) : Going k t := by
  obtain hpop | ⟨hstack, hbits⟩ | ⟨hstack, hbits, hstop⟩ | ⟨hstack, hbits, hle, hne, hclear⟩
      | htakes := turn_cases k s
  · rw [GifLzwDecoder.turn, if_neg hpop] at h
    obtain ⟨u, hu, h⟩ := eq_ok_of_bind h
    cases h
    exact ⟨popPixel_available hu ▸ hs.available,
      by rw [(popPixel_pi hu).1]; exact Int.le_add_one hs.pi⟩
  · rw [turn_load hstack hbits] at h
    obtain ⟨r, block, b, rfl, -⟩ := loadByte_true (Except.ok.inj h)
    exact ⟨hs.available, hs.pi⟩
  · rw [turn_stop hstack hbits hstop] at h
    cases h
  · rw [turn_clear hstack hbits hle hne hclear] at h
    cases h
    exact ⟨Int.le_refl _, hs.pi⟩
  · by_cases hold : s.oldCode = nullCode
    · rw [turn_first htakes hold] at h
      obtain ⟨b, -, h⟩ := eq_ok_of_bind h
      cases h
      exact ⟨hs.available, hs.pi⟩
    · rw [turn_code htakes hold] at h
      obtain ⟨u, hu, h⟩ := eq_ok_of_bind h
      obtain ⟨v, hv, h⟩ := eq_ok_of_bind h
      cases h
      have havail : (dropCode s).available ≤ u.available := interpret_available hu
      have hpi : u.pi = s.pi := (interpret_pi hu).1
      exact ⟨popPixel_available hv ▸ hs.available.trans havail,
        by rw [(popPixel_pi hv).1, hpi]; exact Int.le_add_one hs.pi⟩

theorem Underway.turn (hs : Underway k s) (h : turn k s = .ok (true, t)) : Underway k t := by
  obtain ⟨hk, hs⟩ | hidle := hs
  · exact .inl ⟨hk, hs.turn h⟩
  · obtain ⟨go, t', hturn, hgo⟩ := turn_idle hidle
    cases hturn.symm.trans h
    exact .inr (hgo rfl).1

theorem readBlock_error_iff (r : Reader) (h : r.formatError = false) :
    r.readBlock.2.formatError = false ↔ r.HasBlock := by
  obtain ⟨source, bytes, formatError⟩ := r
  subst h
  cases bytes with
  | nil => cases source <;> simp [Reader.readBlock, Reader.read, Reader.HasBlock]
  | cons size bytes =>
    rw [Reader.readBlock, Reader.HasBlock]
    simp only [Reader.read]
    by_cases hsize : 0 < (size.toNat : Int)
    · simp only [hsize, if_true]
      cases source with
      | stream => simp
      | rawData =>
        by_cases hle : size.toNat ≤ bytes.length
        · simp [hle]
        · simp [hle]
    · have hzero : size.toNat = 0 := by omega
      simp [hzero]

theorem read_formatError {r : Reader} (h : r.formatError = true) : r.read.2.formatError = true := by
  rw [Reader.read]
  split
  · split
    · exact h
    · rfl
  · exact h

theorem readBlock_formatError {r : Reader} (h : r.formatError = true) :
    r.readBlock.2.formatError = true := by
  have hread := read_formatError h
  rw [Reader.readBlock]
  split
  · split
    · simp [hread]
    · split
      · exact hread
      · rfl
  · exact hread

theorem loadByte_reader (s : Decoder) :
    (loadByte s).2.reader = if s.block = [] then s.reader.readBlock.2 else s.reader := by
  rw [loadByte]
  by_cases hblock : s.block = []
  · simp only [hblock, if_true]
    cases s.reader.readBlock.1 <;> rfl
  · simp only [hblock, if_false]
    obtain ⟨b, block, hcons⟩ := List.exists_cons_of_ne_nil hblock
    simp only [hcons]
    rfl

/-- A turn leaves no format error if and only if the block that it asks for is whole. -/
theorem turn_formatError_iff {go : Bool} (h : turn k s = .ok (go, t))
    (herror : s.reader.formatError = false) :
    t.reader.formatError = false ↔ (Asks s → s.block = [] → s.reader.HasBlock) := by
  by_cases hasks : Asks s
  · rw [turn_load hasks.1 hasks.2] at h
    have hreader : t.reader = (loadByte s).2.reader := by rw [Except.ok.inj h]
    rw [hreader, loadByte_reader]
    split
    · rename_i hblock
      simp only [hasks, hblock, forall_const, readBlock_error_iff _ herror]
    · rename_i hblock
      simp only [herror, hblock, false_imp_iff, implies_true]
  · rw [(turn_input hasks h).1]
    simp only [herror, hasks, false_imp_iff]

theorem turn_formatError {go : Bool} (h : turn k s = .ok (go, t))
    (herror : s.reader.formatError = true) :
    t.reader.formatError = true := by
  by_cases hasks : Asks s
  · rw [turn_load hasks.1 hasks.2] at h
    have hreader : t.reader = (loadByte s).2.reader := by rw [Except.ok.inj h]
    rw [hreader, loadByte_reader]
    split
    · exact readBlock_formatError herror
    · exact herror
  · rw [(turn_input hasks h).1]
    exact herror

theorem reached_head (h : Reached k s u) : u = s ∨ s.pi < k.npix ∧ ∃ t, turn k s = .ok (true, t) ∧
    Reached k t u := by
  induction h with
  | start => exact .inl rfl
  | @turn u v h hpi hturn ih =>
    obtain rfl | ⟨hpi', t, ht, hreached⟩ := ih
    · exact .inr ⟨hpi, v, hturn, .start⟩
    · exact .inr ⟨hpi', t, ht, hreached.turn hpi hturn⟩

theorem loop_formatError {turns : Nat} (h : loop k turns s = .ok (some t))
    (herror : s.reader.formatError = true) :
    t.reader.formatError = true := by
  induction turns generalizing s with
  | zero =>
    rw [loop] at h
    split at h
    · cases h
    · cases h
      exact herror
  | succ turns ih =>
    rw [loop] at h
    split at h
    · cases hturn : turn k s with
      | error e =>
        simp only [hturn] at h
        cases h
      | ok p =>
        obtain ⟨go, u⟩ := p
        simp only [hturn] at h
        cases go with
        | false =>
          cases h
          exact turn_formatError hturn herror
        | true => exact ih h (turn_formatError hturn herror)
    · cases h
      exact herror

theorem provided_iff (hs : Underway k s) (hpi : s.pi < k.npix)
    (herror : s.reader.formatError = false) :
    Provided k s ↔ ∃ go t, turn k s = .ok (go, t) ∧ t.reader.formatError = false := by
  constructor
  · intro h
    obtain ⟨⟨go, t⟩, hturn⟩ := (turn_ok_iff hs hpi).mpr ⟨h.first, h.word⟩
    exact ⟨go, t, hturn, (turn_formatError_iff hturn herror).mpr h.block⟩
  · rintro ⟨go, t, hturn, hnone⟩
    obtain ⟨hfirst, hword⟩ := (turn_ok_iff hs hpi).mp ⟨_, hturn⟩
    exact ⟨(turn_formatError_iff hturn herror).mp hnone, hfirst, hword⟩

theorem loop_throws {turns : Nat} {e : Fault} (hpi : s.pi < k.npix) (h : turn k s = .error e) :
    loop k (turns + 1) s = .error e := by
  rw [loop, if_pos hpi]
  simp only [h]

theorem loop_breaks {turns : Nat} (hpi : s.pi < k.npix) (h : turn k s = .ok (false, t)) :
    loop k (turns + 1) s = .ok (some t) := by
  rw [loop, if_pos hpi]
  simp only [h]

theorem loop_goes {turns : Nat} (hpi : s.pi < k.npix) (h : turn k s = .ok (true, t)) :
    loop k (turns + 1) s = loop k turns t := by
  rw [loop, if_pos hpi]
  simp only [h]

theorem provided_done (hpi : ¬ s.pi < k.npix) (hreached : Reached k s u) (hpi' : u.pi < k.npix) :
    Provided k u := by
  obtain rfl | ⟨hlt, -⟩ := reached_head hreached
  · exact absurd hpi' hpi
  · exact absurd hlt hpi

/-- The loop comes to its end without an exception and a format error if and only
if every turn has what it needs. -/
theorem loop_provided_iff {turns : Nat} (hs : Underway k s) (herror : s.reader.formatError = false)
    (hends : loop k turns s ≠ .ok none) :
    (∃ t, loop k turns s = .ok (some t) ∧ t.reader.formatError = false) ↔
      ∀ u, Reached k s u → u.pi < k.npix → Provided k u := by
  induction turns generalizing s with
  | zero =>
    by_cases hpi : s.pi < k.npix
    · rw [loop, if_pos hpi] at hends
      exact absurd rfl hends
    · exact iff_of_true ⟨s, loop_done hpi 0, herror⟩ fun u => provided_done hpi
  | succ turns ih =>
    by_cases hpi : s.pi < k.npix
    · have hfirst := provided_iff hs hpi herror
      cases hturn : turn k s with
      | error e =>
        rw [loop_throws hpi hturn]
        apply iff_of_false
        · rintro ⟨t, ht, -⟩
          cases ht
        · intro h
          obtain ⟨go, t, ht, -⟩ := hfirst.mp (h s .start hpi)
          cases hturn.symm.trans ht
      | ok p =>
        obtain ⟨go, t⟩ := p
        cases go with
        | false =>
          rw [loop_breaks hpi hturn]
          constructor
          · rintro ⟨t', ht', hnone⟩ u hreached hpi'
            cases ht'
            obtain rfl | ⟨-, v, hv, -⟩ := reached_head hreached
            · exact hfirst.mpr ⟨_, _, hturn, hnone⟩
            · cases hturn.symm.trans hv
          · intro h
            obtain ⟨go, t', ht', hnone⟩ := hfirst.mp (h s .start hpi)
            cases hturn.symm.trans ht'
            exact ⟨_, rfl, hnone⟩
        | true =>
          rw [loop_goes hpi hturn] at hends ⊢
          cases hnone : t.reader.formatError with
          | false =>
            rw [ih (hs.turn hturn) hnone hends]
            constructor
            · intro h u hreached hpi'
              obtain rfl | ⟨-, v, hv, hrest⟩ := reached_head hreached
              · exact hfirst.mpr ⟨_, _, hturn, hnone⟩
              · cases hturn.symm.trans hv
                exact h u hrest hpi'
            · exact fun h u hreached => h u ((Reached.start.turn hpi hturn).trans hreached)
          | true =>
            apply iff_of_false
            · rintro ⟨t', ht', hfalse⟩
              rw [loop_formatError ht' hnone] at hfalse
              cases hfalse
            · intro h
              obtain ⟨go, t', ht', hfalse⟩ := hfirst.mp (h s .start hpi)
              cases hturn.symm.trans ht'
              rw [hnone] at hfalse
              cases hfalse
    · exact iff_of_true ⟨s, loop_done hpi (turns + 1), herror⟩ fun u => provided_done hpi

/-- The loop that begins in `s` ends in `t`: with the last pixel, or at its `break`. -/
def LeftAs (k : Params) (s t : Decoder) : Prop :=
  Reached k s t ∧ ¬ t.pi < k.npix ∨ ∃ u, Reached k s u ∧ u.pi < k.npix ∧ turn k u = .ok (false, t)

theorem leftAs_of_loop {turns : Nat} (h : loop k turns s = .ok (some t)) : LeftAs k s t := by
  induction turns generalizing s with
  | zero =>
    rw [loop] at h
    split at h
    · cases h
    · rename_i hpi
      cases h
      exact .inl ⟨.start, hpi⟩
  | succ turns ih =>
    by_cases hpi : s.pi < k.npix
    · cases hturn : turn k s with
      | error e =>
        rw [loop_throws hpi hturn] at h
        cases h
      | ok p =>
        obtain ⟨go, u⟩ := p
        cases go with
        | false =>
          rw [loop_breaks hpi hturn] at h
          cases h
          exact .inr ⟨s, .start, hpi, hturn⟩
        | true =>
          rw [loop_goes hpi hturn] at h
          have hfirst : Reached k s u := Reached.start.turn hpi hturn
          obtain ⟨hreached, hdone⟩ | ⟨v, hreached, hpi', hbreak⟩ := ih h
          · exact .inl ⟨hfirst.trans hreached, hdone⟩
          · exact .inr ⟨v, hfirst.trans hreached, hpi', hbreak⟩
    · rw [loop_done hpi] at h
      cases h
      exact .inl ⟨.start, hpi⟩

theorem LeftAs.loop (h : LeftAs k s t) : ∃ turns, GifLzwDecoder.loop k turns s = .ok (some t) := by
  obtain ⟨hreached, hdone⟩ | ⟨u, hreached, hpi, hbreak⟩ := h
  · obtain ⟨more, hmore⟩ := hreached.loop (loop_done hdone 0)
    exact ⟨_, hmore⟩
  · have hlast : GifLzwDecoder.loop k 1 u = .ok (some t) := loop_breaks hpi hbreak
    obtain ⟨more, hmore⟩ := hreached.loop hlast
    exact ⟨_, hmore⟩

/-- There is one such state at most. -/
theorem LeftAs.unique {turns : Nat} (h : LeftAs k s t)
    (hloop : GifLzwDecoder.loop k turns s = .ok (some u)) : t = u := by
  obtain ⟨turns', hloop'⟩ := h.loop
  have hmore := loop_more hloop turns'
  have hmore' := loop_more hloop' turns
  rw [Nat.add_comm] at hmore
  cases hmore.symm.trans hmore'
  rfl

/-- The data of an image can be decoded: there are arrays and a size byte for
them, and every turn of the loop has what it needs. -/
structure Readable (iw ih : Nat) (buf : Buffers) (r : Reader) : Prop where
  room : ¬ (buf.pixels = none ∧ npixOf iw ih < 0)
  size : r.bytes = [] → r.source = .stream
  roots : (shiftOne r.read.1).toInt ≤ maxStackSize
  turns : ∀ k s₀, start iw ih buf r = .ok (k, s₀) → ∀ s, Reached k s₀ s →
    s.pi < k.npix → Provided k s

theorem read_error_iff {r : Reader} (h : r.formatError = false) :
    r.read.2.formatError = false ↔ (r.bytes = [] → r.source = .stream) := by
  obtain ⟨source, bytes, formatError⟩ := r
  subst h
  cases bytes with
  | nil => cases source <;> simp [Reader.read]
  | cons b bytes => simp [Reader.read]

theorem decodeImageData_left {iw ih turns : Nat} {buf buf' : Buffers} {r r' : Reader}
    (h : decodeImageData iw ih buf r turns = .ok (some (r', buf'))) :
    ∃ k s₀ t, start iw ih buf r = .ok (k, s₀) ∧
      loop k turns s₀ = .ok (some t) ∧ r' = t.reader ∧ buf'.pixels =
        some (k.pixelsLength, cleared k t) := by
  rw [decodeImageData] at h
  cases hstart : start iw ih buf r with
  | error e =>
    simp only [hstart] at h
    cases h
  | ok p =>
    obtain ⟨k, s₀⟩ := p
    simp only [hstart] at h
    cases hloop : loop k turns s₀ with
    | error e =>
      simp only [hloop] at h
      cases h
    | ok res =>
      simp only [hloop] at h
      cases res with
      | none => cases h
      | some t =>
        cases h
        exact ⟨k, s₀, t, rfl, hloop, rfl, rfl⟩

/-- They are decoded without an exception, and no format error is left, if and only
if they can be. -/
theorem readable_iff {iw ih : Nat} {buf : Buffers} {r : Reader} {turns : Nat}
    (herror : r.formatError = false)
    (hends : decodeImageData iw ih buf r turns ≠ .ok none) :
    (∃ r' buf', decodeImageData iw ih buf r turns = .ok (some (r', buf')) ∧ r'.formatError =
      false) ↔ Readable iw ih buf r := by
  obtain ⟨hneg, hstart⟩ | ⟨-, hbig, hstart⟩ | ⟨hneg, hfit, k, s₀, hstart, hkept⟩ :=
    start_cases iw ih buf r
  · apply iff_of_false
    · rintro ⟨r', buf', h, -⟩
      rw [decodeImageData, hstart] at h
      cases h
    · exact fun h => h.room hneg
  · apply iff_of_false
    · rintro ⟨r', buf', h, -⟩
      rw [decodeImageData, hstart] at h
      cases h
    · exact fun h => absurd h.roots hbig.not_ge
  · obtain ⟨pixels, hinitial⟩ := start_eq hstart
    have hreader : s₀.reader = r.read.2 := by rw [hinitial]; rfl
    have hloop : loop k turns s₀ ≠ .ok none := by
      intro hnone
      rw [decodeImageData, hstart] at hends
      simp only [hnone] at hends
      exact hends rfl
    have hresult : (∃ r' buf', decodeImageData iw ih buf r turns = .ok (some (r', buf')) ∧
        r'.formatError = false) ↔
        ∃ t, loop k turns s₀ = .ok (some t) ∧ t.reader.formatError = false := by
      rw [decodeImageData, hstart]
      simp only
      cases loop k turns s₀ with
      | error e => simp
      | ok res =>
        cases res with
        | none => simp
        | some t => simp
    rw [hresult]
    cases hsize : r.read.2.formatError with
    | false =>
      rw [loop_provided_iff hkept.underway (hreader ▸ hsize) hloop]
      constructor
      · intro h
        refine ⟨hneg, (read_error_iff herror).mp hsize, hfit, fun k' s₀' hstart' => ?_⟩
        cases hstart.symm.trans hstart'
        exact h
      · exact fun h => h.turns k s₀ hstart
    | true =>
      apply iff_of_false
      · rintro ⟨t, ht, hfalse⟩
        rw [loop_formatError ht (hreader ▸ hsize)] at hfalse
        cases hfalse
      · intro h
        rw [(read_error_iff herror).mpr h.size] at hsize
        cases hsize

end

end GifLzwDecoder
