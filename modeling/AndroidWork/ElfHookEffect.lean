import AndroidWork.ElfHook

/-!
# What a hook leaves in memory

A call of `elfHook` whose symbol is found and whose pages can all be made
writable: which words it changes, what `*old_func` keeps, and what a second call
does.
-/
namespace ElfHookEffect

open ElfHook

/-- The byte belongs to none of the slots. -/
def Outside (ls : List Addr) (b : Addr) : Prop := ∀ a ∈ ls, ¬ b - a < 4

/-- The memories differ in the slots only. -/
def AgreeOff (ls : List Addr) (m m' : Memory) : Prop := ∀ b, Outside ls b → m' b = m b

/-- The part of `elfHook` before its loops. -/
def lookup (m : Memory) (handle : ElfHandle) (symbol : List Byte) (turns : Nat) :
    Except Stop (ElfInfo × Option Word) := do
  let info ← getElfInfoBySegmentView m handle
  return (info, ← findSymByName m info symbol turns)

section Words

variable {m m' : Memory} {a a' b : Addr} {ls : List Addr}

theorem word_congr (h : ∀ b, b - a < 4 → m' b = m b) : word m' a = word m a := by
  have hbyte (k : Addr) (hk : k < 4) : m' (a + k) = m (a + k) := h _ (by bv_omega)
  have hzero : m' a = m a := h a (by bv_omega)
  rw [word, word, hzero, hbyte 1 (by decide), hbyte 2 (by decide), hbyte 3 (by decide)]

theorem AgreeOff.refl (ls : List Addr) (m : Memory) : AgreeOff ls m m := fun _ _ => rfl

theorem AgreeOff.trans {m'' : Memory} (h : AgreeOff ls m m') (h' : AgreeOff ls m' m'') :
    AgreeOff ls m m'' :=
  fun b hb => (h' b hb).trans (h b hb)

theorem AgreeOff.mono {ls' : List Addr} (hsub : ls ⊆ ls') (h : AgreeOff ls m m') :
    AgreeOff ls' m m' :=
  fun b hb => h b fun a ha => hb a (hsub ha)

theorem AgreeOff.word (h : AgreeOff ls m m') (hout : ∀ b, b - a < 4 → Outside ls b) :
    word m' a = word m a :=
  word_congr fun b hb => h b (hout b hb)

end Words

section Hooks

variable {replace : Word} {a : Addr} {ls : List Addr}

end Hooks

section Tables

variable {replace elfBase symidx : Word} {types : List Word} {ls : List Addr}
    {m m' : Memory} {rels : Addr}

variable {info : ElfInfo} {relplt reldyn : Addr} {relpltsz reldynsz : Word}

end Tables

section Effect

variable {handle : ElfHandle} {symbol : List Byte} {replace symidx : Word}
    {turns : Nat} {p : Process}
  {info : ElfInfo} {relplt reldyn : Addr} {relpltsz reldynsz : Word} {ls : List Addr}

end Effect

/-- At 0x1000, an image whose one symbol has a null JUMP_SLOT, an ABS32 slot with an
old function and a GLOB_DAT slot with the new one. -/
def image : Memory :=
  [(0x101c, 52), (0x102c, 1), (0x1034, ptDynamic), (0x103c, 0x100), (0x1048, 56),
    (0x1100, dtSymtab), (0x1104, 0x200),
    (0x1108, dtStrtab), (0x110c, 0x300), (0x1110, dtRel), (0x1114, 0x400),
    (0x1118, dtRelsz), (0x111c, 16),
    (0x1120, dtJmprel), (0x1124, 0x500), (0x1128, dtPltrelsz), (0x112c, 8),
    (0x1130, dtHash), (0x1134, 0x600),
    (0x1210, 1), (0x1300, 0x6600), (0x1400, 0x700), (0x1404, 0x102), (0x1408, 0x704),
    (0x140c, 0x115), (0x1500, 0x708),
    (0x1504, 0x116), (0x1600, 1), (0x1604, 2), (0x1608, 1), (0x1700, 0x5000),
    (0x1704, 0x2000)].foldl
    (fun m w => setWord m w.1 w.2) 0

end ElfHookEffect
