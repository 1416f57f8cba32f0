import AndroidWork.ElfHook
import AndroidWork.HashChains

/-!
# Symbols looked up by name

`findSymByName` over a System V hash table that was built with the hash function
of the ABI, and that function against `elf_hash`.
-/
namespace ElfSymbols

open ElfHook HashChains

/-- One character of the hash function of the ABI. -/
def abiStep (h : Word) (c : Byte) : Word :=
  let h := (h <<< 4) + c.zeroExtend 32
  let g := h &&& 0xf0000000
  let h := if g ≠ 0 then h ^^^ (g >>> 24) else h
  h &&& ~~~g

def abiHash (name : List Byte) : Word := name.foldl abiStep 0

/-- The top four bits are cleared either way, and fold to bits four to seven. -/
theorem fold_top (h g : Word) (hg : g = h &&& 0xf0000000) :
    (h ^^^ g) ^^^ (g >>> 24) = (if g ≠ 0 then h ^^^ (g >>> 24) else h) &&& ~~~g := by
  by_cases hzero : g = 0
  · simp [hzero]
    exact (BitVec.and_allOnes (x := h)).symm
  · rw [if_pos hzero, hg]
    ext i hi
    simp only [BitVec.getElem_xor, BitVec.getElem_and, BitVec.getElem_not,
      BitVec.getElem_ushiftRight]
    interval_cases i <;> simp

theorem elfHash_eq_abiHash (name : List Byte) : elfHash name = abiHash name := by
  rw [elfHash, abiHash]
  congr 1
  funext h c
  exact fold_top _ _ rfl

theorem isText_unique {m : Memory} {a : Addr} {s t : List Byte} (hs : isText m a s)
    (ht : isText m a t)
    (hnuls : ∀ c ∈ s, c ≠ 0) (hnult : ∀ c ∈ t, c ≠ 0) : s = t := by
  induction s generalizing a t with
  | nil =>
    cases t with
    | nil => rfl
    | cons c t =>
      simp only [isText, decide_eq_true_eq, Bool.and_eq_true] at hs ht
      exact absurd (ht.1.symm.trans hs) (hnult c List.mem_cons_self)
  | cons c s ih =>
    cases t with
    | nil =>
      simp only [isText, decide_eq_true_eq, Bool.and_eq_true] at hs ht
      exact absurd (hs.1.symm.trans ht) (hnuls c List.mem_cons_self)
    | cons d t =>
      simp only [isText, decide_eq_true_eq, Bool.and_eq_true] at hs ht
      rw [← hs.1, ← ht.1, ih hs.2 ht.2 (fun x hx => hnuls x (List.mem_cons_of_mem c hx))
        (fun x hx => hnult x (List.mem_cons_of_mem d hx))]

/-- A symbol table with the names of its entries; entry 0 is the null symbol. -/
structure SymbolTable (m : Memory) where
  sym : Addr
  symstr : Addr
  names : List (List Byte)
  null : names.head? = some []
  fits : names.length ≤ 2 ^ 32
  nul : ∀ name ∈ names, ∀ c ∈ name, c ≠ 0
  texts : ∀ i : Word, ∀ h : i.toNat < names.length,
    isText m (symstr + word m (sym + 16 * i)) names[i.toNat]

namespace SymbolTable

variable {m : Memory} (t : SymbolTable m)

/-- The symbols that are hashed. -/
def Entry (i : Word) : Prop := i ≠ 0 ∧ i.toNat < t.names.length

def name (i : Word) : List Byte := t.names.getD i.toNat []

theorem names_pos : 0 < t.names.length := by
  have := t.null
  cases h : t.names with
  | nil => simp [h] at this
  | cons => simp

theorem name_zero : t.name 0 = [] := by
  have := t.null
  cases h : t.names with
  | nil => simp [h] at this
  | cons first rest =>
    rw [h] at this
    simpa [name, h] using this

theorem name_eq {i : Word} (hi : i.toNat < t.names.length) : t.name i = t.names[i.toNat] := by
  simp [name, List.getD_eq_getElem?_getD, hi]

/-- `strcmp` against a symbol's name. -/
theorem isText_iff {i : Word} (hi : i.toNat < t.names.length) {symbol : List Byte}
    (hsymbol : ∀ c ∈ symbol, c ≠ 0) :
    isText m (t.symstr + word m (t.sym + 16 * i)) symbol ↔ t.name i = symbol := by
  rw [t.name_eq hi]
  constructor
  · intro h
    exact isText_unique (t.texts i hi) h (t.nul _ (List.getElem_mem hi)) hsymbol
  · intro h
    rw [← h]
    exact t.texts i hi

/-- A name of the table that is not empty is that of a hashed symbol. -/
theorem exists_entry {symbol : List Byte} (hne : symbol ≠ []) (h : symbol ∈ t.names) :
    ∃ i, t.Entry i ∧ t.name i = symbol := by
  obtain ⟨n, hn, hname⟩ := List.getElem_of_mem h
  have hfits := t.fits
  have hword : (BitVec.ofNat 32 n).toNat = n := by
    rw [BitVec.toNat_ofNat]
    omega
  have hat : t.name (BitVec.ofNat 32 n) = symbol := by
    rw [t.name_eq (by omega), ← hname]
    simp only [hword]
  refine ⟨BitVec.ofNat 32 n, ⟨fun h0 => hne ?_, ?_⟩, hat⟩
  · rw [← hat, h0, t.name_zero]
  · omega

theorem mem_names {i : Word} (h : t.Entry i) : t.name i ∈ t.names := by
  rw [t.name_eq h.2]
  exact List.getElem_mem h.2

end SymbolTable

/-- A hash table built for the symbols: each bucket's chain collects the symbols
whose names hash to it, and the chain entry 0 does not run on for ever. -/
structure HashTable (m : Memory) (t : SymbolTable m) where
  nbucket : Word
  bucket : Addr
  chain : Addr
  nbucket_ne : nbucket ≠ 0
  members : Word → List Word
  linked : ∀ b < nbucket, Linked (fun i => word m (chain + 4 * i)) 0
    (word m (bucket + 4 * b)) (members b)
  collects : ∀ b < nbucket, Collects (fun s => abiHash s % nbucket) t.name t.Entry b (members b)
  behindNull : List Word
  linkedNull : Linked (fun i => word m (chain + 4 * i)) 0 (word m (chain + 4 * 0)) behindNull
  entriesNull : ∀ i ∈ behindNull, t.Entry i

theorem HashTable.bucket_lt {m : Memory} {t : SymbolTable m} (h : HashTable m t)
    (symbol : List Byte) :
    abiHash symbol % h.nbucket < h.nbucket := by
  apply BitVec.umod_lt
  have hne : h.nbucket.toNat ≠ 0 := fun h0 => h.nbucket_ne (BitVec.eq_of_toNat_eq h0)
  rw [BitVec.lt_def]
  simpa using Nat.pos_of_ne_zero hne

/-- The fields that the lookup reads are those of the table. -/
structure Describes (info : ElfInfo) {m : Memory} {t : SymbolTable m}
    (h : HashTable m t) : Prop where
  sym : info.sym = some t.sym
  symstr : info.symstr = some t.symstr
  nbucket : info.nbucket = some h.nbucket
  bucket : info.bucket = some h.bucket
  chain : info.chain = some h.chain

section Lookup

variable {m : Memory} {t : SymbolTable m} (h : HashTable m t) {info : ElfInfo}
    (hinfo : Describes info h)
  {symbol : List Byte} (hne : symbol ≠ []) (hnul : ∀ c ∈ symbol, c ≠ 0)
include hinfo

/-- The loop is the walk along the chain behind `index`, where the null symbol
does not have the name. -/
theorem findSymLoop_eq_walk (hzero : isText m (t.symstr + word m (t.sym + 16 * 0)) symbol = false)
    (turns : Nat) (index : Word) :
    findSymLoop m info symbol turns index =
      match walk (fun i => word m (h.chain + 4 * i)) 0
        (fun i => isText m (t.symstr + word m (t.sym + 16 * i)) symbol) turns
        (word m (h.chain + 4 * index)) with
      | none => .error .outOfTurns
      | some found => .ok found := by
  induction turns generalizing index with
  | zero => rfl
  | succ turns ih =>
    rw [findSymLoop_succ hinfo.symstr hinfo.sym hinfo.chain, walk]
    by_cases hstop : word m (h.chain + 4 * index) = 0
    · simp only [hstop, hzero, Bool.false_eq_true, ne_eq, not_true_eq_false, if_false, if_true]
    · rw [if_neg hstop, if_pos hstop, ih]
      split <;> rfl

include hne hnul

omit hinfo hne hnul in
/-- A chain of symbols is shorter than the symbol table. -/
theorem chain_length {next : Word → Word} {i : Word} {l : List Word} (hl : Linked next 0 i l)
    (hentries : ∀ i ∈ l, t.Entry i) :
    l.length < t.names.length := by
  have hnodup : (l.map BitVec.toNat).Nodup := hl.nodup.map fun _ _ => BitVec.eq_of_toNat_eq
  have hsubset : l.map BitVec.toNat ⊆ List.range' 1 (t.names.length - 1) := by
    intro n hn
    obtain ⟨i, hi, rfl⟩ := List.mem_map.mp hn
    obtain ⟨hne, hlt⟩ := hentries i hi
    have hpos : i.toNat ≠ 0 := fun h0 => hne (BitVec.eq_of_toNat_eq h0)
    rw [List.mem_range'_1]
    omega
  have hlen := (hnodup.subperm hsubset).length_le
  have hpos := t.names_pos
  rw [List.length_map, List.length_range'] at hlen
  omega

/-- A bucket's chain is searched as far as it goes. -/
theorem findSymLoop_linked {l : List Word} {index : Word} {turns : Nat}
    (hl : Linked (fun i => word m (h.chain + 4 * i)) 0 (word m (h.chain + 4 * index)) l)
    (hturns : l.length < turns)
    (hentries : ∀ i ∈ l, t.Entry i) :
    findSymLoop m info symbol turns index = .ok (l.find? fun i => t.name i = symbol) := by
  have hzero : isText m (t.symstr + word m (t.sym + 16 * 0)) symbol = false := by
    rw [Bool.eq_false_iff, ne_eq, t.isText_iff (i := 0) t.names_pos hnul, t.name_zero]
    exact fun he => hne he.symm
  have hfind : l.find? (fun i => isText m (t.symstr + word m (t.sym + 16 * i)) symbol) =
      l.find? fun i => t.name i = symbol := by
    apply List.find?_congr
    intro i hi
    rw [Bool.eq_iff_iff, t.isText_iff (hentries i hi).2 hnul, decide_eq_true_eq]
  rw [findSymLoop_eq_walk h hinfo hzero, hl.walk hturns, hfind]

theorem findSymByName_bucket {turns : Nat} (hturns : t.names.length ≤ turns) :
    findSymByName m info symbol turns =
      .ok ((h.members (abiHash symbol % h.nbucket)).find? fun i => t.name i = symbol) := by
  have hlt := h.bucket_lt symbol
  have hlinked := h.linked _ hlt
  have hcollects := h.collects _ hlt
  rw [findSymByName_eq hinfo.nbucket hinfo.bucket h.nbucket_ne, isNamed_eq hinfo.symstr hinfo.sym,
    elfHash_eq_abiHash]
  generalize h.members (abiHash symbol % h.nbucket) = l at hlinked hcollects
  generalize hfirst : word m (h.bucket + 4 * (abiHash symbol % h.nbucket)) = first at hlinked
  have hentries : ∀ i ∈ l, t.Entry i := fun i hi => ((hcollects i).mp hi).1
  show (if isText m (t.symstr + word m (t.sym + 16 * first)) symbol then .ok (some first)
    else findSymLoop m info symbol turns first) = _
  cases hlinked with
  | stop =>
    have hnone : h.behindNull.find? (fun i => t.name i = symbol) = none := by
      rw [List.find?_eq_none]
      intro i hi hname
      have hmem := (hcollects i).mpr ⟨h.entriesNull i hi,
        by simp only [decide_eq_true_eq] at hname; rw [hname]⟩
      simp at hmem
    have hlen := chain_length h.linkedNull h.entriesNull
    have hzero : ¬ isText m (t.symstr + word m (t.sym + 16 * 0)) symbol := by
      rw [t.isText_iff (i := 0) t.names_pos hnul, t.name_zero]
      exact fun he => hne he.symm
    rw [if_neg hzero, findSymLoop_linked h hinfo hne hnul h.linkedNull (by omega) h.entriesNull,
      hnone, List.find?_nil]
  | @link _ l hne' hrest =>
    have hfirst' := hentries first List.mem_cons_self
    have hlen := chain_length (.link hne' hrest) hentries
    simp only [List.length_cons] at hlen
    by_cases hname : t.name first = symbol
    · rw [if_pos ((t.isText_iff hfirst'.2 hnul).mpr hname),
        List.find?_cons_of_pos (by simpa using hname)]
    · rw [if_neg (fun htext => hname ((t.isText_iff hfirst'.2 hnul).mp htext)),
        findSymLoop_linked h hinfo hne hnul hrest (by omega) fun i hi =>
          hentries i (List.mem_cons_of_mem _ hi),
        List.find?_cons_of_neg (by simpa using hname)]

/-- A name that the table has is found, with its index, and no other name is;
as many turns as there are symbols suffice. -/
theorem findSymByName_looks_up {turns : Nat} (hturns : t.names.length ≤ turns) :
    (∀ name, elfHash name = abiHash name) ∧
      (symbol ∈ t.names → ∃ index, findSymByName m info symbol turns = .ok (some index) ∧
        index.toNat < t.names.length ∧ t.names[index.toNat]? = some symbol) ∧
      (symbol ∉ t.names → findSymByName m info symbol turns = .ok none) := by
  have hlt : abiHash symbol % h.nbucket < h.nbucket := h.bucket_lt symbol
  obtain ⟨hfound, hfinds⟩ := (h.collects _ hlt).find?
  refine ⟨elfHash_eq_abiHash, fun hmem => ?_, fun hmem => ?_⟩
  · obtain ⟨index, hindex⟩ := Option.isSome_iff_exists.mp (hfinds (t.exists_entry hne hmem))
    obtain ⟨hentry, hname⟩ := hfound index hindex
    refine ⟨index, by rw [findSymByName_bucket h hinfo hne hnul hturns, hindex], hentry.2, ?_⟩
    rw [← hname, t.name_eq hentry.2, List.getElem?_eq_getElem hentry.2]
  · rw [findSymByName_bucket h hinfo hne hnul hturns]
    congr 1
    rw [List.find?_eq_none]
    intro i hi hname
    simp only [decide_eq_true_eq] at hname
    exact hmem (hname ▸ t.mem_names (((h.collects _ hlt) i).mp hi).1)

end Lookup

/-- Three symbols from 0, their names from 48, two buckets from 56 and the
chain entries from 64. -/
def smallImage : Memory := fun a => ([
    0, 0, 0, 0, 0, 0, 0, 0, 0, 0, 0, 0, 0, 0, 0, 0,
    1, 0, 0, 0, 0, 0, 0, 0, 0, 0, 0, 0, 0, 0, 0, 0,
    3, 0, 0, 0, 0, 0, 0, 0, 0, 0, 0, 0, 0, 0, 0, 0,
    0, 0x61, 0, 0x63, 0, 0, 0, 0,
    0, 0, 0, 0, 2, 0, 0, 0,
    0, 0, 0, 0, 0, 0, 0, 0, 1, 0, 0, 0] : List Byte).getD a.toNat 0

theorem word_lt_three {i : Word} (h : i.toNat < 3) : i = 0 ∨ i = 1 ∨ i = 2 := by
  have hcases : i.toNat = 0 ∨ i.toNat = 1 ∨ i.toNat = 2 := by omega
  obtain h | h | h := hcases
  · exact .inl (BitVec.eq_of_toNat_eq h)
  · exact .inr (.inl (BitVec.eq_of_toNat_eq h))
  · exact .inr (.inr (BitVec.eq_of_toNat_eq h))

def smallSymbols : SymbolTable smallImage where
  sym := 0
  symstr := 48
  names := [[], [0x61], [0x63]]
  null := rfl
  fits := by decide
  nul := by decide
  texts i h := by
    obtain rfl | rfl | rfl := word_lt_three h
    · show isText smallImage (48 + word smallImage (0 + 16 * 0)) []
      decide
    · show isText smallImage (48 + word smallImage (0 + 16 * 1)) [0x61]
      decide
    · show isText smallImage (48 + word smallImage (0 + 16 * 2)) [0x63]
      decide

/-- Both names hash to bucket 1. -/
def smallTable : HashTable smallImage smallSymbols where
  nbucket := 2
  bucket := 56
  chain := 64
  nbucket_ne := by decide
  members b := if b = 1 then [2, 1] else []
  linked b hb := by
    obtain rfl | rfl | rfl := word_lt_three (Nat.lt_succ_of_lt (BitVec.lt_def.mp hb))
    · exact .stop
    · exact .link (by decide) (.link (by decide) .stop)
    · exact absurd hb (by decide)
  collects b hb i := by
    constructor
    · intro hi
      by_cases h1 : b = 1
      · subst h1
        obtain rfl | rfl : i = 2 ∨ i = 1 := by simpa using hi
        · exact ⟨⟨by decide, by decide⟩, by decide⟩
        · exact ⟨⟨by decide, by decide⟩, by decide⟩
      · rw [if_neg h1] at hi
        simp at hi
    · intro ⟨⟨hne, hlt⟩, hhash⟩
      obtain rfl | rfl | rfl := word_lt_three hlt
      · exact absurd rfl hne
      · obtain rfl : (1 : Word) = b := by rw [← hhash]; decide
        decide
      · obtain rfl : (1 : Word) = b := by rw [← hhash]; decide
        decide
  behindNull := []
  linkedNull := .stop
  entriesNull := nofun

def smallInfo : ElfInfo :=
  { elfBase := 0, dyn := 0, dynsz := 0, sym := some 0, symstr := some 48, nbucket :=
    some 2, bucket := some 56, chain := some 64 }

/-- The second name of the bucket's chain is found behind the first. -/
theorem findSymByName_looks_up_small :
    ∃ index, findSymByName smallImage smallInfo [0x61] 3 = .ok (some index) ∧ index.toNat < 3 ∧
      smallSymbols.names[index.toNat]? = some [0x61] :=
  (@findSymByName_looks_up smallImage smallSymbols smallTable smallInfo ⟨rfl, rfl, rfl, rfl, rfl⟩
    [0x61] (by decide) (by decide)
    3 (by decide)).2.1 (by decide)

end ElfSymbols
