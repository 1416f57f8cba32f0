import AndroidWork.GifLzwEncoder
import AndroidWork.Traces

/-!
# What find_hash finds

Every query of a run of the compressor, whatever the pixels and the order of the lines:
the table is never near its size, and a key keeps the slot that it was given until the
table is cleared.
-/
namespace GifLzwEncoder

open ProbeTable (Placed Occupies Extends Stops)
open Traces (Traced result events)

/-- A call of `find_hash`, and how often the table has been cleared before it. -/
structure Query where
  clears : Nat
  tree : HashTree
  pre : Nat
  suf : Nat

/-- The word behind the inner loop's `break` is the last one before the table is cleared. -/
def Compressor.clearsNext (c : Compressor) : Bool :=
  c.sizes.code + 1 = c.sizes.max + 1 ∧ c.sizes.bits = 12

/-- The queries of both loops, in order. -/
def Compressor.queries (img : DIB) (rasters : Nat → Nat) (bitsColor : Nat) :
    Nat → Nat → Compressor → List Query
  | 0, _, _ => []
  | turns + 1, clears, c =>
    if c.done then []
    else
      let suf := (img.bits (rasters c.y * img.width + c.x)).toNat
      let c := c.advance img
      { clears := clears, tree := c.tree, pre := c.pre, suf := suf } ::
        match findHash c.tree c.pre suf with
        | none => []
        | some i =>
          match c.tree i with
          | some word => queries img rasters bitsColor turns clears { c with pre := word.2 }
          | none =>
            queries img rasters bitsColor turns (if c.clearsNext then clears + 1 else clears)
              (c.addWord bitsColor i suf)

/-- Both loops, with `find` where they call `find_hash`. -/
def Compressor.loopWith {m : Type → Type} [Monad m] (find : Query → m (Option Nat)) (img : DIB)
    (rasters : Nat → Nat) (bitsColor : Nat) : Nat → Nat → Compressor → m (Option (List Byte))
  | 0, _, _ => pure none
  | turns + 1, clears, c =>
    if c.done then pure (some c.finish)
    else do
      let suf := (img.bits (rasters c.y * img.width + c.x)).toNat
      let c := c.advance img
      let slot ← find { clears := clears, tree := c.tree, pre := c.pre, suf := suf }
      match slot with
      | none => pure none
      | some i =>
        match c.tree i with
        | some word => loopWith find img rasters bitsColor turns clears { c with pre := word.2 }
        | none =>
          loopWith find img rasters bitsColor turns (if c.clearsNext then clears + 1 else clears)
            (c.addWord bitsColor i suf)

/-- The call itself, told. -/
def Query.told (q : Query) : Traced Query (Option Nat) := do
  tell [q]
  pure (findHash q.tree q.pre q.suf)

section

variable {img : DIB} {rasters : Nat → Nat} {bitsColor : Nat}

@[simp] theorem Query.result_told (q : Query) : result q.told = findHash q.tree q.pre q.suf := rfl

@[simp] theorem Query.events_told (q : Query) : events q.told = [q] := rfl

/-- The loops with their calls told are those of the compressor, and the queries are what is told.
-/
theorem loopWith_told (turns clears : Nat) (c : Compressor) :
    result (c.loopWith Query.told img rasters bitsColor turns clears) =
      c.loop img rasters bitsColor turns ∧
      events (c.loopWith Query.told img rasters bitsColor turns clears) =
        c.queries img rasters bitsColor turns clears := by
  induction turns generalizing clears c with
  | zero => exact ⟨rfl, rfl⟩
  | succ turns ih =>
    rw [Compressor.loop, Compressor.loopWith, Compressor.queries]
    by_cases hdone : c.done = true
    · rw [if_pos hdone, if_pos hdone, if_pos hdone]
      exact ⟨rfl, rfl⟩
    · rw [if_neg hdone, if_neg hdone, if_neg hdone]
      simp only [Traces.result_bind, Traces.events_bind, Query.result_told, Query.events_told,
        List.singleton_append]
      cases findHash (c.advance img).tree (c.advance img).pre
        (img.bits (rasters c.y * img.width + c.x)).toNat with
      | none => exact ⟨rfl, rfl⟩
      | some i =>
        dsimp only
        cases (c.advance img).tree i with
        | some word => exact ⟨(ih _ _).1, congrArg _ (ih _ _).2⟩
        | none => exact ⟨(ih _ _).1, congrArg _ (ih _ _).2⟩

end

/-- `GIF_LZW_compressor` with its calls of `find_hash` told. -/
def gifLzwCompressorTold (img : DIB) (numColors : Nat) (oldRasters : Nat → Nat) :
    Traced Query (Option (List Byte)) :=
  if 768 < img.height then pure none
  else
    let rasters := rastersFor img oldRasters
    (firstState img rasters numColors).loopWith Query.told img rasters (maxBits numColors - 1)
      (img.width * img.height + 2) 0

theorem gifLzwCompressor_told (img : DIB) (numColors : Nat) (old : Nat → Nat) :
    result (gifLzwCompressorTold img numColors old) = gifLzwCompressor img numColors old ∧
      events (gifLzwCompressorTold img numColors old) =
        if 768 < img.height then []
        else (firstState img (rastersFor img old) numColors).queries img (rastersFor img old)
        (maxBits numColors - 1)
          (img.width * img.height + 2) 0 := by
  rw [gifLzwCompressorTold, gifLzwCompressor]
  split
  · exact ⟨rfl, rfl⟩
  · exact loopWith_told _ _ _

/-- What a table of the run is good for. -/
structure Sound (tree : HashTree) : Prop where
  occupied : Occupies tree 4092
  unique : ∀ i j e e', tree i = some e → tree j = some e' → e.1 = e'.1 → i = j
  found : ∀ pre suf, ∃ n i, findHash tree pre suf = some i ∧ i < hash ∧
    i = ProbeTable.route hashStart hashNext (pre, suf) n ∧
    (∀ m < n, ∃ e, tree (ProbeTable.route hashStart hashNext (pre, suf) m) = some e ∧
      e.1 ≠ (pre, suf)) ∧
      ((tree i = none ∧ ∀ j e, tree j = some e → e.1 ≠ (pre, suf)) ∨ ∃ code,
        tree i = some ((pre, suf), code))

/-- A later query of the same key, with no clearing between, finds the key in the same slot. -/
def Query.Again (q q' : Query) : Prop :=
  q'.clears = q.clears → q'.pre = q.pre → q'.suf = q.suf →
    ∃ i code, findHash q.tree q.pre q.suf = some i ∧ findHash q'.tree q.pre q.suf = some i ∧
      q'.tree i = some ((q.pre, q.suf), code)

/-- The sizes with `n` words in the table. -/
structure SizesFor (root : Nat) (s : Sizes) (n : Nat) : Prop where
  clear : s.clear = root
  code : s.code = root + 2 + n
  max : s.max = 2 ^ s.bits
  bits : s.bits ≤ 12
  room : s.code ≤ s.max

def rootClear (bitsColor : Nat) : Nat := if bitsColor = 0 then 4 else 2 ^ (bitsColor + 1)

theorem sizesFor_clear {bitsColor : Nat} (hle : bitsColor ≤ 10) :
    SizesFor (rootClear bitsColor) (firstSizes bitsColor) 0 ∧
      SizesFor (rootClear bitsColor) (clearedSizes bitsColor (rootClear bitsColor)) 0 := by
  have h : ∀ b : Fin 11, (let s := firstSizes b; let t := clearedSizes b (rootClear b)
      (s.clear = rootClear b ∧ s.code = rootClear b + 2 + 0 ∧ s.max = 2 ^ s.bits ∧
        s.bits ≤ 12 ∧ s.code ≤ s.max) ∧
        t.clear = rootClear b ∧ t.code = rootClear b + 2 + 0 ∧ t.max = 2 ^ t.bits ∧ t.bits ≤ 12 ∧
        t.code ≤ t.max) := by
    decide +kernel
  obtain ⟨⟨h1, h2, h3, h4, h5⟩, h6, h7, h8, h9, h10⟩ := h ⟨bitsColor, by omega⟩
  exact ⟨⟨h1, h2, h3, h4, h5⟩, ⟨h6, h7, h8, h9, h10⟩⟩

theorem two_le_rootClear (bitsColor : Nat) : 2 ≤ rootClear bitsColor := by
  rw [rootClear]
  split
  · omega
  · exact Nat.le_self_pow (Nat.succ_ne_zero _) 2

theorem SizesFor.small {root n : Nat} {s : Sizes} (h : SizesFor root s n)
    (hroot : 2 ≤ root) : n ≤ 4092 := by
  have hmax : s.max ≤ 2 ^ 12 := h.max ▸ Nat.pow_le_pow_right two_pos h.bits
  have := h.code
  have := h.room
  omega

theorem maxBits_le {numColors : Nat} (hlo : 2 ≤ numColors) (hhi : numColors ≤ 2048) :
    1 ≤ maxBits numColors ∧ maxBits numColors ≤ 11 := by
  have hfind : ∃ b, (List.range 14).find? (fun b => numColors ≤ 2 ^ b) = some b ∧ b ≤ 11 := by
    cases h : (List.range 14).find? (fun b => numColors ≤ 2 ^ b) with
    | none =>
      have := List.find?_eq_none.mp h 11 (by decide)
      simp at this
      omega
    | some b =>
      refine ⟨b, rfl, ?_⟩
      by_contra hb
      have := (List.find?_range_eq_some.mp h).2.2 11 (by omega)
      simp at this
      omega
  obtain ⟨b, hb, hle⟩ := hfind
  have hnum := List.find?_some hb
  rw [maxBits, hb, Option.getD_some]
  refine ⟨Nat.one_le_iff_ne_zero.mpr ?_, hle⟩
  rintro rfl
  simp at hnum
  omega

/-- The fields of the compressor with `n` words in the table. -/
structure Tabled (root n : Nat) (c : Compressor) : Prop where
  sizes : SizesFor root c.sizes n
  placed : Placed hashStart hashNext c.tree
  occupied : Occupies c.tree n

theorem Occupies.mono {tree : HashTree} {n m : Nat} (h : Occupies tree n) (hle : n ≤ m) :
    Occupies tree m := by
  obtain ⟨taken, hcard, htaken⟩ := h
  exact ⟨taken, hcard.trans hle, htaken⟩

/-- The slot for a key is behind slots of other keys only. -/
theorem findHash_first {tree : HashTree} (hplaced : Placed hashStart hashNext tree)
    (hocc : Occupies tree 4092) (pre suf : Nat) :
    ∃ n, findHash tree pre suf = some (ProbeTable.route hashStart hashNext (pre, suf) n) ∧
      n < hash ∧
      (∀ m < n, ¬ Stops tree (pre, suf) (ProbeTable.route hashStart hashNext (pre, suf) m)) ∧
        ((tree (ProbeTable.route hashStart hashNext (pre, suf) n) = none ∧ ∀ code,
          ¬ ProbeTable.Holds tree (pre, suf) code) ∨
          ∃ code, tree (ProbeTable.route hashStart hashNext (pre, suf) n) =
            some ((pre, suf), code)) := by
  obtain ⟨taken, hcard, htaken⟩ := hocc
  have hfree := ProbeTable.exists_free (route_injOn (pre, suf)) taken htaken
    (hcard.trans_lt (by decide))
  obtain ⟨n, hfind, hbefore, hslot⟩ := ProbeTable.find_spec hplaced hfree
  refine ⟨n, hfind, ?_, hbefore, hslot⟩
  obtain ⟨m, hm, hnone⟩ := hfree
  by_contra hn
  exact hbefore m (by omega) (.of_none hnone)

theorem sound_of_placed {tree : HashTree} (hplaced : Placed hashStart hashNext tree)
    (hocc : Occupies tree 4092) : Sound tree := by
  refine ⟨hocc, fun i j e e' => hplaced.unique, fun pre suf => ?_⟩
  obtain ⟨n, hfind, -, hbefore, hslot⟩ := findHash_first hplaced hocc pre suf
  refine ⟨n, _, hfind, ?_, rfl, fun m hm => ProbeTable.not_stops_iff.mp (hbefore m hm), ?_⟩
  · rw [route_eq]
    exact Nat.mod_lt _ (by decide)
  · refine hslot.imp_left fun ⟨hnone, hnew⟩ => ⟨hnone, ?_⟩
    rintro j ⟨key, code⟩ hj rfl
    exact hnew code ⟨j, hj⟩

section

variable {img : DIB} {rasters : Nat → Nat} {bitsColor n : Nat} {c : Compressor}

/-- A word more, in the slot that was found for it. -/
theorem addWord_kept (h : Tabled (rootClear bitsColor) n c) {i suf : Nat}
    (hclears : c.clearsNext = false) : ∃ code,
      (c.addWord bitsColor i suf).tree = Function.update c.tree i (some ((c.pre, suf), code)) ∧
      SizesFor (rootClear bitsColor) (c.addWord bitsColor i suf).sizes (n + 1) := by
  obtain ⟨hclear, hcode, hmax, hbits, hroom⟩ := h.sizes
  simp only [Compressor.clearsNext, decide_eq_false_iff_not, not_and] at hclears
  refine ⟨c.sizes.code, ?_⟩
  rw [Compressor.addWord]
  simp only
  split
  next hfull =>
    have h12 := hclears hfull
    rw [if_neg h12]
    refine ⟨rfl, hclear, ?_, ?_, ?_, ?_⟩
    all_goals simp only
    · omega
    · rw [hmax, pow_succ]
    · omega
    · omega
  next hfree =>
    refine ⟨rfl, hclear, ?_, hmax, hbits, ?_⟩
    all_goals simp only
    · omega
    · omega

theorem addWord_cleared (hle : bitsColor ≤ 10) (h : Tabled (rootClear bitsColor) n c) {i suf : Nat}
    (hclears : c.clearsNext = true) : Tabled (rootClear bitsColor) 0
      (c.addWord bitsColor i suf) := by
  obtain ⟨hfull, h12⟩ : c.sizes.code + 1 = c.sizes.max + 1 ∧ c.sizes.bits = 12 := by
    simpa [Compressor.clearsNext] using hclears
  have heq : (c.addWord bitsColor i suf).tree = emptyTree ∧
      (c.addWord bitsColor i suf).sizes = clearedSizes bitsColor (rootClear bitsColor) := by
    rw [Compressor.addWord]
    simp only [if_pos hfull, if_pos h12, h.sizes.clear, and_self]
  refine ⟨heq.2 ▸ (sizesFor_clear hle).2, ?_, ?_⟩
  · rw [heq.1]
    exact Placed.empty
  · rw [heq.1]
    exact Occupies.empty

/-- A query behind `k` clearings or more, with the entries of now where there are no more of them.
-/
structure Later (k : Nat) (tree : HashTree) (q : Query) : Prop where
  sound : Sound q.tree
  clears : k ≤ q.clears
  kept : q.clears = k → Extends tree q.tree

/-- One query before the others: the table has been cleared, or it has the key's entry. -/
theorem later_cons {k k' m : Nat} {tree tree' : HashTree} {pre suf : Nat}
    (hplaced : Placed hashStart hashNext tree)
    (hocc : Occupies tree 4092) (hm : m < hash)
    (hfind : findHash tree pre suf = some (ProbeTable.route hashStart hashNext (pre, suf) m))
    (hbefore : ∀ l < m, ¬ Stops tree (pre, suf) (ProbeTable.route hashStart hashNext (pre, suf) l))
    (hnext : k' = k + 1 ∨ k' = k ∧ Extends tree tree' ∧
      ∃ code, tree' (ProbeTable.route hashStart hashNext (pre, suf) m) =
        some ((pre, suf), code)) {qs : List Query}
    (hrest : (∀ q ∈ qs, Later k' tree' q) ∧ qs.Pairwise Query.Again) :
    (∀ q ∈ { clears := k, tree := tree, pre := pre, suf := suf } :: qs, Later k tree q) ∧
      ({ clears := k, tree := tree, pre := pre, suf := suf } :: qs).Pairwise Query.Again := by
  obtain ⟨hlater, hpairs⟩ := hrest
  refine ⟨List.forall_mem_cons.mpr ⟨⟨sound_of_placed hplaced hocc, le_rfl, fun _ => Extends.refl _⟩,
    fun q hq => ?_⟩,
    List.pairwise_cons.mpr ⟨fun q hq heq _ _ => ?_, hpairs⟩⟩
  · have hclears := (hlater q hq).clears
    obtain rfl | ⟨rfl, hext, -⟩ := hnext
    · exact ⟨(hlater q hq).sound, by omega, by omega⟩
    · exact ⟨(hlater q hq).sound, hclears, fun heq => hext.trans ((hlater q hq).kept heq)⟩
  · have hclears := (hlater q hq).clears
    simp only at heq
    obtain rfl | ⟨rfl, hext, code, hcode⟩ := hnext
    · omega
    · have hkept := (hlater q hq).kept heq
      have hentry := hkept _ _ hcode
      exact ⟨_, code, hfind, ProbeTable.find_again (hext.trans hkept) hm hbefore hentry, hentry⟩

theorem queries_later (hle : bitsColor ≤ 10) (turns k : Nat)
    (h : Tabled (rootClear bitsColor) n c) :
    (∀ q ∈ c.queries img rasters bitsColor turns k, Later k c.tree q) ∧
      (c.queries img rasters bitsColor turns k).Pairwise Query.Again := by
  induction turns generalizing k n c with
  | zero => exact ⟨nofun, .nil⟩
  | succ turns ih =>
    rw [Compressor.queries]
    split
    next => exact ⟨nofun, .nil⟩
    next =>
    obtain ⟨x, y, done, hadvance⟩ := advance_eq img c
    simp only [hadvance]
    generalize (img.bits (rasters c.y * img.width + c.x)).toNat = suf
    have hat : Tabled (rootClear bitsColor) n { c with x := x, y := y, done := done } :=
      ⟨h.sizes, h.placed, h.occupied⟩
    have hocc := Occupies.mono h.occupied (h.sizes.small (two_le_rootClear bitsColor))
    obtain ⟨m, hfind, hm, hbefore, hslot⟩ := findHash_first h.placed hocc c.pre suf
    rw [hfind]
    simp only
    obtain ⟨hnone, -⟩ | ⟨code, hsome⟩ := hslot
    · rw [hnone]
      simp only
      cases hclears : Compressor.clearsNext { c with x := x, y := y, done := done } with
      | true =>
        exact later_cons h.placed hocc hm hfind hbefore (.inl rfl)
          (ih _ (addWord_cleared hle hat hclears))
      | false =>
        obtain ⟨code, htree, hsizes⟩ :=
          @addWord_kept bitsColor n _ hat (ProbeTable.route hashStart hashNext (c.pre, suf) m) suf
            hclears
        refine later_cons h.placed hocc hm hfind hbefore
          (.inr ⟨rfl, htree ▸ Extends.insert hnone _, code, ?_⟩)
          (ih _ ⟨hsizes, ?_, ?_⟩)
        · rw [htree, Function.update_self]
        · rw [htree]
          exact h.placed.insert hnone hbefore code
        · rw [htree]
          exact h.occupied.insert _ _
    · rw [hsome]
      exact later_cons h.placed hocc hm hfind hbefore (.inr ⟨rfl, Extends.refl _, code, hsome⟩)
        (ih k ⟨h.sizes, h.placed, h.occupied⟩)

end

/-- Whatever the pixels are and in whatever order the lines are taken: at every query of a
run the table is sound, and a key that has been looked for keeps its slot until the table is
cleared. -/
theorem queries_sound (img : DIB) (rasters : Nat → Nat) (numColors turns : Nat)
    (hlo : 2 ≤ numColors) (hhi : numColors ≤ 2048) :
    (∀ q ∈ (firstState img rasters numColors).queries img rasters
      (maxBits numColors - 1) turns 0, Sound q.tree) ∧
      ((firstState img rasters numColors).queries img rasters
        (maxBits numColors - 1) turns 0).Pairwise Query.Again := by
  have hbits := maxBits_le hlo hhi
  have hfirst : Tabled (rootClear (maxBits numColors - 1)) 0 (firstState img rasters numColors) :=
    ⟨(sizesFor_clear (by omega)).1, Placed.empty, Occupies.empty⟩
  obtain ⟨hlater, hpairs⟩ := @queries_later img rasters (maxBits numColors - 1) 0 _
    (by omega) turns 0 hfirst
  exact ⟨fun q hq => (hlater q hq).sound, hpairs⟩

theorem queries_sound_twoColors :
    (∀ q ∈ (firstState ⟨3, 2, by decide, fun i => BitVec.ofNat 8 i⟩ id 2).queries
        ⟨3, 2, by decide, fun i => BitVec.ofNat 8 i⟩ id 0 6 0, Sound q.tree) ∧
      ((firstState ⟨3, 2, by decide, fun i => BitVec.ofNat 8 i⟩ id 2).queries
        ⟨3, 2, by decide, fun i => BitVec.ofNat 8 i⟩ id 0 6 0).Pairwise Query.Again :=
  queries_sound _ _ 2 6 le_rfl (by decide)

end GifLzwEncoder
