import AndroidWork.GifPainting

/-!
# The lines of an interlaced frame

`setPixels` looks for the next pass once a row. A pass that has no line in the
frame is not passed over: its first line is visited all the same.
-/
namespace BaseGifDecoder

open GifLzwDecoder (Byte)

/-- The next `n` rows from row `i` on, each with its line. -/
def GifFrameData.rowsFrom (frame : GifFrameData) : Nat → Int → Pass → List (Int × Int)
  | 0, _, _ => []
  | n + 1, i, p => (i, (frame.lineOf i p).1) :: frame.rowsFrom n (i + 1) (frame.lineOf i p).2

/-- The lines of the frame that `setPixels` visits. -/
def GifFrameData.visited (frame : GifFrameData) : List Int :=
  (frame.rowsFrom frame.ih.toNat 0 ⟨1, 8, 0⟩).map Prod.snd

/-- The loop of `setPixels` paints these rows in this order. -/
def GifFrameData.Paints (frame : GifFrameData) (rows : List (Int × Int)) : Prop :=
  ∀ (s : Screen) (act : Table) (pixels : Nat × (Int → Byte)) (size : Int) (dest : Int → Color),
    s.paintRows frame act pixels size frame.ih.toNat 0 ⟨1, 8, 0⟩ dest =
      rows.foldlM (fun dest row => s.paintRow frame act pixels size row.1 row.2 dest) dest

/-- Every line once: every eighth line, then those between in three more passes. -/
def GifFrameData.FourPasses (frame : GifFrameData) : Prop :=
  frame.visited.Perm ((List.range frame.ih.toNat).map fun line : Nat => (line : Int)) ∧
    frame.visited = (lines true frame.ih.toNat).map fun line : Nat => (line : Int)

section

variable {frame : GifFrameData} {n : Nat}

theorem paintRows_rowsFrom (s : Screen) (act : Table) (pixels : Nat × (Int → Byte))
    (size : Int) (n : Nat)
    (i : Int) (p : Pass) (dest : Int → Color) :
    s.paintRows frame act pixels size n i p dest =
      (frame.rowsFrom n i p).foldlM (fun dest row =>
        s.paintRow frame act pixels size row.1 row.2 dest) dest := by
  induction n generalizing i p dest with
  | zero => rfl
  | succ n ih =>
    rw [Screen.paintRows, GifFrameData.rowsFrom, List.foldlM_cons]
    congr 1
    funext dest
    exact ih (i + 1) _ dest

theorem rowsFrom_lines {L : List Nat} {i : Int} {p : Pass} (h : Runs frame i p L) :
    (frame.rowsFrom L.length i p).map Prod.snd = L.map fun line : Nat => (line : Int) := by
  induction L generalizing i p with
  | nil => rfl
  | cons line L ih =>
    obtain ⟨hline, hrest⟩ := h
    rw [List.length_cons, GifFrameData.rowsFrom, List.map_cons, ih hrest, hline, List.map_cons]

theorem lines_perm (n : Nat) : (lines true n).Perm (List.range n) := by
  have hsubset : lines true n ⊆ List.range n :=
    fun line hline => List.mem_range.mpr (mem_lines hline)
  apply (List.subperm_of_subset (nodup_lines true n) hsubset).perm_of_length_le
  rw [length_lines, List.length_range]

theorem fourPasses_of (hinterlace : frame.interlace = true) (hih : frame.ih = n)
    (hn : n ≤ 1 ∨ 5 ≤ n) : frame.FourPasses := by
  have hruns : Runs frame 0 ⟨1, 8, 0⟩ (lines true n) := hinterlace ▸ runs_lines hih fun _ => hn
  have hvisited : frame.visited = (lines true n).map fun line : Nat => (line : Int) := by
    rw [GifFrameData.visited, hih, Int.toNat_natCast, ← rowsFrom_lines hruns, length_lines]
  rw [GifFrameData.FourPasses, hvisited, hih, Int.toNat_natCast]
  exact ⟨(lines_perm n).map _, rfl⟩

/-- With two to four lines the second pass starts behind the frame. -/
theorem four_mem_visited (hinterlace : frame.interlace = true) (hih : frame.ih = n)
    (hlow : 2 ≤ n) (hhigh : n ≤ 4) :
    (4 : Int) ∈ frame.visited := by
  obtain ⟨m, rfl⟩ : ∃ m, n = m + 2 := ⟨n - 2, by omega⟩
  have hfirst : Pass.turn ⟨1, 8, 0⟩ frame.ih = ⟨1, 8, 0⟩ :=
    turn_of_lt (by rw [hih]; show (0 : Int) < _; omega)
  have hsecond : Pass.turn ⟨1, 8, 8⟩ frame.ih = ⟨2, 8, 4⟩ :=
    if_pos (by rw [hih]; show _ ≤ (8 : Int); omega)
  rw [GifFrameData.visited, hih, Int.toNat_natCast, GifFrameData.rowsFrom, GifFrameData.rowsFrom]
  simp [GifFrameData.lineOf, hinterlace, hfirst, hsecond]

/-- The rows that are painted have the lines that are visited: those of the four passes, unless one
of the passes has no line. -/
theorem fourPasses_iff (hinterlace : frame.interlace = true) (hpos : 1 ≤ frame.ih) :
    (∃ rows, frame.Paints rows ∧ rows.map Prod.snd = frame.visited) ∧
      (frame.FourPasses ↔ frame.ih = 1 ∨ 5 ≤ frame.ih) := by
  obtain ⟨n, hn⟩ : ∃ n : Nat, frame.ih = n := ⟨frame.ih.toNat, by omega⟩
  refine ⟨⟨_, fun s act pixels size dest => paintRows_rowsFrom s act pixels size _ _ _ dest, rfl⟩,
    ?_⟩
  constructor
  · rintro ⟨hperm, -⟩
    by_contra hsmall
    have hfour := four_mem_visited hinterlace hn (by omega) (by omega)
    have hin := hperm.subset hfour
    simp only [hn, Int.toNat_natCast, List.mem_map, List.mem_range] at hin
    omega
  · intro h
    exact fourPasses_of hinterlace hn (by omega)

/-- A frame of this height. -/
def interlaced (height : Nat) : GifFrameData :=
  { newFrameData with ih := height, interlace := true }

theorem fourPasses_five :
    (∃ rows, (interlaced 5).Paints rows ∧ rows.map Prod.snd = (interlaced 5).visited) ∧
      ((interlaced 5).FourPasses ↔ (interlaced 5).ih = 1 ∨ 5 ≤ (interlaced 5).ih) :=
  fourPasses_iff rfl (by decide)

/-- The second line of two is never painted. -/
theorem visited_two : (interlaced 2).visited = [0, 4] ∧ ¬ (interlaced 2).FourPasses := by
  have hvisited : (interlaced 2).visited = [0, 4] := by decide
  refine ⟨hvisited, fun h => ?_⟩
  have hperm := h.1
  rw [hvisited] at hperm
  exact absurd hperm (by decide)

end

end BaseGifDecoder
