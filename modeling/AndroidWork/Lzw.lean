import Mathlib.Tactic

/-!
# Code tables of LZW decoders

A decoder keeps for every code behind the two control codes a parent code and a
last symbol; the codes below `roots` stand for one symbol each. The code `roots`
clears the table and `roots + 1` ends the data.
-/
namespace Lzw

variable {α : Type}

/-- The word of a code: its parent's word and its last symbol. -/
inductive Spells (parent : Int → Int) (last : Int → α) (roots : Int) : Int → List α → Prop where
  | root {c : Int} (h0 : 0 ≤ c) (h : c < roots) : Spells parent last roots c [last c]
  | more {c : Int} {w : List α} (h : roots < c) (hw : Spells parent last roots (parent c) w) :
      Spells parent last roots c (w ++ [last c])

/-- A code that has a word: a root, or one behind the control codes that is
already taken. -/
def Usable (roots avail c : Int) : Prop := (0 ≤ c ∧ c < roots) ∨ (roots + 1 < c ∧ c < avail)

/-- Every parent is a usable code below its child. -/
def Descends (parent : Int → Int) (roots avail : Int) : Prop :=
  ∀ c, roots + 1 < c → c < avail → parent c < c ∧ Usable roots avail (parent c)

variable {parent : Int → Int} {last : Int → α} {roots avail : Int}

theorem Usable.mono {avail' c : Int} (h : Usable roots avail c) (hle : avail ≤ avail') :
    Usable roots avail' c := by
  rcases h with h | h
  · exact .inl h
  · exact .inr ⟨h.1, h.2.trans_le hle⟩

theorem Usable.ne_roots {c : Int} (h : Usable roots avail c) : c ≠ roots ∧ c ≠ roots + 1 := by
  rcases h with h | h <;> omega

theorem Descends.empty (parent : Int → Int) (roots : Int) : Descends parent roots (roots + 2) := by
  intro c h₁ h₂
  omega

theorem Spells.ne_nil {c : Int} {w : List α} (h : Spells parent last roots c w) : w ≠ [] := by
  cases h with
  | root h0 h => exact List.cons_ne_nil _ _
  | more h hw => exact List.append_ne_nil_of_right_ne_nil _ (List.cons_ne_nil _ _)

/-- A code has one word. -/
theorem Spells.unique {c : Int} {w v : List α} (h : Spells parent last roots c w)
    (h' : Spells parent last roots c v) : w = v := by
  induction h generalizing v with
  | root h0 h =>
    cases h' with
    | root h0' h' => rfl
    | more h' hw' => omega
  | more h hw ih =>
    cases h' with
    | root h0' h' => omega
    | more h' hw' => rw [ih hw']

/-- Usable codes have words, no longer than the code's distance from the roots. -/
theorem Descends.spells (hd : Descends parent roots avail) (hroots : 0 ≤ roots)
    (last : Int → α) {c : Int}
    (hc : Usable roots avail c) :
    ∃ w, Spells parent last roots c w ∧ ((w.length : Int) = 1 ∨ w.length ≤ c - roots) := by
  induction hn : c.toNat using Nat.strong_induction_on generalizing c with
  | _ n ih =>
    rcases hc with ⟨h0, hr⟩ | ⟨hr, ha⟩
    · exact ⟨_, .root h0 hr, .inl rfl⟩
    · obtain ⟨hlt, hp⟩ := hd c hr ha
      have hsmall : (parent c).toNat < n := by
        rcases hp with hp | hp <;> omega
      obtain ⟨w, hw, hlen⟩ := ih _ hsmall hp rfl
      refine ⟨_, .more (by omega) hw, .inr ?_⟩
      simp only [List.length_append, List.length_singleton, Nat.cast_add, Nat.cast_one]
      rcases hp with hp | hp <;> rcases hlen with hlen | hlen <;> omega

/-- Words depend on the table at usable codes only. -/
theorem Spells.congr {parent' : Int → Int} {last' : Int → α}
    (hd : Descends parent roots avail) {c : Int}
    {w : List α} (h : Spells parent last roots c w) (hc : Usable roots avail c)
    (hp : ∀ d, roots + 1 < d → d < avail → parent' d = parent d)
    (hl : ∀ d, Usable roots avail d → last' d = last d) : Spells parent' last' roots c w := by
  induction h with
  | @root c h0 h =>
    rw [← hl c hc]
    exact .root h0 h
  | @more c w h hw ih =>
    have hc' : roots + 1 < c ∧ c < avail := hc.resolve_left fun h' => by omega
    rw [← hl c hc]
    refine .more h ?_
    rw [hp c hc'.1 hc'.2]
    exact ih (hd c hc'.1 hc'.2).2

/-- A new code may have any usable parent. -/
theorem Descends.extend (hd : Descends parent roots avail) (ha : roots + 1 < avail) {p : Int}
    (hp : Usable roots avail p) :
    Descends (Function.update parent avail p) roots (avail + 1) := by
  intro c h₁ h₂
  rcases (by omega : c < avail ∨ c = avail) with hlt | rfl
  · obtain ⟨hlt', hu⟩ := hd c h₁ hlt
    rw [Function.update_of_ne hlt.ne]
    exact ⟨hlt', hu.mono (by omega)⟩
  · rw [Function.update_self]
    refine ⟨?_, hp.mono (by omega)⟩
    rcases hp with hp | hp <;> omega

end Lzw
