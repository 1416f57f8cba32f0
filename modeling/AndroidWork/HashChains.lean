import Mathlib.Tactic

/-!
# Chained hash tables

The indices that a chain of links runs through before it stops, and the lookup
of a key in the chain of its bucket. A chain that stops meets no index twice.
-/
namespace HashChains

variable {ι κ : Type}

/-- From `i` the links run through these indices and stop. -/
inductive Linked (next : ι → ι) (stop : ι) : ι → List ι → Prop where
  | stop : Linked next stop stop []
  | link {i : ι} {l : List ι} (hne : i ≠ stop) (hrest : Linked next stop (next i) l) :
    Linked next stop i (i :: l)

variable {next : ι → ι} {stop i : ι} {l l' : List ι}

theorem Linked.unique (h : Linked next stop i l) (h' : Linked next stop i l') : l = l' := by
  induction h generalizing l' with
  | stop =>
    cases h' with
    | stop => rfl
    | link hne => exact absurd rfl hne
  | link hne hrest ih =>
    cases h' with
    | stop => exact absurd rfl hne
    | link _ hrest' => rw [ih hrest']

/-- From an index of a chain the rest of the chain runs. -/
theorem Linked.from_mem (h : Linked next stop i l) {j : ι} (hj : j ∈ l) :
    ∃ l', Linked next stop j l' ∧ l'.length ≤ l.length := by
  induction h with
  | stop => simp at hj
  | @link i l hne hrest ih =>
    obtain rfl | hj := List.mem_cons.mp hj
    · exact ⟨j :: l, .link hne hrest, le_rfl⟩
    · obtain ⟨l', hl', hlen⟩ := ih hj
      exact ⟨l', hl', by simp only [List.length_cons]; omega⟩

theorem Linked.nodup (h : Linked next stop i l) : l.Nodup := by
  induction h with
  | stop => simp
  | @link i l hne hrest ih =>
    refine List.nodup_cons.mpr ⟨fun hmem => ?_, ih⟩
    obtain ⟨l', hl', hlen⟩ := hrest.from_mem hmem
    have := congrArg List.length (hl'.unique (.link hne hrest))
    simp only [List.length_cons] at this
    omega

/-- The walk along a chain up to the first index that is wanted, for at most
`turns` turns; `none` when the turns do not suffice. -/
def walk [DecidableEq ι] (next : ι → ι) (stop : ι) (wanted : ι → Bool) : Nat → ι → Option (Option ι)
  | 0, _ => none
  | turns + 1, i =>
    if i = stop then some none
    else if wanted i then some (some i)
    else walk next stop wanted turns (next i)

theorem Linked.walk [DecidableEq ι] {wanted : ι → Bool} {turns : Nat} (h : Linked next stop i l)
    (hturns : l.length < turns) :
    walk next stop wanted turns i = some (l.find? wanted) := by
  induction h generalizing turns with
  | stop =>
    cases turns with
    | zero => omega
    | succ turns => simp [HashChains.walk]
  | @link i l hne hrest ih =>
    cases turns with
    | zero => omega
    | succ turns =>
      simp only [List.length_cons] at hturns
      rw [HashChains.walk, if_neg hne, ih (by omega), List.find?_cons]
      cases hw : wanted i <;> simp

/-- The chain of a bucket holds the entries whose keys hash to it. -/
def Collects {β : Type} (hash : κ → β) (key : ι → κ) (entries : ι → Prop) (b : β)
    (l : List ι) : Prop :=
  ∀ i, i ∈ l ↔ entries i ∧ hash (key i) = b

/-- A lookup in the chain of the key's own bucket finds the key if an entry has it. -/
theorem Collects.find? {β : Type} [DecidableEq κ] {hash : κ → β} {key : ι → κ} {entries : ι → Prop}
    {k : κ} {l : List ι}
    (h : Collects hash key entries (hash k) l) :
    (∀ i, l.find? (fun i => key i = k) = some i → entries i ∧ key i = k) ∧
      ((∃ i, entries i ∧ key i = k) → (l.find? fun i => key i = k).isSome) := by
  constructor
  · intro i hi
    have hkey := List.find?_some hi
    exact ⟨((h i).mp (List.mem_of_find?_eq_some hi)).1, by simpa using hkey⟩
  · intro ⟨i, hentry, hkey⟩
    have hmem : i ∈ l := (h i).mpr ⟨hentry, by rw [hkey]⟩
    rw [List.find?_isSome]
    exact ⟨i, hmem, by simpa using hkey⟩

end HashChains
