import AndroidWork.NeuQuant
import AndroidWork.SelectionSort

/-!
# The quantiser's index of greens

`inxbuild` and `inxsearch` of NeuQuant.
-/
namespace NeuQuant

open SelectionSort

/-- `smallpos` and `smallval` -/
structure Smallest where
  pos : Int
  val : Int

def Smallest.turn (network : Int → Pixel) (s : Smallest) (j : Nat) : Smallest :=
  if (network j).g < s.val then ⟨j, (network j).g⟩ else s

/-- The smallest green in `i..netsize-1`. -/
def smallestFrom (network : Int → Pixel) (netsize i : Nat) : Smallest :=
  (List.range' (i + 1) (netsize - (i + 1))).foldl (Smallest.turn network) ⟨i, (network i).g⟩

/-- The entries from `lo` to before `hi` are set. -/
def fill (netindex : Int → Int) (lo hi i : Int) : Int → Int :=
  fun j => if lo ≤ j ∧ j < hi then i else netindex j

/-- The variables of the loop of `inxbuild`. -/
structure Building where
  network : Int → Pixel
  netindex : Int → Int
  previouscol : Int
  startpos : Int

def Building.turn (netsize : Nat) (s : Building) (i : Nat) : Building :=
  let small := smallestFrom s.network netsize i
  let network :=
    if (i : Int) ≠ small.pos then
      Function.update (Function.update s.network small.pos (s.network i)) i (s.network small.pos)
    else s.network
  if small.val ≠ s.previouscol then
    { network := network
      netindex := fill (Function.update s.netindex s.previouscol ((s.startpos + i) >>> (1 : Nat)))
        (s.previouscol + 1) small.val i
      previouscol := small.val
      startpos := i }
  else { s with network := network }

def Building.run (netsize : Nat) (s : Building) (n : Nat) : Building :=
  (List.range n).foldl (Building.turn netsize) s

def Net.inxbuild (q : Net) : Net :=
  let s := Building.run q.netsize ⟨q.network, q.netindex, 0, 0⟩ q.netsize
  { q with
    network := s.network
    netindex :=
      fill (Function.update s.netindex s.previouscol ((s.startpos + (q.netsize - 1)) >>> (1 : Nat)))
      (s.previouscol + 1) 256 (q.netsize - 1) }

/-- The variables of the search without dither. -/
structure Search where
  i : Int
  j : Int
  bestd : Int
  best : Int

/-- A place of the network whose green is `dist` away. -/
def Search.look (p : Pixel) (b r dist : Int) (s : Search) : Search :=
  if |dist| + |p.b - b| < s.bestd then
    if |dist| + |p.b - b| + |p.r - r| < s.bestd then
      { s with bestd := |dist| + |p.b - b| + |p.r - r|, best := p.c }
    else s
  else s

section

variable (q : Net) (b g r : Int)

def Search.up (s : Search) : Search :=
  if s.i < q.netsize then
    let p := q.network s.i
    if s.bestd ≤ p.g - g then { s with i := q.netsize }
    else { s with i := s.i + 1 }.look p b r (p.g - g)
  else s

def Search.down (s : Search) : Search :=
  if 0 ≤ s.j then
    let p := q.network s.j
    if s.bestd ≤ g - p.g then { s with j := -1 }
    else { s with j := s.j - 1 }.look p b r (g - p.g)
  else s

variable (s : Search)

@[simp] theorem look_i (p : Pixel) (dist : Int) : (s.look p b r dist).i = s.i := by
  unfold Search.look
  split
  · split <;> rfl
  · rfl

@[simp] theorem look_j (p : Pixel) (dist : Int) : (s.look p b r dist).j = s.j := by
  unfold Search.look
  split
  · split <;> rfl
  · rfl

theorem up_i (h : s.i < q.netsize) : s.i < (s.up q b g r).i := by
  unfold Search.up
  rw [if_pos h]
  dsimp only
  split
  · exact h
  · rw [look_i]
    exact lt_add_one s.i

theorem up_i_stopped (h : ¬ s.i < q.netsize) : s.up q b g r = s := if_neg h

@[simp] theorem up_j : (s.up q b g r).j = s.j := by
  unfold Search.up
  split
  · dsimp only
    split
    · rfl
    · rw [look_j]
  · rfl

theorem down_j (h : 0 ≤ s.j) : (s.down q b g r).j < s.j := by
  unfold Search.down
  rw [if_pos h]
  dsimp only
  split
  · exact lt_of_lt_of_le neg_one_lt_zero h
  · rw [look_j]
    exact sub_one_lt s.j

theorem down_j_stopped (h : ¬ 0 ≤ s.j) : s.down q b g r = s := if_neg h

@[simp] theorem down_i : (s.down q b g r).i = s.i := by
  unfold Search.down
  split
  · dsimp only
    split
    · rfl
    · rw [look_i]
  · rfl

/-- What is left of the network on both sides. -/
def Search.left : Nat := (q.netsize - s.i).toNat + (s.j + 1).toNat

theorem left_lt (h : s.i < q.netsize ∨ 0 ≤ s.j) :
    ((s.up q b g r).down q b g r).left q < s.left q := by
  have hi : ((s.up q b g r).down q b g r).i = (s.up q b g r).i := down_i ..
  have hup : s.i ≤ (s.up q b g r).i := by
    by_cases hlt : s.i < q.netsize
    · exact (up_i q b g r s hlt).le
    · rw [up_i_stopped q b g r s hlt]
  have hdown : ((s.up q b g r).down q b g r).j ≤ s.j := by
    by_cases hle : 0 ≤ (s.up q b g r).j
    · have hlt := down_j q b g r _ hle
      rw [up_j] at hlt
      exact hlt.le
    · rw [down_j_stopped q b g r _ hle, up_j]
  unfold Search.left
  rw [hi]
  obtain hlt | hle := h
  · have hraised := up_i q b g r s hlt
    omega
  · have hlowered := down_j q b g r (s.up q b g r) (by rw [up_j]; exact hle)
    rw [up_j] at hlowered
    omega

/-- The search, from where it stands to its end. -/
def search (s : Search) : Search :=
  if s.i < q.netsize ∨ 0 ≤ s.j then search ((s.up q b g r).down q b g r) else s
termination_by s.left q
decreasing_by exact left_lt q b g r s (by assumption)

/-- What the search begins with. -/
def searchFrom : Search := ⟨q.netindex g, q.netindex g - 1, 1000, -1⟩

def lumaDiff (r1 g1 b1 r2 g2 b2 : Int) : Int :=
  (r1 * 299 + g1 * 587 + b1 * 114) - (r2 * 299 + g2 * 587 + b2 * 114)

/-- The variables of the search with dither. -/
structure Shades where
  i : Int
  j : Int
  bestdDark : Int
  bestdBright : Int
  darker : Int
  brighter : Int

def Shades.look (p : Pixel) (dist : Int) (s : Shades) : Shades :=
  let lumadiff := lumaDiff p.r p.g p.b r g b
  let dist := |dist| + |p.b - b| + |p.r - r|
  if dist = 0 then { s with bestdDark := dist, bestdBright := dist, darker := p.c, brighter := p.c }
  else if lumadiff < 0 ∧ dist < s.bestdDark then { s with bestdDark := dist, darker := p.c }
  else if 0 < lumadiff ∧ dist < s.bestdBright then { s with bestdBright := dist, brighter := p.c }
  else s

def Shades.up (s : Shades) : Shades :=
  if s.i < q.netsize then
    let p := q.network s.i
    if 1000 ≤ p.g - g then { s with i := q.netsize }
    else { s.look b g r p (p.g - g) with i := s.i + 1 }
  else s

def Shades.down (s : Shades) : Shades :=
  if 0 ≤ s.j then
    let p := q.network s.j
    if 1000 ≤ g - p.g then { s with j := -1 }
    else { s.look b g r p (g - p.g) with j := s.j - 1 }
  else s

theorem shades_look (p : Pixel) (dist : Int) (s : Shades) :
    (s.look b g r p dist).i = s.i ∧ (s.look b g r p dist).j = s.j := by
  unfold Shades.look
  dsimp only
  split
  · exact ⟨rfl, rfl⟩
  · split
    · exact ⟨rfl, rfl⟩
    · split <;> exact ⟨rfl, rfl⟩

/-- The search with dither, which nothing cuts short. -/
def ditherSearch (s : Shades) : Shades :=
  if s.i < q.netsize ∨ 0 ≤ s.j then ditherSearch ((s.up q b g r).down q b g r) else s
termination_by (q.netsize - s.i).toNat + (s.j + 1).toNat
decreasing_by
  unfold Shades.down Shades.up
  grind [shades_look]

end

section

variable (network : Int → Pixel) (netsize : Nat)

/-- The places of the network. -/
def places : Set Int := {k | 0 ≤ k ∧ k < netsize}

/-- The green of an entry. -/
def green (k : Int) : Int := (network k).g

/-- The smallest green so far. -/
structure Smallest.Holds (i n : Nat) (s : Smallest) : Prop where
  val : s.val = green network s.pos
  le : i ≤ s.pos
  lt : s.pos < n
  least : ∀ y : Int, i ≤ y → y < n → s.val ≤ green network y

theorem smallest_turn {i n : Nat} {s : Smallest} (h : s.Holds network i n) (hi : i ≤ n) :
    (s.turn network n).Holds network i (n + 1) := by
  unfold Smallest.turn
  split
  case isTrue hlt =>
    refine ⟨rfl, by simpa using hi, by simp, ?_⟩
    intro y hy hyn
    obtain hlast | rfl := lt_or_eq_of_le (show y ≤ n by omega)
    · exact hlt.le.trans (h.least y hy hlast)
    · exact le_rfl
  case isFalse hge =>
    refine ⟨h.val, h.le, ?_, ?_⟩
    · have hlt := h.lt
      omega
    · intro y hy hyn
      obtain hlast | rfl := lt_or_eq_of_le (show y ≤ n by omega)
      · exact h.least y hy hlast
      · exact le_of_not_gt hge

theorem smallestFrom_holds {i : Nat} (hi : i < netsize) :
    (smallestFrom network netsize i).Holds network i netsize := by
  have hscan : ∀ n, ((List.range' (i + 1) n).foldl (Smallest.turn network) ⟨i, (network i).g⟩).Holds
      network i (i + 1 + n) := by
    intro n
    induction n with
    | zero =>
      refine ⟨rfl, le_rfl, by simp, ?_⟩
      intro y hy hyn
      obtain rfl : y = i := by omega
      exact le_rfl
    | succ n ih =>
      rw [List.range'_1_concat, List.foldl_append]
      exact smallest_turn network ih (Nat.le_add_right_of_le (Nat.le_succ i))
  have hall := hscan (netsize - (i + 1))
  rwa [Nat.add_sub_cancel' hi] at hall

theorem smallestFrom_least {i : Nat} (hi : i < netsize) :
    LeastFrom (places netsize) (green network) i (smallestFrom network netsize i).pos := by
  have h := smallestFrom_holds network netsize hi
  refine ⟨⟨by have hle := h.le; omega, h.lt⟩, h.le, ?_⟩
  intro y hy hiy
  rw [← h.val]
  exact h.least y hiy hy.2

end

section

variable (original : Int → Pixel) (netsize : Nat)

/-- The network is rearranged and sorted up to `i`, the greens before the
previous one have a place of the network. -/
structure Building.Holds (i : Nat) (s : Building) : Prop where
  rearranged : Rearranged (places netsize) original s.network
  sorted : SortedBefore (places netsize) (green s.network) i
  startpos : 0 ≤ s.startpos ∧ s.startpos ≤ i ∧ s.startpos < netsize
  previouscol : 0 ≤ s.previouscol ∧ s.previouscol ≤ 255
  below : ∀ k ∈ places netsize, i ≤ k → s.previouscol ≤ green s.network k
  netindex : ∀ c, 0 ≤ c → c < s.previouscol → s.netindex c ∈ places netsize

/-- The greens are bytes. -/
def GreensAreBytes : Prop := ∀ k ∈ places netsize, 0 ≤ green original k ∧ green original k ≤ 255

variable {original netsize}

theorem Rearranged.greens {network : Int → Pixel} (h : Rearranged (places netsize) original network)
    (hbytes : GreensAreBytes original netsize) : GreensAreBytes network netsize := by
  intro k hk
  obtain ⟨y, hy, heq⟩ := h.exists_place hk
  unfold green
  rw [heq]
  exact hbytes y hy

theorem fill_mem {netindex : Int → Int} {lo hi i c : Int} (hi' : i ∈ places netsize)
    (h : ¬ (lo ≤ c ∧ c < hi) → netindex c ∈ places netsize) :
    fill netindex lo hi i c ∈ places netsize := by
  unfold fill
  split
  case isTrue => exact hi'
  case isFalse hout => exact h hout

/-- Half the sum of two places is one. -/
theorem half_mem {x y : Int} (hx : x ∈ places netsize) (hy : y ∈ places netsize) :
    (x + y) >>> (1 : Nat) ∈ places netsize := by
  rw [Int.shiftRight_eq_div_pow]
  simp only [places, Set.mem_ofPred_eq] at *
  omega

/-- The entry with the smallest green is exchanged for the one at `i`. -/
theorem exchange_pos (network : Int → Pixel) (i pos : Int) :
    (if i ≠ pos then Function.update (Function.update network pos (network i)) i
      (network pos) else network) =
      network ∘ Equiv.swap i pos := by
  split
  · exact exchange_eq network i pos
  case isFalse h =>
    obtain rfl : i = pos := not_not.mp h
    simp

/-- The index goes on up to the next green. -/
theorem fill_previous {s : Building} {i : Nat} (hs : s.Holds original netsize i) (hi : i < netsize)
    {col : Int} {c : Int}
    (hc : 0 ≤ c) (hcol : c < col) :
    fill (Function.update s.netindex s.previouscol ((s.startpos + i) >>> (1 : Nat)))
    (s.previouscol + 1) col i c ∈ places netsize := by
  have hplace : (i : Int) ∈ places netsize := ⟨by omega, by omega⟩
  apply fill_mem hplace
  intro hout
  obtain rfl | hne := eq_or_ne c s.previouscol
  · rw [Function.update_self]
    exact half_mem ⟨hs.startpos.1, hs.startpos.2.2⟩ hplace
  · rw [Function.update_of_ne hne]
    exact hs.netindex c hc (by omega)

theorem building_turn {s : Building} {i : Nat} (hs : s.Holds original netsize i) (hi : i < netsize)
    (hbytes : GreensAreBytes original netsize) :
    (s.turn netsize i).Holds original netsize (i + 1) := by
  have hleast := smallestFrom_least s.network netsize hi
  have hval := (smallestFrom_holds s.network netsize hi).val
  have hplace : (i : Int) ∈ places netsize := ⟨by omega, by omega⟩
  have hrearranged := hs.rearranged.swap hplace hleast.mem
  have hsorted : SortedBefore (places netsize)
      (green (s.network ∘ Equiv.swap (i : Int) (smallestFrom s.network netsize i).pos))
      (i + 1 : Nat) := by
    intro x hx hxi y hy hxy
    exact hs.sorted.swap hplace hleast x hx (by omega) y hy hxy
  have hcol := Rearranged.greens hs.rearranged hbytes _ hleast.mem
  rw [← hval] at hcol
  -- every entry from `i` on has at least the green that is now at `i`
  have hbelow : ∀ k ∈ places netsize, (i + 1 : Nat) ≤ k →
      (smallestFrom s.network netsize i).val ≤
        green (s.network ∘ Equiv.swap (i : Int) (smallestFrom s.network netsize i).pos) k := by
    intro k hk hik
    have hfirst := hsorted i hplace (by omega) k hk (by omega)
    rw [hval]
    simpa [green] using hfirst
  unfold Building.turn
  simp only [exchange_pos]
  split
  case isTrue hne =>
    exact ⟨hrearranged, hsorted, 
      ⟨Int.natCast_nonneg i, Int.ofNat_le.mpr (Nat.le_succ i), Int.ofNat_lt.mpr hi⟩, hcol, hbelow,
      fun c hc hlt => fill_previous hs hi hc hlt⟩
  case isFalse heq =>
    rw [not_not.mp heq] at hbelow
    exact ⟨hrearranged, hsorted, 
      ⟨hs.startpos.1, hs.startpos.2.1.trans (Int.ofNat_le.mpr (Nat.le_succ i)), hs.startpos.2.2⟩,
      hs.previouscol, hbelow, hs.netindex⟩

theorem building_run (netindex : Int → Int) (hbytes : GreensAreBytes original netsize)
    (hpos : 0 < netsize) (n : Nat) (hn : n ≤ netsize) :
    (Building.run netsize ⟨original, netindex, 0, 0⟩ n).Holds original netsize n := by
  induction n with
  | zero =>
    refine ⟨Rearranged.refl original, ?_, ⟨le_rfl, le_rfl, Int.ofNat_lt.mpr hpos⟩,
      ⟨le_rfl, Int.natCast_nonneg 255⟩,
      fun k hk _ => (hbytes k hk).1, ?_⟩
    · intro x hx hlt
      exact absurd hx.1 (not_le.mpr hlt)
    · intro c hc hlt
      exact absurd hc (not_le.mpr hlt)
  | succ n ih =>
    unfold Building.run
    rw [List.range_succ, List.foldl_append]
    exact building_turn (ih (by omega)) hn hbytes

end

/-- The network is sorted by green and has the entries it had, and the index
leads into it. -/
structure Indexed (q q' : Net) : Prop where
  rearranged : Rearranged (places q.netsize) q.network q'.network
  sorted : ∀ x ∈ places q.netsize, ∀ y ∈ places q.netsize, x ≤ y → green q'.network x ≤
    green q'.network y
  netindex : ∀ c, 0 ≤ c → c ≤ 255 → q'.netindex c ∈ places q.netsize
  netsize : q'.netsize = q.netsize

theorem inxbuild_indexed (q : Net) (hbytes : GreensAreBytes q.network q.netsize)
    (hpos : 0 < q.netsize) :
    Indexed q q.inxbuild := by
  have h := building_run q.netindex hbytes hpos q.netsize le_rfl
  have hlast : (q.netsize : Int) - 1 ∈ places q.netsize := ⟨by omega, by omega⟩
  refine ⟨h.rearranged, fun x hx y hy hxy => h.sorted x hx hx.2 y hy hxy, ?_, rfl⟩
  intro c hc hc255
  apply fill_mem hlast
  intro hout
  obtain rfl | hne :=
    eq_or_ne c (Building.run q.netsize ⟨q.network, q.netindex, 0, 0⟩ q.netsize).previouscol
  · rw [Function.update_self]
    exact half_mem ⟨h.startpos.1, h.startpos.2.2⟩ hlast
  · rw [Function.update_of_ne hne]
    exact h.netindex c hc (by omega)

section

variable (q : Net) (b g r : Int)

/-- How far an entry is from a colour. -/
def distanceAt (network : Int → Pixel) (k : Int) : Int := distance (network k) b g r

/-- What the search has is the best of what it has passed. -/
structure Search.Holds (s : Search) : Prop where
  found : s.best = -1 ∧ s.bestd = 1000 ∨
    ∃ k ∈ places q.netsize, s.best = (q.network k).c ∧ s.bestd = distanceAt b g r q.network k
  nearest : NoneNearer (places q.netsize) (distanceAt b g r q.network) s.j s.i s.bestd
  i_nonneg : 0 ≤ s.i
  j_lt : s.j < q.netsize

theorem look_cases (p : Pixel) {dist : Int} (hdist : |dist| = |p.g - g|) (s : Search) :
    s.look p b r dist = s ∧ s.bestd ≤ distance p b g r ∨
      s.look p b r dist = { s with bestd := distance p b g r, best := p.c } ∧
      distance p b g r < s.bestd := by
  have hsum : |dist| + |p.b - b| + |p.r - r| = distance p b g r := by
    rw [hdist]
    unfold distance
    omega
  have hnonneg := abs_nonneg (p.r - r)
  unfold Search.look
  rw [hsum]
  split
  · split
    case isTrue hlt => exact .inr ⟨rfl, hlt⟩
    case isFalse hge => exact .inl ⟨rfl, le_of_not_gt hge⟩
  case isFalse hge => exact .inl ⟨rfl, by omega⟩

theorem green_le_distance (network : Int → Pixel) (k : Int) :
    |green network k - g| ≤ distanceAt b g r network k := by
  have hb := abs_nonneg ((network k).b - b)
  have hr := abs_nonneg ((network k).r - r)
  unfold distanceAt distance green
  omega

variable {q b g r} {s : Search}

/-- An entry that is passed is either not nearer or becomes the best. -/
theorem look_holds {p : Pixel} {k dist i j : Int} (hs : s.Holds q b g r) (hk : k ∈ places q.netsize)
    (hp : p = q.network k)
    (hdist : |dist| = |p.g - g|)
    (hnear : ∀ best ≤ s.bestd, best ≤ distanceAt b g r q.network k →
      NoneNearer (places q.netsize) (distanceAt b g r q.network) j i best)
    (hi : 0 ≤ i) (hj : j < q.netsize) :
    ({ s with i := i, j := j }.look p b r dist).Holds q b g r := by
  have hat : distance p b g r = distanceAt b g r q.network k := by rw [hp]; rfl
  obtain ⟨hlook, hge⟩ | ⟨hlook, hlt⟩ := look_cases b g r p hdist { s with i := i, j := j }
  · rw [hlook]
    exact ⟨hs.found, hnear s.bestd le_rfl (hat ▸ hge), hi, hj⟩
  · rw [hlook]
    refine ⟨.inr ⟨k, hk, by rw [hp], hat⟩, ?_, hi, hj⟩
    exact hnear _ hlt.le hat.le

theorem up_holds (hsorted : ∀ x ∈ places q.netsize, ∀ y ∈ places q.netsize, x ≤ y →
    green q.network x ≤ green q.network y)
    (hs : s.Holds q b g r) : (s.up q b g r).Holds q b g r := by
  unfold Search.up
  split
  case isFalse => exact hs
  case isTrue hlt =>
    have hplace : s.i ∈ places q.netsize := ⟨hs.i_nonneg, hlt⟩
    dsimp only
    split
    case isTrue hcut =>
      -- all the greens from here on are as far away
      refine ⟨hs.found, ?_, Int.natCast_nonneg _, hs.j_lt⟩
      apply hs.nearest.raise
      intro k hk hik _
      calc s.bestd ≤ green q.network s.i - g := hcut
        _ ≤ green q.network k - g := Int.sub_le_sub_right (hsorted _ hplace k hk hik) g
        _ ≤ |green q.network k - g| := le_abs_self _
        _ ≤ distanceAt b g r q.network k := green_le_distance b g r q.network k
    case isFalse =>
      apply look_holds hs hplace rfl rfl
      · intro best hle hbest
        apply (hs.nearest.mono hle).raise
        intro k _ hik hki
        obtain rfl : k = s.i := by omega
        exact hbest
      · have hnonneg := hs.i_nonneg
        omega
      · exact hs.j_lt

theorem down_holds (hsorted : ∀ x ∈ places q.netsize, ∀ y ∈ places q.netsize, x ≤ y →
    green q.network x ≤ green q.network y)
    (hs : s.Holds q b g r) : (s.down q b g r).Holds q b g r := by
  unfold Search.down
  split
  case isFalse => exact hs
  case isTrue hle =>
    have hplace : s.j ∈ places q.netsize := ⟨hle, hs.j_lt⟩
    dsimp only
    split
    case isTrue hcut =>
      refine ⟨hs.found, ?_, hs.i_nonneg, lt_of_lt_of_le neg_one_lt_zero (Int.natCast_nonneg _)⟩
      apply hs.nearest.lower
      intro k hk _ hkj
      calc s.bestd ≤ g - green q.network s.j := hcut
        _ ≤ g - green q.network k := Int.sub_le_sub_left (hsorted k hk _ hplace hkj) g
        _ ≤ |g - green q.network k| := le_abs_self _
        _ = |green q.network k - g| := abs_sub_comm _ _
        _ ≤ distanceAt b g r q.network k := green_le_distance b g r q.network k
    case isFalse =>
      apply look_holds hs hplace rfl (abs_sub_comm _ _)
      · intro best hle hbest
        apply (hs.nearest.mono hle).lower
        intro k _ hjk hkj
        obtain rfl : k = s.j := by omega
        exact hbest
      · exact hs.i_nonneg
      · have hlt := hs.j_lt
        omega

/-- The search keeps the best of what it has passed, and passes everything. -/
theorem search_holds (hsorted : ∀ x ∈ places q.netsize, ∀ y ∈ places q.netsize, x ≤ y →
    green q.network x ≤ green q.network y)
    (hs : s.Holds q b g r) : (search q b g r s).Holds q b g r ∧
      q.netsize ≤ (search q b g r s).i ∧ (search q b g r s).j < 0 := by
  fun_induction search q b g r s with
  | case1 s hgo ih => exact ih (down_holds hsorted (up_holds hsorted hs))
  | case2 s hstop => exact ⟨hs, by omega, by omega⟩

end

/-- A component of a colour. -/
def IsByte (x : Int) : Prop := 0 ≤ x ∧ x ≤ 255

/-- The components of the network are bytes. -/
def Net.Bytes (q : Net) : Prop :=
  ∀ k ∈ places q.netsize, IsByte (q.network k).b ∧ IsByte (q.network k).g ∧ IsByte (q.network k).r

theorem Indexed.bytes {q q' : Net} (h : Indexed q q') (hbytes : q.Bytes) : q'.Bytes := by
  intro k hk
  rw [h.netsize] at hk
  obtain ⟨y, hy, heq⟩ := h.rearranged.exists_place hk
  rw [heq]
  exact hbytes y hy

theorem distance_lt {p : Pixel} {b g r : Int} (hp : IsByte p.b ∧ IsByte p.g ∧ IsByte p.r)
    (hb : IsByte b) (hg : IsByte g)
    (hr : IsByte r) : distance p b g r < 1000 := by
  obtain ⟨⟨hpb, hpb'⟩, ⟨hpg, hpg'⟩, hpr, hpr'⟩ := hp
  have h1 : |p.b - b| ≤ 255 := abs_le.mpr ⟨by have h := hb.2; omega, by have h := hb.1; omega⟩
  have h2 : |p.g - g| ≤ 255 := abs_le.mpr ⟨by have h := hg.2; omega, by have h := hg.1; omega⟩
  have h3 : |p.r - r| ≤ 255 := abs_le.mpr ⟨by have h := hr.2; omega, by have h := hr.1; omega⟩
  unfold distance
  omega

/-- The search comes to an entry, and no other one is nearer. -/
def Nearest (q : Net) (b g r best : Int) : Prop :=
  ∃ k ∈ places q.netsize, best = (q.network k).c ∧
    IsLeast (Set.image (distanceAt b g r q.network) (places q.netsize))
      (distanceAt b g r q.network k)

theorem search_nearest {q q' : Net} (h : Indexed q q') (hbytes : q.Bytes)
    (hpos : 0 < q.netsize) {b g r : Int}
    (hb : IsByte b) (hg : IsByte g) (hr : IsByte r) :
    Nearest q' b g r (search q' b g r (searchFrom q' g)).best := by
  have hsorted : ∀ x ∈ places q'.netsize, ∀ y ∈ places q'.netsize, x ≤ y → green q'.network x ≤
      green q'.network y := by
    rw [h.netsize]
    exact h.sorted
  have hplace := h.netindex g hg.1 hg.2
  rw [← h.netsize] at hplace
  have hbegin : (searchFrom q' g).Holds q' b g r := by
    refine ⟨.inl ⟨rfl, rfl⟩, ?_, hplace.1, (sub_one_lt _).trans hplace.2⟩
    intro k _ hlo hhi
    exact absurd (Int.sub_one_lt_iff.mp hlo) (not_le.mpr hhi)
  obtain ⟨hholds, hi, hj⟩ := search_holds hsorted hbegin
  have hall : ∀ k ∈ places q'.netsize, (search q' b g r (searchFrom q' g)).bestd ≤
      distanceAt b g r q'.network k :=
    fun k hk => hholds.nearest k hk (hj.trans_le hk.1) (hk.2.trans_le hi)
  obtain ⟨-, hnone⟩ | ⟨k, hk, hbest, hbestd⟩ := hholds.found
  · -- the distance to the first entry is less than what the search begins with
    have hfirst : (0 : Int) ∈ places q'.netsize :=
      ⟨le_rfl, by rw [h.netsize]; exact Int.ofNat_lt.mpr hpos⟩
    have hle := hall 0 hfirst
    rw [hnone] at hle
    exact absurd (distance_lt (h.bytes hbytes 0 hfirst) hb hg hr) (not_lt.mpr hle)
  · refine ⟨k, hk, hbest, ⟨k, hk, rfl⟩, ?_⟩
    intro d ⟨x, hx, hd⟩
    rw [← hd, ← hbestd]
    exact hall x hx

/-- The index is built, and every colour is found with it. -/
structure IndexesColours (q : Net) : Prop where
  rearranged : Rearranged (places q.netsize) q.network q.inxbuild.network
  sorted : ∀ x ∈ places q.netsize, ∀ y ∈ places q.netsize, x ≤ y → (q.inxbuild.network x).g ≤
    (q.inxbuild.network y).g
  netindex : ∀ c, IsByte c → q.inxbuild.netindex c ∈ places q.netsize
  nearest : ∀ b g r, IsByte b → IsByte g → IsByte r →
    Nearest q.inxbuild b g r (search q.inxbuild b g r (searchFrom q.inxbuild g)).best

/-- The pruned search finds what a search of the whole network would find. -/
theorem inxbuild_indexesColours (q : Net) (hpos : 0 < q.netsize) (hbytes : q.Bytes) :
    IndexesColours q := by
  have h := inxbuild_indexed q (fun k hk => (hbytes k hk).2.1) hpos
  exact ⟨h.rearranged, h.sorted, fun c hc => h.netindex c hc.1 hc.2,
    fun b g r hb hg hr => search_nearest h hbytes hpos hb hg hr⟩

theorem inxbuild_indexesColours_twoGreys :
    IndexesColours ⟨fun i => ⟨200 - i, 200 - i, 200 - i, i⟩, 2, 0, fun _ => 0, 0, 0, fun _ => 0,
      fun _ => 0, fun _ => 0, fun _ => 0⟩ := by
  apply inxbuild_indexesColours
  · decide
  · intro k hk
    obtain ⟨hlo, hhi⟩ := hk
    simp only [IsByte] at *
    omega

end NeuQuant
