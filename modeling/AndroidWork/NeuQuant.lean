import Mathlib.Algebra.Order.Group.Unbundled.Int
import Mathlib.Data.Nat.Prime.Basic
import Mathlib.Logic.Function.Basic
import Mathlib.Tactic.NormNum.GCD

/-!
# The quantiser's learning

`initnet` and `learn` of NeuQuant, as `quantise` calls them. The arrays of the
object are functions of an index, and what an object has from an earlier
picture is arbitrary.
-/
namespace NeuQuant

/-- BGRc -/
structure Pixel where
  b : Int
  g : Int
  r : Int
  c : Int

/-- A bitmap of 32-bit words. -/
structure DIB where
  width : Nat
  height : Nat
  bits : Nat → BitVec 32
  width_pos : 0 < width
  height_pos : 0 < height
  size_lt : width * height * 4 < 2 ^ 31

def DIB.total (img : DIB) : Nat := img.width * img.height

theorem DIB.total_pos (img : DIB) : 0 < img.total := Nat.mul_pos img.width_pos img.height_pos

/-- The fields of the object. -/
structure Net where
  network : Int → Pixel
  netsize : Nat
  alphadec : Int
  thepicture : Nat → BitVec 32
  lengthcount : Int
  samplefac : Int
  netindex : Int → Int
  bias : Int → Int
  freq : Int → Int
  radpower : Int → Int

/-- An object before its first picture, with zeros in it. -/
def freshNet : Net :=
  ⟨fun _ => ⟨0, 0, 0, 0⟩, 0, 0, fun _ => 0, 0, 0, fun _ => 0, fun _ => 0, fun _ => 0, fun _ => 0⟩

abbrev ncycles : Int := 100
abbrev intbias : Int := 65536
abbrev beta : Int := 64
abbrev betagamma : Int := 65536
abbrev radiusbias : Int := 64
abbrev radiusdec : Int := 30
abbrev initalpha : Int := 1024
abbrev radbias : Int := 256
abbrev alpharadbias : Int := 262144

abbrev prime1 : Nat := 499
abbrev prime2 : Nat := 491
abbrev prime3 : Nat := 487
abbrev prime4 : Nat := 503

/-- A quotient, unless the divisor is zero. -/
def divide (x y : Int) : Option Int := if y = 0 then none else some (x.tdiv y)

/-- A remainder, unless the divisor is zero. -/
def remainder (x y : Int) : Option Int := if y = 0 then none else some (x.tmod y)

theorem divide_of_ne {y : Int} (x : Int) (h : y ≠ 0) : divide x y = some (x.tdiv y) := if_neg h

theorem remainder_of_ne {y : Int} (x : Int) (h : y ≠ 0) :
    remainder x y = some (x.tmod y) := if_neg h

section

variable (q : Net)

def Net.initnet (thepic : Nat → BitVec 32) (len sample : Int) : Net where
  network i :=
    if 0 ≤ i ∧ i < q.netsize then
      ⟨i * 2 ^ 12 / q.netsize, i * 2 ^ 12 / q.netsize, i * 2 ^ 12 / q.netsize, (q.network i).c⟩
    else q.network i
  netsize := q.netsize
  alphadec := q.alphadec
  thepicture := thepic
  lengthcount := len
  samplefac := sample
  netindex := q.netindex
  bias i := if 0 ≤ i ∧ i < q.netsize then 0 else q.bias i
  freq i := if 0 ≤ i ∧ i < q.netsize then intbias / q.netsize else q.freq i
  radpower := q.radpower

/-- The sum of the differences of the components. -/
def distance (p : Pixel) (b g r : Int) : Int := |p.b - b| + |p.g - g| + |p.r - r|

/-- The variables of the loop of `contest`. -/
structure Contest where
  freq : Int → Int
  bias : Int → Int
  bestd : Int
  bestbiasd : Int
  bestpos : Int
  bestbiaspos : Int

def Contest.turn (network : Int → Pixel) (b g r : Int) (s : Contest) (i : Nat) : Contest :=
  let dist := distance (network i) b g r
  let biasdist := dist - s.bias i >>> (12 : Nat)
  let betafreq := s.freq i >>> (10 : Nat)
  { freq := Function.update s.freq i (s.freq i - betafreq)
    bias := Function.update s.bias i (s.bias i + betafreq * 2 ^ 10)
    bestd := if dist < s.bestd then dist else s.bestd
    bestbiasd := if biasdist < s.bestbiasd then biasdist else s.bestbiasd
    bestpos := if dist < s.bestd then i else s.bestpos
    bestbiaspos := if biasdist < s.bestbiasd then i else s.bestbiaspos }

def Contest.run (network : Int → Pixel) (b g r : Int) (s : Contest) (netsize : Nat) : Contest :=
  (List.range netsize).foldl (Contest.turn network b g r) s

/-- The neuron that is to be moved, and the object with its `freq` and `bias`. -/
def Net.contest (b g r : Int) : Int × Net :=
  let s := Contest.run q.network b g r ⟨q.freq, q.bias, 2 ^ 31 - 1, 2 ^ 31 - 1, -1, -1⟩ q.netsize
  (s.bestbiaspos, { q with
    freq := Function.update s.freq s.bestpos (s.freq s.bestpos + beta)
    bias := Function.update s.bias s.bestpos (s.bias s.bestpos - betagamma) })

/-- `n` moved towards a colour by `a / unit` of the way. -/
def Pixel.moved (n : Pixel) (a unit b g r : Int) : Pixel where
  b := n.b - (a * (n.b - b)).tdiv unit
  g := n.g - (a * (n.g - g)).tdiv unit
  r := n.r - (a * (n.r - r)).tdiv unit
  c := n.c

def Net.altersingle (alpha i b g r : Int) : Net :=
  { q with network := Function.update q.network i ((q.network i).moved alpha initalpha b g r) }

/-- The loop of `alterneigh`, with `m` for `q - radpower`. -/
def neighbours (radpower : Int → Int) (b g r lo hi : Int) (network : Int → Pixel)
    (j k m : Int) : Int → Pixel :=
  if j < hi ∨ lo < k then
    let a := radpower (m + 1)
    let above := if j < hi then Function.update network j ((network j).moved a alpharadbias b g r)
      else network
    let below :=
      if lo < k then Function.update above k ((above k).moved a alpharadbias b g r) else above
    neighbours radpower b g r lo hi below (if j < hi then j + 1 else j) (if lo < k then
      k - 1 else k) (m + 1)
  else network
termination_by (hi - j).toNat + (k - lo).toNat
decreasing_by
  split <;> split <;> omega

def Net.alterneigh (rad i b g r : Int) : Net :=
  { q with network :=
      neighbours q.radpower b g r (max (i - rad) (-1)) (min
        (i + rad) q.netsize) q.network (i + 1) (i - 1) 0 }

/-- `radius` without its bias. -/
def radFor (radius : Int) : Int := if radius >>> (6 : Nat) ≤ 1 then 0 else radius >>> (6 : Nat)

def radpowerTurn (alpha rad : Int) (radpower : Int → Int) (i : Nat) : Option (Int → Int) :=
  (divide ((rad * rad - i * i) * radbias) (rad * rad)).map fun x =>
    Function.update radpower i (alpha * x)

/-- The loops that precompute `radpower`. -/
def fillRadpower (alpha rad : Int) (radpower : Int → Int) : Option (Int → Int) :=
  (List.range rad.toNat).foldlM (radpowerTurn alpha rad) radpower

/-- The variables of the loop of `learn`, with `p` as a number of pixels. -/
structure Learning where
  net : Net
  p : Nat
  i : Int
  alpha : Int
  radius : Int
  rad : Int

/-- What follows a learning cycle. -/
def Learning.decay (s : Learning) : Option Learning :=
  (divide s.alpha s.net.alphadec).bind fun x =>
    let alpha := s.alpha - x
    let radius := s.radius - s.radius.tdiv radiusdec
    (fillRadpower alpha (radFor radius) s.net.radpower).map fun radpower =>
      { s with net := { s.net with radpower := radpower }, alpha := alpha, radius :=
        radius, rad := radFor radius }

/-- A byte of a pixel. -/
def byteOf (word : BitVec 32) (shift : Nat) : Int := ((word >>> shift &&& 0xff#32).toNat : Int)

/-- A component of a pixel, with the bias of the network. -/
def component (word : BitVec 32) (shift : Nat) : Int := byteOf word shift * 2 ^ 4

/-- The pixel that `p` points at is learnt. -/
def Learning.present (s : Learning) : Net :=
  let word := s.net.thepicture s.p
  let b := component word 0
  let g := component word 8
  let r := component word 16
  let j := (s.net.contest b g r).1
  let net := (s.net.contest b g r).2.altersingle s.alpha j b g r
  if s.rad = 0 then net else net.alterneigh s.rad j b g r

/-- The pointer behind the step, or at the beginning again. -/
def Learning.next (step : Nat) (s : Learning) : Nat :=
  if s.net.lengthcount ≤ 4 * ((s.p + step : Nat) : Int) then 0 else s.p + step

def Learning.turn (delta : Int) (step : Nat) (s : Learning) : Option Learning :=
  let s' := { s with net := s.present, p := s.next step, i := s.i + 1 }
  (remainder s'.i delta).bind fun x => if x = 0 then s'.decay else some s'

/-- The loop of `learn`: the pixels that it reads, and where it comes to. -/
def learnLoop (delta : Int) (step : Nat) : Nat → Learning → List Nat × Option Net
  | 0, s => ([], some s.net)
  | n + 1, s =>
    match s.turn delta step with
    | none => ([s.p], none)
    | some s' => (s.p :: (learnLoop delta step n s').1, (learnLoop delta step n s').2)

def stepFor (lengthcount : Int) : Nat :=
  if lengthcount.tmod prime1 ≠ 0 then prime1
  else if lengthcount.tmod prime2 ≠ 0 then prime2
  else if lengthcount.tmod prime3 ≠ 0 then prime3
  else prime4

def Net.initradius : Int := ((q.netsize >>> (3 : Nat) : Nat) : Int) * radiusbias

/-- What the loop of `learn` begins with. -/
def Net.begun (radpower : Int → Int) : Learning where
  net := { q with alphadec := 30 + (q.samplefac - 1).tdiv 3, radpower := radpower }
  p := 0
  i := 0
  alpha := initalpha
  radius := q.initradius
  rad := radFor q.initradius

/-- The pixels that `learn` reads, in order, and the object afterwards unless a
division or a remainder by zero has ended the process. -/
def Net.learn : List Nat × Option Net :=
  match divide q.lengthcount (4 * q.samplefac) with
  | none => ([], none)
  | some samplepixels =>
    match fillRadpower initalpha (radFor q.initradius) q.radpower with
    | none => ([], none)
    | some radpower =>
      learnLoop (samplepixels.tdiv ncycles) (stepFor q.lengthcount) samplepixels.toNat
        (q.begun radpower)

end

/-- The quality that `quantise` works with. -/
def clampQuality (quality : Int) : Int :=
  if 30 < quality.tdiv 3 then 30 else if quality.tdiv 3 < 1 then 1 else quality.tdiv 3

/-- The number of colours that `quantise` works with. -/
def clampColors (numColors : Int) : Nat :=
  if numColors < 2 then 2 else if 256 < numColors then 256 else numColors.toNat

/-- The sampling factor for a quality. -/
def sampleFactor (quality : Int) : Int := 31 - clampQuality quality

/-- `quantise` up to `initnet`. -/
def Net.prepared (q : Net) (srcimage : DIB) (numColors quality : Int) : Net :=
  { q with netsize := clampColors numColors }.initnet srcimage.bits (srcimage.total * 4 : Nat)
    (sampleFactor quality)

section

variable (delta : Int) (step : Nat) (s : Learning)

@[simp] theorem contest_alphadec (q : Net) (b g r : Int) :
    (q.contest b g r).2.alphadec = q.alphadec := rfl

@[simp] theorem contest_lengthcount (q : Net) (b g r : Int) :
    (q.contest b g r).2.lengthcount = q.lengthcount := rfl

@[simp] theorem present_alphadec : s.present.alphadec = s.net.alphadec := by
  unfold Learning.present
  simp only
  split <;> rfl

@[simp] theorem present_lengthcount : s.present.lengthcount = s.net.lengthcount := by
  unfold Learning.present
  simp only
  split <;> rfl

theorem radpowerTurn_of_pos {rad : Int} (h : 0 < rad) (alpha : Int)
    (radpower : Int → Int) (i : Nat) :
    radpowerTurn alpha rad radpower i =
      some (Function.update radpower i (alpha * ((rad * rad - i * i) * radbias).tdiv
        (rad * rad))) := by
  rw [radpowerTurn, divide_of_ne _ (mul_pos h h).ne', Option.map_some]

/-- No square of a radius is zero where `radpower` is filled. -/
theorem fillRadpower_isSome (alpha rad : Int) (radpower : Int → Int) :
    (fillRadpower alpha rad radpower).isSome := by
  unfold fillRadpower
  by_cases h : rad ≤ 0
  · simp [Int.toNat_of_nonpos h]
  · generalize List.range rad.toNat = l
    induction l generalizing radpower with
    | nil => rfl
    | cons i l ih =>
      rw [List.foldlM_cons, radpowerTurn_of_pos (not_le.mp h)]
      exact ih _

/-- What a turn leaves of the object and of the pointer. -/
structure Learning.Goes (s s' : Learning) : Prop where
  alphadec : s'.net.alphadec = s.net.alphadec
  lengthcount : s'.net.lengthcount = s.net.lengthcount
  p : s'.p = s.next step

/-- What the end of a learning cycle leaves alone. -/
structure Learning.Decays (s s' : Learning) : Prop where
  alphadec : s'.net.alphadec = s.net.alphadec
  lengthcount : s'.net.lengthcount = s.net.lengthcount
  p : s'.p = s.p

theorem decay_isSome (h : s.net.alphadec ≠ 0) : s.decay.isSome := by
  simp [Learning.decay, divide_of_ne _ h, fillRadpower_isSome]

theorem decay_decays {s s' : Learning} (h : s.decay = some s') : s.Decays s' := by
  obtain ⟨x, -, hx⟩ := Option.bind_eq_some_iff.mp h
  obtain ⟨radpower, -, rfl⟩ := Option.map_eq_some_iff.mp hx
  exact ⟨rfl, rfl, rfl⟩

/-- With a decay interval and an alpha to divide by, a turn goes on. -/
theorem turn_isSome (hdelta : delta ≠ 0) (h : s.net.alphadec ≠ 0) : (s.turn delta step).isSome := by
  unfold Learning.turn
  simp only [remainder_of_ne _ hdelta, Option.bind_some]
  split
  · exact decay_isSome _ (by simpa using h)
  · rfl

theorem turn_goes {s s' : Learning} (h : s.turn delta step = some s') : s.Goes step s' := by
  obtain ⟨x, -, hx⟩ := Option.bind_eq_some_iff.mp h
  split at hx
  · have hdecays := decay_decays hx
    exact ⟨by simpa using hdecays.alphadec, by simpa using hdecays.lengthcount, hdecays.p⟩
  · obtain rfl := Option.some.inj hx
    exact ⟨by simp, by simp, rfl⟩

/-- Without a decay interval the first turn ends the process. -/
theorem turn_zero : s.turn 0 step = none := rfl

theorem learnLoop_isSome (hdelta : delta ≠ 0) (n : Nat) (h : s.net.alphadec ≠ 0) :
    (learnLoop delta step n s).2.isSome := by
  induction n generalizing s with
  | zero => rfl
  | succ n ih =>
    obtain ⟨s', hs'⟩ := Option.isSome_iff_exists.mp (turn_isSome delta step s hdelta h)
    simp only [learnLoop, hs']
    exact ih s' (by rw [(turn_goes delta step hs').alphadec]; exact h)

/-- What holds of the pointer at the beginning, and of the place a step leads to
from where it holds, holds of every pixel that is read. -/
theorem mem_learnLoop {P : Nat → Prop}
    (hnext : ∀ t : Learning, t.net.lengthcount = s.net.lengthcount → P t.p → P (t.next step))
    (hp : P s.p) (n : Nat) : ∀ p ∈ (learnLoop delta step n s).1, P p := by
  induction n generalizing s with
  | zero => simp [learnLoop]
  | succ n ih =>
    intro p hmem
    cases hturn : s.turn delta step with
    | none =>
      simp only [learnLoop, hturn, List.mem_singleton] at hmem
      exact hmem ▸ hp
    | some s' =>
      have hgoes := turn_goes delta step hturn
      simp only [learnLoop, hturn, List.mem_cons] at hmem
      obtain rfl | hmem := hmem
      · exact hp
      · apply ih s' (fun t ht => hnext t (ht.trans hgoes.lengthcount)) _ p hmem
        rw [hgoes.p]
        exact hnext s rfl hp

end

section

variable (q : Net) (srcimage : DIB) (numColors quality : Int)

theorem clampQuality_bounds : 1 ≤ clampQuality quality ∧ clampQuality quality ≤ 30 := by
  unfold clampQuality
  split
  · omega
  · split <;> omega

theorem sampleFactor_bounds : 1 ≤ sampleFactor quality ∧ sampleFactor quality ≤ 30 := by
  have h := clampQuality_bounds quality
  unfold sampleFactor
  omega

/-- The number of pixels that are to be learnt. -/
def samplePixels : Nat := srcimage.total / (sampleFactor quality).toNat

theorem divide_samplePixels :
    divide (srcimage.total * 4 : Nat) (4 * sampleFactor quality) =
      some (samplePixels srcimage quality : Int) := by
  obtain ⟨f, hf⟩ := Int.eq_ofNat_of_zero_le
    (show 0 ≤ sampleFactor quality by have h := sampleFactor_bounds quality; omega)
  have hpos : 0 < f := by have h := sampleFactor_bounds quality; omega
  rw [divide_of_ne _ (by omega), hf, samplePixels, hf, Int.toNat_natCast]
  have hquotient : srcimage.total * 4 / (4 * f) = srcimage.total / f := by
    rw [Nat.mul_comm, Nat.mul_div_mul_left _ _ (by decide)]
  rw [← hquotient]
  rfl

/-- `learn` is its loop. -/
theorem learn_prepared : ∃ radpower,
    fillRadpower initalpha (radFor (q.prepared srcimage numColors quality).initradius)
      q.radpower = some radpower ∧
    (q.prepared srcimage numColors quality).learn =
      learnLoop (samplePixels srcimage quality / 100 : Nat) (stepFor (srcimage.total * 4 : Nat))
      (samplePixels srcimage quality)
        ((q.prepared srcimage numColors quality).begun radpower) := by
  obtain ⟨radpower, hradpower⟩ := Option.isSome_iff_exists.mp
    (fillRadpower_isSome initalpha (radFor (q.prepared srcimage numColors quality).initradius)
      q.radpower)
  refine ⟨radpower, hradpower, ?_⟩
  unfold Net.learn
  have hdivide : divide (q.prepared srcimage numColors quality).lengthcount
      (4 * (q.prepared srcimage numColors quality).samplefac) =
        some (samplePixels srcimage quality : Int) :=
    divide_samplePixels srcimage quality
  have hfill : fillRadpower initalpha (radFor (q.prepared srcimage numColors quality).initradius)
      (q.prepared srcimage numColors quality).radpower = some radpower := hradpower
  simp only [hdivide, hfill, Int.toNat_natCast]
  rfl

theorem begun_alphadec (radpower : Int → Int) :
    ((q.prepared srcimage numColors quality).begun radpower).net.alphadec ≠ 0 := by
  have h := sampleFactor_bounds quality
  have hnonneg : 0 ≤ (sampleFactor quality - 1).tdiv 3 := Int.tdiv_nonneg (by omega) (by decide)
  simp only [Net.begun, Net.prepared, Net.initnet]
  omega

/-- No pixel behind the picture is read, whatever the quality. -/
theorem learn_inside : ∀ p ∈ (q.prepared srcimage numColors quality).learn.1,
    p < srcimage.total := by
  obtain ⟨radpower, -, hlearn⟩ := learn_prepared q srcimage numColors quality
  rw [hlearn]
  apply mem_learnLoop
  · intro t ht _
    have hlength : t.net.lengthcount = ((srcimage.total * 4 : Nat) : Int) := ht
    unfold Learning.next
    split
    · exact srcimage.total_pos
    · omega
  · exact srcimage.total_pos

theorem learn_isSome_iff : (q.prepared srcimage numColors quality).learn.2.isSome ↔
    samplePixels srcimage quality = 0 ∨ 100 ≤ samplePixels srcimage quality := by
  obtain ⟨radpower, -, hlearn⟩ := learn_prepared q srcimage numColors quality
  rw [hlearn]
  by_cases hzero : samplePixels srcimage quality = 0
  · simp [hzero, learnLoop]
  · by_cases hdelta : 100 ≤ samplePixels srcimage quality
    · have hpos : ((samplePixels srcimage quality / 100 : Nat) : Int) ≠ 0 := by omega
      exact iff_of_true (learnLoop_isSome _ _ _ hpos _
        (begun_alphadec q srcimage numColors quality radpower)) (.inr hdelta)
    · obtain ⟨n, hn⟩ := Nat.exists_eq_succ_of_ne_zero hzero
      have hnone : samplePixels srcimage quality / 100 = 0 := by omega
      refine iff_of_false ?_ (by omega)
      rw [hnone, hn]
      simp [learnLoop, turn_zero]

/-- No division and no remainder by zero, and no pixel read outside the picture. -/
def LearnsSafely : Prop :=
  (q.prepared srcimage numColors quality).learn.2.isSome ∧
    ∀ p ∈ (q.prepared srcimage numColors quality).learn.1, p < srcimage.width * srcimage.height

theorem samplePixels_iff : samplePixels srcimage quality = 0 ∨ 100 ≤ samplePixels srcimage quality ↔
    (srcimage.width * srcimage.height : Int) < sampleFactor quality ∨
      100 * sampleFactor quality ≤ srcimage.width * srcimage.height := by
  have hfactor := sampleFactor_bounds quality
  have hpos : 0 < (sampleFactor quality).toNat := by omega
  have htotal : ((srcimage.total : Nat) : Int) = srcimage.width * srcimage.height := by
    simp [DIB.total]
  rw [← htotal, samplePixels, Nat.div_eq_zero_iff_lt hpos, Nat.le_div_iff_mul_le hpos]
  omega

/-- Learning is safe where no pixel is to be learnt, or a hundred or more. -/
theorem learnsSafely_iff : LearnsSafely q srcimage numColors quality ↔
    (srcimage.width * srcimage.height : Int) < sampleFactor quality ∨
      100 * sampleFactor quality ≤ srcimage.width * srcimage.height :=
  calc LearnsSafely q srcimage numColors quality
      ↔ (q.prepared srcimage numColors quality).learn.2.isSome :=
        and_iff_left (learn_inside q srcimage numColors quality)
    _ ↔ samplePixels srcimage quality = 0 ∨ 100 ≤ samplePixels srcimage quality :=
      learn_isSome_iff q srcimage numColors quality
    _ ↔ _ := samplePixels_iff srcimage quality

/-- At the best quality every pixel of a picture with less than a hundred is to
be learnt, and no cycle is as long as one of them. -/
theorem not_learnsSafely_onePixel :
    ¬ LearnsSafely freshNet ⟨1, 1, fun _ => 0, by decide, by decide, by decide⟩ 256 100 := by
  intro h
  have hpixels := (learn_isSome_iff _ _ _ _).mp h.1
  revert hpixels
  decide

theorem one_lt_stepFor (lengthcount : Int) : 1 < stepFor lengthcount := by
  unfold stepFor
  split
  · decide
  · split
    · decide
    · split <;> decide

/-- The pointer is never moved to the second pixel. -/
theorem learn_one_not_mem : 1 ∉ (q.prepared srcimage numColors quality).learn.1 := by
  obtain ⟨radpower, -, hlearn⟩ := learn_prepared q srcimage numColors quality
  have hstep := one_lt_stepFor (srcimage.total * 4 : Nat)
  rw [hlearn]
  intro hmem
  refine mem_learnLoop _ _ _ (P := fun p => p ≠ 1) ?_ (show (0 : Nat) ≠ 1 by decide) _ 1 hmem rfl
  intro t _ _
  simp only [Learning.next]
  split <;> omega

/-- Every pixel is presented once. -/
def PresentsAll : Prop :=
  (q.prepared srcimage numColors quality).learn.1.Perm
    (List.range (srcimage.width * srcimage.height))

theorem learn_onePixel (h : samplePixels srcimage quality = 1) :
    (q.prepared srcimage numColors quality).learn.1 = [0] := by
  obtain ⟨radpower, -, hlearn⟩ := learn_prepared q srcimage numColors quality
  rw [hlearn, h]
  rfl

/-- With every pixel to be learnt, the walk goes back to the first one and not
on where the step leads modulo the length; it comes to all of them where there
is one. -/
theorem presentsAll_iff (hquality : sampleFactor quality = 1) :
    PresentsAll q srcimage numColors quality ↔ srcimage.width * srcimage.height = 1 := by
  unfold PresentsAll
  constructor
  · intro h
    have hpos := srcimage.total_pos
    by_contra hne
    apply learn_one_not_mem q srcimage numColors quality
    rw [h.mem_iff, List.mem_range]
    unfold DIB.total at hpos
    omega
  · intro h
    have hone : samplePixels srcimage quality = 1 := by simp [samplePixels, DIB.total, h, hquality]
    rw [learn_onePixel q srcimage numColors quality hone, h]
    rfl

theorem presentsAll_onePixel : PresentsAll freshNet
    ⟨1, 1, fun _ => 0, by decide, by decide, by decide⟩ 256 100 :=
  (presentsAll_iff _ _ _ _ (by decide)).mpr rfl

end

/-- A hundred pixels have no factor in common with the step, which leads behind
all of them: the first one is presented a hundred times. -/
theorem not_presentsAll_tenByTen : Nat.Coprime (10 * 10) (stepFor (10 * 10 * 4)) ∧
    ¬ PresentsAll freshNet ⟨10, 10, fun _ => 0, by decide, by decide, by decide⟩ 256 100 := by
  refine ⟨by decide, ?_⟩
  intro h
  exact learn_one_not_mem _ _ _ _ (h.mem_iff.mpr (by decide))

end NeuQuant
