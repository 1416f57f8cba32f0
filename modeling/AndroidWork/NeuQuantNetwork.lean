import AndroidWork.NeuQuantIndex

/-!
# The network while it learns

What `learn` keeps of the object: the components stay between black and white
with their bias, and the neuron that `contest` chooses is one of the network.
-/
namespace NeuQuant

theorem part_mem {a unit d : Int} (ha : 0 ≤ a) (hau : a ≤ unit) (hunit : 0 < unit) (hd : 0 ≤ d) :
    0 ≤ (a * d).tdiv unit ∧ (a * d).tdiv unit ≤ d := by
  have hnonneg : 0 ≤ a * d := mul_nonneg ha hd
  refine ⟨Int.tdiv_nonneg hnonneg hunit.le, ?_⟩
  rw [Int.tdiv_eq_ediv_of_nonneg hnonneg]
  apply Int.ediv_le_of_le_mul hunit
  calc a * d ≤ unit * d := mul_le_mul_of_nonneg_right hau hd
    _ = d * unit := mul_comm unit d

/-- Part of the way from one value to another stays between bounds on both. -/
theorem moved_mem {a unit x t lo hi : Int} (ha : 0 ≤ a) (hau : a ≤ unit) (hunit : 0 < unit)
    (hx : lo ≤ x ∧ x ≤ hi)
    (ht : lo ≤ t ∧ t ≤ hi) : lo ≤ x - (a * (x - t)).tdiv unit ∧
    x - (a * (x - t)).tdiv unit ≤ hi := by
  obtain hle | hlt := le_or_gt t x
  · have hpart := part_mem ha hau hunit (sub_nonneg.mpr hle)
    omega
  · have hpart := part_mem ha hau hunit (sub_nonneg.mpr hlt.le)
    have hneg : a * (x - t) = -(a * (t - x)) := by rw [← mul_neg, neg_sub]
    rw [hneg, Int.neg_tdiv]
    omega

/-- A component with its bias. -/
def IsBiased (x : Int) : Prop := 0 ≤ x ∧ x ≤ 4095

/-- The components of an entry, with their bias. -/
structure Pixel.IsBiased (p : Pixel) : Prop where
  b : NeuQuant.IsBiased p.b
  g : NeuQuant.IsBiased p.g
  r : NeuQuant.IsBiased p.r

theorem byteOf_isByte (word : BitVec 32) (shift : Nat) : IsByte (byteOf word shift) := by
  have hlt : (word >>> shift &&& 0xff#32).toNat ≤ 0xff := by
    rw [BitVec.toNat_and]
    exact Nat.and_le_right
  unfold byteOf IsByte
  omega

theorem component_biased (word : BitVec 32) (shift : Nat) : IsBiased (component word shift) := by
  obtain ⟨hlo, hhi⟩ := byteOf_isByte word shift
  unfold component IsBiased
  omega

theorem Pixel.IsBiased.moved {p : Pixel} {a unit b g r : Int} (hp : p.IsBiased) (ha : 0 ≤ a)
    (hau : a ≤ unit) (hunit : 0 < unit)
    (hb : NeuQuant.IsBiased b) (hg : NeuQuant.IsBiased g) (hr : NeuQuant.IsBiased r) :
    (p.moved a unit b g r).IsBiased :=
  ⟨moved_mem ha hau hunit hp.b hb, moved_mem ha hau hunit hp.g hg, moved_mem ha hau hunit hp.r hr⟩

theorem Pixel.IsBiased.distance {p : Pixel} {b g r : Int} (hp : p.IsBiased)
    (hb : NeuQuant.IsBiased b) (hg : NeuQuant.IsBiased g) (hr : NeuQuant.IsBiased r) :
    0 ≤ distance p b g r ∧ distance p b g r ≤ 12285 := by
  have h1 : |p.b - b| ≤ 4095 := abs_le.mpr
    ⟨by have h := hb.2; have h' := hp.b.1; omega, by have h := hb.1; have h' := hp.b.2; omega⟩
  have h2 : |p.g - g| ≤ 4095 := abs_le.mpr
    ⟨by have h := hg.2; have h' := hp.g.1; omega, by have h := hg.1; have h' := hp.g.2; omega⟩
  have h3 : |p.r - r| ≤ 4095 := abs_le.mpr
    ⟨by have h := hr.2; have h' := hp.r.1; omega, by have h := hr.1; have h' := hp.r.2; omega⟩
  have h1' := abs_nonneg (p.b - b)
  have h2' := abs_nonneg (p.g - g)
  have h3' := abs_nonneg (p.r - r)
  unfold NeuQuant.distance
  omega

section

variable (netsize : Nat)

/-- The colours of the network. -/
def Biased (network : Int → Pixel) : Prop := ∀ k ∈ places netsize, (network k).IsBiased

/-- The frequency of a neuron is below a limit, and its bias makes up for it. -/
structure Balanced (limit freq bias : Int) : Prop where
  freq_nonneg : 0 ≤ freq
  freq_le : freq ≤ limit
  sum_nonneg : 0 ≤ bias + freq * 2 ^ 10
  sum_le : bias + freq * 2 ^ 10 ≤ 2 ^ 26

variable {netsize}

theorem Balanced.decayed {freq bias : Int} (h : Balanced 65600 freq bias) :
    Balanced 65536 (freq - freq >>> (10 : Nat)) (bias + freq >>> (10 : Nat) * 2 ^ 10) := by
  obtain ⟨h1, h2, h3, h4⟩ := h
  rw [Int.shiftRight_eq_div_pow]
  exact ⟨by omega, by omega, by omega, by omega⟩

theorem Balanced.chosen {freq bias : Int} (h : Balanced 65536 freq bias) :
    Balanced 65600 (freq + beta) (bias - betagamma) := by
  obtain ⟨h1, h2, h3, h4⟩ := h
  unfold beta betagamma
  exact ⟨by omega, by omega, by omega, by omega⟩

theorem Balanced.mono {freq bias : Int} (h : Balanced 65536 freq bias) : Balanced 65600 freq bias :=
  ⟨h.freq_nonneg, h.freq_le.trans (by decide), h.sum_nonneg, h.sum_le⟩

theorem Balanced.bias_ge {freq bias : Int} (h : Balanced 65600 freq bias) :
    -17000 ≤ bias >>> (12 : Nat) := by
  obtain ⟨h1, h2, h3, h4⟩ := h
  rw [Int.shiftRight_eq_div_pow]
  omega

/-- The neurons that have been looked at have lost a part of their frequency;
the best ones are among them. -/
structure Contest.Holds (netsize n : Nat) (s : Contest) : Prop where
  seen : ∀ k ∈ places netsize, k < n → Balanced 65536 (s.freq k) (s.bias k)
  unseen : ∀ k ∈ places netsize, n ≤ k → Balanced 65600 (s.freq k) (s.bias k)
  best : n = 0 ∧ s.bestd = 2 ^ 31 - 1 ∧ s.bestbiasd = 2 ^ 31 - 1 ∨ s.bestpos ∈ places n ∧
    s.bestbiaspos ∈ places n

variable {network : Int → Pixel} {b g r : Int}

theorem places_mono {n m : Nat} (h : n ≤ m) {k : Int} (hk : k ∈ places n) : k ∈ places m :=
  ⟨hk.1, hk.2.trans_le (Int.ofNat_le.mpr h)⟩

theorem self_mem_places (n : Nat) : (n : Int) ∈ places (n + 1) :=
  ⟨Int.natCast_nonneg n, Int.ofNat_lt.mpr (Nat.lt_succ_self n)⟩

theorem contest_turn {n : Nat} {s : Contest} (hs : s.Holds netsize n) (hn : n < netsize)
    (hnetwork : Biased netsize network)
    (hb : IsBiased b) (hg : IsBiased g) (hr : IsBiased r) :
    (s.turn network b g r n).Holds netsize (n + 1) := by
  have hplace : (n : Int) ∈ places netsize := places_mono hn (self_mem_places n)
  have hbalanced := hs.unseen n hplace le_rfl
  refine ⟨?_, ?_, .inr ?_⟩
  · intro k hk hlt
    unfold Contest.turn
    obtain rfl | hne := eq_or_ne k n
    · simpa using hbalanced.decayed
    · simpa [Function.update_of_ne hne] using hs.seen k hk (by omega)
  · intro k hk hle
    unfold Contest.turn
    have hne : k ≠ n := by omega
    simpa [Function.update_of_ne hne] using hs.unseen k hk (by omega)
  · -- the first neuron is nearer than the limits that the contest begins with
    have hdist := (hnetwork n hplace).distance hb hg hr
    have hbias := hbalanced.bias_ge
    unfold Contest.turn
    dsimp only
    obtain ⟨rfl, hbestd, hbestbiasd⟩ | ⟨hpos, hbiaspos⟩ := hs.best
    · rw [if_pos (by rw [hbestd]; omega), if_pos (by rw [hbestbiasd]; omega)]
      exact ⟨self_mem_places 0, self_mem_places 0⟩
    · constructor
      · split
        · exact self_mem_places n
        · exact places_mono (Nat.le_succ n) hpos
      · split
        · exact self_mem_places n
        · exact places_mono (Nat.le_succ n) hbiaspos

theorem contest_run {s : Contest} (hs : s.Holds netsize 0) (hnetwork : Biased netsize network)
    (hb : IsBiased b) (hg : IsBiased g) (hr : IsBiased r) (n : Nat) (hn : n ≤ netsize) :
    (Contest.run network b g r s n).Holds netsize n := by
  induction n with
  | zero => exact hs
  | succ n ih =>
    unfold Contest.run
    rw [List.range_succ, List.foldl_append]
    exact contest_turn (ih (by omega)) hn hnetwork hb hg hr

end

/-- The frequencies and biases of the network. -/
def Net.Balanced (q : Net) : Prop :=
  ∀ k ∈ places q.netsize, NeuQuant.Balanced 65600 (q.freq k) (q.bias k)

/-- `contest` chooses a neuron of the network. -/
theorem contest_mem {q : Net} (hpos : 0 < q.netsize) (hnetwork : Biased q.netsize q.network)
    (hbalanced : q.Balanced) {b g r : Int}
    (hb : IsBiased b) (hg : IsBiased g) (hr : IsBiased r) :
    (q.contest b g r).1 ∈ places q.netsize ∧ (q.contest b g r).2.Balanced := by
  have hbegin : Contest.Holds q.netsize 0 ⟨q.freq, q.bias, 2 ^ 31 - 1, 2 ^ 31 - 1, -1, -1⟩ :=
    ⟨fun k hk hlt => absurd hk.1 (not_le.mpr hlt), fun k hk _ =>
      hbalanced k hk, .inl ⟨rfl, rfl, rfl⟩⟩
  have h := contest_run hbegin hnetwork hb hg hr q.netsize le_rfl
  obtain ⟨hzero, -⟩ | ⟨hbest, hbiased⟩ := h.best
  · omega
  · refine ⟨hbiased, ?_⟩
    intro k hk
    have hseen := h.seen k hk hk.2
    unfold Net.contest
    dsimp only
    obtain rfl | hne :=
      eq_or_ne k (Contest.run q.network b g r ⟨q.freq, q.bias, 2 ^ 31 - 1, 2 ^ 31 - 1, -1, -1⟩
        q.netsize).bestpos
    · simpa using hseen.chosen
    · rw [Function.update_of_ne hne, Function.update_of_ne hne]
      exact hseen.mono

section

variable {netsize : Nat} {network : Int → Pixel} {b g r : Int}

theorem Biased.update (h : Biased netsize network) {i : Int} {p : Pixel} (hp : p.IsBiased) :
    Biased netsize (Function.update network i p) := by
  intro k hk
  obtain rfl | hne := eq_or_ne k i
  · simpa using hp
  · simpa [Function.update_of_ne hne] using h k hk

theorem altersingle_biased {q : Net} {alpha i : Int} (h : Biased netsize q.network)
    (halpha : 0 ≤ alpha ∧ alpha ≤ initalpha)
    (hi : i ∈ places netsize) (hb : IsBiased b) (hg : IsBiased g) (hr : IsBiased r) :
    Biased netsize (q.altersingle alpha i b g r).network :=
  h.update ((h i hi).moved halpha.1 halpha.2 (by decide) hb hg hr)

/-- The powers for a radius. -/
def Powers (radpower : Int → Int) (rad : Int) : Prop :=
  ∀ m, 0 ≤ m → m < rad → 0 ≤ radpower m ∧ radpower m ≤ alpharadbias

/-- Both sides of `alterneigh` are `m` away from the neuron that was hit. -/
theorem neighbours_biased {radpower : Int → Int} {rad i lo hi : Int} (hpowers : Powers radpower rad)
    (hb : IsBiased b) (hg : IsBiased g) (hr : IsBiased r) (hlo : -1 ≤ lo ∧ i - rad ≤ lo)
    (hhi : hi ≤ netsize ∧ hi ≤ i + rad)
    (hi' : i ∈ places netsize) {j k m : Int} (hm : 0 ≤ m) (hj : j < hi → j = i + 1 + m)
    (hk : lo < k → k = i - 1 - m)
    (h : Biased netsize network) : Biased netsize
      (neighbours radpower b g r lo hi network j k m) := by
  fun_induction neighbours radpower b g r lo hi network j k m with
  | case1 network j k m hgo a above below ih =>
    have hpower : 0 ≤ a ∧ a ≤ alpharadbias := by
      apply hpowers (m + 1) (by omega)
      omega
    have hunit : (0 : Int) < alpharadbias := by decide
    have habove : Biased netsize above := by
      unfold above
      split
      case isTrue hlt =>
        have hplace : j ∈ places netsize :=
          ⟨by have hle := hi'.1; have heq := hj hlt; omega, by omega⟩
        exact h.update ((h j hplace).moved hpower.1 hpower.2 hunit hb hg hr)
      case isFalse => exact h
    have hbelow : Biased netsize below := by
      unfold below
      split
      case isTrue hlt =>
        have hplace : k ∈ places netsize :=
          ⟨by omega, by have hlt := hi'.2; have heq := hk (by assumption); omega⟩
        exact habove.update ((habove k hplace).moved hpower.1 hpower.2 hunit hb hg hr)
      case isFalse => exact habove
    apply ih (by omega) _ _ hbelow
    · split <;> omega
    · split <;> omega
  | case2 network j k m hstop => exact h

end

section

variable {alpha rad : Int}

theorem power_mem (halpha : 0 ≤ alpha ∧ alpha ≤ initalpha) {i : Int} (hi : 0 ≤ i) (hrad : i < rad) :
    0 ≤ alpha * ((rad * rad - i * i) * radbias).tdiv (rad * rad) ∧
      alpha * ((rad * rad - i * i) * radbias).tdiv (rad * rad) ≤ alpharadbias := by
  have hsquares : i * i ≤ rad * rad := mul_le_mul hrad.le hrad.le hi (by omega)
  have hpos : 0 < rad * rad := mul_pos (by omega) (by omega)
  have hpart := part_mem (d := radbias) (sub_nonneg.mpr hsquares)
    (sub_le_self _ (mul_nonneg hi hi)) hpos (by decide)
  refine ⟨mul_nonneg halpha.1 hpart.1, ?_⟩
  calc alpha * ((rad * rad - i * i) * radbias).tdiv (rad * rad)
      ≤ initalpha * radbias := mul_le_mul halpha.2 hpart.2 hpart.1 (by decide)
    _ = alpharadbias := by decide

theorem fillRadpower_powers (halpha : 0 ≤ alpha ∧ alpha ≤ initalpha) {radpower f : Int → Int}
    (h : fillRadpower alpha rad radpower = some f) : Powers f rad := by
  have hfill : ∀ n : Nat, n ≤ rad.toNat → ∀ f,
      (List.range n).foldlM (radpowerTurn alpha rad) radpower = some f → Powers f n := by
    intro n hn
    induction n with
    | zero =>
      intro f _ m hm hlt
      exact absurd hm (not_le.mpr hlt)
    | succ n ih =>
      intro f hf m hm hlt
      rw [List.range_succ, List.foldlM_append] at hf
      obtain ⟨f', hf', hlast⟩ := Option.bind_eq_some_iff.mp hf
      rw [List.foldlM_cons, radpowerTurn_of_pos (by omega)] at hlast
      rw [← Option.some.inj hlast]
      obtain rfl | hne := eq_or_ne m n
      · rw [Function.update_self]
        exact power_mem halpha hm (by omega)
      · rw [Function.update_of_ne hne]
        exact ih (by omega) f' hf' m hm (by omega)
  intro m hm hlt
  exact hfill rad.toNat le_rfl f h m hm (by omega)

theorem radFor_nonneg (radius : Int) : 0 ≤ radFor radius := by
  unfold radFor
  split
  · exact le_rfl
  · omega

end

/-- What holds at every turn of `learn`. -/
structure Learning.Holds (netsize : Nat) (s : Learning) : Prop where
  size : s.net.netsize = netsize
  network : Biased netsize s.net.network
  balanced : s.net.Balanced
  alpha : 0 ≤ s.alpha ∧ s.alpha ≤ initalpha
  alphadec : 0 < s.net.alphadec
  rad : 0 ≤ s.rad
  powers : Powers s.net.radpower s.rad

section

variable {netsize : Nat} {s : Learning}

theorem present_network (hpos : 0 < netsize) (hs : s.Holds netsize) :
    Biased netsize s.present.network ∧ s.present.Balanced ∧ s.present.netsize = netsize ∧
      s.present.radpower = s.net.radpower := by
  obtain ⟨rfl, hnetwork, hbalanced, halpha, -, hrad, hpowers⟩ := hs
  have hb := component_biased (s.net.thepicture s.p) 0
  have hg := component_biased (s.net.thepicture s.p) 8
  have hr := component_biased (s.net.thepicture s.p) 16
  unfold Learning.present
  dsimp only
  generalize component (s.net.thepicture s.p) 0 = b at *
  generalize component (s.net.thepicture s.p) 8 = g at *
  generalize component (s.net.thepicture s.p) 16 = r at *
  have hcontest := contest_mem hpos hnetwork hbalanced hb hg hr
  have hsingle :=
    altersingle_biased (q := (s.net.contest b g r).2) hnetwork halpha hcontest.1 hb hg hr
  split
  · exact ⟨hsingle, hcontest.2, rfl, rfl⟩
  · refine ⟨?_, hcontest.2, rfl, rfl⟩
    apply neighbours_biased hpowers hb hg hr _ _ hcontest.1 le_rfl _ _ hsingle
    · exact ⟨le_max_right _ _, le_max_left _ _⟩
    · exact ⟨min_le_right _ _, min_le_left _ _⟩
    · intro _
      simp
    · intro _
      simp

theorem decay_holds {s' : Learning} (h : s.decay = some s') (hs : s.Holds netsize) :
    s'.Holds netsize := by
  obtain ⟨x, hx, hmap⟩ := Option.bind_eq_some_iff.mp h
  obtain ⟨radpower, hradpower, rfl⟩ := Option.map_eq_some_iff.mp hmap
  rw [divide_of_ne _ hs.alphadec.ne'] at hx
  obtain rfl := Option.some.inj hx
  have hdecayed : 0 ≤ s.alpha.tdiv s.net.alphadec ∧ s.alpha.tdiv s.net.alphadec ≤ s.alpha :=
    ⟨Int.tdiv_nonneg hs.alpha.1 hs.alphadec.le, Int.tdiv_le_self _ hs.alpha.1⟩
  have halpha : 0 ≤ s.alpha - s.alpha.tdiv s.net.alphadec ∧
      s.alpha - s.alpha.tdiv s.net.alphadec ≤ initalpha :=
    ⟨sub_nonneg.mpr hdecayed.2, (sub_le_self _ hdecayed.1).trans hs.alpha.2⟩
  exact ⟨hs.size, hs.network, hs.balanced, halpha, hs.alphadec, radFor_nonneg _,
    fillRadpower_powers halpha hradpower⟩

theorem turn_holds {delta : Int} {step : Nat} {s' : Learning} (hpos : 0 < netsize)
    (h : s.turn delta step = some s')
    (hs : s.Holds netsize) : s'.Holds netsize := by
  obtain ⟨hnetwork, hbalanced, hnetsize, hradpower⟩ := present_network hpos hs
  have hpresented : Learning.Holds netsize
      { s with net := s.present, p := s.next step, i := s.i + 1 } :=
    ⟨hnetsize, hnetwork, hbalanced, hs.alpha, by simpa using hs.alphadec, hs.rad, by
      rw [hradpower]; exact hs.powers⟩
  obtain ⟨x, -, hx⟩ := Option.bind_eq_some_iff.mp h
  split at hx
  · exact decay_holds hx hpresented
  · obtain rfl := Option.some.inj hx
    exact hpresented

theorem learnLoop_network {delta : Int} {step n : Nat} {net : Net} (hpos : 0 < netsize)
    (h : (learnLoop delta step n s).2 = some net) (hs : s.Holds netsize) :
    net.netsize = netsize ∧ Biased netsize net.network := by
  induction n generalizing s with
  | zero =>
    obtain rfl := Option.some.inj h
    exact ⟨hs.size, hs.network⟩
  | succ n ih =>
    cases hturn : s.turn delta step with
    | none => simp [learnLoop, hturn] at h
    | some s' =>
      simp only [learnLoop, hturn] at h
      exact ih h (turn_holds hpos hturn hs)

end

section

variable (q : Net) (srcimage : DIB) (numColors quality : Int)

theorem clampColors_bounds : 2 ≤ clampColors numColors ∧ clampColors numColors ≤ 256 := by
  unfold clampColors
  split
  · omega
  · split <;> omega

theorem prepared_biased : Biased (clampColors numColors)
    (q.prepared srcimage numColors quality).network := by
  intro k hk
  have hcolour : IsBiased (k * 2 ^ 12 / (clampColors numColors : Int)) := by
    have hpos : (0 : Int) < clampColors numColors := hk.1.trans_lt hk.2
    refine ⟨Int.ediv_nonneg (mul_nonneg hk.1 (by decide)) hpos.le, ?_⟩
    rw [← Int.lt_add_one_iff]
    apply Int.ediv_lt_of_lt_mul hpos
    have hlt := hk.2
    omega
  have hentry : (q.prepared srcimage numColors quality).network k =
      ⟨k * 2 ^ 12 / (clampColors numColors : Int), k * 2 ^ 12 / (clampColors numColors : Int),
        k * 2 ^ 12 / (clampColors numColors : Int), (q.network k).c⟩ := if_pos hk
  rw [hentry]
  exact ⟨hcolour, hcolour, hcolour⟩

theorem prepared_balanced : (q.prepared srcimage numColors quality).Balanced := by
  intro k hk
  have hfreq : (q.prepared srcimage numColors quality).freq k =
      intbias / (clampColors numColors : Int) := if_pos hk
  have hbias : (q.prepared srcimage numColors quality).bias k = 0 := if_pos hk
  have hnonneg : 0 ≤ intbias / (clampColors numColors : Int) :=
    Int.ediv_nonneg (by decide) (Int.natCast_nonneg _)
  have hle : intbias / (clampColors numColors : Int) ≤ intbias := Int.ediv_le_self _ (by decide)
  rw [hfreq, hbias]
  unfold intbias at *
  exact ⟨hnonneg, by omega, by omega, by omega⟩

theorem begun_holds {radpower : Int → Int}
    (h : fillRadpower initalpha (radFor (q.prepared srcimage numColors quality).initradius)
      q.radpower = some radpower) :
    ((q.prepared srcimage numColors quality).begun radpower).Holds (clampColors numColors) := by
  refine ⟨rfl, prepared_biased q srcimage numColors quality,
    prepared_balanced q srcimage numColors quality,
    ⟨Int.natCast_nonneg 1024, le_rfl⟩, ?_, radFor_nonneg _, fillRadpower_powers (by decide) h⟩
  have hfactor := sampleFactor_bounds quality
  have hnonneg : 0 ≤ (sampleFactor quality - 1).tdiv 3 := Int.tdiv_nonneg (by omega) (by decide)
  simp only [Net.begun, Net.prepared, Net.initnet]
  omega

/-- The network that has learnt. -/
theorem learn_network {net : Net} (h : (q.prepared srcimage numColors quality).learn.2 = some net) :
    net.netsize = clampColors numColors ∧ Biased (clampColors numColors) net.network := by
  obtain ⟨radpower, hradpower, hlearn⟩ := learn_prepared q srcimage numColors quality
  have hpos : 0 < clampColors numColors := by
    have hbounds := clampColors_bounds numColors
    omega
  rw [hlearn] at h
  exact learnLoop_network hpos h (begun_holds q srcimage numColors quality hradpower)

end

end NeuQuant
