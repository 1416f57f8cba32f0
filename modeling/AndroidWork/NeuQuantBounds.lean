import AndroidWork.NeuQuantSteps
import Mathlib.Algebra.Order.Ring.Abs

/-!
# The bounds of the learning

Every component of the network is a byte with its bias in all of `learn`, the biases make up for
the frequencies, and `contest`, `altersingle` and `alterneigh` stay inside the ints, the network
and the powers that have been computed for the radius.
-/
namespace NeuQuant

open Traces

/-- Between 0 and 255, with the bias of the network. -/
def IsScaled (x : Int) : Prop := 0 ≤ x ∧ x ≤ 255 * 16

structure Pixel.IsScaled (p : Pixel) : Prop where
  b : NeuQuant.IsScaled p.b
  g : NeuQuant.IsScaled p.g
  r : NeuQuant.IsScaled p.r

def Scaled (netsize : Nat) (network : Int → Pixel) : Prop :=
  ∀ k ∈ places netsize, (network k).IsScaled

/-- The bias is what the frequency has lost since the beginning. -/
def Exact (netsize : Nat) (freq₀ freq bias : Int → Int) : Prop :=
  ∀ k ∈ places netsize, bias k = 1024 * (freq₀ k - freq k)

def Event.Good (netsize : Nat) (freq₀ : Int → Int) : Event → Prop
  | .value x => -2 ^ 31 ≤ x ∧ x < 2 ^ 31
  | .power index rad => 0 ≤ index ∧ index < rad
  | .neuron i => i ∈ places netsize
  | .network entries => Scaled netsize entries
  | .counts freq bias => Exact netsize freq₀ freq bias

theorem IsScaled.apart_le {x t : Int} (hx : IsScaled x) (ht : IsScaled t) : |x - t| ≤ 4080 := by
  obtain ⟨hxlo, hxhi⟩ := hx
  obtain ⟨htlo, hthi⟩ := ht
  exact abs_le.mpr ⟨by omega, by omega⟩

theorem IsScaled.biased {x : Int} (h : IsScaled x) : IsBiased x := ⟨h.1, h.2.trans (by decide)⟩

theorem Pixel.IsScaled.biased {p : Pixel} (h : p.IsScaled) : p.IsBiased :=
  ⟨h.b.biased, h.g.biased, h.r.biased⟩

theorem component_scaled (word : BitVec 32) (shift : Nat) : IsScaled (component word shift) := by
  obtain ⟨hlo, hhi⟩ := byteOf_isByte word shift
  unfold component IsScaled
  omega

theorem Pixel.IsScaled.moved {p : Pixel} {a unit b g r : Int} (hp : p.IsScaled) (ha : 0 ≤ a)
    (hau : a ≤ unit) (hunit : 0 < unit)
    (hb : NeuQuant.IsScaled b) (hg : NeuQuant.IsScaled g) (hr : NeuQuant.IsScaled r) :
    (p.moved a unit b g r).IsScaled :=
  ⟨moved_mem ha hau hunit hp.b hb, moved_mem ha hau hunit hp.g hg, moved_mem ha hau hunit hp.r hr⟩

section

variable {netsize : Nat} {freq₀ : Int → Int} {network : Int → Pixel} {b g r : Int}

theorem Scaled.biased (h : Scaled netsize network) : Biased netsize network :=
  fun k hk => (h k hk).biased

theorem Scaled.update (h : Scaled netsize network) {i : Int} {p : Pixel} (hp : p.IsScaled) :
    Scaled netsize (Function.update network i p) := by
  intro k hk
  obtain rfl | hne := eq_or_ne k i
  · simpa using hp
  · simpa [Function.update_of_ne hne] using h k hk

theorem Exact.update {freq bias : Int → Int} (h : Exact netsize freq₀ freq bias) {i u v : Int}
    (hi : i ∈ places netsize → v = 1024 * (freq₀ i - u)) :
    Exact netsize freq₀ (Function.update freq i u) (Function.update bias i v) := by
  intro k hk
  obtain rfl | hne := eq_or_ne k i
  · simpa using hi hk
  · simpa [Function.update_of_ne hne] using h k hk

theorem tells_int {x : Int} (hlo : -2 ^ 31 ≤ x) (hhi : x < 2 ^ 31) :
    Tells (Event.Good netsize freq₀) (· = x) (int x) := by
  have hgood : Event.Good netsize freq₀ (.value x) := ⟨hlo, hhi⟩
  exact (tells_tell hgood).bind_eq (tells_pure rfl)

theorem tells_apart {x t : Int} (hx : IsScaled x) (ht : IsScaled t) :
    Tells (Event.Good netsize freq₀) (· = |x - t|) (apartSteps x t) := by
  obtain ⟨hxlo, hxhi⟩ := hx
  obtain ⟨htlo, hthi⟩ := ht
  refine (tells_int (by omega) (by omega)).bind_eq ?_
  split
  case isTrue hneg =>
    rw [abs_of_neg hneg]
    exact tells_int (by omega) (by omega)
  case isFalse hpos =>
    rw [abs_of_nonneg (not_lt.mp hpos)]
    exact tells_pure rfl

/-- The product on the way to another component is the largest of all results. -/
theorem tells_moved {x a unit t : Int} (ha : 0 ≤ a) (hau : a ≤ unit) (hunit : 0 < unit)
    (hunit' : unit ≤ alpharadbias)
    (hx : IsScaled x) (ht : IsScaled t) :
    Tells (Event.Good netsize freq₀) (· = x - (a * (x - t)).tdiv unit) (movedSteps x a unit t) := by
  have hmoved : IsScaled (x - (a * (x - t)).tdiv unit) := moved_mem ha hau hunit hx ht
  have hproduct : |a * (x - t)| ≤ 262144 * 4080 := by
    rw [abs_mul]
    exact mul_le_mul (abs_le.mpr ⟨by omega, hau.trans hunit'⟩) (hx.apart_le ht)
      (abs_nonneg _) (by decide)
  obtain ⟨hplo, hphi⟩ := abs_le.mp hproduct
  obtain ⟨hxlo, hxhi⟩ := hx
  obtain ⟨htlo, hthi⟩ := ht
  obtain ⟨hlo, hhi⟩ := hmoved
  refine (tells_int (by omega) (by omega)).bind_eq ?_
  refine (tells_int (by omega) (by omega)).bind_eq ?_
  refine (tells_int (by omega) (by omega)).bind_eq ?_
  exact tells_int (by omega) (by omega)

theorem tells_store {i : Int} {n : Pixel} (hnetwork : Scaled netsize network) (hn : n.IsScaled) :
    Tells (Event.Good netsize freq₀) (· = Function.update network i n)
    (storeSteps network i n) := by
  have hgood : Event.Good netsize freq₀ (.network (Function.update network i n)) :=
    hnetwork.update hn
  exact (tells_tell hgood).bind_eq (tells_pure rfl)

/-- A neuron of the network is moved, and stays in bounds on the way. -/
theorem tells_alter {i a unit : Int} (hnetwork : Scaled netsize network) (hi : i ∈ places netsize)
    (ha : 0 ≤ a) (hau : a ≤ unit)
    (hunit : 0 < unit) (hunit' : unit ≤ alpharadbias) (hb : IsScaled b) (hg : IsScaled g)
    (hr : IsScaled r) :
    Tells (Event.Good netsize freq₀)
    (· = Function.update network i ((network i).moved a unit b g r))
      (alterSteps network i a unit b g r) := by
  have hneuron : Event.Good netsize freq₀ (.neuron i) := hi
  obtain ⟨hnb, hng, hnr⟩ := hnetwork i hi
  have hmoved := (hnetwork i hi).moved ha hau hunit hb hg hr
  refine (tells_tell hneuron).bind_eq ?_
  refine (tells_moved ha hau hunit hunit' hnb hb).bind_eq ?_
  have hfirst : Pixel.IsScaled ⟨_, (network i).g, (network i).r, (network i).c⟩ :=
    ⟨hmoved.b, hng, hnr⟩
  refine (tells_store hnetwork hfirst).bind_eq ?_
  simp only [Function.update_self]
  refine (tells_moved ha hau hunit hunit' hng hg).bind_eq ?_
  have hsecond : Pixel.IsScaled ⟨_, _, (network i).r, (network i).c⟩ := ⟨hmoved.b, hmoved.g, hnr⟩
  refine (tells_store (hnetwork.update hfirst) hsecond).bind_eq ?_
  simp only [Function.update_self, Function.update_idem]
  refine (tells_moved ha hau hunit hunit' hnr hr).bind_eq ?_
  have hstored := hnetwork.update (i := i) hsecond
  have hstore := @tells_store netsize freq₀ _ i _ hstored hmoved
  rwa [Function.update_idem] at hstore

theorem Exact.turn {s : Contest} (h : Exact netsize freq₀ s.freq s.bias) (n : Nat) :
    Exact netsize freq₀ (s.turn network b g r n).freq (s.turn network b g r n).bias := by
  refine h.update fun hn => ?_
  have hbefore := h n hn
  omega

theorem tells_turn {s : Contest} {n : Nat} (hn : n < netsize) (hsize : netsize ≤ 256)
    (hs : s.Holds netsize n)
    (hexact : Exact netsize freq₀ s.freq s.bias) (hnetwork : Scaled netsize network)
    (hb : IsScaled b) (hg : IsScaled g)
    (hr : IsScaled r) : Tells (Event.Good netsize freq₀) (· = s.turn network b g r n)
    (s.turnSteps network b g r n) := by
  have hplace : (n : Int) ∈ places netsize := places_mono hn (self_mem_places n)
  obtain ⟨hflo, hfhi, hslo, hshi⟩ := hs.unseen n hplace le_rfl
  obtain ⟨hnb, hng, hnr⟩ := hnetwork n hplace
  have hble := hnb.apart_le hb
  have hgle := hng.apart_le hg
  have hrle := hnr.apart_le hr
  have hbnonneg := abs_nonneg ((network n).b - b)
  have hgnonneg := abs_nonneg ((network n).g - g)
  have hrnonneg := abs_nonneg ((network n).r - r)
  have hbias : -17000 ≤ s.bias n >>> (12 : Nat) ∧ s.bias n >>> (12 : Nat) ≤ 17000 := by
    rw [Int.shiftRight_eq_div_pow]
    omega
  have hfreq : 0 ≤ s.freq n >>> (10 : Nat) ∧ s.freq n >>> (10 : Nat) ≤ 65 := by
    rw [Int.shiftRight_eq_div_pow]
    omega
  have hcounts : Event.Good netsize freq₀
      (.counts (s.turn network b g r n).freq (s.turn network b g r n).bias) :=
    hexact.turn n
  refine (tells_apart hnb hb).bind_eq ?_
  refine (tells_apart hng hg).bind_eq ?_
  refine (tells_int (by omega) (by omega)).bind_eq ?_
  refine (tells_apart hnr hr).bind_eq ?_
  refine (tells_int (by omega) (by omega)).bind_eq ?_
  refine (tells_int (by omega) (by omega)).bind_eq ?_
  refine (tells_int (by omega) (by omega)).bind_eq ?_
  refine (tells_int (by omega) (by omega)).bind_eq ?_
  refine (tells_int (by omega) (by omega)).bind_eq ?_
  refine (tells_int (by omega) (by omega)).bind_eq ?_
  refine (tells_int (by omega) (by omega)).bind_eq ?_
  refine (tells_int (by omega) (by omega)).bind_eq ?_
  exact (tells_tell hcounts).bind_eq (tells_pure rfl)

theorem contest_run_succ (s : Contest) (n : Nat) :
    Contest.run network b g r s (n + 1) = (Contest.run network b g r s n).turn network b g r n := by
  unfold Contest.run
  rw [List.range_succ, List.foldl_append]
  rfl

theorem Exact.run {s : Contest} (h : Exact netsize freq₀ s.freq s.bias) (n : Nat) :
    Exact netsize freq₀ (Contest.run network b g r s n).freq
      (Contest.run network b g r s n).bias := by
  induction n with
  | zero => exact h
  | succ n ih =>
    rw [contest_run_succ]
    exact ih.turn n

theorem contest_exact {q : Net} (h : Exact netsize freq₀ q.freq q.bias) :
    Exact netsize freq₀ (q.contest b g r).2.freq (q.contest b g r).2.bias := by
  have hrun := @Exact.run netsize freq₀ q.network b g r
    ⟨q.freq, q.bias, 2 ^ 31 - 1, 2 ^ 31 - 1, -1, -1⟩ h q.netsize
  refine hrun.update fun hbest => ?_
  have hbefore := hrun _ hbest
  unfold beta betagamma
  omega

theorem tells_contest {q : Net} (hpos : 0 < q.netsize) (hsize : q.netsize ≤ 256)
    (hnetwork : Scaled q.netsize q.network)
    (hbalanced : q.Balanced) (hexact : Exact q.netsize freq₀ q.freq q.bias)
    (hb : IsScaled b) (hg : IsScaled g)
    (hr : IsScaled r) : Tells (Event.Good q.netsize freq₀) (· = q.contest b g r)
    (q.contestSteps b g r) := by
  have hsign : (1#32 <<< 31).toInt = -2 ^ 31 := by decide
  have hbestd : ~~~(-2 ^ 31 : Int) = 2 ^ 31 - 1 := by decide
  unfold Net.contestSteps
  rw [hsign]
  refine (tells_int (by omega) (by omega)).bind_eq ?_
  rw [hbestd]
  refine (tells_int (by omega) (by omega)).bind_eq ?_
  have hbegin : Contest.Holds q.netsize 0 ⟨q.freq, q.bias, 2 ^ 31 - 1, 2 ^ 31 - 1, -1, -1⟩ :=
    ⟨fun k hk hlt => absurd hk.1 (not_le.mpr hlt), fun k hk _ =>
      hbalanced k hk, .inl ⟨rfl, rfl, rfl⟩⟩
  generalize hs₀ : (⟨q.freq, q.bias, 2 ^ 31 - 1, 2 ^ 31 - 1, -1, -1⟩ : Contest) = s₀ at *
  have hexact₀ : Exact q.netsize freq₀ s₀.freq s₀.bias := hs₀ ▸ hexact
  have hholds := fun n => contest_run hbegin hnetwork.biased hb.biased hg.biased hr.biased n
  have hloop : Tells (Event.Good q.netsize freq₀) (· = Contest.run q.network b g r s₀ q.netsize)
      ((List.range' 0 q.netsize).foldlM (Contest.turnSteps q.network b g r) s₀) := by
    refine tells_foldlM (I := fun n s => s = Contest.run q.network b g r s₀ n) ?_
      q.netsize 0 (by omega) rfl
    rintro n hn _ rfl
    rw [contest_run_succ]
    exact tells_turn hn hsize (hholds n hn.le) (hexact₀.run n) hnetwork hb hg hr
  refine hloop.bind_eq ?_
  have hfinal := hholds q.netsize le_rfl
  have hbest : (Contest.run q.network b g r s₀ q.netsize).bestpos ∈ places q.netsize := by
    obtain ⟨hzero, -⟩ | ⟨hbest, -⟩ := hfinal.best
    · omega
    · exact hbest
  obtain ⟨hflo, hfhi, hslo, hshi⟩ := (hfinal.seen _ hbest hbest.2).chosen
  refine (tells_int (by omega) (by omega)).bind_eq ?_
  refine (tells_int (by omega) (by omega)).bind_eq ?_
  have hcounts : Event.Good q.netsize freq₀
      (.counts (q.contest b g r).2.freq (q.contest b g r).2.bias) :=
    contest_exact hexact
  unfold Net.contest at hcounts ⊢
  rw [hs₀] at hcounts ⊢
  exact (tells_tell hcounts).bind_eq (tells_pure rfl)

theorem altersingle_scaled {q : Net} {alpha i : Int} (h : Scaled netsize q.network)
    (halpha : 0 ≤ alpha ∧ alpha ≤ initalpha)
    (hi : i ∈ places netsize) (hb : IsScaled b) (hg : IsScaled g) (hr : IsScaled r) :
    Scaled netsize (q.altersingle alpha i b g r).network :=
  h.update ((h i hi).moved halpha.1 halpha.2 (by decide) hb hg hr)

theorem tells_altersingle {q : Net} {alpha i : Int} (h : Scaled netsize q.network)
    (halpha : 0 ≤ alpha ∧ alpha ≤ initalpha)
    (hi : i ∈ places netsize) (hb : IsScaled b) (hg : IsScaled g) (hr : IsScaled r) :
    Tells (Event.Good netsize freq₀) (· = q.altersingle alpha i b g r)
    (q.altersingleSteps alpha i b g r) :=
  (tells_alter h hi halpha.1 halpha.2 (by decide) (by decide) hb hg hr).bind_eq (tells_pure rfl)

/-- A side that goes on where its neuron is one of the network. -/
theorem tells_side {go : Prop} [Decidable go] {i next a : Int} (h : Scaled netsize network)
    (hi : go → i ∈ places netsize)
    (hnext : go → -2 ^ 31 ≤ next ∧ next < 2 ^ 31) (ha : 0 ≤ a ∧ a ≤ alpharadbias)
    (hb : IsScaled b) (hg : IsScaled g)
    (hr : IsScaled r) :
    Tells (Event.Good netsize freq₀)
      (fun entries => entries = (if go then
        Function.update network i ((network i).moved a alpharadbias b g r) else network) ∧
        Scaled netsize entries)
      (sideSteps go network i next a b g r) := by
  unfold sideSteps
  by_cases hgo : go
  · rw [if_pos hgo, if_pos hgo]
    refine (tells_alter h (hi hgo) ha.1 ha.2 (by decide) le_rfl hb hg hr).bind_eq ?_
    refine (tells_int (hnext hgo).1 (hnext hgo).2).bind_eq ?_
    exact tells_pure ⟨rfl, h.update ((h i (hi hgo)).moved ha.1 ha.2 (by decide) hb hg hr)⟩
  · rw [if_neg hgo, if_neg hgo]
    exact tells_pure ⟨rfl, h⟩

/-- Both sides are `m` away from the neuron that was hit, and no power behind the radius is used. -/
theorem tells_neighbours {radpower : Int → Int} {rad i lo hi : Int} (hpowers : Powers radpower rad)
    (hsize : netsize ≤ 256)
    (hb : IsScaled b) (hg : IsScaled g) (hr : IsScaled r) (hlo : -1 ≤ lo ∧ i - rad ≤ lo)
    (hhi : hi ≤ netsize ∧ hi ≤ i + rad)
    (hi' : i ∈ places netsize) {j k m : Int} (hm : 0 ≤ m) (hj : j < hi → j = i + 1 + m)
    (hk : lo < k → k = i - 1 - m)
    (h : Scaled netsize network) :
    Tells (Event.Good netsize freq₀)
      (fun entries => entries = neighbours radpower b g r lo hi network j k m ∧
        Scaled netsize entries)
      (neighbourSteps radpower rad b g r lo hi network j k m) := by
  obtain ⟨hilo, hihi⟩ := hi'
  fun_induction neighbourSteps radpower rad b g r lo hi network j k m with
  | case1 network j k m hgo ih =>
    have hrad : m + 1 < rad := by
      obtain hlt | hlt := hgo
      · have heq := hj hlt
        omega
      · have heq := hk hlt
        omega
    have hpower : Event.Good netsize freq₀ (.power (m + 1) rad) := ⟨by omega, hrad⟩
    have ha := hpowers (m + 1) (by omega) hrad
    have habove : j < hi → j ∈ places netsize := fun hlt => ⟨by have heq := hj hlt; omega, by omega⟩
    have hbelow : lo < k → k ∈ places netsize := fun hlt => ⟨by omega, by have heq := hk hlt; omega⟩
    refine (tells_tell hpower).bind_eq ?_
    refine (tells_side h habove (fun hlt => ?_) ha hb hg hr).bind ?_
    · obtain ⟨hlo', hhi'⟩ := habove hlt
      omega
    rintro _ ⟨rfl, h⟩
    refine (tells_side h hbelow (fun hlt => ?_) ha hb hg hr).bind ?_
    · obtain ⟨hlo', hhi'⟩ := hbelow hlt
      omega
    rintro _ ⟨rfl, h⟩
    rw [neighbours, if_pos hgo]
    apply ih _ (by omega) _ _ h
    · split <;> omega
    · split <;> omega
  | case2 network j k m hstop =>
    rw [neighbours, if_neg hstop]
    exact tells_pure ⟨rfl, h⟩

theorem tells_alterneigh {q : Net} {rad i : Int} (h : Scaled q.netsize q.network)
    (hsize : q.netsize ≤ 256)
    (hpowers : Powers q.radpower rad) (hrad : 0 ≤ rad ∧ rad ≤ 32)
    (hi : i ∈ places q.netsize) (hb : IsScaled b)
    (hg : IsScaled g) (hr : IsScaled r) :
    Tells (Event.Good q.netsize freq₀) (fun net => net = q.alterneigh rad i b g r ∧
    Scaled q.netsize net.network)
      (q.alterneighSteps rad i b g r) := by
  obtain ⟨hilo, hihi⟩ := id hi
  refine (tells_int (by omega) (by omega)).bind_eq ?_
  refine (tells_int (by omega) (by omega)).bind_eq ?_
  refine (tells_int (by omega) (by omega)).bind_eq ?_
  refine (tells_int (by omega) (by omega)).bind_eq ?_
  have hunsigned : ((BitVec.ofInt 32 (i + rad)).toNat : Int) = i + rad := by
    rw [BitVec.toNat_ofInt]
    omega
  have hlo : (if i - rad < -1 then -1 else i - rad) = max (i - rad) (-1) := by split <;> omega
  have hhi : (if q.netsize < (BitVec.ofInt 32 (i + rad)).toNat then
      (q.netsize : Int) else i + rad) =
      min (i + rad) q.netsize := by split <;> omega
  rw [hlo, hhi]
  refine (tells_neighbours hpowers hsize hb hg hr ⟨le_max_right _ _, le_max_left _ _⟩
    ⟨min_le_right _ _, min_le_left _ _⟩ hi
    le_rfl (fun _ => by omega) (fun _ => by omega) h).bind ?_
  rintro _ ⟨rfl, hscaled⟩
  exact tells_pure ⟨rfl, hscaled⟩

end

/-- What holds besides at every turn of `learn`. -/
structure Learning.Bounded (netsize : Nat) (freq₀ : Int → Int) (s : Learning) : Prop where
  network : Scaled netsize s.net.network
  counts : Exact netsize freq₀ s.net.freq s.net.bias
  radius : 0 ≤ s.radius ∧ s.radius ≤ 2048
  rad : s.rad ≤ 32

section

variable {netsize : Nat} {freq₀ : Int → Int} {s : Learning}

theorem tells_present (hpos : 0 < netsize) (hsize : netsize ≤ 256) (hs : s.Holds netsize)
    (hbounded : s.Bounded netsize freq₀) :
    Tells (Event.Good netsize freq₀)
      (fun net => net = s.present ∧ Scaled netsize net.network ∧
        Exact netsize freq₀ net.freq net.bias) s.presentSteps := by
  obtain ⟨rfl, -, hbalanced, halpha, -, hrad, hpowers⟩ := hs
  obtain ⟨hnetwork, hcounts, -, hrad'⟩ := hbounded
  have hb := component_scaled (s.net.thepicture s.p) 0
  have hg := component_scaled (s.net.thepicture s.p) 8
  have hr := component_scaled (s.net.thepicture s.p) 16
  unfold Learning.presentSteps Learning.present
  dsimp only
  generalize component (s.net.thepicture s.p) 0 = b at *
  generalize component (s.net.thepicture s.p) 8 = g at *
  generalize component (s.net.thepicture s.p) 16 = r at *
  have hmem := (contest_mem hpos hnetwork.biased hbalanced hb.biased hg.biased hr.biased).1
  have hexact := @contest_exact s.net.netsize freq₀ b g r s.net hcounts
  refine (tells_contest hpos hsize hnetwork hbalanced hcounts hb hg hr).bind_eq ?_
  have hsingle := altersingle_scaled (q := (s.net.contest b g r).2) hnetwork halpha hmem hb hg hr
  refine (tells_altersingle (q := (s.net.contest b g r).2) hnetwork halpha hmem hb hg hr).bind_eq ?_
  by_cases hzero : s.rad = 0
  · rw [if_pos hzero, if_pos hzero]
    exact tells_pure ⟨rfl, hsingle, hexact⟩
  · rw [if_neg hzero, if_neg hzero]
    refine (tells_alterneigh (q := (s.net.contest b g r).2.altersingle s.alpha
      (s.net.contest b g r).1 b g r) hsingle hsize
      hpowers ⟨hrad, hrad'⟩ hmem hb hg hr).imp ?_
    rintro _ ⟨rfl, hscaled⟩
    exact ⟨rfl, hscaled, hexact⟩

theorem radFor_le {radius : Int} (h : radius ≤ 2048) : radFor radius ≤ 32 := by
  unfold radFor
  rw [Int.shiftRight_eq_div_pow]
  split <;> omega

theorem decay_bounded {s' : Learning} (h : s.decay = some s') (hs : s.Bounded netsize freq₀) :
    s'.Bounded netsize freq₀ := by
  obtain ⟨x, -, hmap⟩ := Option.bind_eq_some_iff.mp h
  obtain ⟨radpower, -, rfl⟩ := Option.map_eq_some_iff.mp hmap
  obtain ⟨hlo, hhi⟩ := hs.radius
  have hradius : 0 ≤ s.radius - s.radius.tdiv radiusdec ∧
      s.radius - s.radius.tdiv radiusdec ≤ 2048 := by
    rw [Int.tdiv_eq_ediv_of_nonneg hlo]
    unfold radiusdec
    omega
  exact ⟨hs.network, hs.counts, hradius, radFor_le hradius.2⟩

theorem turn_bounded {delta : Int} {step : Nat} {s' : Learning} (hpos : 0 < netsize)
    (hsize : netsize ≤ 256)
    (hs : s.Holds netsize) (hbounded : s.Bounded netsize freq₀) (h : s.turn delta step = some s') :
    s'.Bounded netsize freq₀ := by
  have htells := tells_present hpos hsize hs hbounded
  obtain ⟨hresult, hnetwork, hcounts⟩ := htells.result
  rw [hresult] at hnetwork hcounts
  have hpresented : Learning.Bounded netsize freq₀
      { s with net := s.present, p := s.next step, i := s.i + 1 } :=
    ⟨hnetwork, hcounts, hbounded.radius, hbounded.rad⟩
  obtain ⟨x, -, hx⟩ := Option.bind_eq_some_iff.mp h
  split at hx
  · exact decay_bounded hx hpresented
  · obtain rfl := Option.some.inj hx
    exact hpresented

/-- Step by step the loop comes to where it comes to, and all that it tells is good. -/
theorem learnLoopSteps_good {delta : Int} {step : Nat} (hpos : 0 < netsize)
    (hsize : netsize ≤ 256) (n : Nat)
    (hs : s.Holds netsize) (hbounded : s.Bounded netsize freq₀) :
    (∀ e ∈ (learnLoopSteps delta step n s).1, e.Good netsize freq₀) ∧
      (learnLoopSteps delta step n s).2 = (learnLoop delta step n s).2 := by
  induction n generalizing s with
  | zero => exact ⟨by simp [learnLoopSteps], rfl⟩
  | succ n ih =>
    have htells := tells_present hpos hsize hs hbounded
    have hturn : s.after delta step (result s.presentSteps) = s.turn delta step := by
      rw [htells.result.1, turn_eq_after]
    rw [learnLoopSteps, learnLoop, hturn]
    cases hnext : s.turn delta step with
    | none => exact ⟨htells.events, rfl⟩
    | some s' =>
      obtain ⟨hevents, hresult⟩ :=
        ih (turn_holds hpos hnext hs) (turn_bounded hpos hsize hs hbounded hnext)
      exact ⟨List.forall_mem_append.mpr ⟨htells.events, hevents⟩, hresult⟩

end

section

variable (q : Net) (srcimage : DIB) (numColors quality : Int)

theorem prepared_scaled : Scaled (clampColors numColors)
    (q.prepared srcimage numColors quality).network := by
  intro k hk
  have hcolour : IsScaled (k * 2 ^ 12 / (clampColors numColors : Int)) := by
    obtain ⟨-, hhi⟩ := clampColors_bounds numColors
    obtain ⟨hklo, hkhi⟩ := hk
    have hpos : (0 : Int) < clampColors numColors := hklo.trans_lt hkhi
    refine ⟨Int.ediv_nonneg (mul_nonneg hklo (by decide)) hpos.le, ?_⟩
    rw [← Int.lt_add_one_iff]
    apply Int.ediv_lt_of_lt_mul hpos
    omega
  have hentry : (q.prepared srcimage numColors quality).network k =
      ⟨k * 2 ^ 12 / (clampColors numColors : Int), k * 2 ^ 12 / (clampColors numColors : Int),
        k * 2 ^ 12 / (clampColors numColors : Int), (q.network k).c⟩ := if_pos hk
  rw [hentry]
  exact ⟨hcolour, hcolour, hcolour⟩

theorem begun_bounded (radpower : Int → Int) :
    ((q.prepared srcimage numColors quality).begun radpower).Bounded (clampColors numColors)
      (q.prepared srcimage numColors quality).freq := by
  have hinitradius : (q.prepared srcimage numColors quality).initradius =
      ((clampColors numColors >>> 3 : Nat) : Int) * radiusbias := rfl
  have hradius : 0 ≤ (q.prepared srcimage numColors quality).initradius ∧
      (q.prepared srcimage numColors quality).initradius ≤ 2048 := by
    have hbounds := (clampColors_bounds numColors).2
    rw [hinitradius, Nat.shiftRight_eq_div_pow]
    unfold radiusbias
    omega
  refine ⟨prepared_scaled q srcimage numColors quality, fun k hk => ?_, hradius,
    radFor_le hradius.2⟩
  have hbias : ((q.prepared srcimage numColors quality).begun radpower).net.bias k = 0 := if_pos hk
  have hfreq : ((q.prepared srcimage numColors quality).begun radpower).net.freq k =
      (q.prepared srcimage numColors quality).freq k := rfl
  rw [hbias, hfreq, sub_self, mul_zero]

/-- `learn` is its loop, with the arrays as they are before it. -/
theorem learnSteps_prepared {radpower : Int → Int}
    (h : fillRadpower initalpha (radFor (q.prepared srcimage numColors quality).initradius)
      q.radpower = some radpower) :
    (q.prepared srcimage numColors quality).learnSteps =
      ([.network (q.prepared srcimage numColors quality).network,
          .counts (q.prepared srcimage numColors quality).freq
            (q.prepared srcimage numColors quality).bias] ++
        (learnLoopSteps (samplePixels srcimage quality / 100 : Nat)
          (stepFor (srcimage.total * 4 : Nat))
          (samplePixels srcimage quality)
          ((q.prepared srcimage numColors quality).begun radpower)).1,
        (learnLoopSteps (samplePixels srcimage quality / 100 : Nat)
          (stepFor (srcimage.total * 4 : Nat))
          (samplePixels srcimage quality)
          ((q.prepared srcimage numColors quality).begun radpower)).2) := by
  have hdivide : divide (q.prepared srcimage numColors quality).lengthcount
      (4 * (q.prepared srcimage numColors quality).samplefac) =
        some (samplePixels srcimage quality : Int) :=
    divide_samplePixels srcimage quality
  have hfill : fillRadpower initalpha (radFor (q.prepared srcimage numColors quality).initradius)
      (q.prepared srcimage numColors quality).radpower = some radpower := h
  unfold Net.learnSteps
  simp only [hdivide, hfill, Int.toNat_natCast]
  rfl

/-- With a hundred pixels or more to be learnt, `learn` comes to its end, and all that it does on
the way is good. -/
theorem learnSteps_good (h : 100 ≤ samplePixels srcimage quality) :
    (∃ learnt, (q.prepared srcimage numColors quality).learnSteps.2 = some learnt ∧
      (q.prepared srcimage numColors quality).learn.2 = some learnt) ∧
    ∀ e ∈ (q.prepared srcimage numColors quality).learnSteps.1,
      e.Good (q.prepared srcimage numColors quality).netsize
        (q.prepared srcimage numColors quality).freq := by
  obtain ⟨learnt, hlearnt⟩ :=
    Option.isSome_iff_exists.mp ((learn_isSome_iff q srcimage numColors quality).mpr (.inr h))
  obtain ⟨radpower, hradpower, hlearn⟩ := learn_prepared q srcimage numColors quality
  obtain ⟨hlo, hhi⟩ := clampColors_bounds numColors
  have hbounded := begun_bounded q srcimage numColors quality radpower
  obtain ⟨hevents, hresult⟩ :=
    @learnLoopSteps_good _ _ _ (samplePixels srcimage quality / 100 : Nat)
    (stepFor (srcimage.total * 4 : Nat)) (by omega) hhi (samplePixels srcimage quality)
    (begun_holds q srcimage numColors quality hradpower) hbounded
  rw [← hlearn, hlearnt] at hresult
  rw [learnSteps_prepared q srcimage numColors quality hradpower]
  refine ⟨⟨learnt, hresult, hlearnt⟩, ?_⟩
  exact List.forall_mem_cons.mpr ⟨hbounded.network,
    List.forall_mem_cons.mpr ⟨hbounded.counts, hevents⟩⟩

theorem learnSteps_good_tenByTen :
    (∃ learnt, (freshNet.prepared ⟨10, 10, fun _ => 0, by decide, by decide, by decide⟩ 16
      100).learnSteps.2 = some learnt ∧
      (freshNet.prepared ⟨10, 10, fun _ => 0, by decide, by decide, by decide⟩ 16 100).learn.2 =
        some learnt) ∧
    ∀ e ∈ (freshNet.prepared ⟨10, 10, fun _ => 0, by decide, by decide, by decide⟩ 16
      100).learnSteps.1,
      e.Good 16
        (freshNet.prepared ⟨10, 10, fun _ => 0, by decide, by decide, by decide⟩ 16 100).freq :=
  learnSteps_good freshNet ⟨10, 10, fun _ => 0, by decide, by decide, by decide⟩ 16 100 (by decide)

end

end NeuQuant
