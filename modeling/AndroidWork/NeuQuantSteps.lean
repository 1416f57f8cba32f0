import AndroidWork.NeuQuantNetwork
import AndroidWork.Traces

/-!
# The quantiser's learning, step by step

`contest`, `altersingle` and `alterneigh` once more, one operation after the other: with all
results on the way, the entries of `radpower` that are read, the neurons that are altered and
the arrays after every change.
-/
namespace NeuQuant

open Traces

inductive Event where
  | value (x : Int)
  | power (index rad : Int)
  | neuron (i : Int)
  | network (network : Int → Pixel)
  | counts (freq bias : Int → Int)

/-- The result of an operation on ints. -/
def int (x : Int) : Traced Event Int := do
  tell [.value x]
  pure x

/-- `a = x - t; if (a < 0) a = -a;` -/
def apartSteps (x t : Int) : Traced Event Int := do
  let a ← int (x - t)
  if a < 0 then int (-a) else pure a

/-- A turn of the loop of `contest`. -/
def Contest.turnSteps (network : Int → Pixel) (b g r : Int) (s : Contest) (i : Nat) :
    Traced Event Contest := do
  let n := network i
  let dist ← apartSteps n.b b
  let a ← apartSteps n.g g
  let dist ← int (dist + a)
  let a ← apartSteps n.r r
  let dist ← int (dist + a)
  let unbiased ← int (s.bias i >>> (12 : Nat))
  let biasdist ← int (dist - unbiased)
  let betafreq ← int (s.freq i >>> (10 : Nat))
  let freq ← int (s.freq i - betafreq)
  let gain ← int (betafreq * 2 ^ 10)
  let bias ← int (s.bias i + gain)
  let _ ← int (i + 1)
  let s' : Contest :=
    { freq := Function.update s.freq i freq
      bias := Function.update s.bias i bias
      bestd := if dist < s.bestd then dist else s.bestd
      bestbiasd := if biasdist < s.bestbiasd then biasdist else s.bestbiasd
      bestpos := if dist < s.bestd then i else s.bestpos
      bestbiaspos := if biasdist < s.bestbiasd then i else s.bestbiaspos }
  tell [.counts s'.freq s'.bias]
  pure s'

/-- `*p -= (a * (*p - t)) / unit;` -/
def movedSteps (x a unit t : Int) : Traced Event Int := do
  let d ← int (x - t)
  let product ← int (a * d)
  let part ← int (product.tdiv unit)
  int (x - part)

def storeSteps (network : Int → Pixel) (i : Int) (n : Pixel) : Traced Event (Int → Pixel) := do
  tell [.network (Function.update network i n)]
  pure (Function.update network i n)

/-- The components of a neuron, one after the other. -/
def alterSteps (network : Int → Pixel) (i a unit b g r : Int) : Traced Event (Int → Pixel) := do
  tell [.neuron i]
  let x ← movedSteps (network i).b a unit b
  let network ← storeSteps network i { network i with b := x }
  let x ← movedSteps (network i).g a unit g
  let network ← storeSteps network i { network i with g := x }
  let x ← movedSteps (network i).r a unit r
  storeSteps network i { network i with r := x }

/-- One side of the loop of `alterneigh`, if it goes on: the neuron, and the index `next` behind it.
-/
def sideSteps (go : Prop) [Decidable go] (network : Int → Pixel) (i next a b g r : Int) :
    Traced Event (Int → Pixel) :=
  if go then do
    let network ← alterSteps network i a alpharadbias b g r
    let _ ← int next
    pure network
  else pure network

/-- The loop of `alterneigh`, with `m` for `q - radpower`. -/
def neighbourSteps (radpower : Int → Int) (rad b g r lo hi : Int)
    (network : Int → Pixel) (j k m : Int) :
    Traced Event (Int → Pixel) :=
  if j < hi ∨ lo < k then do
    tell [.power (m + 1) rad]
    let above ← sideSteps (j < hi) network j (j + 1) (radpower (m + 1)) b g r
    let below ← sideSteps (lo < k) above k (k - 1) (radpower (m + 1)) b g r
    neighbourSteps radpower rad b g r lo hi below (if j < hi then j + 1 else j) (if lo < k then
      k - 1 else k) (m + 1)
  else pure network
termination_by (hi - j).toNat + (k - lo).toNat
decreasing_by
  split <;> split <;> omega

section

variable (q : Net)

def Net.contestSteps (b g r : Int) : Traced Event (Int × Net) := do
  let sign ← int (1#32 <<< 31).toInt
  let bestd ← int (~~~sign)
  let s ← (List.range' 0 q.netsize).foldlM (Contest.turnSteps q.network b g r)
    ⟨q.freq, q.bias, bestd, bestd, -1, -1⟩
  let freq ← int (s.freq s.bestpos + beta)
  let bias ← int (s.bias s.bestpos - betagamma)
  let net := { q with
    freq := Function.update s.freq s.bestpos freq
    bias := Function.update s.bias s.bestpos bias }
  tell [.counts net.freq net.bias]
  pure (s.bestbiaspos, net)

def Net.altersingleSteps (alpha i b g r : Int) : Traced Event Net := do
  let network ← alterSteps q.network i alpha initalpha b g r
  pure { q with network := network }

/-- `netsize` is unsigned, and `hi` is compared with it as an unsigned number. -/
def Net.alterneighSteps (rad i b g r : Int) : Traced Event Net := do
  let lo ← int (i - rad)
  let hi ← int (i + rad)
  let j ← int (i + 1)
  let k ← int (i - 1)
  let network ← neighbourSteps q.radpower rad b g r (if lo < -1 then -1 else lo)
    (if q.netsize < (BitVec.ofInt 32 hi).toNat then q.netsize else hi) q.network j k 0
  pure { q with network := network }

end

section

variable (delta : Int) (step : Nat) (s : Learning)

/-- The pixel that `p` points at is learnt. -/
def Learning.presentSteps : Traced Event Net := do
  let word := s.net.thepicture s.p
  let b := component word 0
  let g := component word 8
  let r := component word 16
  let (j, net) ← s.net.contestSteps b g r
  let net ← net.altersingleSteps s.alpha j b g r
  if s.rad = 0 then pure net else net.alterneighSteps s.rad j b g r

/-- What follows in the loop of `learn`. -/
def Learning.after (net : Net) : Option Learning :=
  let s' := { s with net := net, p := s.next step, i := s.i + 1 }
  (remainder s'.i delta).bind fun x => if x = 0 then s'.decay else some s'

theorem turn_eq_after : s.turn delta step = s.after delta step s.present := rfl

/-- The loop of `learn`: what it tells, and where it comes to. -/
def learnLoopSteps : Nat → Learning → List Event × Option Net
  | 0, s => ([], some s.net)
  | n + 1, s =>
    match s.after delta step (result s.presentSteps) with
    | none => (events s.presentSteps, none)
    | some s' => (events s.presentSteps ++ (learnLoopSteps n s').1, (learnLoopSteps n s').2)

/-- The events of `learn`, the arrays at its beginning among them, and the object afterwards
unless a division or a remainder by zero has ended the process. -/
def Net.learnSteps (q : Net) : List Event × Option Net :=
  let start := [Event.network q.network, .counts q.freq q.bias]
  match divide q.lengthcount (4 * q.samplefac) with
  | none => (start, none)
  | some samplepixels =>
    match fillRadpower initalpha (radFor q.initradius) q.radpower with
    | none => (start, none)
    | some radpower =>
      let steps := learnLoopSteps (samplepixels.tdiv ncycles)
        (stepFor q.lengthcount) samplepixels.toNat (q.begun radpower)
      (start ++ steps.1, steps.2)

end

section

variable (network : Int → Pixel) (b g r : Int)

@[simp] theorem events_int (x : Int) : events (int x) = [.value x] := rfl

@[simp] theorem result_int (x : Int) : result (int x) = x := rfl

/-- The difference, and the negation where it is made. -/
theorem events_apart (x t : Int) :
    events (apartSteps x t) = .value (x - t) :: if x - t < 0 then [.value (-(x - t))] else [] := by
  by_cases h : x - t < 0 <;> simp [apartSteps, h]

@[simp] theorem result_apart (x t : Int) : result (apartSteps x t) = |x - t| := by
  by_cases h : x - t < 0
  · simp [apartSteps, h, abs_of_neg h]
  · simp [apartSteps, h, abs_of_nonneg (not_lt.mp h)]

@[simp] theorem result_turn (s : Contest) (i : Nat) :
    result (s.turnSteps network b g r i) = s.turn network b g r i := by
  simp only [Contest.turnSteps, result_bind, result_apart, result_int, result_pure]
  rfl

/-- The three differences with their sums, then one event to each operator of the turn, and the
counts at its end. -/
theorem events_turn (s : Contest) (i : Nat) :
    events (s.turnSteps network b g r i) =
      events (apartSteps (network i).b b) ++ events (apartSteps (network i).g g) ++
        [.value (|(network i).b - b| + |(network i).g - g|)] ++
          events (apartSteps (network i).r r) ++
        [.value (distance (network i) b g r), .value (s.bias i >>> (12 : Nat)),
          .value (distance (network i) b g r - s.bias i >>> (12 : Nat)),
          .value (s.freq i >>> (10 : Nat)),
          .value (s.freq i - s.freq i >>> (10 : Nat)), .value (s.freq i >>> (10 : Nat) * 2 ^ 10),
          .value (s.bias i + s.freq i >>> (10 : Nat) * 2 ^ 10), .value (i + 1),
          .counts (s.turn network b g r i).freq (s.turn network b g r i).bias] := by
  simp [Contest.turnSteps, Contest.turn, distance]

theorem result_contestLoop (s : Contest) (n : Nat) :
    result ((List.range n).foldlM (Contest.turnSteps network b g r) s) = s.run network b g r n := by
  simp [result_foldlM, Contest.run]

/-- The largest int is `~(1 << 31)`. The turns follow, one to each neuron, and the changes of the
winner's counts. -/
theorem events_contest (q : Net) :
    let turns := Contest.run q.network b g r ⟨q.freq, q.bias, 2 ^ 31 - 1, 2 ^ 31 - 1, -1, -1⟩
    let last := turns q.netsize
    events (q.contestSteps b g r) =
      [.value (-2 ^ 31), .value (2 ^ 31 - 1)] ++
        (List.range q.netsize).flatMap (fun i => events ((turns i).turnSteps q.network b g r i)) ++
        [.value (last.freq last.bestpos + beta), .value (last.bias last.bestpos - betagamma),
          .counts (q.contest b g r).2.freq (q.contest b g r).2.bias] := by
  have hsign : (1#32 <<< 31).toInt = -2 ^ 31 := by decide
  have hbestd : ~~~(-2 ^ 31 : Int) = 2 ^ 31 - 1 := by decide
  simp only [Net.contestSteps, ← List.range_eq_range', hsign, events_bind, events_int,
    result_int, hbestd,
    events_foldlM, result_contestLoop, Net.contest, events_tell, events_pure, List.append_nil]
  simp

/-- A difference, a product, a quotient and the new component. -/
theorem events_moved (x a unit t : Int) :
    events (movedSteps x a unit t) =
      [.value (x - t), .value (a * (x - t)), .value ((a * (x - t)).tdiv unit),
        .value (x - (a * (x - t)).tdiv unit)] := rfl

@[simp] theorem result_alter (i a unit : Int) :
    result (alterSteps network i a unit b g r) =
      Function.update network i ((network i).moved a unit b g r) := by
  simp [alterSteps, storeSteps, Pixel.moved, movedSteps]

/-- The three components one after the other, each with the network behind it. -/
theorem events_alter (i a unit : Int) :
    let n := network i
    let n' := n.moved a unit b g r
    events (alterSteps network i a unit b g r) =
      [.neuron i] ++ events (movedSteps n.b a unit b) ++
        [.network (Function.update network i { n with b := n'.b })] ++
        events (movedSteps n.g a unit g) ++
          [.network (Function.update network i { n with b := n'.b, g := n'.g })] ++
        events (movedSteps n.r a unit r) ++ [.network (Function.update network i n')] := by
  simp [alterSteps, storeSteps, Pixel.moved, movedSteps]

theorem events_altersingle (q : Net) (alpha i : Int) :
    events (q.altersingleSteps alpha i b g r) =
      events (alterSteps q.network i alpha initalpha b g r) := by
  simp [Net.altersingleSteps]

/-- A neighbour, and the index that goes on behind it. -/
theorem events_side (go : Prop) [Decidable go] (i next a : Int) :
    events (sideSteps go network i next a b g r) =
      if go then events (alterSteps network i a alpharadbias b g r) ++ [.value next] else [] := by
  by_cases h : go <;> simp [sideSteps, h]

/-- A turn of the loop of `alterneigh`: the power that is read, and what both sides tell. -/
theorem events_neighbours (radpower : Int → Int) (rad lo hi j k m : Int) (h : j < hi ∨ lo < k) :
    let above := result (sideSteps (j < hi) network j (j + 1) (radpower (m + 1)) b g r)
    let below := result (sideSteps (lo < k) above k (k - 1) (radpower (m + 1)) b g r)
    events (neighbourSteps radpower rad b g r lo hi network j k m) =
      [.power (m + 1) rad] ++ events (sideSteps (j < hi) network j (j + 1)
        (radpower (m + 1)) b g r) ++
        events (sideSteps (lo < k) above k (k - 1) (radpower (m + 1)) b g r) ++
        events (neighbourSteps radpower rad b g r lo hi below (if j < hi then
          j + 1 else j) (if lo < k then k - 1 else k)
          (m + 1)) := by
  rw [neighbourSteps, if_pos h]
  simp

/-- The four bounds, then the turns. -/
theorem events_alterneigh (q : Net) (rad i : Int) :
    let lo := i - rad
    let hi := i + rad
    events (q.alterneighSteps rad i b g r) =
      [.value lo, .value hi, .value (i + 1), .value (i - 1)] ++
        events (neighbourSteps q.radpower rad b g r (if lo < -1 then -1 else lo)
          (if q.netsize < (BitVec.ofInt 32 hi).toNat then q.netsize else hi) q.network
            (i + 1) (i - 1) 0) := by
  simp only [Net.alterneighSteps, events_bind, events_int, result_int, events_pure, List.append_nil]
  rfl

/-- For a pixel `contest` and `altersingle`, and `alterneigh` unless the radius is zero. -/
theorem events_present (s : Learning) :
    let b := component (s.net.thepicture s.p) 0
    let g := component (s.net.thepicture s.p) 8
    let r := component (s.net.thepicture s.p) 16
    let hit := result (s.net.contestSteps b g r)
    let single := hit.2.altersingleSteps s.alpha hit.1 b g r
    events s.presentSteps = events (s.net.contestSteps b g r) ++ events single ++
      if s.rad = 0 then [] else events ((result single).alterneighSteps s.rad hit.1 b g r) := by
  by_cases h : s.rad = 0 <;> simp [Learning.presentSteps, h]

end

end NeuQuant
