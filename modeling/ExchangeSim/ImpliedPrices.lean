import ExchangeSim.SpreadStrategy

/-!
The implied price engine, `implied_price_engine.h`: spread prices implied by the best prices of
the legs, the outright price implied by a spread order, rounding to ticks and the smallest
spread quantity that gives whole lots.
-/

namespace ExchangeSim

open List StrategyLeg

open Multiples

structure LegBBO where
  bidPrice : Int := 0
  bidQty : Int := 0
  askPrice : Int := 0
  askQty : Int := 0
  deriving DecidableEq, Repr

def LegBBO.hasBid (bbo : LegBBO) : Bool :=
  decide (bbo.bidQty > 0)

def LegBBO.hasAsk (bbo : LegBBO) : Bool :=
  decide (bbo.askQty > 0)

def LegBBO.price (bbo : LegBBO) : Side → Int
  | .buy => bbo.bidPrice
  | .sell => bbo.askPrice

def LegBBO.qty (bbo : LegBBO) : Side → Int
  | .buy => bbo.bidQty
  | .sell => bbo.askQty

def LegBBO.has (bbo : LegBBO) : Side → Bool
  | .buy => bbo.hasBid
  | .sell => bbo.hasAsk

inductive ImpliedSource
  | impliedOut
  | impliedIn
  deriving DecidableEq, Repr

structure ImpliedLevel where
  price : Int
  quantity : Int
  side : Side
  source : ImpliedSource
  deriving DecidableEq, Repr

def normalizeTick (price tickSize : Int) : Int :=
  if tickSize ≤ 0 then price
  else if price ≥ 0 then price.tdiv tickSize * tickSize
  else -((-price).tdiv tickSize * tickSize)

/-- `std::numeric_limits<Quantity>::max()`. -/
def maxQuantity : Int := 2 ^ 63 - 1

/-- One turn of the loop over the legs: the price and the quantity so far, with this leg. The
side of the spread decides on which side of its book the leg is looked up. -/
def impliedOutLeg (side : Side) (leg : StrategyLeg) (bbo : LegBBO) (acc : Int × Int) :
    Option (Int × Int) :=
  let absR := |leg.ratio|
  if absR = 0 then none
  else
    let pm := |leg.priceMultiplier|
    if leg.ratio > 0 then
      if !bbo.has side then none
      else some (acc.1 + pm * bbo.price side, min acc.2 ((bbo.qty side).tdiv absR))
    else
      if !bbo.has side.opposite then none
      else some (acc.1 - pm * bbo.price side.opposite,
        min acc.2 ((bbo.qty side.opposite).tdiv absR))

def impliedOutLoop (side : Side) : List (StrategyLeg × LegBBO) → Int × Int → Option (Int × Int)
  | [], acc => some acc
  | x :: rest, acc =>
    match impliedOutLeg side x.1 x.2 acc with
    | none => none
    | some acc => impliedOutLoop side rest acc

def computeImpliedOut (side : Side) (legs : List StrategyLeg) (bbos : List LegBBO)
    (spreadTickSize : Int) : Option ImpliedLevel :=
  if legs.length ≠ bbos.length ∨ legs = [] then none
  else
    match impliedOutLoop side (legs.zip bbos) (0, maxQuantity) with
    | none => none
    | some (price, minQty) =>
      if minQty ≤ 0 then none
      else some ⟨normalizeTick price spreadTickSize, minQty, side, .impliedOut⟩

def computeImpliedOutBid (legs : List StrategyLeg) (bbos : List LegBBO) (spreadTickSize : Int) :
    Option ImpliedLevel :=
  computeImpliedOut .buy legs bbos spreadTickSize

def computeImpliedOutAsk (legs : List StrategyLeg) (bbos : List LegBBO) (spreadTickSize : Int) :
    Option ImpliedLevel :=
  computeImpliedOut .sell legs bbos spreadTickSize

def StrategyLeg.isBuy (leg : StrategyLeg) : Side → Bool
  | .buy => decide (leg.ratio > 0)
  | .sell => decide (leg.ratio < 0)

/-- One turn of the loop over the legs other than the target: what they cost. -/
def impliedInLeg (spreadSide : Side) (leg : StrategyLeg) (bbo : LegBBO) (acc : Int × Int) :
    Option (Int × Int) :=
  let absR := |leg.ratio|
  if absR = 0 then none
  else
    let pm := |leg.priceMultiplier|
    if leg.isBuy spreadSide then
      if !bbo.hasAsk then none
      else some (acc.1 + leg.sign * pm * bbo.askPrice, min acc.2 (bbo.askQty.tdiv absR))
    else
      if !bbo.hasBid then none
      else some (acc.1 + leg.sign * pm * bbo.bidPrice, min acc.2 (bbo.bidQty.tdiv absR))

def impliedInLoop (target : Nat) (spreadSide : Side) :
    Nat → List (StrategyLeg × LegBBO) → Int × Int → Option (Int × Int)
  | _, [], acc => some acc
  | i, x :: rest, acc =>
    if i = target then impliedInLoop target spreadSide (i + 1) rest acc
    else
      match impliedInLeg spreadSide x.1 x.2 acc with
      | none => none
      | some acc => impliedInLoop target spreadSide (i + 1) rest acc

def computeImpliedIn (legs : List StrategyLeg) (bbos : List LegBBO) (targetLegIndex : Nat)
    (spreadSide : Side) (spreadPrice outrightTickSize : Int) : Option ImpliedLevel :=
  if legs.length ≠ bbos.length ∨ legs = [] then none
  else
    match legs[targetLegIndex]? with
    | none => none
    | some target =>
      if target.ratio = 0 then none
      else
        let targetPm := |target.priceMultiplier|
        if targetPm = 0 then none
        else
          let targetSide : Side := if target.isBuy spreadSide then .buy else .sell
          match impliedInLoop targetLegIndex spreadSide 0 (legs.zip bbos) (0, maxQuantity) with
          | none => none
          | some (otherCost, minQty) =>
            if minQty ≤ 0 then none
            else
              let numerator := spreadPrice - otherCost
              let divisor := target.sign * targetPm
              let rawPrice := numerator.tdiv divisor
              some ⟨normalizeTick rawPrice outrightTickSize, minQty, targetSide, .impliedIn⟩

/-- The loop of `gcd`, after the signs are gone. -/
def gcdLoop (a b : Int) : Int :=
  if b = 0 then a
  else gcdLoop b (a.tmod b)
  termination_by b.natAbs
  decreasing_by
    rw [Int.natAbs_tmod]
    exact Nat.mod_lt _ (by omega)

def quantityGcd (a b : Int) : Int :=
  gcdLoop (if a < 0 then -a else a) (if b < 0 then -b else b)

def quantityLcm (a b : Int) : Int :=
  if a = 0 ∨ b = 0 then 0
  else
    let a := if a < 0 then -a else a
    let b := if b < 0 then -b else b
    a.tdiv (quantityGcd a b) * b

def minSpreadQtyLoop : List StrategyLeg → Int → Int
  | [], result => result
  | leg :: legs, result =>
    let absR := |leg.ratio|
    if absR = 0 ∨ leg.lotSize ≤ 0 then 0
    else
      let g := quantityGcd leg.lotSize absR
      let perLeg := leg.lotSize.tdiv g
      minSpreadQtyLoop legs (quantityLcm result perLeg)

def computeMinSpreadQty (legs : List StrategyLeg) : Int :=
  if legs = [] then 0 else minSpreadQtyLoop legs 1

/-! Rounding. -/

theorem normalizeTick_eq (price tickSize : Int) :
    normalizeTick price tickSize =
      if tickSize ≤ 0 then price else truncTo tickSize price := by
  unfold normalizeTick
  split_ifs
  · rfl
  · rfl
  · rw [Int.neg_tdiv, neg_mul, neg_neg]
    rfl

def tickUnit (tickSize : Int) : Int :=
  if tickSize ≤ 0 then 1 else tickSize

theorem tickUnit_pos (tickSize : Int) : 0 < tickUnit tickSize := by
  unfold tickUnit
  split_ifs <;> omega

theorem normalizeTick_unit (price tickSize : Int) :
    normalizeTick price tickSize = truncTo (tickUnit tickSize) price := by
  rw [normalizeTick_eq, tickUnit]
  split_ifs
  · simp [truncTo]
  · rfl

/-! The loops in closed form. -/

/-- The leg can be traded on its side of the book. -/
def Quoted (side : Side) (x : StrategyLeg × LegBBO) : Prop :=
  x.1.ratio ≠ 0 ∧ x.2.has (x.1.side side) = true

instance (side : Side) (x : StrategyLeg × LegBBO) : Decidable (Quoted side x) :=
  inferInstanceAs (Decidable (_ ∧ _))

def quote (side : Side) (x : StrategyLeg × LegBBO) : Int :=
  x.2.price (x.1.side side)

/-- The spreads for which the best level of the leg is enough. -/
def spreads (side : Side) (x : StrategyLeg × LegBBO) : Int :=
  (x.2.qty (x.1.side side)).tdiv |x.1.ratio|

/-- The weight of a leg in the implied prices: the sign of the multiplier is dropped. -/
def StrategyLeg.absWeight (leg : StrategyLeg) : Int :=
  leg.sign * |leg.priceMultiplier|

def cost (side : Side) (xs : List (StrategyLeg × LegBBO)) : Int :=
  (xs.map fun x => x.1.absWeight * quote side x).sum

theorem impliedOutLeg_eq (side : Side) (x : StrategyLeg × LegBBO) (acc : Int × Int) :
    impliedOutLeg side x.1 x.2 acc =
      if Quoted side x then
        some (acc.1 + x.1.absWeight * quote side x, min acc.2 (spreads side x))
      else none := by
  simp only [impliedOutLeg, Quoted, quote, spreads, StrategyLeg.absWeight, StrategyLeg.side,
    sign, abs_eq_zero, Bool.not_eq_true']
  by_cases hzero : x.1.ratio = 0
  · simp [hzero]
  · by_cases hpos : x.1.ratio > 0
    · cases hhas : x.2.has side <;> simp [hzero, hpos, hhas]
    · cases hhas : x.2.has side.opposite <;> simp [hzero, hpos, hhas, sub_eq_add_neg]

theorem impliedInLeg_eq (side : Side) (leg : StrategyLeg) (bbo : LegBBO) (acc : Int × Int) :
    impliedInLeg side leg bbo acc = impliedOutLeg side.opposite leg bbo acc := by
  rcases lt_trichotomy leg.ratio 0 with hr | hr | hr
  · cases side <;>
      simp [impliedInLeg, impliedOutLeg, isBuy, sign, Side.opposite,
        LegBBO.has, LegBBO.price, LegBBO.qty, hr, hr.ne, not_lt.mpr hr.le, sub_eq_add_neg]
  · simp [impliedInLeg, impliedOutLeg, hr]
  · cases side <;>
      simp [impliedInLeg, impliedOutLeg, isBuy, sign, Side.opposite,
        LegBBO.has, LegBBO.price, LegBBO.qty, hr, hr.ne', not_lt.mpr hr.le]

theorem impliedOutLoop_eq (side : Side) (xs : List (StrategyLeg × LegBBO)) (acc : Int × Int) :
    impliedOutLoop side xs acc =
      if ∀ x ∈ xs, Quoted side x then
        some (acc.1 + cost side xs, (xs.map (spreads side)).foldl min acc.2)
      else none := by
  induction xs generalizing acc with
  | nil => simp [impliedOutLoop, cost]
  | cons x xs ih =>
    rw [impliedOutLoop, impliedOutLeg_eq]
    by_cases hx : Quoted side x
    · simp only [hx, ↓reduceIte, ih, List.forall_mem_cons, true_and, cost, List.map_cons,
        sum_cons, List.foldl_cons, add_assoc]
    · simp [hx]

theorem impliedInLoop_past {target i : Nat} (side : Side) (xs : List (StrategyLeg × LegBBO))
    (acc : Int × Int) (hi : target < i) :
    impliedInLoop target side i xs acc = impliedOutLoop side.opposite xs acc := by
  induction xs generalizing i acc with
  | nil => rfl
  | cons x xs ih =>
    rw [impliedInLoop, if_neg (by omega), impliedOutLoop, impliedInLeg_eq]
    cases impliedOutLeg side.opposite x.1 x.2 acc with
    | none => rfl
    | some acc => exact ih acc (by omega)

theorem impliedInLoop_eq {target i : Nat} (side : Side) (xs : List (StrategyLeg × LegBBO))
    (acc : Int × Int) (hi : i ≤ target) :
    impliedInLoop target side i xs acc =
      impliedOutLoop side.opposite (xs.eraseIdx (target - i)) acc := by
  induction xs generalizing i acc with
  | nil => rfl
  | cons x xs ih =>
    rw [impliedInLoop]
    by_cases heq : i = target
    · rw [if_pos heq, impliedInLoop_past side xs acc (by omega), heq, Nat.sub_self]
      rfl
    · obtain ⟨k, hk⟩ : ∃ k, target - i = k + 1 := ⟨target - i - 1, by omega⟩
      rw [if_neg heq, hk, eraseIdx_cons_succ, impliedOutLoop, impliedInLeg_eq]
      cases impliedOutLeg side.opposite x.1 x.2 acc with
      | none => rfl
      | some acc =>
        have hrest := ih acc (by omega : i + 1 ≤ target)
        rwa [show target - (i + 1) = k by omega] at hrest

theorem lt_foldl_min_iff {a q : Int} {xs : List Int} :
    a < xs.foldl min q ↔ a < q ∧ ∀ x ∈ xs, a < x := by
  induction xs generalizing q with
  | nil => simp
  | cons x xs ih => rw [List.foldl_cons, ih, lt_min_iff, List.forall_mem_cons, and_assoc]

section impliedOut

variable {side : Side} {legs : List StrategyLeg} {bbos : List LegBBO} {tick : Int}
  {level : ImpliedLevel}

theorem computeImpliedOut_eq_some_iff :
    computeImpliedOut side legs bbos tick = some level ↔
      legs.length = bbos.length ∧ legs ≠ [] ∧
      (∀ x ∈ legs.zip bbos, Quoted side x ∧ 0 < spreads side x) ∧
      level = ⟨normalizeTick (cost side (legs.zip bbos)) tick,
        ((legs.zip bbos).map (spreads side)).foldl min maxQuantity, side, .impliedOut⟩ := by
  have hmax : (0 : Int) < maxQuantity := by decide
  rw [computeImpliedOut, impliedOutLoop_eq]
  by_cases hshape : legs.length ≠ bbos.length ∨ legs = []
  · rw [if_pos hshape]
    constructor
    · simp
    · rintro ⟨hlen, hne, -⟩
      exact absurd hshape (by simp [hlen, hne])
  · rw [if_neg hshape]
    push Not at hshape
    by_cases hquoted : ∀ x ∈ legs.zip bbos, Quoted side x
    · rw [if_pos hquoted]
      simp only [zero_add]
      by_cases hqty : ((legs.zip bbos).map (spreads side)).foldl min maxQuantity ≤ 0
      · rw [if_pos hqty]
        constructor
        · simp
        · rintro ⟨-, -, hall, -⟩
          rw [← not_lt, lt_foldl_min_iff, forall_mem_map] at hqty
          exact absurd ⟨hmax, fun x hx => (hall x hx).2⟩ hqty
      · rw [if_neg hqty, Option.some.injEq, eq_comm]
        rw [not_le, lt_foldl_min_iff, forall_mem_map] at hqty
        exact ⟨fun h => ⟨hshape.1, hshape.2, fun x hx => ⟨hquoted x hx, hqty.2 x hx⟩, h⟩,
          fun h => h.2.2.2⟩
    · rw [if_neg hquoted]
      constructor
      · simp
      · rintro ⟨-, -, hall, -⟩
        exact absurd (fun x hx => (hall x hx).1) hquoted

end impliedOut

end ExchangeSim
