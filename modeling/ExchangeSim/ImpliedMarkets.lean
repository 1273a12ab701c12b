import ExchangeSim.ImpliedPrices

/-!
What implied prices are worth: they follow the formula of the strategy when no multiplier is
negative, they never cross, the price implied for an outright leg is off the limit of the spread
by the rounding alone, the tick of a strategy is the grid of what its legs can attain, and the
smallest spread quantity is exact.
-/

namespace ExchangeSim

open List StrategyLeg

open Multiples

def legPrices (side : Side) (legs : List StrategyLeg) (bbos : List LegBBO) : List Int :=
  (legs.zip bbos).map (quote side)

section formula

variable {side : Side} {legs : List StrategyLeg} {bbos : List LegBBO}

theorem length_legPrices (hlen : legs.length = bbos.length) :
    (legPrices side legs bbos).length = legs.length := by
  simp [legPrices, hlen]

theorem cost_eq (side : Side) (xs : List (StrategyLeg × LegBBO)) :
    cost side xs = weighted (xs.map fun x => x.1.absWeight) (xs.map (quote side)) := by
  induction xs with
  | nil => rfl
  | cons x xs ih =>
    simp only [List.map_cons, weighted_cons, ← ih]
    simp [cost]

theorem cost_zip (hlen : legs.length = bbos.length) :
    cost side (legs.zip bbos) =
      weighted (legs.map absWeight) (legPrices side legs bbos) := by
  have hfst : (legs.zip bbos).map Prod.fst = legs := map_fst_zip hlen.le
  rw [cost_eq, legPrices]
  congr 1
  conv_rhs => rw [← hfst, map_map]
  rfl

theorem absWeight_of_nonneg {leg : StrategyLeg} (h : 0 ≤ leg.priceMultiplier) :
    leg.absWeight = leg.weight := by
  rw [absWeight, weight, abs_of_nonneg h]

theorem cost_eq_computeSpreadPrice (s : SpreadStrategy)
    (hpm : ∀ leg ∈ s.legs, 0 ≤ leg.priceMultiplier) (hlen : s.legs.length = bbos.length) :
    cost side (s.legs.zip bbos) = s.computeSpreadPrice (legPrices side s.legs bbos) := by
  rw [cost_zip hlen, computeSpreadPrice_eq s (length_legPrices hlen)]
  congr 1
  exact map_congr_left fun leg hleg => absWeight_of_nonneg (hpm leg hleg)

/-- A book that tells a negative multiplier from its absolute value: all prices are zero but those
of the legs with a negative multiplier. -/
def StrategyLeg.tellingBBO (leg : StrategyLeg) : LegBBO :=
  let price := if leg.priceMultiplier < 0 then leg.sign else 0
  ⟨price, |leg.ratio|, price, |leg.ratio|⟩

theorem sign_mul_sign (leg : StrategyLeg) : leg.sign * leg.sign = 1 := by
  rcases leg.sign_eq with h | h <;> simp [h]

theorem quote_tellingBBO (leg : StrategyLeg) :
    quote side (leg, leg.tellingBBO) = if leg.priceMultiplier < 0 then leg.sign else 0 := by
  cases hside : leg.side side <;> simp [quote, tellingBBO, LegBBO.price, hside]

theorem quoted_tellingBBO (side : Side) {leg : StrategyLeg} (hratio : leg.ratio ≠ 0) :
    Quoted side (leg, leg.tellingBBO) ∧ spreads side (leg, leg.tellingBBO) = 1 := by
  cases hside : leg.side side <;>
    simp [Quoted, spreads, tellingBBO, LegBBO.has, LegBBO.hasBid, LegBBO.hasAsk,
      LegBBO.qty, hside, hratio]

theorem weighted_tellingBBO (side : Side) (legs : List StrategyLeg) :
    weighted (legs.map absWeight) (legPrices side legs (legs.map (·.tellingBBO))) =
        (legs.map fun leg => leg.priceMultiplier⁻).sum ∧
      weighted (legs.map weight) (legPrices side legs (legs.map (·.tellingBBO))) =
        -(legs.map fun leg => leg.priceMultiplier⁻).sum := by
  induction legs with
  | nil => simp [legPrices]
  | cons leg legs ih =>
    obtain ⟨habs, hweight⟩ := ih
    have hsign := sign_mul_sign leg
    have hunit (x : Int) : leg.sign * x * leg.sign = x := by
      calc leg.sign * x * leg.sign = leg.sign * leg.sign * x := by ring
        _ = x := by rw [hsign, one_mul]
    simp only [legPrices, List.map_cons, List.zip_cons_cons, weighted_cons, sum_cons] at *
    rw [habs, hweight, quote_tellingBBO]
    simp only [absWeight, weight]
    by_cases hneg : leg.priceMultiplier < 0
    · rw [if_pos hneg, hunit, hunit, abs_of_neg hneg, negPart_of_nonpos hneg.le]
      exact ⟨rfl, by ring⟩
    · rw [if_neg hneg, negPart_of_nonneg (not_lt.mp hneg)]
      simp

/-- The implied prices without rounding are those of the strategy's own formula, on all books of
the legs, exactly when no multiplier is negative. -/
theorem impliedOut_formula_iff {r r' : SpreadStrategyRegistry} {spreadId : Nat}
    {s : SpreadStrategy} (h : r.registerStrategy spreadId s = .ok r') :
    (∀ bbos,
      (∀ bid, computeImpliedOutBid s.legs bbos 0 = some bid →
        bid.price = s.computeSpreadPrice (legPrices .buy s.legs bbos)) ∧
      (∀ ask, computeImpliedOutAsk s.legs bbos 0 = some ask →
        ask.price = s.computeSpreadPrice (legPrices .sell s.legs bbos))) ↔
    ∀ leg ∈ s.legs, 0 ≤ leg.priceMultiplier := by
  obtain ⟨hcount, hlegs⟩ := registerStrategy_ok h
  constructor
  · intro hformula
    set bbos := s.legs.map (·.tellingBBO) with hbbos
    have hlen : s.legs.length = bbos.length := by simp [hbbos]
    have hquoted : ∀ x ∈ s.legs.zip bbos, Quoted .buy x ∧ 0 < spreads .buy x := by
      intro x hx
      rw [hbbos, ← map_id s.legs, map_map, zip_map'] at hx
      obtain ⟨leg, hleg, rfl⟩ := mem_map.mp hx
      obtain ⟨hq, hone⟩ := quoted_tellingBBO .buy (hlegs leg hleg).1
      exact ⟨hq, lt_of_lt_of_eq one_pos hone.symm⟩
    have hbid : computeImpliedOut .buy s.legs bbos 0 = some _ := computeImpliedOut_eq_some_iff.mpr
      ⟨hlen, by rintro hnil; simp [hnil] at hcount, hquoted, rfl⟩
    have hprice := (hformula bbos).1 _ hbid
    obtain ⟨habs, hweight⟩ := weighted_tellingBBO .buy s.legs
    rw [computeSpreadPrice_eq s (length_legPrices hlen), hweight, normalizeTick_eq,
      if_pos le_rfl, cost_zip hlen, habs] at hprice
    have hzero : (s.legs.map fun leg => leg.priceMultiplier⁻).sum = 0 := by
      dsimp only at hprice
      omega
    have hall : ∀ x ∈ s.legs.map fun leg => leg.priceMultiplier⁻, 0 ≤ x := by
      simp [negPart_nonneg]
    intro leg hleg
    exact negPart_eq_zero.mp (all_zero_of_le_zero_le_of_sum_eq_zero hall hzero
      (mem_map_of_mem hleg))
  · intro hpm bbos
    have hside (side : Side) (level : ImpliedLevel)
        (hlevel : computeImpliedOut side s.legs bbos 0 = some level) :
        level.price = s.computeSpreadPrice (legPrices side s.legs bbos) := by
      obtain ⟨hlen, -, -, rfl⟩ := computeImpliedOut_eq_some_iff.mp hlevel
      rw [normalizeTick_eq, if_pos le_rfl, cost_eq_computeSpreadPrice s hpm hlen]
    exact ⟨hside .buy, hside .sell⟩

theorem impliedOut_formula_iff_calendar :
    let s := SpreadStrategy.build (calendar 1 1) 0 0
    let bbos : List LegBBO := [⟨10, 3, 12, 4⟩, ⟨5, 6, 7, 2⟩]
    computeImpliedOutBid s.legs bbos 0 = some ⟨3, 2, .buy, .impliedOut⟩ ∧
      3 = s.computeSpreadPrice (legPrices .buy s.legs bbos) := by
  intro s bbos
  have hreg : ∃ r, SpreadStrategyRegistry.registerStrategy {} 9 s = .ok r := ⟨_, rfl⟩
  obtain ⟨r, hr⟩ := hreg
  have hbid : computeImpliedOutBid s.legs bbos 0 = some ⟨3, 2, .buy, .impliedOut⟩ := by
    decide +kernel
  exact ⟨hbid, ((impliedOut_formula_iff hr).mpr (by decide +kernel) bbos).1 _ hbid⟩

/-- With the multiplier `-1` on the second leg the implied bid is the difference of the prices
and the strategy's formula is their sum. -/
theorem impliedOut_formula_negative :
    ∃ r s, SpreadStrategyRegistry.registerStrategy {} 9 s = .ok r ∧
      s = SpreadStrategy.build (calendar 1 (-1)) 0 0 ∧
      let bbos : List LegBBO := [⟨10, 3, 12, 4⟩, ⟨5, 6, 7, 2⟩]
      computeImpliedOutBid s.legs bbos 0 = some ⟨3, 2, .buy, .impliedOut⟩ ∧
        s.computeSpreadPrice (legPrices .buy s.legs bbos) = 17 :=
  ⟨_, _, rfl, rfl, by decide +kernel, by decide +kernel⟩

end formula

section uncrossed

variable {side : Side} {legs : List StrategyLeg} {bbos : List LegBBO}

theorem cost_le_cost {xs : List (StrategyLeg × LegBBO)}
    (h : ∀ x ∈ xs, x.2.bidPrice ≤ x.2.askPrice) : cost .buy xs ≤ cost .sell xs := by
  refine sum_le_sum fun x hx => ?_
  have hpm := abs_nonneg x.1.priceMultiplier
  by_cases hratio : x.1.ratio > 0
  · simpa [absWeight, sign, quote, side, hratio, LegBBO.price]
      using mul_le_mul_of_nonneg_left (h x hx) hpm
  · simpa [absWeight, sign, quote, side, hratio, LegBBO.price,
      Side.opposite] using mul_le_mul_of_nonneg_left (h x hx) hpm

theorem normalizeTick_mono {p q : Int} (tick : Int) (h : p ≤ q) :
    normalizeTick p tick ≤ normalizeTick q tick := by
  rw [normalizeTick_unit, normalizeTick_unit]
  exact truncTo_mono (tickUnit_pos tick) h

theorem normalizeTick_neg (p tick : Int) : normalizeTick (-p) tick = -normalizeTick p tick := by
  rw [normalizeTick_unit, normalizeTick_unit, truncTo_neg]

def StrategyLeg.negate (leg : StrategyLeg) : StrategyLeg :=
  { leg with ratio := -leg.ratio }

def ImpliedLevel.negate (level : ImpliedLevel) : ImpliedLevel :=
  { level with price := -level.price, side := level.side.opposite }

theorem side_negate {leg : StrategyLeg} (h : leg.ratio ≠ 0) :
    leg.negate.side side.opposite = leg.side side := by
  have hratio : leg.negate.ratio = -leg.ratio := rfl
  unfold StrategyLeg.side
  rcases lt_or_gt_of_ne h with hneg | hpos
  · rw [if_pos (by omega), if_neg (by omega)]
  · rw [if_neg (by omega), if_pos (by omega)]
    cases side <;> rfl

theorem sign_negate {leg : StrategyLeg} (h : leg.ratio ≠ 0) : leg.negate.sign = -leg.sign := by
  have hratio : leg.negate.ratio = -leg.ratio := rfl
  unfold sign
  rcases lt_or_gt_of_ne h with hneg | hpos
  · rw [if_pos (by omega), if_neg (by omega), neg_neg]
  · rw [if_neg (by omega), if_pos (by omega)]

theorem quoted_negate {x : StrategyLeg × LegBBO} (hx : x.1.ratio ≠ 0) :
    Quoted side.opposite (x.1.negate, x.2) ↔ Quoted side x := by
  unfold Quoted
  rw [side_negate hx]
  simp [negate]

theorem spreads_negate {x : StrategyLeg × LegBBO} (hx : x.1.ratio ≠ 0) :
    spreads side.opposite (x.1.negate, x.2) = spreads side x := by
  unfold spreads
  rw [side_negate hx]
  simp [negate]

theorem cost_negate {xs : List (StrategyLeg × LegBBO)} (hxs : ∀ x ∈ xs, x.1.ratio ≠ 0) :
    cost side.opposite (xs.map fun x => (x.1.negate, x.2)) = -cost side xs := by
  rw [cost, cost, map_map, sum_neg, map_map]
  refine congrArg sum (map_congr_left fun x hx => ?_)
  simp only [Function.comp_apply, quote, absWeight]
  rw [side_negate (hxs x hx), sign_negate (hxs x hx)]
  simp [negate]

theorem computeImpliedOut_negate (side : Side) (hlegs : ∀ leg ∈ legs, leg.ratio ≠ 0) (tick : Int) :
    computeImpliedOut side.opposite (legs.map negate) bbos tick =
      (computeImpliedOut side legs bbos tick).map ImpliedLevel.negate := by
  have hxs : ∀ x ∈ legs.zip bbos, x.1.ratio ≠ 0 :=
    fun x hx => hlegs x.1 (of_mem_zip hx).1
  have hzip : (legs.map negate).zip bbos =
      (legs.zip bbos).map fun x => (x.1.negate, x.2) := zip_map_left
  have hquoted : (∀ x ∈ (legs.zip bbos).map fun x => (x.1.negate, x.2),
      Quoted side.opposite x) ↔ ∀ x ∈ legs.zip bbos, Quoted side x := by
    rw [forall_mem_map]
    exact forall₂_congr fun x hx => quoted_negate (hxs x hx)
  have hspreads : ((legs.zip bbos).map fun x => (x.1.negate, x.2)).map (spreads side.opposite) =
      (legs.zip bbos).map (spreads side) := by
    rw [map_map]
    exact map_congr_left fun x hx => spreads_negate (hxs x hx)
  simp only [computeImpliedOut, impliedOutLoop_eq, hzip, hquoted, hspreads, cost_negate hxs,
    length_map, map_eq_nil_iff, zero_add]
  split_ifs with hshape hall
  · rfl
  · dsimp only
    split_ifs with hqty
    · rfl
    · simp [ImpliedLevel.negate, normalizeTick_neg]
  · rfl

/-- An implied market does not cross while the books of the legs do not, and negating the ratios
swaps and negates its two sides. -/
theorem impliedOut_uncrossed (legs : List StrategyLeg) (bbos : List LegBBO) (tick : Int)
    (hlegs : ∀ leg ∈ legs, leg.ratio ≠ 0) :
    ((∀ bbo ∈ bbos, bbo.hasBid ∧ bbo.hasAsk ∧ bbo.bidPrice ≤ bbo.askPrice) →
      ∀ bid ask, computeImpliedOutBid legs bbos tick = some bid →
        computeImpliedOutAsk legs bbos tick = some ask → bid.price ≤ ask.price) ∧
    computeImpliedOutBid (legs.map StrategyLeg.negate) bbos tick =
      (computeImpliedOutAsk legs bbos tick).map ImpliedLevel.negate ∧
    computeImpliedOutAsk (legs.map StrategyLeg.negate) bbos tick =
      (computeImpliedOutBid legs bbos tick).map ImpliedLevel.negate := by
  refine ⟨?_, computeImpliedOut_negate .sell hlegs tick,
    computeImpliedOut_negate .buy hlegs tick⟩
  intro hbooks bid ask hbid hask
  obtain ⟨-, -, -, rfl⟩ := computeImpliedOut_eq_some_iff.mp hbid
  obtain ⟨-, -, -, rfl⟩ := computeImpliedOut_eq_some_iff.mp hask
  refine normalizeTick_mono tick (cost_le_cost fun x hx => ?_)
  exact (hbooks x.2 (of_mem_zip hx).2).2.2

theorem impliedOut_uncrossed_calendar :
    let bbos : List LegBBO := [⟨10, 3, 12, 4⟩, ⟨5, 6, 7, 2⟩]
    computeImpliedOutBid (calendar 2 (-1)) bbos 5 = some ⟨10, 2, .buy, .impliedOut⟩ ∧
      computeImpliedOutAsk (calendar 2 (-1)) bbos 5 = some ⟨15, 4, .sell, .impliedOut⟩ ∧
      (10 : Int) ≤ 15 ∧
      computeImpliedOutBid ((calendar 2 (-1)).map negate) bbos 5 =
        some ⟨-15, 4, .buy, .impliedOut⟩ := by
  intro bbos
  obtain ⟨hle, hneg, -⟩ := impliedOut_uncrossed (calendar 2 (-1)) bbos 5 (by decide)
  have hbid : computeImpliedOutBid (calendar 2 (-1)) bbos 5 =
      some ⟨10, 2, .buy, .impliedOut⟩ := by decide +kernel
  have hask : computeImpliedOutAsk (calendar 2 (-1)) bbos 5 =
      some ⟨15, 4, .sell, .impliedOut⟩ := by decide +kernel
  refine ⟨hbid, hask, hle (by decide) _ _ hbid hask, ?_⟩
  rw [hneg, hask]
  rfl

end uncrossed

section impliedIn

variable {side : Side} {s : SpreadStrategy} {bbos : List LegBBO} {target : Nat}
  {spreadPrice tick : Int} {level : ImpliedLevel} {leg : StrategyLeg}

theorem cost_eraseIdx (hpm : ∀ leg ∈ s.legs, 0 ≤ leg.priceMultiplier)
    (hlen : s.legs.length = bbos.length) :
    cost side ((s.legs.zip bbos).eraseIdx target) =
      s.computeSpreadPrice ((legPrices side s.legs bbos).set target 0) := by
  have hfst : (s.legs.zip bbos).map (fun x => x.1.absWeight) =
      s.legs.map weight := by
    conv_rhs => rw [← map_fst_zip hlen.le, map_map]
    refine map_congr_left fun x hx => ?_
    exact absWeight_of_nonneg (hpm x.1 (of_mem_zip hx).1)
  rw [computeSpreadPrice_eq s (by rw [length_set, length_legPrices hlen]),
    ← weighted_eraseIdx, cost_eq, ← eraseIdx_map, ← eraseIdx_map, hfst]
  rfl

theorem computeImpliedIn_price
    (h : computeImpliedIn s.legs bbos target side spreadPrice tick = some level) :
    s.legs.length = bbos.length ∧ ∃ leg, s.legs[target]? = some leg ∧
      leg.priceMultiplier ≠ 0 ∧
      level.price = normalizeTick ((spreadPrice -
        cost side.opposite ((s.legs.zip bbos).eraseIdx target)).tdiv leg.absWeight) tick := by
  unfold computeImpliedIn at h
  split_ifs at h with hshape
  push Not at hshape
  refine ⟨hshape.1, ?_⟩
  cases hleg : s.legs[target]? with
  | none => simp [hleg] at h
  | some leg =>
    simp only [hleg, impliedInLoop_eq side _ _ (Nat.zero_le target), impliedOutLoop_eq,
      Nat.sub_zero, zero_add] at h
    by_cases hratio : leg.ratio = 0
    · simp [hratio] at h
    by_cases hpm : |leg.priceMultiplier| = 0
    · simp [hratio, hpm] at h
    rw [if_neg hratio, if_neg hpm] at h
    by_cases hquoted : ∀ x ∈ (s.legs.zip bbos).eraseIdx target, Quoted side.opposite x
    · rw [if_pos hquoted] at h
      rw [Option.ite_none_left_eq_some] at h
      obtain ⟨-, h⟩ := h
      cases h
      exact ⟨leg, rfl, by simpa using hpm, rfl⟩
    · rw [if_neg hquoted] at h
      cases h

/-- The price implied for an outright leg, executed with the prices that it was computed from,
makes a spread that is off the limit of the spread order by the rounding of what the limit leaves
for the leg. The order is served within its limit exactly when that is not rounded against it. -/
theorem computeImpliedIn_limit (hpm : ∀ leg ∈ s.legs, 0 ≤ leg.priceMultiplier)
    (h : computeImpliedIn s.legs bbos target side spreadPrice tick = some level) :
    ∃ leg, s.legs[target]? = some leg ∧
      let prices := legPrices side.opposite s.legs bbos
      let left := spreadPrice - s.computeSpreadPrice (prices.set target 0)
      let unit := leg.priceMultiplier * tickUnit tick
      let executed := s.computeSpreadPrice (prices.set target level.price)
      executed = spreadPrice - (left - truncTo unit left) ∧
      (side = .buy → (executed ≤ spreadPrice ↔ 0 ≤ left ∨ unit ∣ left)) ∧
      (side = .sell → (spreadPrice ≤ executed ↔ left ≤ 0 ∨ unit ∣ left)) := by
  obtain ⟨hlen, leg, hleg, hne, hprice⟩ := computeImpliedIn_price h
  refine ⟨leg, hleg, ?_⟩
  intro prices left unit executed
  have hnonneg := hpm leg (mem_of_getElem? hleg)
  have hset (p : Int) : (prices.set target p).length = s.legs.length := by
    rw [length_set, length_legPrices hlen]
  have hweight : (s.legs.map weight)[target]? = some leg.weight := by
    rw [getElem?_map, hleg]
    rfl
  have htrunc : leg.weight * level.price = truncTo unit left := by
    rw [hprice, cost_eraseIdx hpm hlen, absWeight_of_nonneg hnonneg, normalizeTick_unit,
      mul_truncTo_tdiv]
    rcases leg.sign_eq with hs | hs
    · simp [unit, left, prices, weight, hs]
    · rw [← truncTo_neg_left]
      simp [unit, left, prices, weight, hs]
  have hexec : executed = spreadPrice - (left - truncTo unit left) := by
    calc executed = weighted (s.legs.map weight) (prices.set target level.price) :=
        computeSpreadPrice_eq s (hset _)
      _ = weighted (s.legs.map weight) (prices.set target 0) +
          leg.weight * level.price :=
        weighted_set hweight (by rw [length_legPrices hlen, length_map]) _
      _ = spreadPrice - left + truncTo unit left := by
        rw [htrunc, ← computeSpreadPrice_eq s (hset 0)]
        simp [left]
      _ = _ := by ring
  refine ⟨hexec, fun _ => ?_, fun _ => ?_⟩
  · rw [← truncTo_le_iff, hexec]
    omega
  · rw [← le_truncTo_iff, hexec]
    omega

/-- Buying the spread at 3 with the other leg at 12 leaves 9 for the leg that is sold; rounded to
its tick of 5 the leg is sold at 5, and the spread costs 7. -/
theorem computeImpliedIn_worse :
    let s := SpreadStrategy.build (calendar 1 1) 0 0
    let bbos : List LegBBO := [⟨10, 3, 12, 4⟩, ⟨5, 6, 7, 2⟩]
    computeImpliedIn s.legs bbos 1 .buy 3 5 = some ⟨5, 4, .sell, .impliedIn⟩ ∧
      s.computeSpreadPrice ((legPrices .sell s.legs bbos).set 1 5) = 7 := by
  decide +kernel

theorem computeImpliedIn_limit_calendar :
    let s := SpreadStrategy.build (calendar 1 1) 0 0
    let bbos : List LegBBO := [⟨10, 3, 12, 4⟩, ⟨5, 6, 7, 2⟩]
    computeImpliedIn s.legs bbos 0 .buy 4 5 = some ⟨5, 6, .buy, .impliedIn⟩ ∧
      s.computeSpreadPrice ((legPrices .sell s.legs bbos).set 0 5) ≤ 4 := by
  intro s bbos
  have hlevel : computeImpliedIn s.legs bbos 0 .buy 4 5 = some ⟨5, 6, .buy, .impliedIn⟩ := by
    decide +kernel
  obtain ⟨leg, -, -, hbuy, -⟩ := computeImpliedIn_limit (s := s) (by decide +kernel) hlevel
  exact ⟨hlevel, (hbuy rfl).mpr (.inl (by decide +kernel))⟩

end impliedIn

section grid

variable {legs : List StrategyLeg}

theorem computeTickSize_eq_gcdFrom (htick : ∀ leg ∈ legs, 0 < leg.tickSize)
    (hpm : ∃ leg ∈ legs, leg.priceMultiplier ≠ 0) :
    computeTickSize legs =
      gcdFrom 0 (legs.map fun leg => leg.tickSize * |leg.priceMultiplier|) := by
  obtain ⟨leg, hleg, hne⟩ := hpm
  rw [computeTickSize_eq (ne_nil_of_mem hleg)]
  refine if_pos (gcdFrom_pos le_rfl ⟨_, mem_map_of_mem hleg, ?_⟩)
  exact mul_ne_zero (htick leg hleg).ne' (abs_ne_zero.mpr hne)

theorem computeTickSize_dvd_iff (htick : ∀ leg ∈ legs, 0 < leg.tickSize)
    (hpm : ∃ leg ∈ legs, leg.priceMultiplier ≠ 0) (v : Int) :
    computeTickSize legs ∣ v ↔
      ∃ prices, Forall₂ (fun leg p => leg.tickSize ∣ p) legs prices ∧
        weighted (legs.map weight) prices = v := by
  rw [computeTickSize_eq_gcdFrom htick hpm, gcdFrom_dvd_iff, exists_weighted_iff]
  constructor
  · rintro ⟨k, xs, hlen, rfl⟩
    exact ⟨xs, by simpa using hlen, by rw [zero_mul, zero_add]⟩
  · rintro ⟨xs, hlen, rfl⟩
    exact ⟨0, xs, by simpa using hlen, by rw [zero_mul, zero_add]⟩

theorem computeTickSize_dvd (htick : ∀ leg ∈ legs, 0 < leg.tickSize)
    (hpm : ∃ leg ∈ legs, leg.priceMultiplier ≠ 0) {leg : StrategyLeg} (hleg : leg ∈ legs) :
    computeTickSize legs ∣ leg.tickSize * |leg.priceMultiplier| := by
  rw [computeTickSize_eq_gcdFrom htick hpm]
  exact (dvd_gcdFrom_iff.mp dvd_rfl).2 _ (mem_map_of_mem hleg)

theorem dvd_cost {d : Int} {side : Side} {xs : List (StrategyLeg × LegBBO)}
    (h : ∀ x ∈ xs, d ∣ x.1.tickSize * |x.1.priceMultiplier| ∧ x.1.tickSize ∣ quote side x) :
    d ∣ cost side xs := by
  refine dvd_sum ?_
  rw [forall_mem_map]
  intro x hx
  obtain ⟨hd, k, hk⟩ := h x hx
  have hterm : x.1.absWeight * quote side x =
      x.1.tickSize * |x.1.priceMultiplier| * (x.1.sign * k) := by
    rw [hk, absWeight]
    ring
  rw [hterm]
  exact hd.mul_right _

/-- Without an override the multiples of the tick are the prices that legs on their own ticks
make, and implied prices from such legs are not rounded. -/
theorem tickSize_grid (legs : List StrategyLeg) (tickSizeOverride lotSizeOverride : Int)
    (hoverride : tickSizeOverride ≤ 0) (htick : ∀ leg ∈ legs, 0 < leg.tickSize)
    (hpm : ∃ leg ∈ legs, leg.priceMultiplier ≠ 0) :
    let s := SpreadStrategy.build legs tickSizeOverride lotSizeOverride
    {v | ∃ prices, Forall₂ (fun leg p => leg.tickSize ∣ p) legs prices ∧
        s.computeSpreadPrice prices = v} = {v | s.tickSize ∣ v} ∧
      (∀ v, s.tickSize ∣ v → normalizeTick v s.tickSize = v) ∧
      ∀ side bbos, (∀ x ∈ legs.zip bbos,
          x.1.tickSize ∣ x.2.bidPrice ∧ x.1.tickSize ∣ x.2.askPrice) →
        computeImpliedOut side legs bbos s.tickSize = computeImpliedOut side legs bbos 0 := by
  intro s
  have htickSize : s.tickSize = computeTickSize legs := if_neg (by omega)
  have hnorm (v : Int) (hv : s.tickSize ∣ v) : normalizeTick v s.tickSize = v := by
    rw [normalizeTick_eq]
    split_ifs
    · rfl
    · exact truncTo_eq_iff.mpr hv
  refine ⟨?_, hnorm, ?_⟩
  · ext v
    rw [Set.mem_ofPred_eq, Set.mem_ofPred_eq, htickSize, computeTickSize_dvd_iff htick hpm]
    refine exists_congr fun prices => and_congr_right fun hall => ?_
    rw [computeSpreadPrice_eq s hall.length_eq.symm]
    rfl
  · intro side bbos hbbos
    have hcost : s.tickSize ∣ cost side (legs.zip bbos) := by
      refine dvd_cost fun x hx => ⟨?_, ?_⟩
      · rw [htickSize]
        exact computeTickSize_dvd htick hpm (of_mem_zip hx).1
      · obtain ⟨hbid, hask⟩ := hbbos x hx
        cases hside : x.1.side side <;> simpa [quote, LegBBO.price, hside]
    simp only [computeImpliedOut, impliedOutLoop_eq, zero_add]
    split_ifs
    · rfl
    · simp only [hnorm _ hcost]
      simp [normalizeTick]
    · rfl

theorem tickSize_grid_calendar :
    let legs : List StrategyLeg := [⟨1, 1, 2, 5, 1⟩, ⟨2, -1, -3, 10, 1⟩]
    (SpreadStrategy.build legs 0 0).tickSize = 10 ∧
      (∃ prices, Forall₂ (fun (leg : StrategyLeg) p => leg.tickSize ∣ p) legs prices ∧
        (SpreadStrategy.build legs 0 0).computeSpreadPrice prices = 70) := by
  intro legs
  have htick : (SpreadStrategy.build legs 0 0).tickSize = 10 := by decide +kernel
  obtain ⟨hgrid, -⟩ := tickSize_grid legs 0 0 le_rfl (by decide) (by decide)
  refine ⟨htick, ?_⟩
  have hmem : (70 : Int) ∈ {v | (SpreadStrategy.build legs 0 0).tickSize ∣ v} := by
    rw [Set.mem_ofPred_eq, htick]
    decide
  rwa [← hgrid] at hmem

end grid

section lots

variable {legs : List StrategyLeg}

theorem gcdLoop_eq {a b : Int} (ha : 0 ≤ a) (hb : 0 ≤ b) : gcdLoop a b = (Int.gcd a b : Int) := by
  induction a, b using gcdLoop.induct with
  | case1 a => simp [gcdLoop, abs_of_nonneg ha]
  | case2 a b hne ih =>
    have hmod : a.tmod b = a % b := Int.tmod_eq_emod_of_nonneg ha
    rw [gcdLoop, if_neg hne, ih hb (by rw [hmod]; exact Int.emod_nonneg a hne), hmod]
    rw [Int.gcd_comm, Int.gcd_emod]

theorem ite_neg_eq_abs (x : Int) : (if x < 0 then -x else x) = |x| := by
  split_ifs with hx
  · rw [abs_of_neg hx]
  · rw [abs_of_nonneg (not_lt.mp hx)]

theorem quantityGcd_eq (a b : Int) : quantityGcd a b = (Int.gcd a b : Int) := by
  rw [quantityGcd, ite_neg_eq_abs, ite_neg_eq_abs, gcdLoop_eq (abs_nonneg a) (abs_nonneg b)]
  simp [Int.gcd_eq_natAbs_gcd_natAbs, Int.natAbs_abs]

theorem quantityLcm_eq (a b : Int) : quantityLcm a b = (Int.lcm a b : Int) := by
  unfold quantityLcm
  by_cases hzero : a = 0 ∨ b = 0
  · rcases hzero with rfl | rfl <;> simp
  · have hdvd : Nat.gcd a.natAbs b.natAbs ∣ a.natAbs := Nat.gcd_dvd_left _ _
    rw [if_neg hzero]
    simp only [ite_neg_eq_abs, quantityGcd_eq, Int.gcd_eq_natAbs_gcd_natAbs, Int.natAbs_natCast,
      Int.abs_eq_natAbs, ← Int.ofNat_tdiv, ← Int.natCast_mul]
    rw [Int.lcm, Nat.lcm_eq_mul_div, Nat.div_mul_right_comm hdvd]

/-- The spread quantities that give whole lots of one leg are the multiples of this. -/
def StrategyLeg.lotFactor (leg : StrategyLeg) : Int :=
  leg.lotSize.tdiv (Int.gcd leg.lotSize |leg.ratio|)

theorem lotFactor_pos {leg : StrategyLeg} (hlot : 0 < leg.lotSize) : 0 < leg.lotFactor := by
  have hg : 0 < (Int.gcd leg.lotSize |leg.ratio| : Int) :=
    Int.natCast_pos.mpr (Int.gcd_pos_of_ne_zero_left _ hlot.ne')
  exact Int.tdiv_pos_of_pos_of_dvd hlot hg.le (Int.gcd_dvd_left _ _)

theorem minSpreadQtyLoop_eq (hlegs : ∀ leg ∈ legs, leg.ratio ≠ 0 ∧ 0 < leg.lotSize)
    (result : Int) :
    minSpreadQtyLoop legs result = lcmFrom result (legs.map lotFactor) := by
  induction legs generalizing result with
  | nil => rfl
  | cons leg legs ih =>
    obtain ⟨hleg, hrest⟩ := List.forall_mem_cons.mp hlegs
    rw [minSpreadQtyLoop, if_neg (by simp [hleg.1, hleg.2]), ih hrest, quantityLcm_eq,
      quantityGcd_eq]
    rfl

/-- Both computations of the smallest spread quantity agree, and its multiples are the spread
quantities for which every leg trades whole lots. -/
theorem minSpreadQty_exact (legs : List StrategyLeg) (tickSizeOverride lotSizeOverride : Int)
    (hne : legs ≠ []) (hoverride : lotSizeOverride ≤ 0)
    (hlegs : ∀ leg ∈ legs, leg.ratio ≠ 0 ∧ 0 < leg.lotSize) :
    let s := SpreadStrategy.build legs tickSizeOverride lotSizeOverride
    computeMinSpreadQty legs = s.lotSize ∧ 0 < s.lotSize ∧
      ∀ q, (∀ i leg, legs[i]? = some leg → leg.lotSize ∣ s.legQuantity i q) ↔ s.lotSize ∣ q := by
  intro s
  have hlot : s.lotSize = lcmFrom 1 (legs.map lotFactor) := by
    calc s.lotSize = computeMinTradeQty legs := if_neg (by omega)
      _ = _ := by
        rw [computeMinTradeQty, if_neg hne, lcmFrom, List.foldl_map]
        rfl
  refine ⟨?_, ?_, ?_⟩
  · rw [computeMinSpreadQty, if_neg hne, minSpreadQtyLoop_eq hlegs, hlot]
  · rw [hlot]
    refine lcmFrom_pos one_pos ?_
    rw [forall_mem_map]
    exact fun leg hleg => lotFactor_pos (hlegs leg hleg).2
  · intro q
    rw [hlot, lcmFrom_dvd_iff, forall_mem_map]
    have hleg {i : Nat} {leg : StrategyLeg} (hi : legs[i]? = some leg) :
        leg.lotSize ∣ s.legQuantity i q ↔ leg.lotFactor ∣ q := by
      have hqty : s.legQuantity i q = q * |leg.ratio| := by
        simp [SpreadStrategy.legQuantity, s, SpreadStrategy.build, hi]
      rw [hqty]
      exact dvd_mul_iff_div_gcd_dvd (hlegs leg (mem_of_getElem? hi)).2 q
    constructor
    · intro h
      refine ⟨one_dvd q, fun leg hmem => ?_⟩
      obtain ⟨i, hi⟩ := getElem?_of_mem hmem
      exact (hleg hi).mp (h i leg hi)
    · rintro ⟨-, h⟩ i leg hi
      exact (hleg hi).mpr (h leg (mem_of_getElem? hi))

theorem minSpreadQty_exact_butterfly :
    let legs : List StrategyLeg := [⟨1, 1, 1, 1, 4⟩, ⟨2, -2, 2, 1, 6⟩, ⟨3, 1, 1, 1, 4⟩]
    computeMinSpreadQty legs = 12 ∧ (SpreadStrategy.build legs 0 0).lotSize = 12 := by
  intro legs
  have hlot : (SpreadStrategy.build legs 0 0).lotSize = 12 := by decide +kernel
  obtain ⟨heq, -⟩ := minSpreadQty_exact legs 0 0 (by decide) le_rfl (by decide)
  exact ⟨heq.trans hlot, hlot⟩

/-- For no legs at all the two values differ, and neither is that of an empty product. -/
theorem minSpreadQty_empty :
    computeMinSpreadQty [] = 0 ∧ (SpreadStrategy.build [] 0 0).lotSize = 10000 := by
  decide

end lots

end ExchangeSim
