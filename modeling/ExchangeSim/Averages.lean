import ExchangeSim.Simulator

/-!
The average prices of a session. Both accumulators scale down before they add up, so that the
averages can fall below the lowest price.
-/

namespace ExchangeSim

open List

def OhlcvStats.vwap (o : OhlcvStats) : Int :=
  if o.volume = 0 then 0 else (o.turnover * priceScale).tdiv o.volume

structure IceVwap where
  volume : Int := 0
  priceVolume : Int := 0
  deriving DecidableEq, Repr

def IceVwap.recordTradeForVwap (price qty : Int) (v : IceVwap) : IceVwap :=
  let contracts := qty.tdiv priceScale
  { priceVolume := v.priceVolume + price * contracts
    volume := v.volume + contracts }

def IceVwap.calculateSettlementPrice (v : IceVwap) : Int :=
  if v.volume = 0 then 0 else v.priceVolume.tdiv v.volume

def ohlcvOf (trades : List (Int × Int)) : OhlcvStats :=
  trades.foldl (fun o t => o.onTrade t.1 t.2) {}

def iceVwapOf (trades : List (Int × Int)) : IceVwap :=
  trades.foldl (fun v t => v.recordTradeForVwap t.1 t.2) {}

section sums

variable {trades : List (Int × Int)} {lo hi : Int}

theorem ohlcvOf_sums (trades : List (Int × Int)) :
    (ohlcvOf trades).volume = (trades.map (·.2)).sum ∧
      (ohlcvOf trades).turnover = (trades.map fun t => (t.1 * t.2).tdiv priceScale).sum := by
  induction trades using reverseRecOn with
  | nil => exact ⟨rfl, rfl⟩
  | append_singleton trades t ih =>
    obtain ⟨hvolume, hturnover⟩ := ih
    have hstep : ohlcvOf (trades ++ [t]) = (ohlcvOf trades).onTrade t.1 t.2 := by simp [ohlcvOf]
    rw [hstep]
    simp only [map_append, sum_append, map_cons, map_nil, sum_cons,
      sum_nil, add_zero, ← hvolume, ← hturnover]
    unfold OhlcvStats.onTrade
    split_ifs <;> exact ⟨rfl, rfl⟩

theorem iceVwapOf_sums (trades : List (Int × Int)) :
    (iceVwapOf trades).volume = (trades.map fun t => t.2.tdiv priceScale).sum ∧
      (iceVwapOf trades).priceVolume = (trades.map fun t => t.1 * t.2.tdiv priceScale).sum := by
  induction trades using reverseRecOn with
  | nil => exact ⟨rfl, rfl⟩
  | append_singleton trades t ih =>
    obtain ⟨hvolume, hprice⟩ := ih
    have hstep : iceVwapOf (trades ++ [t]) = (iceVwapOf trades).recordTradeForVwap t.1 t.2 := by
      simp [iceVwapOf]
    rw [hstep]
    simp only [map_append, sum_append, map_cons, map_nil, sum_cons,
      sum_nil, add_zero, ← hvolume, ← hprice]
    exact ⟨rfl, rfl⟩

theorem weighted_bounds (weight : Int × Int → Int) (hweight : ∀ t ∈ trades, 0 ≤ weight t)
    (hlo : ∀ t ∈ trades, lo ≤ t.1) (hhi : ∀ t ∈ trades, t.1 ≤ hi) :
    lo * (trades.map weight).sum ≤ (trades.map fun t => t.1 * weight t).sum ∧
      (trades.map fun t => t.1 * weight t).sum ≤ hi * (trades.map weight).sum := by
  rw [← sum_map_mul_left, ← sum_map_mul_left]
  exact ⟨sum_le_sum fun t ht => mul_le_mul_of_nonneg_right (hlo t ht) (hweight t ht),
    sum_le_sum fun t ht => mul_le_mul_of_nonneg_right (hhi t ht) (hweight t ht)⟩

theorem scaled_bounds {x : Int} (hx : 0 ≤ x) :
    x.tdiv priceScale * priceScale ≤ x ∧
      x + 1 ≤ x.tdiv priceScale * priceScale + priceScale := by
  rw [Int.tdiv_eq_ediv_of_nonneg hx]
  unfold priceScale
  omega

theorem scaled_eq {x : Int} (hx : 0 ≤ x) (hdvd : priceScale ∣ x) :
    x.tdiv priceScale * priceScale = x := by
  rw [Int.tdiv_eq_ediv_of_nonneg hx]
  exact Int.ediv_mul_cancel hdvd

theorem turnover_bounds (hpos : ∀ t ∈ trades, 0 < t.1 ∧ 0 < t.2) :
    (ohlcvOf trades).turnover * priceScale ≤ (trades.map fun t => t.1 * t.2).sum ∧
      (trades.map fun t => t.1 * t.2).sum + trades.length ≤
        (ohlcvOf trades).turnover * priceScale + priceScale * trades.length ∧
      ((∀ t ∈ trades, priceScale ∣ t.1 * t.2) →
        (ohlcvOf trades).turnover * priceScale = (trades.map fun t => t.1 * t.2).sum) := by
  rw [(ohlcvOf_sums trades).2]
  induction trades with
  | nil => simp
  | cons t trades ih =>
    obtain ⟨hlow, hhigh, hexact⟩ := ih fun t ht => hpos t (by simp [ht])
    have hx : 0 ≤ t.1 * t.2 := (mul_pos (hpos t (by simp)).1 (hpos t (by simp)).2).le
    have hone := scaled_bounds hx
    simp only [map_cons, sum_cons, List.length_cons, Nat.cast_add, Nat.cast_one, add_mul,
      mul_add, mul_one]
    refine ⟨by omega, by omega, fun hdvd => ?_⟩
    rw [scaled_eq hx (hdvd t (by simp)), hexact fun t ht => hdvd t (by simp [ht])]

theorem tdiv_bounds {x y : Int} (hx : 0 ≤ x) (hy : 0 < y) :
    x.tdiv y * y ≤ x ∧ x < (x.tdiv y + 1) * y := by
  rw [Int.tdiv_eq_ediv_of_nonneg hx, add_mul, one_mul]
  have hmod := Int.emod_nonneg x hy.ne'
  have hlt := Int.emod_lt_of_pos x hy
  have hdiv := Int.ediv_mul_add_emod x y
  omega

theorem volume_pos (hne : trades ≠ []) (hpos : ∀ t ∈ trades, 0 < t.1 ∧ 0 < t.2) :
    0 < (ohlcvOf trades).volume := by
  rw [(ohlcvOf_sums trades).1]
  refine sum_pos _ (fun x hx => ?_) (by simpa using hne)
  obtain ⟨t, ht, rfl⟩ := mem_map.mp hx
  exact (hpos t ht).2

theorem vwap_bounds (hne : trades ≠ []) (hpos : ∀ t ∈ trades, 0 < t.1 ∧ 0 < t.2)
    (hlo : ∀ t ∈ trades, lo ≤ t.1) (hhi : ∀ t ∈ trades, t.1 ≤ hi) :
    (ohlcvOf trades).vwap ≤ hi ∧
      lo * (ohlcvOf trades).volume <
        ((ohlcvOf trades).vwap + 1) * (ohlcvOf trades).volume + priceScale * trades.length ∧
      ((∀ t ∈ trades, priceScale ∣ t.1 * t.2) → lo ≤ (ohlcvOf trades).vwap) := by
  have hvolume := volume_pos hne hpos
  obtain ⟨hlow, hhigh, hexact⟩ := turnover_bounds hpos
  obtain ⟨hsumlo, hsumhi⟩ := weighted_bounds (fun t => t.2)
    (fun t ht => (hpos t ht).2.le) hlo hhi
  rw [← (ohlcvOf_sums trades).1] at hsumlo hsumhi
  have hturnover : 0 ≤ (ohlcvOf trades).turnover * priceScale := by
    rw [(ohlcvOf_sums trades).2]
    refine mul_nonneg (sum_nonneg fun x hx => ?_) (by decide)
    obtain ⟨t, ht, rfl⟩ := mem_map.mp hx
    exact Int.tdiv_nonneg (mul_pos (hpos t ht).1 (hpos t ht).2).le (by decide)
  have hvwap : (ohlcvOf trades).vwap =
      ((ohlcvOf trades).turnover * priceScale).tdiv (ohlcvOf trades).volume := if_neg hvolume.ne'
  obtain ⟨hfloor, hceil⟩ := tdiv_bounds hturnover hvolume
  rw [← hvwap] at hfloor hceil
  refine ⟨?_, by omega, fun hdvd => ?_⟩
  · exact le_of_mul_le_mul_right (hfloor.trans (hlow.trans hsumhi)) hvolume
  · rw [hexact hdvd] at hceil
    have hlt := lt_of_mul_lt_mul_right (hsumlo.trans_lt hceil) hvolume.le
    omega

theorem settlementPrice_bounds (hpos : ∀ t ∈ trades, 0 < t.1 ∧ 0 < t.2)
    (hlo : ∀ t ∈ trades, lo ≤ t.1) (hhi : ∀ t ∈ trades, t.1 ≤ hi) :
    ((∀ t ∈ trades, t.2 < priceScale) → (iceVwapOf trades).calculateSettlementPrice = 0) ∧
      ((∃ t ∈ trades, priceScale ≤ t.2) →
        lo ≤ (iceVwapOf trades).calculateSettlementPrice ∧
          (iceVwapOf trades).calculateSettlementPrice ≤ hi) := by
  obtain ⟨hvolume, hprice⟩ := iceVwapOf_sums trades
  have hcontracts : ∀ t ∈ trades, 0 ≤ t.2.tdiv priceScale := fun t ht =>
    Int.tdiv_nonneg (hpos t ht).2.le (by decide)
  constructor
  · intro hsmall
    have hzero : (iceVwapOf trades).volume = 0 := by
      rw [hvolume]
      refine sum_eq_zero fun x hx => ?_
      obtain ⟨t, ht, rfl⟩ := mem_map.mp hx
      exact Int.tdiv_eq_zero_of_lt (hpos t ht).2.le (hsmall t ht)
    exact if_pos hzero
  · rintro ⟨t, ht, hwhole⟩
    have hone : 1 ≤ t.2.tdiv priceScale := by
      rw [Int.tdiv_eq_ediv_of_nonneg (hpos t ht).2.le]
      unfold priceScale at hwhole ⊢
      omega
    have hmem : t.2.tdiv priceScale ≤ (trades.map fun t => t.2.tdiv priceScale).sum :=
      single_le_sum (fun x hx => by
        obtain ⟨t, ht, rfl⟩ := mem_map.mp hx
        exact hcontracts t ht) _ (mem_map_of_mem ht)
    have hpositive : 0 < (iceVwapOf trades).volume := by omega
    obtain ⟨hsumlo, hsumhi⟩ := weighted_bounds (fun t => t.2.tdiv priceScale) hcontracts hlo hhi
    rw [← hvolume, ← hprice] at hsumlo hsumhi
    have hnonneg : 0 ≤ (iceVwapOf trades).priceVolume := by
      rw [hprice]
      refine sum_nonneg fun x hx => ?_
      obtain ⟨t, ht, rfl⟩ := mem_map.mp hx
      exact mul_nonneg (hpos t ht).1.le (hcontracts t ht)
    have hsettle : (iceVwapOf trades).calculateSettlementPrice =
        (iceVwapOf trades).priceVolume.tdiv (iceVwapOf trades).volume := if_neg hpositive.ne'
    obtain ⟨hfloor, hceil⟩ := tdiv_bounds hnonneg hpositive
    rw [hsettle]
    have hlt := lt_of_mul_lt_mul_right (hsumlo.trans_lt hceil) hpositive.le
    exact ⟨by omega, le_of_mul_le_mul_right (hfloor.trans hsumhi) hpositive⟩

end sums

/-- Where the averages of a session lie: the volume-weighted average is never above the prices, and
below them by no more than the scaling of each trade loses; the settlement price is between them as
soon as a whole contract has traded. -/
theorem averages_bounded {trades : List (Int × Int)} {lo hi : Int} (hne : trades ≠ [])
    (hpos : ∀ t ∈ trades, 0 < t.1 ∧ 0 < t.2) (hlo : ∀ t ∈ trades, lo ≤ t.1)
    (hhi : ∀ t ∈ trades, t.1 ≤ hi) :
    let stats := ohlcvOf trades
    let settlement := (iceVwapOf trades).calculateSettlementPrice
    (stats.vwap ≤ hi ∧
      lo * stats.volume < (stats.vwap + 1) * stats.volume + priceScale * trades.length ∧
      ((∀ t ∈ trades, priceScale ∣ t.1 * t.2) → lo ≤ stats.vwap)) ∧
    ((∀ t ∈ trades, t.2 < priceScale) → settlement = 0) ∧
    ((∃ t ∈ trades, priceScale ≤ t.2) → lo ≤ settlement ∧ settlement ≤ hi) :=
  ⟨vwap_bounds hne hpos hlo hhi, settlementPrice_bounds hpos hlo hhi⟩

theorem averages_bounded_contracts :
    let trades : List (Int × Int) := [(1000000, 40000), (2000000, 10000)]
    let settlement := (iceVwapOf trades).calculateSettlementPrice
    (1000000 ≤ (ohlcvOf trades).vwap ∧ (ohlcvOf trades).vwap ≤ 2000000 ∧
      (ohlcvOf trades).vwap = 1200000) ∧
    1000000 ≤ settlement ∧ settlement ≤ 2000000 ∧ settlement = 1200000 := by
  intro trades settlement
  have hlo : ∀ t ∈ trades, 1000000 ≤ t.1 := by decide
  have hhi : ∀ t ∈ trades, t.1 ≤ 2000000 := by decide
  have hall := averages_bounded (by decide) (by decide) hlo hhi
  obtain ⟨hlow, hhigh⟩ := hall.2.2 (by decide)
  exact ⟨⟨hall.1.2.2 (by decide), hall.1.1, by decide⟩, hlow, hhigh, by decide⟩

/-- A trade of one unit at 5 has an average of 0, and so has its settlement price. -/
theorem averages_below_low :
    (ohlcvOf [(5, 1)]).low = 5 ∧ (ohlcvOf [(5, 1)]).vwap = 0 ∧
      (iceVwapOf [(5, 1)]).calculateSettlementPrice = 0 := by
  decide

end ExchangeSim
