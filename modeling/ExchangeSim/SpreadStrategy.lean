import ExchangeSim.Types
import ExchangeSim.Multiples

/-!
Spread strategies: `spread_strategy.h` and `spread_strategy_registry.h`. The classification of a
strategy is not used by any function here and is left out. `std::gcd` and `std::lcm` are those of
the absolute values.
-/

namespace ExchangeSim

open Multiples

structure StrategyLeg where
  instrumentId : Nat := 0
  ratio : Int := 0
  priceMultiplier : Int := 1
  tickSize : Int := 0
  lotSize : Int := 0
  deriving DecidableEq, Repr

/-- The sign of the ratio as the source takes it: a ratio that is not positive counts as sold. -/
def StrategyLeg.sign (leg : StrategyLeg) : Int :=
  if leg.ratio > 0 then 1 else -1

def StrategyLeg.side (leg : StrategyLeg) (side : Side) : Side :=
  if leg.ratio > 0 then side else side.opposite

structure SpreadStrategy where
  legs : List StrategyLeg
  tickSize : Int
  lotSize : Int
  deriving DecidableEq, Repr

def computeTickSize (legs : List StrategyLeg) : Int :=
  if legs = [] then 0
  else
    let g := legs.foldl
      (fun g leg => (Int.gcd g (leg.tickSize * |leg.priceMultiplier|) : Int)) 0
    if g > 0 then g else 1

def computeMinTradeQty (legs : List StrategyLeg) : Int :=
  if legs = [] then priceScale
  else legs.foldl (fun result leg =>
    let divisor : Int := Int.gcd leg.lotSize |leg.ratio|
    let factor := leg.lotSize.tdiv divisor
    (Int.lcm result factor : Int)) 1

/-- The constructor; an override that is not positive asks for the computed value. -/
def SpreadStrategy.build (legs : List StrategyLeg) (tickSizeOverride lotSizeOverride : Int) :
    SpreadStrategy where
  legs := legs
  tickSize := if tickSizeOverride > 0 then tickSizeOverride else computeTickSize legs
  lotSize := if lotSizeOverride > 0 then lotSizeOverride else computeMinTradeQty legs

def SpreadStrategy.computeSpreadPrice (s : SpreadStrategy) (legPrices : List Int) : Int :=
  if legPrices.length ≠ s.legs.length then 0
  else (s.legs.zip legPrices).foldl
    (fun spreadPrice x => spreadPrice + x.2 * x.1.priceMultiplier * x.1.sign) 0

def SpreadStrategy.legQuantity (s : SpreadStrategy) (legIndex : Nat) (spreadQty : Int) : Int :=
  match s.legs[legIndex]? with
  | none => 0
  | some leg => spreadQty * |leg.ratio|

def calendar (pm₀ pm₁ : Int) : List StrategyLeg :=
  [⟨1, 1, pm₀, 1, 1⟩, ⟨2, -1, pm₁, 1, 1⟩]

def StrategyLeg.weight (leg : StrategyLeg) : Int :=
  leg.sign * leg.priceMultiplier

theorem StrategyLeg.sign_eq (leg : StrategyLeg) : leg.sign = 1 ∨ leg.sign = -1 := by
  unfold StrategyLeg.sign
  split <;> simp

theorem StrategyLeg.exists_weight (leg : StrategyLeg) :
    ∃ u : Int, u * u = 1 ∧ leg.weight = u * |leg.priceMultiplier| := by
  rcases leg.sign_eq with hs | hs <;> rcases abs_choice leg.priceMultiplier with hp | hp
  · exact ⟨1, rfl, by simp [StrategyLeg.weight, hs, hp]⟩
  · exact ⟨-1, rfl, by simp [StrategyLeg.weight, hs, hp]⟩
  · exact ⟨-1, rfl, by simp [StrategyLeg.weight, hs, hp]⟩
  · exact ⟨1, rfl, by simp [StrategyLeg.weight, hs, hp]⟩

theorem foldl_weighted (legs : List StrategyLeg) (prices : List Int) (acc : Int) :
    (legs.zip prices).foldl (fun p x => p + x.2 * x.1.priceMultiplier * x.1.sign) acc =
      acc + weighted (legs.map StrategyLeg.weight) prices := by
  induction legs generalizing prices acc with
  | nil => simp
  | cons leg legs ih =>
    cases prices with
    | nil => simp [weighted]
    | cons p prices =>
      rw [List.zip_cons_cons, List.foldl_cons, ih, List.map_cons, weighted_cons]
      simp only [StrategyLeg.weight]
      ring

theorem computeSpreadPrice_eq (s : SpreadStrategy) {prices : List Int}
    (hlen : prices.length = s.legs.length) :
    s.computeSpreadPrice prices = weighted (s.legs.map StrategyLeg.weight) prices := by
  rw [SpreadStrategy.computeSpreadPrice, if_neg (by simp [hlen]), foldl_weighted, zero_add]

/-- The registry: the strategies by the id of the spread, and the ids on their own. -/
structure SpreadStrategyRegistry where
  validator : Option (Nat → Bool) := none
  strategies : List (Nat × SpreadStrategy) := []
  spreadIds : List Nat := []

def SpreadStrategyRegistry.lookup (r : SpreadStrategyRegistry) (id : Nat) :
    Option SpreadStrategy :=
  (r.strategies.find? (·.1 = id)).map Prod.snd

def SpreadStrategyRegistry.isSpread (r : SpreadStrategyRegistry) (id : Nat) : Bool :=
  r.spreadIds.contains id

/-- The checks on the leg at position `i`: the message of the first that fails. -/
def SpreadStrategyRegistry.checkLeg (r : SpreadStrategyRegistry) (spreadId i : Nat)
    (leg : StrategyLeg) : Except String Unit :=
  if leg.ratio = 0 then .error ("Leg " ++ toString i ++ " has zero ratio")
  else if leg.tickSize ≤ 0 then .error ("Leg " ++ toString i ++ " has invalid tick_size")
  else if leg.lotSize ≤ 0 then .error ("Leg " ++ toString i ++ " has invalid lot_size")
  else if leg.instrumentId = spreadId then
    .error "Leg instrument ID cannot equal spread instrument ID"
  else if r.validator.any (fun known => !known leg.instrumentId) then
    .error ("Unknown leg instrument ID: " ++ toString leg.instrumentId)
  else .ok ()

def SpreadStrategyRegistry.checkLegs (r : SpreadStrategyRegistry) (spreadId : Nat) :
    Nat → List StrategyLeg → Except String Unit
  | _, [] => .ok ()
  | i, leg :: legs =>
    match r.checkLeg spreadId i leg with
    | .error msg => .error msg
    | .ok () => r.checkLegs spreadId (i + 1) legs

/-- The error message of the source, or the registry that holds the strategy as well. -/
def SpreadStrategyRegistry.registerStrategy (r : SpreadStrategyRegistry) (spreadId : Nat)
    (strategy : SpreadStrategy) : Except String SpreadStrategyRegistry :=
  if r.strategies.any (·.1 = spreadId) then
    .error ("Duplicate spread instrument ID: " ++ toString spreadId)
  else if strategy.legs.length < 2 then .error "Strategy must have at least 2 legs"
  else if strategy.legs.head?.any (·.ratio ≤ 0) then
    .error "First leg ratio must be positive (convention)"
  else
    match r.checkLegs spreadId 0 strategy.legs with
    | .error msg => .error msg
    | .ok () => .ok { r with
        spreadIds := r.spreadIds ++ [spreadId]
        strategies := r.strategies ++ [(spreadId, strategy)] }

section registered

variable {r r' : SpreadStrategyRegistry} {spreadId i : Nat} {leg : StrategyLeg}
  {legs : List StrategyLeg} {strategy : SpreadStrategy}

theorem checkLeg_ok (h : r.checkLeg spreadId i leg = .ok ()) :
    leg.ratio ≠ 0 ∧ 0 < leg.tickSize ∧ 0 < leg.lotSize ∧ leg.instrumentId ≠ spreadId := by
  unfold SpreadStrategyRegistry.checkLeg at h
  split_ifs at h with hratio htick hlot hid
  exact ⟨hratio, by omega, by omega, hid⟩

theorem checkLegs_ok (h : r.checkLegs spreadId i legs = .ok ()) :
    ∀ leg ∈ legs, leg.ratio ≠ 0 ∧ 0 < leg.tickSize ∧ 0 < leg.lotSize ∧
      leg.instrumentId ≠ spreadId := by
  induction legs generalizing i with
  | nil => simp
  | cons leg legs ih =>
    rw [SpreadStrategyRegistry.checkLegs] at h
    cases hleg : r.checkLeg spreadId i leg with
    | error msg => simp [hleg] at h
    | ok _ =>
      simp only [hleg] at h
      exact List.forall_mem_cons.mpr ⟨checkLeg_ok hleg, ih h⟩

theorem registerStrategy_ok (h : r.registerStrategy spreadId strategy = .ok r') :
    2 ≤ strategy.legs.length ∧ ∀ leg ∈ strategy.legs, leg.ratio ≠ 0 ∧ 0 < leg.tickSize ∧
      0 < leg.lotSize ∧ leg.instrumentId ≠ spreadId := by
  unfold SpreadStrategyRegistry.registerStrategy at h
  split_ifs at h with hdup hlen hfirst
  cases hlegs : r.checkLegs spreadId 0 strategy.legs with
  | error msg => simp [hlegs] at h
  | ok _ => exact ⟨by omega, checkLegs_ok hlegs⟩

end registered

section tick

variable {legs : List StrategyLeg}

theorem computeTickSize_eq (hlegs : legs ≠ []) :
    computeTickSize legs =
      let g := gcdFrom 0 (legs.map fun leg => leg.tickSize * |leg.priceMultiplier|)
      if g > 0 then g else 1 := by
  rw [computeTickSize, if_neg hlegs]
  simp only [gcdFrom, List.foldl_map]

/-- What the legs can make of prices on their own ticks is what the ticks weighted by the
multipliers make of whole numbers. -/
theorem exists_weighted_iff (legs : List StrategyLeg) (v : Int) :
    (∃ prices : List Int, List.Forall₂ (fun leg p => leg.tickSize ∣ p) legs prices ∧
      weighted (legs.map StrategyLeg.weight) prices = v) ↔
    ∃ xs : List Int, xs.length = legs.length ∧
      weighted (legs.map fun leg => leg.tickSize * |leg.priceMultiplier|) xs = v := by
  induction legs generalizing v with
  | nil => simp
  | cons leg legs ih =>
    obtain ⟨u, hu, hweight⟩ := leg.exists_weight
    have hterm (k : Int) : leg.weight * (leg.tickSize * k) =
        leg.tickSize * |leg.priceMultiplier| * (u * k) := by
      rw [hweight]
      ring
    constructor
    · rintro ⟨prices, hall, rfl⟩
      obtain ⟨p, prices, ⟨k, rfl⟩, hrest, rfl⟩ := List.forall₂_cons_left_iff.mp hall
      obtain ⟨xs, hlen, hxs⟩ := (ih _).mp ⟨prices, hrest, rfl⟩
      refine ⟨u * k :: xs, by simp [hlen], ?_⟩
      simp only [List.map_cons, weighted_cons, hterm, hxs]
    · rintro ⟨xs, hlen, rfl⟩
      obtain ⟨x, xs, rfl⟩ := List.exists_cons_of_length_eq_add_one hlen
      obtain ⟨prices, hall, hprices⟩ := (ih _).mpr ⟨xs, by simpa using hlen, rfl⟩
      refine ⟨leg.tickSize * (u * x) :: prices, .cons (Dvd.intro _ rfl) hall, ?_⟩
      have hback : u * (u * x) = x := by rw [← mul_assoc, hu, one_mul]
      simp only [List.map_cons, weighted_cons, hterm, hback, hprices]

end tick

end ExchangeSim
