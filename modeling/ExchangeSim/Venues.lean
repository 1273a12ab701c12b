import ExchangeSim.Engine

/-!
The three classes derived from `MatchingEngine`: their own members as a state, their hooks as an
`Exchange`. Members no hook reads are left out. Divisions of the source truncate.
-/

namespace ExchangeSim

/-- The template arguments of a derived class. `MaxAccounts` is not among them. -/
structure VenueSize where
  maxOrders : Nat := 10000
  maxPriceLevels : Nat := 1000
  maxOrderIds : Nat := 100000
  deriving DecidableEq, Repr

def defaultMaxAccounts : Nat := 4096

/-- The phase check of the three venues: nothing while closed, and no immediate and no market
order in the phases named. -/
def allowedOutside (phases : List SessionState) (req : OrderRequest) (s : SessionState) : Bool :=
  if s = .closed then false
  else if s ∈ phases then
    !(decide (req.tif = .ioc) || decide (req.tif = .fok)) && !decide (req.type = .market)
  else true

/-- Bands of `pct` percent around a reference, off while either is not set. -/
def percentBands (pct reference : Int) : Int × Int :=
  if reference ≤ 0 ∨ pct ≤ 0 then (0, 0)
  else
    let band := (reference * pct).tdiv 100
    (reference - band, reference + band)

structure CmeState where
  bandPct : Int := 5
  deriving DecidableEq, Repr

def cmeExchange (algo : MatchPolicy) (size : VenueSize) : Exchange CmeState where
  maxOrders := size.maxOrders
  maxPriceLevels := size.maxPriceLevels
  maxOrderIds := size.maxOrderIds
  maxAccounts := defaultMaxAccounts
  algo := algo
  isSelfMatch _ aggressor resting := decide (aggressor.accountId = resting.accountId)
  getSmpAction _ := .cancelNewest
  getModifyPolicy _ := .cancelReplace
  isOrderAllowedInPhase _ := allowedOutside [.preOpen, .preClose, .volatilityAuction]
  calculateDynamicBands c _ reference := percentBands c.bandPct reference

structure IceState where
  iplWidth : Int := 0
  smpAction : SmpAction := .cancelNewest
  deriving DecidableEq, Repr

/-- Two orders of one account that is set. -/
def sameAccount (aggressor resting : Order) : Bool :=
  decide (aggressor.accountId ≠ 0) && decide (aggressor.accountId = resting.accountId)

def iceExchange (algo : MatchPolicy) (size : VenueSize) : Exchange IceState where
  maxOrders := size.maxOrders
  maxPriceLevels := size.maxPriceLevels
  maxOrderIds := size.maxOrderIds
  maxAccounts := defaultMaxAccounts
  algo := algo
  isSelfMatch _ := sameAccount
  getSmpAction i := i.smpAction
  getModifyPolicy _ := .cancelReplace
  isOrderAllowedInPhase _ := allowedOutside [.preOpen, .preClose]
  calculateDynamicBands i _ reference :=
    if reference ≤ 0 ∨ i.iplWidth ≤ 0 then (0, 0)
    else (reference - i.iplWidth, reference + i.iplWidth)

structure KrxState where
  bandPct : Int := 5
  viDynamicPct : Int := 3
  staticBandPct : Int := 10
  priorClosePrice : Int := 0
  sidecarActive : Bool := false
  currentLimitTier : Nat := 0
  referencePrice : Int := 0
  deriving DecidableEq, Repr

def kProgrammeAccountThreshold : Nat := 10000

def kMaxLimitTier : Nat := 3

/-- The percentages of the tiers, from tier 1. -/
def kLimitTierPct : Nat → Int
  | 1 => 8
  | 2 => 15
  | _ => 20

/-- The price is more than `pct` percent away from a reference that is set. -/
def deviates (pct reference tradePrice : Int) : Bool :=
  decide (reference > 0 ∧ pct > 0) &&
    decide (((tradePrice - reference).natAbs : Int) > (reference * pct).tdiv 100)

def KrxState.applyLimitTier (k : KrxState) (tier : Nat) (c : EngineConfig) :
    KrxState × EngineConfig :=
  if tier < 1 ∨ tier > kMaxLimitTier then (k, c)
  else if k.referencePrice ≤ 0 then (k, c)
  else
    let band := (k.referencePrice * kLimitTierPct tier).tdiv 100
    ({ k with currentLimitTier := tier },
      { c with
        dailyLimitHigh := k.referencePrice + band
        dailyLimitLow := k.referencePrice - band })

/-- The first reference price that is set brings the limits of tier 1. -/
def KrxState.setReferencePrice (k : KrxState) (price : Int) (c : EngineConfig) :
    KrxState × EngineConfig :=
  let k := { k with referencePrice := price }
  if k.referencePrice > 0 ∧ k.currentLimitTier = 0 then k.applyLimitTier 1 c
  else (k, c)

/-- The limits widen to the next tier and trading goes on, until the last tier. -/
def KrxState.onDailyLimitHit (k : KrxState) (c : EngineConfig) : LimitResponse KrxState :=
  if k.referencePrice ≤ 0 then ⟨k, c, none⟩
  else if k.currentLimitTier ≥ kMaxLimitTier then ⟨k, c, none⟩
  else
    let r := k.applyLimitTier (k.currentLimitTier + 1) c
    ⟨r.1, r.2, some .continuous⟩

def krxExchange (algo : MatchPolicy) (size : VenueSize) : Exchange KrxState where
  maxOrders := size.maxOrders
  maxPriceLevels := size.maxPriceLevels
  maxOrderIds := size.maxOrderIds
  maxAccounts := defaultMaxAccounts
  algo := algo
  isSelfMatch _ := sameAccount
  getSmpAction _ := .cancelNewest
  getModifyPolicy _ := .cancelReplace
  isOrderAllowedInPhase _ := allowedOutside [.preOpen, .preClose, .volatilityAuction]
  onValidateOrder k req := !(k.sidecarActive && decide (req.accountId ≥ kProgrammeAccountThreshold))
  calculateDynamicBands k _ reference := percentBands k.bandPct reference
  shouldTriggerVolatilityAuction k tradePrice reference :=
    deviates k.viDynamicPct reference tradePrice ||
      deviates k.staticBandPct k.priorClosePrice tradePrice
  onDailyLimitHit k c _ _ _ := k.onDailyLimitHit c

def sampleVenue : VenueSize := ⟨8, 8, 32⟩

end ExchangeSim
