import Mathlib.Tactic

/-!
Prices, quantities and timestamps are `int64_t` in the source; signed overflow is undefined
there, so each is the integer it stands for. Order ids, trade ids and accounts are naturals.
Ids of live orders are distinct, and the model uses the id of an order for the pointer to it.
-/

namespace ExchangeSim

/-- One unit of price or quantity, in the fixed point of the source. -/
def priceScale : Int := 10000

inductive Side
  | buy
  | sell
  deriving DecidableEq, Repr

def Side.opposite : Side → Side
  | .buy => .sell
  | .sell => .buy

inductive OrderType
  | limit
  | market
  | stop
  | stopLimit
  deriving DecidableEq, Repr

def OrderType.priced (t : OrderType) : Bool :=
  decide (t = .limit) || decide (t = .stopLimit)

def OrderType.isStop (t : OrderType) : Bool :=
  decide (t = .stop) || decide (t = .stopLimit)

inductive TimeInForce
  | day
  | gtc
  | ioc
  | fok
  | gtd
  deriving DecidableEq, Repr

inductive SmpAction
  | cancelNewest
  | cancelOldest
  | cancelBoth
  | decrement
  | none
  deriving DecidableEq, Repr

inductive ModifyPolicy
  | cancelReplace
  | amendDown
  | rejectModify
  deriving DecidableEq, Repr

inductive SessionState
  | closed
  | preOpen
  | openingAuction
  | continuous
  | preClose
  | closingAuction
  | halt
  | volatilityAuction
  | lockLimit
  deriving DecidableEq, Repr

inductive RejectReason
  | poolExhausted
  | invalidPrice
  | invalidQuantity
  | invalidTif
  | invalidSide
  | unknownOrder
  | priceBandViolation
  | levelPoolExhausted
  | maxOrderSizeExceeded
  | rateThrottled
  | lockLimitUp
  | lockLimitDown
  | positionLimitExceeded
  | exchangeSpecific
  deriving DecidableEq, Repr

inductive CancelReason
  | userRequested
  | iocRemainder
  | fokFailed
  | expired
  | selfMatchPrevention
  | levelPoolExhausted
  | massCancelled
  deriving DecidableEq, Repr

inductive BustReason
  | erroneousTrade
  | systemError
  | regulatory
  | exchangeSpecific
  deriving DecidableEq, Repr

/-- An order without its list hooks: the position in a level is the position in the
level's list, and `order->level` is the level whose list holds the order. -/
structure Order where
  id : Nat
  clientOrderId : Nat
  accountId : Nat
  price : Int
  quantity : Int
  filledQuantity : Int
  remainingQuantity : Int
  side : Side
  type : OrderType
  tif : TimeInForce
  timestamp : Int
  gtdExpiry : Int
  displayQty : Int
  totalQty : Int
  isMarketMaker : Bool
  isTopOrder : Bool
  deriving DecidableEq, Repr

structure PriceLevel where
  price : Int
  totalQuantity : Int
  orderCount : Nat
  orders : List Order
  deriving DecidableEq, Repr

structure FillResult where
  restingOrder : Nat
  price : Int
  quantity : Int
  restingRemaining : Int
  deriving DecidableEq, Repr

structure ThrottleConfig where
  maxMessagesPerInterval : Int := 0
  intervalNs : Int := 0
  deriving DecidableEq, Repr

structure EngineConfig where
  tickSize : Int
  lotSize : Int
  priceBandLow : Int := 0
  priceBandHigh : Int := 0
  maxOrderSize : Int := 0
  dailyLimitHigh : Int := 0
  dailyLimitLow : Int := 0
  throttle : ThrottleConfig := {}
  deriving DecidableEq, Repr

structure OrderRequest where
  clientOrderId : Nat
  accountId : Nat
  side : Side
  type : OrderType
  tif : TimeInForce
  price : Int
  quantity : Int
  stopPrice : Int
  timestamp : Int
  gtdExpiry : Int
  displayQty : Int := 0
  isMarketMaker : Bool := false
  deriving DecidableEq, Repr

structure ModifyRequest where
  orderId : Nat
  clientOrderId : Nat
  newPrice : Int
  newQuantity : Int
  timestamp : Int
  deriving DecidableEq, Repr

structure SerializedOrder where
  id : Nat
  clientOrderId : Nat
  accountId : Nat
  price : Int
  quantity : Int
  filledQuantity : Int
  remainingQuantity : Int
  side : Side
  type : OrderType
  tif : TimeInForce
  timestamp : Int
  gtdExpiry : Int
  displayQty : Int
  totalQty : Int
  deriving DecidableEq, Repr

structure LegFill where
  orderId : Nat
  fillPrice : Int
  fillQty : Int
  deriving DecidableEq, Repr

structure AuctionResult where
  price : Int := 0
  matchedVolume : Int := 0
  buySurplus : Int := 0
  sellSurplus : Int := 0
  hasPrice : Bool := false
  deriving DecidableEq, Repr

structure TradeRecord where
  tradeId : Nat
  aggressorId : Nat
  restingId : Nat
  price : Int
  quantity : Int
  ts : Int
  aggressorSide : Side
  aggressorAccountId : Nat
  restingAccountId : Nat
  busted : Bool
  deriving DecidableEq, Repr

@[simp] theorem Side.opposite_opposite (s : Side) : s.opposite.opposite = s := by
  cases s <;> rfl

theorem Side.opposite_ne (s : Side) : s.opposite ≠ s := by
  cases s <;> simp [Side.opposite]

end ExchangeSim
