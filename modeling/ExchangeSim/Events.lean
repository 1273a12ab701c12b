import ExchangeSim.Types

namespace ExchangeSim

inductive DepthAction
  | add
  | update
  | remove
  deriving DecidableEq, Repr

inductive BookAction
  | add
  | modify
  | cancel
  | fill
  deriving DecidableEq, Repr

structure DepthUpdate where
  side : Side
  price : Int
  totalQty : Int
  orderCount : Nat
  action : DepthAction
  ts : Int
  deriving DecidableEq, Repr

structure OrderBookAction where
  id : Nat
  side : Side
  price : Int
  qty : Int
  action : BookAction
  ts : Int
  deriving DecidableEq, Repr

structure TopOfBook where
  bestBid : Int
  bidQty : Int
  bestAsk : Int
  askQty : Int
  ts : Int
  deriving DecidableEq, Repr

structure Trade where
  price : Int
  quantity : Int
  aggressorId : Nat
  restingId : Nat
  aggressorSide : Side
  ts : Int
  deriving DecidableEq, Repr

/-- The callbacks of the order listener and of the market data listener. -/
inductive Event
  | orderAccepted (id : Nat) (clientOrderId : Nat) (ts : Int)
  | orderRejected (clientOrderId : Nat) (ts : Int) (reason : RejectReason)
  | orderFilled (aggressorId restingId : Nat) (price : Int) (quantity : Int)
      (ts : Int)
  | orderPartiallyFilled (aggressorId restingId : Nat) (price : Int) (quantity : Int)
      (aggressorRemaining restingRemaining : Int) (ts : Int)
  | orderCancelled (id : Nat) (ts : Int) (reason : CancelReason)
  | orderCancelRejected (id : Nat) (clientOrderId : Nat) (ts : Int)
      (reason : RejectReason)
  | orderModified (id : Nat) (clientOrderId : Nat) (newPrice : Int) (newQty : Int)
      (ts : Int)
  | orderModifyRejected (id : Nat) (clientOrderId : Nat) (ts : Int)
      (reason : RejectReason)
  | tradeBusted (tradeId : Nat) (aggressorId restingId : Nat) (price : Int)
      (quantity : Int) (reason : BustReason) (ts : Int)
  | topOfBook (tob : TopOfBook)
  | depthUpdate (update : DepthUpdate)
  | orderBookAction (action : OrderBookAction)
  | trade (trade : Trade)
  | marketStatus (state : SessionState) (ts : Int)
  | indicativePrice (price : Int) (matchedVolume buySurplus sellSurplus : Int)
      (ts : Int)
  | lockLimitTriggered (side : Side) (limitPrice lastTradePrice : Int) (ts : Int)
  deriving DecidableEq, Repr

/-- The public operations of the engine. -/
inductive Action
  | newOrder (req : OrderRequest)
  | cancelOrder (id : Nat) (ts : Int)
  | modifyOrder (req : ModifyRequest)
  | triggerExpiry (now : Int) (tif : TimeInForce)
  | massCancel (accountId : Nat) (ts : Int)
  | massCancelAll (ts : Int)
  | restoreOrder (s : SerializedOrder) (ts : Int)
  | bustTrade (tradeId : Nat) (reason : BustReason) (ts : Int)
  | setSessionState (state : SessionState) (ts : Int)
  | unlockLimit (ts : Int)
  | executeAuction (referencePrice : Int) (ts : Int)
  | publishIndicativePrice (referencePrice : Int) (ts : Int)
  | applyImpliedFills (fills : List LegFill) (ts : Int)
  deriving DecidableEq, Repr

/-- A session is recorded the way the repository's journals record it: each action,
followed by the events it caused. -/
inductive JournalEntry
  | action (a : Action)
  | event (ev : Event)
  deriving DecidableEq, Repr

end ExchangeSim
