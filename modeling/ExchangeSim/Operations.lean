import ExchangeSim.Auction

namespace ExchangeSim

variable {D : Type}

def firstFailure (checks : List (Bool × RejectReason)) : Option RejectReason :=
  (checks.find? (·.1)).map (·.2)

def Engine.rateCheck (X : Exchange D) (account : Nat) (ts : Int) (e : Engine D) :
    Bool × Engine D :=
  if X.isRateCheckEnabled e.derived then
    let r := e.rateTracker.checkAndIncrement X.maxAccounts account ts
    (r.1, { e with rateTracker := r.2 })
  else (true, e)

def Engine.newOrderChecks (X : Exchange D) (req : OrderRequest) (e : Engine D) :
    List (Bool × RejectReason) :=
  let c := e.config
  let minDisplay := X.getMinDisplayQty e.derived req
  let bands := X.calculateDynamicBands e.derived c e.lastTradePrice
  [ (!X.onValidateOrder e.derived req, .exchangeSpecific),
    (!X.isTifValid e.derived req.tif, .invalidTif),
    (decide (req.quantity ≤ 0), .invalidQuantity),
    (decide (c.lotSize > 0 ∧ req.quantity % c.lotSize ≠ 0), .invalidQuantity),
    (decide (req.displayQty > 0 ∧ req.displayQty > req.quantity), .invalidQuantity),
    (decide (req.displayQty > 0 ∧ c.lotSize > 0 ∧ req.displayQty % c.lotSize ≠ 0),
      .invalidQuantity),
    (decide (req.displayQty > 0 ∧ minDisplay > 0 ∧ req.displayQty < minDisplay),
      .invalidQuantity),
    (decide (c.maxOrderSize > 0 ∧ req.quantity > c.maxOrderSize), .maxOrderSizeExceeded),
    (req.type.priced && decide (req.price ≤ 0), .invalidPrice),
    (req.type.priced && decide (c.tickSize > 0 ∧ req.price % c.tickSize ≠ 0), .invalidPrice),
    (req.type.priced && decide (bands.1 > 0 ∧ req.price < bands.1), .priceBandViolation),
    (req.type.priced && decide (bands.2 > 0 ∧ req.price > bands.2), .priceBandViolation),
    (req.type.priced && decide (c.dailyLimitHigh > 0 ∧ req.price > c.dailyLimitHigh),
      .lockLimitUp),
    (req.type.priced && decide (c.dailyLimitLow > 0 ∧ req.price < c.dailyLimitLow),
      .lockLimitDown),
    (req.type.isStop && decide (req.stopPrice ≤ 0), .invalidPrice),
    (decide (e.currentState = .closed), .exchangeSpecific),
    (!X.isOrderAllowedInPhase e.derived req e.currentState, .invalidTif),
    (X.isPositionCheckEnabled e.derived && wouldExceedLimit X.maxAccounts e.positions
      req.accountId req.side req.quantity (X.getPositionLimit e.derived req.accountId),
      .positionLimitExceeded),
    (decide (e.nextOrderId ≥ X.maxOrderIds), .poolExhausted) ]

def Engine.buildOrder (X : Exchange D) (req : OrderRequest) (slot : SlotResidue)
    (e : Engine D) : Order where
  id := e.nextOrderId
  clientOrderId := req.clientOrderId
  accountId := req.accountId
  price := if req.type = .stop then req.stopPrice else req.price
  quantity := req.quantity
  filledQuantity := 0
  remainingQuantity := if req.displayQty > 0 then req.displayQty else req.quantity
  side := req.side
  type := req.type
  tif := req.tif
  timestamp := req.timestamp
  gtdExpiry := req.gtdExpiry
  displayQty := req.displayQty
  totalQty := req.quantity
  isMarketMaker := X.isMarketMaker e.derived req
  isTopOrder := slot.isTopOrder

/-- The order takes its slot and its index entry, and `OrderAccepted` is fired. -/
def Engine.acceptOrder (order : Order) (pool : ObjectPool SlotResidue) (ts : Int)
    (e : Engine D) : Engine D :=
  let e := { e with
    orderPool := pool
    orderIndex := Function.update e.orderIndex order.id (some order.id)
    nextOrderId := max e.nextOrderId (order.id + 1) }
  e.emit (.orderAccepted order.id order.clientOrderId ts)

def SessionState.isCollectionPhase (s : SessionState) : Bool :=
  decide (s = .preOpen) || decide (s = .preClose) || decide (s = .volatilityAuction) ||
    decide (s = .lockLimit)

def Engine.routeOrder (X : Exchange D) (fuel : Nat) (req : OrderRequest) (order : Order)
    (e : Engine D) : Outcome D (Engine D) :=
  if req.type.isStop then .ok (e.insertIntoStopBook order req.stopPrice)
  else if e.currentState.isCollectionPhase then
    if req.type = .limit then .ok ((e.insertIntoBook order req.timestamp).fireTopOfBook req.timestamp)
    else .ok (e.dropOrder order req.timestamp .iocRemainder)
  else e.matchAndTrigger X fuel order req.timestamp

def Engine.newOrder (X : Exchange D) (fuel : Nat) (req : OrderRequest) (e : Engine D) :
    Outcome D (Engine D) :=
  let rate := e.rateCheck X req.accountId req.timestamp
  let e := rate.2
  let reject := fun r => e.emit (.orderRejected req.clientOrderId req.timestamp r)
  if !rate.1 then .ok (reject .rateThrottled)
  else match firstFailure (e.newOrderChecks X req), e.orderPool.allocate with
    | some r, _ => .ok (reject r)
    | none, none => .ok (reject .poolExhausted)
    | none, some (slot, pool) =>
      let order := e.buildOrder X req slot
      (e.acceptOrder order pool req.timestamp).routeOrder X fuel req order

/-- What is left of a cancel once the order is out of the limit book, up to the top of the
book. -/
def Engine.reportCancel (order : Order) (ts : Int) (reason : CancelReason) (freed : Bool)
    (e : Engine D) : Engine D :=
  let e := e.dropOrder order ts reason
  let e := e.emit (.orderBookAction
    ⟨order.id, order.side, order.price, order.remainingQuantity, .cancel, ts⟩)
  e.fireDepthAfterRemove freed order.side order.price ts

/-- Remove an order from the book its type says it is in, and fire the events. -/
def Engine.cancelActiveOrder (order : Order) (ts : Int) (reason : CancelReason)
    (e : Engine D) : Outcome D (Engine D) :=
  if order.type.isStop then
    match e.stopBookRemoveStop order with
    | .error err => .error err
    | .ok e => .ok (e.dropOrder order ts reason)
  else
    match e.bookRemoveOrder order with
    | .error err => .error err
    | .ok (freed, e') =>
      .ok ((e'.reportCancel order ts reason freed).fireTopOfBookIfChanged ts (e.bestPrice .buy)
        (e.bestPrice .sell))

def Engine.unknown (X : Exchange D) (id : Nat) (e : Engine D) : Bool :=
  decide (id = 0) || decide (id ≥ X.maxOrderIds) || (e.orderIndex id).isNone

/-- The order an index entry points at; an entry that is set must point at a linked order. -/
def Engine.indexed (id : Nat) (e : Engine D) : Outcome D Order :=
  match (e.orderIndex id).bind (fun p => e.deref p) with
  | none => .error (.dangling, e)
  | some order => .ok order

def Engine.cancelOrder (X : Exchange D) (id : Nat) (ts : Int) (e : Engine D) :
    Outcome D (Engine D) :=
  let reject := fun (r : RejectReason) (e : Engine D) => e.emit (.orderCancelRejected id 0 ts r)
  if e.currentState = .closed then .ok (reject .exchangeSpecific e)
  else if e.unknown X id then .ok (reject .unknownOrder e)
  else match e.indexed id with
    | .error err => .error err
    | .ok order =>
      let rate := e.rateCheck X order.accountId ts
      if !rate.1 then .ok (reject .rateThrottled rate.2)
      else rate.2.cancelActiveOrder order ts .userRequested

def Engine.modifyChecks (X : Exchange D) (req : ModifyRequest) (e : Engine D) :
    List (Bool × RejectReason) :=
  [ (decide (req.newQuantity ≤ 0), .invalidQuantity),
    (decide (req.newPrice ≤ 0), .invalidPrice),
    (decide (e.config.tickSize > 0 ∧ req.newPrice % e.config.tickSize ≠ 0), .invalidPrice),
    (decide (e.config.lotSize > 0 ∧ req.newQuantity % e.config.lotSize ≠ 0), .invalidQuantity),
    (decide (X.getModifyPolicy e.derived = .rejectModify), .exchangeSpecific) ]

/-- `order->level`, in whichever book it is. -/
def Engine.levelHolding (order : Order) (e : Engine D) : Option PriceLevel :=
  levelOf order.id (e.book order.side ++ e.stopBook order.side)

/-- Change an order in place together with the total of its level. -/
def Engine.adjustOrder (order : Order) (f : Order → Order) (delta : Int) (e : Engine D) :
    Engine D :=
  let adjust := fun l : PriceLevel =>
    { l with
      orders := l.orders.map (fun o => if o.id = order.id then f o else o)
      totalQuantity := l.totalQuantity + delta }
  (e.setBook order.side (onLevelOf order.id adjust (e.book order.side))).setStopBook order.side
    (onLevelOf order.id adjust (e.stopBook order.side))

/-- Amend-down: the quantity shrinks in place. -/
def Engine.amendOrder (order : Order) (req : ModifyRequest) (e : Engine D) : Engine D :=
  let newRemaining := req.newQuantity - order.filledQuantity
  let e := e.adjustOrder order
    (fun o => { o with quantity := req.newQuantity, remainingQuantity := newRemaining })
    (-(order.remainingQuantity - newRemaining))
  let e := e.emit (.orderModified order.id req.clientOrderId req.newPrice req.newQuantity
    req.timestamp)
  match e.levelHolding order with
  | none => e
  | some lv => e.fireDepth order.side lv .update req.timestamp

def Engine.amends (X : Exchange D) (order : Order) (req : ModifyRequest) (e : Engine D) : Bool :=
  decide (X.getModifyPolicy e.derived = .amendDown) && decide (req.newPrice = order.price) &&
    decide (req.newQuantity < order.quantity) && decide (req.newQuantity > order.filledQuantity)

def Order.replaced (order : Order) (req : ModifyRequest) : Order :=
  { order with
    price := req.newPrice
    quantity := req.newQuantity
    remainingQuantity := req.newQuantity - order.filledQuantity
    timestamp := req.timestamp }

def Engine.reportPull (order : Order) (req : ModifyRequest) (freed : Bool) (e : Engine D) :
    Engine D :=
  let e := e.emit (.orderBookAction
    ⟨order.id, order.side, order.price, order.remainingQuantity, .cancel, req.timestamp⟩)
  let e := e.fireDepthAfterRemove freed order.side order.price req.timestamp
  e.emit (.orderModified order.id req.clientOrderId req.newPrice req.newQuantity req.timestamp)

/-- Cancel-replace up to the re-entry: the old order leaves its level and
`OrderModified` is fired. -/
def Engine.pullOrder (order : Order) (req : ModifyRequest) (e : Engine D) :
    Outcome D (Engine D) :=
  match e.bookRemoveOrder order with
  | .error err => .error err
  | .ok (freed, e) => .ok (e.reportPull order req freed)

def Engine.replaceOrder (X : Exchange D) (fuel : Nat) (order : Order) (req : ModifyRequest)
    (e : Engine D) : Outcome D (Engine D) :=
  match e.pullOrder order req with
  | .error err => .error err
  | .ok e => e.matchAndTrigger X fuel (order.replaced req) req.timestamp

def Engine.modifyOrder (X : Exchange D) (fuel : Nat) (req : ModifyRequest) (e : Engine D) :
    Outcome D (Engine D) :=
  let reject := fun (r : RejectReason) (e : Engine D) =>
    e.emit (.orderModifyRejected req.orderId req.clientOrderId req.timestamp r)
  if e.currentState = .closed then .ok (reject .exchangeSpecific e)
  else if e.unknown X req.orderId then .ok (reject .unknownOrder e)
  else match e.indexed req.orderId with
    | .error err => .error err
    | .ok order =>
      let rate := e.rateCheck X order.accountId req.timestamp
      let e := rate.2
      if !rate.1 then .ok (reject .rateThrottled e)
      else match firstFailure (e.modifyChecks X req) with
        | some r => .ok (reject r e)
        | none =>
          if e.amends X order req then .ok (e.amendOrder order req)
          else e.replaceOrder X fuel order req

/-- Cancel every live order that is selected, by ascending id; returns how many. -/
def Engine.cancelWhere (select : Order → Bool) (ts : Int) (reason : CancelReason) :
    List Nat → Nat → Engine D → Outcome D (Nat × Engine D)
  | [], count, e => .ok (count, e)
  | id :: ids, count, e =>
    if (e.orderIndex id).isNone then Engine.cancelWhere select ts reason ids count e
    else match e.indexed id with
      | .error err => .error err
      | .ok order =>
        if select order then
          match e.cancelActiveOrder order ts reason with
          | .error err => .error err
          | .ok e => Engine.cancelWhere select ts reason ids (count + 1) e
        else Engine.cancelWhere select ts reason ids count e

def Engine.assignedIds (e : Engine D) : List Nat :=
  List.range' 1 (e.nextOrderId - 1)

def Order.shouldExpire (now : Int) (tif : TimeInForce) (o : Order) : Bool :=
  decide (o.tif = tif) && match tif with
    | .day => true
    | .gtd => decide (o.gtdExpiry ≤ now)
    | _ => false

def Engine.triggerExpiry (now : Int) (tif : TimeInForce) (e : Engine D) :
    Outcome D (Nat × Engine D) :=
  e.cancelWhere (Order.shouldExpire now tif) now .expired e.assignedIds 0

def Engine.massCancel (account : Nat) (ts : Int) (e : Engine D) :
    Outcome D (Nat × Engine D) :=
  e.cancelWhere (fun o => decide (o.accountId = account)) ts .massCancelled e.assignedIds 0

def Engine.massCancelAll (ts : Int) (e : Engine D) : Outcome D (Nat × Engine D) :=
  e.cancelWhere (fun _ => true) ts .massCancelled e.assignedIds 0

def Engine.restoreChecks (X : Exchange D) (s : SerializedOrder) (ts : Int) (e : Engine D) :
    List (Bool × RejectReason) :=
  let c := e.config
  let bands := X.calculateDynamicBands e.derived c e.lastTradePrice
  [ (decide (s.id = 0 ∨ s.id ≥ X.maxOrderIds), .exchangeSpecific),
    ((e.orderIndex s.id).isSome, .exchangeSpecific),
    (decide (s.remainingQuantity ≤ 0), .invalidQuantity),
    (decide (c.lotSize > 0 ∧ s.quantity % c.lotSize ≠ 0), .invalidQuantity),
    (s.type.priced && decide (s.price ≤ 0), .invalidPrice),
    (s.type.priced && decide (c.tickSize > 0 ∧ s.price % c.tickSize ≠ 0), .invalidPrice),
    (s.type.priced && decide (bands.1 > 0 ∧ s.price < bands.1), .priceBandViolation),
    (s.type.priced && decide (bands.2 > 0 ∧ s.price > bands.2), .priceBandViolation),
    (decide (s.tif = .gtd ∧ s.gtdExpiry ≤ ts), .exchangeSpecific),
    (!X.onValidateRestore e.derived s, .exchangeSpecific) ]

/-- The two flags are whatever the slot held. -/
def deserializeOrder (s : SerializedOrder) (slot : SlotResidue) : Order where
  id := s.id
  clientOrderId := s.clientOrderId
  accountId := s.accountId
  price := s.price
  quantity := s.quantity
  filledQuantity := s.filledQuantity
  remainingQuantity := s.remainingQuantity
  side := s.side
  type := s.type
  tif := s.tif
  timestamp := s.timestamp
  gtdExpiry := s.gtdExpiry
  displayQty := s.displayQty
  totalQty := s.totalQty
  isMarketMaker := slot.isMarketMaker
  isTopOrder := slot.isTopOrder

def Engine.restoreOrder (X : Exchange D) (s : SerializedOrder) (ts : Int) (e : Engine D) :
    Engine D :=
  let reject := fun r => e.emit (.orderRejected s.clientOrderId ts r)
  match firstFailure (e.restoreChecks X s ts), e.orderPool.allocate with
  | some r, _ => reject r
  | none, none => reject .poolExhausted
  | none, some (slot, pool) =>
    let order := deserializeOrder s slot
    ((e.acceptOrder order pool ts).insertIntoBook order ts).fireTopOfBook ts

/-- Give a busted quantity back to one of the two orders, if it is still alive. -/
def Engine.unfill (X : Exchange D) (id : Nat) (q : Int) (e : Engine D) :
    Outcome D (Engine D) :=
  if id ≥ X.maxOrderIds ∨ (e.orderIndex id).isNone then .ok e
  else match e.indexed id with
    | .error err => .error err
    | .ok order => .ok (e.adjustOrder order (·.fill (-q)) q)

def Engine.reportBust (X : Exchange D) (tradeId : Nat) (record : TradeRecord)
    (reason : BustReason) (ts : Int) (e : Engine D) : Engine D :=
  let e := { e with
    positions := reverseFill X.maxAccounts record.restingAccountId
      record.aggressorSide.opposite record.quantity
      (reverseFill X.maxAccounts record.aggressorAccountId record.aggressorSide
        record.quantity e.positions) }
  e.emit (.tradeBusted tradeId record.aggressorId record.restingId record.price
    record.quantity reason ts)

def Engine.bustTrade (X : Exchange D) (tradeId : Nat) (reason : BustReason) (ts : Int)
    (e : Engine D) : Outcome D (Engine D) :=
  if e.currentState = .closed then .ok e
  else match e.tradeRegistry.lookup tradeId with
    | none => .ok e
    | some record =>
      if record.busted || !X.onValidateBust e.derived tradeId record ts then .ok e
      else
        let e := { e with tradeRegistry := e.tradeRegistry.markBusted tradeId }
        match e.unfill X record.aggressorId record.quantity with
        | .error err => .error err
        | .ok e =>
          match e.unfill X record.restingId record.quantity with
          | .error err => .error err
          | .ok e =>
            .ok (e.reportBust X tradeId record reason ts)

end ExchangeSim
