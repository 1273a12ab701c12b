import ExchangeSim.Engine

namespace ExchangeSim

variable {D : Type}

def kMaxFills : Nat := 256

/-- The price check of the match loop: only a limit order is bound by its price. -/
def Order.allows (order : Order) (price : Int) : Bool :=
  match order.type, order.side with
  | .limit, .buy => decide (price ≤ order.price)
  | .limit, .sell => decide (order.price ≤ price)
  | _, _ => true

def computeMatchableQty (book : Side → List PriceLevel) (order : Order) : Int :=
  (((book order.side.opposite).takeWhile (fun l => order.allows l.price)).map
    (·.totalQuantity)).sum

def Engine.insertIntoBook (order : Order) (ts : Int) (e : Engine D) : Engine D :=
  match e.levelPool.allocate with
  | none => e.dropOrder order ts .levelPoolExhausted
  | some (_, pool) =>
    let r := insertAt (bookBefore order.side) order.price order (e.book order.side)
    let e := { e with levelPool := if r.2 then pool else pool.deallocate () }.setBook order.side r.1
    let e := e.emit (.orderBookAction
      ⟨order.id, order.side, order.price, order.remainingQuantity, .add, ts⟩)
    match levelOf order.id (e.book order.side) with
    | none => e
    | some lv => e.fireDepth order.side lv (if r.2 then .add else .update) ts

/-- The level is the one of the trigger price; a stop-limit order keeps its limit price. -/
def Engine.insertIntoStopBook (order : Order) (stopPrice : Int) (e : Engine D) : Engine D :=
  match e.levelPool.allocate with
  | none => e.dropOrder order order.timestamp .levelPoolExhausted
  | some (_, pool) =>
    let r := insertAt (stopBefore order.side) stopPrice order (e.stopBook order.side)
    { e with levelPool := if r.2 then pool else pool.deallocate () }.setStopBook order.side r.1

/-- An iceberg with hidden quantity left. -/
def Order.hasNextTranche (o : Order) : Bool :=
  decide (o.displayQty > 0) && decide (o.totalQty > o.filledQuantity)

/-- The next tranche of an iceberg appears at the back of its level. -/
def Engine.revealTranche (order : Order) (ts : Int) (e : Engine D) : Engine D :=
  let next := min order.displayQty (order.totalQty - order.filledQuantity)
  let e := e.setBook order.side (onLevelOf order.id (·.requeue order next) (e.book order.side))
  let e := e.emit (.orderBookAction ⟨order.id, order.side, order.price, next, .add, ts⟩)
  e.fireDepthOf order ts

/-- Positions, level total, fill report, trade and L3 event of one fill. -/
def Engine.bookTrade (X : Exchange D) (ts : Int) (order : Order) (fill : FillResult)
    (resting : Order) (e : Engine D) : Engine D :=
  let e := { e with
    lastTradePrice := fill.price
    positions := updateFill X.maxAccounts resting.accountId resting.side fill.quantity
      (updateFill X.maxAccounts order.accountId order.side fill.quantity e.positions) }
  let e := e.setBook resting.side (onLevelOf resting.id
    (fun l => { l with totalQuantity := l.totalQuantity - fill.quantity }) (e.book resting.side))
  let e := e.emit
    (if order.remainingQuantity = 0 then
      .orderFilled order.id resting.id fill.price fill.quantity ts
    else
      .orderPartiallyFilled order.id resting.id fill.price fill.quantity order.remainingQuantity
        fill.restingRemaining ts)
  let e := e.emit (.trade ⟨fill.price, fill.quantity, order.id, resting.id, order.side, ts⟩)
  let registry := e.tradeRegistry.record X.maxOrderIds order.id resting.id fill.price
    fill.quantity ts order.side order.accountId resting.accountId
  let e := { e with tradeRegistry := registry }
  e.emit (.orderBookAction ⟨resting.id, resting.side, fill.price, fill.quantity, .fill, ts⟩)

def Engine.closeResting (ts : Int) (fill : FillResult) (resting : Order) (e : Engine D) :
    Engine D :=
  if fill.restingRemaining = 0 then
    if resting.hasNextTranche then
      e.revealTranche resting ts
    else
      (((e.removeOrder resting).2).fireDepthRemove resting.side fill.price ts).release resting
  else e.fireDepthOf resting ts

def Engine.fillResting (s : Side) (id : Nat) (q : Int) (e : Engine D) : Engine D :=
  e.setBook s ((e.book s).map (·.mapOrders fun o => if o.id = id then o.fill q else o))

/-- Reverse what the policy did for the fills that are not booked. -/
def Engine.undoFills (s : Side) : List FillResult → Order → Engine D → Order × Engine D
  | [], order, e => (order, e)
  | f :: rs, order, e =>
    Engine.undoFills s rs { order with remainingQuantity := order.remainingQuantity + f.quantity }
      (e.fillResting s f.restingOrder (-f.quantity))

def Engine.cancelResting (ts : Int) (fill : FillResult) (resting : Order) (e : Engine D) :
    Bool × Engine D :=
  let r := e.removeOrder resting
  let e := r.2.dropOrder resting ts .selfMatchPrevention
  let e := e.emit (.orderBookAction
    ⟨resting.id, resting.side, fill.price, resting.remainingQuantity, .cancel, ts⟩)
  (r.1, if r.1 then e.fireDepthRemove resting.side fill.price ts else e)

/-- The L2 update `apply_smp_action` fires for the level that owned a cancelled resting
order, as `remove_order` left it; `e` is the engine before the removal. -/
def Engine.notifyCancelled (ts : Int) (fill : FillResult) (resting : Order) (e : Engine D)
    (r : Bool × Engine D) : Engine D :=
  match r.1, (levelOf resting.id (e.book resting.side)).map (·.unlink resting) with
  | false, some lv => r.2.emit (.depthUpdate
      ⟨resting.side, fill.price, lv.totalQuantity, lv.orderCount, .update, ts⟩)
  | _, _ => r.2

/-- Returns the aggressor if it lives. -/
def Engine.applySmpAction (X : Exchange D) (order resting : Order) (fill : FillResult)
    (ts : Int) (e : Engine D) : Option Order × Engine D :=
  match X.getSmpAction e.derived with
  | .cancelNewest => (none, e.dropOrder order ts .selfMatchPrevention)
  | .cancelOldest =>
    (some order, e.notifyCancelled ts fill resting (e.cancelResting ts fill resting))
  | .cancelBoth => (none, (e.cancelResting ts fill resting).2.dropOrder order ts .selfMatchPrevention)
  | .decrement => (some order, e)
  | .none => (some order, e)

/-- The fills of one level pass. The policy has already changed the orders. -/
def Engine.processFills (X : Exchange D) (ts : Int) :
    List FillResult → Order → Engine D → Outcome D (Option Order × Engine D)
  | [], order, e => .ok (some order, e)
  | fill :: rest, order, e =>
    match findOrder fill.restingOrder (e.book order.side.opposite) with
    | none => .error (.dangling, e)
    | some resting =>
      if X.isSelfMatch e.derived order resting then
        let u := e.undoFills order.side.opposite (fill :: rest) order
        match findOrder fill.restingOrder (u.2.book order.side.opposite) with
        | none => .error (.dangling, u.2)
        | some resting => .ok (u.2.applySmpAction X u.1 resting fill ts)
      else
        let order := { order with filledQuantity := order.filledQuantity + fill.quantity }
        Engine.processFills X ts rest order
          ((e.bookTrade X ts order fill resting).closeResting ts fill resting)

/-- The level passes: the aggressor if it lives, and the engine. -/
def Engine.matchLoop (X : Exchange D) (ts : Int) :
    Nat → Order → Engine D → Outcome D (Option Order × Engine D)
  | 0, _, e => .error (.outOfFuel, e)
  | fuel + 1, order, e =>
    if order.remainingQuantity ≤ 0 then .ok (some order, e)
    else match e.book order.side.opposite with
      | [] => .ok (some order, e)
      | level :: deeper =>
        if !order.allows level.price then .ok (some order, e)
        else
          let m := X.algo.matchLevel level order.remainingQuantity
          if m.results.length > kMaxFills then .error (.fillBuffer, e)
          else
            let order := { order with remainingQuantity := m.remaining }
            let e := e.setBook order.side.opposite ({ level with orders := m.orders } :: deeper)
            match e.processFills X ts m.results order with
            | .error err => .error err
            | .ok (alive, e) =>
              let limit := e.checkDailyLimitHit X ts
              if limit.1 then .ok (alive, limit.2)
              else
                let vi := limit.2.checkVolatilityInterruption X ts
                if vi.1 then .ok (alive, vi.2)
                else match alive with
                  | none => .ok (none, vi.2)
                  | some order => Engine.matchLoop X ts fuel order vi.2

def Engine.postMatch (order : Order) (ts : Int) (oldBestBid oldBestAsk : Int)
    (e : Engine D) : Engine D :=
  if order.remainingQuantity = 0 then
    (e.release order).fireTopOfBookIfChanged ts oldBestBid oldBestAsk
  else if order.type = .market then
    (e.dropOrder order ts .iocRemainder).fireTopOfBookIfChanged ts oldBestBid oldBestAsk
  else if order.tif = .ioc then
    (e.dropOrder order ts .iocRemainder).fireTopOfBookIfChanged ts oldBestBid oldBestAsk
  else if order.tif = .fok then
    (e.dropOrder order ts .fokFailed).fireTopOfBookIfChanged ts oldBestBid oldBestAsk
  else (e.insertIntoBook order ts).fireTopOfBook ts

def Engine.matchOrder (X : Exchange D) (fuel : Nat) (order : Order) (ts : Int)
    (e : Engine D) : Outcome D (Engine D) :=
  let oldBestBid := e.bestPrice .buy
  let oldBestAsk := e.bestPrice .sell
  if order.tif = .fok ∧ computeMatchableQty e.book order < order.remainingQuantity then
    .ok ((e.dropOrder order ts .fokFailed).fireTopOfBookIfChanged ts oldBestBid oldBestAsk)
  else match e.matchLoop X ts fuel order with
    | .error err => .error err
    | .ok (some order, e) => .ok (e.postMatch order ts oldBestBid oldBestAsk)
    | .ok (none, e) => .ok (e.fireTopOfBookIfChanged ts oldBestBid oldBestAsk)

/-- The level of stops on a side that the trade price triggers. -/
def Engine.triggeredLevel (s : Side) (e : Engine D) : Option PriceLevel :=
  match s, e.stopBook s with
  | _, [] => none
  | .buy, lv :: _ => if e.lastTradePrice ≥ lv.price then some lv else none
  | .sell, lv :: _ => if e.lastTradePrice ≤ lv.price then some lv else none

def Engine.hasTriggeredStops (e : Engine D) : Bool :=
  (e.triggeredLevel .buy).isSome || (e.triggeredLevel .sell).isSome

/-- Buy stops go first when both sides trigger. -/
def Engine.nextTriggeredStop (e : Engine D) : Option Order :=
  match e.triggeredLevel .buy with
  | some lv => lv.orders.head?
  | none =>
    match e.triggeredLevel .sell with
    | some lv => lv.orders.head?
    | none => none

/-- A triggered stop becomes a market order, a stop-limit order a limit order. -/
def Order.triggered (stop : Order) : Order :=
  if stop.type = .stop then { stop with type := .market, price := 0 }
  else { stop with type := .limit }

def Engine.checkAndTriggerStops (X : Exchange D) (fuel : Nat) (ts : Int) :
    Nat → Engine D → Outcome D (Engine D)
  | rounds, e =>
    if e.lastTradePrice > 0 ∧ e.hasTriggeredStops then
      match e.nextTriggeredStop, rounds with
      | none, _ => .ok e
      | some _, 0 => .error (.outOfFuel, e)
      | some stop, rounds + 1 =>
        match (e.removeStop stop).matchOrder X fuel stop.triggered ts with
        | .error err => .error err
        | .ok e => Engine.checkAndTriggerStops X fuel ts rounds e
    else .ok e

/-- `match_order` followed by the stop cascade, as `new_order` and `modify_order` call them. -/
def Engine.matchAndTrigger (X : Exchange D) (fuel : Nat) (order : Order) (ts : Int)
    (e : Engine D) : Outcome D (Engine D) :=
  match e.matchOrder X fuel order ts with
  | .error err => .error err
  | .ok e => e.checkAndTriggerStops X fuel ts fuel

end ExchangeSim
