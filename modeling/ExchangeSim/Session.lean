import ExchangeSim.Operations

namespace ExchangeSim

variable {D : Type}

def Engine.impliedFillValid (X : Exchange D) (e : Engine D) (fill : LegFill) : Bool :=
  !e.unknown X fill.orderId && decide (fill.fillQty > 0) &&
    match e.indexed fill.orderId with
    | .error _ => false
    | .ok order => decide (order.remainingQuantity ≥ fill.fillQty)

/-- Update, trade and L3 event of one implied fill; `order` is as it is after it. -/
def Engine.impliedTrade (X : Exchange D) (ts : Int) (fill : LegFill) (order : Order)
    (e : Engine D) : Engine D :=
  let e := e.adjustOrder order (·.fill fill.fillQty) (-fill.fillQty)
  let e := { e with
    lastTradePrice := fill.fillPrice
    positions := updateFill X.maxAccounts order.accountId order.side fill.fillQty e.positions }
  let e := e.emit
    (if order.remainingQuantity = 0 ∧ !order.hasNextTranche then
      .orderFilled order.id order.id fill.fillPrice fill.fillQty ts
    else
      .orderPartiallyFilled order.id order.id fill.fillPrice fill.fillQty
        order.reportedRemaining order.reportedRemaining ts)
  let e := e.emit (.trade ⟨fill.fillPrice, fill.fillQty, order.id, order.id, order.side, ts⟩)
  let registry := e.tradeRegistry.record X.maxOrderIds order.id order.id fill.fillPrice
    fill.fillQty ts order.side order.accountId order.accountId
  let e := { e with tradeRegistry := registry }
  e.emit (.orderBookAction
    ⟨order.id, order.side, fill.fillPrice, fill.fillQty, .fill, ts⟩)

/-- The L2 update for the level of an order, in whichever book it is. -/
def Engine.fireDepthHolding (order : Order) (ts : Int) (e : Engine D) : Engine D :=
  match e.levelHolding order with
  | none => e
  | some lv => e.fireDepth order.side lv .update ts

def Engine.impliedReveal (ts : Int) (order : Order) (e : Engine D) : Engine D :=
  let next := min order.displayQty (order.totalQty - order.filledQuantity)
  let e := e.setBook order.side (onLevelOf order.id (·.requeue order next) (e.book order.side))
  let e := e.setStopBook order.side
    (onLevelOf order.id (·.requeue order next) (e.stopBook order.side))
  let e := e.emit (.orderBookAction ⟨order.id, order.side, order.price, next, .add, ts⟩)
  e.fireDepthHolding order ts

def Engine.applyImpliedFill (X : Exchange D) (ts : Int) (fill : LegFill) (e : Engine D) :
    Outcome D (Engine D) :=
  match e.indexed fill.orderId with
  | .error err => .error err
  | .ok order =>
    let order := order.fill fill.fillQty
    let e := e.impliedTrade X ts fill order
    if order.remainingQuantity = 0 then
      if order.hasNextTranche then .ok (e.impliedReveal ts order)
      else match e.bookRemoveOrder order with
        | .error err => .error err
        | .ok (freed, e) =>
          .ok ((e.fireDepthAfterRemove freed order.side fill.fillPrice ts).release order)
    else .ok (e.fireDepthHolding order ts)

def Engine.applyImpliedLegs (X : Exchange D) (ts : Int) :
    List LegFill → Engine D → Outcome D (Engine D)
  | [], e => .ok e
  | fill :: fills, e =>
    match e.applyImpliedFill X ts fill with
    | .error err => .error err
    | .ok e => Engine.applyImpliedLegs X ts fills e

/-- The flag is the value returned: false when some leg is not valid. -/
def Engine.applyImpliedFills (X : Exchange D) (fills : List LegFill) (ts : Int)
    (e : Engine D) : Outcome D (Bool × Engine D) :=
  if fills.all (e.impliedFillValid X) then
    match e.applyImpliedLegs X ts fills with
    | .error err => .error err
    | .ok e => .ok (true, e.fireTopOfBook ts)
  else .ok (false, e)

def Engine.dispatch (X : Exchange D) (fuel : Nat) (a : Action) (e : Engine D) :
    Outcome D (Engine D) :=
  match a with
  | .newOrder req => e.newOrder X fuel req
  | .cancelOrder id ts => e.cancelOrder X id ts
  | .modifyOrder req => e.modifyOrder X fuel req
  | .triggerExpiry now tif => (e.triggerExpiry now tif).map (·.2)
  | .massCancel account ts => (e.massCancel account ts).map (·.2)
  | .massCancelAll ts => (e.massCancelAll ts).map (·.2)
  | .restoreOrder s ts => .ok (e.restoreOrder X s ts)
  | .bustTrade id reason ts => e.bustTrade X id reason ts
  | .setSessionState s ts => .ok (e.setSessionState X s ts)
  | .unlockLimit ts => .ok (e.unlockLimit ts)
  | .executeAuction p ts => e.executeAuction X fuel p ts
  | .publishIndicativePrice p ts => .ok (e.publishIndicativePrice p ts)
  | .applyImpliedFills fills ts => (e.applyImpliedFills X fills ts).map (·.2)

def Engine.record (a : Action) (e : Engine D) : Engine D :=
  { e with journal := e.journal ++ [.action a] }

def Engine.perform (X : Exchange D) (fuel : Nat) (a : Action) (e : Engine D) :
    Outcome D (Engine D) :=
  (e.record a).dispatch X fuel a

def Engine.performAll (X : Exchange D) (fuel : Nat) : List Action → Engine D → Outcome D (Engine D)
  | [], e => .ok e
  | a :: rest, e =>
    match e.perform X fuel a with
    | .error err => .error err
    | .ok e => Engine.performAll X fuel rest e

/-- The engines reached from `e₀` by operations that meet `ok` in the state they are
called in. Each operation may take as many rounds as it needs. -/
inductive Reach (X : Exchange D) (ok : Engine D → Action → Prop) (e₀ : Engine D) :
    Engine D → Prop
  | start : Reach X ok e₀ e₀
  | step {e e' : Engine D} {a : Action} {fuel : Nat} :
    Reach X ok e₀ e → ok e a → e.perform X fuel a = .ok e' → Reach X ok e₀ e'

end ExchangeSim
