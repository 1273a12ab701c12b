import ExchangeSim.Stores
import ExchangeSim.MatchPolicy

namespace ExchangeSim

/-- What `on_daily_limit_hit` may do: change the derived class's state and the limits, and
ask for a session state. -/
structure LimitResponse (D : Type) where
  derived : D
  config : EngineConfig
  resume : Option SessionState

/-- A class derived from `MatchingEngine`: the template arguments, and the hooks as
functions of the derived class's own state `D`. The defaults are the base class's. -/
structure Exchange (D : Type) where
  maxOrders : Nat
  maxPriceLevels : Nat
  maxOrderIds : Nat
  maxAccounts : Nat
  algo : MatchPolicy
  onSessionTransition : D → SessionState → SessionState → Int → Bool :=
    fun _ _ _ _ => true
  isOrderAllowedInPhase : D → OrderRequest → SessionState → Bool := fun _ _ _ => true
  onValidateOrder : D → OrderRequest → Bool := fun _ _ => true
  onValidateRestore : D → SerializedOrder → Bool := fun _ _ => true
  isTifValid : D → TimeInForce → Bool := fun _ _ => true
  onValidateBust : D → Nat → TradeRecord → Int → Bool := fun _ _ _ _ => true
  isPositionCheckEnabled : D → Bool := fun _ => false
  getPositionLimit : D → Nat → Int := fun _ _ => 0
  isRateCheckEnabled : D → Bool := fun _ => false
  isMarketMaker : D → OrderRequest → Bool := fun _ _ => false
  isSelfMatch : D → Order → Order → Bool := fun _ _ _ => false
  getSmpAction : D → SmpAction := fun _ => .cancelNewest
  getModifyPolicy : D → ModifyPolicy := fun _ => .cancelReplace
  getMinDisplayQty : D → OrderRequest → Int := fun _ _ => 0
  shouldTriggerVolatilityAuction : D → Int → Int → Bool := fun _ _ _ => false
  calculateDynamicBands : D → EngineConfig → Int → Int × Int :=
    fun _ c _ => (c.priceBandLow, c.priceBandHigh)
  onDailyLimitHit : D → EngineConfig → Side → Int → Int → LimitResponse D :=
    fun d c _ _ _ => ⟨d, c, none⟩

/-- The engine's members. `orderIndex` maps an id to the order its entry points at. -/
structure Engine (D : Type) where
  config : EngineConfig
  currentState : SessionState := .continuous
  book : Side → List PriceLevel := fun _ => []
  stopBook : Side → List PriceLevel := fun _ => []
  orderPool : ObjectPool SlotResidue
  levelPool : ObjectPool Unit
  rateTracker : RateTracker
  positions : Positions := fun _ => 0
  tradeRegistry : TradeRegistry := {}
  lastTradePrice : Int := 0
  viReferencePrice : Int := 0
  nextOrderId : Nat := 1
  orderIndex : Nat → Option Nat := fun _ => none
  derived : D
  journal : List JournalEntry := []

/-- Where an operation leaves what the model follows. -/
inductive Fault
  /-- a level pass wrote past the end of `results[kMaxFills]` -/
  | fillBuffer
  /-- a loop was still running after the given number of rounds -/
  | outOfFuel
  /-- a pointer to an order that no book holds -/
  | dangling
  /-- an emptied level of one book was unlinked through the list heads of the other -/
  | foreignLevel
  deriving DecidableEq, Repr

/-- The outcome of an operation; a fault keeps the engine as it stood there. -/
abbrev Outcome (D α : Type) := Except (Fault × Engine D) α

variable {D : Type}

/-- A fresh engine. `slots` is what the raw storage of the order pool happens to hold. -/
def Engine.init (X : Exchange D) (config : EngineConfig) (derived : D)
    (slots : Nat → SlotResidue) : Engine D where
  config := config
  orderPool := ⟨(List.range X.maxOrders).map slots, 0⟩
  levelPool := ⟨List.replicate X.maxPriceLevels (), 0⟩
  rateTracker := { config := config.throttle }
  derived := derived

def Engine.activeOrderCount (X : Exchange D) (e : Engine D) : Nat :=
  X.maxOrders - e.orderPool.available X.maxOrders

def Engine.availableLevelSlots (X : Exchange D) (e : Engine D) : Nat :=
  e.levelPool.available X.maxPriceLevels

def Engine.emit (ev : Event) (e : Engine D) : Engine D :=
  { e with journal := e.journal ++ [.event ev] }

def Engine.setBook (s : Side) (lvls : List PriceLevel) (e : Engine D) : Engine D :=
  { e with book := Function.update e.book s lvls }

def Engine.setStopBook (s : Side) (lvls : List PriceLevel) (e : Engine D) : Engine D :=
  { e with stopBook := Function.update e.stopBook s lvls }

def Engine.bestPrice (s : Side) (e : Engine D) : Int :=
  ((e.book s).head?.map (·.price)).getD 0

def Engine.bestQty (s : Side) (e : Engine D) : Int :=
  ((e.book s).head?.map (·.totalQuantity)).getD 0

def Engine.linked (e : Engine D) : List Order :=
  ordersIn (e.book .buy) ++ ordersIn (e.book .sell) ++
    (ordersIn (e.stopBook .buy) ++ ordersIn (e.stopBook .sell))

def Engine.deref (id : Nat) (e : Engine D) : Option Order :=
  e.linked.find? (·.id == id)

def Engine.release (order : Order) (e : Engine D) : Engine D :=
  { e with
    orderIndex := Function.update e.orderIndex order.id none
    orderPool := e.orderPool.deallocate ⟨order.isMarketMaker, order.isTopOrder⟩ }

def Engine.dropOrder (order : Order) (ts : Int) (reason : CancelReason) (e : Engine D) :
    Engine D :=
  (e.release order).emit (.orderCancelled order.id ts reason)

def Engine.fireTopOfBook (ts : Int) (e : Engine D) : Engine D :=
  e.emit (.topOfBook ⟨e.bestPrice .buy, e.bestQty .buy, e.bestPrice .sell, e.bestQty .sell, ts⟩)

def Engine.fireTopOfBookIfChanged (ts : Int) (oldBestBid oldBestAsk : Int)
    (e : Engine D) : Engine D :=
  if e.bestPrice .buy ≠ oldBestBid ∨ e.bestPrice .sell ≠ oldBestAsk then e.fireTopOfBook ts
  else e

def Engine.fireDepth (side : Side) (lv : PriceLevel) (action : DepthAction) (ts : Int)
    (e : Engine D) : Engine D :=
  e.emit (.depthUpdate ⟨side, lv.price, lv.totalQuantity, lv.orderCount, action, ts⟩)

def Engine.fireDepthRemove (side : Side) (price : Int) (ts : Int) (e : Engine D) :
    Engine D :=
  e.emit (.depthUpdate ⟨side, price, 0, 0, .remove, ts⟩)

/-- The L2 update for the level that holds an order of the limit book. -/
def Engine.fireDepthOf (order : Order) (ts : Int) (e : Engine D) : Engine D :=
  match levelOf order.id (e.book order.side) with
  | none => e
  | some lv => e.fireDepth order.side lv .update ts

/-- `find_level_by_price` and the L2 update for what it finds. -/
def Engine.fireDepthAt (side : Side) (price : Int) (ts : Int) (e : Engine D) : Engine D :=
  match findLevel price (e.book side) with
  | none => e
  | some lv => e.fireDepth side lv .update ts

def Engine.fireDepthAfterRemove (freed : Bool) (side : Side) (price : Int) (ts : Int)
    (e : Engine D) : Engine D :=
  if freed then e.fireDepthRemove side price ts else e.fireDepthAt side price ts

/-- `book_.remove_order` for an order of the limit book; a freed level goes back to its
pool. -/
def Engine.removeOrder (order : Order) (e : Engine D) : Bool × Engine D :=
  let r := unlinkFrom order (e.book order.side)
  let e := e.setBook order.side r.1
  (r.2, if r.2 then { e with levelPool := e.levelPool.deallocate () } else e)

/-- `stop_book_.remove_stop` for an order of the stop book. -/
def Engine.removeStop (order : Order) (e : Engine D) : Engine D :=
  let r := unlinkFrom order (e.stopBook order.side)
  let e := e.setStopBook order.side r.1
  if r.2 then { e with levelPool := e.levelPool.deallocate () } else e

def holds (lvls : List PriceLevel) (id : Nat) : Bool :=
  lvls.any (·.has id)

/-- The level of the order has a level on either side of it: `list_remove` unlinks it without
looking at the ends of the list. -/
def inner (lvls : List PriceLevel) (id : Nat) : Bool :=
  lvls.tail.dropLast.any (·.has id)

/-- `book_.remove_order` on whatever order it is given. A stop order is unlinked from its
stop level; when that empties the level, `unlink_level` takes it out of its list with the ends of
the bid or ask list, where it is not. -/
def Engine.bookRemoveOrder (order : Order) (e : Engine D) : Outcome D (Bool × Engine D) :=
  if holds (e.book order.side) order.id then .ok (e.removeOrder order)
  else if holds (e.stopBook order.side) order.id then
    let freed := (unlinkFrom order (e.stopBook order.side)).2
    if freed && !inner (e.stopBook order.side) order.id then .error (.foreignLevel, e)
    else .ok (freed, e.removeStop order)
  else .error (.dangling, e)

/-- `stop_book_.remove_stop` on whatever order it is given. -/
def Engine.stopBookRemoveStop (order : Order) (e : Engine D) : Outcome D (Engine D) :=
  if holds (e.stopBook order.side) order.id then .ok (e.removeStop order)
  else if holds (e.book order.side) order.id then
    let r := e.removeOrder order
    if r.1 && !inner (e.book order.side) order.id then .error (.foreignLevel, e) else .ok r.2
  else .error (.dangling, e)

def Engine.setSessionState (X : Exchange D) (newState : SessionState) (ts : Int)
    (e : Engine D) : Engine D :=
  if e.currentState = newState then e
  else if !X.onSessionTransition e.derived e.currentState newState ts then e
  else
    let e := { e with currentState := newState }.emit (.marketStatus newState ts)
    if newState = .continuous ∧ e.lastTradePrice > 0 then
      { e with viReferencePrice := e.lastTradePrice }
    else e

def Engine.unlockLimit (ts : Int) (e : Engine D) : Engine D :=
  if e.currentState ≠ .lockLimit then e
  else { e with currentState := .continuous }.emit (.marketStatus .continuous ts)

def Engine.atUpperLimit (e : Engine D) : Bool :=
  decide (e.config.dailyLimitHigh > 0) && decide (e.lastTradePrice ≥ e.config.dailyLimitHigh)

def Engine.atLowerLimit (e : Engine D) : Bool :=
  decide (e.config.dailyLimitLow > 0) && decide (e.lastTradePrice ≤ e.config.dailyLimitLow)

/-- Entering the lock, then the hook, which may resume. -/
def Engine.enterLockLimit (X : Exchange D) (ts : Int) (e : Engine D) : Engine D :=
  let side := if e.atUpperLimit then Side.buy else Side.sell
  let limit := if e.atUpperLimit then e.config.dailyLimitHigh else e.config.dailyLimitLow
  let e := e.emit (.lockLimitTriggered side limit e.lastTradePrice ts)
  let e := { e with currentState := .lockLimit }.emit (.marketStatus .lockLimit ts)
  let r := X.onDailyLimitHit e.derived e.config side limit ts
  let e := { e with derived := r.derived, config := r.config }
  match r.resume with
  | none => e
  | some s => e.setSessionState X s ts

def Engine.checkDailyLimitHit (X : Exchange D) (ts : Int) (e : Engine D) :
    Bool × Engine D :=
  if e.currentState = .lockLimit then (true, e)
  else if !e.atUpperLimit && !e.atLowerLimit then (false, e)
  else (true, e.enterLockLimit X ts)

def Engine.checkVolatilityInterruption (X : Exchange D) (ts : Int) (e : Engine D) :
    Bool × Engine D :=
  if e.currentState ≠ .continuous then (false, e)
  else if e.viReferencePrice = 0 then (false, e)
  else if !X.shouldTriggerVolatilityAuction e.derived e.lastTradePrice e.viReferencePrice then
    (false, e)
  else (true, { e with currentState := .volatilityAuction }.emit (.marketStatus .volatilityAuction ts))

end ExchangeSim
