import ExchangeSim.Runs
import ExchangeSim.Inversions

namespace ExchangeSim

variable {D : Type}

/-- An engine inside an operation. `flight` is the order the operation works on while no
book holds it. -/
structure World (D : Type) where
  engine : Engine D
  flight : Option Order := none

/-- Entries that report nothing about orders, books and trades. -/
def JournalEntry.quiet : JournalEntry → Bool
  | .action _ => true
  | .event (.orderRejected ..) => true
  | .event (.orderCancelRejected ..) => true
  | .event (.orderModifyRejected ..) => true
  | .event (.indicativePrice ..) => true
  | .event (.lockLimitTriggered ..) => true
  | _ => false

def currentAction (journal : List JournalEntry) : Option Action :=
  journal.foldl (fun current entry => match entry with
    | .action a => some a
    | .event _ => current) none

/-- One fill on its own: the engine as it is before the resting order changes. `reported` is
the aggressor's remaining quantity as the fill report gives it. -/
def Engine.bookFill (X : Exchange D) (ts : Int) (order resting : Order) (f : FillResult)
    (reported : Int) (e : Engine D) : Engine D :=
  let resting := resting.fill f.quantity
  let order := { order with
    filledQuantity := order.filledQuantity + f.quantity
    remainingQuantity := reported }
  ((e.fillResting order.side.opposite resting.id f.quantity).bookTrade X ts order f
    resting).closeResting ts f resting

/-- An auction fill with the cleanup of both sides. -/
def Engine.bookCross (X : Exchange D) (price ts : Int) (bid ask : Order) (q : Int)
    (e : Engine D) : Engine D :=
  let e := e.auctionTrade X price ts (bid.fill q) (ask.fill q) q
  let e := (e.auctionAdvance (bid.fill q) none ts).2
  (e.auctionAdvance (ask.fill q) none ts).2

/-- The elementary changes every operation is made of. -/
inductive Move (D : Type)
  | note (tracker : RateTracker) (entries : List JournalEntry)
  | accept (req : OrderRequest) (slot : SlotResidue) (pool : ObjectPool SlotResidue)
  | adjust (order : Order) (remaining : Int)
  | fill (ts : Int) (order resting : Order) (f : FillResult) (left reported : Int)
  | cancelResting (ts : Int) (order resting : Order) (f : FillResult) (notify : Bool)
  | drop (order : Order) (ts : Int) (reason : CancelReason)
  | finish (order : Order)
  | rest (order : Order) (ts : Int)
  | park (order : Order) (stopPrice : Int)
  | trigger (stop : Order)
  | pull (order : Order) (req : ModifyRequest)
  | cancel (order : Order) (ts : Int) (reason : CancelReason)
  | cancelStop (order : Order) (ts : Int) (reason : CancelReason)
  | amend (order : Order) (req : ModifyRequest)
  | cross (price ts : Int) (bid ask : Order) (q : Int)
  | markBusted (tradeId : Nat)
  | unfill (order : Order) (q : Int)
  | bust (tradeId : Nat) (record : TradeRecord) (reason : BustReason) (ts : Int)
  | topOfBook (ts : Int)
  | session (state : SessionState) (ts : Int)
  | reference (price : Int)
  | hook (derived : D) (config : EngineConfig)

def Move.run (X : Exchange D) : Move D → World D → World D
  | .note tracker entries, W =>
    { W with engine := { W.engine with
      rateTracker := tracker
      journal := W.engine.journal ++ entries } }
  | .accept req slot pool, W =>
    let order := W.engine.buildOrder X req slot
    ⟨W.engine.acceptOrder order pool req.timestamp, some order⟩
  | .adjust order remaining, W => ⟨W.engine, some { order with remainingQuantity := remaining }⟩
  | .fill ts order resting f left reported, W =>
    ⟨W.engine.bookFill X ts order resting f reported,
      some { order with
        filledQuantity := order.filledQuantity + f.quantity
        remainingQuantity := left }⟩
  | .cancelResting ts order resting f notify, W =>
    let r := W.engine.cancelResting ts f resting
    ⟨if notify then W.engine.notifyCancelled ts f resting r else r.2, some order⟩
  | .drop order ts reason, W => ⟨W.engine.dropOrder order ts reason, none⟩
  | .finish order, W => ⟨W.engine.release order, none⟩
  | .rest order ts, W => ⟨W.engine.insertIntoBook order ts, none⟩
  | .park order stopPrice, W => ⟨W.engine.insertIntoStopBook order stopPrice, none⟩
  | .trigger stop, W => ⟨W.engine.removeStop stop, some stop.triggered⟩
  | .pull order req, W =>
    let r := W.engine.removeOrder order
    ⟨r.2.reportPull order req r.1, some (order.replaced req)⟩
  | .cancel order ts reason, W =>
    let r := W.engine.removeOrder order
    { W with engine := r.2.reportCancel order ts reason r.1 }
  | .cancelStop order ts reason, W =>
    { W with engine := (W.engine.removeStop order).dropOrder order ts reason }
  | .amend order req, W => { W with engine := W.engine.amendOrder order req }
  | .cross price ts bid ask q, W =>
    { W with engine := W.engine.bookCross X price ts bid ask q }
  | .markBusted id, W =>
    { W with engine := { W.engine with tradeRegistry := W.engine.tradeRegistry.markBusted id } }
  | .unfill order q, W => { W with engine := W.engine.adjustOrder order (·.fill (-q)) q }
  | .bust id record reason ts, W =>
    { W with engine := W.engine.reportBust X id record reason ts }
  | .topOfBook ts, W => { W with engine := W.engine.fireTopOfBook ts }
  | .session state ts, W =>
    { W with engine := { W.engine with currentState := state }.emit (.marketStatus state ts) }
  | .reference price, W => { W with engine := { W.engine with viReferencePrice := price } }
  | .hook derived config, W =>
    { W with engine := { W.engine with derived := derived, config := config } }

def Engine.rests (e : Engine D) (order : Order) : Prop :=
  order ∈ ordersIn (e.book order.side)

def Engine.waits (e : Engine D) (order : Order) : Prop :=
  order ∈ ordersIn (e.stopBook order.side)

/-- The order is one that trades: a triggered stop has become a limit or a market order. -/
def Order.Entered (order : Order) : Prop :=
  order.type = .limit ∨ order.type = .market

/-- A fill meets the best level of the opposite side. -/
structure Engine.Meets (e : Engine D) (order resting : Order) (f : FillResult) : Prop where
  best : ∃ level deeper, e.book order.side.opposite = level :: deeper ∧
    resting ∈ level.orders ∧ f.price = level.price
  named : f.restingOrder = resting.id
  remaining : f.restingRemaining = resting.remainingQuantity - f.quantity
  allowed : order.allows f.price = true
  entered : order.Entered

def Move.guard (X : Exchange D) : Move D → World D → Prop
  | .note _ entries, _ => ∀ x ∈ entries, x.quiet = true
  | .accept req slot pool, W => W.flight = none ∧
    W.engine.orderPool.allocate = some (slot, pool) ∧
    firstFailure (W.engine.newOrderChecks X req) = none ∧
    currentAction W.engine.journal = some (.newOrder req)
  | .adjust order _, W => W.flight = some order
  | .fill _ order resting f _ _, W => W.flight = some order ∧ W.engine.Meets order resting f
  | .cancelResting _ order resting f _, W => W.flight = some order ∧
    W.engine.rests resting ∧ resting.side = order.side.opposite ∧ f.price = resting.price
  | .drop order _ _, W => W.flight = some order
  | .finish order, W => W.flight = some order ∧ order.remainingQuantity = 0
  | .rest order _, W => W.flight = some order ∧ order.type = .limit ∧
    order.remainingQuantity ≠ 0
  | .park order stopPrice, W => W.flight = some order ∧ order.type.isStop = true ∧
    (order.type = .stop → order.price = stopPrice) ∧ order.remainingQuantity ≠ 0
  | .trigger stop, W => W.flight = none ∧ 0 < W.engine.lastTradePrice ∧
    W.engine.nextTriggeredStop = some stop
  | .pull order _, W => W.flight = none ∧ W.engine.rests order
  | .cancel order _ _, W => W.flight = none ∧ W.engine.rests order
  | .cancelStop order _ _, W => W.flight = none ∧ W.engine.waits order
  | .amend order req, W => W.flight = none ∧ W.engine.rests order ∧
    order.filledQuantity < req.newQuantity ∧ req.newQuantity < order.quantity ∧
    req.newPrice = order.price
  | .cross price _ bid ask _, W => W.flight = none ∧
    W.engine.rests bid ∧ bid.side = .buy ∧ price ≤ bid.price ∧
    W.engine.rests ask ∧ ask.side = .sell ∧ ask.price ≤ price
  | .markBusted _, W => W.flight = none
  | .unfill order _, W => W.flight = none ∧ (W.engine.rests order ∨ W.engine.waits order)
  | .bust .., W => W.flight = none
  | .topOfBook _, _ => True
  | .session .., _ => True
  | .reference _, _ => True
  | .hook .., _ => True

/-- The quantities of a move add up: no fill is empty or larger than the two orders, and a
replacement asks for no less than has been filled. -/
def Move.exact : Move D → Prop
  | .adjust order remaining => remaining = order.remainingQuantity
  | .fill _ order _ f left _ => 0 < f.quantity ∧ 0 ≤ f.restingRemaining ∧
    f.quantity ≤ order.remainingQuantity ∧ left = order.remainingQuantity - f.quantity
  | .pull order req => order.filledQuantity ≤ req.newQuantity
  | .cross _ _ bid ask q => 0 < q ∧ q ≤ bid.remainingQuantity ∧ q ≤ ask.remainingQuantity
  | .unfill _ q => 0 < q
  | _ => True

def machine (X : Exchange D) : Machine (World D) (Move D) where
  run := Move.run X
  guard := Move.guard X

end ExchangeSim
