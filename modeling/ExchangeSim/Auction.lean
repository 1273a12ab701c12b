import ExchangeSim.Matching

namespace ExchangeSim

variable {D : Type}

def buyVolumeAt (book : Side → List PriceLevel) (p : Int) : Int :=
  (((book .buy).filter (fun l => decide (l.price ≥ p))).map (·.totalQuantity)).sum

def sellVolumeAt (book : Side → List PriceLevel) (p : Int) : Int :=
  (((book .sell).filter (fun l => decide (l.price ≤ p))).map (·.totalQuantity)).sum

structure AuctionSearch where
  best : AuctionResult := {}
  bestImbalance : Int := 0
  bestRefDist : Int := 0
  deriving DecidableEq, Repr

/-- Most volume, then least imbalance, then nearest to the reference, then highest. -/
def AuctionSearch.improvedBy (a : AuctionSearch) (matched imbalance : Int)
    (refDist p : Int) : Bool :=
  !a.best.hasPrice || decide (matched > a.best.matchedVolume) ||
    (decide (matched = a.best.matchedVolume) && (decide (imbalance < a.bestImbalance) ||
      (decide (imbalance = a.bestImbalance) && (decide (refDist < a.bestRefDist) ||
        (decide (refDist = a.bestRefDist) && decide (p > a.best.price))))))

def considerPrice (book : Side → List PriceLevel) (referencePrice : Int) (a : AuctionSearch)
    (p : Int) : AuctionSearch :=
  let buyVol := buyVolumeAt book p
  let sellVol := sellVolumeAt book p
  let matched := min buyVol sellVol
  let imbalance : Int := (buyVol - sellVol).natAbs
  let refDist : Int := (p - referencePrice).natAbs
  if matched = 0 then a
  else if a.improvedBy matched imbalance refDist p then
    { best := ⟨p, matched, buyVol - matched, sellVol - matched, true⟩
      bestImbalance := imbalance
      bestRefDist := refDist }
  else a

/-- Every level price of both sides, ascending and without repetition. -/
def candidatePrices (book : Side → List PriceLevel) : List Int :=
  (((book .buy ++ book .sell).map (·.price)).insertionSort (· ≤ ·)).destutter (· ≠ ·)

def calculateAuctionPrice (book : Side → List PriceLevel) (referencePrice : Int) :
    AuctionResult :=
  ((candidatePrices book).foldl (considerPrice book referencePrice) {}).best

/-- `order->next`. -/
def successor (id : Nat) (lvls : List PriceLevel) : Option Nat :=
  match levelOf id lvls with
  | none => none
  | some lv => ((lv.orders.dropWhile (·.id != id)).tail.head?).map (·.id)

/-- Remaining quantity as reported: that of the tranche to come, if there is one. -/
def Order.reportedRemaining (o : Order) : Int :=
  if o.remainingQuantity = 0 ∧ o.hasNextTranche then
    min o.displayQty (o.totalQty - o.filledQuantity)
  else o.remainingQuantity

/-- One auction fill of a bid and an ask, both as they are after it. -/
def Engine.auctionTrade (X : Exchange D) (auctionPrice : Int) (ts : Int)
    (bid ask : Order) (q : Int) (e : Engine D) : Engine D :=
  let e := (e.fillResting .buy bid.id q).fillResting .sell ask.id q
  let e := { e with
    positions := updateFill X.maxAccounts ask.accountId .sell q
      (updateFill X.maxAccounts bid.accountId .buy q e.positions)
    lastTradePrice := auctionPrice }
  let less := fun l : PriceLevel => { l with totalQuantity := l.totalQuantity - q }
  let e := e.setBook .buy (onLevelOf bid.id less (e.book .buy))
  let e := e.setBook .sell (onLevelOf ask.id less (e.book .sell))
  let bidDone := decide (bid.remainingQuantity = 0) && !bid.hasNextTranche
  let askDone := decide (ask.remainingQuantity = 0) && !ask.hasNextTranche
  let e := e.emit
    (if bidDone && askDone then .orderFilled bid.id ask.id auctionPrice q ts
    else .orderPartiallyFilled bid.id ask.id auctionPrice q bid.reportedRemaining
      ask.reportedRemaining ts)
  let e := e.emit (.trade ⟨auctionPrice, q, bid.id, ask.id, .buy, ts⟩)
  let registry := e.tradeRegistry.record X.maxOrderIds bid.id ask.id auctionPrice q ts .buy
    bid.accountId ask.accountId
  let e := { e with tradeRegistry := registry }
  let e := e.emit (.orderBookAction ⟨bid.id, .buy, auctionPrice, q, .fill, ts⟩)
  e.emit (.orderBookAction ⟨ask.id, .sell, auctionPrice, q, .fill, ts⟩)

/-- The flag says that the order stays in the book. -/
def Engine.auctionHandleFilledOrder (order : Order) (ts : Int) (e : Engine D) :
    Bool × Engine D :=
  if order.hasNextTranche then (true, e.revealTranche order ts)
  else
    let r := e.removeOrder order
    (false, (r.2.fireDepthAfterRemove r.1 order.side order.price ts).release order)

/-- Cleanup of one side after an auction fill: the order to go on with, if any. -/
def Engine.auctionAdvance (order : Order) (next : Option Nat) (ts : Int)
    (e : Engine D) : Option Nat × Engine D :=
  if order.remainingQuantity = 0 then
    let r := e.auctionHandleFilledOrder order ts
    (if r.1 then some order.id else next, r.2)
  else (some order.id, e)

/-- The orders of one bid level against those of one ask level; returns what is left to
fill. -/
def Engine.auctionLevel (X : Exchange D) (auctionPrice : Int) (ts : Int) :
    Nat → Int → Option Nat → Option Nat → Engine D → Outcome D (Int × Engine D)
  | fuel, left, some bidId, some askId, e =>
    if left ≤ 0 then .ok (left, e)
    else match fuel, findOrder bidId (e.book .buy), findOrder askId (e.book .sell) with
      | 0, _, _ => .error (.outOfFuel, e)
      | fuel + 1, some bid, some ask =>
        let q := min left (min bid.remainingQuantity ask.remainingQuantity)
        let nextBid := successor bidId (e.book .buy)
        let nextAsk := successor askId (e.book .sell)
        let e := e.auctionTrade X auctionPrice ts (bid.fill q) (ask.fill q) q
        let b := e.auctionAdvance (bid.fill q) nextBid ts
        let a := b.2.auctionAdvance (ask.fill q) nextAsk ts
        Engine.auctionLevel X auctionPrice ts fuel (left - q) b.1 a.1 a.2
      | _ + 1, _, _ => .error (.dangling, e)
  | _, left, _, _, e => .ok (left, e)

/-- The level to go on with: the best one if the current level was used up (a freed level
still reads `order_count == 0`), none if it lies beyond the auction price. -/
def Engine.auctionNextLevel (s : Side) (auctionPrice current : Int) (e : Engine D) :
    Option Int :=
  match findLevel current (e.book s) with
  | none => (e.book s).head?.map (·.price)
  | some lv =>
    if lv.orderCount = 0 ∨ lv.orders = [] then (e.book s).head?.map (·.price)
    else if bookBefore s auctionPrice lv.price then none
    else some lv.price

def Engine.auctionLoop (X : Exchange D) (auctionPrice : Int) (ts : Int) (fuel : Nat) :
    Nat → Int → Option Int → Option Int → Engine D → Outcome D (Engine D)
  | rounds, left, some bidPrice, some askPrice, e =>
    if left ≤ 0 ∨ bidPrice < auctionPrice ∨ askPrice > auctionPrice then .ok e
    else match rounds, findLevel bidPrice (e.book .buy), findLevel askPrice (e.book .sell) with
      | 0, _, _ => .error (.outOfFuel, e)
      | rounds + 1, some bidLevel, some askLevel =>
        match e.auctionLevel X auctionPrice ts fuel left (bidLevel.orders.head?.map (·.id))
            (askLevel.orders.head?.map (·.id)) with
        | .error err => .error err
        | .ok (left, e) =>
          Engine.auctionLoop X auctionPrice ts fuel rounds left
            (e.auctionNextLevel .buy auctionPrice bidPrice)
            (e.auctionNextLevel .sell auctionPrice askPrice) e
      | _ + 1, _, _ => .error (.dangling, e)
  | _, _, _, _, e => .ok e

def Engine.executeAuction (X : Exchange D) (fuel : Nat) (referencePrice : Int) (ts : Int)
    (e : Engine D) : Outcome D (Engine D) :=
  let r := calculateAuctionPrice e.book referencePrice
  if !r.hasPrice ∨ r.matchedVolume = 0 then .ok e
  else match e.auctionLoop X r.price ts fuel fuel r.matchedVolume
      ((e.book .buy).head?.map (·.price)) ((e.book .sell).head?.map (·.price)) with
    | .error err => .error err
    | .ok e => .ok { e.fireTopOfBook ts with viReferencePrice := r.price }

def Engine.publishIndicativePrice (referencePrice : Int) (ts : Int) (e : Engine D) :
    Engine D :=
  let r := calculateAuctionPrice e.book referencePrice
  if r.hasPrice then
    e.emit (.indicativePrice r.price r.matchedVolume r.buySurplus r.sellSurplus ts)
  else e

end ExchangeSim
