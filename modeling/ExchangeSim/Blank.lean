import ExchangeSim.Inversions

/-!
Engines without the flags that order slots bring along. A function that does not touch the order
pool does the same to the blanked engine.
-/

namespace ExchangeSim

open Engine List Function PriceLevel

variable {D : Type} {b : Bool} {past : List JournalEntry} {slots : List SlotResidue}

/-- An order without the top-order flag and, if `b`, without the market-maker flag. -/
@[simps]
def Order.blank (b : Bool) (o : Order) : Order :=
  { o with isTopOrder := false, isMarketMaker := !b && o.isMarketMaker }

@[simps]
def PriceLevel.blank (b : Bool) (l : PriceLevel) : PriceLevel :=
  { l with orders := l.orders.map (·.blank b) }

@[simps]
def Engine.blank (b : Bool) (past : List JournalEntry) (slots : List SlotResidue) (e : Engine D) :
    Engine D :=
  { e with
    book := fun s => (e.book s).map (·.blank b)
    stopBook := fun s => (e.stopBook s).map (·.blank b)
    orderPool := ⟨slots, e.orderPool.allocated⟩
    journal := past ++ e.journal }

section orders

variable (o : Order)

@[simp] theorem fill_blank (q : Int) : (o.blank b).fill q = (o.fill q).blank b := rfl

@[simp] theorem allows_blank (price : Int) : (o.blank b).allows price = o.allows price := rfl

@[simp] theorem hasNextTranche_blank : (o.blank b).hasNextTranche = o.hasNextTranche := rfl

@[simp] theorem reportedRemaining_blank : (o.blank b).reportedRemaining = o.reportedRemaining := rfl

@[simp] theorem shouldExpire_blank (now : Int) (tif : TimeInForce) :
    (o.blank b).shouldExpire now tif = o.shouldExpire now tif := rfl

@[simp] theorem replaced_blank (req : ModifyRequest) :
    (o.blank b).replaced req = (o.replaced req).blank b := rfl

@[simp] theorem triggered_blank : (o.blank b).triggered = o.triggered.blank b := by
  unfold Order.triggered
  simp only [Order.blank_type]
  split <;> rfl

end orders

section levels

variable (l : PriceLevel) (o : Order) (lvls : List PriceLevel) (id : Nat)

@[simp] theorem has_blank : (l.blank b).has id = l.has id := by
  simp [has, comp_def]

theorem headId_blank : (l.blank b).orders.head?.map (·.id) = l.orders.head?.map (·.id) := by
  simp [comp_def]

@[simp] theorem append_blank : (l.blank b).append (o.blank b) = (l.append o).blank b := by
  simp [PriceLevel.append, PriceLevel.blank]

@[simp] theorem unlink_blank : (l.blank b).unlink (o.blank b) = (l.unlink o).blank b := by
  simp [PriceLevel.unlink, PriceLevel.blank, List.filter_map, Function.comp_def]

@[simp] theorem requeue_blank (next : Int) :
    (l.blank b).requeue (o.blank b) next = (l.requeue o next).blank b := by
  simp [PriceLevel.requeue, PriceLevel.blank, List.filter_map, Function.comp_def, Order.blank]

@[simp] theorem findLevel_blank (price : Int) :
    findLevel price (lvls.map (·.blank b)) = (findLevel price lvls).map (·.blank b) := by
  simp [findLevel, find?_map]

@[simp] theorem levelOf_blank :
    levelOf id (lvls.map (·.blank b)) = (levelOf id lvls).map (·.blank b) := by
  simp [levelOf, find?_map]

theorem onLevelOf_blank {f g : PriceLevel → PriceLevel}
    (h : ∀ l : PriceLevel, f (l.blank b) = (g l).blank b) :
    onLevelOf id f (lvls.map (·.blank b)) = (onLevelOf id g lvls).map (·.blank b) := by
  simp only [onLevelOf, map_map]
  refine map_congr_left fun l _ => ?_
  simp only [comp, has_blank, h]
  split <;> rfl

theorem less_blank (q : Int) :
    onLevelOf id (fun l => { l with totalQuantity := l.totalQuantity - q }) (lvls.map (·.blank b)) =
      (onLevelOf id (fun l => { l with totalQuantity := l.totalQuantity - q }) lvls).map
        (·.blank b) :=
  onLevelOf_blank lvls id fun _ => rfl

@[simp] theorem linkLevel_blank (before : Int → Int → Bool) :
    linkLevel before (l.blank b) (lvls.map (·.blank b)) =
      (linkLevel before l lvls).map (·.blank b) := by
  induction lvls with
  | nil => rfl
  | cons k ks ih =>
    unfold linkLevel at ih ⊢
    simp only [List.map_cons, orderedInsert_cons, blank_price]
    split
    · rfl
    · rw [List.map_cons, ih]

@[simp] theorem insertAt_blank (before : Int → Int → Bool) (key : Int) :
    insertAt before key (o.blank b) (lvls.map (·.blank b)) =
      ((insertAt before key o lvls).1.map (·.blank b), (insertAt before key o lvls).2) := by
  unfold insertAt
  rw [findLevel_blank]
  cases findLevel key lvls with
  | none =>
    have hnew : append ⟨key, 0, 0, []⟩ (o.blank b) =
        (append ⟨key, 0, 0, []⟩ o).blank b := rfl
    simp [hnew]
  | some k =>
    simp only [Option.map_some, map_map]
    refine Prod.ext (map_congr_left fun l _ => ?_) rfl
    simp only [comp, blank_price, append_blank]
    split <;> rfl

@[simp] theorem unlinkFrom_blank :
    unlinkFrom (o.blank b) (lvls.map (·.blank b)) =
      ((unlinkFrom o lvls).1.map (·.blank b), (unlinkFrom o lvls).2) := by
  unfold unlinkFrom
  simp only [Order.blank_id, levelOf_blank]
  cases levelOf o.id lvls with
  | none => rfl
  | some lv =>
    simp only [Option.map_some, blank_orderCount]
    split
    · simp [filter_map, comp_def]
    · rw [onLevelOf_blank lvls o.id fun l => unlink_blank l o]

@[simp] theorem ordersIn_blank :
    ordersIn (lvls.map (·.blank b)) = (ordersIn lvls).map (·.blank b) := by
  simp [ordersIn, flatMap_map, map_flatMap]

@[simp] theorem findOrder_blank :
    findOrder id (lvls.map (·.blank b)) = (findOrder id lvls).map (·.blank b) := by
  simp [findOrder, find?_map]

@[simp] theorem holds_blank : holds (lvls.map (·.blank b)) id = holds lvls id := by
  simp [holds, comp_def]

@[simp] theorem inner_blank : inner (lvls.map (·.blank b)) id = inner lvls id := by
  simp [inner, ← map_tail, ← map_dropLast, comp_def]

@[simp] theorem successor_blank : successor id (lvls.map (·.blank b)) = successor id lvls := by
  unfold successor
  rw [levelOf_blank]
  cases levelOf id lvls with
  | none => rfl
  | some lv =>
    simp [dropWhile_map, ← map_tail, comp_def]

@[simp] theorem candidatePrices_blank (book : Side → List PriceLevel) :
    candidatePrices (fun s => (book s).map (·.blank b)) = candidatePrices book := by
  have hprices : ((book .buy).map (·.blank b) ++ (book .sell).map (·.blank b)).map (·.price) =
      (book .buy ++ book .sell).map (·.price) := by
    simp [comp_def]
  rw [candidatePrices, hprices]
  rfl

@[simp] theorem calculateAuctionPrice_blank (book : Side → List PriceLevel) (reference : Int) :
    calculateAuctionPrice (fun s => (book s).map (·.blank b)) reference =
      calculateAuctionPrice book reference := by
  have hbuy : ∀ p, buyVolumeAt (fun s => (book s).map (·.blank b)) p = buyVolumeAt book p := by
    simp [buyVolumeAt, filter_map, comp_def]
  have hsell : ∀ p, sellVolumeAt (fun s => (book s).map (·.blank b)) p = sellVolumeAt book p := by
    simp [sellVolumeAt, filter_map, comp_def]
  have hstep : considerPrice (fun s => (book s).map (·.blank b)) reference =
      considerPrice book reference := by
    funext a p
    simp only [considerPrice, hbuy, hsell]
  rw [calculateAuctionPrice, calculateAuctionPrice, candidatePrices_blank, hstep]

@[simp] theorem computeMatchableQty_blank (book : Side → List PriceLevel) :
    computeMatchableQty (fun s => (book s).map (·.blank b)) (o.blank b) =
      computeMatchableQty book o := by
  simp [computeMatchableQty, takeWhile_map, comp_def]

end levels

section engine

variable (e : Engine D) (o : Order) (ts : Int)

theorem book_blank : (e.blank b past slots).book = fun s => (e.book s).map (·.blank b) := rfl

@[simp] theorem emit_blank (ev : Event) :
    (e.blank b past slots).emit ev = (e.emit ev).blank b past slots := by
  simp [Engine.emit, Engine.blank]

theorem update_blank (book : Side → List PriceLevel) (s : Side) (lvls : List PriceLevel) :
    update (fun s => (book s).map (·.blank b)) s (lvls.map (·.blank b)) =
      fun s' => (update book s lvls s').map (·.blank b) := by
  funext s'
  by_cases h : s' = s
  · subst h
    simp
  · simp [h]

@[simp] theorem setBook_blank (s : Side) (lvls : List PriceLevel) :
    (e.blank b past slots).setBook s (lvls.map (·.blank b)) = (e.setBook s lvls).blank b past slots := by
  simp [Engine.setBook, Engine.blank, update_blank]

@[simp] theorem setStopBook_blank (s : Side) (lvls : List PriceLevel) :
    (e.blank b past slots).setStopBook s (lvls.map (·.blank b)) =
      (e.setStopBook s lvls).blank b past slots := by
  simp [Engine.setStopBook, Engine.blank, update_blank]

@[simp] theorem bestPrice_blank (s : Side) : (e.blank b past slots).bestPrice s = e.bestPrice s := by
  simp [bestPrice, comp_def]

@[simp] theorem bestQty_blank (s : Side) : (e.blank b past slots).bestQty s = e.bestQty s := by
  simp [bestQty, comp_def]

@[simp] theorem deref_blank (id : Nat) :
    (e.blank b past slots).deref id = (e.deref id).map (·.blank b) := by
  simp [deref, linked, ← map_append, find?_map]

theorem release_blank : (e.blank b past slots).release (o.blank b) =
    (e.release o).blank b past (⟨!b && o.isMarketMaker, false⟩ :: slots) := rfl

@[simp] theorem fireTopOfBook_blank :
    (e.blank b past slots).fireTopOfBook ts = (e.fireTopOfBook ts).blank b past slots := by
  simp [fireTopOfBook]

@[simp] theorem fireTopOfBookIfChanged_blank (bid ask : Int) :
    (e.blank b past slots).fireTopOfBookIfChanged ts bid ask =
      (e.fireTopOfBookIfChanged ts bid ask).blank b past slots := by
  unfold fireTopOfBookIfChanged
  simp only [bestPrice_blank, fireTopOfBook_blank]
  split <;> rfl

@[simp] theorem fireDepth_blank (s : Side) (l : PriceLevel) (a : DepthAction) :
    (e.blank b past slots).fireDepth s (l.blank b) a ts =
      (e.fireDepth s l a ts).blank b past slots := by
  simp [fireDepth]

@[simp] theorem fireDepthRemove_blank (s : Side) (price : Int) :
    (e.blank b past slots).fireDepthRemove s price ts =
      (e.fireDepthRemove s price ts).blank b past slots := by
  simp [fireDepthRemove]

@[simp] theorem fireDepthOf_blank :
    (e.blank b past slots).fireDepthOf (o.blank b) ts =
      (e.fireDepthOf o ts).blank b past slots := by
  unfold fireDepthOf
  simp only [Order.blank_id, Order.blank_side, blank_book, levelOf_blank]
  cases levelOf o.id (e.book o.side) with
  | none => rfl
  | some l => simp

@[simp] theorem fireDepthAfterRemove_blank (freed : Bool) (s : Side) (price : Int) :
    (e.blank b past slots).fireDepthAfterRemove freed s price ts =
      (e.fireDepthAfterRemove freed s price ts).blank b past slots := by
  unfold fireDepthAfterRemove fireDepthAt
  simp only [blank_book, findLevel_blank, fireDepthRemove_blank]
  split
  · rfl
  · cases findLevel price (e.book s) with
    | none => rfl
    | some l => simp

theorem levelPool_blank (pool : ObjectPool Unit) :
    { e.blank b past slots with levelPool := pool } =
      ({ e with levelPool := pool } : Engine D).blank b past slots := rfl

@[simp] theorem removeOrder_blank :
    (e.blank b past slots).removeOrder (o.blank b) =
      ((e.removeOrder o).1, (e.removeOrder o).2.blank b past slots) := by
  unfold removeOrder
  simp only [Order.blank_side, blank_book, unlinkFrom_blank, setBook_blank]
  cases (unlinkFrom o (e.book o.side)).2 <;> rfl

@[simp] theorem removeStop_blank :
    (e.blank b past slots).removeStop (o.blank b) = (e.removeStop o).blank b past slots := by
  unfold removeStop
  simp only [Order.blank_side, blank_stopBook, unlinkFrom_blank, setStopBook_blank]
  cases (unlinkFrom o (e.stopBook o.side)).2 <;> rfl

@[simp] theorem revealTranche_blank :
    (e.blank b past slots).revealTranche (o.blank b) ts =
      (e.revealTranche o ts).blank b past slots := by
  unfold revealTranche
  simp only [Order.blank_side, Order.blank_id, Order.blank_displayQty, Order.blank_totalQty,
    Order.blank_filledQuantity, Order.blank_price, blank_book]
  rw [onLevelOf_blank _ _ fun l => requeue_blank l o _]
  simp

@[simp] theorem fillResting_blank (s : Side) (id : Nat) (q : Int) :
    (e.blank b past slots).fillResting s id q = (e.fillResting s id q).blank b past slots := by
  unfold fillResting
  rw [← setBook_blank]
  congr 1
  simp only [blank_book, map_map]
  refine map_congr_left fun l _ => ?_
  simp only [Function.comp, PriceLevel.blank, PriceLevel.mapOrders, List.map_map]
  congr 1
  refine List.map_congr_left fun x _ => ?_
  simp only [comp, Order.blank_id, fill_blank]
  split <;> rfl

@[simp] theorem undoFills_blank (s : Side) (fills : List FillResult) :
    (e.blank b past slots).undoFills s fills (o.blank b) =
      ((e.undoFills s fills o).1.blank b, (e.undoFills s fills o).2.blank b past slots) := by
  induction fills generalizing e o with
  | nil => rfl
  | cons f rest ih =>
    unfold undoFills
    rw [fillResting_blank]
    exact ih _ { o with remainingQuantity := o.remainingQuantity + f.quantity }

@[simp] theorem bookTrade_blank (X : Exchange D) (f : FillResult) (resting : Order) :
    (e.blank b past slots).bookTrade X ts (o.blank b) f (resting.blank b) =
      (e.bookTrade X ts o f resting).blank b past slots := by
  simp [Engine.bookTrade, Engine.blank, Engine.setBook, Engine.emit, less_blank, update_blank]

theorem adjustOrder_blank (f : Order → Order) (delta : Int)
    (h : ∀ x : Order, f (x.blank b) = (f x).blank b) :
    (e.blank b past slots).adjustOrder (o.blank b) f delta =
      (e.adjustOrder o f delta).blank b past slots := by
  have hadjust : ∀ l : PriceLevel,
      ({ l.blank b with
        orders := (l.blank b).orders.map fun x => if x.id = o.id then f x else x
        totalQuantity := (l.blank b).totalQuantity + delta } : PriceLevel) =
      ({ l with
        orders := l.orders.map fun x => if x.id = o.id then f x else x
        totalQuantity := l.totalQuantity + delta } : PriceLevel).blank b := by
    intro l
    simp only [PriceLevel.blank, List.map_map]
    congr 1
    refine List.map_congr_left fun x _ => ?_
    simp only [comp, Order.blank_id, h]
    split <;> rfl
  unfold adjustOrder
  simp only [Order.blank_side, Order.blank_id, blank_book, blank_stopBook]
  rw [onLevelOf_blank (e.stopBook o.side) _ hadjust, onLevelOf_blank (e.book o.side) _ hadjust,
    setBook_blank, setStopBook_blank]

@[simp] theorem auctionTrade_blank (X : Exchange D) (price : Int) (bid ask : Order) (q : Int) :
    (e.blank b past slots).auctionTrade X price ts (bid.blank b) (ask.blank b) q =
      (e.auctionTrade X price ts bid ask q).blank b past slots := by
  unfold auctionTrade
  simp only [fillResting_blank, Order.blank_id]
  simp [Engine.blank, Engine.setBook, Engine.emit, less_blank, update_blank]

@[simp] theorem levelHolding_blank :
    (e.blank b past slots).levelHolding (o.blank b) = (e.levelHolding o).map (·.blank b) := by
  simp [levelHolding, ← map_append]

@[simp] theorem amendOrder_blank (req : ModifyRequest) :
    (e.blank b past slots).amendOrder (o.blank b) req =
      (e.amendOrder o req).blank b past slots := by
  unfold amendOrder
  simp only [Order.blank_filledQuantity, Order.blank_remainingQuantity, Order.blank_id]
  rw [adjustOrder_blank e o _ _ (fun x => by rfl)]
  simp only [emit_blank, levelHolding_blank, Order.blank_side]
  cases levelHolding o _ with
  | none => rfl
  | some l => simp

@[simp] theorem triggeredLevel_blank (s : Side) :
    (e.blank b past slots).triggeredLevel s = (e.triggeredLevel s).map (·.blank b) := by
  unfold triggeredLevel
  simp only [blank_stopBook, blank_lastTradePrice]
  cases e.stopBook s with
  | nil => cases s <;> rfl
  | cons l rest =>
    cases s
    all_goals
      simp only [List.map_cons, blank_price]
      split <;> rfl

@[simp] theorem hasTriggeredStops_blank :
    (e.blank b past slots).hasTriggeredStops = e.hasTriggeredStops := by
  simp [hasTriggeredStops]

@[simp] theorem nextTriggeredStop_blank :
    (e.blank b past slots).nextTriggeredStop = e.nextTriggeredStop.map (·.blank b) := by
  unfold nextTriggeredStop
  simp only [triggeredLevel_blank]
  cases e.triggeredLevel .buy with
  | some l => simp
  | none =>
    cases e.triggeredLevel .sell with
    | some l => simp
    | none => rfl

theorem status_blank (s : SessionState) :
    { e.blank b past slots with currentState := s }.emit (.marketStatus s ts) =
      ({ e with currentState := s }.emit (.marketStatus s ts)).blank b past slots :=
  emit_blank { e with currentState := s } (.marketStatus s ts)

@[simp] theorem setSessionState_blank (X : Exchange D) (s : SessionState) :
    (e.blank b past slots).setSessionState X s ts =
      (e.setSessionState X s ts).blank b past slots := by
  -- the reference price is set with the new state
  let settle : Engine D → Engine D := fun e =>
    if s = .continuous ∧ e.lastTradePrice > 0 then { e with viReferencePrice := e.lastTradePrice }
    else e
  have hsettle : ∀ e : Engine D, settle (e.blank b past slots) = (settle e).blank b past slots := by
    intro e
    simp only [settle, blank_lastTradePrice]
    split <;> rfl
  unfold setSessionState
  simp only [blank_currentState, blank_derived]
  split
  · rfl
  · split
    · rfl
    · exact (congrArg settle (status_blank e ts s)).trans (hsettle _)

@[simp] theorem unlockLimit_blank :
    (e.blank b past slots).unlockLimit ts = (e.unlockLimit ts).blank b past slots := by
  unfold unlockLimit
  simp only [blank_currentState]
  split
  · rfl
  · exact status_blank e ts .continuous

@[simp] theorem atUpperLimit_blank : (e.blank b past slots).atUpperLimit = e.atUpperLimit := rfl

@[simp] theorem atLowerLimit_blank : (e.blank b past slots).atLowerLimit = e.atLowerLimit := rfl

/-- The hook's answer to a hit limit, as a function of the locked engine. -/
def answerLimit (X : Exchange D) (side : Side) (limit ts : Int) (e : Engine D) : Engine D :=
  let r := X.onDailyLimitHit e.derived e.config side limit ts
  let e := { e with derived := r.derived, config := r.config }
  match r.resume with
  | none => e
  | some s => e.setSessionState X s ts

theorem answerLimit_blank (X : Exchange D) (side : Side) (limit : Int) (e : Engine D) :
    answerLimit X side limit ts (e.blank b past slots) =
      (answerLimit X side limit ts e).blank b past slots := by
  unfold answerLimit
  simp only [blank_derived, blank_config]
  cases (X.onDailyLimitHit e.derived e.config side limit ts).resume with
  | none => rfl
  | some s =>
    let r := X.onDailyLimitHit e.derived e.config side limit ts
    exact setSessionState_blank { e with derived := r.derived, config := r.config } ts X s

@[simp] theorem enterLockLimit_blank (X : Exchange D) :
    (e.blank b past slots).enterLockLimit X ts = (e.enterLockLimit X ts).blank b past slots := by
  let side := if e.atUpperLimit then Side.buy else Side.sell
  let limit := if e.atUpperLimit then e.config.dailyLimitHigh else e.config.dailyLimitLow
  let hit : Event := .lockLimitTriggered side limit e.lastTradePrice ts
  have hlock : { (e.blank b past slots).emit hit with currentState := .lockLimit }.emit
      (.marketStatus .lockLimit ts) = ({ e.emit hit with currentState := .lockLimit }.emit
      (.marketStatus .lockLimit ts)).blank b past slots := by
    rw [emit_blank]
    exact status_blank (e.emit hit) ts .lockLimit
  exact (congrArg (answerLimit X side limit ts) hlock).trans (answerLimit_blank ts X side limit _)

@[simp] theorem checkDailyLimitHit_blank (X : Exchange D) :
    (e.blank b past slots).checkDailyLimitHit X ts =
      ((e.checkDailyLimitHit X ts).1, (e.checkDailyLimitHit X ts).2.blank b past slots) := by
  unfold checkDailyLimitHit
  simp only [blank_currentState, atUpperLimit_blank, atLowerLimit_blank,
    enterLockLimit_blank]
  split
  · rfl
  · split <;> rfl

@[simp] theorem checkVolatilityInterruption_blank (X : Exchange D) :
    (e.blank b past slots).checkVolatilityInterruption X ts =
      ((e.checkVolatilityInterruption X ts).1,
        (e.checkVolatilityInterruption X ts).2.blank b past slots) := by
  unfold checkVolatilityInterruption
  simp only [blank_currentState, blank_viReferencePrice, blank_derived,
    blank_lastTradePrice]
  split
  · rfl
  · split
    · rfl
    · split
      · rfl
      · exact Prod.ext rfl (status_blank e ts .volatilityAuction)

@[simp] theorem publishIndicativePrice_blank (reference : Int) :
    (e.blank b past slots).publishIndicativePrice reference ts =
      (e.publishIndicativePrice reference ts).blank b past slots := by
  unfold publishIndicativePrice
  simp only [book_blank, calculateAuctionPrice_blank, emit_blank]
  split <;> rfl

@[simp] theorem auctionNextLevel_blank (s : Side) (price current : Int) :
    (e.blank b past slots).auctionNextLevel s price current = e.auctionNextLevel s price current := by
  unfold auctionNextLevel
  simp only [blank_book, findLevel_blank]
  cases findLevel current (e.book s) with
  | none | some => simp [comp_def]


end engine

/-! What leaves the order pool alone. -/

section pool

variable (e : Engine D) (o : Order) (ts : Int)

@[simp] theorem orderPool_fireTopOfBookIfChanged (bid ask : Int) :
    (e.fireTopOfBookIfChanged ts bid ask).orderPool = e.orderPool := by
  unfold fireTopOfBookIfChanged
  split <;> rfl

@[simp] theorem orderPool_fireDepthOf : (e.fireDepthOf o ts).orderPool = e.orderPool := by
  unfold fireDepthOf
  split <;> rfl

@[simp] theorem orderPool_fireDepthAfterRemove (freed : Bool) (s : Side) (price : Int) :
    (e.fireDepthAfterRemove freed s price ts).orderPool = e.orderPool := by
  unfold fireDepthAfterRemove fireDepthAt
  split
  · rfl
  · split <;> rfl

@[simp] theorem orderPool_removeOrder : (e.removeOrder o).2.orderPool = e.orderPool := by
  unfold removeOrder
  dsimp only
  split <;> rfl

@[simp] theorem orderPool_removeStop : (e.removeStop o).orderPool = e.orderPool := by
  unfold removeStop
  dsimp only
  split <;> rfl

theorem orderPool_revealTranche : (e.revealTranche o ts).orderPool = e.orderPool :=
  orderPool_fireDepthOf _ o ts

@[simp] theorem orderPool_undoFills (s : Side) (fills : List FillResult) :
    (e.undoFills s fills o).2.orderPool = e.orderPool := by
  induction fills generalizing e o with
  | nil => rfl
  | cons f rest ih => exact ih _ _

@[simp] theorem orderPool_amendOrder (req : ModifyRequest) :
    (e.amendOrder o req).orderPool = e.orderPool := by
  unfold amendOrder
  dsimp only
  split <;> rfl

@[simp] theorem orderPool_publishIndicativePrice (reference : Int) :
    (e.publishIndicativePrice reference ts).orderPool = e.orderPool := by
  unfold publishIndicativePrice
  dsimp only
  split <;> rfl

end pool

theorem orderPool_session {X : Exchange D} {e e' : Engine D} {ts : Int} (h : SessionSteps X ts e e') :
    e'.orderPool = e.orderPool := by
  induction h with
  | refl => rfl
  | tail _ hstep ih => exact Eq.trans (by cases hstep <;> rfl) ih

end ExchangeSim
