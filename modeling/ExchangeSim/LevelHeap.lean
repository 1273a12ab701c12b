import ExchangeSim.Blotter

/-!
The level lists as the code links them. The engine keeps its four level lists apart, which is what
the pointers say as long as a level leaves the list it is in. `modify_order` takes a waiting stop
out with the ends of the bid or ask list, and `cancel_order` takes it out again as a stop; here a
list is a head, a tail and the hooks in the slots of the level pool, and such a run goes on.
-/

namespace ExchangeSim

variable {D : Type}

/-- A slot of the level pool with its list hooks. -/
structure LevelSlot where
  level : PriceLevel := ⟨0, 0, 0, []⟩
  prev : Option Nat := none
  next : Option Nat := none

structure LevelEnds where
  head : Option Nat := none
  tail : Option Nat := none
  deriving DecidableEq

/-- The engine with its levels in the slots of their pool. The lists of `engine` itself stay
empty, and the depth and top of book events are left out. -/
structure LevelHeap (D : Type) where
  engine : Engine D
  slots : Nat → LevelSlot := fun _ => {}
  ends : Shelf → Side → LevelEnds := fun _ _ => {}
  free : List Nat

namespace LevelHeap

def setSlot (i : Nat) (f : LevelSlot → LevelSlot) (h : LevelHeap D) : LevelHeap D :=
  { h with slots := Function.update h.slots i (f (h.slots i)) }

def setLevel (i : Nat) (f : PriceLevel → PriceLevel) : LevelHeap D → LevelHeap D :=
  setSlot i fun c => { c with level := f c.level }

def setEnds (k : Shelf) (s : Side) (f : LevelEnds → LevelEnds) (h : LevelHeap D) : LevelHeap D :=
  { h with ends := Function.update h.ends k (Function.update (h.ends k) s (f (h.ends k s))) }

def listPushBack (k : Shelf) (s : Side) (i : Nat) (h : LevelHeap D) : LevelHeap D :=
  let tail := (h.ends k s).tail
  let h := h.setSlot i fun c => { c with prev := tail, next := none }
  let h := match tail with
    | some t => h.setSlot t fun c => { c with next := some i }
    | none => h.setEnds k s fun l => { l with head := some i }
  h.setEnds k s fun l => { l with tail := some i }

def listInsertBefore (k : Shelf) (s : Side) (before i : Nat) (h : LevelHeap D) : LevelHeap D :=
  let prev := (h.slots before).prev
  let h := h.setSlot i fun c => { c with prev, next := some before }
  let h := match prev with
    | some p => h.setSlot p fun c => { c with next := some i }
    | none => h.setEnds k s fun l => { l with head := some i }
  h.setSlot before fun c => { c with prev := some i }

def listRemove (k : Shelf) (s : Side) (i : Nat) (h : LevelHeap D) : LevelHeap D :=
  let prev := (h.slots i).prev
  let next := (h.slots i).next
  let h := match prev with
    | some p => h.setSlot p fun c => { c with next }
    | none => h.setEnds k s fun l => { l with head := next }
  let h := match next with
    | some n => h.setSlot n fun c => { c with prev }
    | none => h.setEnds k s fun l => { l with tail := prev }
  h.setSlot i fun c => { c with prev := none, next := none }

/-- A level with a neighbour on either side leaves the ends of every list alone. -/
theorem listRemove_ends {h : LevelHeap D} {i p n : Nat} (hp : (h.slots i).prev = some p)
    (hn : (h.slots i).next = some n) (k : Shelf) (s : Side) :
    (h.listRemove k s i).ends = h.ends := by
  simp [listRemove, hp, hn, setSlot]

/-- A level alone in its list empties the list it is removed from, whichever list it is in. -/
theorem listRemove_alone {h : LevelHeap D} {i : Nat} (hp : (h.slots i).prev = none)
    (hn : (h.slots i).next = none) (k : Shelf) (s : Side) :
    (h.listRemove k s i).ends k s = {} ∧
      ∀ k' s', (k', s') ≠ (k, s) → (h.listRemove k s i).ends k' s' = h.ends k' s' := by
  refine ⟨by simp [listRemove, hp, hn, setSlot, setEnds], fun k' s' hne => ?_⟩
  by_cases hk : k' = k
  · subst hk
    have hs : s' ≠ s := fun hs => hne (by rw [hs])
    simp [listRemove, hp, hn, setSlot, setEnds, hs]
  · simp [listRemove, hp, hn, setSlot, setEnds, hk]

/-- The slots from one on, as `next` links them. -/
def walk (h : LevelHeap D) : Nat → Option Nat → List Nat
  | n + 1, some i => i :: h.walk n (h.slots i).next
  | _, _ => []

section operations

/- The pool's slots lie at `address`. -/
variable (X : Exchange D) (address : Nat → Int) (fuel : Nat) (ts : Int)

def list (k : Shelf) (s : Side) (h : LevelHeap D) : List Nat :=
  h.walk X.maxPriceLevels (h.ends k s).head

def findLevel (k : Shelf) (s : Side) (price : Int) (h : LevelHeap D) : Option Nat :=
  (h.list X k s).find? fun i => decide ((h.slots i).level.price = price)

def linkLevel (k : Shelf) (s : Side) (i : Nat) (h : LevelHeap D) : LevelHeap D :=
  let before := match k with
    | .limit => bookBefore s
    | .stop => stopBefore s
  match (h.list X k s).find? fun j => before (h.slots i).level.price (h.slots j).level.price with
  | some j => h.listInsertBefore k s j i
  | none => h.listPushBack k s i

/-- `insert_into_book` and `insert_into_stop_book`. A slot that is not needed goes back as it
was. -/
def insert (k : Shelf) (key : Int) (order : Order) (h : LevelHeap D) : LevelHeap D :=
  match h.free, h.findLevel X k order.side key with
  | [], _ => { h with engine := h.engine.dropOrder order ts .levelPoolExhausted }
  | _, some j => h.setLevel j (·.append order)
  | i :: free, none =>
    let lv := PriceLevel.append ⟨key, 0, 0, []⟩ order
    ({ h with free }.setSlot i fun _ => { level := lv }).linkLevel X k order.side i

/-- `order->level`. -/
def slotOf (id : Nat) (h : LevelHeap D) : Option Nat :=
  (List.range X.maxPriceLevels).find? fun i => (h.slots i).level.has id

def indexed (id : Nat) (h : LevelHeap D) : Option Order :=
  (h.slotOf X id).bind fun i => (h.slots i).level.orders.find? (·.id == id)

/-- The freed slot keeps the link of the free list in its first word, which is the price. -/
def deallocate (i : Nat) (h : LevelHeap D) : LevelHeap D :=
  { h.setLevel i fun l => { l with price := (h.free.head?.map address).getD 0 } with
    free := i :: h.free }

/-- `remove_order` and `remove_stop`: the first unlinks an empty level on the order's side, the
second looks for it among the buy stops. -/
def remove (k : Shelf) (order : Order) (h : LevelHeap D) : LevelHeap D :=
  match h.slotOf X order.id with
  | none => h
  | some i =>
    let h := h.setLevel i (·.unlink order)
    let side := match k with
      | .limit => order.side
      | .stop => if i ∈ h.list X .stop .buy then .buy else .sell
    if (h.slots i).level.orderCount = 0 then (h.listRemove k side i).deallocate address i else h

/-- A fill of a level pass; a resting order that is filled leaves its level. -/
def bookFill (order : Order) (h : LevelHeap D) (fill : FillResult) : LevelHeap D :=
  match h.slotOf X fill.restingOrder, h.indexed X fill.restingOrder with
  | some i, some resting =>
    let h := { h with engine := h.engine.bookTrade X ts order fill resting }
    let h := h.setLevel i fun l => { l with totalQuantity := l.totalQuantity - fill.quantity }
    if fill.restingRemaining = 0 then
      let h := h.remove X address .limit resting
      { h with engine := h.engine.release resting }
    else h
  | _, _ => h

/-- `match_order` for orders good till cancelled that hide nothing, where no self-match is
prevented and no limit interrupts. -/
def matchOrder : Nat → Order → LevelHeap D → LevelHeap D
  | 0, _, h => h
  | fuel + 1, order, h =>
    match (h.ends .limit order.side.opposite).head.filter fun i =>
      decide (0 < order.remainingQuantity) && order.allows (h.slots i).level.price with
    | some i =>
      let m := X.algo.matchLevel (h.slots i).level order.remainingQuantity
      let filled := order.filledQuantity + (order.remainingQuantity - m.remaining)
      let order := { order with remainingQuantity := m.remaining, filledQuantity := filled }
      let h := h.setLevel i fun l => { l with orders := m.orders }
      matchOrder fuel order (m.results.foldl (bookFill X address ts order) h)
    | none =>
      if order.remainingQuantity = 0 then { h with engine := h.engine.release order }
      else if order.type = .market then
        { h with engine := h.engine.dropOrder order ts .iocRemainder }
      else h.insert X ts .limit order.price order

/-- The first level of stops of a side, if the last trade is at its price or beyond. -/
def triggeredLevel (s : Side) (h : LevelHeap D) : Option Nat :=
  (h.ends .stop s).head.filter fun i =>
    !stopBefore s h.engine.lastTradePrice (h.slots i).level.price

def nextTriggeredStop (h : LevelHeap D) : Option Order :=
  (h.triggeredLevel .buy <|> h.triggeredLevel .sell).bind fun i => (h.slots i).level.orders.head?

def checkAndTriggerStops : Nat → LevelHeap D → LevelHeap D
  | 0, h => h
  | rounds + 1, h =>
    match h.nextTriggeredStop with
    | none => h
    | some stop =>
      if h.engine.lastTradePrice ≤ 0 then h
      else checkAndTriggerStops rounds
        ((h.remove X address .stop stop).matchOrder X address ts fuel stop.triggered)

/-- `new_order`, `cancel_order` and a `modify_order` that cancels and replaces, in continuous
trading without a throttle. -/
def perform (a : Action) (h : LevelHeap D) : LevelHeap D :=
  let e := h.engine.record a
  let h := { h with engine := e }
  match a with
  | .newOrder req =>
    match firstFailure (e.newOrderChecks X req), e.orderPool.allocate with
    | none, some (slot, pool) =>
      let order := e.buildOrder X req slot
      let h := { h with engine := e.acceptOrder order pool req.timestamp }
      if req.type.isStop then h.insert X req.timestamp .stop req.stopPrice order
      else (h.matchOrder X address req.timestamp fuel order).checkAndTriggerStops X address fuel
        req.timestamp fuel
    | _, _ => h
  | .cancelOrder id ts =>
    match h.indexed X id with
    | none => h
    | some order =>
      let h := h.remove X address (if order.type.isStop then .stop else .limit) order
      { h with engine := h.engine.dropOrder order ts .userRequested }
  | .modifyOrder req =>
    match h.indexed X req.orderId, firstFailure (e.modifyChecks X req) with
    | some order, none =>
      ((h.remove X address .limit order).matchOrder X address req.timestamp fuel
        (order.replaced req)).checkAndTriggerStops X address fuel req.timestamp fuel
    | _, _ => h
  | _ => h

end operations

end LevelHeap

def stopRequest (account : Nat) (side : Side) (stopPrice : Int) : OrderRequest :=
  { limitRequest side 0 5 with accountId := account, type := .stop, stopPrice }

/-- A sell stop of account 1 is modified and cancelled, which leaves its level at the head of the
asks; the level is used again for a buy stop of account 2, and account 3 buys. -/
def strayLevelRun : LevelHeap Unit :=
  [.newOrder (stopRequest 1 .sell 90), .modifyOrder ⟨1, 0, 120, 5, 2⟩, .cancelOrder 1 3,
    .newOrder (stopRequest 2 .buy 100), .newOrder { limitRequest .buy 100 5 with accountId := 3 }].foldl
    (fun h a => h.perform sampleExchange (fun i => 94000000000000 + 56 * Int.ofNat i) 9 a)
    { engine := sampleStart sampleExchange sampleConfig (), free := List.range 8 }

/-- Account 3 buys from the waiting buy stop of account 2, which is tracked as a buyer as well. -/
theorem strayLevel_positions :
    strayLevelRun.engine.blotter.trades = [⟨100, 5, 3, 2, .buy, 1⟩] ∧
      strayLevelRun.engine.positions 2 = 5 ∧ strayLevelRun.engine.blotter.net 2 = -5 := by
  decide +kernel

end ExchangeSim
