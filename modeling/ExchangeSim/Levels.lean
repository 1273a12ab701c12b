import ExchangeSim.Types
import Mathlib.Data.List.Sort

namespace ExchangeSim

def PriceLevel.has (l : PriceLevel) (id : Nat) : Bool :=
  l.orders.any (·.id == id)

/-- `list_push_back` of an order with the level's totals. -/
def PriceLevel.append (l : PriceLevel) (order : Order) : PriceLevel :=
  { l with
    orders := l.orders ++ [order]
    totalQuantity := l.totalQuantity + order.remainingQuantity
    orderCount := l.orderCount + 1 }

/-- `list_remove` of an order with the level's totals. -/
def PriceLevel.unlink (l : PriceLevel) (order : Order) : PriceLevel :=
  { l with
    orders := l.orders.filter (·.id != order.id)
    totalQuantity := l.totalQuantity - order.remainingQuantity
    orderCount := l.orderCount - 1 }

/-- A revealed tranche: the order shows `next` and moves to the back of its level. -/
def PriceLevel.requeue (l : PriceLevel) (order : Order) (next : Int) : PriceLevel :=
  { l with
    orders := l.orders.filter (·.id != order.id) ++ [{ order with remainingQuantity := next }]
    totalQuantity := l.totalQuantity + next }

def PriceLevel.mapOrders (f : Order → Order) (l : PriceLevel) : PriceLevel :=
  { l with orders := l.orders.map f }

/-- Bids are kept best first by descending price, asks by ascending price. -/
def bookBefore : Side → Int → Int → Bool
  | .buy, a, b => decide (b < a)
  | .sell, a, b => decide (a < b)

/-- Buy stops ascend and sell stops descend: the first to trigger leads. -/
def stopBefore (s : Side) : Int → Int → Bool := bookBefore s.opposite

/-- Insert before the first level the new one precedes, else at the back. -/
def linkLevel (before : Int → Int → Bool) (lv : PriceLevel) (lvls : List PriceLevel) :
    List PriceLevel :=
  lvls.orderedInsert (fun a b => before a.price b.price) lv

def findLevel (price : Int) (lvls : List PriceLevel) : Option PriceLevel :=
  lvls.find? (·.price == price)

/-- `insert_order` and `insert_stop`. The flag says that the supplied level was used. -/
def insertAt (before : Int → Int → Bool) (key : Int) (order : Order)
    (lvls : List PriceLevel) : List PriceLevel × Bool :=
  match findLevel key lvls with
  | some _ => (lvls.map fun l => if l.price == key then l.append order else l, false)
  | none => (linkLevel before (PriceLevel.append ⟨key, 0, 0, []⟩ order) lvls, true)

def levelOf (id : Nat) (lvls : List PriceLevel) : Option PriceLevel :=
  lvls.find? (·.has id)

def onLevelOf (id : Nat) (f : PriceLevel → PriceLevel) (lvls : List PriceLevel) :
    List PriceLevel :=
  lvls.map fun l => if l.has id then f l else l

/-- `remove_order` and `remove_stop`. The flag says that the level became empty and was
unlinked. -/
def unlinkFrom (order : Order) (lvls : List PriceLevel) : List PriceLevel × Bool :=
  match levelOf order.id lvls with
  | none => (lvls, false)
  | some lv =>
    if lv.orderCount - 1 = 0 then (lvls.filter (fun l => !l.has order.id), true)
    else (onLevelOf order.id (·.unlink order) lvls, false)

def ordersIn (lvls : List PriceLevel) : List Order :=
  lvls.flatMap (·.orders)

def findOrder (id : Nat) (lvls : List PriceLevel) : Option Order :=
  (ordersIn lvls).find? (·.id == id)

def sumQty (orders : List Order) : Int :=
  (orders.map (·.remainingQuantity)).sum

end ExchangeSim
