import ExchangeSim.Settle

/-!
A policy changes the orders of a level before the engine books the fills. Here the engine in
the middle of a batch is seen as a settled engine with the pending fills applied in advance,
so that booking a batch becomes booking one fill after the other.
-/

namespace ExchangeSim

open Engine List Function PriceLevel

variable {D : Type}

/-- A change of the orders of one side that keeps their ids. -/
def Engine.mapBook (s : Side) (g : Order → Order) (e : Engine D) : Engine D :=
  e.setBook s ((e.book s).map (·.mapOrders g))

/-- The orders of a side with pending fills applied. -/
def Engine.advance (s : Side) (rs : List FillResult) (e : Engine D) : Engine D :=
  e.mapBook s fun o => o.fill (filledBy o.id rs)

theorem mapOrders_mapOrders (g h : Order → Order) (l : PriceLevel) :
    (l.mapOrders g).mapOrders h = l.mapOrders fun o => h (g o) := by
  simp [mapOrders]

theorem mapBook_mapBook (s : Side) (g h : Order → Order) (e : Engine D) :
    (e.mapBook s g).mapBook s h = e.mapBook s fun o => h (g o) := by
  simp only [mapBook, setBook, Function.update_self, update_idem,
    map_map]
  congr 3
  funext l
  exact mapOrders_mapOrders g h l

theorem mapBook_id (s : Side) (e : Engine D) : (e.mapBook s fun o => o) = e := by
  have h : (e.book s).map (·.mapOrders fun o => o) = e.book s := by
    apply map_eq_self
    intro l _
    simp [mapOrders]
  simp [mapBook, setBook, h]

theorem fillResting_eq_mapBook (s : Side) (id : Nat) (q : Int) (e : Engine D) :
    e.fillResting s id q = e.mapBook s fun o => if o.id = id then o.fill q else o := rfl

theorem advance_nil (s : Side) (e : Engine D) : e.advance s [] = e := by
  simpa [advance, filledBy] using mapBook_id s e

theorem advance_cons (s : Side) (f : FillResult) (rs : List FillResult) (e : Engine D) :
    e.advance s (f :: rs) = (e.fillResting s f.restingOrder f.quantity).advance s rs := by
  rw [fillResting_eq_mapBook, advance, advance, mapBook_mapBook]
  congr 1
  funext o
  by_cases h : f.restingOrder = o.id
  · simp [filledBy, h, Order.fill_fill]
  · simp [filledBy, h, Ne.symm h]

theorem undoFills_advance (s : Side) (rs : List FillResult) (order : Order) (e : Engine D) :
    undoFills s rs order (e.advance s rs) =
      ({ order with remainingQuantity := order.remainingQuantity + fillTotal rs }, e) := by
  induction rs generalizing order with
  | nil => simp [undoFills, advance_nil]
  | cons f rs ih =>
    have hback : (e.advance s (f :: rs)).fillResting s f.restingOrder (-f.quantity) =
        e.advance s rs := by
      rw [fillResting_eq_mapBook, advance, advance, mapBook_mapBook]
      congr 1
      funext o
      by_cases h : f.restingOrder = o.id
      · have hq : f.quantity + filledBy o.id rs + -f.quantity = filledBy o.id rs := by omega
        simp [filledBy, h, Order.fill_fill, hq]
      · simp [filledBy, h, Ne.symm h]
    rw [undoFills, hback, ih]
    simp [add_assoc]

section maps

variable {g : Order → Order} (hg : ∀ o, (g o).id = o.id)

include hg

theorem has_mapOrders (l : PriceLevel) (id : Nat) : (l.mapOrders g).has id = l.has id := by
  simp [has, mapOrders, hg, comp_def]

theorem levelOf_map (id : Nat) (lvls : List PriceLevel) :
    levelOf id (lvls.map (·.mapOrders g)) = (levelOf id lvls).map (·.mapOrders g) := by
  simp [levelOf, find?_map, has_mapOrders hg]

theorem onLevelOf_map (id : Nat) {f : PriceLevel → PriceLevel}
    (hf : ∀ l : PriceLevel, f (l.mapOrders g) = (f l).mapOrders g) (lvls : List PriceLevel) :
    onLevelOf id f (lvls.map (·.mapOrders g)) = (onLevelOf id f lvls).map (·.mapOrders g) := by
  simp only [onLevelOf, map_map]
  apply map_congr_left
  intro l _
  simp only [comp_apply, has_mapOrders hg]
  split
  · exact hf l
  · rfl

theorem filter_map_ids (id : Nat) (os : List Order) :
    (os.map g).filter (·.id != id) = (os.filter (·.id != id)).map g := by
  rw [filter_map]
  congr 1
  apply filter_congr
  intro o _
  simp [hg]

theorem unlink_mapOrders (o : Order) (l : PriceLevel) :
    (l.mapOrders g).unlink o = (l.unlink o).mapOrders g := by
  simp [unlink, mapOrders, filter_map_ids hg]

theorem unlinkFrom_map (o : Order) (lvls : List PriceLevel) :
    unlinkFrom o (lvls.map (·.mapOrders g)) =
      ((unlinkFrom o lvls).1.map (·.mapOrders g), (unlinkFrom o lvls).2) := by
  unfold unlinkFrom
  rw [levelOf_map hg]
  cases h : levelOf o.id lvls with
  | none => simp
  | some lv =>
    have hc : (lv.mapOrders g).orderCount = lv.orderCount := rfl
    simp only [Option.map_some, hc]
    split
    · simp [filter_map, comp_def, has_mapOrders hg]
    · rw [onLevelOf_map hg o.id fun l => unlink_mapOrders hg o l]

theorem findOrder_map (id : Nat) (lvls : List PriceLevel) :
    findOrder id (lvls.map (·.mapOrders g)) = (findOrder id lvls).map g := by
  have h : ordersIn (lvls.map (·.mapOrders g)) = (ordersIn lvls).map g := by
    simp [ordersIn, mapOrders, flatMap_map, map_flatMap]
  simp [findOrder, h, find?_map, hg]

end maps

section commute

variable {g : Order → Order} (hg : ∀ o, (g o).id = o.id) (e : Engine D)

theorem mapBook_emit (s : Side) (g : Order → Order) (e : Engine D) (ev : Event) :
    (e.mapBook s g).emit ev = (e.emit ev).mapBook s g := rfl

theorem mapBook_setBook (s : Side) (g : Order → Order) (e : Engine D) (lvls : List PriceLevel) :
    (e.mapBook s g).setBook s (lvls.map (·.mapOrders g)) = (e.setBook s lvls).mapBook s g := by
  simp [mapBook, setBook]

theorem mapBook_book (s : Side) (g : Order → Order) (e : Engine D) :
    (e.mapBook s g).book s = (e.book s).map (·.mapOrders g) := by
  simp [mapBook, setBook]

include hg

theorem bookTrade_mapBook (X : Exchange D) (ts : Int) (order : Order) (f : FillResult)
    (r : Order) : (e.mapBook r.side g).bookTrade X ts order f r =
      (e.bookTrade X ts order f r).mapBook r.side g := by
  have hbook := onLevelOf_map hg r.id
    (f := fun l => { l with totalQuantity := l.totalQuantity - f.quantity }) (fun _ => rfl)
    (e.book r.side)
  simp only [bookTrade, mapBook, setBook, emit, Function.update_self,
    update_idem, hbook]

theorem fireDepthOf_mapBook (o : Order) (ts : Int) :
    (e.mapBook o.side g).fireDepthOf o ts = (e.fireDepthOf o ts).mapBook o.side g := by
  unfold fireDepthOf
  rw [mapBook_book, levelOf_map hg]
  cases levelOf o.id (e.book o.side) <;> rfl

theorem removeOrder_mapBook (o : Order) :
    (e.mapBook o.side g).removeOrder o =
      ((e.removeOrder o).1, (e.removeOrder o).2.mapBook o.side g) := by
  unfold removeOrder
  dsimp only
  rw [mapBook_book, unlinkFrom_map hg]
  dsimp only
  rw [mapBook_setBook]
  cases (unlinkFrom o (e.book o.side)).2 <;> rfl

theorem revealTranche_mapBook {o : Order} (hfix : ∀ x : Order, x.id = o.id → g x = x) (ts : Int) :
    (e.mapBook o.side g).revealTranche o ts = (e.revealTranche o ts).mapBook o.side g := by
  have hreq : ∀ (next : Int) (l : PriceLevel), (l.mapOrders g).requeue o next =
      (l.requeue o next).mapOrders g := by
    intro next l
    have hx : g { o with remainingQuantity := next } = { o with remainingQuantity := next } :=
      hfix _ rfl
    simp [requeue, mapOrders, filter_map_ids hg, hx]
  unfold revealTranche
  dsimp only
  rw [mapBook_book, onLevelOf_map hg o.id (hreq _), mapBook_setBook, mapBook_emit,
    fireDepthOf_mapBook hg]

theorem closeResting_mapBook {r : Order} {f : FillResult}
    (hfix : f.restingRemaining = 0 → ∀ x : Order, x.id = r.id → g x = x) (ts : Int) :
    (e.mapBook r.side g).closeResting ts f r = (e.closeResting ts f r).mapBook r.side g := by
  unfold closeResting
  split
  next hzero =>
    split
    next => exact revealTranche_mapBook hg e (hfix hzero) ts
    next =>
      rw [removeOrder_mapBook hg]
      rfl
  next => exact fireDepthOf_mapBook hg e r ts

end commute

theorem bookTrade_fill (X : Exchange D) (ts : Int) (order : Order) (f : FillResult) (r : Order)
    (q : Int) (e : Engine D) :
    e.bookTrade X ts order f (r.fill q) = e.bookTrade X ts order f r := rfl

theorem closeResting_fill (ts : Int) {f : FillResult} (r : Order) {q : Int}
    (hq : f.restingRemaining = 0 → q = 0) (e : Engine D) :
    e.closeResting ts f (r.fill q) = e.closeResting ts f r := by
  by_cases hzero : f.restingRemaining = 0
  · rw [hq hzero, Order.fill_zero]
  · simp only [closeResting, if_neg hzero]
    rfl

theorem bookFill_advance (X : Exchange D) (ts : Int) {order resting : Order} {f : FillResult}
    {rs : List FillResult} (reported : Int) (e : Engine D)
    (hside : resting.side = order.side.opposite) (hid : f.restingOrder = resting.id)
    (hdone : f.restingRemaining = 0 → ∀ x ∈ rs, x.restingOrder ≠ f.restingOrder) :
    (((e.advance order.side.opposite (f :: rs)).bookTrade X ts
      { order with
        filledQuantity := order.filledQuantity + f.quantity
        remainingQuantity := reported } f
      (resting.fill (filledBy resting.id (f :: rs)))).closeResting ts f
      (resting.fill (filledBy resting.id (f :: rs)))) =
    (e.bookFill X ts order resting f reported).advance order.side.opposite rs := by
  have hzero : f.restingRemaining = 0 → filledBy resting.id rs = 0 := by
    intro h
    apply filledBy_eq_zero
    simpa [hid] using hdone h
  have hsplit : resting.fill (filledBy resting.id (f :: rs)) =
      (resting.fill f.quantity).fill (filledBy resting.id rs) := by
    simp [filledBy, hid, Order.fill_fill]
  have hg : ∀ o : Order, (o.fill (filledBy o.id rs)).id = o.id := fun _ => rfl
  have hfix : f.restingRemaining = 0 → ∀ x : Order, x.id = (resting.fill f.quantity).id →
      x.fill (filledBy x.id rs) = x := by
    intro h x hx
    rw [hx, Order.fill_id, hzero h, Order.fill_zero]
  rw [hsplit, bookTrade_fill, closeResting_fill ts _ hzero, advance_cons, hid]
  unfold bookFill advance
  dsimp only
  rw [← hside, ← Order.fill_side resting f.quantity, bookTrade_mapBook hg,
    closeResting_mapBook hg _ hfix]
  rfl

end ExchangeSim
