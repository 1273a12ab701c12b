import ExchangeSim.Holdings

namespace ExchangeSim

open Engine Holdings

variable {D : Type}

section events

variable (e : Engine D)

@[simp] theorem holdings_emit (ev : Event) : (e.emit ev).holdings = e.holdings := rfl

@[simp] theorem holdings_fireTopOfBook (ts : Int) :
    (e.fireTopOfBook ts).holdings = e.holdings := rfl

@[simp] theorem holdings_fireTopOfBookIfChanged (ts b a : Int) :
    (e.fireTopOfBookIfChanged ts b a).holdings = e.holdings := by
  unfold fireTopOfBookIfChanged
  split <;> simp

@[simp] theorem holdings_fireDepth (s : Side) (lv : PriceLevel) (a : DepthAction) (ts : Int) :
    (e.fireDepth s lv a ts).holdings = e.holdings := rfl

@[simp] theorem holdings_fireDepthRemove (s : Side) (price ts : Int) :
    (e.fireDepthRemove s price ts).holdings = e.holdings := rfl

@[simp] theorem holdings_fireDepthOf (o : Order) (ts : Int) :
    (e.fireDepthOf o ts).holdings = e.holdings := by
  unfold fireDepthOf
  split <;> simp

@[simp] theorem holdings_fireDepthAfterRemove (freed : Bool) (s : Side) (price ts : Int) :
    (e.fireDepthAfterRemove freed s price ts).holdings = e.holdings := by
  unfold fireDepthAfterRemove fireDepthAt
  split
  · simp
  · split <;> simp

@[simp] theorem holdings_setBook (s : Side) (lvls : List PriceLevel) :
    (e.setBook s lvls).holdings = e.holdings.set .limit s lvls := by
  simp only [Engine.holdings, Engine.setBook, Holdings.set, Holdings.mk.injEq, and_true]
  funext k
  cases k <;> simp [shelf]

@[simp] theorem holdings_setStopBook (s : Side) (lvls : List PriceLevel) :
    (e.setStopBook s lvls).holdings = e.holdings.set .stop s lvls := by
  simp only [Engine.holdings, Engine.setStopBook, Holdings.set, Holdings.mk.injEq, and_true]
  funext k
  cases k <;> simp [shelf]

@[simp] theorem holdings_release (o : Order) : (e.release o).holdings = e.holdings.release o := rfl

@[simp] theorem holdings_dropOrder (o : Order) (ts : Int) (r : CancelReason) :
    (e.dropOrder o ts r).holdings = e.holdings.release o := rfl

theorem holdings_freeLevel (freed : Bool) (pool : ObjectPool Unit) :
    (if freed then { e with levelPool := pool } else e).holdings =
      { e.holdings with levelPool := if freed then pool else e.levelPool } := by
  cases freed <;> rfl

@[simp] theorem holdings_removeOrder (o : Order) :
    (e.removeOrder o).2.holdings = e.holdings.takeOut .limit o := by
  unfold removeOrder
  dsimp only
  rw [holdings_freeLevel, holdings_setBook]
  rfl

@[simp] theorem holdings_removeStop (o : Order) :
    (e.removeStop o).holdings = e.holdings.takeOut .stop o := by
  unfold removeStop
  dsimp only
  rw [holdings_freeLevel, holdings_setStopBook]
  rfl

/-- The order is dropped when no level can be taken for it. -/
def Holdings.enter (k : Shelf) (o : Order) (price : Int) (H : Holdings) : Holdings :=
  match H.levelPool.allocate with
  | none => H.release o
  | some (_, pool) => H.putIn k o price pool

theorem Holdings.enter_none {H : Holdings} (h : H.levelPool.allocate = none) (k : Shelf)
    (o : Order) (price : Int) : H.enter k o price = H.release o := by
  simp [enter, h]

theorem Holdings.enter_some {H : Holdings} {slot : Unit} {pool : ObjectPool Unit}
    (h : H.levelPool.allocate = some (slot, pool)) (k : Shelf) (o : Order) (price : Int) :
    H.enter k o price = H.putIn k o price pool := by
  simp [enter, h]

@[simp] theorem holdings_insertIntoBook (o : Order) (ts : Int) :
    (e.insertIntoBook o ts).holdings = e.holdings.enter .limit o o.price := by
  rcases h : e.levelPool.allocate with _ | ⟨slot, pool⟩
  · rw [enter_none h]
    simp [insertIntoBook, h]
  · rw [enter_some h]
    have hset : ∀ (p : ObjectPool Unit) (s : Side) (ls : List PriceLevel),
        ({ e with levelPool := p }.setBook s ls).holdings =
          { e.holdings.set .limit s ls with levelPool := p } := by
      intro p s ls
      rw [holdings_setBook]
      rfl
    simp only [insertIntoBook, h]
    split
    · rw [holdings_emit, hset]
      rfl
    · rw [holdings_fireDepth, holdings_emit, hset]
      rfl

@[simp] theorem holdings_insertIntoStopBook (o : Order) (price : Int) :
    (e.insertIntoStopBook o price).holdings = e.holdings.enter .stop o price := by
  rcases h : e.levelPool.allocate with _ | ⟨slot, pool⟩
  · rw [enter_none h]
    simp [insertIntoStopBook, h]
  · rw [enter_some h]
    simp only [insertIntoStopBook, h]
    rw [holdings_setStopBook]
    rfl

@[simp] theorem holdings_acceptOrder (o : Order) (pool : ObjectPool SlotResidue) (ts : Int) :
    (e.acceptOrder o pool ts).holdings = e.holdings.accept o pool := rfl

@[simp] theorem holdings_reportCancel (o : Order) (ts : Int) (r : CancelReason) (freed : Bool) :
    (e.reportCancel o ts r freed).holdings = e.holdings.release o := by
  simp [reportCancel]

@[simp] theorem holdings_reportPull (o : Order) (req : ModifyRequest) (freed : Bool) :
    (e.reportPull o req freed).holdings = e.holdings := by
  simp [reportPull]

@[simp] theorem holdings_cancelResting (ts : Int) (f : FillResult) (o : Order) :
    (e.cancelResting ts f o).2.holdings = (e.holdings.takeOut .limit o).release o := by
  unfold cancelResting
  dsimp only
  split <;> simp

@[simp] theorem holdings_notifyCancelled (ts : Int) (f : FillResult) (o : Order)
    (r : Bool × Engine D) : (e.notifyCancelled ts f o r).holdings = r.2.holdings := by
  unfold notifyCancelled
  split <;> simp

end events

theorem removeOrder_book (o : Order) (e : Engine D) : (e.removeOrder o).2.book =
    Function.update e.book o.side (unlinkFrom o (e.book o.side)).1 := by
  unfold removeOrder
  dsimp only
  split <;> rfl

theorem removeStop_stopBook (o : Order) (e : Engine D) : (e.removeStop o).stopBook =
    Function.update e.stopBook o.side (unlinkFrom o (e.stopBook o.side)).1 := by
  unfold removeStop
  dsimp only
  split <;> rfl

end ExchangeSim
