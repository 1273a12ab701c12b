import ExchangeSim.Moves

/-!
What an engine has besides its books. Most of what the engine does to its books leaves this alone
or adds to the journal only.
-/

namespace ExchangeSim

open Engine

variable {D : Type}

@[simp]
def JournalEntry.logged : JournalEntry → Bool
  | .event (.depthUpdate _) => false
  | _ => true

/-- The engine without books, pools and index, and without the depth updates in its journal. -/
def Engine.sheet (e : Engine D) : Engine D :=
  { e with
    book := fun _ => []
    stopBook := fun _ => []
    orderPool := ⟨[], 0⟩
    levelPool := ⟨[], 0⟩
    orderIndex := fun _ => none
    journal := e.journal.filter JournalEntry.logged }

theorem filterMap_logged {α : Type} {f : JournalEntry → Option α}
    (hf : ∀ d, f (.event (.depthUpdate d)) = none) (entries : List JournalEntry) :
    (entries.filter JournalEntry.logged).filterMap f = entries.filterMap f := by
  rw [List.filterMap_filter]
  refine List.filterMap_congr fun x _ => ?_
  cases x with
  | action a => rfl
  | event ev =>
    cases ev with
    | depthUpdate d => exact (hf d).symm
    | _ => rfl

theorem filter_logged {p : JournalEntry → Bool} (hp : ∀ d, p (.event (.depthUpdate d)) = false)
    (entries : List JournalEntry) : (entries.filter JournalEntry.logged).filter p = entries.filter p := by
  rw [← List.filterMap_eq_filter]
  exact filterMap_logged (fun d => by simp [Option.guard, hp]) entries

/-- An order that shows its next tranche. -/
def Engine.reveals (o : Order) (ts : Int) (e : Engine D) : Engine D :=
  if o.hasNextTranche then
    e.emit (.orderBookAction ⟨o.id, o.side, o.price,
      min o.displayQty (o.totalQty - o.filledQuantity), .add, ts⟩)
  else e

section

variable (e : Engine D)

@[simp] theorem sheet_emit (ev : Event) :
    (e.emit ev).sheet = if (JournalEntry.event ev).logged then e.sheet.emit ev else e.sheet := by
  unfold sheet emit
  simp only [List.filter_append, List.filter_cons, List.filter_nil]
  split <;> simp

@[simp] theorem sheet_setBook (s : Side) (lvls : List PriceLevel) :
    (e.setBook s lvls).sheet = e.sheet := rfl

@[simp] theorem sheet_setStopBook (s : Side) (lvls : List PriceLevel) :
    (e.setStopBook s lvls).sheet = e.sheet := rfl

@[simp] theorem sheet_levelPool (pool : ObjectPool Unit) :
    ({ e with levelPool := pool } : Engine D).sheet = e.sheet := rfl

@[simp] theorem sheet_release (o : Order) : (e.release o).sheet = e.sheet := rfl

@[simp] theorem sheet_fireDepthOf (o : Order) (ts : Int) : (e.fireDepthOf o ts).sheet = e.sheet := by
  unfold fireDepthOf
  split <;> simp [fireDepth]

@[simp] theorem sheet_fireDepthAfterRemove (freed : Bool) (s : Side) (price ts : Int) :
    (e.fireDepthAfterRemove freed s price ts).sheet = e.sheet := by
  unfold fireDepthAfterRemove fireDepthAt
  split
  · simp [fireDepthRemove]
  · split <;> simp [fireDepth]

@[simp] theorem sheet_removeOrder (o : Order) : (e.removeOrder o).2.sheet = e.sheet := by
  unfold removeOrder
  dsimp only
  split <;> rfl

@[simp] theorem sheet_removeStop (o : Order) : (e.removeStop o).sheet = e.sheet := by
  unfold removeStop
  dsimp only
  split <;> rfl

theorem sheet_bookRemoveOrder {o : Order} {r : Bool × Engine D} (h : e.bookRemoveOrder o = .ok r) :
    r.2.sheet = e.sheet := by
  rcases bookRemoveOrder_ok h with ⟨-, rfl⟩ | ⟨-, rfl⟩
  · exact sheet_removeOrder e o
  · exact sheet_removeStop e o

@[simp] theorem sheet_adjustOrder (o : Order) (f : Order → Order) (delta : Int) :
    (e.adjustOrder o f delta).sheet = e.sheet := rfl

@[simp] theorem sheet_dropOrder (o : Order) (ts : Int) (r : CancelReason) :
    (e.dropOrder o ts r).sheet = e.sheet.emit (.orderCancelled o.id ts r) := by
  simp [dropOrder]

@[simp] theorem sheet_fireTopOfBook (ts : Int) : (e.fireTopOfBook ts).sheet = e.sheet.emit
    (.topOfBook ⟨e.bestPrice .buy, e.bestQty .buy, e.bestPrice .sell, e.bestQty .sell, ts⟩) := by
  simp [fireTopOfBook]

@[simp] theorem sheet_closeResting (ts : Int) (f : FillResult) (resting : Order) :
    (e.closeResting ts f resting).sheet =
      if f.restingRemaining = 0 then e.sheet.reveals resting ts else e.sheet := by
  unfold closeResting reveals
  split
  · split <;> simp [revealTranche, fireDepthRemove]
  · simp

@[simp] theorem sheet_cancelResting (ts : Int) (f : FillResult) (o : Order) :
    (e.cancelResting ts f o).2.sheet =
      (e.sheet.emit (.orderCancelled o.id ts .selfMatchPrevention)).emit
        (.orderBookAction ⟨o.id, o.side, f.price, o.remainingQuantity, .cancel, ts⟩) := by
  unfold cancelResting
  dsimp only
  split <;> simp [fireDepthRemove]

@[simp] theorem sheet_notifyCancelled (ts : Int) (f : FillResult) (o : Order)
    (r : Bool × Engine D) : (e.notifyCancelled ts f o r).sheet = r.2.sheet := by
  unfold notifyCancelled
  split <;> simp

@[simp] theorem sheet_insertIntoBook (o : Order) (ts : Int) : (e.insertIntoBook o ts).sheet =
    e.sheet.emit (if e.levelPool.allocate.isNone then .orderCancelled o.id ts .levelPoolExhausted
      else .orderBookAction ⟨o.id, o.side, o.price, o.remainingQuantity, .add, ts⟩) := by
  rcases h : e.levelPool.allocate with _ | ⟨slot, pool⟩
  · simp [insertIntoBook, h]
  · simp only [insertIntoBook, h]
    split <;> simp [fireDepth]

@[simp] theorem sheet_insertIntoStopBook (o : Order) (price : Int) :
    (e.insertIntoStopBook o price).sheet =
      if e.levelPool.allocate.isNone then
        e.sheet.emit (.orderCancelled o.id o.timestamp .levelPoolExhausted)
      else e.sheet := by
  rcases h : e.levelPool.allocate with _ | ⟨slot, pool⟩
  · simp [insertIntoStopBook, h]
  · simp [insertIntoStopBook, h]

@[simp] theorem sheet_reportCancel (o : Order) (ts : Int) (r : CancelReason) (freed : Bool) :
    (e.reportCancel o ts r freed).sheet = (e.sheet.emit (.orderCancelled o.id ts r)).emit
      (.orderBookAction ⟨o.id, o.side, o.price, o.remainingQuantity, .cancel, ts⟩) := by
  simp [reportCancel]

@[simp] theorem sheet_reportPull (o : Order) (req : ModifyRequest) (freed : Bool) :
    (e.reportPull o req freed).sheet = (e.sheet.emit (.orderBookAction
      ⟨o.id, o.side, o.price, o.remainingQuantity, .cancel, req.timestamp⟩)).emit
      (.orderModified o.id req.clientOrderId req.newPrice req.newQuantity req.timestamp) := by
  simp [reportPull]

@[simp] theorem sheet_amendOrder (o : Order) (req : ModifyRequest) :
    (e.amendOrder o req).sheet = e.sheet.emit
      (.orderModified o.id req.clientOrderId req.newPrice req.newQuantity req.timestamp) := by
  unfold amendOrder
  dsimp only
  split <;> simp [fireDepth]

@[simp] theorem sheet_auctionAdvance (o : Order) (next : Option Nat) (ts : Int) :
    (e.auctionAdvance o next ts).2.sheet =
      if o.remainingQuantity = 0 then e.sheet.reveals o ts else e.sheet := by
  unfold auctionAdvance auctionHandleFilledOrder reveals
  split
  · dsimp only
    split <;> simp [revealTranche]
  · rfl

@[simp] theorem sheet_fireDepthHolding (o : Order) (ts : Int) :
    (e.fireDepthHolding o ts).sheet = e.sheet := by
  unfold fireDepthHolding
  split <;> simp [fireDepth]

@[simp] theorem sheet_impliedReveal (o : Order) (ts : Int) : (e.impliedReveal ts o).sheet =
    e.sheet.emit (.orderBookAction ⟨o.id, o.side, o.price,
      min o.displayQty (o.totalQty - o.filledQuantity), .add, ts⟩) := by
  simp [impliedReveal]

end

end ExchangeSim
