import ExchangeSim.Settle
import ExchangeSim.Sheet

namespace ExchangeSim

open Engine JournalEntry Move

variable {D : Type}

def JournalEntry.bookAction? : JournalEntry → Option OrderBookAction
  | .event (.orderBookAction a) => some a
  | _ => none

def Engine.shown (e : Engine D) : List OrderBookAction :=
  e.journal.filterMap JournalEntry.bookAction?

/-- The event for an order that shows its next tranche. -/
def Order.reveals (o : Order) (ts : Int) : List OrderBookAction :=
  if o.hasNextTranche then [⟨o.id, o.side, o.price, o.nextTranche, .add, ts⟩] else []

section

variable (e : Engine D)

@[simp] theorem shown_emit (ev : Event) :
    (e.emit ev).shown = e.shown ++ (bookAction? (.event ev)).toList := by
  cases h : bookAction? (.event ev) <;> simp [shown, emit, h]

@[simp] theorem shown_sheet : e.sheet.shown = e.shown :=
  filterMap_logged (fun _ => rfl) e.journal

@[simp] theorem shown_reveals (o : Order) (ts : Int) :
    (e.reveals o ts).shown = e.shown ++ o.reveals ts := by
  unfold Engine.reveals Order.reveals
  split <;> simp [bookAction?, Order.nextTranche]

theorem shown_bookTrade (X : Exchange D) (ts : Int) (order : Order) (f : FillResult)
    (resting : Order) : (e.bookTrade X ts order f resting).shown =
      e.shown ++ [⟨resting.id, resting.side, f.price, f.quantity, .fill, ts⟩] := by
  unfold bookTrade
  by_cases h : order.remainingQuantity = 0 <;>
    simp [emit, shown, setBook, List.filterMap_cons, bookAction?, h]

theorem shown_bookFill (X : Exchange D) (ts : Int) (order resting : Order) (f : FillResult)
    (reported : Int) : (e.bookFill X ts order resting f reported).shown =
      e.shown ++ ⟨resting.id, resting.side, f.price, f.quantity, .fill, ts⟩ ::
        if f.restingRemaining = 0 then (resting.fill f.quantity).reveals ts else [] := by
  unfold bookFill
  dsimp only
  rw [← shown_sheet, sheet_closeResting]
  split
  · rw [shown_reveals, shown_sheet, shown_bookTrade, List.append_assoc, List.singleton_append]
    rfl
  · rw [shown_sheet, shown_bookTrade]
    rfl

theorem shown_insertIntoBook (o : Order) (ts : Int) : (e.insertIntoBook o ts).shown =
    e.shown ++ if e.levelPool.allocate.isNone then []
      else [⟨o.id, o.side, o.price, o.remainingQuantity, .add, ts⟩] := by
  rw [← shown_sheet, sheet_insertIntoBook]
  split <;> simp [bookAction?]

theorem shown_insertIntoStopBook (o : Order) (price : Int) :
    (e.insertIntoStopBook o price).shown = e.shown := by
  rw [← shown_sheet, sheet_insertIntoStopBook]
  split <;> simp [bookAction?]

theorem shown_auctionAdvance (o : Order) (next : Option Nat) (ts : Int) :
    (e.auctionAdvance o next ts).2.shown =
      e.shown ++ if o.remainingQuantity = 0 then o.reveals ts else [] := by
  rw [← shown_sheet, sheet_auctionAdvance]
  split <;> simp

theorem shown_auctionTrade (X : Exchange D) (price ts : Int) (bid ask : Order) (q : Int) :
    (e.auctionTrade X price ts bid ask q).shown = e.shown ++
      [⟨bid.id, .buy, price, q, .fill, ts⟩, ⟨ask.id, .sell, price, q, .fill, ts⟩] := by
  unfold auctionTrade
  dsimp only
  split <;> simp [emit, shown, setBook, fillResting, List.filterMap_cons, bookAction?]

theorem shown_bookCross (X : Exchange D) (price ts : Int) (bid ask : Order) (q : Int) :
    (e.bookCross X price ts bid ask q).shown = e.shown ++
      ([⟨bid.id, .buy, price, q, .fill, ts⟩, ⟨ask.id, .sell, price, q, .fill, ts⟩] ++
        ((if bid.remainingQuantity - q = 0 then (bid.fill q).reveals ts else []) ++
          if ask.remainingQuantity - q = 0 then (ask.fill q).reveals ts else [])) := by
  unfold bookCross
  dsimp only
  rw [shown_auctionAdvance, shown_auctionAdvance, shown_auctionTrade, List.append_assoc,
    List.append_assoc]
  rfl

end

def Move.shows : Move D → World D → List OrderBookAction
  | .fill ts _ resting f _ _, _ =>
    ⟨resting.id, resting.side, f.price, f.quantity, .fill, ts⟩ ::
      if f.restingRemaining = 0 then (resting.fill f.quantity).reveals ts else []
  | .cancelResting ts _ resting f _, _ =>
    [⟨resting.id, resting.side, f.price, resting.remainingQuantity, .cancel, ts⟩]
  | .rest order ts, W =>
    if W.engine.levelPool.allocate.isNone then []
    else [⟨order.id, order.side, order.price, order.remainingQuantity, .add, ts⟩]
  | .pull order req, _ =>
    [⟨order.id, order.side, order.price, order.remainingQuantity, .cancel, req.timestamp⟩]
  | .cancel order ts _, _ =>
    [⟨order.id, order.side, order.price, order.remainingQuantity, .cancel, ts⟩]
  | .cross price ts bid ask q, _ =>
    [⟨bid.id, .buy, price, q, .fill, ts⟩, ⟨ask.id, .sell, price, q, .fill, ts⟩] ++
      ((if bid.remainingQuantity - q = 0 then (bid.fill q).reveals ts else []) ++
        if ask.remainingQuantity - q = 0 then (ask.fill q).reveals ts else [])
  | _, _ => []

theorem Move.run_shown {X : Exchange D} {m : Move D} {W : World D} (hg : m.guard X W) :
    (m.run X W).engine.shown = W.engine.shown ++ m.shows W := by
  cases m with
  | note tracker entries =>
    have hnone : entries.filterMap bookAction? = [] := by
      rw [List.filterMap_eq_nil_iff]
      intro x hx
      have hq : x.quiet = true := hg x hx
      cases x with
      | action a => rfl
      | event ev => cases ev <;> first | rfl | simp [quiet] at hq
    simp [run, shows, shown, hnone]
  | accept req slot pool => simp [run, shows, acceptOrder, shown, emit, bookAction?]
  | fill ts order resting f left reported => exact shown_bookFill _ X ts order resting f reported
  | cancelResting ts order resting f notify =>
    rw [← shown_sheet]
    cases notify <;> simp [run, shows, bookAction?]
  | rest order ts => exact shown_insertIntoBook _ order ts
  | park order stopPrice => simp [run, shows, shown_insertIntoStopBook]
  | cross price ts bid ask q => exact shown_bookCross _ X price ts bid ask q
  | bust id record reason ts => simp [run, shows, reportBust, shown, emit, bookAction?]
  | session state ts => simp [run, shows, shown, emit, bookAction?]
  | markBusted | reference | hook => simp [run, shows, shown]
  | _ =>
    rw [← shown_sheet]
    simp [run, shows, bookAction?]

end ExchangeSim
