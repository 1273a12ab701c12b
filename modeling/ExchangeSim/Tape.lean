import ExchangeSim.Sheet

namespace ExchangeSim

open Engine JournalEntry Move

variable {D : Type}

/-- Entries about orders and trades as such, the top of the book and the session: all but the
fill reports, the depth and order-by-order feeds and the rejections. -/
def JournalEntry.told : JournalEntry → Bool
  | .action _ => true
  | .event (.orderAccepted ..) => true
  | .event (.orderCancelled ..) => true
  | .event (.orderModified ..) => true
  | .event (.trade _) => true
  | .event (.tradeBusted ..) => true
  | .event (.topOfBook _) => true
  | .event (.marketStatus ..) => true
  | _ => false

def JournalEntry.isTrade : JournalEntry → Bool
  | .event (.trade _) => true
  | _ => false

def Engine.tape (e : Engine D) : List JournalEntry :=
  e.journal.filter JournalEntry.told

section

variable (e : Engine D)

@[simp] theorem tape_emit (ev : Event) : (e.emit ev).tape =
    e.tape ++ if (event ev).told then [.event ev] else [] := by
  simp only [tape, emit, List.filter_append, List.filter_cons, List.filter_nil]

@[simp] theorem tape_sheet : e.sheet.tape = e.tape :=
  filter_logged (fun _ => rfl) e.journal

@[simp] theorem tape_reveals (o : Order) (ts : Int) : (e.reveals o ts).tape = e.tape := by
  unfold reveals
  split <;> simp [told]

@[simp] theorem tape_dropOrder (o : Order) (ts : Int) (r : CancelReason) :
    (e.dropOrder o ts r).tape = e.tape ++ [.event (.orderCancelled o.id ts r)] := by
  rw [← tape_sheet]
  simp [told]

@[simp] theorem tape_fireTopOfBook (ts : Int) : (e.fireTopOfBook ts).tape = e.tape ++
    [.event (.topOfBook ⟨e.bestPrice .buy, e.bestQty .buy, e.bestPrice .sell, e.bestQty .sell, ts⟩)] := by
  rw [← tape_sheet]
  simp [told]

theorem tape_bookTrade (X : Exchange D) (ts : Int) (order : Order) (f : FillResult)
    (resting : Order) : (e.bookTrade X ts order f resting).tape = e.tape ++
      [.event (.trade ⟨f.price, f.quantity, order.id, resting.id, order.side, ts⟩)] := by
  unfold bookTrade
  by_cases h : order.remainingQuantity = 0 <;>
    simp [emit, tape, setBook, List.filter_cons, told, h]

theorem tape_closeResting (ts : Int) (f : FillResult) (resting : Order) :
    (e.closeResting ts f resting).tape = e.tape := by
  rw [← tape_sheet, sheet_closeResting]
  split <;> simp

theorem tape_bookFill (X : Exchange D) (ts : Int) (order resting : Order) (f : FillResult)
    (reported : Int) : (e.bookFill X ts order resting f reported).tape = e.tape ++
      [.event (.trade ⟨f.price, f.quantity, order.id, resting.id, order.side, ts⟩)] := by
  unfold bookFill
  rw [tape_closeResting, tape_bookTrade]
  rfl

/-- What is told of an order that enters a book: nothing, unless no level is left for it. -/
def Engine.refusal (e : Engine D) (o : Order) (ts : Int) : List JournalEntry :=
  if e.levelPool.allocate.isNone then [.event (.orderCancelled o.id ts .levelPoolExhausted)]
  else []

theorem refusal_cases (o : Order) (ts : Int) : e.refusal o ts = [] ∨
    e.refusal o ts = [.event (.orderCancelled o.id ts .levelPoolExhausted)] := by
  unfold refusal
  split
  · exact .inr rfl
  · exact .inl rfl

theorem tape_insertIntoBook (o : Order) (ts : Int) :
    (e.insertIntoBook o ts).tape = e.tape ++ e.refusal o ts := by
  rw [← tape_sheet, sheet_insertIntoBook, refusal]
  split <;> simp [told]

theorem tape_insertIntoStopBook (o : Order) (price : Int) :
    (e.insertIntoStopBook o price).tape = e.tape ++ e.refusal o o.timestamp := by
  rw [← tape_sheet, sheet_insertIntoStopBook, refusal]
  split <;> simp [told]

@[simp] theorem tape_amendOrder (o : Order) (req : ModifyRequest) :
    (e.amendOrder o req).tape = e.tape ++
      [.event (.orderModified o.id req.clientOrderId req.newPrice req.newQuantity
        req.timestamp)] := by
  rw [← tape_sheet]
  simp [told]

theorem tape_auctionAdvance (o : Order) (next : Option Nat) (ts : Int) :
    (e.auctionAdvance o next ts).2.tape = e.tape := by
  rw [← tape_sheet, sheet_auctionAdvance]
  split <;> simp

theorem tape_impliedTrade (X : Exchange D) (ts : Int) (f : LegFill) (o : Order) :
    (e.impliedTrade X ts f o).tape = e.tape ++
      [.event (.trade ⟨f.fillPrice, f.fillQty, o.id, o.id, o.side, ts⟩)] := by
  unfold impliedTrade adjustOrder
  dsimp only
  split <;> simp [tape, emit, setBook, setStopBook, List.filter_cons, told]

theorem tape_applyImpliedFill {X : Exchange D} {ts : Int} {f : LegFill} {e' : Engine D}
    (h : e.applyImpliedFill X ts f = .ok e') : ∃ o, e.indexed f.orderId = .ok o ∧
      e'.tape = e.tape ++ [.event (.trade ⟨f.fillPrice, f.fillQty, o.id, o.id, o.side, ts⟩)] := by
  obtain ⟨o, hindexed, hcase⟩ := applyImpliedFill_ok h
  refine ⟨o, hindexed, ?_⟩
  refine Eq.trans ?_ (tape_impliedTrade e X ts f (o.fill f.fillQty))
  rw [← tape_sheet]
  rcases hcase with ⟨-, rfl⟩ | rfl | ⟨r, hrem, rfl⟩
  · simp [told]
  · simp
  · simp [sheet_bookRemoveOrder _ hrem]

theorem tape_auctionTrade (X : Exchange D) (price ts : Int) (bid ask : Order) (q : Int) :
    (e.auctionTrade X price ts bid ask q).tape =
      e.tape ++ [.event (.trade ⟨price, q, bid.id, ask.id, .buy, ts⟩)] := by
  unfold auctionTrade
  dsimp only
  split <;> simp [emit, tape, setBook, fillResting, List.filter_cons, told]

theorem tape_bookCross (X : Exchange D) (price ts : Int) (bid ask : Order) (q : Int) :
    (e.bookCross X price ts bid ask q).tape =
      e.tape ++ [.event (.trade ⟨price, q, bid.id, ask.id, .buy, ts⟩)] := by
  simp [bookCross, tape_auctionAdvance, tape_auctionTrade, Order.fill]

end

def Move.tells : Move D → World D → List JournalEntry
  | .note _ entries, _ => entries.filter JournalEntry.told
  | .accept req _ _, W =>
    [.event (.orderAccepted W.engine.nextOrderId req.clientOrderId req.timestamp)]
  | .fill ts order resting f _ _, _ =>
    [.event (.trade ⟨f.price, f.quantity, order.id, resting.id, order.side, ts⟩)]
  | .cancelResting ts _ resting _ _, _ =>
    [.event (.orderCancelled resting.id ts .selfMatchPrevention)]
  | .drop order ts reason, _ => [.event (.orderCancelled order.id ts reason)]
  | .rest order ts, W => W.engine.refusal order ts
  | .park order _, W => W.engine.refusal order order.timestamp
  | .pull order req, _ =>
    [.event (.orderModified order.id req.clientOrderId req.newPrice req.newQuantity
      req.timestamp)]
  | .cancel order ts reason, _ => [.event (.orderCancelled order.id ts reason)]
  | .cancelStop order ts reason, _ => [.event (.orderCancelled order.id ts reason)]
  | .amend order req, _ =>
    [.event (.orderModified order.id req.clientOrderId req.newPrice req.newQuantity
      req.timestamp)]
  | .cross price ts bid ask q, _ => [.event (.trade ⟨price, q, bid.id, ask.id, .buy, ts⟩)]
  | .bust id record reason ts, _ =>
    [.event (.tradeBusted id record.aggressorId record.restingId record.price record.quantity
      reason ts)]
  | .topOfBook ts, W =>
    [.event (.topOfBook ⟨W.engine.bestPrice .buy, W.engine.bestQty .buy,
      W.engine.bestPrice .sell, W.engine.bestQty .sell, ts⟩)]
  | .session state ts, _ => [.event (.marketStatus state ts)]
  | _, _ => []

theorem Move.run_tape (X : Exchange D) (m : Move D) (W : World D) :
    (m.run X W).engine.tape = W.engine.tape ++ m.tells W := by
  cases m with
  | note | markBusted | reference | hook => simp [run, tells, tape]
  | accept req slot pool => simp [run, tells, acceptOrder, buildOrder, tape, emit, told]
  | fill ts order resting f left reported => exact tape_bookFill _ X ts order resting f reported
  | cancelResting ts order resting f notify =>
    rw [← tape_sheet]
    cases notify <;> simp [run, tells, told]
  | rest order ts => exact tape_insertIntoBook _ order ts
  | park order stopPrice => exact tape_insertIntoStopBook _ order stopPrice
  | cross price ts bid ask q => exact tape_bookCross _ X price ts bid ask q
  | bust id record reason ts => simp [run, tells, reportBust, tape, emit, told]
  | session state ts => simp [run, tells, tape, emit, told]
  | _ =>
    rw [← tape_sheet]
    simp [run, tells, told]

end ExchangeSim
