import ExchangeSim.Sheet

namespace ExchangeSim

open Engine Move

variable {D : Type}

structure Context (D : Type) where
  config : EngineConfig
  derived : D
  state : SessionState

def Engine.context (e : Engine D) : Context D :=
  ⟨e.config, e.derived, e.currentState⟩

section

variable (e : Engine D)

@[simp] theorem context_emit (ev : Event) : (e.emit ev).context = e.context := rfl

@[simp] theorem context_sheet : e.sheet.context = e.context := rfl

@[simp] theorem context_reveals (o : Order) (ts : Int) : (e.reveals o ts).context = e.context := by
  unfold reveals
  split <;> rfl

@[simp] theorem context_closeResting (ts : Int) (f : FillResult) (resting : Order) :
    (e.closeResting ts f resting).context = e.context := by
  rw [← context_sheet, sheet_closeResting]
  split <;> simp

@[simp] theorem context_auctionTrade (X : Exchange D) (price ts : Int) (bid ask : Order) (q : Int) :
    (e.auctionTrade X price ts bid ask q).context = e.context := by
  simp only [auctionTrade, context, emit, setBook, fillResting]

theorem context_bookFill (X : Exchange D) (ts : Int) (order resting : Order) (f : FillResult)
    (reported : Int) : (e.bookFill X ts order resting f reported).context = e.context :=
  context_closeResting _ ts f _

theorem context_applySmpAction (X : Exchange D) (order resting : Order) (f : FillResult) (ts : Int) :
    (e.applySmpAction X order resting f ts).2.context = e.context := by
  rw [← context_sheet]
  unfold applySmpAction
  split <;> simp

@[simp] theorem context_insertIntoBook (o : Order) (ts : Int) :
    (e.insertIntoBook o ts).context = e.context := by
  rw [← context_sheet, sheet_insertIntoBook]
  rfl

@[simp] theorem context_insertIntoStopBook (o : Order) (price : Int) :
    (e.insertIntoStopBook o price).context = e.context := by
  rw [← context_sheet, sheet_insertIntoStopBook]
  split <;> rfl

@[simp] theorem context_auctionAdvance (o : Order) (next : Option Nat) (ts : Int) :
    (e.auctionAdvance o next ts).2.context = e.context := by
  rw [← context_sheet, sheet_auctionAdvance]
  split <;> simp

theorem context_applyImpliedFill {X : Exchange D} {ts : Int} {f : LegFill} {e' : Engine D}
    (h : e.applyImpliedFill X ts f = .ok e') : e'.context = e.context := by
  obtain ⟨o, -, hcase⟩ := applyImpliedFill_ok h
  rw [← context_sheet]
  rcases hcase with ⟨-, rfl⟩ | rfl | ⟨r, hrem, rfl⟩
  · simp; rfl
  · simp; rfl
  · simp [sheet_bookRemoveOrder _ hrem]; rfl

end

def Move.steady : Move D → Bool
  | .session .. => false
  | .hook .. => false
  | _ => true

theorem Move.run_context {X : Exchange D} {m : Move D} (h : m.steady = true) (W : World D) :
    (m.run X W).engine.context = W.engine.context := by
  cases m with
  | fill ts order resting f left reported => exact context_bookFill _ X ts order resting f reported
  | cancelResting ts order resting f notify =>
    rw [← context_sheet]
    cases notify <;> simp [run]
  | park order stopPrice => exact context_insertIntoStopBook _ order stopPrice
  | cross price ts bid ask q => simp [run, bookCross]
  | session | hook => simp [steady] at h
  | _ =>
    rw [← context_sheet]
    first | rfl | simp [run]

end ExchangeSim
