import ExchangeSim.ActionRuns
import ExchangeSim.Tape

namespace ExchangeSim

open Engine List JournalEntry

variable {D : Type} {X : Exchange D} {p q : JournalEntry → Prop} {e e₁ e₂ : Engine D}
  {ts price left : Int} {o : Order} {fuel : Nat} {x : JournalEntry} {r : Bool × Engine D}
  {reason : CancelReason}

def JournalEntry.isStatus : JournalEntry → Bool
  | .event (.marketStatus ..) => true
  | _ => false

def JournalEntry.sessional : JournalEntry → Bool
  | .action _ => true
  | .event (.trade _) => true
  | .event (.marketStatus ..) => true
  | _ => false

/-- The operations, trades and session states of a journal. -/
def Engine.trail (e : Engine D) : List JournalEntry :=
  e.tape.filter JournalEntry.sessional

theorem trail_journal (e : Engine D) : e.trail = e.journal.filter sessional := by
  rw [trail, tape, filter_filter]
  refine filter_congr fun x _ => ?_
  cases x with
  | action a => rfl
  | event ev => cases ev <;> rfl

/-- From `e` to `e'` the trail grows by entries in `p`, in one session state and under one
configuration. -/
structure Engine.Tells (p : JournalEntry → Prop) (e e' : Engine D) : Prop where
  trail : ∃ es, e'.trail = e.trail ++ es ∧ ∀ x ∈ es, p x
  context : e'.context = e.context

theorem Engine.Tells.of_tape {es : List JournalEntry} (ht : e₁.tape = e.tape ++ es)
    (hc : e₁.context = e.context) (hes : ∀ x ∈ es, x.sessional = true → p x) : e.Tells p e₁ where
  trail := ⟨es.filter sessional,
    by rw [Engine.trail, ht, List.filter_append]; rfl,
    fun x hx => hes x (mem_of_mem_filter hx) (of_mem_filter hx)⟩
  context := hc

theorem Engine.Tells.quiet (ht : e₁.tape = e.tape) (hc : e₁.context = e.context) : e.Tells p e₁ :=
  .of_tape (ht.trans e.tape.append_nil.symm) hc (by simp)

theorem Engine.Tells.report (ht : e₁.tape = e.tape ++ [x]) (hc : e₁.context = e.context)
    (hx : x.sessional = false) : e.Tells p e₁ :=
  .of_tape ht hc fun y hy hs => by
    obtain rfl := mem_singleton.mp hy
    simp [hx] at hs

theorem Engine.Tells.same (h : e₁.sheet = e.sheet) : e.Tells p e₁ :=
  .quiet (by rw [← tape_sheet, h, tape_sheet]) (by rw [← context_sheet, h, context_sheet])

theorem Engine.Tells.refl (e : Engine D) : e.Tells p e :=
  .quiet rfl rfl

theorem Engine.Tells.trans (h : e.Tells p e₁) (h' : e₁.Tells p e₂) : e.Tells p e₂ := by
  obtain ⟨es, ht, hes⟩ := h.trail
  obtain ⟨es', ht', hes'⟩ := h'.trail
  refine ⟨⟨es ++ es', by rw [ht', ht, List.append_assoc], ?_⟩, h'.context.trans h.context⟩
  intro x hx
  rcases List.mem_append.mp hx with hx | hx
  · exact hes x hx
  · exact hes' x hx

theorem Engine.Tells.mono (h : e.Tells p e₁) (hpq : ∀ x, p x → q x) : e.Tells q e₁ := by
  obtain ⟨es, ht, hes⟩ := h.trail
  exact ⟨⟨es, ht, fun x hx => hpq x (hes x hx)⟩, h.context⟩

section

variable (p : JournalEntry → Prop) (e : Engine D)

theorem tells_fireTopOfBook (ts : Int) : e.Tells p (e.fireTopOfBook ts) :=
  .report (tape_fireTopOfBook e ts) rfl rfl

theorem tells_fireTopOfBookIfChanged (ts b a : Int) :
    e.Tells p (e.fireTopOfBookIfChanged ts b a) := by
  unfold fireTopOfBookIfChanged
  split
  · exact tells_fireTopOfBook p e ts
  · exact .refl e

theorem tells_dropOrder (o : Order) (ts : Int) (r : CancelReason) : e.Tells p (e.dropOrder o ts r) :=
  .report (tape_dropOrder e o ts r) rfl rfl

theorem tells_refusal (ht : e₁.tape = e.tape ++ e.refusal o ts) (hc : e₁.context = e.context) :
    e.Tells p e₁ := by
  refine .of_tape ht hc fun x hx hs => ?_
  rcases refusal_cases e o ts with hr | hr
  · simp [hr] at hx
  · rw [hr, mem_singleton] at hx
    simp [hx, sessional] at hs

theorem tells_insertIntoBook (o : Order) (ts : Int) : e.Tells p (e.insertIntoBook o ts) :=
  tells_refusal p e (tape_insertIntoBook e o ts) (by simp)

theorem tells_insertIntoStopBook (o : Order) (price : Int) :
    e.Tells p (e.insertIntoStopBook o price) :=
  tells_refusal p e (tape_insertIntoStopBook e o price) (by simp)

theorem tells_postMatch (o : Order) (ts b a : Int) : e.Tells p (e.postMatch o ts b a) := by
  rcases postMatch_cases o ts b a e with ⟨-, heq⟩ | ⟨reason, heq⟩ | ⟨-, -, heq⟩ <;> rw [heq]
  · have hrelease : e.Tells p (e.release o) := .quiet rfl rfl
    exact hrelease.trans (tells_fireTopOfBookIfChanged p _ ts b a)
  · exact (tells_dropOrder p e o ts _).trans (tells_fireTopOfBookIfChanged p _ ts b a)
  · exact (tells_insertIntoBook p e o ts).trans (tells_fireTopOfBook p _ ts)

end

/-! Cancels. The order may be in either book, or in neither. -/

theorem tells_cancelActiveOrder (h : e.cancelActiveOrder o ts reason = .ok e₁) : e.Tells p e₁ := by
  rcases cancelActiveOrder_ok h with ⟨e', hrem, rfl⟩ | ⟨⟨freed, e'⟩, hrem, rfl⟩
  · refine Tells.trans ?_ (tells_dropOrder p e' o ts reason)
    rcases stopBookRemoveStop_ok hrem with rfl | rfl
    · exact .same (sheet_removeStop e o)
    · exact .same (sheet_removeOrder e o)
  · have hreport : e'.Tells p (e'.reportCancel o ts reason freed) :=
      .report (x := .event (.orderCancelled o.id ts reason))
        (by rw [← tape_sheet]; simp [told]) (by rw [← context_sheet]; simp) rfl
    exact ((Tells.same (sheet_bookRemoveOrder e hrem)).trans hreport).trans
      (tells_fireTopOfBookIfChanged p _ ts _ _)

theorem tells_rated (t : RateTracker) : e.Tells p { e with rateTracker := t } :=
  .quiet rfl rfl

theorem tells_cancelOrder {id : Nat} (h : e.cancelOrder X id ts = .ok e₁) : e.Tells p e₁ := by
  obtain ⟨t, ⟨r, rfl⟩ | ⟨o, -, hcancel⟩⟩ := cancelOrder_ok h
  · exact (tells_rated t).trans (.quiet (by simp [told]) rfl)
  · exact (tells_rated t).trans (tells_cancelActiveOrder hcancel)

theorem tells_cancelWhere {select : Order → Bool} {ids : List Nat} {count : Nat}
    {r : Nat × Engine D} (h : e.cancelWhere select ts reason ids count = .ok r) :
    e.Tells p r.2 :=
  cancelWhere_ok (I := e.Tells p) (fun _ _ _ _ hI _ hone => hI.trans (tells_cancelActiveOrder hone))
    h (.refl e)

theorem tells_unfill {id : Nat} {quantity : Int} (h : e.unfill X id quantity = .ok e₁) :
    e.Tells p e₁ := by
  rcases unfill_ok h with rfl | ⟨o, rfl⟩
  · exact .refl _
  · exact .quiet rfl rfl

theorem tells_bustTrade {id : Nat} {reason : BustReason} (h : e.bustTrade X id reason ts = .ok e₁) :
    e.Tells p e₁ := by
  rcases bustTrade_ok h with rfl | ⟨t, e', e'', -, -, hagg, hrest, rfl⟩
  · exact .refl _
  · have hmark : e.Tells p { e with tradeRegistry := e.tradeRegistry.markBusted id } :=
      .quiet rfl rfl
    refine ((hmark.trans (tells_unfill hagg)).trans (tells_unfill hrest)).trans ?_
    exact .report (x := .event (.tradeBusted id t.aggressorId t.restingId t.price t.quantity
      reason ts)) (by simp [reportBust, tape, emit, told]) rfl rfl

theorem tells_restoreOrder (s : SerializedOrder) (ts : Int) : e.Tells p (e.restoreOrder X s ts) := by
  unfold restoreOrder
  dsimp only
  split
  · exact .quiet (by simp [told]) rfl
  · exact .quiet (by simp [told]) rfl
  next slot pool _ _ =>
    have haccept : e.Tells p (e.acceptOrder (deserializeOrder s slot) pool ts) :=
      .report (x := .event (.orderAccepted s.id s.clientOrderId ts))
        (by simp [acceptOrder, tape, emit, told, deserializeOrder])
        rfl rfl
    exact (haccept.trans (tells_insertIntoBook p _ _ ts)).trans (tells_fireTopOfBook p _ ts)

/-! Trades. -/

theorem tells_publishIndicativePrice (price ts : Int) :
    e.Tells p (e.publishIndicativePrice price ts) := by
  refine .quiet ?_ ?_
  · unfold publishIndicativePrice
    dsimp only
    split
    · simp [told]
    · rfl
  · unfold publishIndicativePrice
    dsimp only
    split <;> rfl

theorem tells_trade (ht : e₁.tape = e.tape ++ [x]) (hc : e₁.context = e.context)
    (hx : x.isTrade = true) : e.Tells (·.isTrade = true) e₁ :=
  .of_tape ht hc fun y hy _ => by rwa [mem_singleton.mp hy]

theorem tells_executeAuction (h : e.executeAuction X fuel price ts = .ok e₁) :
    e.Tells (·.isTrade = true) e₁ := by
  have hadvance : ∀ (o : Order) (next : Option Nat) (e : Engine D),
      e.Tells (·.isTrade = true) (e.auctionAdvance o next ts).2 := fun o next e =>
    .quiet (tape_auctionAdvance e o next ts) (context_auctionAdvance e o next ts)
  rcases executeAuction_ok h with rfl | ⟨e', hloop, rfl⟩
  · exact .refl _
  · obtain ⟨-, hrun⟩ := auctionLoop_ok (I := fun _ => e.Tells (·.isTrade = true))
      (fun _ e' _ _ bid ask _ _ hI _ _ => ((hI.trans
        (tells_trade (tape_auctionTrade e' X _ ts _ _ _) (by simp) rfl)).trans
        (hadvance _ _ _)).trans (hadvance _ _ _)) hloop (.refl e)
    exact (hrun.trans (tells_fireTopOfBook _ e' ts)).trans (.quiet rfl rfl)

theorem tells_applyImpliedFills {fills : List LegFill}
    (h : e.applyImpliedFills X fills ts = .ok r) : e.Tells (·.isTrade = true) r.2 := by
  rcases applyImpliedFills_ok h with heq | ⟨e', hlegs, heq⟩
  · rw [heq]
    exact .refl e
  · rw [heq]
    refine Tells.trans ?_ (tells_fireTopOfBook _ e' ts)
    refine applyImpliedLegs_ok (I := e.Tells (·.isTrade = true)) (fun e₁ f e₂ hI _ hleg => ?_) hlegs
      (.refl e)
    obtain ⟨o, -, htape⟩ := tape_applyImpliedFill e₁ hleg
    exact hI.trans (tells_trade htape (context_applyImpliedFill e₁ hleg) rfl)

end ExchangeSim
