import ExchangeSim.Interruptions
import ExchangeSim.Observers
import ExchangeSim.Sample

namespace ExchangeSim

open Engine List JournalEntry

variable {D : Type} {X : Exchange D} {e e' : Engine D} {a : Action} {order : Order} {fuel : Nat}
  {req : ModifyRequest} {h es : List JournalEntry}

/-- The states in which orders are not matched as they come. -/
def SessionState.suspended (s : SessionState) : Bool :=
  decide (s ≠ .continuous) && decide (s ≠ .closed)

/-- The states a trade can lead into. -/
def SessionState.interrupts (s : SessionState) : Bool :=
  decide (s = .lockLimit) || decide (s = .volatilityAuction)

/-- The two operations that match by other rules. -/
def Action.uncrosses : Action → Bool
  | .executeAuction .. => true
  | .applyImpliedFills .. => true
  | _ => false

/-- What a journal says about the session and the operation in progress: the state it began in,
whose trade was the last in it, and whose trade led into the interruption that lasts. -/
structure SessionLog where
  state : SessionState := .continuous
  action : Option Action := none
  began : SessionState := .continuous
  aggressor : Option Nat := none
  holder : Option Nat := none

def SessionLog.see (g : SessionLog) : JournalEntry → SessionLog
  | .action a => { state := g.state, action := some a, began := g.state }
  | .event (.trade t) => { g with aggressor := some t.aggressorId }
  | .event (.marketStatus s _) =>
    { g with state := s, holder := if s.interrupts then g.aggressor else none }
  | _ => g

def sessionLog : Observer JournalEntry SessionLog where
  start := {}
  see := SessionLog.see

/-- A trade is in order if the operation uncrosses, or if it did not begin in a suspended state
and, while an interruption that one of its trades led into lasts, the aggressor is the one of
that trade. -/
def SessionLog.Allows (g : SessionLog) : JournalEntry → Prop
  | .event (.trade t) => g.action.any Action.uncrosses = true ∨
    g.began.suspended = false ∧ ∀ id ∈ g.holder, t.aggressorId = id
  | _ => True

def TradesInSession (journal : List JournalEntry) : Prop :=
  Along (fun pre x => (sessionLog.state pre).Allows x) journal

theorem sessionLog_heeds : sessionLog.Heeds sessional := by
  intro g x hx
  cases x with
  | action a => simp [sessional] at hx
  | event ev => cases ev <;> first | rfl | simp [sessional] at hx

theorem tradesInSession_trail (e : Engine D) :
    TradesInSession e.trail ↔ TradesInSession e.journal := by
  rw [trail_journal]
  refine sessionLog_heeds.along_filter SessionLog.Allows (fun g x hx => ?_) e.journal
  cases x with
  | action a => trivial
  | event ev => cases ev <;> trivial

theorem TradesInSession.trades (hh : TradesInSession h)
    (hes : ∀ x ∈ es, x.isTrade = true ∧ ((sessionLog.state h).action.any Action.uncrosses = true ∨
      (sessionLog.state h).began.suspended = false))
    (hholder : (sessionLog.state h).holder = none) : TradesInSession (h ++ es) ∧
      ∃ a, sessionLog.state (h ++ es) = { sessionLog.state h with aggressor := a } := by
  induction es using reverseRecOn with
  | nil => exact ⟨by simpa using hh, _, by rw [append_nil]⟩
  | append_singleton es x ih =>
    obtain ⟨hin, a, hst⟩ := ih fun y hy => hes y (by simp [hy])
    obtain ⟨hx, hallow⟩ := hes x (by simp)
    rw [← List.append_assoc, TradesInSession, along_concat, Observer.state_concat, hst]
    cases x with
    | action a => simp [isTrade] at hx
    | event ev =>
      cases ev with
      | trade t =>
        refine ⟨⟨hin, hallow.imp_right fun hb => ⟨hb, fun id hid => ?_⟩⟩, _, rfl⟩
        simp [hholder] at hid
      | _ => simp [isTrade] at hx

theorem TradesInSession.statuses (hh : TradesInSession h) (hes : ∀ x ∈ es, x.isStatus = true) :
    TradesInSession (h ++ es) ∧
      (sessionLog.state (h ++ es)).state = es.foldl switch (sessionLog.state h).state := by
  induction es using reverseRecOn with
  | nil => simpa using hh
  | append_singleton es x ih =>
    obtain ⟨hin, hst⟩ := ih fun y hy => hes y (by simp [hy])
    have hx := hes x (by simp)
    rw [← List.append_assoc, TradesInSession, along_concat, Observer.state_concat]
    rw [foldl_append, ← hst]
    cases x with
    | action a => simp [isStatus] at hx
    | event ev =>
      cases ev <;> first
        | exact ⟨⟨hin, trivial⟩, rfl⟩
        | simp [isStatus] at hx

/-- The journal is in order and says which state the session is in. -/
structure Engine.InSession (e : Engine D) : Prop where
  trades : TradesInSession e.trail
  state : (sessionLog.state e.trail).state = e.currentState

/-- An operation makes trades, if its kind or the state it began in allows them, and after them
the session may change. -/
def Engine.Abides (a : Action) (e e' : Engine D) : Prop :=
  ∃ e₁, (e.record a).Tells (fun x => x.isTrade = true ∧
    (a.uncrosses = true ∨ e.currentState.suspended = false)) e₁ ∧ e₁.Switches e'

theorem Engine.InSession.abides (h : e.InSession) (ha : e.Abides a e') : e'.InSession := by
  obtain ⟨e₁, ht, hs⟩ := ha
  obtain ⟨A, htrail, hA⟩ := ht.trail
  obtain ⟨B, htrail', hB, hstate⟩ := hs.trail
  have hrec : (e.record a).trail = e.trail ++ [.action a] := by
    simp [trail, tape, record, told, sessional]
  have hstart : sessionLog.state (e.record a).trail =
      { state := e.currentState, action := some a, began := e.currentState } := by
    rw [hrec, Observer.state_concat, ← h.state]
    rfl
  have hbegin : TradesInSession (e.record a).trail := by
    rw [hrec]
    exact along_concat.mpr ⟨h.trades, trivial⟩
  have hallowed : ∀ x ∈ A, x.isTrade = true ∧
      ((sessionLog.state (e.record a).trail).action.any Action.uncrosses = true ∨
        (sessionLog.state (e.record a).trail).began.suspended = false) := by
    rw [hstart]
    simpa using hA
  obtain ⟨hin, agg, hst⟩ := hbegin.trades hallowed (by rw [hstart])
  obtain ⟨hin', hst'⟩ := hin.statuses hB
  have hsame : e₁.currentState = e.currentState := congrArg Context.state ht.context
  rw [← htrail, ← htrail'] at hin' hst'
  refine ⟨hin', hst'.trans ?_⟩
  rw [← htrail] at hst
  rw [hst, hstart, ← hstate, hsame]

theorem Engine.Tells.abides (h : ∀ p, (e.record a).Tells p e') : e.Abides a e' :=
  ⟨e', h _, .refl e'⟩

theorem Engine.Switches.abides (h : (e.record a).Switches e') : e.Abides a e' :=
  ⟨e.record a, .refl _, h⟩

theorem abides_map {α : Type} {r : Outcome D (α × Engine D)} (h : ∀ v, r = .ok v → e.Abides a v.2)
    (hm : r.map (·.2) = .ok e') : e.Abides a e' := by
  cases r with
  | error err => simp [Except.map] at hm
  | ok v => exact Except.ok.inj hm ▸ h v rfl

/-- The operations that keep to the session: in continuous trading nothing can interrupt, or no
stop waits; in a suspended state, an order that would be matched is refused or finds nothing to
trade with, and no stop is due. -/
def Engine.orderly (X : Exchange D) (e : Engine D) : Action → Prop
  | .newOrder req => (e.currentState = .continuous → e.uninterrupted X) ∧
    (e.currentState.suspended = true → e.currentState.isCollectionPhase = true ∨
      req.type.isStop = true ∨ (firstFailure (e.newOrderChecks X req)).isSome = true ∨
      e.idle (e.buildOrder X req {}))
  | .modifyOrder req => (e.currentState = .continuous → e.uninterrupted X) ∧
    (e.currentState.suspended = true → (firstFailure (e.modifyChecks X req)).isSome = true ∨
      ∀ order, e.indexed req.orderId = .ok order → e.amends X order req = true ∨
        holds (e.book order.side) order.id = true ∧ e.idle (order.replaced req))
  | _ => True

theorem currentState_ne_closed {req : OrderRequest}
    (h : firstFailure (e.newOrderChecks X req) = none) : e.currentState ≠ .closed := by
  intro hclosed
  rw [firstFailure, Option.map_eq_none_iff, find?_eq_none] at h
  have hcheck := h (decide (e.currentState = .closed), .exchangeSpecific)
    (by simp [newOrderChecks])
  simp [hclosed] at hcheck

theorem abides_matchAndTrigger {ts : Int} {e₁ : Engine D} (hpre : ∀ p, (e.record a).Tells p e₁)
    (hopen : e.currentState ≠ .closed) (hu : e.currentState = .continuous → e₁.uninterrupted X)
    (hidle : e.currentState.suspended = true → e₁.idle order)
    (h : e₁.matchAndTrigger X fuel order ts = .ok e') : e.Abides a e' := by
  by_cases hs : e.currentState.suspended = true
  · exact Tells.abides fun p => (hpre p).trans (tells_matchAndTrigger_idle (hidle hs) h)
  · have hcont : e.currentState = .continuous := by
      by_contra hne
      exact hs (by simp [SessionState.suspended, hne, hopen])
    obtain ⟨e₂, ht, hsw⟩ := ends_matchAndTrigger (hu hcont) h
    exact ⟨e₂, (hpre _).trans (ht.mono fun x hx => ⟨hx, .inr (by simpa using hs)⟩), hsw⟩

theorem tells_acceptOrder (t : RateTracker) (order : Order) (pool : ObjectPool SlotResidue) (ts : Int)
    (e : Engine D) (p : JournalEntry → Prop) :
    e.Tells p ({ e with rateTracker := t }.acceptOrder order pool ts) :=
  .report (x := .event (.orderAccepted order.id order.clientOrderId ts))
    (by simp [acceptOrder, tape, emit, told]) rfl rfl

theorem newOrder_entry {req : OrderRequest} (h : e.newOrder X fuel req = .ok e') :
    (∀ p, e.Tells p e') ∨ e.currentState.isCollectionPhase = false ∧ req.type.isStop = false ∧
      firstFailure (e.newOrderChecks X req) = none ∧ ∃ t slot pool,
        let e₁ := ({ e with rateTracker := t } : Engine D).acceptOrder (e.buildOrder X req slot) pool
          req.timestamp
        (∀ p, e.Tells p e₁) ∧
          e₁.matchAndTrigger X fuel (e.buildOrder X req slot) req.timestamp = .ok e' := by
  rcases newOrder_cases fuel req e with
    ⟨t, reason, heq⟩ | ⟨t, slot, pool, hpool, hchecks, heq⟩
  · obtain rfl := Except.ok.inj (heq.symm.trans h)
    exact .inl fun p => .quiet (by simp [tape, emit, told]) rfl
  · rw [heq] at h
    let order := e.buildOrder X req slot
    have haccept := tells_acceptOrder t order pool req.timestamp e
    unfold routeOrder at h
    split at h
    · exact .inl fun p => Except.ok.inj h ▸
        (haccept p).trans (tells_insertIntoStopBook p _ order req.stopPrice)
    next hstop =>
      split at h
      · split at h
        · exact .inl fun p => Except.ok.inj h ▸ ((haccept p).trans
            (tells_insertIntoBook p _ order req.timestamp)).trans (tells_fireTopOfBook p _ _)
        · exact .inl fun p => Except.ok.inj h ▸
            (haccept p).trans (tells_dropOrder p _ order req.timestamp _)
      next hphase =>
        exact .inr ⟨Bool.eq_false_iff.mpr hphase, Bool.eq_false_iff.mpr hstop, hchecks, t, slot, pool,
          haccept, h⟩

theorem abides_newOrder {req : OrderRequest} (ha : e.orderly X (.newOrder req))
    (h : (e.record (.newOrder req)).newOrder X fuel req = .ok e') :
    e.Abides (.newOrder req) e' := by
  rcases newOrder_entry h with hsilent | ⟨hphase, hstop, hchecks, t, slot, pool, haccept, hmatch⟩
  · exact Tells.abides hsilent
  · refine abides_matchAndTrigger haccept (currentState_ne_closed hchecks) ha.1 (fun hs => ?_) hmatch
    rcases ha.2 hs with hcollect | hst | hrefused | hidle
    · exact absurd (hcollect.symm.trans hphase) (by decide)
    · exact absurd (hst.symm.trans hstop) (by decide)
    · rw [show firstFailure (e.newOrderChecks X req) = none from hchecks] at hrefused
      simp at hrefused
    · exact hidle

theorem tells_pullOrder {p : JournalEntry → Prop} (h : e.pullOrder order req = .ok e') :
    e.Tells p e' := by
  obtain ⟨⟨freed, e₁⟩, hrem, rfl⟩ := pullOrder_ok h
  exact (Tells.same (sheet_bookRemoveOrder e hrem)).trans (.report (x := .event (.orderModified
    order.id req.clientOrderId req.newPrice req.newQuantity req.timestamp))
    (by rw [← tape_sheet]; simp [told]) (by rw [← context_sheet]; simp) rfl)

theorem pullOrder_eq (hrest : holds (e.book order.side) order.id = true)
    (h : e.pullOrder order req = .ok e') :
    e'.stopView = e.stopView ∧ e'.book order.side.opposite = e.book order.side.opposite := by
  simp only [pullOrder, bookRemoveOrder, hrest, if_true] at h
  cases h
  have hbook : ((e.removeOrder order).2.reportPull order req (e.removeOrder order).1).book =
      (e.removeOrder order).2.book :=
    congrArg (Holdings.lvls · .limit)
      (holdings_reportPull (e.removeOrder order).2 order req (e.removeOrder order).1)
  refine ⟨by simp, ?_⟩
  rw [hbook, removeOrder_book, Function.update_of_ne order.side.opposite_ne]

theorem pullOrder_uninterrupted (hu : e.uninterrupted X) (h : e.pullOrder order req = .ok e') :
    e'.uninterrupted X := by
  rcases hu with hcalm | hempty
  · exact .inl ((tells_pullOrder (p := fun _ => False) h).context ▸ hcalm)
  · right
    -- with no stop waiting the order can only come out of the limit book
    by_cases hrest : holds (e.book order.side) order.id = true
    · intro s
      rw [show e'.stopBook = e.stopBook from congrArg Prod.fst (pullOrder_eq hrest h).1]
      exact hempty s
    · have hnone : holds (e.stopBook order.side) order.id = false := by simp [holds, hempty]
      simp [pullOrder, bookRemoveOrder, hrest, hnone] at h

theorem indexed_record {id : Nat} (h : (e.record a).indexed id = .ok order) :
    e.indexed id = .ok order := by
  unfold indexed at h ⊢
  cases hp : (e.orderIndex id).bind (fun q => e.deref q) with
  | none =>
    rw [show ((e.record a).orderIndex id).bind (fun q => (e.record a).deref q) = none from hp] at h
    simp at h
  | some o =>
    rw [show ((e.record a).orderIndex id).bind (fun q => (e.record a).deref q) = some o from hp] at h
    exact h

theorem abides_modifyOrder (ha : e.orderly X (.modifyOrder req))
    (h : (e.record (.modifyOrder req)).modifyOrder X fuel req = .ok e') :
    e.Abides (.modifyOrder req) e' := by
  obtain ⟨t, ⟨r, rfl⟩ | ⟨order, hopen, hord, hchecks, hcase⟩⟩ := modifyOrder_ok h
  · exact Tells.abides fun p => (tells_rated t).trans (.quiet (by simp [told]) rfl)
  · rcases hcase with ⟨-, rfl⟩ | ⟨hamend, e₁, hpull, hmatch⟩
    · exact Tells.abides fun p =>
        (tells_rated t).trans (.report (tape_amendOrder _ order req) (by rw [← context_sheet]; simp) rfl)
    · refine abides_matchAndTrigger (fun p => (tells_rated t).trans (tells_pullOrder hpull)) hopen
        (fun hc => pullOrder_uninterrupted
          (e := { e.record (.modifyOrder req) with rateTracker := t }) (ha.1 hc) hpull)
        (fun hs => ?_) hmatch
      rcases ha.2 hs with hrefused | htarget
      · rw [show firstFailure (e.modifyChecks X req) = none from hchecks] at hrefused
        simp at hrefused
      · rcases htarget order (indexed_record hord) with hyes | ⟨hrest, hclear, hdue⟩
        · exact absurd hyes hamend
        · have hsame := pullOrder_eq
            (e := { e.record (.modifyOrder req) with rateTracker := t }) hrest hpull
          refine ⟨fun l hl => hclear l ?_, mt (hasDueStops_congr hsame.1).mp hdue⟩
          exact (congrArg head? hsame.2 ▸ hl :)

theorem abides_perform (ha : e.orderly X a) (h : e.perform X fuel a = .ok e') : e.Abides a e' := by
  have hdeal : a.uncrosses = true → ∀ e₁, (e.record a).Tells (·.isTrade = true) e₁ →
      e.Abides a e₁ := fun hu e₁ ht => ⟨e₁, ht.mono fun x hx => ⟨hx, .inl hu⟩, .refl e₁⟩
  cases a with
  | newOrder req => exact abides_newOrder ha h
  | cancelOrder id ts => exact Tells.abides fun p => tells_cancelOrder h
  | modifyOrder req => exact abides_modifyOrder ha h
  | triggerExpiry | massCancel | massCancelAll =>
    exact abides_map (fun v hv => Tells.abides fun p => tells_cancelWhere hv) h
  | restoreOrder s ts =>
    exact Tells.abides fun p => Except.ok.inj h ▸ tells_restoreOrder s ts
  | bustTrade id reason ts => exact Tells.abides fun p => tells_bustTrade h
  | setSessionState s ts =>
    exact Switches.abides (Except.ok.inj h ▸ switches_session (setSessionState_steps X ts _ s))
  | unlockLimit ts => exact Switches.abides (Except.ok.inj h ▸ switches_session (unlockLimit_steps X ts _))
  | executeAuction price ts => exact hdeal rfl e' (tells_executeAuction h)
  | publishIndicativePrice price ts =>
    exact Tells.abides fun p => Except.ok.inj h ▸ tells_publishIndicativePrice price ts
  | applyImpliedFills fills ts =>
    exact abides_map (fun v hv => hdeal rfl v.2 (tells_applyImpliedFills hv)) h

/-- A trade at the upper limit locks the market, and a waiting stop still trades after it. -/
example : ¬TradesInSession (runAll sampleExchange
    [.newOrder (limitRequest .sell 110 10),
      .newOrder { limitRequest .buy 0 3 with type := .stop, stopPrice := 105 },
      .newOrder (limitRequest .buy 110 4)]
    (sampleStart sampleExchange { sampleConfig with dailyLimitHigh := 110 } ())).journal := by
  intro hlaw
  rw [← tradesInSession_trail] at hlaw
  have hlast := hlaw _ (.event (.trade ⟨110, 3, 2, 1, .buy, 1⟩)) []
    (dropLast_append_getLast? _ (by decide +kernel)).symm
  rcases hlast with huncross | ⟨-, hholder⟩
  · exact absurd huncross (by decide +kernel)
  · exact absurd (hholder 3 (by decide +kernel)) (by decide)

end ExchangeSim
