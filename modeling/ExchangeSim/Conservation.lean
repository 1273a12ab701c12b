import ExchangeSim.Ledger
import ExchangeSim.Prices
import ExchangeSim.Reachable
import ExchangeSim.Sample

namespace ExchangeSim

open Engine Option Move

variable {D : Type} {X : Exchange D} {w c : Prop} {W : World D} {e : Engine D} {m : Move D}
  {req : OrderRequest}

/-- What is traded never exceeds what was last accepted, and an order that the index no longer
knows has traded all of it or was cancelled. -/
structure Engine.Conserves (e : Engine D) : Prop where
  bounded : register.Always Register.Bounded e.journal
  accounted : ∀ id, ∀ r ∈ (register.state e.journal).record id, e.orderIndex id = none →
    r.traded = r.quantity ∨ r.cancelled = true

def World.Shown (W : World D) : Prop :=
  ∀ o ∈ W.flight, o.Whole ∨ (0 < o.remainingQuantity ∧ W.engine.Beyond o)

theorem World.Shown.none (e : Engine D) : World.Shown ⟨e, none⟩ := by
  simp [World.Shown]

theorem World.Shown.shrink (h : W.Shown) (hs : W.engine.holdings.Shrinks e.holdings) :
    World.Shown { W with engine := e } :=
  fun o ho => (h o ho).imp_right fun hb => ⟨hb.1, hb.2.shrink hs⟩

/-- The moves of an order that is routed are careful, and the next order in flight is again
one that hides nothing or meets nothing. -/
theorem World.Shown.run (hJ : W.Shown) (hb : W.Balanced) (hs : W.Sound X True) (hg : m.guard X W)
    (hx : m.exact) (hm : m.routed = true) : m.careful ∧ (m.run X W).Shown := by
  have hkeep : m.isRest = false → (m.run X W).flight = W.flight → (m.run X W).Shown := by
    intro hr hf
    have := hJ.shrink (hs.shrinks hg hr)
    rw [← hf] at this
    exact this
  cases m with
  | note | topOfBook | session | reference | hook => exact ⟨trivial, hkeep rfl rfl⟩
  | adjust order remaining =>
    have hsame : remaining = order.remainingQuantity := hx
    refine ⟨trivial, hkeep rfl ?_⟩
    rw [show W.flight = some order from hg]
    simp [run, hsame]
  | fill ts order resting f left reported =>
    obtain ⟨hfl, hmeet⟩ := hg
    obtain ⟨-, -, -, hleft⟩ := hx
    have hwhole : order.Whole :=
      (hJ order hfl).resolve_right fun hno => hno.2.not_meets hmeet
    refine ⟨trivial, fun o ho => .inl ?_⟩
    have hshown := hwhole.shown
    obtain rfl := some.inj ho
    exact ⟨by simp only [hleft]; omega, hwhole.total⟩
  | cancelResting ts order resting f notify => exact ⟨trivial, hkeep rfl hg.1.symm⟩
  | drop | rest | park => exact ⟨trivial, World.Shown.none _⟩
  | finish order =>
    obtain ⟨hfl, hzero⟩ := hg
    refine ⟨(hJ order hfl).resolve_right fun hno => ?_, World.Shown.none _⟩
    omega
  | trigger stop =>
    obtain ⟨hfl, -, hnext⟩ := hg
    have hwait := nextTriggeredStop_waits (hs.holds_none hfl) hnext
    have hled := hb.agree stop.id
    rw [hs.view_waits hwait] at hled
    refine ⟨trivial, fun o ho => .inl ?_⟩
    obtain rfl := some.inj ho
    exact (hled.triggered (hs.isStop_of_waits hwait)).2
  | _ => simp [routed, landing, matching] at hm

/-- The state between operations, and where an operation stops. -/
def World.Books (X : Exchange D) (W : World D) : Prop :=
  W.Sound X True ∧ W.Balanced

theorem World.Books.step (h : W.Books X) (hg : m.guard X W) (hx : m.exact) (hc : m.careful) :
    (m.run X W).Books X :=
  ⟨h.1.run hg fun _ => hx, h.2.run h.1 hg hx hc⟩

theorem routed_keeps {r : Outcome D (Engine D)} (hrun : OpOutcome X True c routed W r)
    (h : W.Books X) (hJ : W.Shown) : Outcome.Keeps (World.Books X) r := by
  have hk := hrun.keeps (I := fun V => V.Balanced ∧ V.Shown) h.1 ⟨h.2, hJ⟩
    fun m V hV hI hg hl hm => by
      have hx := hl.exact trivial
      obtain ⟨hc, hJ'⟩ := hI.2.run hI.1 hV hg hx hm
      exact ⟨hI.1.run hV hg hx hc, hJ'⟩
  cases r with
  | ok e => exact ⟨hk.1, hk.2.1⟩
  | error r =>
    obtain ⟨fl, hs, hb⟩ := hk
    exact ⟨fl, hs, hb.1⟩

/-- The operations under which quantities are conserved. An iceberg that hides a part may enter
only where it does not match, and a modification of one may not ask for less than its total. -/
def Engine.conserving (X : Exchange D) (e : Engine D) : Action → Prop
  | .newOrder req => req.shown ∨ (req.type.isStop = false ∧
    (e.currentState.isCollectionPhase = true ∨ e.clearOf (e.buildOrder X req {})))
  | .cancelOrder .. => True
  | .modifyOrder req => ∀ order ∈ e.linked, order.id = req.orderId →
    e.rests order ∧ order.filledQuantity ≤ req.newQuantity ∧
      (order.displayQty ≤ 0 ∨ order.totalQty ≤ req.newQuantity)
  | .executeAuction .. => True
  | _ => False

theorem collect_keeps (fuel : Nat) {order : Order} (h : World.Books X ⟨e, some order⟩)
    (htype : order.type = req.type) (hstop : req.type.isStop = false)
    (hrem : order.remainingQuantity ≠ 0) (hphase : e.currentState.isCollectionPhase = true) :
    Outcome.Keeps (World.Books X) (e.routeOrder X fuel req order) := by
  unfold routeOrder
  simp only [hstop, hphase, Bool.false_eq_true, if_false, if_true]
  split
  next hlimit =>
    have hrest := h.step (m := .rest order req.timestamp) ⟨rfl, htype.trans hlimit, hrem⟩ trivial
      trivial
    exact hrest.step (m := .topOfBook req.timestamp) trivial trivial trivial
  next => exact h.step (m := .drop order req.timestamp .iocRemainder) rfl trivial trivial

theorem World.Books.rate (h : World.Books X ⟨e, none⟩) (t : RateTracker) :
    World.Books X ⟨{ e with rateTracker := t }, none⟩ := by
  have hnote := h.step (m := .note t []) (by simp [Move.guard]) trivial trivial
  simpa [run] using hnote

theorem newOrder_keeps (fuel : Nat) (h : World.Books X ⟨e, none⟩)
    (haction : currentAction e.journal = some (.newOrder req))
    (hok : e.conserving X (.newOrder req)) :
    Outcome.Keeps (World.Books X) (e.newOrder X fuel req) := by
  rcases newOrder_cases fuel req e with
    ⟨t, reason, heq⟩ | ⟨t, slot, pool, hpool, hchecks, heq⟩
  · rw [heq]
    exact h.step (m := .note t [.event (.orderRejected req.clientOrderId req.timestamp reason)])
      (by simp [Move.guard, JournalEntry.quiet]) trivial trivial
  · rw [heq]
    let e₁ : Engine D := { e with rateTracker := t }
    let order := e.buildOrder X req slot
    have hstop : req.type.isStop = true → req.shown := fun hs =>
      hok.resolve_right fun hno => by simp [hno.1] at hs
    have haccept : World.Books X ⟨e₁.acceptOrder order pool req.timestamp, some order⟩ :=
      (h.rate t).step (m := .accept req slot pool) ⟨rfl, hpool, hchecks, haction⟩ trivial hstop
    have hpos : 0 < order.remainingQuantity := buildOrder_remaining_pos slot hchecks
    have hroute : World.Shown ⟨e₁.acceptOrder order pool req.timestamp, some order⟩ →
        Outcome.Keeps (World.Books X)
          ((e₁.acceptOrder order pool req.timestamp).routeOrder X fuel req order) := fun hJ =>
      routed_keeps (routeOrder_run (fun _ => id) fuel haccept.1 False.elim False.elim
        rfl (buildOrder_price_of_stop slot) hpos.ne') haccept hJ
    rcases hok with hshown | ⟨hnostop, hphase | hclear⟩
    · refine hroute fun o ho => .inl ?_
      obtain rfl := some.inj ho
      exact buildOrder_whole slot hshown
    · exact collect_keeps fuel haccept rfl hnostop hpos.ne' hphase
    · have hbeyond := hclear.beyond h.1.holds
      refine hroute fun o ho => .inr ?_
      obtain rfl := some.inj ho
      exact ⟨hpos, hbeyond⟩

theorem modifyOrder_keeps (fuel : Nat) {req : ModifyRequest} (h : World.Books X ⟨e, none⟩)
    (hok : e.conserving X (.modifyOrder req)) :
    Outcome.Keeps (World.Books X) (e.modifyOrder X fuel req) := by
  have hH : e.holdings.Sound X True [] := h.1.holds_none rfl
  rcases modifyOrder_cases fuel req hH with
    ⟨t, reason, heq⟩ | ⟨t, order, hmem, hid, ⟨hamend, heq⟩ | ⟨-, heq⟩⟩
  · rw [heq]
    exact h.step (m := .note t
      [.event (.orderModifyRejected req.orderId req.clientOrderId req.timestamp reason)])
      (by simp [Move.guard, JournalEntry.quiet]) trivial trivial
  · rw [heq]
    obtain ⟨hrest, -, htotal⟩ := hok order hmem hid
    exact (h.rate t).step (m := .amend order req) (guard_amend hamend hrest t) trivial htotal
  · obtain ⟨hrest, hfilled, htotal⟩ := hok order hmem hid
    have hrest' : ({ e with rateTracker := t } : Engine D).rests order := hrest
    have hpull := (h.rate t).step (m := .pull order req) ⟨rfl, hrest⟩ hfilled htotal
    have htype : order.type = .limit := type_of_rests hH hrest
    rw [heq, replaceOrder_eq fuel hrest']
    refine routed_keeps (matchAndTrigger_run (fun _ => routed_of_landing) fuel
      req.timestamp hpull.1 False.elim False.elim (.inl htype)) hpull fun o ho => .inl ?_
    obtain rfl := some.inj ho
    exact ⟨by simp only [Order.replaced]; omega, htotal⟩

theorem perform_keeps_books (fuel : Nat) {a : Action} (h : World.Books X ⟨e, none⟩)
    (hok : e.conserving X a) : Outcome.Keeps (World.Books X) (e.perform X fuel a) := by
  have hrec : World.Books X ⟨e.record a, none⟩ :=
    h.step (m := .note e.rateTracker [.action a]) (by simp [Move.guard, JournalEntry.quiet]) trivial
      trivial
  have hplain : (∀ m : Move D, m.partOf a = true → m.careful) → e.Admits True False a →
      Outcome.Keeps (World.Books X) (e.perform X fuel a) := fun hm ha =>
    (perform_run fuel h.1 False.elim False.elim ha).keeps h.1 h.2
      fun m V hV hI hg hl hp => hI.run hV hg (hl.exact trivial) (hm m hp)
  cases a with
  | newOrder req => exact newOrder_keeps fuel hrec (currentAction_record _ e) hok
  | modifyOrder req => exact modifyOrder_keeps fuel hrec hok
  | cancelOrder | executeAuction =>
    exact hplain (fun m hm => by cases m <;> trivial) trivial
  | _ => exact hok.elim

theorem World.Sound.view_eq_none (h : W.Sound X w) {id : Nat}
    (hid : W.engine.orderIndex id = none) : W.view id = none := by
  by_contra hne
  obtain ⟨o, ho⟩ := ne_none_iff_exists'.mp hne
  obtain ⟨hmem, rfl⟩ := (byId_eq_some h.nodup).mp ho
  have hin : o.id ∈ W.flight.toList.map (·.id) ++ W.engine.holdings.ids := by
    rw [Holdings.ids_eq, ← List.map_append]
    exact List.mem_map_of_mem hmem
  have hidx : W.engine.orderIndex o.id = some o.id := (h.holds.owns.index _ _).mpr ⟨rfl, hin⟩
  simp [hid] at hidx

theorem World.Books.conserves (h : W.Books X) : W.engine.Conserves where
  bounded := register_heeds.always h.2.bounded
  accounted := by
    intro id r hr hidx
    have hled := h.2.agree id
    rw [h.1.view_eq_none hidx, records, tape, register_heeds.state_filter] at hled
    exact (hled r hr).2

theorem init_books (X : Exchange D) (config : EngineConfig) (derived : D)
    (slots : Nat → SlotResidue) : World.Books X ⟨init X config derived slots, none⟩ := by
  refine ⟨init_sound X True config derived slots, ?_, fun id => ?_⟩
  · exact Observer.always_nil fun id r hr => by simp [register] at hr
  · intro r hr
    simp [records, tape, init, Observer.state, register] at hr

/-- Quantities are conserved in every run whose operations meet the condition and ask for no more
than the products of a policy have room for. This also holds where an operation does not come to
its end. -/
theorem reach_conserves (X : Exchange D) (config : EngineConfig) (derived : D)
    (slots : Nat → SlotResidue) {e : Engine D}
    (h : Reach X (fun e a => e.conserving X a ∧ e.sized shareCap a)
      (Engine.init X config derived slots) e) :
    e.Conserves ∧ ∀ a fuel fault e', e.conserving X a → e.sized shareCap a →
      e.perform X fuel a = .error (fault, e') → e'.Conserves := by
  obtain ⟨hbooks, hend⟩ := reach_keeps (init_books X config derived slots)
    (fun e a fuel ha hI => perform_keeps_books fuel hI ha.1) h
  refine ⟨hbooks.conserves, fun a fuel fault e' ha hsize hperf => ?_⟩
  have hk := hend a fuel ⟨ha, hsize⟩
  rw [hperf] at hk
  obtain ⟨fl, hb⟩ := hk
  exact hb.conserves

/-- An offer, a bid that shows all it asks for and takes the offer, a bid that is cancelled, and
an auction. -/
theorem reach_conserves_sample : (runAll sampleExchange
    [.newOrder (limitRequest .sell 101 5),
      .newOrder { limitRequest .buy 101 5 with displayQty := 5 },
      .newOrder (limitRequest .buy 100 7), .cancelOrder 3 2, .executeAuction 100 3]
    (sampleStart sampleExchange sampleConfig ())).Conserves :=
  (reach_conserves sampleExchange sampleConfig () (fun _ => {})
    (reach_runAll (by simp [conserving, sized, shareCap, OrderRequest.shown, limitRequest])
      (by decide +kernel))).1

def Action.dealing : Action → Prop
  | .newOrder _ => True
  | .cancelOrder .. => True
  | .modifyOrder _ => True
  | .executeAuction .. => True
  | _ => False

/-- An offer of 10, and an iceberg bid for 10 that shows 4: it trades 4 and is gone, with 6
never traded and no cancellation. -/
def icebergActions : List Action :=
  [.newOrder (limitRequest .sell 100 10),
    .newOrder { limitRequest .buy 100 10 with displayQty := 4 }]

theorem iceberg_not_conserved : ¬∀ e : Engine Unit,
    Reach sampleExchange (fun _ a => a.dealing) (sampleStart sampleExchange sampleConfig ()) e →
      e.Conserves := by
  intro h
  have hcons := h (runAll sampleExchange icebergActions
    (sampleStart sampleExchange sampleConfig ()))
    (reach_runAll (by simp [icebergActions, Action.dealing]) (by decide +kernel))
  have hgone := hcons.accounted 2
    { OrderRecord.accepted { limitRequest .buy 100 10 with displayQty := 4 } with traded := 4 }
    (by decide +kernel) (by decide +kernel)
  simp [OrderRecord.accepted, limitRequest] at hgone

def shrinkRequest (newQuantity : Int) : ModifyRequest where
  orderId := 1
  clientOrderId := 0
  newPrice := 100
  newQuantity := newQuantity
  timestamp := 3

/-- The order before it has traded more than the modification asks for. -/
example : ¬(runAll sampleExchange
    [.newOrder (limitRequest .sell 100 10), .newOrder (limitRequest .buy 100 6),
      .modifyOrder (shrinkRequest 4)] (sampleStart sampleExchange sampleConfig ())).Conserves := by
  intro h
  have hbound := h.bounded.now 1 { OrderRecord.accepted (limitRequest .sell 100 10) with
    price := 100, quantity := 4, traded := 6 } (by decide +kernel)
  simp at hbound

/-- An iceberg modified to less than its first total goes on to that total. -/
example : ¬(runAll sampleExchange
    [.newOrder { limitRequest .sell 100 10 with displayQty := 2 },
      .modifyOrder (shrinkRequest 6), .newOrder (limitRequest .buy 100 10)]
    (sampleStart sampleExchange sampleConfig ())).Conserves := by
  intro h
  have hbound := h.bounded.now 1
    { OrderRecord.accepted { limitRequest .sell 100 10 with displayQty := 2 } with
      price := 100, quantity := 6, traded := 10 } (by decide +kernel)
  simp at hbound

end ExchangeSim
