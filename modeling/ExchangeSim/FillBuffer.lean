import ExchangeSim.Crowding
import ExchangeSim.Faults
import ExchangeSim.Policies

/-!
The fill buffer of a level pass has room for 256 results, and the policies write as many as the
level asks for. What keeps them within the buffer is how many orders a price can come to hold.
-/

namespace ExchangeSim

open Engine List

variable {D α : Type} {X : Exchange D} {k : ℕ∞} {n : Nat} {ts price q : Int} {e : Engine D}
  {fuel : Nat} {ord : Order} {reason : CancelReason} {a : Action}

def Outcome.InBuffer (r : Outcome D α) : Prop :=
  r.Avoids .fillBuffer

open Outcome

section others

variable {e : Engine D} {order : Order}

theorem inBuffer_bookRemoveOrder : Avoids .fillBuffer (e.bookRemoveOrder order) := by
  unfold Avoids bookRemoveOrder
  grind

theorem inBuffer_stopBookRemoveStop : Avoids .fillBuffer (e.stopBookRemoveStop order) := by
  unfold Avoids stopBookRemoveStop
  grind

theorem inBuffer_indexed {id : Nat} : Avoids .fillBuffer (e.indexed id) :=
  indexed_avoids (by simp)

theorem inBuffer_cancelActiveOrder : Avoids .fillBuffer (e.cancelActiveOrder order ts reason) := by
  unfold Avoids cancelActiveOrder
  grind [Avoids, inBuffer_stopBookRemoveStop, inBuffer_bookRemoveOrder]

theorem inBuffer_cancelOrder {id : Nat} : Avoids .fillBuffer (e.cancelOrder X id ts) := by
  unfold Avoids cancelOrder
  grind [Avoids, inBuffer_indexed, inBuffer_cancelActiveOrder]

theorem inBuffer_cancelWhere {select : Order → Bool} (ids : List Nat) (count : Nat) (e : Engine D) :
    Avoids .fillBuffer (e.cancelWhere select ts reason ids count) := by
  induction ids generalizing count e with
  | nil => exact fun _ => by simp [cancelWhere]
  | cons id ids ih =>
    unfold Avoids cancelWhere
    grind [Avoids, inBuffer_indexed, inBuffer_cancelActiveOrder]

theorem inBuffer_applyImpliedLegs (fills : List LegFill) (e : Engine D) :
    Avoids .fillBuffer (e.applyImpliedLegs X ts fills) := by
  induction fills generalizing e with
  | nil => exact fun _ => by simp [applyImpliedLegs]
  | cons fill fills ih =>
    have hfill : Avoids .fillBuffer (e.applyImpliedFill X ts fill) := by
      unfold Avoids applyImpliedFill
      grind [Avoids, inBuffer_indexed, inBuffer_bookRemoveOrder]
    unfold Avoids applyImpliedLegs
    grind [Avoids]

/-- Only the operations that call `match_order` come to the buffer at all. -/
theorem perform_inBuffer_of_not_entering (ha : a.entering = false) (fuel : Nat) (e : Engine D) :
    Avoids .fillBuffer (e.perform X fuel a) := by
  cases a with
  | newOrder | modifyOrder => simp [Action.entering] at ha
  | cancelOrder id ts => exact inBuffer_cancelOrder
  | triggerExpiry | massCancel | massCancelAll => exact Avoids.map (inBuffer_cancelWhere _ _ _) _
  | bustTrade id reason ts => exact bustTrade_avoids (by simp)
  | executeAuction price ts => exact executeAuction_avoids (by simp) (by simp)
  | applyImpliedFills fills ts =>
    refine Avoids.map ?_ _
    unfold Avoids applyImpliedFills
    grind [Avoids, inBuffer_applyImpliedLegs]
  | _ => exact .ok _

end others

/-- The match loop stays within the buffer while no price holds more orders than there are
results to write. -/
theorem inBuffer_matchLoop (hX : X.algo.Writes n) (hk : k + n ≤ kMaxFills) (ts : Int) (fuel : Nat)
    (hs : World.Sound X True ⟨e, some ord⟩) (hu : World.Uncrowded k ⟨e, some ord⟩)
    (hent : ord.Entered) : Avoids .fillBuffer (e.matchLoop X ts fuel ord) := by
  refine matchLoop_rule X ts (P := fun _ o e r => World.Sound X True ⟨e, some o⟩ →
    World.Uncrowded k ⟨e, some o⟩ → o.Entered → Avoids .fillBuffer r) ?_ ?_ ?_ ?_ ?_ ?_ fuel ord e
    hs hu hent
  · exact fun _ _ _ _ _ => .fault (by simp)
  · exact fun _ _ _ _ _ _ _ => .ok _
  · intro _ o e level deeper hturn hover hs hu hent
    have hfits := (results_length_le hu hX hs hturn).trans hk
    exact absurd (by exact_mod_cast hfits) (not_le.mpr hover)
  · exact fun _ _ _ _ _ _ hturn hpass hs _ hent => absurd hpass (pass_ne_error hs hturn hent)
  · exact fun _ _ _ _ _ _ _ _ _ _ _ _ _ => .ok _
  · intro _ o e level deeper o' e' r hturn hpass ih hs hu hent
    obtain ⟨-, hent', hs'⟩ := (pass_ok (c := False) hs hturn hent hpass).2 o' rfl
    exact ih hs' (pass_uncrowded hu hs hturn hent hpass) hent'

theorem inBuffer_matchOrder (hX : X.algo.Writes n) (hk : k + n ≤ kMaxFills)
    (hs : World.Sound X True ⟨e, some ord⟩) (hu : World.Uncrowded k ⟨e, some ord⟩)
    (hent : ord.Entered) : Avoids .fillBuffer (e.matchOrder X fuel ord ts) := by
  unfold matchOrder
  split
  · exact .ok _
  · split
    next h => exact (inBuffer_matchLoop hX hk ts fuel hs hu hent).error h
    next => exact .ok _
    next => exact .ok _

theorem matchOrder_inRoom (hX : X.algo.Writes n) (hk : k + n ≤ kMaxFills)
    (hs : World.Sound X True ⟨e, some ord⟩) (hu : World.Uncrowded k ⟨e, some ord⟩)
    (hent : ord.Entered) :
    Outcome.Ends (fun W => W.Sound X True ∧ W.Uncrowded k) (fun f _ => f ≠ .fillBuffer)
      (e.matchOrder X fuel ord ts) := by
  have hkeeps := (matchOrder_run (fun _ => id) fuel ts hs
    False.elim False.elim hent).keeps hs hu
    fun m V hV hI hg _ hm => hI.run hV hg (Move.settled_of_routed (Move.routed_of_landing hm))
  have hbuffer : Avoids .fillBuffer (e.matchOrder X fuel ord ts) := inBuffer_matchOrder hX hk hs hu hent
  cases hm : e.matchOrder X fuel ord ts with
  | ok e' =>
    rw [hm] at hkeeps
    exact hkeeps
  | error err =>
    obtain ⟨f, e'⟩ := err
    refine ⟨none, ?_⟩
    rintro rfl
    exact hbuffer e' hm

theorem trigger_inRoom {stop : Order}
    (h : World.Sound X True ⟨e, none⟩ ∧ World.Uncrowded k ⟨e, none⟩)
    (hg : Move.guard X (.trigger stop) ⟨e, none⟩) :
    World.Sound X True ⟨e.removeStop stop, some stop.triggered⟩ ∧
      World.Uncrowded k ⟨e.removeStop stop, some stop.triggered⟩ :=
  ⟨h.1.run hg fun _ => trivial, h.2.run (m := .trigger stop) h.1 hg rfl⟩

theorem Outcome.Ends.inBuffer {I : World D → Prop} {r : Outcome D (Engine D)}
    (h : Outcome.Ends I (fun f _ => f ≠ .fillBuffer) r) : Avoids .fillBuffer r := by
  rintro e rfl
  obtain ⟨_, hf⟩ := h
  exact hf rfl

theorem inBuffer_checkAndTriggerStops (hX : X.algo.Writes n) (hk : k + n ≤ kMaxFills) (ts : Int)
    (fuel rounds : Nat) (hs : World.Sound X True ⟨e, none⟩) (hu : World.Uncrowded k ⟨e, none⟩) :
    Avoids .fillBuffer (e.checkAndTriggerStops X fuel ts rounds) :=
  (checkAndTriggerStops_calls (fun _ _ => trigger_inRoom)
    (fun _ _ hI hent => matchOrder_inRoom hX hk hI.1 hI.2 hent) (fun _ _ => by simp) rounds
    ⟨hs, hu⟩).inBuffer

theorem perform_inBuffer (hX : X.algo.Writes n) (hk : k + n ≤ kMaxFills) (fuel : Nat)
    (hs : World.Sound X True ⟨e, none⟩) (hu : World.Uncrowded k ⟨e, none⟩) (hok : e.roomy k a) :
    Avoids .fillBuffer (e.perform X fuel a) := by
  by_cases ha : a.entering = true
  · rcases entering_admitted fuel ha hs hu hok with
      ⟨e', heq, -⟩ | ⟨e₁, order, ts, heq, hbrings⟩
    · rw [heq]
      exact .ok _
    · rw [heq]
      exact (matchAndTrigger_calls (fun _ _ => trigger_inRoom)
        (fun _ _ hI hent => matchOrder_inRoom hX hk hI.1 hI.2 hent) (fun _ _ => by simp)
        ⟨hbrings.run.sound hs, hbrings.uncrowded⟩ hbrings.entered).inBuffer
  · exact perform_inBuffer_of_not_entering (by simpa using ha) fuel e

/-- Where never more than `k` orders belong to one price, with what the policy writes besides
within 256, every call of the policy stays within the fill buffer. -/
theorem reach_inBuffer {p : Policy} (halgo : X.algo = p.algo) {k : Nat}
    (hk : k + p.spare ≤ kMaxFills) {config : EngineConfig} {derived : D}
    {slots : Nat → SlotResidue} {e : Engine D}
    (h : Reach X (Engine.roomy k) (Engine.init X config derived slots) e) {a : Action}
    (ha : e.roomy k a) (fuel : Nat) : InBuffer (e.perform X fuel a) := by
  obtain ⟨hs, hu⟩ := reach_uncrowded h
  have hX : X.algo.Writes p.spare := halgo ▸ p.algo_writes
  exact perform_inBuffer hX (by exact_mod_cast hk) fuel hs hu ha

section overflow

def wideExchange : Exchange Unit :=
  { sampleExchange with maxOrders := 300, maxOrderIds := 300 }

/-- Two offers at 100, and a bid that takes all of the first and a part of the second. -/
theorem reach_inBuffer_sample :
    let e := runAll wideExchange
      [.newOrder (limitRequest .sell 100 5), .newOrder (limitRequest .sell 100 4)]
      (sampleStart wideExchange sampleConfig ())
    (e.book .sell).map (·.orders.length) = [2] ∧
      Reach wideExchange (roomy (256 : Nat)) (sampleStart wideExchange sampleConfig ()) e ∧
      InBuffer (e.perform wideExchange 20 (.newOrder (limitRequest .buy 100 8))) := by
  intro e
  let start := sampleStart wideExchange sampleConfig ()
  have hfirst : start.roomy (256 : Nat) (.newOrder (limitRequest .sell 100 5)) :=
    roomy_of_count (init_sound wideExchange True sampleConfig () fun _ => {}) (by decide +kernel)
  have hone := Reach.start.step hfirst
    (Outcome.eq_ok (r := start.perform wideExchange 20 _) (by decide +kernel))
  have hsecond : (Outcome.engine (start.perform wideExchange 20
      (.newOrder (limitRequest .sell 100 5)))).roomy (256 : Nat)
        (.newOrder (limitRequest .sell 100 4)) :=
    roomy_of_count (reach_uncrowded hone).1 (by decide +kernel)
  have hreach : Reach wideExchange (roomy (256 : Nat)) start e :=
    reach_passes ⟨hfirst, hsecond, trivial⟩ (by decide +kernel)
  have hs := (reach_uncrowded hreach).1
  exact ⟨by decide +kernel, hreach, reach_inBuffer (p := .fifo) rfl (by decide) hreach
    (roomy_of_count hs (by decide +kernel)) 20⟩

/-- The book is one level of `n` offers of one at 100, and nothing has been traded. -/
structure Stacked (n : Nat) (e : Engine Unit) : Prop where
  offers : ∃ l, e.book .sell = [l] ∧ l.price = 100 ∧ l.orders.length = n ∧
    ∀ o ∈ l.orders, o.remainingQuantity = 1
  bids : e.book .buy = []
  slots : e.orderPool.free.length + n = 300
  levels : e.levelPool.free ≠ []
  next : e.nextOrderId = n + 1
  config : e.config = sampleConfig
  phase : e.currentState = .continuous
  untraded : e.lastTradePrice = 0

theorem Stacked.perform_eq {e : Engine Unit} (h : Stacked n e) (hn : n < 299) (side : Side)
    (hq : 0 < q) : ∃ slot rest, e.orderPool.free = slot :: rest ∧
      let req := limitRequest side 100 q
      let order := e.buildOrder wideExchange req slot
      e.perform wideExchange 20 (.newOrder req) =
        ((e.record (.newOrder req)).acceptOrder order ⟨rest, e.orderPool.allocated + 1⟩
          1).matchAndTrigger wideExchange 20 order 1 := by
  obtain ⟨slot, rest, hfree⟩ : ∃ slot rest, e.orderPool.free = slot :: rest := by
    have hpos : e.orderPool.free ≠ [] := by
      intro hnil
      have := h.slots
      simp only [hnil, length_nil] at this
      omega
    exact exists_cons_of_ne_nil hpos
  refine ⟨slot, rest, hfree, ?_⟩
  intro req order
  let e₀ := e.record (.newOrder req)
  have hrate : e₀.rateCheck wideExchange req.accountId req.timestamp = (true, e₀) := rfl
  have hchecks : firstFailure (e₀.newOrderChecks wideExchange req) = none := by
    have hnext : ¬300 ≤ e.nextOrderId := by
      have := h.next
      omega
    simp [firstFailure, newOrderChecks, e₀, record, h.config, h.phase, hnext, req,
      wideExchange, sampleExchange, sampleConfig, limitRequest, OrderType.isStop, hq]
  have hpool : e₀.orderPool.allocate = some (slot, ⟨rest, e.orderPool.allocated + 1⟩) := by
    simp [ObjectPool.allocate, e₀, record, hfree]
  have hphase : (e₀.acceptOrder order ⟨rest, e.orderPool.allocated + 1⟩
      1).currentState.isCollectionPhase = false := by
    change e.currentState.isCollectionPhase = false
    rw [h.phase]
    rfl
  change e₀.newOrder wideExchange 20 req = _
  unfold newOrder
  simp only [hrate, hchecks, hpool, Bool.not_true, Bool.false_eq_true, if_false]
  change (e₀.acceptOrder order _ 1).routeOrder wideExchange 20 req order = _
  unfold routeOrder
  rw [hphase]
  rfl

theorem insertIntoBook_joins {o : Order} {l : PriceLevel} (ts : Int) (hbook : e.book o.side = [l])
    (hprice : l.price = o.price) (hpool : e.levelPool.free ≠ []) :
    ∃ entries, e.insertIntoBook o ts = { e with
      book := Function.update e.book o.side [l.append o]
      journal := e.journal ++ entries } := by
  obtain ⟨u, rest, hfree⟩ := exists_cons_of_ne_nil hpool
  have halloc : e.levelPool.allocate = some (u, ⟨rest, e.levelPool.allocated + 1⟩) := by
    simp [ObjectPool.allocate, hfree]
  have hback : ObjectPool.deallocate ⟨rest, e.levelPool.allocated + 1⟩ () = e.levelPool := by
    simp [ObjectPool.deallocate, ← hfree]
  have hinsert : insertAt (bookBefore o.side) o.price o (e.book o.side) = ([l.append o], false) := by
    simp [insertAt, findLevel, hbook, hprice]
  have hlevel : levelOf o.id [l.append o] = some (l.append o) := by
    simp [levelOf, PriceLevel.has, PriceLevel.append]
  simp [insertIntoBook, halloc, hinsert, hback, setBook, emit, hlevel,
    fireDepth]

theorem Stacked.offer {e : Engine Unit} (h : Stacked n e) (hn : n < 299) :
    ∃ e', e.perform wideExchange 20 (.newOrder (limitRequest .sell 100 1)) = .ok e' ∧
      Stacked (n + 1) e' := by
  obtain ⟨slot, rest, hfree, heq⟩ := h.perform_eq hn .sell (q := 1) (by decide)
  obtain ⟨l, hbook, hprice, hlen, hunit⟩ := h.offers
  let order := e.buildOrder wideExchange (limitRequest .sell 100 1) slot
  let e₁ := (e.record (.newOrder (limitRequest .sell 100 1))).acceptOrder order
    ⟨rest, e.orderPool.allocated + 1⟩ 1
  obtain ⟨entries, hins⟩ := insertIntoBook_joins (e := e₁) (o := order) 1 hbook hprice h.levels
  have hclear : e₁.clearOf order := by
    intro level hlevel
    rw [show e₁.book order.side.opposite = [] from h.bids] at hlevel
    simp at hlevel
  have hmatch : e₁.matchOrder wideExchange 20 order 1 =
      .ok ((e₁.insertIntoBook order 1).fireTopOfBook 1) := by
    unfold matchOrder
    rw [matchLoop_done (.inr hclear)]
    rfl
  have hquiet : ∀ e' : Engine Unit, e'.lastTradePrice = 0 →
      e'.checkAndTriggerStops wideExchange 20 1 20 = .ok e' := by
    intro e' hlast
    unfold checkAndTriggerStops
    simp [hlast]
  refine ⟨(e₁.insertIntoBook order 1).fireTopOfBook 1, ?_, ?_⟩
  · rw [heq]
    unfold matchAndTrigger
    rw [hmatch]
    exact hquiet _ (by rw [hins]; exact h.untraded)
  · rw [hins]
    refine ⟨⟨l.append order, rfl, hprice, ?_, ?_⟩, h.bids, ?_, h.levels, ?_, h.config, h.phase,
      h.untraded⟩
    · simp [PriceLevel.append, hlen]
    · intro o ho
      rcases List.mem_append.mp ho with ho | ho
      · exact hunit o ho
      · obtain rfl := mem_singleton.mp ho
        rfl
    · have hslots := h.slots
      rw [hfree, List.length_cons] at hslots
      change rest.length + (n + 1) = 300
      omega
    · change max e.nextOrderId (e.nextOrderId + 1) = n + 1 + 1
      have := h.next
      omega

theorem reach_stacked (hn : n < 299) : ∃ e, Stacked (n + 1) e ∧
    Reach wideExchange (fun _ _ => True) (sampleStart wideExchange sampleConfig ()) e := by
  induction n with
  | zero =>
    let e := runAll wideExchange [.newOrder (limitRequest .sell 100 1)]
      (sampleStart wideExchange sampleConfig ())
    refine ⟨e, ?_, reach_runAll (by simp) (by decide +kernel)⟩
    refine ⟨⟨((e.book .sell).head?).getD ⟨0, 0, 0, []⟩, ?_⟩, ?_, ?_, ?_, ?_, ?_, ?_, ?_⟩ <;> decide +kernel
  | succ n ih =>
    obtain ⟨e, hstacked, hreach⟩ := ih (by omega)
    obtain ⟨e', hperf, hstacked'⟩ := hstacked.offer (by omega)
    exact ⟨e', hstacked', hreach.step trivial hperf⟩

theorem fifoWalk_units (price : Int) {os : List Order} (h : ∀ o ∈ os, o.remainingQuantity = 1) :
    (fifoWalk price os os.length).results.length = os.length := by
  induction os with
  | nil => rfl
  | cons o os ih =>
    have hone := h o (by simp)
    have hrest : ((o :: os).length : Int) - min ((o :: os).length : Int) o.remainingQuantity =
        os.length := by
      simp only [List.length_cons, hone]
      omega
    have hpos : ((o :: os).length : Int) > 0 := by simp
    unfold fifoWalk
    rw [if_pos hpos]
    dsimp only
    rw [hrest, List.length_cons, ih fun o ho => h o (mem_cons_of_mem _ ho), List.length_cons]

/-- A bid for 257 offers of one makes `FifoMatch` write 257 results. -/
theorem stackedOffers_overflow : ∃ e,
    Reach wideExchange (fun _ _ => True) (sampleStart wideExchange sampleConfig ()) e ∧
      ∃ e', e.perform wideExchange 20 (.newOrder (limitRequest .buy 100 257)) =
        .error (.fillBuffer, e') := by
  obtain ⟨e, h, hreach⟩ := reach_stacked (n := 256) (by omega)
  refine ⟨e, hreach, ?_⟩
  obtain ⟨slot, rest, -, heq⟩ := h.perform_eq (by omega) .buy (q := 257) (by decide)
  obtain ⟨l, hbook, hprice, hlen, hunit⟩ := h.offers
  let order := e.buildOrder wideExchange (limitRequest .buy 100 257) slot
  let e₁ := (e.record (.newOrder (limitRequest .buy 100 257))).acceptOrder order
    ⟨rest, e.orderPool.allocated + 1⟩ 1
  have hresults : (wideExchange.algo.matchLevel l order.remainingQuantity).results.length = 257 := by
    have hunits := fifoWalk_units l.price hunit
    rw [hlen] at hunits
    exact hunits
  have hloop : e₁.matchLoop wideExchange 1 20 order = .error (.fillBuffer, e₁) := by
    have hbook₁ : e₁.book order.side.opposite = [l] := hbook
    have hallow : order.allows l.price = true := by
      rw [hprice]
      rfl
    have hpos : ¬order.remainingQuantity ≤ 0 := by
      change ¬(257 : Int) ≤ 0
      decide
    unfold matchLoop
    simp only [hpos, if_false, hbook₁, hallow, Bool.not_true, Bool.false_eq_true, hresults]
    rfl
  refine ⟨e₁, ?_⟩
  rw [heq]
  change e₁.matchAndTrigger wideExchange 20 order 1 = _
  have hmatch : e₁.matchOrder wideExchange 20 order 1 = .error (.fillBuffer, e₁) := by
    unfold matchOrder
    rw [hloop]
    rfl
  unfold matchAndTrigger
  rw [hmatch]

end overflow

end ExchangeSim
