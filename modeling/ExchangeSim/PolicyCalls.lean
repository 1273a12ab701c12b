import ExchangeSim.ActionRuns

/-!
The calls of the match policy. Only `new_order` and `modify_order` match, so an operation calls the
policy once for each level pass of the order it enters and of the stops that order sets off.
-/

namespace ExchangeSim

open Engine Option

variable {D : Type} {X : Exchange D} {e e' : Engine D} {order order' : Order} {fuel : Nat}
  {level : PriceLevel} {deeper : List PriceLevel} {req : OrderRequest}

/-- What a level pass leaves to the next one: nothing where the loop ends. -/
def Engine.nextPass (X : Exchange D) (ts : Int) (level : PriceLevel) (deeper : List PriceLevel)
    (order : Order) (e : Engine D) : Option (Order × Engine D) :=
  let m := X.algo.matchLevel level order.remainingQuantity
  if m.results.length > kMaxFills then none
  else
    match (e.setBook order.side.opposite ({ level with orders := m.orders } :: deeper)).processFills
        X ts m.results { order with remainingQuantity := m.remaining } with
    | .ok (some order, e) =>
      let limit := e.checkDailyLimitHit X ts
      if limit.1 then none
      else
        let vi := limit.2.checkVolatilityInterruption X ts
        if vi.1 then none else some (order, vi.2)
    | _ => none

/-- The level and the quantity the match loop hands to its policy, pass by pass. -/
def Engine.loopCalls (X : Exchange D) (ts : Int) : Nat → Order → Engine D → List (PriceLevel × Int)
  | 0, _, _ => []
  | fuel + 1, order, e =>
    if order.remainingQuantity ≤ 0 then []
    else match e.book order.side.opposite with
      | [] => []
      | level :: deeper =>
        if !order.allows level.price then []
        else (level, order.remainingQuantity) ::
          match e.nextPass X ts level deeper order with
          | none => []
          | some (order, e) => Engine.loopCalls X ts fuel order e

def Engine.matchCalls (X : Exchange D) (fuel : Nat) (order : Order) (ts : Int) (e : Engine D) :
    List (PriceLevel × Int) :=
  if order.tif = .fok ∧ computeMatchableQty e.book order < order.remainingQuantity then []
  else e.loopCalls X ts fuel order

def Engine.cascadeCalls (X : Exchange D) (fuel : Nat) (ts : Int) :
    Nat → Engine D → List (PriceLevel × Int)
  | 0, _ => []
  | rounds + 1, e =>
    if e.lastTradePrice > 0 ∧ e.hasTriggeredStops then
      match e.nextTriggeredStop with
      | none => []
      | some stop => (e.removeStop stop).matchCalls X fuel stop.triggered ts ++
        match (e.removeStop stop).matchOrder X fuel stop.triggered ts with
        | .error _ => []
        | .ok e => Engine.cascadeCalls X fuel ts rounds e
    else []

def Engine.entryCalls (X : Exchange D) (fuel : Nat) (order : Order) (ts : Int) (e : Engine D) :
    List (PriceLevel × Int) :=
  e.matchCalls X fuel order ts ++
    match e.matchOrder X fuel order ts with
    | .error _ => []
    | .ok e => e.cascadeCalls X fuel ts fuel

def Engine.newOrderEntry (X : Exchange D) (req : OrderRequest) (e : Engine D) :
    Option (Order × Engine D) :=
  let rate := e.rateCheck X req.accountId req.timestamp
  let e := rate.2
  if !rate.1 then none
  else match firstFailure (e.newOrderChecks X req), e.orderPool.allocate with
    | none, some (slot, pool) =>
      let order := e.buildOrder X req slot
      if req.type.isStop || e.currentState.isCollectionPhase then none
      else some (order, e.acceptOrder order pool req.timestamp)
    | _, _ => none

def Engine.modifyOrderEntry (X : Exchange D) (req : ModifyRequest) (e : Engine D) :
    Option (Order × Engine D) :=
  if e.currentState = .closed then none
  else if e.unknown X req.orderId then none
  else match e.indexed req.orderId with
    | .error _ => none
    | .ok order =>
      let rate := e.rateCheck X order.accountId req.timestamp
      let e := rate.2
      if !rate.1 then none
      else match firstFailure (e.modifyChecks X req) with
        | some _ => none
        | none =>
          if e.amends X order req then none
          else match e.pullOrder order req with
            | .error _ => none
            | .ok e => some (order.replaced req, e)

def Engine.policyCalls (X : Exchange D) (fuel : Nat) (a : Action) (e : Engine D) :
    List (PriceLevel × Int) :=
  match a with
  | .newOrder req =>
    match (e.record a).newOrderEntry X req with
    | none => []
    | some (order, e) => e.entryCalls X fuel order req.timestamp
  | .modifyOrder req =>
    match (e.record a).modifyOrderEntry X req with
    | none => []
    | some (order, e) => e.entryCalls X fuel order req.timestamp
  | _ => []

/-! The calls are those of the operations. -/

theorem nextPass_ok {ts : Int} (h : e.nextPass X ts level deeper order = some (order', e')) :
    (X.algo.matchLevel level order.remainingQuantity).results.length ≤ kMaxFills ∧
      e.pass X ts order level deeper = .ok (some order', e') ∧
      (e'.interrupted X ts).1 = false := by
  unfold nextPass at h
  dsimp only at h
  split at h
  · simp at h
  next hfits =>
    split at h
    next alive e₁ hpass =>
      have hsame : (e₁.interrupted X ts).1 = false → _ := interrupted_eq
      unfold interrupted at hsame ⊢
      grind [Engine.pass]
    · simp at h

theorem matchLoop_of_nextPass {ts : Int} (hturn : e.Turn order level deeper)
    (h : e.nextPass X ts level deeper order = some (order', e')) :
    e.matchLoop X ts (fuel + 1) order = e'.matchLoop X ts fuel order' := by
  obtain ⟨hfits, hpass, hmiss⟩ := nextPass_ok h
  simp [matchLoop_turn hturn hfits, hpass, hmiss]

theorem newOrderEntry_eq (fuel : Nat) (h : e.newOrderEntry X req = some (order, e')) :
    (∃ t slot pool, e.orderPool.allocate = some (slot, pool) ∧
      firstFailure (e.newOrderChecks X req) = none ∧ order = e.buildOrder X req slot ∧
      e' = ({ e with rateTracker := t } : Engine D).acceptOrder (e.buildOrder X req slot) pool
        req.timestamp ∧ order.Entered) ∧
      e.newOrder X fuel req = e'.matchAndTrigger X fuel order req.timestamp := by
  obtain ⟨t, ht⟩ := rateCheck_eq req.accountId req.timestamp e
  unfold newOrderEntry at h
  unfold newOrder
  dsimp only at h
  split at h
  next => simp at h
  next hpaced =>
    rw [if_neg hpaced]
    rw [ht] at h ⊢
    split at h
    next slot pool hchecks hpool =>
      split at h
      · simp at h
      next hroute =>
        obtain ⟨rfl, rfl⟩ := Prod.mk.inj (some.inj h)
        simp only [Bool.or_eq_true, not_or, Bool.not_eq_true] at hroute
        refine ⟨⟨t, slot, pool, hpool, hchecks, rfl, rfl, ?_⟩, ?_⟩
        · have hstop := hroute.1
          simp only [Order.Entered, buildOrder]
          cases htype : req.type <;> simp [htype, OrderType.isStop] at hstop ⊢
        · simp only [hchecks, hpool, routeOrder, hroute.1, Bool.false_eq_true, if_false]
          exact if_neg (Bool.eq_false_iff.mp hroute.2)
    next => simp at h

theorem modifyOrderEntry_eq {w : Prop} (hH : e.holdings.Sound X w []) {req : ModifyRequest}
    (fuel : Nat) (h : e.modifyOrderEntry X req = some (order, e')) :
    (∃ t o, o ∈ e.linked ∧ o.id = req.orderId ∧ order = o.replaced req ∧
      ({ e with rateTracker := t } : Engine D).pullOrder o req = .ok e') ∧
      e.modifyOrder X fuel req = e'.matchAndTrigger X fuel order req.timestamp := by
  unfold modifyOrderEntry at h
  unfold modifyOrder
  split at h
  · simp at h
  next hopen =>
    split at h
    · simp at h
    next hknown =>
      obtain ⟨o, hindexed, hid, hmem⟩ :=
        indexed_eq hH (orderIndex_of_known (Bool.eq_false_iff.mpr hknown))
      obtain ⟨t, ht⟩ := rateCheck_eq (X := X) o.accountId req.timestamp e
      simp only [if_neg hopen, if_neg hknown, hindexed, ht] at h ⊢
      split at h
      · simp at h
      next hpaced =>
        rw [if_neg hpaced]
        -- the cases are split by name: both functions match on the same values
        cases hchecks : firstFailure (({ e with rateTracker := t } : Engine D).modifyChecks X req) with
        | some r => simp [hchecks] at h
        | none =>
          simp only [hchecks] at h ⊢
          split at h
          · simp at h
          next hamend =>
            rw [if_neg hamend, replaceOrder]
            cases hpull : ({ e with rateTracker := t } : Engine D).pullOrder o req with
            | error err => simp [hpull] at h
            | ok e₁ =>
              simp only [hpull] at h ⊢
              obtain ⟨rfl, rfl⟩ := Prod.mk.inj (some.inj h)
              exact ⟨⟨t, o, hmem, hid, rfl, hpull⟩, rfl⟩

/-! What the moves of matching keep holds at every call. -/

section rule

variable {I : World D → Prop} {P : PriceLevel → Int → Prop} {ts : Int}
  (hmove : ∀ m V, V.Sound X True → I V → Move.guard X m V → m.exact → m.landing = true →
    I (m.run X V))

include hmove in
theorem nextPass_keeps (hs : World.Sound X True ⟨e, some order⟩) (hI : I ⟨e, some order⟩)
    (hent : order.Entered) (hturn : e.Turn order level deeper)
    (h : e.nextPass X ts level deeper order = some (order', e')) :
    World.Sound X True ⟨e', some order'⟩ ∧ I ⟨e', some order'⟩ ∧ order'.Entered := by
  obtain ⟨-, hpass, -⟩ := nextPass_ok h
  obtain ⟨hrun, hcont⟩ := pass_ok (c := False) hs hturn hent hpass
  obtain ⟨-, hent', hs'⟩ := hcont order' rfl
  have hop : OpRun X True False Move.landing ⟨e, some order⟩ ⟨e', some order'⟩ :=
    hrun.toOpRun fun _ => id
  exact ⟨hs', hop.invariant hs hI fun m V hV hIV hg hl => hmove m V hV hIV hg (hl.exact trivial),
    hent'⟩

variable (hcall : ∀ e order level deeper, World.Sound X True ⟨e, some order⟩ →
  I ⟨e, some order⟩ → 0 < order.remainingQuantity → e.book order.side.opposite = level :: deeper →
  P level order.remainingQuantity)

include hmove hcall in
theorem loopCalls_all (hs : World.Sound X True ⟨e, some order⟩) (hI : I ⟨e, some order⟩)
    (hent : order.Entered) : ∀ call ∈ e.loopCalls X ts fuel order, P call.1 call.2 := by
  induction fuel generalizing order e with
  | zero => simp [loopCalls]
  | succ fuel ih =>
    unfold loopCalls
    split
    · simp
    next hpos =>
      split
      · simp
      next level deeper hbook =>
        split
        · simp
        next hallow =>
          have hpos' : 0 < order.remainingQuantity := by omega
          intro call hmem
          rcases List.mem_cons.mp hmem with rfl | hmem
          · exact hcall e order level deeper hs hI hpos' hbook
          · split at hmem
            · simp at hmem
            next order' e' hnext =>
              obtain ⟨hs', hI', hent'⟩ := nextPass_keeps hmove hs hI hent
                ⟨hpos', hbook, by simpa using hallow⟩ hnext
              exact ih hs' hI' hent' call hmem

include hmove in
theorem matchOrder_keeps (hs : World.Sound X True ⟨e, some order⟩) (hI : I ⟨e, some order⟩)
    (hent : order.Entered) (h : e.matchOrder X fuel order ts = .ok e') :
    World.Sound X True ⟨e', none⟩ ∧ I ⟨e', none⟩ := by
  have hkeeps := (matchOrder_run (P := Move.landing) (c := False) (fun _ => id) fuel ts hs
    False.elim False.elim hent).keeps hs hI fun m V hV hIV hg hl =>
      hmove m V hV hIV hg (hl.exact trivial)
  rwa [h] at hkeeps

include hmove hcall in
theorem matchCalls_all (hs : World.Sound X True ⟨e, some order⟩) (hI : I ⟨e, some order⟩)
    (hent : order.Entered) : ∀ call ∈ e.matchCalls X fuel order ts, P call.1 call.2 := by
  unfold matchCalls
  split
  · simp
  · exact loopCalls_all hmove hcall hs hI hent

include hmove hcall in
theorem cascadeCalls_all {rounds : Nat} (hs : World.Sound X True ⟨e, none⟩) (hI : I ⟨e, none⟩) :
    ∀ call ∈ e.cascadeCalls X fuel ts rounds, P call.1 call.2 := by
  induction rounds generalizing e with
  | zero => simp [cascadeCalls]
  | succ rounds ih =>
    unfold cascadeCalls
    split
    next hdue =>
      split
      · simp
      next stop hnext =>
        have hguard : Move.guard X (.trigger stop) ⟨e, none⟩ := ⟨rfl, hdue.1, hnext⟩
        have hs' : World.Sound X True ⟨e.removeStop stop, some stop.triggered⟩ :=
          hs.run (m := .trigger stop) hguard fun _ => trivial
        have hI' : I ⟨e.removeStop stop, some stop.triggered⟩ :=
          hmove (.trigger stop) _ hs hI hguard trivial rfl
        have hent := stop.triggered_type
        intro call hmem
        rcases List.mem_append.mp hmem with hmem | hmem
        · exact matchCalls_all hmove hcall hs' hI' hent call hmem
        · split at hmem
          · simp at hmem
          next e' hmatch =>
            obtain ⟨hs₁, hI₁⟩ := matchOrder_keeps hmove hs' hI' hent hmatch
            exact ih hs₁ hI₁ call hmem
    next => simp

include hmove hcall in
theorem entryCalls_all (hs : World.Sound X True ⟨e, some order⟩) (hI : I ⟨e, some order⟩)
    (hent : order.Entered) : ∀ call ∈ e.entryCalls X fuel order ts, P call.1 call.2 := by
  intro call hmem
  rcases List.mem_append.mp hmem with hmem | hmem
  · exact matchCalls_all hmove hcall hs hI hent call hmem
  · split at hmem
    · simp at hmem
    next e' hmatch =>
      obtain ⟨hs', hI'⟩ := matchOrder_keeps hmove hs hI hent hmatch
      exact cascadeCalls_all hmove hcall hs' hI' call hmem

end rule

end ExchangeSim
