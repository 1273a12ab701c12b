import ExchangeSim.Session

/-!
What is known of an operation that has come to its end, and of the steps it went through.
-/

namespace ExchangeSim

open Engine

variable {D : Type} {X : Exchange D} {e e' : Engine D} {o : Order} {ts : Int} {fuel rounds : Nat}

theorem bookRemoveOrder_ok {r : Bool × Engine D} (h : e.bookRemoveOrder o = .ok r) :
    holds (e.book o.side) o.id = true ∧ r = e.removeOrder o ∨
      (holds (e.stopBook o.side) o.id = true ∧ (r.1 = true → inner (e.stopBook o.side) o.id = true)) ∧
        r = ((unlinkFrom o (e.stopBook o.side)).2, e.removeStop o) := by
  unfold bookRemoveOrder at h
  grind

theorem stopBookRemoveStop_ok (h : e.stopBookRemoveStop o = .ok e') :
    e' = e.removeStop o ∨ e' = (e.removeOrder o).2 := by
  unfold stopBookRemoveStop at h
  grind

theorem cancelActiveOrder_ok {reason : CancelReason}
    (h : e.cancelActiveOrder o ts reason = .ok e') :
    (∃ e₁, e.stopBookRemoveStop o = .ok e₁ ∧ e' = e₁.dropOrder o ts reason) ∨
      ∃ r, e.bookRemoveOrder o = .ok r ∧ e' = (r.2.reportCancel o ts reason r.1).fireTopOfBookIfChanged
        ts (e.bestPrice .buy) (e.bestPrice .sell) := by
  unfold cancelActiveOrder at h
  grind

theorem rateCheck_eq (account : Nat) (ts : Int) (e : Engine D) :
    ∃ t, (e.rateCheck X account ts).2 = { e with rateTracker := t } := by
  unfold rateCheck
  split
  · exact ⟨_, rfl⟩
  · exact ⟨e.rateTracker, rfl⟩

theorem newOrder_cases (fuel : Nat) (req : OrderRequest) (e : Engine D) :
    (∃ t reason, e.newOrder X fuel req =
      .ok ({ e with rateTracker := t }.emit
        (.orderRejected req.clientOrderId req.timestamp reason))) ∨
    ∃ t slot pool, e.orderPool.allocate = some (slot, pool) ∧
      firstFailure (e.newOrderChecks X req) = none ∧
      e.newOrder X fuel req = ({ e with rateTracker := t }.acceptOrder (e.buildOrder X req slot) pool
        req.timestamp).routeOrder X fuel req (e.buildOrder X req slot) := by
  obtain ⟨t, ht⟩ := rateCheck_eq req.accountId req.timestamp e
  unfold newOrder
  dsimp only
  rw [ht]
  split
  · exact .inl ⟨t, _, rfl⟩
  · split
    · exact .inl ⟨t, _, rfl⟩
    · exact .inl ⟨t, _, rfl⟩
    next slot pool hchecks hpool => exact .inr ⟨t, slot, pool, hpool, hchecks, rfl⟩

theorem cancelOrder_ok {id : Nat} (h : e.cancelOrder X id ts = .ok e') :
    ∃ t, (∃ r, e' = { e with rateTracker := t }.emit (.orderCancelRejected id 0 ts r)) ∨
      ∃ o, e.indexed id = .ok o ∧
        ({ e with rateTracker := t } : Engine D).cancelActiveOrder o ts .userRequested = .ok e' := by
  unfold cancelOrder at h
  dsimp only at h
  split at h
  · exact ⟨_, .inl ⟨_, (Except.ok.inj h).symm⟩⟩
  · split at h
    · exact ⟨_, .inl ⟨_, (Except.ok.inj h).symm⟩⟩
    · split at h
      · simp at h
      next o hindexed =>
        obtain ⟨t, ht⟩ := rateCheck_eq o.accountId ts e
        rw [ht] at h
        refine ⟨t, ?_⟩
        split at h
        · exact .inl ⟨_, (Except.ok.inj h).symm⟩
        · exact .inr ⟨o, hindexed, h⟩

theorem modifyOrder_ok {req : ModifyRequest} (h : e.modifyOrder X fuel req = .ok e') :
    ∃ t, (∃ r, e' = { e with rateTracker := t }.emit
        (.orderModifyRejected req.orderId req.clientOrderId req.timestamp r)) ∨
      ∃ o, e.currentState ≠ .closed ∧ e.indexed req.orderId = .ok o ∧
        firstFailure (e.modifyChecks X req) = none ∧
        (e.amends X o req = true ∧ e' = { e with rateTracker := t }.amendOrder o req ∨
          ¬e.amends X o req = true ∧
            ∃ e₁, ({ e with rateTracker := t } : Engine D).pullOrder o req = .ok e₁ ∧
              e₁.matchAndTrigger X fuel (o.replaced req) req.timestamp = .ok e') := by
  unfold modifyOrder at h
  dsimp only at h
  split at h
  · exact ⟨_, .inl ⟨_, (Except.ok.inj h).symm⟩⟩
  next hopen =>
    split at h
    · exact ⟨_, .inl ⟨_, (Except.ok.inj h).symm⟩⟩
    · split at h
      · simp at h
      next o hindexed =>
        obtain ⟨t, ht⟩ := rateCheck_eq o.accountId req.timestamp e
        rw [ht] at h
        refine ⟨t, ?_⟩
        split at h
        · exact .inl ⟨_, (Except.ok.inj h).symm⟩
        · split at h
          · exact .inl ⟨_, (Except.ok.inj h).symm⟩
          next hchecks =>
            refine .inr ⟨o, hopen, hindexed, hchecks, ?_⟩
            split at h
            next hamends => exact .inl ⟨hamends, (Except.ok.inj h).symm⟩
            next hamends =>
              unfold replaceOrder at h
              split at h
              · simp at h
              next e₁ hpull => exact .inr ⟨hamends, e₁, hpull, h⟩

theorem pullOrder_ok {req : ModifyRequest} (h : e.pullOrder o req = .ok e') :
    ∃ r, e.bookRemoveOrder o = .ok r ∧ e' = r.2.reportPull o req r.1 := by
  unfold pullOrder at h
  grind

theorem cancelWhere_ok {I : Engine D → Prop} {select : Order → Bool} {reason : CancelReason}
    {ids : List Nat} {count : Nat} {r : Nat × Engine D}
    (hcancel : ∀ e id o e', I e → e.indexed id = .ok o →
      e.cancelActiveOrder o ts reason = .ok e' → I e')
    (h : e.cancelWhere select ts reason ids count = .ok r) (hI : I e) : I r.2 := by
  induction ids generalizing count e with
  | nil => exact Except.ok.inj h ▸ hI
  | cons id ids ih =>
    unfold cancelWhere at h
    grind

theorem unfill_ok {id : Nat} {q : Int} (h : e.unfill X id q = .ok e') :
    e' = e ∨ ∃ o, e' = e.adjustOrder o (·.fill (-q)) q := by
  unfold unfill at h
  grind

theorem bustTrade_ok {id : Nat} {reason : BustReason} (h : e.bustTrade X id reason ts = .ok e') :
    e' = e ∨ ∃ t e₁ e₂, e.tradeRegistry.lookup id = some t ∧ t.busted = false ∧
      ({ e with tradeRegistry := e.tradeRegistry.markBusted id } : Engine D).unfill X
        t.aggressorId t.quantity = .ok e₁ ∧
      e₁.unfill X t.restingId t.quantity = .ok e₂ ∧ e' = e₂.reportBust X id t reason ts := by
  unfold bustTrade at h
  grind

/-- Nothing on the opposite side is within the order's limit. -/
def Engine.clearOf (e : Engine D) (order : Order) : Prop :=
  ∀ level ∈ (e.book order.side.opposite).head?, order.allows level.price = false

/-- The order has something left to trade with the best level of the opposite side. -/
structure Engine.Turn (e : Engine D) (o : Order) (level : PriceLevel) (deeper : List PriceLevel) :
    Prop where
  left : 0 < o.remainingQuantity
  book : e.book o.side.opposite = level :: deeper
  allowed : o.allows level.price = true

/-- The pass over that level. -/
def Engine.pass (X : Exchange D) (ts : Int) (o : Order) (level : PriceLevel)
    (deeper : List PriceLevel) (e : Engine D) : Outcome D (Option Order × Engine D) :=
  let m := X.algo.matchLevel level o.remainingQuantity
  (e.setBook o.side.opposite ({ level with orders := m.orders } :: deeper)).processFills X ts
    m.results { o with remainingQuantity := m.remaining }

/-- The two checks after a pass. -/
def Engine.interrupted (X : Exchange D) (ts : Int) (e : Engine D) : Bool × Engine D :=
  let limit := e.checkDailyLimitHit X ts
  if limit.1 then limit else limit.2.checkVolatilityInterruption X ts

theorem checkDailyLimitHit_eq (h : (e.checkDailyLimitHit X ts).1 = false) :
    (e.checkDailyLimitHit X ts).2 = e := by
  unfold checkDailyLimitHit at *
  grind

theorem interrupted_eq (h : (e.interrupted X ts).1 = false) : (e.interrupted X ts).2 = e := by
  unfold interrupted checkDailyLimitHit checkVolatilityInterruption at *
  grind

theorem idle_or_turn (o : Order) (e : Engine D) : (o.remainingQuantity ≤ 0 ∨ e.clearOf o) ∨
    ∃ level deeper, e.Turn o level deeper := by
  by_cases hleft : 0 < o.remainingQuantity
  · cases hbook : e.book o.side.opposite with
    | nil => exact .inl (.inr (by simp [clearOf, hbook]))
    | cons level deeper =>
      cases hallow : o.allows level.price with
      | false => exact .inl (.inr (by simp [clearOf, hbook, hallow]))
      | true => exact .inr ⟨level, deeper, hleft, hbook, hallow⟩
  · exact .inl (.inl (not_lt.mp hleft))

theorem matchLoop_done (h : o.remainingQuantity ≤ 0 ∨ e.clearOf o) :
    e.matchLoop X ts (fuel + 1) o = .ok (some o, e) := by
  unfold matchLoop clearOf at *
  grind

theorem matchLoop_turn {level : PriceLevel} {deeper : List PriceLevel} (h : e.Turn o level deeper)
    (hfits : (X.algo.matchLevel level o.remainingQuantity).results.length ≤ kMaxFills) :
    e.matchLoop X ts (fuel + 1) o = match e.pass X ts o level deeper with
      | .error err => .error err
      | .ok (alive, e) =>
        if (e.interrupted X ts).1 then .ok (alive, (e.interrupted X ts).2)
        else match alive with
          | none => .ok (none, e)
          | some o => e.matchLoop X ts fuel o := by
  rw [matchLoop, if_neg (not_le.mpr h.left), h.book]
  simp only [h.allowed, Bool.not_true, Bool.false_eq_true, if_false, not_lt.mpr hfits]
  change (match e.pass X ts o level deeper with | .error err => _ | .ok (alive, e) => _) = _
  split
  · rfl
  next alive e₁ _ =>
    have hsame : (e₁.interrupted X ts).1 = false → _ := interrupted_eq
    unfold interrupted at hsame ⊢
    grind

theorem matchLoop_over {level : PriceLevel} {deeper : List PriceLevel} (h : e.Turn o level deeper)
    (hover : kMaxFills < (X.algo.matchLevel level o.remainingQuantity).results.length) :
    e.matchLoop X ts (fuel + 1) o = .error (.fillBuffer, e) := by
  rw [matchLoop, if_neg (not_le.mpr h.left), h.book]
  simp [h.allowed, hover]

variable (X ts) in
theorem matchLoop_rule {P : Nat → Order → Engine D → Outcome D (Option Order × Engine D) → Prop}
    (spent : ∀ o e, P 0 o e (.error (.outOfFuel, e)))
    (idle : ∀ n o e, o.remainingQuantity ≤ 0 ∨ e.clearOf o → P (n + 1) o e (.ok (some o, e)))
    (overrun : ∀ n o e level deeper, e.Turn o level deeper →
      kMaxFills < (X.algo.matchLevel level o.remainingQuantity).results.length →
      P (n + 1) o e (.error (.fillBuffer, e)))
    (fails : ∀ n o e level deeper err, e.Turn o level deeper →
      e.pass X ts o level deeper = .error err → P (n + 1) o e (.error err))
    (ends : ∀ n o e level deeper alive e', e.Turn o level deeper →
      e.pass X ts o level deeper = .ok (alive, e') →
      (e'.interrupted X ts).1 = true ∨ alive = none →
      P (n + 1) o e (.ok (alive, (e'.interrupted X ts).2)))
    (again : ∀ n o e level deeper o' e' r, e.Turn o level deeper →
      e.pass X ts o level deeper = .ok (some o', e') → P n o' e' r → P (n + 1) o e r)
    (fuel : Nat) (o : Order) (e : Engine D) : P fuel o e (e.matchLoop X ts fuel o) := by
  induction fuel generalizing o e with
  | zero => exact spent o e
  | succ n ih =>
    rcases idle_or_turn o e with hidle | ⟨level, deeper, hturn⟩
    · rw [matchLoop_done hidle]
      exact idle n o e hidle
    · by_cases hfits : (X.algo.matchLevel level o.remainingQuantity).results.length ≤ kMaxFills
      · rw [matchLoop_turn hturn hfits]
        split
        next err hpass => exact fails n o e level deeper err hturn hpass
        next alive e' hpass =>
          split
          next hhit => exact ends n o e level deeper alive e' hturn hpass (.inl hhit)
          next hmiss =>
            have hsame : (e'.interrupted X ts).2 = e' := interrupted_eq (by simpa using hmiss)
            cases alive with
            | none => exact hsame ▸ ends n o e level deeper none e' hturn hpass (.inr rfl)
            | some o' => exact again n o e level deeper o' e' _ hturn hpass (ih o' e')
      · rw [matchLoop_over hturn (not_le.mp hfits)]
        exact overrun n o e level deeper hturn (not_le.mp hfits)

theorem matchLoop_ok {I : Order → Engine D → Option Order → Engine D → Prop}
    (idle : ∀ o e, I o e (some o) e)
    (ends : ∀ o e level deeper alive e', e.Turn o level deeper →
      e.pass X ts o level deeper = .ok (alive, e') → I o e alive (e'.interrupted X ts).2)
    (again : ∀ o e level deeper o' e' alive e'', e.Turn o level deeper →
      e.pass X ts o level deeper = .ok (some o', e') → I o' e' alive e'' → I o e alive e'')
    {alive : Option Order} (h : e.matchLoop X ts fuel o = .ok (alive, e')) : I o e alive e' := by
  refine matchLoop_rule X ts (P := fun _ o e r => ∀ alive e', r = .ok (alive, e') → I o e alive e')
    ?_ ?_ ?_ ?_ ?_ ?_ fuel o e alive e' h
  · simp
  · rintro _ o e - _ _ ⟨⟩
    exact idle o e
  · simp
  · simp
  · rintro _ o e level deeper alive e' hturn hpass - _ _ ⟨⟩
    exact ends o e level deeper alive e' hturn hpass
  · intro _ o e level deeper o' e' r hturn hpass ih alive e'' hr
    exact again o e level deeper o' e' alive e'' hturn hpass (ih alive e'' hr)

variable (X ts) in
theorem interrupted_cases (e : Engine D) :
    (e.interrupted X ts).2 = (e.checkDailyLimitHit X ts).2 ∨
      (e.interrupted X ts).2 = (e.checkVolatilityInterruption X ts).2 := by
  unfold interrupted checkDailyLimitHit
  grind

theorem matchLoop_stuck {level : PriceLevel} {deeper : List PriceLevel} (h : e.Turn o level deeper)
    (hfits : (X.algo.matchLevel level o.remainingQuantity).results.length ≤ kMaxFills)
    (hpass : e.pass X ts o level deeper = .ok (some o, e)) (hmiss : (e.interrupted X ts).1 = false)
    (fuel : Nat) : e.matchLoop X ts fuel o = .error (.outOfFuel, e) := by
  induction fuel with
  | zero => rfl
  | succ fuel ih =>
    rw [matchLoop_turn h hfits, hpass]
    simpa [hmiss] using ih

/-- What a change of the session is made of; the report and the hook only where a daily limit is
hit. -/
inductive SessionStep (X : Exchange D) (ts : Int) (e : Engine D) : Engine D → Prop
  | status (s : SessionState) :
      SessionStep X ts e ({ e with currentState := s }.emit (.marketStatus s ts))
  | report (side : Side) (limit : Int) (hhit : (!e.atUpperLimit && !e.atLowerLimit) = false) :
      SessionStep X ts e (e.emit (.lockLimitTriggered side limit e.lastTradePrice ts))
  | hook (side : Side) (limit : Int) (hhit : (!e.atUpperLimit && !e.atLowerLimit) = false) :
      SessionStep X ts e { e with
        derived := (X.onDailyLimitHit e.derived e.config side limit ts).derived
        config := (X.onDailyLimitHit e.derived e.config side limit ts).config }
  | reference (price : Int) : SessionStep X ts e { e with viReferencePrice := price }

abbrev SessionSteps (X : Exchange D) (ts : Int) : Engine D → Engine D → Prop :=
  Relation.ReflTransGen (SessionStep X ts)

section

variable (X : Exchange D) (ts : Int) (e : Engine D)

theorem setSessionState_steps (s : SessionState) :
    SessionSteps X ts e (e.setSessionState X s ts) := by
  unfold setSessionState
  split
  · exact .refl
  · split
    · exact .refl
    · have hstatus : SessionSteps X ts e _ := .single (.status s)
      dsimp only
      split
      · exact hstatus.tail (.reference _)
      · exact hstatus

theorem unlockLimit_steps : SessionSteps X ts e (e.unlockLimit ts) := by
  unfold unlockLimit
  split
  · exact .refl
  · exact .single (.status .continuous)

theorem checkDailyLimitHit_steps : SessionSteps X ts e (e.checkDailyLimitHit X ts).2 := by
  unfold checkDailyLimitHit
  split
  · exact .refl
  · split
    · exact .refl
    next hhit =>
      have hhit := Bool.eq_false_of_not_eq_true hhit
      unfold enterLockLimit
      dsimp only
      generalize (if e.atUpperLimit = true then Side.buy else Side.sell) = side
      generalize (if e.atUpperLimit = true then e.config.dailyLimitHigh
        else e.config.dailyLimitLow) = limit
      have hlock := (((Relation.ReflTransGen.refl (r := SessionStep X ts)).tail
        (.report side limit hhit)).tail (.status .lockLimit)).tail (.hook side limit hhit)
      split
      · exact hlock
      · exact hlock.trans (setSessionState_steps X ts _ _)

theorem checkVolatilityInterruption_steps :
    SessionSteps X ts e (e.checkVolatilityInterruption X ts).2 := by
  unfold checkVolatilityInterruption
  split
  · exact .refl
  · split
    · exact .refl
    · split
      · exact .refl
      · exact .single (.status .volatilityAuction)

theorem interrupted_steps : SessionSteps X ts e (e.interrupted X ts).2 := by
  rcases interrupted_cases X ts e with heq | heq <;> rw [heq]
  · exact checkDailyLimitHit_steps X ts e
  · exact checkVolatilityInterruption_steps X ts e

end

theorem postMatch_cases (o : Order) (ts b a : Int) (e : Engine D) :
    o.remainingQuantity = 0 ∧
        e.postMatch o ts b a = (e.release o).fireTopOfBookIfChanged ts b a ∨
      (∃ reason, e.postMatch o ts b a = (e.dropOrder o ts reason).fireTopOfBookIfChanged ts b a) ∨
      o.remainingQuantity ≠ 0 ∧ (o.type ≠ .market ∧ o.tif ≠ .ioc ∧ o.tif ≠ .fok) ∧
        e.postMatch o ts b a = (e.insertIntoBook o ts).fireTopOfBook ts := by
  unfold postMatch
  grind

theorem matchOrder_ok (h : e.matchOrder X fuel o ts = .ok e') :
    (o.tif = .fok ∧ computeMatchableQty e.book o < o.remainingQuantity) ∧
        e' = (e.dropOrder o ts .fokFailed).fireTopOfBookIfChanged ts (e.bestPrice .buy)
          (e.bestPrice .sell) ∨
      ∃ alive e₁, e.matchLoop X ts fuel o = .ok (alive, e₁) ∧
        e' = match alive with
          | some o => e₁.postMatch o ts (e.bestPrice .buy) (e.bestPrice .sell)
          | none => e₁.fireTopOfBookIfChanged ts (e.bestPrice .buy) (e.bestPrice .sell) := by
  unfold matchOrder at h
  grind

theorem applyImpliedFill_ok {f : LegFill} (h : e.applyImpliedFill X ts f = .ok e') :
    ∃ o, e.indexed f.orderId = .ok o ∧
      let t := e.impliedTrade X ts f (o.fill f.fillQty)
      (o.fill f.fillQty).hasNextTranche = true ∧ e' = t.impliedReveal ts (o.fill f.fillQty) ∨
        e' = t.fireDepthHolding (o.fill f.fillQty) ts ∨ ∃ r, t.bookRemoveOrder (o.fill f.fillQty) = .ok r ∧
          e' = (r.2.fireDepthAfterRemove r.1 o.side f.fillPrice ts).release (o.fill f.fillQty) := by
  unfold applyImpliedFill at h
  split at h
  · simp at h
  next o hindexed =>
    refine ⟨o, hindexed, ?_⟩
    dsimp only at h
    split at h
    · split at h
      next hnext => exact .inl ⟨hnext, (Except.ok.inj h).symm⟩
      · split at h
        · simp at h
        next hrem => exact .inr (.inr ⟨_, hrem, (Except.ok.inj h).symm⟩)
    · exact .inr (.inl (Except.ok.inj h).symm)

def Engine.auctionStep (X : Exchange D) (price ts : Int) (bid ask : Order) (q : Int)
    (nextBid nextAsk : Option Nat) (e : Engine D) : Engine D :=
  (((e.auctionTrade X price ts (bid.fill q) (ask.fill q) q).auctionAdvance (bid.fill q) nextBid
    ts).2.auctionAdvance (ask.fill q) nextAsk ts).2

section auction

variable {I : Int → Engine D → Prop} {price left : Int}
  (hstep : ∀ left e b a bid ask nextBid nextAsk, I left e → findOrder b (e.book .buy) = some bid →
    findOrder a (e.book .sell) = some ask →
    let q := min left (min bid.remainingQuantity ask.remainingQuantity)
    I (left - q) (e.auctionStep X price ts bid ask q nextBid nextAsk))

include hstep

theorem auctionLevel_ok {bid ask : Option Nat} {r : Int × Engine D}
    (h : e.auctionLevel X price ts fuel left bid ask = .ok r) (hI : I left e) : I r.1 r.2 := by
  induction fuel generalizing left bid ask e with
  | zero =>
    unfold auctionLevel at h
    split at h
    · split at h
      · exact Except.ok.inj h ▸ hI
      · simp at h
    · exact Except.ok.inj h ▸ hI
  | succ fuel ih =>
    unfold auctionLevel at h
    split at h
    · split at h
      · exact Except.ok.inj h ▸ hI
      · split at h
        next hz => simp at hz
        next bid ask hfuel hbid hask =>
          obtain rfl := Nat.succ.inj hfuel
          exact ih h (hstep _ _ _ _ bid ask _ _ hI hbid hask)
        next => simp at h
    · exact Except.ok.inj h ▸ hI

theorem auctionLoop_ok {bidPrice askPrice : Option Int}
    (h : e.auctionLoop X price ts fuel rounds left bidPrice askPrice = .ok e') (hI : I left e) :
    ∃ left', I left' e' := by
  induction rounds generalizing left bidPrice askPrice e with
  | zero =>
    unfold auctionLoop at h
    split at h
    · split at h
      · exact ⟨_, Except.ok.inj h ▸ hI⟩
      · simp at h
    · exact ⟨_, Except.ok.inj h ▸ hI⟩
  | succ rounds ih =>
    unfold auctionLoop at h
    split at h
    · split at h
      · exact ⟨_, Except.ok.inj h ▸ hI⟩
      · split at h
        next hz => simp at hz
        next hrounds _ _ =>
          obtain rfl := Nat.succ.inj hrounds
          split at h
          · simp at h
          next hlevel => exact ih h (auctionLevel_ok hstep hlevel hI)
        next => simp at h
    · exact ⟨_, Except.ok.inj h ▸ hI⟩

end auction

theorem executeAuction_ok {referencePrice : Int}
    (h : e.executeAuction X fuel referencePrice ts = .ok e') :
    let r := calculateAuctionPrice e.book referencePrice
    e' = e ∨ ∃ e₁, e.auctionLoop X r.price ts fuel fuel r.matchedVolume
        ((e.book .buy).head?.map (·.price)) ((e.book .sell).head?.map (·.price)) = .ok e₁ ∧
      e' = { e₁.fireTopOfBook ts with viReferencePrice := r.price } := by
  unfold executeAuction at h
  grind

theorem applyImpliedLegs_ok {I : Engine D → Prop} {fills : List LegFill}
    (hleg : ∀ e f e', I e → f ∈ fills → e.applyImpliedFill X ts f = .ok e' → I e')
    (h : e.applyImpliedLegs X ts fills = .ok e') (hI : I e) : I e' := by
  induction fills generalizing e with
  | nil => exact Except.ok.inj h ▸ hI
  | cons f fills ih =>
    unfold applyImpliedLegs at h
    split at h
    · simp at h
    next e₁ hfill =>
      exact ih (fun e f e' he hf => hleg e f e' he (List.mem_cons_of_mem _ hf)) h
        (hleg e f e₁ hI List.mem_cons_self hfill)

theorem checkAndTriggerStops_ok {I : Engine D → Prop}
    (hpass : ∀ e stop e', I e → e.lastTradePrice > 0 ∧ e.hasTriggeredStops →
      e.nextTriggeredStop = some stop →
      (e.removeStop stop).matchOrder X fuel stop.triggered ts = .ok e' → I e')
    (h : e.checkAndTriggerStops X fuel ts rounds = .ok e') (hI : I e) :
    I e' ∧ (¬(e'.lastTradePrice > 0 ∧ e'.hasTriggeredStops) ∨ e'.nextTriggeredStop = none) := by
  induction rounds generalizing e with
  | zero =>
    unfold checkAndTriggerStops at h
    split at h
    · split at h
      next hnone => exact Except.ok.inj h ▸ ⟨hI, .inr hnone⟩
      · simp at h
      next hz => simp at hz
    next hdue => exact Except.ok.inj h ▸ ⟨hI, .inl hdue⟩
  | succ rounds ih =>
    unfold checkAndTriggerStops at h
    split at h
    next hdue =>
      split at h
      next hnone => exact Except.ok.inj h ▸ ⟨hI, .inr hnone⟩
      next hz => simp at hz
      next stop r hnext hr =>
        obtain rfl := Nat.succ.inj hr
        split at h
        · simp at h
        next e₁ hmatch => exact ih h (hpass e stop e₁ hI hdue hnext hmatch)
    next hdue => exact Except.ok.inj h ▸ ⟨hI, .inl hdue⟩

theorem applyImpliedFills_ok {fills : List LegFill} {r : Bool × Engine D}
    (h : e.applyImpliedFills X fills ts = .ok r) :
    r.2 = e ∨ ∃ e₁, e.applyImpliedLegs X ts fills = .ok e₁ ∧ r.2 = e₁.fireTopOfBook ts := by
  unfold applyImpliedFills at h
  grind

theorem matchAndTrigger_ok (h : e.matchAndTrigger X fuel o ts = .ok e') :
    ∃ e₁, e.matchOrder X fuel o ts = .ok e₁ ∧ e₁.checkAndTriggerStops X fuel ts fuel = .ok e' := by
  unfold matchAndTrigger at h
  grind

end ExchangeSim
