import ExchangeSim.Implied
import ExchangeSim.Prices
import ExchangeSim.Sample

namespace ExchangeSim

open Engine List

variable {D : Type} {X : Exchange D} {w : Prop} {e e' : Engine D} {fuel : Nat} {ts : Int}
  {a : Action}

/-! The cascade stops when no stop is due. -/

theorem checkAndTriggerStops_ends {rounds : Nat}
    (h : e.checkAndTriggerStops X fuel ts rounds = .ok e') :
    ¬e'.hasDueStops ∨ e'.nextTriggeredStop = none :=
  (checkAndTriggerStops_ok (fun _ _ _ _ _ _ _ => trivial) h trivial).2

theorem nextTriggeredStop_isSome {extra : List Nat} (hH : e.holdings.Sound X w extra)
    (h : e.hasDueStops) : e.nextTriggeredStop ≠ none := by
  have hhead : ∀ s lv, e.triggeredLevel s = some lv → lv.orders.head? ≠ none := by
    intro s lv hlv
    have hin : lv ∈ e.stopBook s := by
      cases hbook : e.stopBook s with
      | nil => cases s <;> simp [triggeredLevel, hbook] at hlv
      | cons l rest =>
        have : l = lv := by
          cases s <;> simp [triggeredLevel, hbook] at hlv <;> exact hlv.2
        simp [this]
    simpa using ((hH.shape .stop s).sound lv hin).nonempty
  obtain ⟨-, htrig⟩ := h
  unfold nextTriggeredStop
  split
  next lv hlv => exact hhead .buy lv hlv
  next hbuy =>
    split
    next lv hlv => exact hhead .sell lv hlv
    next hsell => simp [hasTriggeredStops, hbuy, hsell] at htrig

theorem matchAndTrigger_ends {o : Order} (h : e.matchAndTrigger X fuel o ts = .ok e')
    (hs : World.Sound X w ⟨e', none⟩) : ¬e'.Missed := by
  have hH := hs.holds_none rfl
  rw [← hasDueStops_iff (inTurn_of_sound hH)]
  obtain ⟨e₁, -, h⟩ := matchAndTrigger_ok h
  intro hdue
  exact (checkAndTriggerStops_ends h).elim (· hdue) (nextTriggeredStop_isSome hH hdue)

/-! Operations that do not match. -/

structure Engine.Lulls (e e' : Engine D) : Prop where
  last : e'.lastTradePrice = e.lastTradePrice
  triggers : ∀ s, e'.triggers s ⊆ e.triggers s

namespace Engine.Lulls

theorem refl (e : Engine D) : e.Lulls e :=
  ⟨rfl, fun _ => Subset.refl _⟩

theorem trans {e₁ : Engine D} (h : e.Lulls e₁) (h' : e₁.Lulls e') : e.Lulls e' :=
  ⟨h'.last.trans h.last, fun s => Subset.trans (h'.triggers s) (h.triggers s)⟩

theorem of_stopView (h : e'.stopView = e.stopView) : e.Lulls e' :=
  ⟨congrArg Prod.snd h, fun s => by rw [triggers_congr h]; exact Subset.refl _⟩

theorem not_missed (h : e.Lulls e') (hm : ¬e.Missed) : ¬e'.Missed := by
  intro hmissed
  rw [Missed, h.last] at hmissed
  exact hm (hmissed.subset h.triggers)

end Engine.Lulls

theorem lulls_removeStop (o : Order) (e : Engine D) : e.Lulls (e.removeStop o) :=
  ⟨lastTradePrice_removeStop o e, fun s => (thins_removeStop o e s).prices.subset⟩

theorem lulls_adjustOrder (o : Order) (f : Order → Order) (delta : Int) (e : Engine D) :
    e.Lulls (e.adjustOrder o f delta) :=
  ⟨rfl, fun s => by rw [triggers_adjustOrder]; exact Subset.refl _⟩

def Move.lulling : Move D → Bool
  | .note .. => true
  | .cancel .. => true
  | .cancelStop .. => true
  | .markBusted _ => true
  | .unfill .. => true
  | .bust .. => true
  | .topOfBook _ => true
  | .session .. => true
  | .reference _ => true
  | _ => false

theorem Move.lulls (m : Move D) (hm : m.lulling = true) (W : World D) :
    W.engine.Lulls (m.run X W).engine := by
  cases m with
  | cancel order ts reason =>
    refine .of_stopView ?_
    have hreport : ∀ (e₁ : Engine D) freed,
        (e₁.reportCancel order ts reason freed).stopView = e₁.stopView := by
      intro e₁ freed
      unfold reportCancel fireDepthAfterRemove fireDepthAt
      dsimp only
      split
      · rfl
      · split <;> rfl
    exact (hreport _ _).trans (stopView_removeOrder W.engine order)
  | cancelStop order ts reason => exact (lulls_removeStop order W.engine).trans (.of_stopView rfl)
  | unfill order q => exact lulls_adjustOrder order _ q W.engine
  | bust | note | markBusted | topOfBook | session | reference => exact .of_stopView rfl
  | _ => simp [Move.lulling] at hm

theorem OpOutcome.lulls {P : Move D → Bool} (hP : ∀ m, P m = true → m.lulling = true)
    (hs : World.Sound X w ⟨e, none⟩) (h : OpOutcome X w False P ⟨e, none⟩ (.ok e')) :
    e.Lulls e' := by
  have hrun : OpRun X w False P ⟨e, none⟩ ⟨e', none⟩ := h
  exact hrun.invariant (I := fun W => e.Lulls W.engine) hs (.refl e) fun m V _ hI _ _ hm =>
    hI.trans (m.lulls (hP m hm) V)

/-! The auction. -/

theorem stopView_fireDepthAfterRemove (freed : Bool) (s : Side) (price ts : Int) (e : Engine D) :
    (e.fireDepthAfterRemove freed s price ts).stopView = e.stopView := by
  unfold fireDepthAfterRemove fireDepthAt
  split
  · rfl
  · split <;> rfl

theorem stopView_auctionAdvance (o : Order) (next : Option Nat) (ts : Int) (e : Engine D) :
    (e.auctionAdvance o next ts).2.stopView = e.stopView := by
  unfold auctionAdvance auctionHandleFilledOrder
  split
  · split
    · unfold revealTranche fireDepthOf
      dsimp only
      split <;> rfl
    · exact (stopView_fireDepthAfterRemove _ _ _ ts _).trans (stopView_removeOrder e o)
  · rfl

theorem stopView_bookCross (price ts : Int) (bid ask : Order) (q : Int) (e : Engine D) :
    (e.bookCross X price ts bid ask q).stopView = (e.stopBook, price) :=
  (stopView_auctionAdvance _ _ ts _).trans (stopView_auctionAdvance _ _ ts _)

theorem executeAuction_last {referencePrice : Int} (hs : World.Sound X w ⟨e, none⟩)
    (h : e.executeAuction X fuel referencePrice ts = .ok e') :
    e'.triggers = e.triggers ∧ (e'.lastTradePrice = e.lastTradePrice ∨
      ((calculateAuctionPrice e.book referencePrice).hasPrice = true ∧
        e'.lastTradePrice = (calculateAuctionPrice e.book referencePrice).price)) := by
  let price := (calculateAuctionPrice e.book referencePrice).price
  let P : Move D → Bool := fun m => match m with
    | .cross p .. => decide (p = price)
    | _ => false
  unfold executeAuction at h
  dsimp only at h
  split at h
  · cases h
    exact ⟨rfl, .inl rfl⟩
  next hprice =>
    have hloop := auctionLoop_run (X := X) (c := False) (P := P) price ts
      (fun _ _ _ => by simp [P]) fuel fuel (calculateAuctionPrice e.book referencePrice).matchedVolume
      hs (levelCursor_head e .buy) (levelCursor_head e .sell)
    split at h
    · simp at h
    next e₁ hr =>
      cases h
      rw [hr] at hloop
      have hrun : OpRun X w False P ⟨e, none⟩ ⟨e₁, none⟩ := hloop
      have hend := hrun.invariant (I := fun W => W.engine.stopBook = e.stopBook ∧
        (W.engine.lastTradePrice = e.lastTradePrice ∨ W.engine.lastTradePrice = price)) hs
        ⟨rfl, .inl rfl⟩ fun m V _ hI _ _ hm => by
          cases m with
          | cross p ts bid ask q =>
            have hview := stopView_bookCross (X := X) p ts bid ask q V.engine
            refine ⟨(congrArg Prod.fst hview).trans hI.1, .inr ?_⟩
            exact (congrArg Prod.snd hview).trans (by simpa [P] using hm)
          | _ => simp [P] at hm
      have htriggers : e₁.triggers = e.triggers := by
        unfold triggers
        rw [hend.1]
      exact ⟨htriggers, hend.2.imp_right fun hlast => ⟨by simp at hprice; exact hprice.1, hlast⟩⟩

/-! New orders and modifications. -/

theorem newOrder_passes {req : OrderRequest} (hs : World.Sound X w ⟨e, none⟩)
    (hs' : World.Sound X w ⟨e', none⟩) (hm : ¬e.Missed)
    (hok : req.type.isStop = true → firstFailure (e.newOrderChecks X req) = none →
      ¬(0 < e.lastTradePrice ∧ req.side.reaches e.lastTradePrice req.stopPrice))
    (h : e.newOrder X fuel req = .ok e') : ¬e'.Missed := by
  rcases newOrder_cases fuel req e with
    ⟨t, reason, heq⟩ | ⟨t, slot, pool, hpool, hchecks, heq⟩
  · obtain rfl := Except.ok.inj (heq.symm.trans h)
    exact (Lulls.of_stopView rfl).not_missed hm
  · rw [heq] at h
    let o := e.buildOrder X req slot
    let e₁ := { e with rateTracker := t }.acceptOrder o pool req.timestamp
    have hlull : e.Lulls e₁ := .of_stopView rfl
    have hH₁ : e₁.holdings.Sound X w [o.id] := (hs.holds_none rfl).accept rfl hpool
    unfold routeOrder at h
    split at h
    next hstop =>
      cases h
      have hlast : (e₁.insertIntoStopBook o req.stopPrice).lastTradePrice = e.lastTradePrice := by
        unfold insertIntoStopBook
        split <;> rfl
      rintro ⟨hpos, s, p, hp, hr⟩
      rw [hlast] at hpos hr
      obtain ⟨l, hl, rfl⟩ := mem_map.mp hp
      have hlvls : (e₁.insertIntoStopBook o req.stopPrice).stopBook s =
          (e₁.holdings.enter .stop o req.stopPrice).lvls .stop s :=
        congrArg (fun H : Holdings => H.lvls .stop s) (holdings_insertIntoStopBook e₁ o req.stopPrice)
      rw [hlvls] at hl
      rcases Holdings.enter_within hH₁ .stop o req.stopPrice s l hl with ⟨rfl, hprice⟩ | ⟨l', hl', hp'⟩
      · rw [hprice] at hr
        exact hok hstop hchecks ⟨hpos, hr⟩
      · exact hm ⟨hpos, s, l.price, mem_map.mpr ⟨l', hl', hp'⟩, hr⟩
    next =>
      split at h
      · split at h
        · cases h
          exact (hlull.trans (.of_stopView (stopView_insertIntoBook e₁ o req.timestamp))).not_missed hm
        · cases h
          exact (hlull.trans (.of_stopView rfl)).not_missed hm
      · exact matchAndTrigger_ends h hs'

theorem modifyOrder_passes {req : ModifyRequest} (hs : World.Sound X w ⟨e, none⟩)
    (hs' : World.Sound X w ⟨e', none⟩) (hm : ¬e.Missed)
    (hok : ∀ order ∈ e.linked, order.id = req.orderId → e.rests order)
    (h : e.modifyOrder X fuel req = .ok e') : ¬e'.Missed := by
  rcases modifyOrder_cases fuel req (hs.holds_none rfl) with
    ⟨t, reason, heq⟩ | ⟨t, order, hmem, hid, ⟨-, heq⟩ | ⟨-, heq⟩⟩
  · obtain rfl := Except.ok.inj (heq.symm.trans h)
    exact (Lulls.of_stopView rfl).not_missed hm
  · obtain rfl := Except.ok.inj (heq.symm.trans h)
    have hamend : ∀ e₁ : Engine D, e₁.Lulls (e₁.amendOrder order req) := by
      intro e₁
      unfold amendOrder
      dsimp only
      split <;> exact (lulls_adjustOrder order _ _ e₁).trans (.of_stopView rfl)
    exact ((Lulls.of_stopView rfl).trans (hamend { e with rateTracker := t })).not_missed hm
  · have hrest : ({ e with rateTracker := t } : Engine D).rests order := hok order hmem hid
    rw [heq, replaceOrder_eq fuel hrest] at h
    exact matchAndTrigger_ends h hs'

/-- No stop is passed over: none is accepted after its trigger was reached, and neither an auction
nor implied fills, which the cascade does not follow, end at a price that reaches one. -/
def Engine.timely (X : Exchange D) (e : Engine D) : Action → Prop
  | .newOrder req => req.type.isStop = true → firstFailure (e.newOrderChecks X req) = none →
    ¬(0 < e.lastTradePrice ∧ req.side.reaches e.lastTradePrice req.stopPrice)
  | .modifyOrder req => ∀ order ∈ e.linked, order.id = req.orderId → e.rests order
  | .executeAuction referencePrice _ => (calculateAuctionPrice e.book referencePrice).hasPrice = true →
    ¬e.MissedAt (calculateAuctionPrice e.book referencePrice).price
  | .applyImpliedFills fills _ => fills.all (e.impliedFillValid X) = true →
    ∀ fill ∈ fills.getLast?, ¬e.MissedAt fill.fillPrice
  | .restoreOrder .. => False
  | _ => True

theorem applyImpliedFills_passes {fills : List LegFill} {r : Bool × Engine D}
    (hs : World.Sound X False ⟨e, none⟩) (hm : ¬e.Missed)
    (hok : fills.all (e.impliedFillValid X) = true →
      ∀ fill ∈ fills.getLast?, ¬e.MissedAt fill.fillPrice)
    (h : e.applyImpliedFills X fills ts = .ok r) :
    World.Sound X False ⟨r.2, none⟩ ∧ ¬r.2.Missed := by
  unfold applyImpliedFills at h
  split at h
  next hvalid =>
    split at h
    · simp at h
    next e₁ hlegs =>
      cases h
      obtain ⟨hs₁, htrig, hlast⟩ := applyImpliedLegs_sound hs hlegs
      refine ⟨.land (hs₁.holds_none rfl), fun hmissed => ?_⟩
      have hmissed₁ : e₁.MissedAt e₁.lastTradePrice := hmissed
      have hback := hmissed₁.subset htrig
      rw [hlast] at hback
      cases hfill : fills.getLast? with
      | none => exact hm (by simpa [hfill, Missed] using hback)
      | some fill => exact hok hvalid fill (by simp [hfill]) (by simpa [hfill] using hback)
  · cases h
    exact ⟨hs, hm⟩

theorem impliedFillValid_record (a : Action) (e : Engine D) (fill : LegFill) :
    (e.record a).impliedFillValid X fill = e.impliedFillValid X fill := by
  have hsame : ((e.record a).orderIndex fill.orderId).bind (fun p => (e.record a).deref p) =
      (e.orderIndex fill.orderId).bind (fun p => e.deref p) := rfl
  unfold impliedFillValid indexed
  rw [hsame]
  cases (e.orderIndex fill.orderId).bind (fun p => e.deref p) <;> rfl

theorem Engine.timely.admits (h : e.timely X a) (ha : ∀ fills ts, a ≠ .applyImpliedFills fills ts) :
    e.Admits False False a := by
  cases a with
  | modifyOrder req => exact fun order ho hid => ⟨h order ho hid, False.elim⟩
  | restoreOrder s ts => exact h
  | applyImpliedFills fills ts => exact (ha fills ts rfl).elim
  | setSessionState | unlockLimit => exact id
  | _ => trivial

theorem perform_timely (hs : World.Sound X False ⟨e, none⟩) (hm : ¬e.Missed) (ha : e.timely X a)
    (h : e.perform X fuel a = .ok e') : World.Sound X False ⟨e', none⟩ ∧ ¬e'.Missed := by
  have hs₁ : World.Sound X False ⟨e.record a, none⟩ := .land (hs.holds_none rfl)
  have hm₁ : ¬(e.record a).Missed := hm
  by_cases himplied : ∃ fills ts, a = .applyImpliedFills fills ts
  · obtain ⟨fills, ts, rfl⟩ := himplied
    change ((e.record _).applyImpliedFills X fills ts).map (·.2) = .ok e' at h
    cases hr : (e.record (.applyImpliedFills fills ts)).applyImpliedFills X fills ts with
    | error err => simp [hr, Except.map] at h
    | ok r =>
      rw [hr] at h
      obtain rfl : r.2 = e' := Except.ok.inj h
      refine applyImpliedFills_passes hs₁ hm₁ (fun hvalid => ha ?_) hr
      rwa [funext (impliedFillValid_record (.applyImpliedFills fills ts) e)] at hvalid
  · have hadmits := ha.admits fun fills ts heq => himplied ⟨fills, ts, heq⟩
    have hrun := perform_run fuel hs False.elim False.elim hadmits
    rw [h] at hrun
    have hs' : World.Sound X False ⟨e', none⟩ := OpRun.sound hrun hs
    refine ⟨hs', ?_⟩
    have hlull : (∀ m : Move D, Move.partOf a m = true → m.lulling = true) → ¬e'.Missed :=
      fun hP => (OpOutcome.lulls hP hs hrun).not_missed hm
    cases a with
    | newOrder req => exact newOrder_passes hs₁ hs' hm₁ ha h
    | modifyOrder req => exact modifyOrder_passes hs₁ hs' hm₁ ha h
    | executeAuction p ts =>
      obtain ⟨htrig, hlast⟩ := executeAuction_last hs₁ h
      intro hmissed
      have hback : (e.record (.executeAuction p ts)).MissedAt e'.lastTradePrice :=
        MissedAt.subset hmissed fun s => by rw [htrig]; exact Subset.refl _
      rcases hlast with heq | ⟨hprice, heq⟩
      · rw [heq] at hback
        exact hm hback
      · rw [heq] at hback
        exact ha hprice hback
    | applyImpliedFills fills ts => exact (himplied ⟨fills, ts, rfl⟩).elim
    | restoreOrder s ts => exact ha.elim
    | _ => exact hlull fun m hp => by cases m <;> simp [Move.partOf] at hp <;> rfl

def Engine.watched (e : Engine D) : Action → Prop
  | .newOrder _ => True
  | .cancelOrder .. => True
  | .modifyOrder req => ∀ order ∈ e.linked, order.id = req.orderId → e.rests order
  | .executeAuction .. => True
  | .applyImpliedFills .. => True
  | _ => False

def tradedActions : List Action :=
  [.newOrder (limitRequest .sell 105 5), .newOrder (limitRequest .buy 105 5)]

end ExchangeSim
