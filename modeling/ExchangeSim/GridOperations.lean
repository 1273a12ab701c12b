import ExchangeSim.Grid
import ExchangeSim.MoveSound

/-!
The operations of the engine keep to the grid of what is asked for, with every policy that does.
-/

namespace ExchangeSim

open Engine TradeRegistry

variable {D : Type} {G : AddSubgroup ℤ} {E : Event → Prop} {X : Exchange D} {e e' : Engine D}
  {ts price q left : Int} {fuel rounds : Nat} {order o : Order} {req : ModifyRequest}
  {r : Option Order × Engine D} {reason : CancelReason} {f : LegFill} {config : EngineConfig}

/-- A policy that fills on the grid what is on the grid. -/
def MatchPolicy.Aligns (G : AddSubgroup ℤ) (A : MatchPolicy) : Prop :=
  ∀ l q, l.OnGrid G → q ∈ G → (∀ o ∈ (A.matchLevel l q).orders, o.OnGrid G) ∧
    (∀ f ∈ (A.matchLevel l q).results, f.quantity ∈ G) ∧ (A.matchLevel l q).remaining ∈ G

/-- What passes the lot check is on the grid. -/
def EngineConfig.Aligns (G : AddSubgroup ℤ) (c : EngineConfig) : Prop :=
  ∀ q : Int, ¬(c.lotSize > 0 ∧ q % c.lotSize ≠ 0) → q ∈ G

theorem buildOrder_grid {req : OrderRequest} (slot : SlotResidue) (hlots : e.config.Aligns G)
    (h : firstFailure (e.newOrderChecks X req) = none) : (e.buildOrder X req slot).OnGrid G := by
  have hlot := firstFailure_eq_none h (c := (decide (e.config.lotSize > 0 ∧
    req.quantity % e.config.lotSize ≠ 0), .invalidQuantity)) (by simp [newOrderChecks])
  have hshown := firstFailure_eq_none h (c := (decide (req.displayQty > 0 ∧
    e.config.lotSize > 0 ∧ req.displayQty % e.config.lotSize ≠ 0), .invalidQuantity))
    (by simp [newOrderChecks])
  have hquantity := hlots req.quantity (of_decide_eq_false hlot)
  have hdisplay : 0 < req.displayQty → req.displayQty ∈ G := fun hpos =>
    hlots req.displayQty fun hoff => of_decide_eq_false hshown ⟨hpos, hoff⟩
  refine ⟨zero_mem G, ?_, hquantity, hdisplay⟩
  simp only [buildOrder]
  split
  next hpos => exact hdisplay hpos
  next => exact hquantity

theorem modifyChecks_grid (hlots : e.config.Aligns G)
    (h : firstFailure (e.modifyChecks X req) = none) : req.newQuantity ∈ G := by
  have hlot := firstFailure_eq_none h (c := (decide (e.config.lotSize > 0 ∧
    req.newQuantity % e.config.lotSize ≠ 0), .invalidQuantity)) (by simp [modifyChecks])
  exact hlots req.newQuantity (of_decide_eq_false hlot)

structure SerializedOrder.OnGrid (G : AddSubgroup ℤ) (s : SerializedOrder) : Prop where
  filled : s.filledQuantity ∈ G
  remaining : s.remainingQuantity ∈ G
  total : s.totalQty ∈ G
  display : 0 < s.displayQty → s.displayQty ∈ G

namespace Engine.Aligned

section matching

variable (hE : EventLaw G E)

include hE

theorem processFills {rs : List FillResult} (h : e.Aligned G E) (ho : order.OnGrid G)
    (hrs : ∀ f ∈ rs, f.quantity ∈ G) (hr : e.processFills X ts rs order = .ok r) :
    r.2.Aligned G E ∧ ∀ x ∈ r.1, x.OnGrid G := by
  induction rs generalizing order e with
  | nil =>
    cases hr
    exact ⟨h, by simpa using ho⟩
  | cons f rs ih =>
    have hq := hrs f (by simp)
    unfold processFills at hr
    split at hr
    · simp at hr
    next resting hfound =>
      have hresting := (h.books _).findOrder hfound
      split at hr
      · obtain ⟨hback, hundone⟩ := h.undoFills order.side.opposite ho hrs
        dsimp only at hr
        split at hr
        · simp at hr
        next resting' hfound' =>
          cases hr
          exact hundone.applySmpAction hE hback ((hundone.books _).findOrder hfound') f ts
      · refine ih ?_ ?_ (fun x hx => hrs x (by simp [hx])) hr
        · exact (h.bookTrade hE ts _ hq resting).closeResting hE ts f hresting
        · exact ⟨add_mem ho.filled hq, ho.remaining, ho.total, ho.display⟩

variable (hX : X.algo.Aligns G)

include hX

theorem matchLoop (h : e.Aligned G E) (ho : order.OnGrid G)
    (hr : e.matchLoop X ts fuel order = .ok r) : r.2.Aligned G E ∧ ∀ x ∈ r.1, x.OnGrid G := by
  have hpass : ∀ {o : Order} {e : Engine D} {level deeper alive e'}, e.Turn o level deeper →
      e.pass X ts o level deeper = .ok (alive, e') → e.Aligned G E → o.OnGrid G →
      e'.Aligned G E ∧ ∀ x ∈ alive, x.OnGrid G := by
    intro o e level deeper alive e' hturn hfills h ho
    have hlevels : LevelsOnGrid G (level :: deeper) := hturn.book ▸ h.books o.side.opposite
    have hlevel := hlevels level (by simp)
    obtain ⟨horders, hresults, hleft⟩ := hX level _ hlevel ho.remaining
    have hmatched : LevelsOnGrid G ({ level with
        orders := (X.algo.matchLevel level o.remainingQuantity).orders } :: deeper) := by
      intro l hl
      rcases List.mem_cons.mp hl with rfl | hl
      · exact ⟨hlevel.total, horders⟩
      · exact hlevels l (by simp [hl])
    exact (h.setBook hmatched).processFills hE (ho.withRemaining hleft)
      hresults hfills
  refine matchLoop_ok (I := fun o e alive e' => e.Aligned G E → o.OnGrid G →
    e'.Aligned G E ∧ ∀ x ∈ alive, x.OnGrid G) ?_ ?_ ?_ hr h ho
  · exact fun o e h ho => ⟨h, by simpa using ho⟩
  · intro o e level deeper alive e' hturn hfills h ho
    obtain ⟨h₁, halive⟩ := hpass hturn hfills h ho
    exact ⟨h₁.session hE (interrupted_steps X ts e'), halive⟩
  · intro o e level deeper o' e' alive e'' hturn hfills ih h ho
    obtain ⟨h₁, halive⟩ := hpass hturn hfills h ho
    exact ih h₁ (halive o' rfl)

omit hX in
theorem postMatch (h : e.Aligned G E) (ho : order.OnGrid G) (ts b a : Int) :
    (e.postMatch order ts b a).Aligned G E := by
  rcases postMatch_cases order ts b a e with ⟨-, heq⟩ | ⟨reason, heq⟩ | ⟨-, -, heq⟩ <;> rw [heq]
  · exact (h.release order).fireTopOfBookIfChanged hE _ _ _
  · exact (h.dropOrder hE _ _ _).fireTopOfBookIfChanged hE _ _ _
  · exact (h.insertIntoBook hE ho ts).fireTopOfBook hE ts

theorem matchOrder (h : e.Aligned G E) (ho : order.OnGrid G)
    (hr : e.matchOrder X fuel order ts = .ok e') : e'.Aligned G E := by
  rcases matchOrder_ok hr with ⟨-, rfl⟩ | ⟨alive, e₁, hloop, rfl⟩
  · exact (h.dropOrder hE _ _ _).fireTopOfBookIfChanged hE _ _ _
  · obtain ⟨h₁, halive⟩ := h.matchLoop hE hX ho hloop
    cases alive with
    | some order' => exact h₁.postMatch hE (halive order' rfl) _ _ _
    | none => exact h₁.fireTopOfBookIfChanged hE _ _ _

omit hE hX in
theorem nextTriggeredStop {stop : Order} (h : e.Aligned G E)
    (hnext : e.nextTriggeredStop = some stop) : stop.OnGrid G := by
  have hlevel : ∀ s lv, e.triggeredLevel s = some lv → lv ∈ e.stopBook s := by
    intro s lv hlv
    unfold triggeredLevel at hlv
    split at hlv
    · simp at hlv
    all_goals
      next hbook =>
        split at hlv
        · rw [hbook, ← Option.some.inj hlv]
          exact List.mem_cons_self
        · simp at hlv
  unfold Engine.nextTriggeredStop at hnext
  split at hnext
  next lv hlv => exact (h.stops _ lv (hlevel _ lv hlv)).orders stop (List.mem_of_mem_head? hnext)
  next =>
    split at hnext
    next lv hlv => exact (h.stops _ lv (hlevel _ lv hlv)).orders stop (List.mem_of_mem_head? hnext)
    next => simp at hnext

theorem matchAndTrigger (h : e.Aligned G E) (ho : order.OnGrid G)
    (hr : e.matchAndTrigger X fuel order ts = .ok e') : e'.Aligned G E := by
  obtain ⟨e₁, hmatch, hstops⟩ := matchAndTrigger_ok hr
  refine (checkAndTriggerStops_ok ?_ hstops (h.matchOrder hE hX ho hmatch)).1
  intro e stop e' h _ hnext hmatch
  have hstop := h.nextTriggeredStop hnext
  exact (h.removeStop hstop).matchOrder hE hX hstop.triggered hmatch

end matching

/-! The operations. -/

section operations

variable (hE : EventLaw G E)

include hE

theorem acceptOrder (h : e.Aligned G E) (order : Order) (pool : ObjectPool SlotResidue) (ts : Int) :
    (e.acceptOrder order pool ts).Aligned G E := by
  refine emit ?_ (hE.plain _ rfl)
  exact ⟨h.books, h.stops, h.trades, h.journal, h.limits⟩

omit hE in
theorem rated (h : e.Aligned G E) (t : RateTracker) :
    ({ e with rateTracker := t } : Engine D).Aligned G E :=
  ⟨h.books, h.stops, h.trades, h.journal, h.limits⟩

theorem newOrder (hX : X.algo.Aligns G) {req : OrderRequest} (h : e.Aligned G E)
    (hlots : e.config.Aligns G) (hr : e.newOrder X fuel req = .ok e') : e'.Aligned G E := by
  rcases newOrder_cases fuel req e with ⟨t, reason, heq⟩ | ⟨t, slot, pool, -, hchecks, heq⟩
  · obtain rfl := Except.ok.inj (heq.symm.trans hr)
    exact (h.rated t).emit (hE.plain _ rfl)
  · have ho := buildOrder_grid slot hlots hchecks
    have haccept := (h.rated t).acceptOrder hE (e.buildOrder X req slot) pool req.timestamp
    rw [heq] at hr
    unfold routeOrder at hr
    split at hr
    · exact Except.ok.inj hr ▸ haccept.insertIntoStopBook hE ho _
    · split at hr
      · split at hr
        · exact Except.ok.inj hr ▸ (haccept.insertIntoBook hE ho _).fireTopOfBook hE _
        · exact Except.ok.inj hr ▸ haccept.dropOrder hE _ _ _
      · exact haccept.matchAndTrigger hE hX ho hr

section

variable (h : e.Aligned G E)

include h

theorem reportCancel (order : Order) (ts : Int) (reason : CancelReason)
    (freed : Bool) : (e.reportCancel order ts reason freed).Aligned G E :=
  ((h.dropOrder hE _ _ _).emit (hE.plain _ rfl)).fireDepthAfterRemove hE _ _ _ _

theorem cancelActiveOrder (ho : order.OnGrid G)
    (hr : e.cancelActiveOrder order ts reason = .ok e') : e'.Aligned G E := by
  rcases cancelActiveOrder_ok hr with ⟨e₁, hrem, rfl⟩ | ⟨r, hrem, rfl⟩
  · rcases stopBookRemoveStop_ok hrem with rfl | rfl
    · exact (h.removeStop ho).dropOrder hE _ _ _
    · exact (h.removeOrder ho).dropOrder hE _ _ _
  · exact ((h.bookRemoveOrder ho hrem).reportCancel hE _ _ _ _).fireTopOfBookIfChanged hE _ _ _

theorem cancelOrder {id : Nat} (hr : e.cancelOrder X id ts = .ok e') :
    e'.Aligned G E := by
  obtain ⟨t, ⟨r, rfl⟩ | ⟨order, hindexed, hcancel⟩⟩ := cancelOrder_ok hr
  · exact (h.rated t).emit (hE.plain _ rfl)
  · exact (h.rated t).cancelActiveOrder hE (h.indexed hindexed) hcancel

theorem cancelWhere {select : Order → Bool} {ids : List Nat} {count : Nat} {r : Nat × Engine D} (hr : e.cancelWhere select ts reason ids count = .ok r) :
    r.2.Aligned G E :=
  cancelWhere_ok
    (fun _ _ _ _ h hindexed hcancel => h.cancelActiveOrder hE (h.indexed hindexed) hcancel) hr h

theorem amendOrder (ho : order.OnGrid G) (hq : req.newQuantity ∈ G) :
    (e.amendOrder order req).Aligned G E := by
  have hleft := sub_mem hq ho.filled
  have hadjust := (h.adjustOrder order (f := fun o => { o with
      quantity := req.newQuantity
      remainingQuantity := req.newQuantity - order.filledQuantity })
    (fun x hx _ => ⟨hx.filled, hleft, hx.total, hx.display⟩)
    (neg_mem (sub_mem ho.remaining hleft))).emit (hE.plain (.orderModified order.id
      req.clientOrderId req.newPrice req.newQuantity req.timestamp) rfl)
  unfold Engine.amendOrder
  dsimp only
  split
  · exact hadjust
  · exact hadjust.fireDepth hE _ _ _ _

omit h in
theorem modifyOrder (hX : X.algo.Aligns G) (h : e.Aligned G E) (hlots : e.config.Aligns G)
    (hr : e.modifyOrder X fuel req = .ok e') : e'.Aligned G E := by
  obtain ⟨t, ⟨r, rfl⟩ | ⟨order, -, hindexed, hchecks, hcase⟩⟩ := modifyOrder_ok hr
  · exact (h.rated t).emit (hE.plain _ rfl)
  · have ho := h.indexed hindexed
    have hq := modifyChecks_grid hlots hchecks
    rcases hcase with ⟨-, rfl⟩ | ⟨-, e₁, hpull, hmatch⟩
    · exact (h.rated t).amendOrder hE ho hq
    · obtain ⟨r, hrem, rfl⟩ := pullOrder_ok hpull
      have hout := (h.rated t).bookRemoveOrder ho hrem
      exact (((hout.emit (hE.plain _ rfl)).fireDepthAfterRemove hE _ _ _ _).emit
        (hE.plain _ rfl)).matchAndTrigger hE hX (ho.replaced hq) hmatch

theorem restoreOrder {s : SerializedOrder} (hs : s.OnGrid G) (ts : Int) :
    (e.restoreOrder X s ts).Aligned G E := by
  unfold Engine.restoreOrder
  split
  · exact h.emit (hE.plain _ rfl)
  · exact h.emit (hE.plain _ rfl)
  · refine fireTopOfBook hE (insertIntoBook hE (h.acceptOrder hE _ _ _) ?_ _) _
    exact ⟨hs.filled, hs.remaining, hs.total, hs.display⟩

end

omit hE in
theorem unfill {id : Nat} (h : e.Aligned G E) (hq : q ∈ G) (hr : e.unfill X id q = .ok e') :
    e'.Aligned G E := by
  rcases unfill_ok hr with rfl | ⟨order, rfl⟩
  · exact h
  · exact h.adjustOrder order (fun x hx _ => hx.fill (neg_mem hq)) hq

omit hE in
theorem bustTrade {id : Nat} {reason : BustReason} (h : e.Aligned G E)
    (hbust : ∀ a r price q, E (.tradeBusted id a r price q reason ts))
    (hr : e.bustTrade X id reason ts = .ok e') : e'.Aligned G E := by
  rcases bustTrade_ok hr with rfl | ⟨t, e₁, e₂, hlook, -, hfirst, hsecond, rfl⟩
  · exact h
  · have hq : t.quantity ∈ G := by
      unfold lookup at hlook
      split at hlook
      · simp at hlook
      · exact h.trades id t hlook
    have hmark : ({ e with tradeRegistry := e.tradeRegistry.markBusted id } : Engine D).Aligned
        G E := by
      refine ⟨h.books, h.stops, fun n t' ht' => ?_, h.journal, h.limits⟩
      by_cases hn : n = id
      · subst hn
        simp only [markBusted, Function.update_self, Option.map_eq_some_iff] at ht'
        obtain ⟨t₀, ht₀, rfl⟩ := ht'
        exact h.trades n t₀ ht₀
      · simp only [markBusted, Function.update_of_ne hn] at ht'
        exact h.trades n t' ht'
    have h₂ := (hmark.unfill hq hfirst).unfill hq hsecond
    refine emit ?_ (hbust _ _ _ _)
    exact ⟨h₂.books, h₂.stops, h₂.trades, h₂.journal, h₂.limits⟩

end operations

/-! The auction. -/

section auction

variable (hE : EventLaw G E)

include hE

theorem auctionTrade (h : e.Aligned G E) (hq : q ∈ G) (price ts : Int) (bid ask : Order) :
    (e.auctionTrade X price ts bid ask q).Aligned G E := by
  have hfill := (h.fillResting .buy bid.id hq).fillResting .sell ask.id hq
  let e₁ : Engine D := { (e.fillResting .buy bid.id q).fillResting .sell ask.id q with
    positions := updateFill X.maxAccounts ask.accountId .sell q
      (updateFill X.maxAccounts bid.accountId .buy q e.positions)
    lastTradePrice := price }
  have h₁ : e₁.Aligned G E :=
    ⟨hfill.books, hfill.stops, hfill.trades, hfill.journal, hfill.limits⟩
  refine emit (emit (recordTrade hE (emit ((h₁.less .buy bid.id hq).less .sell ask.id hq)
    (hE.plain _ ?_)) hq _ _ _) (hE.plain _ rfl))
    (hE.plain _ rfl)
  split <;> rfl

theorem auctionAdvance (h : e.Aligned G E) (ho : o.OnGrid G) (next : Option Nat) (ts : Int) :
    (e.auctionAdvance o next ts).2.Aligned G E := by
  unfold Engine.auctionAdvance
  split
  · unfold auctionHandleFilledOrder
    split
    next hnext => exact h.revealTranche hE ho hnext ts
    next => exact ((h.removeOrder ho).fireDepthAfterRemove hE _ _ _ _).release o
  · exact h

omit hE in
theorem matchedVolume (h : e.Aligned G E) (referencePrice : Int) :
    (calculateAuctionPrice e.book referencePrice).matchedVolume ∈ G := by
  have hbuy : ∀ p, buyVolumeAt e.book p ∈ G := fun p =>
    LevelsOnGrid.sum_mem fun l hl => h.books .buy l (List.mem_of_mem_filter hl)
  have hsell : ∀ p, sellVolumeAt e.book p ∈ G := fun p =>
    LevelsOnGrid.sum_mem fun l hl => h.books .sell l (List.mem_of_mem_filter hl)
  have hconsider : ∀ (a : AuctionSearch) (p : Int), a.best.matchedVolume ∈ G →
      (considerPrice e.book referencePrice a p).best.matchedVolume ∈ G := by
    intro a p ha
    unfold considerPrice
    dsimp only
    split
    · exact ha
    · split
      · exact min_mem_grid (hbuy p) (hsell p)
      · exact ha
  have hfold : ∀ (ps : List Int) (a : AuctionSearch), a.best.matchedVolume ∈ G →
      (ps.foldl (considerPrice e.book referencePrice) a).best.matchedVolume ∈ G := by
    intro ps
    induction ps with
    | nil => exact fun _ ha => ha
    | cons p ps ih => exact fun a ha => ih _ (hconsider a p ha)
  exact hfold _ _ (zero_mem G)

theorem executeAuction (h : e.Aligned G E) (hr : e.executeAuction X fuel price ts = .ok e') :
    e'.Aligned G E := by
  rcases executeAuction_ok hr with rfl | ⟨e₁, hloop, rfl⟩
  · exact h
  · obtain ⟨-, h₁, -⟩ := auctionLoop_ok (I := fun left e => e.Aligned G E ∧ left ∈ G) (by
      intro left e _ _ bid ask nextBid nextAsk ⟨h, hleft⟩ hbid hask
      have hb := (h.books .buy).findOrder hbid
      have ha := (h.books .sell).findOrder hask
      have hq := min_mem_grid hleft (min_mem_grid hb.remaining ha.remaining)
      exact ⟨((h.auctionTrade hE hq _ ts _ _).auctionAdvance hE (hb.fill hq) _ ts).auctionAdvance
        hE (ha.fill hq) _ ts, sub_mem hleft hq⟩) hloop ⟨h, h.matchedVolume price⟩
    have htop := h₁.fireTopOfBook hE ts
    exact ⟨htop.books, htop.stops, htop.trades, htop.journal, htop.limits⟩

theorem publishIndicativePrice (h : e.Aligned G E) (price ts : Int) :
    (e.publishIndicativePrice price ts).Aligned G E := by
  unfold Engine.publishIndicativePrice
  dsimp only
  split
  · exact h.emit (hE.plain _ rfl)
  · exact h

end auction

/-! Implied fills. -/

section implied

variable (hE : EventLaw G E)

include hE

theorem impliedTrade (h : e.Aligned G E) (ts : Int) (hq : f.fillQty ∈ G) (o : Order) :
    (e.impliedTrade X ts f o).Aligned G E := by
  have hadjust := h.adjustOrder o (fun x hx _ => hx.fill hq)
    (neg_mem hq)
  let e₁ : Engine D := { e.adjustOrder o (·.fill f.fillQty) (-f.fillQty) with
    lastTradePrice := f.fillPrice
    positions := updateFill X.maxAccounts o.accountId o.side f.fillQty e.positions }
  have h₁ : e₁.Aligned G E :=
    ⟨hadjust.books, hadjust.stops, hadjust.trades, hadjust.journal, hadjust.limits⟩
  refine emit (recordTrade hE (emit h₁ (hE.plain _ ?_))
    hq _ _ _) (hE.plain _ rfl)
  split <;> rfl

theorem impliedReveal (h : e.Aligned G E) (ho : o.OnGrid G) (hnext : o.hasNextTranche = true)
    (ts : Int) : (e.impliedReveal ts o).Aligned G E := by
  have hq := ho.tranche hnext
  have hbook := h.setBook (s := o.side)
    ((h.books o.side).onLevelOf o.id fun _ hl => hl.requeue ho hq)
  refine fireDepthHolding hE (emit (hbook.setStopBook ?_) (hE.plain _ rfl)) o ts
  exact (h.stops o.side).onLevelOf o.id fun _ hl => hl.requeue ho hq

theorem applyImpliedFill (h : e.Aligned G E) (hq : f.fillQty ∈ G)
    (hr : e.applyImpliedFill X ts f = .ok e') : e'.Aligned G E := by
  obtain ⟨order, hindexed, hcase⟩ := applyImpliedFill_ok hr
  have ho := (h.indexed hindexed).fill hq
  have htrade := h.impliedTrade (X := X) hE ts hq (order.fill f.fillQty)
  rcases hcase with ⟨hnext, rfl⟩ | rfl | ⟨r, hrem, rfl⟩
  · exact htrade.impliedReveal hE ho hnext ts
  · exact htrade.fireDepthHolding hE _ _
  · exact ((htrade.bookRemoveOrder ho hrem).fireDepthAfterRemove hE _ _ _ _).release _

theorem applyImpliedFills {fills : List LegFill} {r : Bool × Engine D} (h : e.Aligned G E)
    (hq : ∀ f ∈ fills, f.fillQty ∈ G) (hr : e.applyImpliedFills X fills ts = .ok r) :
    r.2.Aligned G E := by
  rcases applyImpliedFills_ok hr with heq | ⟨e₁, hlegs, heq⟩
  · exact heq ▸ h
  · have hrun := applyImpliedLegs_ok
      (fun _ f _ h hf hfill => h.applyImpliedFill hE (hq f hf) hfill) hlegs h
    exact heq ▸ hrun.fireTopOfBook hE ts

end implied

end Engine.Aligned

/-- An operation that asks for quantities on the grid, and reports what the law allows. -/
def Engine.lotted (G : AddSubgroup ℤ) (E : Event → Prop) (e : Engine D) : Action → Prop
  | .newOrder _ => e.config.Aligns G
  | .modifyOrder _ => e.config.Aligns G
  | .restoreOrder s _ => s.OnGrid G
  | .applyImpliedFills fills _ => ∀ f ∈ fills, f.fillQty ∈ G
  | .bustTrade id reason ts => ∀ a r price q, E (.tradeBusted id a r price q reason ts)
  | _ => True

theorem Except.of_map {α β ε : Type} {f : α → β} {r : Except ε α} {b : β} (h : r.map f = .ok b) :
    ∃ a, r = .ok a ∧ f a = b := by
  cases r with
  | error err => simp [Except.map] at h
  | ok a => exact ⟨a, rfl, Except.ok.inj h⟩

theorem mem_of_mem_filterMap {α β : Type} {f : α → Option β} {g : β → α}
    (h : ∀ x b, f x = some b → x = g b) {l : List α} {b : β} (hb : b ∈ l.filterMap f) : g b ∈ l := by
  obtain ⟨x, hx, hxb⟩ := List.mem_filterMap.mp hb
  exact h x b hxb ▸ hx

theorem Engine.Aligned.perform (hE : EventLaw G E) (hX : X.algo.Aligns G) {a : Action}
    (h : e.Aligned G E) (hok : e.lotted G E a) (hr : e.perform X fuel a = .ok e') :
    e'.Aligned G E := by
  have hrec : (e.record a).Aligned G E := by
    refine ⟨h.books, h.stops, h.trades, fun ev hev => ?_, h.limits⟩
    rcases List.mem_append.mp hev with hev | hev
    · exact h.journal ev hev
    · simp at hev
  have hmap : ∀ {α : Type} {r : Outcome D (α × Engine D)}, (∀ x, r = .ok x → x.2.Aligned G E) →
      r.map (·.2) = .ok e' → e'.Aligned G E := fun hall heq => by
    obtain ⟨x, hx, rfl⟩ := Except.of_map heq
    exact hall x hx
  cases a with
  | newOrder req => exact hrec.newOrder hE hX hok hr
  | cancelOrder id ts => exact hrec.cancelOrder hE hr
  | modifyOrder req => exact hrec.modifyOrder hE hX hok hr
  | triggerExpiry | massCancel | massCancelAll => exact hmap (fun _ hx => hrec.cancelWhere hE hx) hr
  | restoreOrder s ts => exact Except.ok.inj hr ▸ hrec.restoreOrder hE hok ts
  | bustTrade id reason ts => exact hrec.bustTrade hok hr
  | setSessionState s ts => exact Except.ok.inj hr ▸ hrec.session hE (setSessionState_steps X ts _ s)
  | unlockLimit ts => exact Except.ok.inj hr ▸ hrec.session hE (unlockLimit_steps X ts _)
  | executeAuction p ts => exact hrec.executeAuction hE hr
  | publishIndicativePrice p ts => exact Except.ok.inj hr ▸ hrec.publishIndicativePrice hE p ts
  | applyImpliedFills fills ts => exact hmap (fun _ hx => hrec.applyImpliedFills hE hok hx) hr

theorem init_aligned (X : Exchange D) (derived : D) (slots : Nat → SlotResidue)
    (hlimits : config.Quiet E) :
    (init X config derived slots).Aligned G E where
  books s l hl := by simp [init] at hl
  stops s l hl := by simp [init] at hl
  trades id t ht := by simp [init] at ht
  journal ev hev := by simp [init] at hev
  limits := hlimits

theorem reach_aligned (hE : EventLaw G E) (hX : X.algo.Aligns G) {ok : Engine D → Action → Prop}
    (hok : ∀ e a, ok e a → e.lotted G E a) {derived : D} {slots : Nat → SlotResidue}
    (hlimits : config.Quiet E) (h : Reach X ok (init X config derived slots) e) :
    e.Aligned G E := by
  induction h with
  | start => exact init_aligned X derived slots hlimits
  | step _ ha hperf ih => exact ih.perform hE hX (hok _ _ ha) hperf

end ExchangeSim
