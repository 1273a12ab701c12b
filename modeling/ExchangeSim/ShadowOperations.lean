import ExchangeSim.Shadow

namespace ExchangeSim

open Engine

variable {D α : Type} {b : Bool} {past : List JournalEntry} {X : Exchange D} {e e' : Engine D}

namespace Engine.Shadow

variable (h : e.Shadow b past e')

include h

theorem follows (id : Nat) (s : Side) :
    successor id (e'.book s) = successor id (e.book s) := by
  obtain ⟨slots, -, -, rfl⟩ := h
  exact successor_blank (e.book s) id

theorem findsLevel (price : Int) (s : Side) :
    findLevel price (e'.book s) = (findLevel price (e.book s)).map (·.blank b) := by
  obtain ⟨slots, -, -, rfl⟩ := h
  exact findLevel_blank (e.book s) price

theorem auctionNextLevel (s : Side) (price current : Int) :
    e'.auctionNextLevel s price current = e.auctionNextLevel s price current := by
  obtain ⟨slots, -, -, rfl⟩ := h
  exact auctionNextLevel_blank e s price current

theorem auctionAdvance (o : Order) (next : Option Nat) (ts : Int) :
    Beside b past id (e.auctionAdvance o next ts) (e'.auctionAdvance (o.blank b) next ts) := by
  obtain ⟨hfreed, hremoved⟩ := h.removeOrder o
  unfold Engine.auctionAdvance Engine.auctionHandleFilledOrder
  simp only [Order.blank_remainingQuantity, hasNextTranche_blank, Order.blank_id, Order.blank_side,
    Order.blank_price]
  split
  · split
    · exact ⟨rfl, h.map (fun _ => revealTranche_blank e o ts) (orderPool_revealTranche e o ts)⟩
    · rw [hfreed]
      exact ⟨rfl, (hremoved.map (fun _ => fireDepthAfterRemove_blank _ ts _ o.side o.price)
        (by simp)).release o⟩
  · exact ⟨rfl, h⟩

theorem auctionTrade (price ts : Int) (bid ask : Order) (q : Int) :
    (e.auctionTrade X price ts bid ask q).Shadow b past
      (e'.auctionTrade (X.hush b) price ts (bid.blank b) (ask.blank b) q) :=
  h.map (fun _ => auctionTrade_blank e ts X price bid ask q) rfl

theorem auctionLevel (price ts : Int) (fuel : Nat) (left : Int)
    (bidId askId : Option Nat) : Outcome.Shadows b past (Beside b past id)
      (e.auctionLevel X price ts fuel left bidId askId)
      (e'.auctionLevel (X.hush b) price ts fuel left bidId askId) := by
  induction fuel generalizing e e' left bidId askId with
  | zero =>
    cases bidId with
    | none => exact ⟨rfl, h⟩
    | some bid =>
      cases askId with
      | none => exact ⟨rfl, h⟩
      | some ask =>
        unfold auctionLevel
        split
        · exact ⟨rfl, h⟩
        · exact ⟨rfl, h⟩
  | succ fuel ih =>
    cases bidId with
    | none => exact ⟨rfl, h⟩
    | some bidId =>
      cases askId with
      | none => exact ⟨rfl, h⟩
      | some askId =>
        unfold auctionLevel
        simp only [h.finds, h.follows]
        split
        · exact ⟨rfl, h⟩
        · cases findOrder bidId (e.book .buy) with
          | none => exact ⟨rfl, h⟩
          | some bid =>
            cases findOrder askId (e.book .sell) with
            | none => exact ⟨rfl, h⟩
            | some ask =>
              simp only [Option.map_some, Order.blank_remainingQuantity, fill_blank]
              let q := min left (min bid.remainingQuantity ask.remainingQuantity)
              have htrade := h.auctionTrade (X := X) price ts (bid.fill q) (ask.fill q) q
              obtain ⟨hbid, h₁⟩ := htrade.auctionAdvance (bid.fill q)
                (successor bidId (e.book .buy)) ts
              obtain ⟨hask, h₂⟩ := h₁.auctionAdvance (ask.fill q)
                (successor askId (e.book .sell)) ts
              rw [hbid, hask]
              exact ih h₂ _ _ _

theorem auctionLoop (price ts : Int) (fuel rounds : Nat) (left : Int)
    (bidPrice askPrice : Option Int) : Outcome.Shadows b past (Shadow b past)
      (e.auctionLoop X price ts fuel rounds left bidPrice askPrice)
      (e'.auctionLoop (X.hush b) price ts fuel rounds left bidPrice askPrice) := by
  induction rounds generalizing e e' left bidPrice askPrice with
  | zero =>
    cases bidPrice with
    | none => exact h
    | some bid =>
      cases askPrice with
      | none => exact h
      | some ask =>
        unfold auctionLoop
        split
        · exact h
        · exact ⟨rfl, h⟩
  | succ rounds ih =>
    cases bidPrice with
    | none => exact h
    | some bid =>
      cases askPrice with
      | none => exact h
      | some ask =>
        unfold auctionLoop
        simp only [h.findsLevel]
        split
        · exact h
        · cases findLevel bid (e.book .buy) with
          | none => exact ⟨rfl, h⟩
          | some l =>
            cases findLevel ask (e.book .sell) with
            | none => exact ⟨rfl, h⟩
            | some k =>
              simp only [Option.map_some, headId_blank]
              rcases (h.auctionLevel price ts fuel left (l.orders.head?.map (·.id))
                (k.orders.head?.map (·.id))).cases with
                ⟨⟨left₁, e₁⟩, ⟨left₁', e₁'⟩, hr, hr', rfl, h₁⟩ | ⟨_, _, hr, hr', herr⟩ <;> rw [hr, hr']
              · simp only [h₁.auctionNextLevel]
                exact ih h₁ _ _ _
              · exact herr


theorem executeAuction (fuel : Nat) (reference ts : Int) :
    Outcome.Shadows b past (Shadow b past) (e.executeAuction X fuel reference ts)
      (e'.executeAuction (X.hush b) fuel reference ts) := by
  have hbest : ∀ s, (e'.book s).head?.map (·.price) = (e.book s).head?.map (·.price) := by
    obtain ⟨slots, -, -, rfl⟩ := h
    simp [Function.comp_def]
  have hprice : calculateAuctionPrice e'.book reference = calculateAuctionPrice e.book reference := by
    obtain ⟨slots, -, -, rfl⟩ := h
    exact calculateAuctionPrice_blank e.book reference
  unfold Engine.executeAuction
  simp only [hprice, hbest]
  split
  · exact h
  · rcases (h.auctionLoop (calculateAuctionPrice e.book reference).price ts fuel fuel
      (calculateAuctionPrice e.book reference).matchedVolume ((e.book .buy).head?.map (·.price))
      ((e.book .sell).head?.map (·.price))).cases with
      ⟨e₁, e₁', hr, hr', h₁⟩ | ⟨_, _, hr, hr', herr⟩ <;> rw [hr, hr']
    · exact (h₁.fireTopOfBook ts).map (f := fun e => { e with viReferencePrice := _ })
        (fun _ => rfl) rfl
    · exact herr

theorem rateCheck (account : Nat) (ts : Int) :
    Beside b past id (e.rateCheck X account ts) (e'.rateCheck (X.hush b) account ts) := by
  obtain ⟨slots, hlen, hclean, rfl⟩ := h
  unfold rateCheck
  simp only [blank_derived, blank_rateTracker, Exchange.hush_isRateCheckEnabled,
    Exchange.hush_maxAccounts]
  split
  · exact ⟨rfl, slots, hlen, hclean, rfl⟩
  · exact ⟨rfl, slots, hlen, hclean, rfl⟩

theorem allocate :
    e.orderPool.allocate = none ∧ e'.orderPool.allocate = none ∨
      ∃ slot pool slot' pool', e.orderPool.allocate = some (slot, pool) ∧
        e'.orderPool.allocate = some (slot', pool') ∧ slot'.Clean b ∧
        ({ e with orderPool := pool } : Engine D).Shadow b past { e' with orderPool := pool' } := by
  obtain ⟨slots, hlen, hclean, rfl⟩ := h
  cases hf : e.orderPool.free with
  | nil =>
    rw [hf, List.length_nil, List.length_eq_zero_iff] at hlen
    subst hlen
    exact .inl ⟨by simp [ObjectPool.allocate, hf], rfl⟩
  | cons slot free =>
    rw [hf] at hlen
    cases slots with
    | nil => simp at hlen
    | cons slot' slots =>
      have hslot : e.orderPool.allocate = some (slot, ⟨free, e.orderPool.allocated + 1⟩) := by
        simp [ObjectPool.allocate, hf]
      exact .inr ⟨slot, _, slot', _, hslot, rfl, hclean slot' (by simp), slots,
        Nat.succ.inj hlen, fun x hx => hclean x (by simp [hx]), rfl⟩

omit h in
theorem acceptOrder {pool pool' : ObjectPool SlotResidue}
    (h : ({ e with orderPool := pool } : Engine D).Shadow b past { e' with orderPool := pool' })
    (o : Order) (ts : Int) :
    (e.acceptOrder o pool ts).Shadow b past (e'.acceptOrder (o.blank b) pool' ts) := by
  let register : Engine D → Engine D := fun e => { e with
    orderIndex := Function.update e.orderIndex o.id (some o.id)
    nextOrderId := max e.nextOrderId (o.id + 1) }
  have hregister : (register { e with orderPool := pool }).Shadow b past
      (register { e' with orderPool := pool' }) := h.map (fun _ => rfl) rfl
  exact hregister.emit (.orderAccepted o.id o.clientOrderId ts)

theorem routeOrder (hX : X.Ignores b) (fuel : Nat) (req : OrderRequest)
    (o : Order) : Outcome.Shadows b past (Shadow b past) (e.routeOrder X fuel req o)
      (e'.routeOrder (X.hush b) fuel req (o.blank b)) := by
  unfold Engine.routeOrder
  rw [h.currentState]
  split
  · exact h.insertIntoStopBook o req.stopPrice
  · split
    · split
      · exact (h.insertIntoBook o req.timestamp).fireTopOfBook req.timestamp
      · exact h.dropOrder o req.timestamp _
    · exact h.matchAndTrigger hX fuel o req.timestamp

theorem buildOrder (req : OrderRequest) (slot : SlotResidue)
    {slot' : SlotResidue} (hslot : slot'.Clean b) :
    e'.buildOrder (X.hush b) req slot' = (e.buildOrder X req slot).blank b := by
  obtain ⟨slots, -, -, rfl⟩ := h
  simp [buildOrder, Order.blank, hslot.1]

theorem newOrderChecks (req : OrderRequest) :
    e'.newOrderChecks (X.hush b) req = e.newOrderChecks X req := by
  obtain ⟨slots, -, -, rfl⟩ := h
  rfl

theorem newOrder (hX : X.Ignores b) (fuel : Nat) (req : OrderRequest) :
    Outcome.Shadows b past (Shadow b past) (e.newOrder X fuel req)
      (e'.newOrder (X.hush b) fuel req) := by
  obtain ⟨hpass, hrate⟩ := h.rateCheck (X := X) req.accountId req.timestamp
  unfold Engine.newOrder
  simp only [hpass, hrate.newOrderChecks, id_eq]
  split
  · exact hrate.emit _
  · cases firstFailure ((e.rateCheck X req.accountId req.timestamp).2.newOrderChecks X req) with
    | some r => exact hrate.emit _
    | none =>
      rcases hrate.allocate with ⟨hnone, hnone'⟩ | ⟨slot, pool, slot', pool', hs, hs', hclean, hpool⟩
      · rw [hnone, hnone']
        exact hrate.emit _
      · rw [hs, hs']
        simp only [hrate.buildOrder req slot hclean]
        exact (acceptOrder hpool _ req.timestamp).routeOrder hX fuel req _

theorem bookRemoveOrder (o : Order) :
    Outcome.Shadows b past (Beside b past id) (e.bookRemoveOrder o)
      (e'.bookRemoveOrder (o.blank b)) := by
  have hremoved := h.removeOrder o
  have hstop := h.removeStop o
  obtain ⟨slots, hlen, hclean, rfl⟩ := h
  unfold bookRemoveOrder
  simp only [Order.blank_side, Order.blank_id, blank_book, blank_stopBook,
    holds_blank, unlinkFrom_blank, inner_blank]
  split
  · exact hremoved
  · split
    · split
      · exact ⟨rfl, slots, hlen, hclean, rfl⟩
      · exact ⟨rfl, hstop⟩
    · exact ⟨rfl, slots, hlen, hclean, rfl⟩

theorem stopBookRemoveStop (o : Order) :
    Outcome.Shadows b past (Shadow b past) (e.stopBookRemoveStop o)
      (e'.stopBookRemoveStop (o.blank b)) := by
  have hremoved := h.removeOrder o
  have hstop := h.removeStop o
  obtain ⟨slots, hlen, hclean, rfl⟩ := h
  unfold stopBookRemoveStop
  simp only [Order.blank_side, Order.blank_id, blank_book, blank_stopBook,
    holds_blank, inner_blank, hremoved.1, id_eq]
  split
  · exact hstop
  · split
    · split
      · exact ⟨rfl, slots, hlen, hclean, rfl⟩
      · exact hremoved.2
    · exact ⟨rfl, slots, hlen, hclean, rfl⟩

theorem fireDepthAfterRemove (freed : Bool) (s : Side) (price ts : Int) :
    (e.fireDepthAfterRemove freed s price ts).Shadow b past
      (e'.fireDepthAfterRemove freed s price ts) :=
  h.map (fun _ => fireDepthAfterRemove_blank e ts freed s price) (by simp)

theorem cancelActiveOrder (o : Order) (ts : Int) (r : CancelReason) :
    Outcome.Shadows b past (Shadow b past) (e.cancelActiveOrder o ts r)
      (e'.cancelActiveOrder (o.blank b) ts r) := by
  unfold Engine.cancelActiveOrder
  simp only [Order.blank_type, h.bestPrice]
  split
  · rcases (h.stopBookRemoveStop o).cases with ⟨e₁, e₁', hr, hr', h₁⟩ | ⟨_, _, hr, hr', herr⟩ <;>
      rw [hr, hr']
    · exact h₁.dropOrder o ts r
    · exact herr
  · rcases (h.bookRemoveOrder o).cases with
      ⟨⟨freed, e₁⟩, ⟨freed', e₁'⟩, hr, hr', rfl, h₁⟩ | ⟨_, _, hr, hr', herr⟩ <;> rw [hr, hr']
    · exact (((h₁.dropOrder o ts r).emit _).fireDepthAfterRemove freed' o.side o.price ts
        ).fireTopOfBookIfChanged ts _ _
    · exact herr

theorem unknown (id : Nat) :
    e'.unknown (X.hush b) id = e.unknown X id := by
  obtain ⟨slots, -, -, rfl⟩ := h
  rfl

theorem indexed (id : Nat) :
    Outcome.Shadows b past (fun o o' => o' = o.blank b) (e.indexed id) (e'.indexed id) := by
  have hfind : (e'.orderIndex id).bind (fun p => e'.deref p) =
      ((e.orderIndex id).bind (fun p => e.deref p)).map (·.blank b) := by
    obtain ⟨slots, -, -, rfl⟩ := h
    simp only [blank_orderIndex, deref_blank]
    cases e.orderIndex id <;> rfl
  unfold Engine.indexed
  rw [hfind]
  cases (e.orderIndex id).bind (fun p => e.deref p) with
  | none => exact ⟨rfl, h⟩
  | some o => exact rfl

theorem cancelOrder (id : Nat) (ts : Int) :
    Outcome.Shadows b past (Shadow b past) (e.cancelOrder X id ts)
      (e'.cancelOrder (X.hush b) id ts) := by
  unfold Engine.cancelOrder
  simp only [h.currentState, h.unknown]
  split
  · exact h.emit _
  · split
    · exact h.emit _
    · rcases (h.indexed id).cases with ⟨o, o', hr, hr', rfl⟩ | ⟨_, _, hr, hr', herr⟩ <;>
        rw [hr, hr']
      · obtain ⟨hpass, hrate⟩ := h.rateCheck (X := X) o.accountId ts
        simp only [Order.blank_accountId, hpass, id_eq]
        split
        · exact hrate.emit _
        · exact hrate.cancelActiveOrder o ts _
      · exact herr

theorem pullOrder (o : Order) (req : ModifyRequest) :
    Outcome.Shadows b past (Shadow b past) (e.pullOrder o req)
      (e'.pullOrder (o.blank b) req) := by
  unfold Engine.pullOrder
  rcases (h.bookRemoveOrder o).cases with
    ⟨⟨freed, e₁⟩, ⟨freed', e₁'⟩, hr, hr', rfl, h₁⟩ | ⟨_, _, hr, hr', herr⟩ <;> rw [hr, hr']
  · exact ((h₁.emit _).fireDepthAfterRemove freed' o.side o.price req.timestamp).emit _
  · exact herr

theorem modifyChecks (req : ModifyRequest) :
    e'.modifyChecks (X.hush b) req = e.modifyChecks X req := by
  obtain ⟨slots, -, -, rfl⟩ := h
  rfl

theorem modifyOrder (hX : X.Ignores b) (fuel : Nat)
    (req : ModifyRequest) : Outcome.Shadows b past (Shadow b past) (e.modifyOrder X fuel req)
      (e'.modifyOrder (X.hush b) fuel req) := by
  unfold Engine.modifyOrder
  simp only [h.currentState, h.unknown]
  split
  · exact h.emit _
  · split
    · exact h.emit _
    · rcases (h.indexed req.orderId).cases with ⟨o, o', hr, hr', rfl⟩ | ⟨_, _, hr, hr', herr⟩ <;>
        rw [hr, hr']
      · obtain ⟨hpass, hrate⟩ := h.rateCheck (X := X) o.accountId req.timestamp
        simp only [Order.blank_accountId, hpass, id_eq, hrate.modifyChecks]
        split
        · exact hrate.emit _
        · split
          · exact hrate.emit _
          · have hamends : (e'.rateCheck (X.hush b) o.accountId req.timestamp).2.amends (X.hush b)
                (o.blank b) req = (e.rateCheck X o.accountId req.timestamp).2.amends X o req := by
              unfold amends
              rw [hrate.derived]
              rfl
            rw [hamends]
            split
            · exact hrate.map (fun _ => amendOrder_blank _ o req) (by simp)
            · unfold replaceOrder
              rcases (hrate.pullOrder o req).cases with
                ⟨e₁, e₁', hr, hr', h₁⟩ | ⟨_, _, hr, hr', herr⟩ <;> rw [hr, hr']
              · exact h₁.matchAndTrigger hX fuel (o.replaced req) req.timestamp
              · exact herr
      · exact herr

theorem cancelWhere {select : Order → Bool}
    (hselect : ∀ o : Order, select (o.blank b) = select o) (ts : Int) (r : CancelReason)
    (ids : List Nat) (count : Nat) : Outcome.Shadows b past (Beside b past id)
      (e.cancelWhere select ts r ids count) (e'.cancelWhere select ts r ids count) := by
  induction ids generalizing e e' count with
  | nil => exact ⟨rfl, h⟩
  | cons i ids ih =>
    have hindex : e'.orderIndex = e.orderIndex := by
      obtain ⟨slots, -, -, rfl⟩ := h
      rfl
    unfold cancelWhere
    rw [hindex]
    split
    · exact ih h count
    · rcases (h.indexed i).cases with ⟨o, o', hr, hr', rfl⟩ | ⟨_, _, hr, hr', herr⟩ <;> rw [hr, hr']
      · simp only [hselect]
        split
        · rcases (h.cancelActiveOrder o ts r).cases with
            ⟨e₁, e₁', hr, hr', h₁⟩ | ⟨_, _, hr, hr', herr⟩ <;> rw [hr, hr']
          · exact ih h₁ (count + 1)
          · exact herr
        · exact ih h count
      · exact herr

theorem restoreChecks (s : SerializedOrder) (ts : Int) :
    e'.restoreChecks (X.hush b) s ts = e.restoreChecks X s ts := by
  obtain ⟨slots, -, -, rfl⟩ := h
  rfl

theorem restoreOrder (hb : b = true) (s : SerializedOrder) (ts : Int) :
    (e.restoreOrder X s ts).Shadow b past (e'.restoreOrder (X.hush b) s ts) := by
  unfold Engine.restoreOrder
  rw [h.restoreChecks]
  cases firstFailure (e.restoreChecks X s ts) with
  | some r => exact h.emit _
  | none =>
    rcases h.allocate with ⟨hnone, hnone'⟩ | ⟨slot, pool, slot', pool', hs, hs', hclean, hpool⟩
    · rw [hnone, hnone']
      exact h.emit _
    · rw [hs, hs']
      have horder : deserializeOrder s slot' = (deserializeOrder s slot).blank b := by
        simp [deserializeOrder, Order.blank, hclean.1, hclean.2 hb, hb]
      simp only [horder]
      exact ((acceptOrder hpool (deserializeOrder s slot) ts).insertIntoBook _ ts).fireTopOfBook ts

theorem unfill (id : Nat) (q : Int) :
    Outcome.Shadows b past (Shadow b past) (e.unfill X id q)
      (e'.unfill (X.hush b) id q) := by
  have hindex : e'.orderIndex = e.orderIndex := by
    obtain ⟨slots, -, -, rfl⟩ := h
    rfl
  unfold Engine.unfill
  rw [hindex, Exchange.hush_maxOrderIds]
  split
  · exact h
  · rcases (h.indexed id).cases with ⟨o, o', hr, hr', rfl⟩ | ⟨_, _, hr, hr', herr⟩ <;> rw [hr, hr']
    · exact h.map (fun _ => adjustOrder_blank e o _ q fun _ => rfl) rfl
    · exact herr

theorem markBusted (id : Nat) :
    ({ e with tradeRegistry := e.tradeRegistry.markBusted id } : Engine D).Shadow b past
      { e' with tradeRegistry := e'.tradeRegistry.markBusted id } :=
  h.map (f := fun e => { e with tradeRegistry := e.tradeRegistry.markBusted id })
    (fun _ => rfl) rfl

theorem reportBust (id : Nat) (record : TradeRecord)
    (reason : BustReason) (ts : Int) : (e.reportBust X id record reason ts).Shadow b past
      (e'.reportBust (X.hush b) id record reason ts) := by
  refine h.map (fun slots => ?_) rfl
  simp [Engine.reportBust, Engine.blank, Engine.emit]

theorem bustTrade (id : Nat) (reason : BustReason) (ts : Int) :
    Outcome.Shadows b past (Shadow b past) (e.bustTrade X id reason ts)
      (e'.bustTrade (X.hush b) id reason ts) := by
  have hregistry : e'.tradeRegistry = e.tradeRegistry := by
    obtain ⟨slots, -, -, rfl⟩ := h
    rfl
  unfold Engine.bustTrade
  by_cases hclosed : e.currentState = .closed
  · rw [if_pos hclosed, if_pos (h.currentState.trans hclosed)]
    exact h
  · rw [if_neg hclosed, if_neg (h.currentState ▸ hclosed)]
    cases hl : e.tradeRegistry.lookup id with
    | none =>
      rw [hregistry, hl]
      exact h
    | some record =>
      have hl' : e'.tradeRegistry.lookup id = some record := by rw [hregistry, hl]
      rw [hl']
      simp only [Exchange.hush_onValidateBust]
      by_cases hdone : (record.busted || !X.onValidateBust e.derived id record ts) = true
      · rw [if_pos hdone, if_pos (h.derived ▸ hdone)]
        exact h
      · rw [if_neg hdone, if_neg (h.derived ▸ hdone)]
        rcases ((h.markBusted id).unfill record.aggressorId record.quantity).cases with
          ⟨e₁, e₁', hr, hr', h₁⟩ | ⟨_, _, hr, hr', herr⟩ <;> rw [hr, hr']
        · rcases (h₁.unfill (X := X) record.restingId record.quantity).cases with
            ⟨e₂, e₂', hr, hr', h₂⟩ | ⟨err, err', hr, hr', herr⟩
          · simp only [hr, hr']
            exact h₂.reportBust id record reason ts
          · simp only [hr, hr']
            exact herr
        · exact herr

theorem impliedFillValid (fill : LegFill) :
    e'.impliedFillValid (X.hush b) fill = e.impliedFillValid X fill := by
  unfold Engine.impliedFillValid
  rw [h.unknown]
  rcases (h.indexed fill.orderId).cases with ⟨o, o', hr, hr', rfl⟩ | ⟨err, err', hr, hr', -⟩
  · rw [hr, hr']
    rfl
  · rw [hr, hr']

theorem fireDepthHolding (o : Order) (ts : Int) :
    (e.fireDepthHolding o ts).Shadow b past (e'.fireDepthHolding (o.blank b) ts) := by
  obtain ⟨slots, hlen, hclean, rfl⟩ := h
  unfold fireDepthHolding
  rw [levelHolding_blank]
  cases e.levelHolding o with
  | none => exact ⟨slots, hlen, hclean, rfl⟩
  | some l => exact ⟨slots, hlen, hclean, fireDepth_blank e ts o.side l _⟩

theorem impliedTrade (ts : Int) (fill : LegFill) (o : Order) :
    (e.impliedTrade X ts fill o).Shadow b past (e'.impliedTrade (X.hush b) ts fill (o.blank b)) := by
  refine h.map (fun slots => ?_) rfl
  unfold Engine.impliedTrade
  rw [adjustOrder_blank e o _ _ fun x => by rfl]
  simp [Engine.blank, Engine.emit]

theorem impliedReveal (ts : Int) (o : Order) :
    (e.impliedReveal ts o).Shadow b past (e'.impliedReveal ts (o.blank b)) := by
  obtain ⟨slots, hlen, hclean, rfl⟩ := h
  let next := min o.displayQty (o.totalQty - o.filledQuantity)
  have hshown : ((e.blank b past slots).setBook o.side (onLevelOf o.id (·.requeue (o.blank b) next)
      ((e.blank b past slots).book o.side))).setStopBook o.side (onLevelOf o.id
        (·.requeue (o.blank b) next) ((e.blank b past slots).stopBook o.side)) =
      ((e.setBook o.side (onLevelOf o.id (·.requeue o next) (e.book o.side))).setStopBook o.side
        (onLevelOf o.id (·.requeue o next) (e.stopBook o.side))).blank b past slots := by
    simp only [blank_book, blank_stopBook]
    rw [onLevelOf_blank (e.book o.side) _ fun l => requeue_blank l o next,
      onLevelOf_blank (e.stopBook o.side) _ fun l => requeue_blank l o next, setBook_blank,
      setStopBook_blank]
  have hrevealed : ((e.setBook o.side (onLevelOf o.id (·.requeue o next) (e.book o.side))).setStopBook
      o.side (onLevelOf o.id (·.requeue o next) (e.stopBook o.side))).Shadow b past _ :=
    ⟨slots, hlen, hclean, hshown⟩
  exact (hrevealed.emit _).fireDepthHolding o ts

theorem applyImpliedFill (ts : Int) (fill : LegFill) :
    Outcome.Shadows b past (Shadow b past) (e.applyImpliedFill X ts fill)
      (e'.applyImpliedFill (X.hush b) ts fill) := by
  unfold Engine.applyImpliedFill
  rcases (h.indexed fill.orderId).cases with ⟨o, o', hr, hr', rfl⟩ | ⟨_, _, hr, hr', herr⟩ <;>
    rw [hr, hr']
  · have htraded := h.impliedTrade (X := X) ts fill (o.fill fill.fillQty)
    simp only [fill_blank, Order.blank_remainingQuantity, hasNextTranche_blank, Order.blank_side]
    split_ifs
    · exact htraded.impliedReveal ts _
    · rcases (htraded.bookRemoveOrder (o.fill fill.fillQty)).cases with
        ⟨⟨freed, e₁⟩, ⟨freed', e₁'⟩, hr, hr', h₁⟩ | ⟨_, _, hr, hr', herr⟩ <;> rw [hr, hr']
      · obtain ⟨rfl, h₁⟩ := h₁
        exact (h₁.fireDepthAfterRemove _ _ _ _).release _
      · exact herr
    · exact htraded.fireDepthHolding _ ts
  · exact herr

omit h in
theorem applyImpliedLegs (ts : Int) : ∀ (fills : List LegFill) {e e' : Engine D},
    e.Shadow b past e' → Outcome.Shadows b past (Shadow b past)
      (e.applyImpliedLegs X ts fills) (e'.applyImpliedLegs (X.hush b) ts fills)
  | [], _, _, h => h
  | fill :: fills, _, _, h => by
    unfold Engine.applyImpliedLegs
    rcases (h.applyImpliedFill (X := X) ts fill).cases with
      ⟨e₁, e₁', hr, hr', h₁⟩ | ⟨_, _, hr, hr', herr⟩ <;> rw [hr, hr']
    · exact applyImpliedLegs ts fills h₁
    · exact herr

theorem applyImpliedFills (fills : List LegFill) (ts : Int) :
    Outcome.Shadows b past (Beside b past id) (e.applyImpliedFills X fills ts)
      (e'.applyImpliedFills (X.hush b) fills ts) := by
  unfold Engine.applyImpliedFills
  rw [show e'.impliedFillValid (X.hush b) = e.impliedFillValid X from
    funext fun fill => h.impliedFillValid fill]
  split_ifs
  · rcases (applyImpliedLegs ts fills h).cases with
      ⟨e₁, e₁', hr, hr', h₁⟩ | ⟨_, _, hr, hr', herr⟩ <;> rw [hr, hr']
    · exact ⟨rfl, h₁.fireTopOfBook ts⟩
    · exact herr
  · exact ⟨rfl, h⟩

theorem record (a : Action) :
    (e.record a).Shadow b past (e'.record a) :=
  h.map (fun _ => by simp [Engine.record, Engine.blank]) rfl

omit h in
theorem snd {r r' : Outcome D (α × Engine D)}
    (h : Outcome.Shadows b past (Beside b past id) r r') :
    Outcome.Shadows b past (Shadow b past) (r.map (·.2)) (r'.map (·.2)) := by
  rcases h.cases with ⟨p, p', rfl, rfl, hp⟩ | ⟨err, err', rfl, rfl, herr⟩
  · exact hp.2
  · exact herr

theorem sweep {select : Order → Bool}
    (hselect : ∀ o : Order, select (o.blank b) = select o) (ts : Int) (r : CancelReason) :
    Outcome.Shadows b past (Shadow b past)
      ((e.cancelWhere select ts r e.assignedIds 0).map (·.2))
      ((e'.cancelWhere select ts r e'.assignedIds 0).map (·.2)) := by
  have hids : e'.assignedIds = e.assignedIds := by
    obtain ⟨slots, -, -, rfl⟩ := h
    rfl
  rw [hids]
  exact snd (h.cancelWhere hselect ts r e.assignedIds 0)

theorem dispatch (hX : X.Ignores b) (fuel : Nat) {a : Action}
    (ha : b = true ∨ ∀ s ts, a ≠ .restoreOrder s ts) :
    Outcome.Shadows b past (Shadow b past) (e.dispatch X fuel a)
      (e'.dispatch (X.hush b) fuel a) := by
  cases a with
  | newOrder req => exact h.newOrder hX fuel req
  | cancelOrder id ts => exact h.cancelOrder id ts
  | modifyOrder req => exact h.modifyOrder hX fuel req
  | triggerExpiry now tif => exact h.sweep (fun _ => rfl) now .expired
  | massCancel account ts => exact h.sweep (fun _ => rfl) ts .massCancelled
  | massCancelAll ts => exact h.sweep (fun _ => rfl) ts .massCancelled
  | restoreOrder s ts =>
    exact h.restoreOrder (ha.resolve_right fun hne => hne s ts rfl) s ts
  | bustTrade id reason ts => exact h.bustTrade id reason ts
  | setSessionState s ts =>
    exact h.map (fun _ => setSessionState_blank ..)
      (orderPool_session (setSessionState_steps X ts _ s))
  | unlockLimit ts =>
    exact h.map (fun _ => unlockLimit_blank ..) (orderPool_session (unlockLimit_steps X ts _))
  | executeAuction p ts => exact h.executeAuction fuel p ts
  | publishIndicativePrice p ts =>
    exact h.map (fun _ => publishIndicativePrice_blank ..) (orderPool_publishIndicativePrice ..)
  | applyImpliedFills fills ts => exact snd (h.applyImpliedFills fills ts)

theorem perform (hX : X.Ignores b) (fuel : Nat) {a : Action}
    (ha : b = true ∨ ∀ s ts, a ≠ .restoreOrder s ts) :
    Outcome.Shadows b past (Shadow b past) (e.perform X fuel a)
      (e'.perform (X.hush b) fuel a) :=
  (h.record a).dispatch hX fuel ha

omit h in
theorem performAll (hX : X.Ignores b) (fuel : Nat) : ∀ {actions : List Action} {e e' : Engine D},
    e.Shadow b past e' → (b = true ∨ ∀ s ts, .restoreOrder s ts ∉ actions) →
    Outcome.Shadows b past (Shadow b past) (e.performAll X fuel actions)
      (e'.performAll (X.hush b) fuel actions)
  | [], _, _, h, _ => h
  | a :: rest, e, e', h, ha => by
    have hfirst := h.perform hX fuel (a := a) (ha.imp_right fun hne s ts he => hne s ts (by simp [he]))
    unfold Engine.performAll
    rcases hfirst.cases with ⟨e₁, e₁', hr, hr', h₁⟩ | ⟨_, _, hr, hr', herr⟩ <;> rw [hr, hr']
    · exact performAll hX fuel h₁ (ha.imp_right fun hne s ts hm => hne s ts (by simp [hm]))
    · exact herr

end Engine.Shadow

end ExchangeSim
