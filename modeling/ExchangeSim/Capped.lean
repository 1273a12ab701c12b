import ExchangeSim.EntryRules
import ExchangeSim.Modified
import ExchangeSim.PolicyCalls
import ExchangeSim.Reversal

/-!
How large an order can become. What is filled of an order and what remains of it make no more than
the largest quantity that was asked for, and a bust gives back no more than is filled: the trades
that stand come to no more than that.
-/

namespace ExchangeSim

open Engine Function Option Move TradeRegistry

variable {D : Type} {X : Exchange D} {W : World D} {M : Int} {V : World D} {o order : Order}
  {req : OrderRequest} {price q ts : Int} {m : Move D} {slot : SlotResidue}
  {pool : ObjectPool SlotResidue} {e : Engine D}

namespace TradeRegistry

variable {g : TradeRegistry} {f : TradeRecord → Int}

theorem live_record_le {m a r : Nat} {s : Side} {aa ra : Nat} (hpos : 0 < g.nextTradeId)
    (hf : 0 ≤ f ⟨g.nextTradeId, a, r, price, q, ts, s, aa, ra, false⟩) :
    (g.record m a r price q ts s aa ra).live f ≤
      g.live f + f ⟨g.nextTradeId, a, r, price, q, ts, s, aa, ra, false⟩ := by
  by_cases hroom : g.nextTradeId < m
  · exact (live_record hpos hroom).le
  · have hfull : g.record m a r price q ts s aa ra = g := if_pos (by omega)
    rw [hfull]
    omega

theorem live_nonneg (hf : ∀ n t, g.trades n = some t → 0 ≤ f t) : 0 ≤ g.live f := by
  refine Finset.sum_nonneg fun n _ => ?_
  unfold liveAt
  split
  next t ht =>
    split
    · exact le_rfl
    · exact hf n t ht
  next => exact le_rfl

theorem live_stake_eq_zero {id : Nat}
    (h : ∀ n t, g.trades n = some t → t.aggressorId ≠ id ∧ t.restingId ≠ id) :
    g.live (·.stake id) = 0 := by
  refine Finset.sum_eq_zero fun n _ => ?_
  unfold liveAt
  split
  next t ht =>
    obtain ⟨ha, hr⟩ := h n t ht
    simp [TradeRecord.stake, ha, hr]
  next => rfl

end TradeRegistry

theorem TradeRecord.stake_nonneg {t : TradeRecord} (h : 0 ≤ t.quantity) (id : Nat) :
    0 ≤ t.stake id := by
  unfold stake
  split <;> split <;> omega

structure Order.Capped (X : Exchange D) (M n : Int) (o : Order) : Prop where
  known : o.id < X.maxOrderIds
  covered : n ≤ o.filledQuantity
  whole : o.filledQuantity + o.remainingQuantity ≤ M
  total : o.totalQty ≤ M

namespace Order.Capped

variable {n q : Int} {o x : Order}

theorem fill (h : o.Capped X M n) (q : Int) : (o.fill q).Capped X M (n + q) where
  known := h.known
  covered := add_le_add_left h.covered q
  whole := by
    have := h.whole
    change o.filledQuantity + q + (o.remainingQuantity - q) ≤ M
    omega
  total := h.total

theorem settled (h : o.Capped X M n) (hx : o.settled q = some x) : x.Capped X M (n + q) := by
  have hfill := h.fill q
  unfold Order.settled at hx
  split at hx
  · split at hx
    · obtain rfl := some.inj hx
      refine ⟨hfill.known, hfill.covered, ?_, hfill.total⟩
      have htotal := hfill.total
      simp only [Order.nextTranche]
      omega
    · simp at hx
  · exact some.inj hx ▸ hfill

theorem mono (h : o.Capped X M n) {n' : Int} (hle : n' ≤ n) : o.Capped X M n' :=
  { h with covered := hle.trans h.covered }

end Order.Capped

/-- Every order of a world is capped, with the trades in which it has a part as what is filled at
least. -/
structure World.Capped (X : Exchange D) (M : Int) (W : World D) : Prop where
  numbered : 0 < W.engine.tradeRegistry.nextTradeId
  named : ∀ n t, W.engine.tradeRegistry.trades n = some t →
    t.aggressorId < W.engine.nextOrderId ∧ t.restingId < W.engine.nextOrderId
  orders : ∀ id, ∀ o ∈ W.view id, o.Capped X M (W.engine.tradeRegistry.live (·.stake id))

namespace World.Capped

section

variable (h : W.Capped X M)

include h

theorem keep (htrades : V.engine.tradeRegistry = W.engine.tradeRegistry)
    (hnext : V.engine.nextOrderId = W.engine.nextOrderId)
    (hview : ∀ id, ∀ o ∈ V.view id, o.Capped X M (W.engine.tradeRegistry.live (·.stake id))) :
    V.Capped X M := by
  refine ⟨htrades ▸ h.numbered, ?_, ?_⟩
  · rw [htrades, hnext]
    exact h.named
  · rw [htrades]
    exact hview

theorem keep_standing (hst : V.engine.standing = W.engine.standing)
    (hview : V.view = W.view) : V.Capped X M := by
  refine h.keep (congrArg Standing.trades hst) (congrArg Standing.nextOrderId hst) ?_
  rw [hview]
  exact h.orders

theorem keep_update (hst : V.engine.standing = W.engine.standing)
    {o' : Option Order} (ho : W.view o.id = some o)
    (hview : V.view = update W.view o.id o')
    (hkeep : ∀ n, o.Capped X M n → ∀ x ∈ o', x.Capped X M n) : V.Capped X M := by
  refine h.keep (congrArg Standing.trades hst) (congrArg Standing.nextOrderId hst) fun id x hx => ?_
  rw [hview] at hx
  by_cases he : id = o.id
  · subst he
    rw [Function.update_self] at hx
    exact hkeep _ (h.orders _ o ho) x hx
  · rw [Function.update_of_ne he] at hx
    exact h.orders id x hx

theorem trade (hs : W.Sound X True) {a r : Order}
    (hst : V.engine.standing = W.engine.standing.trade X a r price q ts) (ha : W.view a.id = some a)
    (hr : W.view r.id = some r) (hne : a.id ≠ r.id) (hq : 0 ≤ q) {a' r' : Option Order}
    (hview : V.view = Function.update (Function.update W.view r.id r') a.id a')
    (ha' : ∀ n, a.Capped X M n → ∀ x ∈ a', x.Capped X M (n + q))
    (hr' : ∀ n, r.Capped X M n → ∀ x ∈ r', x.Capped X M (n + q)) : V.Capped X M := by
  let t : TradeRecord := ⟨W.engine.tradeRegistry.nextTradeId, a.id, r.id, price, q, ts, a.side,
    a.accountId, r.accountId, false⟩
  have htrades : V.engine.tradeRegistry = W.engine.tradeRegistry.record X.maxOrderIds a.id r.id
      price q ts a.side a.accountId r.accountId := congrArg Standing.trades hst
  have hnext : V.engine.nextOrderId = W.engine.nextOrderId := congrArg Standing.nextOrderId hst
  have hlive : ∀ id, V.engine.tradeRegistry.live (·.stake id) ≤
      W.engine.tradeRegistry.live (·.stake id) + t.stake id := fun id => by
    rw [htrades]
    exact TradeRegistry.live_record_le h.numbered (t.stake_nonneg hq id)
  refine ⟨?_, fun n t' ht' => ?_, fun id x hx => ?_⟩
  · rw [htrades]
    have := h.numbered
    unfold TradeRegistry.record
    split
    · exact this
    · exact Nat.succ_pos _
  · rw [hnext]
    rw [htrades] at ht'
    unfold TradeRegistry.record at ht'
    split at ht'
    · exact h.named n t' ht'
    · dsimp only at ht'
      by_cases hn : n = W.engine.tradeRegistry.nextTradeId
      · subst hn
        rw [Function.update_self] at ht'
        obtain rfl := Option.some.inj ht'
        exact ⟨hs.view_lt ha, hs.view_lt hr⟩
      · rw [Function.update_of_ne hn] at ht'
        exact h.named n t' ht'
  · have hle := hlive id
    rw [hview] at hx
    by_cases hida : id = a.id
    · subst hida
      rw [Function.update_self] at hx
      refine (ha' _ (h.orders _ a ha) x hx).mono (hle.trans_eq ?_)
      simp [t, TradeRecord.stake, hne.symm]
    · rw [Function.update_of_ne hida] at hx
      by_cases hidr : id = r.id
      · subst hidr
        rw [Function.update_self] at hx
        refine (hr' _ (h.orders _ r hr) x hx).mono (hle.trans_eq ?_)
        simp [t, TradeRecord.stake, hne]
      · rw [Function.update_of_ne hidr] at hx
        refine (h.orders id x hx).mono (hle.trans_eq ?_)
        simp [t, TradeRecord.stake, Ne.symm hida, Ne.symm hidr]

theorem enter (hs : W.Sound X True) (hfl : W.flight = some o)
    (hst : V.engine.standing = W.engine.standing)
    (hview : V.view = if W.engine.levelPool.allocate.isNone then update W.view o.id none
      else W.view) : V.Capped X M := by
  split at hview
  · exact h.keep_update hst (hs.view_flight hfl) hview (by simp)
  · exact h.keep_standing hst hview

theorem run (hs : W.Sound X True) (hg : m.guard X W) (hx : m.exact)
    (hl : m.lasting = true) (hm : m.spends = true) : (m.run X W).Capped X M := by
  have hview := hs.view_run hg
  have hst := fun h => m.run_standing (X := X) h W
  cases m with
  | note | session | reference | hook => exact h.keep rfl rfl h.orders
  | adjust order remaining =>
    refine h.keep_update rfl (hs.view_flight hg) hview fun n hn x hxo => ?_
    obtain rfl := some.inj hxo
    have hsame : remaining = order.remainingQuantity := hx
    exact { hn with whole := hsame ▸ hn.whole }
  | fill ts order resting f left reported =>
    obtain ⟨hfl, hmeet⟩ := hg
    obtain ⟨hq, -, -, hleft⟩ := hx
    obtain ⟨hrest, hside, -, -⟩ := hs.rests_of_meets hmeet
    have ha := hs.view_flight hfl
    have hr := hs.view_rests hrest
    refine h.trade hs (standing_bookFill ts order resting f reported W.engine) ha hr
      (World.id_ne ha hr (by rw [hside]; exact order.side.opposite_ne.symm)) hq.le hview
      (fun n hn x hxo => ?_) fun n hn x hxo => hn.settled hxo
    obtain rfl := some.inj hxo
    exact hleft ▸ hn.fill f.quantity
  | cancelResting ts order resting f notify =>
    exact h.keep_update (hst rfl) (hs.view_rests hg.2.1) hview (by simp)
  | drop order ts reason =>
    exact h.keep_update (hst rfl) (hs.view_flight hg) hview (by simp)
  | finish order => exact h.keep_update rfl (hs.view_flight hg.1) hview (by simp)
  | rest | park => exact h.enter hs hg.1 (hst rfl) hview
  | trigger stop =>
    obtain ⟨hfl, -, hnext⟩ := hg
    have hwait := nextTriggeredStop_waits (hs.holds_none hfl) hnext
    refine h.keep_update (hst rfl) (hs.view_waits hwait) hview fun n hn x hxo => ?_
    obtain rfl := some.inj hxo
    unfold Order.triggered
    split <;> exact ⟨hn.known, hn.covered, hn.whole, hn.total⟩
  | cancel order ts reason =>
    exact h.keep_update (hst rfl) (hs.view_rests hg.2) hview (by simp)
  | cancelStop order ts reason =>
    exact h.keep_update (hst rfl) (hs.view_waits hg.2) hview (by simp)
  | cross price ts bid ask q =>
    obtain ⟨-, hbid, hbuy, -, hask, hsell, -⟩ := hg
    have hb := hs.view_rests hbid
    have ha := hs.view_rests hask
    have hne : bid.id ≠ ask.id := World.id_ne hb ha (by simp [hbuy, hsell])
    simp only [write] at hview
    rw [update_comm hne] at hview
    exact h.trade hs (standing_bookCross price ts q W.engine hbuy hsell) hb ha hne hx.1.le hview
      (fun n hn x hxo => hn.settled hxo) fun n hn x hxo => hn.settled hxo
  | topOfBook ts => exact h.keep_standing (hst rfl) rfl
  | markBusted tradeId => simp [lasting] at hl
  | _ => simp [spends] at hm

theorem accept (hs : W.Sound X True)
    (hg : guard X (.accept req slot pool) W) (hq : req.quantity ≤ M) :
    (Move.run X (.accept req slot pool) W).Capped X M := by
  have hview := hs.view_run hg
  obtain ⟨-, -, hchecks, -⟩ := hg
  have hnext : (Move.run X (.accept req slot pool) W).engine.nextOrderId =
      W.engine.nextOrderId + 1 := by
    change max W.engine.nextOrderId (W.engine.nextOrderId + 1) = _
    omega
  refine ⟨h.numbered, fun n t ht => ?_, fun id x hx => ?_⟩
  · obtain ⟨ha, hr⟩ := h.named n t ht
    omega
  · rw [hview] at hx
    by_cases hid : id = W.engine.nextOrderId
    · subst hid
      simp only [write, Function.update_self] at hx
      obtain rfl := some.inj hx
      have hfresh : W.engine.tradeRegistry.live (·.stake W.engine.nextOrderId) = 0 :=
        live_stake_eq_zero fun n t ht =>
          ⟨(h.named n t ht).1.ne, (h.named n t ht).2.ne⟩
      refine ⟨next_lt_of_checks hchecks, hfresh.le, ?_, hq⟩
      have hshown := displayQty_le_of_checks hchecks
      change 0 + (if req.displayQty > 0 then req.displayQty else req.quantity) ≤ M
      split <;> omega
    · simp only [write, Function.update_of_ne hid] at hx
      exact h.orders id x hx

theorem replace (hst : V.engine.standing = W.engine.standing) {order' : Order}
    {req : ModifyRequest} (ho : W.view order.id = some order)
    (hview : V.view = update W.view order.id (some order')) (hid : order'.id = order.id)
    (hfilled : order'.filledQuantity = order.filledQuantity)
    (hrem : order'.remainingQuantity = req.newQuantity - order.filledQuantity)
    (htotal : order'.totalQty = order.totalQty) (hq : req.newQuantity ≤ M) : V.Capped X M := by
  refine h.keep_update hst ho hview fun n hn x hx => ?_
  obtain rfl := some.inj hx
  exact ⟨hid ▸ hn.known, hfilled ▸ hn.covered, by omega, htotal ▸ hn.total⟩

omit h in
theorem known (h : World.Capped X M ⟨e, none⟩) (hs : World.Sound X True ⟨e, none⟩) :
    ∀ o ∈ e.linked, o.id < X.maxOrderIds := fun o ho =>
  (h.orders o.id o ((mem_linked_iff_view hs).mp ho)).known

theorem remaining_le (hs : W.Sound X True) {id : Nat} (ho : W.view id = some o) :
    o.remainingQuantity ≤ M := by
  have hcap := h.orders id o ho
  have hlive : 0 ≤ W.engine.tradeRegistry.live (·.stake id) :=
    live_nonneg fun n t ht =>
      t.stake_nonneg (hs.holds.trades trivial n t ht).le id
  have := hcap.covered
  have := hcap.whole
  omega

end

theorem keeps {P : Move D → Bool} (hP : ∀ m : Move D, P m = true → m.lasting = true ∧ m.spends = true)
    {r : Outcome D (Engine D)} (hrun : OpOutcome X True False P W r) (hs : W.Sound X True)
    (h : W.Capped X M) : Outcome.Keeps (fun V => V.Sound X True ∧ V.Capped X M) r :=
  hrun.keeps hs h fun m _ hV hI hg hl hm =>
    hI.run hV hg (hl.exact trivial) (hP m hm).1 (hP m hm).2

theorem bust (h : World.Capped X M ⟨e, none⟩) (hs : World.Sound X True ⟨e, none⟩) (id : Nat)
    (reason : BustReason) (ts : Int) :
    Outcome.Keeps (fun V => V.Sound X True ∧ V.Capped X M) (e.bustTrade X id reason ts) := by
  by_cases hopen : e.currentState = .closed
  · rw [Engine.bustTrade, if_pos hopen]
    exact ⟨hs, h⟩
  cases hlook : e.tradeRegistry.lookup id with
  | none =>
    simp only [Engine.bustTrade, if_neg hopen, hlook]
    exact ⟨hs, h⟩
  | some t =>
    by_cases hturned : (t.busted || !X.onValidateBust e.derived id t ts) = true
    · simp only [Engine.bustTrade, if_neg hopen, hlook, hturned, if_true]
      exact ⟨hs, h⟩
    · simp only [Bool.or_eq_true, Bool.not_eq_true', not_or, Bool.not_eq_true,
        Bool.not_eq_false] at hturned
      obtain ⟨e', heq, hs', hlinked, hst, -, -⟩ := bustTrade_struck hs (h.known hs) hopen hlook
        hturned.1 hturned.2 reason
      have htrades : (e'.reportBust X id t reason ts).tradeRegistry =
          e.tradeRegistry.markBusted id := congrArg Standing.trades hst
      have hnext : (e'.reportBust X id t reason ts).nextOrderId = e.nextOrderId :=
        congrArg Standing.nextOrderId hst
      rw [heq]
      refine ⟨hs', htrades ▸ h.numbered, fun n t' ht' => ?_, fun i x hx => ?_⟩
      · rw [htrades] at ht'
        rw [hnext]
        by_cases hn : n = id
        · subst hn
          simp only [TradeRegistry.markBusted, Function.update_self, Option.map_eq_some_iff] at ht'
          obtain ⟨t₀, ht₀, rfl⟩ := ht'
          exact h.named n t₀ ht₀
        · simp only [TradeRegistry.markBusted, Function.update_of_ne hn] at ht'
          exact h.named n t' ht'
      · obtain ⟨-, rfl⟩ := (byId_eq_some hs'.nodup).mp hx
        have hmem : x ∈ e'.linked := (mem_linked_iff_view hs').mpr hx
        rw [hlinked] at hmem
        obtain ⟨o, ho, rfl⟩ := List.mem_map.mp hmem
        have hcap := h.orders o.id o ((mem_linked_iff_view hs).mp ho)
        rw [htrades, Order.fill_id, TradeRegistry.live_markBusted hlook hturned.1]
        exact hcap.fill (-t.stake o.id)

end World.Capped

theorem Move.lasting_of_routed (h : m.routed = true) : m.lasting = true := by
  cases m <;> first | rfl | simp [routed, landing, matching] at h

section operations

variable {e e' : Engine D}

theorem capped_rated (hs : World.Sound X True ⟨e, none⟩) (h : World.Capped X M ⟨e, none⟩)
    (t : RateTracker) : World.Sound X True ⟨{ e with rateTracker := t }, none⟩ ∧
      World.Capped X M ⟨{ e with rateTracker := t }, none⟩ := by
  have hg : Move.guard X (.note t []) ⟨e, none⟩ := by simp [Move.guard]
  have hsound := hs.run hg fun _ => trivial
  have hcapped := h.run hs hg trivial rfl rfl
  simp only [run, List.append_nil] at hsound hcapped
  exact ⟨hsound, hcapped⟩

theorem capped_accept (hs : World.Sound X True ⟨e, none⟩) (h : World.Capped X M ⟨e, none⟩)
    (haction : currentAction e.journal = some (.newOrder req)) (hok : e.sized M (.newOrder req))
    (t : RateTracker) (hpool : e.orderPool.allocate = some (slot, pool))
    (hchecks : firstFailure (e.newOrderChecks X req) = none) :
    let order := e.buildOrder X req slot
    let V : World D := ⟨({ e with rateTracker := t } : Engine D).acceptOrder order pool req.timestamp,
      some order⟩
    V.Sound X True ∧ V.Capped X M := by
  obtain ⟨hs', h'⟩ := capped_rated hs h t
  have hg : guard X (.accept req slot pool) ⟨{ e with rateTracker := t }, none⟩ :=
    ⟨rfl, hpool, hchecks, haction⟩
  have hq : req.quantity ≤ M := by
    rcases hok with hq | ⟨hpos, hle⟩
    · exact hq
    · exact ((takesQuantity_of_checks hchecks).size hpos).trans hle
  exact ⟨hs'.run hg fun _ => trivial, h'.accept hs' hg hq⟩

theorem capped_pull (hs : World.Sound X True ⟨e, none⟩) (h : World.Capped X M ⟨e, none⟩)
    {req : ModifyRequest} (hok : e.sized M (.modifyOrder req)) (hmem : order ∈ e.linked)
    (hid : order.id = req.orderId) (t : RateTracker) :
    let e₁ : Engine D := { e with rateTracker := t }
    let V : World D := ⟨(e₁.removeOrder order).2.reportPull order req (e₁.removeOrder order).1,
      some (order.replaced req)⟩
    V.Sound X True ∧ V.Capped X M := by
  intro e₁ V
  obtain ⟨hs', h'⟩ := capped_rated hs h t
  obtain ⟨hrest, hfilled⟩ := hok.2 order hmem hid
  have hrest' : e₁.rests order := hrest
  have hg : guard X (.pull order req) ⟨e₁, none⟩ := ⟨rfl, hrest'⟩
  refine ⟨hs'.run hg fun _ => hfilled, h'.replace
    (Move.run_standing (X := X) (m := .pull order req) rfl ⟨_, none⟩) (hs'.view_rests hrest')
    (hs'.view_run hg) rfl rfl rfl rfl hok.1⟩

theorem newOrder_capped (fuel : Nat) (hs : World.Sound X True ⟨e, none⟩)
    (h : World.Capped X M ⟨e, none⟩) (haction : currentAction e.journal = some (.newOrder req))
    (hok : e.sized M (.newOrder req)) :
    Outcome.Keeps (fun V => V.Sound X True ∧ V.Capped X M) (e.newOrder X fuel req) := by
  rcases newOrder_cases fuel req e with
    ⟨t, reason, heq⟩ | ⟨t, slot, pool, hpool, hchecks, heq⟩
  · rw [heq]
    have hg : guard X
        (.note t [.event (.orderRejected req.clientOrderId req.timestamp reason)]) ⟨e, none⟩ := by
      simp [Move.guard, JournalEntry.quiet]
    exact ⟨hs.run hg fun _ => trivial, h.run hs hg trivial rfl rfl⟩
  · rw [heq]
    obtain ⟨hs', h'⟩ := capped_accept hs h haction hok t hpool hchecks
    refine h'.keeps
      (fun m hm => ⟨lasting_of_routed hm, spends_of_routed hm⟩)
      (routeOrder_run (fun _ => id) fuel hs' False.elim False.elim rfl (buildOrder_price_of_stop slot)
        (buildOrder_remaining_pos slot hchecks).ne') hs'

theorem modifyOrder_capped (fuel : Nat) {req : ModifyRequest} (hs : World.Sound X True ⟨e, none⟩)
    (h : World.Capped X M ⟨e, none⟩) (hok : e.sized M (.modifyOrder req)) :
    Outcome.Keeps (fun V => V.Sound X True ∧ V.Capped X M) (e.modifyOrder X fuel req) := by
  have hH : e.holdings.Sound X True [] := hs.holds_none rfl
  rcases modifyOrder_cases fuel req hH with
    ⟨t, reason, heq⟩ | ⟨t, order, hmem, hid, ⟨hamend, heq⟩ | ⟨-, heq⟩⟩
  · rw [heq]
    have hg : guard X (.note t [.event (.orderModifyRejected req.orderId req.clientOrderId
        req.timestamp reason)]) ⟨e, none⟩ := by
      simp [Move.guard, JournalEntry.quiet]
    exact ⟨hs.run hg fun _ => trivial, h.run hs hg trivial rfl rfl⟩
  · obtain ⟨hrest, -⟩ := hok.2 order hmem hid
    obtain ⟨hs', h'⟩ := capped_rated hs h t
    have hg := guard_amend hamend hrest t
    rw [heq]
    exact ⟨hs'.run hg fun _ => trivial, h'.replace
      (Move.run_standing (X := X) (m := .amend order req) rfl ⟨_, none⟩)
      (hs'.view_rests hrest) (hs'.view_run hg) rfl rfl rfl rfl hok.1⟩
  · obtain ⟨hrest, -⟩ := hok.2 order hmem hid
    have hrest' : ({ e with rateTracker := t } : Engine D).rests order := hrest
    have htype : order.type = .limit := type_of_rests hH hrest
    obtain ⟨hs', h'⟩ := capped_pull hs h hok hmem hid t
    rw [heq, replaceOrder_eq fuel hrest']
    exact h'.keeps
      (fun m hm => ⟨lasting_of_routed (routed_of_landing hm),
        spends_of_routed (routed_of_landing hm)⟩)
      (matchAndTrigger_run (fun _ => id) fuel req.timestamp hs' False.elim False.elim
        (.inl htype)) hs'

theorem perform_capped (fuel : Nat) {a : Action} (hs : World.Sound X True ⟨e, none⟩)
    (h : World.Capped X M ⟨e, none⟩) (hok : e.sized M a) :
    Outcome.Keeps (fun V => V.Sound X True ∧ V.Capped X M) (e.perform X fuel a) := by
  have hg : guard X (.note e.rateTracker [.action a]) ⟨e, none⟩ := by
    simp [Move.guard, JournalEntry.quiet]
  have hs' : World.Sound X True ⟨e.record a, none⟩ := hs.run hg fun _ => trivial
  have h' : World.Capped X M ⟨e.record a, none⟩ := h.run hs hg trivial rfl rfl
  have hplain : (∀ m : Move D, m.partOf a = true → m.lasting = true ∧ m.spends = true) →
      e.Admits True False a →
      Outcome.Keeps (fun V => V.Sound X True ∧ V.Capped X M) (e.perform X fuel a) := fun hm ha =>
    h.keeps hm (perform_run fuel hs False.elim False.elim ha) hs
  cases a with
  | newOrder req => exact newOrder_capped fuel hs' h' (currentAction_record _ e) hok
  | modifyOrder req => exact modifyOrder_capped fuel hs' h' hok
  | bustTrade id reason ts => exact h'.bust hs' id reason ts
  | restoreOrder | applyImpliedFills => exact hok.elim
  | _ =>
    refine hplain (fun m hm => ?_) (by simp [Admits])
    cases m <;> first | exact ⟨rfl, rfl⟩ | simp [partOf] at hm

theorem init_capped (X : Exchange D) (M : Int) (config : EngineConfig) (derived : D)
    (slots : Nat → SlotResidue) : World.Capped X M ⟨init X config derived slots, none⟩ where
  numbered := Nat.one_pos
  named n t ht := by simp [init] at ht
  orders id o ho := by
    simp [World.view, byId, Holdings.orders, holdings, shelf, init] at ho

theorem reach_capped {config : EngineConfig} {derived : D} {slots : Nat → SlotResidue}
    (h : Reach X (sized M) (init X config derived slots) e) :
    World.Sound X True ⟨e, none⟩ ∧ World.Capped X M ⟨e, none⟩ :=
  (reach_keeps
    ⟨init_sound X True config derived slots, init_capped X M config derived slots⟩
    (fun _ _ fuel hok hI => perform_capped fuel hI.1 hI.2 hok) h).1

end operations

end ExchangeSim
