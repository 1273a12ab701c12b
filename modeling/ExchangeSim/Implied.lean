import ExchangeSim.DriftRuns
import ExchangeSim.Reachable
import ExchangeSim.Triggers

namespace ExchangeSim

open Engine PriceLevel Holdings

variable {D : Type} {X : Exchange D} {e e' : Engine D} {o : Order} {ts : Int} {k : Shelf}
  {fill : LegFill} {w : Prop}

theorem shelf_of_linked {extra : List Nat} (hH : e.holdings.Sound X w extra) (ho : o ∈ e.linked) :
    ∃ k, o ∈ ordersIn (e.shelf k o.side) := by
  obtain ⟨k, s, hks⟩ := mem_linked.mp ho
  obtain rfl := hH.side_eq hks
  exact ⟨k, hks⟩

theorem triggers_of_shelf (lvls : List PriceLevel) {f : PriceLevel → PriceLevel} (id : Nat)
    (hf : ∀ l, (f l).price = l.price) :
    (onLevelOf id f lvls).map (·.price) = lvls.map (·.price) := by
  unfold onLevelOf
  rw [List.map_map]
  refine List.map_congr_left fun l _ => ?_
  simp only [Function.comp_apply]
  split
  · exact hf l
  · rfl

theorem triggers_setStopBook {s : Side} {lvls : List PriceLevel} (e : Engine D)
    (h : lvls.map (·.price) = (e.stopBook s).map (·.price)) :
    (e.setStopBook s lvls).triggers = e.triggers := by
  funext t
  by_cases hts : t = s
  · subst hts
    simpa [triggers, setStopBook] using h
  · simp [triggers, setStopBook, hts]

theorem triggers_adjustOrder (o : Order) (f : Order → Order) (delta : Int) (e : Engine D) :
    (e.adjustOrder o f delta).triggers = e.triggers :=
  triggers_setStopBook (e.setBook o.side _) (triggers_of_shelf _ o.id fun _ => rfl)

theorem holdings_fireDepthHolding (o : Order) (ts : Int) (e : Engine D) :
    (e.fireDepthHolding o ts).holdings = e.holdings := by
  unfold fireDepthHolding
  split <;> rfl

theorem stopView_fireDepthHolding (o : Order) (ts : Int) (e : Engine D) :
    (e.fireDepthHolding o ts).stopView = e.stopView := by
  unfold fireDepthHolding
  split <;> rfl

theorem holdings_impliedTrade (ts : Int) (fill : LegFill) (hH : e.holdings.Sound X w [])
    (ho : o ∈ ordersIn (e.shelf k o.side)) :
    (e.impliedTrade X ts fill (o.fill fill.fillQty)).holdings =
      (e.holdings.bookedIn k o fill.fillQty).setTrades
        (e.tradeRegistry.record X.maxOrderIds o.id o.id fill.fillPrice fill.fillQty ts o.side
          o.accountId o.accountId) := by
  have hfill : adjust o (·.fill fill.fillQty) (-fill.fillQty) =
      fillOrder o fill.fillQty := by
    funext l
    simp [adjust, fillOrder, sub_eq_add_neg]
  have hadj := holdings_adjustOrder e o (·.fill fill.fillQty) (-fill.fillQty)
  rw [hH.onBoth_eq ho, hfill] at hadj
  exact congrArg (setTrades _) hadj

theorem impliedTrade_sound (ts : Int) (fill : LegFill) (hH : e.holdings.Sound X False [])
    (ho : o ∈ ordersIn (e.shelf k o.side)) :
    (e.impliedTrade X ts fill (o.fill fill.fillQty)).holdings.Sound X False [] ∧
      o.fill fill.fillQty ∈
        ordersIn ((e.impliedTrade X ts fill (o.fill fill.fillQty)).shelf k o.side) := by
  have hadj := hH.adjustOrder ho (·.fill fill.fillQty) (-fill.fillQty) rfl
    (fun _ hfit => Shelf.fits_congr hfit rfl rfl rfl) (by simp [Order.fill]) False.elim
  obtain ⟨A, l, B, Xs, Ys, hsplit, hf⟩ := exists_focus_of_mem (hH.nodup k o.side) ho
  refine ⟨hadj.withTrades False.elim, ?_⟩
  have hshelf : (e.impliedTrade X ts fill (o.fill fill.fillQty)).shelf k o.side =
      A ++ l.fillOrder o fill.fillQty :: B := by
    have hlvls := congrArg (fun H : Holdings => H.lvls k o.side) (holdings_impliedTrade ts fill hH ho)
    simp only [bookedIn, hsplit, hf.onLevelOf_eq] at hlvls
    exact hlvls.trans (set_self k o.side _)
  rw [hshelf]
  refine mem_ordersIn.mpr ⟨l.fillOrder o fill.fillQty, by simp, ?_⟩
  rw [hf.fillOrder_orders]
  simp

theorem holdings_impliedReveal (ts : Int) (hH : e.holdings.Sound X w [])
    (ho : o ∈ ordersIn (e.shelf k o.side)) :
    (e.impliedReveal ts o).holdings =
      e.holdings.set k o.side (onLevelOf o.id (·.requeue o o.nextTranche) (e.shelf k o.side)) := by
  have heq := hH.onBoth_eq ho (·.requeue o o.nextTranche)
  rw [← holdings_setBook, ← holdings_setStopBook] at heq
  unfold impliedReveal
  rw [holdings_fireDepthHolding]
  exact heq

theorem holdings_applyImpliedFill (hH : e.holdings.Sound X False [])
    (hindexed : e.indexed fill.orderId = .ok o) (ho : o ∈ ordersIn (e.shelf k o.side))
    (h : e.applyImpliedFill X ts fill = .ok e') :
    e'.holdings = (e.holdings.settleIn k o fill.fillQty).setTrades
      (e.tradeRegistry.record X.maxOrderIds o.id o.id fill.fillPrice fill.fillQty ts o.side
        o.accountId o.accountId) := by
  obtain ⟨A, l, B, Xs, Ys, hsplit, hf⟩ := exists_focus_of_mem (hH.nodup k o.side) ho
  obtain ⟨hH₁, ho₁⟩ := impliedTrade_sound ts fill hH ho
  have hclean : e'.holdings =
      (e.impliedTrade X ts fill (o.fill fill.fillQty)).holdings.cleanupIn k
        (o.fill fill.fillQty) := by
    simp only [applyImpliedFill, hindexed] at h
    unfold cleanupIn
    split at h
    next hzero =>
      rw [if_pos hzero]
      split at h
      next ht =>
        rw [if_pos ht, ← Except.ok.inj h]
        exact holdings_impliedReveal ts hH₁ ho₁
      next ht =>
        rw [if_neg ht]
        split at h
        · simp at h
        next hrem =>
          rw [← Except.ok.inj h, holdings_release, holdings_fireDepthAfterRemove,
            holdings_bookRemoveOrder hH₁ ho₁ hrem]
    next hzero =>
      rw [if_neg hzero, ← Except.ok.inj h]
      exact holdings_fireDepthHolding _ ts _
  rw [hclean, holdings_impliedTrade ts fill hH ho, cleanupIn_withTrades,
    cleanupIn_bookedIn hsplit hf]

theorem triggers_impliedReveal (ts : Int) (o : Order) (e : Engine D) :
    (e.impliedReveal ts o).triggers = e.triggers := by
  have hqueue := triggers_setStopBook
    (e.setBook o.side (onLevelOf o.id
      (·.requeue o (min o.displayQty (o.totalQty - o.filledQuantity))) (e.book o.side)))
    (triggers_of_shelf (e.stopBook o.side) o.id
      (f := (·.requeue o (min o.displayQty (o.totalQty - o.filledQuantity)))) fun _ => rfl)
  unfold impliedReveal
  rw [triggers_congr (stopView_fireDepthHolding o ts _)]
  exact hqueue

theorem bookRemoveOrder_stops {r : Bool × Engine D} (h : e.bookRemoveOrder o = .ok r) :
    (∀ s, Thins (e.stopBook s) (r.2.stopBook s)) ∧ r.2.lastTradePrice = e.lastTradePrice := by
  rcases bookRemoveOrder_ok h with ⟨-, rfl⟩ | ⟨-, rfl⟩
  · have hview := stopView_removeOrder e o
    refine ⟨fun s => ?_, congrArg Prod.snd hview⟩
    rw [show (e.removeOrder o).2.stopBook = e.stopBook from congrArg Prod.fst hview]
    exact .refl _
  · exact ⟨thins_removeStop o e, lastTradePrice_removeStop o e⟩

theorem applyImpliedFill_stops (h : e.applyImpliedFill X ts fill = .ok e') :
    (∀ s, e'.triggers s ⊆ e.triggers s) ∧ e'.lastTradePrice = fill.fillPrice := by
  unfold applyImpliedFill at h
  split at h
  · simp at h
  next o hindexed =>
    dsimp only at h
    have htrig : (e.impliedTrade X ts fill (o.fill fill.fillQty)).triggers = e.triggers :=
      triggers_adjustOrder _ _ _ e
    split at h
    · split at h
      · cases h
        refine ⟨fun s => ?_, ?_⟩
        · rw [triggers_impliedReveal, htrig]
          exact fun _ hp => hp
        · exact congrArg Prod.snd (stopView_fireDepthHolding (o.fill fill.fillQty) ts _)
      · split at h
        · simp at h
        next freed e₂ hrem =>
          cases h
          obtain ⟨hthins, hlast⟩ := bookRemoveOrder_stops hrem
          have hview : ((e₂.fireDepthAfterRemove freed (o.fill fill.fillQty).side fill.fillPrice
              ts).release (o.fill fill.fillQty)).stopView = e₂.stopView := by
            unfold fireDepthAfterRemove fireDepthAt
            split
            · rfl
            · split <;> rfl
          refine ⟨fun s p hp => ?_, ?_⟩
          · rw [← htrig]
            refine (hthins s).prices.subset ?_
            rwa [triggers_congr hview] at hp
          · exact (congrArg Prod.snd hview).trans hlast
    · cases h
      have hview := stopView_fireDepthHolding (o.fill fill.fillQty) ts
        (e.impliedTrade X ts fill (o.fill fill.fillQty))
      refine ⟨fun s => ?_, congrArg Prod.snd hview⟩
      rw [triggers_congr hview, htrig]
      exact fun _ hp => hp

theorem applyImpliedFill_settles (hs : World.Sound X False ⟨e, none⟩)
    (h : e.applyImpliedFill X ts fill = .ok e') :
    ∃ o k, e.indexed fill.orderId = .ok o ∧ o ∈ ordersIn (e.shelf k o.side) ∧
      e'.holdings = (e.holdings.settleIn k o fill.fillQty).setTrades
        (e.tradeRegistry.record X.maxOrderIds o.id o.id fill.fillPrice fill.fillQty ts o.side
          o.accountId o.accountId) := by
  have hH := hs.holds_none rfl
  rcases hindexed : e.indexed fill.orderId with err | o
  · simp [applyImpliedFill, hindexed] at h
  · obtain ⟨k, ho⟩ := shelf_of_linked hH (mem_linked_of_indexed hindexed)
    exact ⟨o, k, rfl, ho, holdings_applyImpliedFill hH hindexed ho h⟩

theorem applyImpliedFill_sound (hs : World.Sound X False ⟨e, none⟩)
    (h : e.applyImpliedFill X ts fill = .ok e') : World.Sound X False ⟨e', none⟩ := by
  obtain ⟨o, k, -, ho, hheld⟩ := applyImpliedFill_settles hs h
  refine .land ?_
  rw [hheld]
  exact ((hs.holds_none rfl).settleIn ho False.elim).withTrades False.elim

theorem applyImpliedLegs_sound {fills : List LegFill} (hs : World.Sound X False ⟨e, none⟩)
    (h : e.applyImpliedLegs X ts fills = .ok e') :
    World.Sound X False ⟨e', none⟩ ∧ (∀ s, e'.triggers s ⊆ e.triggers s) ∧
      e'.lastTradePrice = (fills.getLast?.map (·.fillPrice)).getD e.lastTradePrice := by
  induction fills generalizing e with
  | nil =>
    cases h
    exact ⟨hs, fun s => List.Subset.refl _, rfl⟩
  | cons fill fills ih =>
    unfold applyImpliedLegs at h
    split at h
    · simp at h
    next e₁ hleg =>
      obtain ⟨htrig₁, hlast₁⟩ := applyImpliedFill_stops hleg
      obtain ⟨hs', htrig, hlast⟩ := ih (applyImpliedFill_sound hs hleg) h
      refine ⟨hs', fun s => List.Subset.trans (htrig s) (htrig₁ s), ?_⟩
      rw [hlast, hlast₁]
      cases fills <;> simp [List.getLast?_cons]

end ExchangeSim
