import ExchangeSim.HoldingsOf

namespace ExchangeSim

open Engine Function PriceLevel Holdings

variable {D : Type} {q : Int} {H : Holdings} {o bid ask : Order} {k : Shelf} {s : Side}
  {l' : PriceLevel} {w : Prop} {fits : Int → Order → Prop} {f : FillResult}
  {A' B' : List PriceLevel} {X' Y' : List Order}

def PriceLevel.fillOrder (o : Order) (q : Int) (l : PriceLevel) : PriceLevel :=
  { l with
    orders := l.orders.map fun x => if x.id = o.id then x.fill q else x
    totalQuantity := l.totalQuantity - q }

def Order.nextTranche (o : Order) : Int :=
  min o.displayQty (o.totalQty - o.filledQuantity)

/-- A level after a fill of `o` by `q` that used up the visible part of an iceberg. -/
def PriceLevel.reveal (o : Order) (q : Int) (l : PriceLevel) : PriceLevel :=
  (l.fillOrder o q).requeue (o.fill q) (o.fill q).nextTranche

@[simp] theorem Order.fill_id (o : Order) (q : Int) : (o.fill q).id = o.id := rfl

@[simp] theorem Order.fill_side (o : Order) (q : Int) : (o.fill q).side = o.side := rfl

@[simp] theorem Order.fill_zero (o : Order) : o.fill 0 = o := by
  simp [Order.fill]

theorem Order.fill_fill (o : Order) (p q : Int) : (o.fill p).fill q = o.fill (p + q) := by
  simp [Order.fill, add_assoc, sub_sub]

theorem Order.hasNextTranche_iff :
    o.hasNextTranche = true ↔ 0 < o.displayQty ∧ o.filledQuantity < o.totalQty := by
  simp [Order.hasNextTranche]

theorem Order.nextTranche_pos (h : o.hasNextTranche = true) : 0 < o.nextTranche := by
  rw [Order.hasNextTranche_iff] at h
  simp only [Order.nextTranche, lt_min_iff]
  omega

variable {o : Order} {A B : List PriceLevel} {l : PriceLevel} {X Y : List Order}

namespace Focus

section

variable (h : Focus o A l B X Y)

include h

theorem fillOrder_orders (q : Int) :
    (l.fillOrder o q).orders = X ++ o.fill q :: Y := by
  have keep : ∀ (os : List Order), (∀ x ∈ os, x.id ≠ o.id) →
      os.map (fun x => if x.id = o.id then x.fill q else x) = os := by
    intro os hos
    apply map_eq_self
    intro x hx
    simp [hos x hx]
  simp [fillOrder, h.queue, keep X fun x hx => h.inside x (by simp [hx]),
    keep Y fun y hy => h.inside y (by simp [hy])]

theorem fillOrder (q : Int) :
    Focus (o.fill q) A (l.fillOrder o q) B X Y :=
  h.replace (Order.fill_id o q) (h.fillOrder_orders q)

theorem fill_lvls (q : Int) :
    onLevelOf o.id (fun m => { m with totalQuantity := m.totalQuantity - q })
      ((A ++ l :: B).map (·.mapOrders fun x => if x.id = o.id then x.fill q else x)) =
      A ++ l.fillOrder o q :: B := by
  rw [h.map_orders (·.fill q)]
  have hf : Focus (o.fill q) A { l with orders := X ++ o.fill q :: Y } B X Y :=
    h.replace (Order.fill_id o q) rfl
  rw [← Order.fill_id o q, hf.onLevelOf_eq]
  have ho := h.fillOrder_orders q
  simp only [PriceLevel.fillOrder] at ho ⊢
  rw [ho]

theorem reveal_lvls (q : Int) :
    onLevelOf (o.fill q).id (·.requeue (o.fill q) (o.fill q).nextTranche)
      (A ++ l.fillOrder o q :: B) = A ++ l.reveal o q :: B := by
  rw [(h.fillOrder q).onLevelOf_eq, reveal]

theorem fillOrder_ids (q : Int) :
    ((l.fillOrder o q).orders.map (·.id)).Perm (l.orders.map (·.id)) := by
  simp [h.fillOrder_orders, h.queue]

theorem reveal_ids (q : Int) :
    ((l.reveal o q).orders.map (·.id)).Perm (l.orders.map (·.id)) := by
  have hperm : ((X ++ Y) ++ [o]).Perm (X ++ o :: Y) :=
    (List.perm_append_singleton _ _).trans List.perm_middle.symm
  simp only [reveal, requeue, (h.fillOrder q).filter_queue, h.queue]
  simpa using hperm.map (·.id)

theorem unlink_filled :
    unlinkFrom (o.fill o.remainingQuantity) (A ++ l.fillOrder o o.remainingQuantity :: B) =
      unlinkFrom o (A ++ l :: B) := by
  have hf := h.fillOrder o.remainingQuantity
  have hlevel : (l.fillOrder o o.remainingQuantity).unlink (o.fill o.remainingQuantity) =
      l.unlink o := by
    have hq := hf.filter_queue
    rw [Order.fill_id] at hq
    simp only [PriceLevel.unlink, Order.fill_id, hq, h.filter_queue]
    simp [PriceLevel.fillOrder, Order.fill]
  rw [hf.unlinkFrom_eq, h.unlinkFrom_eq, hlevel]
  rfl

end

end Focus

namespace Holdings

/-- A limit order and its level after a fill, before the cleanup. -/
def booked (o : Order) (q : Int) (H : Holdings) : Holdings :=
  H.set .limit o.side (onLevelOf o.id (PriceLevel.fillOrder o q) (H.lvls .limit o.side))

/-- The cleanup after a fill, for the order as it is then. -/
def cleanup (o : Order) (H : Holdings) : Holdings :=
  if o.remainingQuantity = 0 then
    if o.hasNextTranche then
      H.set .limit o.side (onLevelOf o.id (·.requeue o o.nextTranche) (H.lvls .limit o.side))
    else (H.takeOut .limit o).release o
  else H

def setTrades (R : TradeRegistry) (H : Holdings) : Holdings :=
  { H with tradeRegistry := R }

/-- What a fill makes of a limit order and its level. -/
def settle (o : Order) (q : Int) (H : Holdings) : Holdings :=
  if o.remainingQuantity - q = 0 then
    if (o.fill q).hasNextTranche then
      H.set .limit o.side (onLevelOf o.id (PriceLevel.reveal o q) (H.lvls .limit o.side))
    else (H.takeOut .limit o).release o
  else H.booked o q

/-! The same for an order of either book: an implied fill may name a waiting stop. -/

def bookedIn (k : Shelf) (o : Order) (q : Int) (H : Holdings) : Holdings :=
  H.set k o.side (onLevelOf o.id (PriceLevel.fillOrder o q) (H.lvls k o.side))

def cleanupIn (k : Shelf) (o : Order) (H : Holdings) : Holdings :=
  if o.remainingQuantity = 0 then
    if o.hasNextTranche then
      H.set k o.side (onLevelOf o.id (·.requeue o o.nextTranche) (H.lvls k o.side))
    else (H.takeOut k o).release o
  else H

def settleIn (k : Shelf) (o : Order) (q : Int) (H : Holdings) : Holdings :=
  if o.remainingQuantity - q = 0 then
    if (o.fill q).hasNextTranche then
      H.set k o.side (onLevelOf o.id (PriceLevel.reveal o q) (H.lvls k o.side))
    else (H.takeOut k o).release o
  else H.bookedIn k o q

theorem settleIn_tradeRegistry (k : Shelf) (o : Order) (q : Int) (H : Holdings) :
    (H.settleIn k o q).tradeRegistry = H.tradeRegistry := by
  unfold settleIn
  split
  · split <;> rfl
  · rfl

theorem settle_tradeRegistry (o : Order) (q : Int) (H : Holdings) :
    (H.settle o q).tradeRegistry = H.tradeRegistry :=
  settleIn_tradeRegistry .limit o q H

/-- The level of an order after a fill of that order, if it is still there. -/
def settledLevel (o : Order) (q : Int) (l : PriceLevel) : Option PriceLevel :=
  if o.remainingQuantity - q = 0 then
    if (o.fill q).hasNextTranche then some (l.reveal o q)
    else if l.orderCount - 1 = 0 then none else some (l.unlink o)
  else some (l.fillOrder o q)

theorem settledLevel_price {l : PriceLevel} (h : settledLevel o q l = some l') :
    l'.price = l.price := by
  unfold settledLevel at h
  split at h
  · split at h
    · exact Option.some.inj h ▸ rfl
    · split at h
      · simp at h
      · exact Option.some.inj h ▸ rfl
  · exact Option.some.inj h ▸ rfl

theorem settleIn_lvls (hsplit : H.lvls k o.side = A ++ l :: B) (hf : Focus o A l B X Y) (q : Int) :
    (H.settleIn k o q).lvls k o.side = A ++ ((settledLevel o q l).toList ++ B) := by
  unfold settleIn settledLevel
  split
  · split
    · rw [hsplit, hf.onLevelOf_eq, set_self]
      simp
    · have ht : ((H.takeOut k o).release o).lvls k o.side = (unlinkFrom o (A ++ l :: B)).1 := by
        simp [release, takeOut, hsplit]
      rw [ht, hf.unlinkFrom_eq]
      split <;> simp
  · rw [bookedIn, hsplit, hf.onLevelOf_eq, set_self]
    simp

theorem settle_lvls (hsplit : H.lvls .limit o.side = A ++ l :: B) (hf : Focus o A l B X Y)
    (q : Int) : (H.settle o q).lvls .limit o.side = A ++ ((settledLevel o q l).toList ++ B) :=
  settleIn_lvls hsplit hf q

theorem settleIn_lvls_other {j : Shelf} (h : ¬(j = k ∧ s = o.side)) (q : Int) :
    (H.settleIn k o q).lvls j s = H.lvls j s := by
  unfold settleIn
  split
  · split
    · exact set_other h _
    · exact set_other h _
  · exact set_other h _

theorem settle_lvls_other (h : ¬(k = .limit ∧ s = o.side)) (q : Int) :
    (H.settle o q).lvls k s = H.lvls k s :=
  settleIn_lvls_other h q

theorem set_set (H : Holdings) (k : Shelf) (s : Side) (a b : List PriceLevel) :
    (H.set k s a).set k s b = H.set k s b := by
  simp [set]

theorem set_comm (H : Holdings) (k : Shelf) {t : Side} (h : s ≠ t) (a b : List PriceLevel) :
    (H.set k s a).set k t b = (H.set k t b).set k s a := by
  simp only [set, Function.update_self, update_idem, mk.injEq, and_true]
  rw [update_comm h]

theorem cleanupIn_bookedIn (hsplit : H.lvls k o.side = A ++ l :: B) (hf : Focus o A l B X Y)
    (q : Int) : (H.bookedIn k o q).cleanupIn k (o.fill q) = H.settleIn k o q := by
  have hb : H.bookedIn k o q = H.set k o.side (A ++ l.fillOrder o q :: B) := by
    rw [bookedIn, hsplit, hf.onLevelOf_eq]
  have hl : (H.bookedIn k o q).lvls k o.side = A ++ l.fillOrder o q :: B := by
    rw [hb, set_self]
  have hrem : (o.fill q).remainingQuantity = o.remainingQuantity - q := rfl
  unfold cleanupIn settleIn
  rw [hrem, Order.fill_side, Order.fill_id]
  by_cases hzero : o.remainingQuantity - q = 0
  · by_cases ht : (o.fill q).hasNextTranche = true
    · rw [if_pos ht, if_pos ht, hl, hsplit, hf.onLevelOf_eq, hb, set_set]
      rw [← Order.fill_id o q, hf.reveal_lvls]
    · rw [if_neg ht, if_neg ht]
      obtain rfl : q = o.remainingQuantity := by omega
      have htake : (H.bookedIn k o o.remainingQuantity).takeOut k (o.fill o.remainingQuantity) =
          H.takeOut k o := by
        simp only [takeOut, Order.fill_side, hl, hf.unlink_filled, hsplit]
        rw [hb, set_set]
        rfl
      rw [htake]
      rfl
  · rw [if_neg hzero, if_neg hzero]

theorem cleanup_booked (hsplit : H.lvls .limit o.side = A ++ l :: B) (hf : Focus o A l B X Y)
    (q : Int) : (H.booked o q).cleanup (o.fill q) = H.settle o q :=
  cleanupIn_bookedIn hsplit hf q

theorem cleanup_set_other (H : Holdings) (h : s ≠ o.side) (lvls : List PriceLevel) :
    (H.set .limit s lvls).cleanup o = (H.cleanup o).set .limit s lvls := by
  have hl : (H.set .limit s lvls).lvls .limit o.side = H.lvls .limit o.side :=
    set_other (by simp [h.symm]) lvls
  unfold cleanup
  by_cases hzero : o.remainingQuantity = 0
  · rw [if_pos hzero, if_pos hzero]
    by_cases ht : o.hasNextTranche = true
    · rw [if_pos ht, if_pos ht, hl, set_comm _ _ h]
    · rw [if_neg ht, if_neg ht]
      simp only [takeOut, hl]
      rw [set_comm _ _ h]
      rfl
  · rw [if_neg hzero, if_neg hzero]

theorem cleanup_lvls_other (H : Holdings) (h : s ≠ o.side) :
    (H.cleanup o).lvls .limit s = H.lvls .limit s := by
  have hset : ∀ lvls, (H.set .limit o.side lvls).lvls .limit s = H.lvls .limit s :=
    fun lvls => set_other (by simp [h]) lvls
  unfold cleanup
  split
  · split
    · exact hset _
    · exact hset _
  · rfl

theorem cleanupIn_withTrades (H : Holdings) (k : Shelf) (R : TradeRegistry) :
    (H.setTrades R).cleanupIn k o = (H.cleanupIn k o).setTrades R := by
  unfold cleanupIn
  split
  · split <;> rfl
  · rfl

theorem cleanup_withTrades (H : Holdings) (R : TradeRegistry) :
    (H.setTrades R).cleanup o = (H.cleanup o).setTrades R :=
  cleanupIn_withTrades H .limit R

end Holdings

theorem PriceLevel.Sound.fillOrder (h : l.Sound w fits) (hf : Focus o A l B X Y)
    (ho : fits l.price (o.fill q)) (hpos : w → 0 < o.remainingQuantity - q) :
    (l.fillOrder o q).Sound w fits := by
  have hu := h.update hf ho hpos
  have he : l.fillOrder o q = { l with
      orders := X ++ o.fill q :: Y
      totalQuantity := l.totalQuantity + ((o.fill q).remainingQuantity - o.remainingQuantity) } := by
    rw [← hf.fillOrder_orders q]
    simp [PriceLevel.fillOrder, Order.fill]
    omega
  rw [he]
  exact hu

theorem PriceLevel.Sound.reveal (h : l.Sound w fits) (hf : Focus o A l B X Y)
    (hq : o.remainingQuantity - q = 0)
    (ho : fits l.price { o.fill q with remainingQuantity := (o.fill q).nextTranche })
    (hpos : w → 0 < (o.fill q).nextTranche) : (l.reveal o q).Sound w fits := by
  have hu := h.update hf ho hpos
  have hperm : ((X ++ Y) ++ [{ o.fill q with remainingQuantity := (o.fill q).nextTranche }]).Perm
      (X ++ { o.fill q with remainingQuantity := (o.fill q).nextTranche } :: Y) :=
    (List.perm_append_singleton _ _).trans List.perm_middle.symm
  have hr := hu.reorder hperm
  have he : l.reveal o q = { l with
      orders := (X ++ Y) ++ [{ o.fill q with remainingQuantity := (o.fill q).nextTranche }]
      totalQuantity := l.totalQuantity + ((o.fill q).nextTranche - o.remainingQuantity) } := by
    have hx := (hf.fillOrder q).filter_queue
    simp only [PriceLevel.reveal, PriceLevel.requeue, hx]
    simp only [PriceLevel.fillOrder, PriceLevel.mk.injEq, true_and, and_true]
    omega
  rw [he]
  exact hr

namespace Holdings

variable {X : Exchange D} {w : Prop} {extra : List Nat} {H : Holdings}

section

variable (h : H.Sound X w extra)

include h

theorem Sound.settleIn (ho : o ∈ ordersIn (H.lvls k o.side))
    (hq : w → q ≤ o.remainingQuantity) : (H.settleIn k o q).Sound X w extra := by
  obtain ⟨A, l, B, Xs, Ys, hsplit, hf⟩ := exists_focus_of_mem (h.nodup k o.side) ho
  have hlevel := (hsplit ▸ h.shape k o.side).level
  have hfits : k.fits o.side l.price o := hlevel.fits o (by simp [hf.queue])
  unfold Holdings.settleIn
  split
  next hzero =>
    split
    next ht =>
      rw [hsplit, hf.onLevelOf_eq]
      refine h.updateLevel hsplit rfl ?_ ?_
      · exact hlevel.reveal hf hzero (Shelf.fits_congr hfits rfl rfl rfl) fun _ =>
          Order.nextTranche_pos ht
      · exact hf.reveal_ids q
    next => exact (h.takeOut ho).release
  next hne =>
    rw [bookedIn, hsplit, hf.onLevelOf_eq]
    refine h.updateLevel hsplit rfl ?_ ?_
    · exact hlevel.fillOrder hf (Shelf.fits_congr hfits rfl rfl rfl) fun hw => by
        have := hq hw
        omega
    · exact hf.fillOrder_ids q

theorem Sound.settle (ho : o ∈ ordersIn (H.lvls .limit o.side))
    (hq : w → q ≤ o.remainingQuantity) : (H.settle o q).Sound X w extra :=
  h.settleIn ho hq

theorem Sound.withTrades {R : TradeRegistry}
    (hR : w → ∀ id t, R.trades id = some t → 0 < t.quantity) :
    (H.setTrades R).Sound X w extra where
  shape := h.shape
  owns := { h.owns with }
  levelsLive := h.levelsLive
  levelsBalanced := h.levelsBalanced
  trades := hR

theorem Sound.record (hq : w → 0 < q) (n a r : Nat) (price ts : Int)
    (s : Side) (aa ra : Nat) :
    (H.setTrades (H.tradeRegistry.record n a r price q ts s aa ra)).Sound X w extra := by
  refine h.withTrades fun hw id t ht => ?_
  unfold TradeRegistry.record at ht
  split at ht
  next => exact h.trades hw id t ht
  next =>
    by_cases hid : id = H.tradeRegistry.nextTradeId
    · simp only [hid, Function.update_self, Option.some.injEq] at ht
      rw [← ht]
      exact hq hw
    · simp only [Function.update_of_ne hid] at ht
      exact h.trades hw id t ht

theorem Sound.markBusted (n : Nat) :
    (H.setTrades (H.tradeRegistry.markBusted n)).Sound X w extra := by
  refine h.withTrades fun hw id t ht => ?_
  by_cases hid : id = n
  · simp only [TradeRegistry.markBusted, hid, Function.update_self, Option.map_eq_some_iff] at ht
    obtain ⟨u, hu, rfl⟩ := ht
    exact h.trades hw n u hu
  · simp only [TradeRegistry.markBusted, Function.update_of_ne hid] at ht
    exact h.trades hw id t ht

end

end Holdings

variable {e : Engine D} {resting : Order}

theorem holdings_bookTrade (X : Exchange D) (ts : Int) (order : Order) (f : FillResult)
    (resting : Order) (e : Engine D) :
    (e.bookTrade X ts order f resting).holdings = (e.holdings.set .limit resting.side
      (onLevelOf resting.id (fun l => { l with totalQuantity := l.totalQuantity - f.quantity })
        (e.book resting.side))).setTrades
      (e.tradeRegistry.record X.maxOrderIds order.id resting.id f.price f.quantity ts order.side
        order.accountId resting.accountId) := by
  rw [← holdings_setBook]
  rfl

theorem holdings_fillResting (s : Side) (id : Nat) (q : Int) (e : Engine D) :
    (e.fillResting s id q).holdings = e.holdings.set .limit s
      ((e.book s).map (·.mapOrders fun o => if o.id = id then o.fill q else o)) := by
  rw [← holdings_setBook]
  rfl

theorem holdings_revealTranche (o : Order) (ts : Int) (e : Engine D) :
    (e.revealTranche o ts).holdings = e.holdings.set .limit o.side
      (onLevelOf o.id (·.requeue o o.nextTranche) (e.book o.side)) := by
  simp [revealTranche, Order.nextTranche]

theorem holdings_closeResting (hrem : f.restingRemaining = o.remainingQuantity) (ts : Int)
    (e : Engine D) : (e.closeResting ts f o).holdings = e.holdings.cleanup o := by
  unfold closeResting cleanup
  rw [hrem]
  split
  · split
    · exact holdings_revealTranche o ts e
    · simp
  · simp

theorem holdings_auctionAdvance (o : Order) (next : Option Nat) (ts : Int) (e : Engine D) :
    (e.auctionAdvance o next ts).2.holdings = e.holdings.cleanup o := by
  unfold auctionAdvance auctionHandleFilledOrder cleanup
  split
  · split
    · exact holdings_revealTranche o ts e
    · simp
  · rfl

theorem holdings_bookFill (E : Exchange D) (ts : Int) {order : Order} (reported : Int)
    (hside : resting.side = order.side.opposite) (hsplit : e.book resting.side = A ++ l :: B)
    (hf : Focus resting A l B X Y)
    (hrem : f.restingRemaining = resting.remainingQuantity - f.quantity) :
    (e.bookFill E ts order resting f reported).holdings =
      (e.holdings.settle resting f.quantity).setTrades
        (e.tradeRegistry.record E.maxOrderIds order.id resting.id f.price f.quantity ts order.side
          order.accountId resting.accountId) := by
  have hfill : (e.fillResting resting.side resting.id f.quantity).book resting.side =
      (A ++ l :: B).map (·.mapOrders fun x => if x.id = resting.id then x.fill f.quantity else x) := by
    simp [fillResting, setBook, hsplit]
  have hbooked : (e.holdings.set .limit resting.side (A ++ l.fillOrder resting f.quantity :: B)) =
      e.holdings.booked resting f.quantity := by
    rw [booked, show e.holdings.lvls .limit resting.side = A ++ l :: B from hsplit,
      hf.onLevelOf_eq]
  unfold bookFill
  dsimp only
  rw [← hside, Order.fill_id, holdings_closeResting hrem, holdings_bookTrade,
    cleanup_withTrades, Order.fill_side, Order.fill_id, hfill, hf.fill_lvls,
    holdings_fillResting, set_set, hbooked, cleanup_booked hsplit hf]
  rfl

theorem holdings_auctionTrade (E : Exchange D) (price ts : Int) (q : Int)
    (hbuy : e.book .buy = A ++ l :: B) (hf : Focus bid A l B X Y)
    (hsell : e.book .sell = A' ++ l' :: B') (hf' : Focus ask A' l' B' X' Y') :
    (e.auctionTrade E price ts (bid.fill q) (ask.fill q) q).holdings =
      ((e.holdings.set .limit .buy (A ++ l.fillOrder bid q :: B)).set .limit .sell
        (A' ++ l'.fillOrder ask q :: B')).setTrades
        (e.tradeRegistry.record E.maxOrderIds bid.id ask.id price q ts .buy bid.accountId
          ask.accountId) := by
  have hb := hf.fill_lvls q
  have ha := hf'.fill_lvls q
  have hbook : (e.auctionTrade E price ts (bid.fill q) (ask.fill q) q).book =
      update (update e.book .buy (A ++ l.fillOrder bid q :: B)) .sell
        (A' ++ l'.fillOrder ask q :: B') := by
    rw [← hb, ← ha, ← hbuy, ← hsell]
    funext s
    cases s <;> rfl
  rw [Holdings.mk.injEq]
  refine ⟨?_, rfl, rfl, rfl, rfl, rfl⟩
  funext k
  cases k with
  | limit => exact hbook
  | stop => rfl

theorem holdings_bookCross (E : Exchange D) (price ts : Int) (q : Int) (hbid : bid.side = .buy)
    (hask : ask.side = .sell) (hbuy : e.book .buy = A ++ l :: B) (hf : Focus bid A l B X Y)
    (hsell : e.book .sell = A' ++ l' :: B') (hf' : Focus ask A' l' B' X' Y') :
    (e.bookCross E price ts bid ask q).holdings =
      ((e.holdings.settle bid q).settle ask q).setTrades
        (e.tradeRegistry.record E.maxOrderIds bid.id ask.id price q ts .buy bid.accountId
          ask.accountId) := by
  have hne : Side.sell ≠ (bid.fill q).side := by simp [hbid]
  have hbids : e.holdings.lvls .limit bid.side = A ++ l :: B := by rw [hbid]; exact hbuy
  have hbooked : e.holdings.set .limit .buy (A ++ l.fillOrder bid q :: B) =
      e.holdings.booked bid q := by
    rw [booked, hbids, hf.onLevelOf_eq, hbid]
  have hasks : (e.holdings.settle bid q).lvls .limit ask.side = A' ++ l' :: B' := by
    rw [← cleanup_booked hbids hf, hask, cleanup_lvls_other _ hne,
      booked, hbid, set_other (by simp)]
    exact hsell
  have hbooked' : (e.holdings.settle bid q).set .limit .sell (A' ++ l'.fillOrder ask q :: B') =
      (e.holdings.settle bid q).booked ask q := by
    rw [booked, hasks, hf'.onLevelOf_eq, hask]
  unfold bookCross
  rw [holdings_auctionAdvance, holdings_auctionAdvance,
    holdings_auctionTrade E price ts q hbuy hf hsell hf', cleanup_withTrades,
    cleanup_withTrades, cleanup_set_other _ hne, hbooked,
    cleanup_booked hbids hf, hbooked', cleanup_booked hasks hf']

end ExchangeSim
