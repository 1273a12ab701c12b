import ExchangeSim.Clearing

/-!
The loops of an auction are a run of fills that ends when the matched volume is traded.
-/

namespace ExchangeSim

open Engine List Option

open UniformPrice

variable {D : Type} {X : Exchange D} {e e' : Engine D} {U V v price ts : Int}
  {left q bidPrice askPrice : Int} {l : PriceLevel} {s : Side} {rest : List PriceLevel}
  {bidId askId : Option Nat}

/-- A cursor of the auction when a volume of `v` has been traded: on an order of the best level,
and on the oldest one before a volume of `U`. -/
structure Engine.Fronts (e : Engine D) (U v : Int) (s : Side) (price : Int) (p : Option Nat) :
    Prop where
  cursor : e.Cursor s price p
  best : ∀ l ∈ e.book s, l.price = price ∨ bookBefore s price l.price = true
  oldest : v < U → (∀ T ∈ turns v (e.book s), U ≤ T) ∧ ∀ id ∈ p, e.Oldest s id

namespace Engine.Fronts

variable {s : Side} {p : Option Nat}

theorem none (h : e.Fronts U v s price p) : e.Fronts U v s price none :=
  ⟨by simp [Cursor], h.best, fun hlt => ⟨(h.oldest hlt).1, by simp⟩⟩

theorem first (hs : World.Sound X True ⟨e, Option.none⟩) (h : e.Fronts U v s price p)
    (hl : l ∈ e.book s) (hprice : l.price = price) : ∃ rest, e.book s = l :: rest := by
  have hsorted := ((hs.holds_none rfl).shape .limit s).sorted
  have hbefore := strictBefore_book s
  have hbest := h.best
  change (e.book s).Pairwise _ at hsorted
  cases hbook : e.book s with
  | nil => simp [hbook] at hl
  | cons m rest =>
    rw [hbook] at hl hsorted hbest
    rcases List.mem_cons.mp hl with rfl | hl
    · exact ⟨rest, rfl⟩
    · have hml : bookBefore s m.price l.price = true := (pairwise_cons.mp hsorted).1 l hl
      rw [hprice] at hml
      rcases hbest m (by simp) with hm | hm
      · rw [hm, hbefore.irrefl] at hml
        simp at hml
      · have := hbefore.trans _ _ _ hm hml
        rw [hbefore.irrefl] at this
        simp at this

theorem order {id : Nat} (hs : World.Sound X True ⟨e, Option.none⟩)
    (h : e.Fronts U v s price (some id)) :
    ∃ o, o.id = id ∧ o.price = price ∧ o ∈ ordersIn (e.book s) ∧ e.OnBest s o := by
  obtain ⟨o, ho, hid, hprice⟩ := h.cursor id rfl
  obtain ⟨l, hl, hol⟩ := mem_ordersIn.mp ho
  have hlevel : l.price = price := by rw [← hprice, ((hs.level hl).fits o hol).2.2]
  obtain ⟨rest, hbook⟩ := h.first hs hl hlevel
  exact ⟨o, hid, hprice, ho, l, rest, hbook, hol⟩

end Engine.Fronts

theorem oldest_settled {o : Order} {ys : List Order} (hf : Focus o [] l rest [] ys)
    (hcount : l.orderCount = l.orders.length) (hturn : ∀ T ∈ turns v (l :: rest), v + q < T) {id : Nat}
    (h : o.goesOn q (l :: rest) = some id) :
    (queueOf ((Holdings.settledLevel o q l).toList ++ rest)).head?.map Prod.fst = some id := by
  have hrem : (o.fill q).remainingQuantity = o.remainingQuantity - q := rfl
  have hsucc : successor o.id (l :: rest) = ys.head?.map (·.id) := hf.successor_eq
  rw [queueOf, ordersIn_toList, settledLevel_front hf hcount hturn]
  unfold Order.goesOn at h
  split at h
  next hstay =>
    obtain ⟨x, hx⟩ : ∃ x, o.settled q = some x := by
      unfold Order.settled
      split
      next hz =>
        rw [if_pos (hstay.resolve_left (by omega))]
        exact ⟨_, rfl⟩
      next => exact ⟨_, rfl⟩
    simp [hx, Order.settled_id hx, h]
  next hgone =>
    push Not at hgone
    have hnone : o.settled q = none := by
      rw [Order.settled, if_pos (by omega), if_neg (by simpa using hgone.2)]
    rw [hsucc] at h
    obtain ⟨y, hy, rfl⟩ := map_eq_some_iff.mp h
    obtain ⟨zs, rfl⟩ := head?_eq_some_iff.mp hy
    simp [hnone]

theorem fronts_bookCross (pair : Side → Order) {sidePrice : Int}
    (hs : World.Sound X True ⟨e, none⟩) (hbest : ∀ s, e.OnBest s (pair s)) (hq : 0 < q)
    (hle : ∀ s, q ≤ (pair s).remainingQuantity)
    (h : e.Fronts U v s sidePrice (some (pair s).id))
    (hcursor : (e.bookCross X price ts (pair .buy) (pair .sell) q).Cursor s sidePrice
      ((pair s).goesOn q (e.book s))) :
    (e.bookCross X price ts (pair .buy) (pair .sell) q).Fronts U (v + q) s sidePrice
      ((pair s).goesOn q (e.book s)) := by
  obtain ⟨l, rest, hbook, ho⟩ := hbest s
  have hafter := bookCross_book hs hbest price ts q s hbook
  refine ⟨hcursor, fun m hm => ?_, fun hlt => ?_⟩
  · rw [hafter] at hm
    rcases List.mem_append.mp hm with hm | hm
    · rw [Holdings.settledLevel_price (mem_toList.mp hm)]
      exact h.best l (by simp [hbook])
    · exact h.best m (by simp [hbook, hm])
  · obtain ⟨hturn, hold⟩ := h.oldest (by omega)
    have hold := hold _ rfl
    have hturn' : ∀ T ∈ turns v (e.book s), v + q < T := fun T hT => hlt.trans_le (hturn T hT)
    obtain ⟨ys, hf⟩ := hold.focus hs hbook ho
    have hcount := (hs.level (s := s) (l := l) (by simp [hbook])).count
    refine ⟨(queueOf_bookCross hs hbest hq _ _ hle s hturn' hold).1 ▸ hturn, fun id hid => ?_⟩
    rw [Oldest, hafter]
    rw [hbook] at hturn' hid
    exact oldest_settled hf hcount hturn' hid

theorem auctionLevel_done (fuel : Nat) (hleft : left ≤ 0) (bidId askId : Option Nat)
    (e : Engine D) : e.auctionLevel X price ts fuel left bidId askId = .ok (left, e) := by
  cases bidId with
  | none => exact auctionLevel_noBid price ts fuel left askId e
  | some bidId =>
    cases askId with
    | none => exact auctionLevel_noAsk price ts fuel left _ e
    | some askId =>
      unfold auctionLevel
      rw [if_pos hleft]

def cursors (bidId askId : Option Nat) : Side → Option Nat
  | .buy => bidId
  | .sell => askId

/-- What a stretch of the auction on one bid level and one ask level comes to: some fills, the first
of them between the orders at the cursors. -/
def ClearsLevel (X : Exchange D) (U price ts bidPrice askPrice v left : Int)
    (bidId askId : Option Nat) (e : Engine D) (r : Outcome D (Int × Engine D)) : Prop :=
  ∃ trades e', r = .ok (left - volumeOf trades, e') ∧
    Clearing X U (v + left) price ts v e trades e' ∧ volumeOf trades ≤ left ∧
    (0 < left → (∀ s, (cursors bidId askId s).isSome = true) →
      ∀ s, trades.head?.map (Trade.party s) = cursors bidId askId s) ∧
    e'.Fronts U (v + volumeOf trades) .buy bidPrice none ∧
    e'.Fronts U (v + volumeOf trades) .sell askPrice none

theorem ClearsLevel.stop (hs : World.Sound X True ⟨e, none⟩)
    (hbid : e.Fronts U v .buy bidPrice bidId) (hask : e.Fronts U v .sell askPrice askId)
    (hleft : 0 ≤ left) (hno : left ≤ 0 ∨ ∃ s, cursors bidId askId s = none)
    {r : Outcome D (Int × Engine D)} (hr : r = .ok (left, e)) :
    ClearsLevel X U price ts bidPrice askPrice v left bidId askId e r := by
  refine ⟨[], e, by simpa [volumeOf] using hr, .done hs, by simpa [volumeOf] using hleft,
    fun hpos hsome => ?_, by simpa [volumeOf] using hbid.none, by simpa [volumeOf] using hask.none⟩
  obtain ⟨s, hnone⟩ := hno.resolve_left (by omega)
  simpa [hnone] using hsome s

/-- The orders of one bid level against those of one ask level: the loop ends, and it trades
something if there is something to trade. -/
theorem auctionLevel_clears (ts : Int) (hb : price ≤ bidPrice) (hk : askPrice ≤ price) (fuel : Nat)
    (hs : World.Sound X True ⟨e, none⟩) (hbid : e.Fronts U v .buy bidPrice bidId)
    (hask : e.Fronts U v .sell askPrice askId) (hleft : 0 ≤ left)
    (hfuel : left.toNat ≤ fuel) :
    ClearsLevel X U price ts bidPrice askPrice v left bidId askId e
      (e.auctionLevel X price ts fuel left bidId askId) := by
  induction fuel generalizing v left bidId askId e with
  | zero =>
    exact .stop hs hbid hask hleft (.inl (by omega)) (auctionLevel_done 0 (by omega) _ _ _)
  | succ fuel ih =>
    by_cases hpos : left ≤ 0
    · exact .stop hs hbid hask hleft (.inl hpos) (auctionLevel_done _ hpos _ _ _)
    cases bidId with
    | none => exact .stop hs hbid hask hleft (.inr ⟨.buy, rfl⟩) (auctionLevel_noBid _ _ _ _ _ _)
    | some bidId =>
      cases askId with
      | none => exact .stop hs hbid hask hleft (.inr ⟨.sell, rfl⟩) (auctionLevel_noAsk _ _ _ _ _ _)
      | some askId =>
        obtain ⟨bid, rfl, hbp, hbmem, hbest⟩ := hbid.order hs
        obtain ⟨ask, rfl, hap, hkmem, hbest'⟩ := hask.order hs
        have hH : e.holdings.Sound X True [] := hs.holds_none rfl
        have hfb : findOrder bid.id (e.book .buy) = some bid :=
          findOrder_of_mem (hH.nodup .limit .buy) hbmem
        have hfk : findOrder ask.id (e.book .sell) = some ask :=
          findOrder_of_mem (hH.nodup .limit .sell) hkmem
        have hbpos := hH.remaining_pos (k := .limit) hbmem trivial
        have hkpos := hH.remaining_pos (k := .limit) hkmem trivial
        let pair : Side → Order := fun s => s.casesOn bid ask
        let q := min left (min bid.remainingQuantity ask.remainingQuantity)
        have hq : 0 < q := by omega
        have hle : ∀ s, q ≤ (pair s).remainingQuantity := by
          intro s
          cases s
          · change q ≤ bid.remainingQuantity
            omega
          · change q ≤ ask.remainingQuantity
            omega
        have honbest : ∀ s, e.OnBest s (pair s) := by
          intro s
          cases s
          · exact hbest
          · exact hbest'
        have holdest : v < U → ∀ s, e.Oldest s (pair s).id := by
          intro hlt s
          cases s
          · exact (hbid.oldest hlt).2 _ rfl
          · exact (hask.oldest hlt).2 _ rfl
        obtain ⟨hrun, hcb, hck⟩ := cross_run (c := False) (P := fun _ => true) ts
          (fun _ _ _ => rfl) hs hbmem hkmem hbp hap hb hk
          (fun _ => ⟨hq, hle .buy, hle .sell⟩)
        rw [auctionAdvance_bookCross] at hrun hcb hck
        rw [auctionAdvance_fst] at hcb hck
        have hbid₁ := fronts_bookCross pair hs honbest hq hle hbid hcb
        have hask₁ := fronts_bookCross pair hs honbest hq hle hask hck
        have hrest : 0 ≤ left - q := by omega
        obtain ⟨trades, e', hr, hclear, hvol, hfirst, hbid', hask'⟩ :=
          ih (OpRun.sound hrun hs) hbid₁ hask₁ hrest (by omega)
        have hnonneg := hclear.volume_nonneg
        have hcursors : ∀ s, cursors ((pair .buy).goesOn q (e.book .buy))
            ((pair .sell).goesOn q (e.book .sell)) s = (pair s).goesOn q (e.book s) := by
          intro s
          cases s <;> rfl
        rw [show v + q + (left - q) = v + left by omega] at hclear
        simp only [hcursors] at hfirst
        refine ⟨_, e', ?_, .fill pair q hs honbest holdest hq hle
          (fun hlt => hfirst (by omega)) hclear, ?_, fun _ _ s => ?_, ?_, ?_⟩
        · unfold auctionLevel
          rw [if_neg hpos]
          simp only [hfb, hfk]
          rw [auctionAdvance_bookCross, auctionAdvance_fst, auctionAdvance_fst]
          refine hr.trans ?_
          rw [volumeOf_cons]
          congr 2
          dsimp only
          omega
        · rw [volumeOf_cons]
          dsimp only
          omega
        · cases s <;> rfl
        · rwa [volumeOf_cons, ← add_assoc]
        · rwa [volumeOf_cons, ← add_assoc]

/-- The limit `a` of an order on side `s` accepts the price `p`. -/
def reaches (s : Side) (p a : Int) : Bool :=
  !bookBefore s p a

theorem reaches_buy (p a : Int) : reaches .buy p a = decide (p ≤ a) := by
  by_cases h : p ≤ a
  · simp [reaches, bookBefore, h]
  · simp [reaches, bookBefore, h, not_le.mp h]

theorem reaches_sell (p a : Int) : reaches .sell p a = decide (a ≤ p) := by
  by_cases h : a ≤ p
  · simp [reaches, bookBefore, h]
  · simp [reaches, bookBefore, h, not_le.mp h]

theorem first_reaches (hs : World.Sound X True ⟨e, none⟩) (s : Side) (p : Int) :
    First (reaches s p) (depthOf (e.book s)) := by
  have hsorted : (e.book s).Pairwise fun a b => bookBefore s a.price b.price = true :=
    ((hs.holds_none rfl).shape .limit s).sorted
  refine pairwise_map.mpr (hsorted.imp ?_)
  intro a b hab hb
  simp only [reaches, Bool.not_eq_true'] at hb ⊢
  by_contra hne
  have hpa : bookBefore s p a.price = true := by simpa using hne
  rw [(strictBefore_book s).trans _ _ _ hpa hab] at hb
  simp at hb

theorem fronts_head (hs : World.Sound X True ⟨e, none⟩) (hbook : e.book s = l :: rest)
    (hturn : v < U → ∀ T ∈ turns v (e.book s), U ≤ T) :
    e.Fronts U v s l.price (l.orders.head?.map (·.id)) := by
  have hsorted : (e.book s).Pairwise fun a b => bookBefore s a.price b.price = true :=
    ((hs.holds_none rfl).shape .limit s).sorted
  have hfind : findLevel l.price (e.book s) = some l := by simp [findLevel, hbook]
  refine ⟨findLevel_cursor (hs.holds_none rfl) hfind, fun m hm => ?_, fun h => ⟨hturn h, ?_⟩⟩
  · rw [hbook] at hm hsorted
    rcases List.mem_cons.mp hm with rfl | hm
    · exact .inl rfl
    · exact .inr ((pairwise_cons.mp hsorted).1 m hm)
  · intro id hid
    obtain ⟨o, ho, rfl⟩ := map_eq_some_iff.mp hid
    obtain ⟨ys, hys⟩ := head?_eq_some_iff.mp ho
    simp [Oldest, queueOf, hbook, hys]

theorem auctionNextLevel_eq (hs : World.Sound X True ⟨e, none⟩) {current : Int}
    (h : e.Fronts U v s current none) (hreach : reaches s price current = true) :
    e.auctionNextLevel s price current = (e.book s).head?.map (·.price) := by
  unfold auctionNextLevel
  split
  next => rfl
  next lv hfind =>
    have hlv : lv ∈ e.book s := mem_of_find?_eq_some hfind
    have hprice : lv.price = current := by simpa using find?_some hfind
    have hsound := hs.level hlv
    obtain ⟨rest, hbook⟩ := h.first hs hlv hprice
    have hcount : ¬(lv.orderCount = 0 ∨ lv.orders = []) := by
      rintro (hzero | hnil)
      · rw [hsound.count] at hzero
        exact hsound.nonempty (length_eq_zero_iff.mp hzero)
      · exact hsound.nonempty hnil
    have hbefore : bookBefore s price lv.price = false := by
      rw [hprice]
      simpa [reaches] using hreach
    rw [if_neg hcount, if_neg (by simp [hbefore]), hbook]
    rfl

theorem auctionLoop_done (fuel rounds : Nat) (hleft : left ≤ 0) (bidPrice askPrice : Option Int)
    (e : Engine D) : e.auctionLoop X price ts fuel rounds left bidPrice askPrice = .ok e := by
  cases bidPrice with
  | none => exact auctionLoop_noBid price ts fuel rounds left askPrice e
  | some bidPrice =>
    cases askPrice with
    | none => exact auctionLoop_noAsk price ts fuel rounds left _ e
    | some askPrice =>
      unfold auctionLoop
      rw [if_pos (.inl hleft)]

/-- While the levels that accept the price have as much as is left to trade, the loop goes on:
it ends when all of it is traded. -/
theorem auctionLoop_clears (ts : Int) {fuel : Nat} (rounds : Nat)
    (hs : World.Sound X True ⟨e, none⟩) (hturn : v < U → ∀ s, ∀ T ∈ turns v (e.book s), U ≤ T)
    (hleft : 0 ≤ left) (hrounds : left.toNat ≤ rounds) (hfuel : left.toNat ≤ fuel)
    (hdepth : ∀ s, left ≤ quantityOf (reaches s price) (depthOf (e.book s))) :
    ∃ trades e', e.auctionLoop X price ts fuel rounds left ((e.book .buy).head?.map (·.price))
        ((e.book .sell).head?.map (·.price)) = .ok e' ∧
      Clearing X U (v + left) price ts v e trades e' ∧ volumeOf trades = left := by
  induction rounds generalizing v left e with
  | zero =>
    obtain rfl : left = 0 := by omega
    exact ⟨[], e, auctionLoop_done fuel 0 le_rfl _ _ e, .done hs, rfl⟩
  | succ rounds ih =>
    rcases hleft.eq_or_lt with rfl | hpos
    · exact ⟨[], e, auctionLoop_done fuel _ le_rfl _ _ e, .done hs, rfl⟩
    have hhead : ∀ s, ∃ l rest, e.book s = l :: rest ∧ reaches s price l.price = true := by
      intro s
      obtain ⟨x, hx, hreach⟩ := (lt_quantityOf_iff (hs.filled_depth s) (first_reaches hs s price)
        le_rfl).mp (hpos.trans_le (hdepth s))
      rw [drain_of_nonpos le_rfl] at hx
      cases hbook : e.book s with
      | nil => simp [hbook, depthOf] at hx
      | cons l rest =>
        obtain rfl : (l.price, l.whole) = x := by simpa [hbook, depthOf] using hx
        exact ⟨l, rest, rfl, hreach⟩
    obtain ⟨b, bids, hbids, hbreach⟩ := hhead .buy
    obtain ⟨k, asks, hasks, hkreach⟩ := hhead .sell
    have hb : price ≤ b.price := by simpa [reaches_buy] using hbreach
    have hk : k.price ≤ price := by simpa [reaches_sell] using hkreach
    obtain ⟨trades, e₁, hr, hclear, hvol, hfirst, hbid, hask⟩ :=
      auctionLevel_clears ts hb hk fuel hs
        (fronts_head hs hbids fun hlt => hturn hlt .buy)
        (fronts_head hs hasks fun hlt => hturn hlt .sell) hleft hfuel
    have hstarted : ∀ s, ∀ l ∈ e.book s, (l.orders.head?.map (·.id)).isSome = true := by
      intro s l hl
      obtain ⟨o, os, hos⟩ := exists_cons_of_ne_nil (hs.level hl).nonempty
      simp [hos]
    have hmore : 0 < volumeOf trades := by
      have hsome : trades.head?.isSome = true := by
        rw [← isSome_map (f := Trade.party .buy), hfirst hpos (fun s => ?_) .buy]
        · exact hstarted .buy b (by simp [hbids])
        · cases s
          · exact hstarted .buy b (by simp [hbids])
          · exact hstarted .sell k (by simp [hasks])
      obtain ⟨t, ht⟩ := isSome_iff_exists.mp hsome
      obtain ⟨rest, rfl⟩ := head?_eq_some_iff.mp ht
      obtain ⟨ht, hrest⟩ := List.forall_mem_cons.mp hclear.quantity_pos
      have := volumeOf_nonneg hrest
      rw [volumeOf_cons]
      omega
    have hs₁ := hclear.sound_end
    have hrest : 0 ≤ left - volumeOf trades := by omega
    have hturn₁ : v + volumeOf trades < U → ∀ s, ∀ T ∈ turns (v + volumeOf trades) (e₁.book s), U ≤ T := by
      intro hlt s
      cases s
      · exact (hbid.oldest hlt).1
      · exact (hask.oldest hlt).1
    obtain ⟨trades', e', hr', hclear', hvol'⟩ := ih hs₁ hturn₁ hrest (by omega) (by omega) fun s => by
        rw [hclear.depth s, quantityOf_drain (hs.filled_depth s) (first_reaches hs s price)
          hclear.volume_nonneg (hvol.trans (hdepth s))]
        have := hdepth s
        omega
    rw [show v + volumeOf trades + (left - volumeOf trades) = v + left by omega] at hclear'
    refine ⟨trades ++ trades', e', ?_, hclear.trans hclear', ?_⟩
    · have hgo : ¬(left ≤ 0 ∨ b.price < price ∨ k.price > price) := by omega
      rw [hbids, hasks]
      simp only [head?_cons, map_some]
      unfold auctionLoop
      rw [if_neg hgo]
      have hfb : findLevel b.price (e.book .buy) = some b := by simp [findLevel, hbids]
      have hfk : findLevel k.price (e.book .sell) = some k := by simp [findLevel, hasks]
      simp only [hfb, hfk, hr]
      rw [auctionNextLevel_eq hs₁ hbid hbreach, auctionNextLevel_eq hs₁ hask hkreach]
      exact hr'
    · rw [volumeOf_append, hvol']
      omega

end ExchangeSim
