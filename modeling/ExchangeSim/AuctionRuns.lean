import ExchangeSim.ActionRuns

namespace ExchangeSim

open Engine List Option PriceLevel Holdings

variable {D : Type} {X : Exchange D} {w c : Prop} {P : Move D → Bool} {o : Order} {e : Engine D}
  {extra : List Nat} {H : Holdings} {q price bidPrice askPrice : Int} {s : Side}

theorem settle_mem_other (hH : H.Sound X w extra) {x : Order}
    (ho : o ∈ ordersIn (H.lvls .limit o.side)) (q : Int) (hx : x ∈ ordersIn (H.lvls .limit s))
    (hne : x.id ≠ o.id) : x ∈ ordersIn ((H.settle o q).lvls .limit s) := by
  by_cases hs : s = o.side
  · subst hs
    obtain ⟨A, l, B, Xs, Ys, hsplit, hf⟩ := exists_focus_of_mem (hH.nodup .limit o.side) ho
    have hcount := (hsplit ▸ hH.shape .limit o.side).level.count
    rw [settle_lvls hsplit hf]
    rw [hsplit] at hx
    simp only [ordersIn_append, ordersIn_cons, List.mem_append] at hx ⊢
    rcases hx with hx | hx | hx
    · exact .inl hx
    · refine .inr (.inl ?_)
      have hxy : x ∈ Xs ++ Ys := by
        rw [hf.queue] at hx
        simp only [List.mem_append, List.mem_cons] at hx ⊢
        rcases hx with hx | rfl | hx
        · exact .inl hx
        · exact absurd rfl hne
        · exact .inr hx
      unfold settledLevel
      split
      · split
        · have hq := (hf.fillOrder q).filter_queue
          simp only [toList_some, ordersIn_cons, ordersIn_nil, append_nil,
            reveal, requeue, hq]
          exact mem_append_left _ hxy
        · split
          next hone =>
            have : l.orders.length = (Xs ++ Ys).length + 1 := by simp [hf.queue]; omega
            have hnil : Xs ++ Ys = [] := length_eq_zero_iff.mp (by omega)
            simp [hnil] at hxy
          next =>
            simp only [toList_some, ordersIn_cons, ordersIn_nil, append_nil,
              unlink, hf.filter_queue]
            exact hxy
      · simp only [toList_some, ordersIn_cons, ordersIn_nil, append_nil,
          hf.fillOrder_orders]
        simp only [List.mem_append, List.mem_cons] at hxy ⊢
        rcases hxy with h | h
        · exact .inl h
        · exact .inr (.inr h)
    · exact .inr (.inr hx)
  · rw [settle_lvls_other (by simp [hs])]
    exact hx

theorem settle_mem_self (hH : H.Sound X w extra) (ho : o ∈ ordersIn (H.lvls .limit o.side))
    (hstay : o.remainingQuantity - q ≠ 0 ∨ (o.fill q).hasNextTranche = true) :
    ∃ o' ∈ ordersIn ((H.settle o q).lvls .limit o.side), o'.id = o.id ∧ o'.price = o.price := by
  obtain ⟨A, l, B, Xs, Ys, hsplit, hf⟩ := exists_focus_of_mem (hH.nodup .limit o.side) ho
  rw [settle_lvls hsplit hf]
  unfold settledLevel
  split
  next hz =>
    have ht : (o.fill q).hasNextTranche = true := hstay.resolve_left (by omega)
    refine ⟨{ o.fill q with remainingQuantity := (o.fill q).nextTranche }, ?_, rfl, rfl⟩
    rw [if_pos ht]
    simp [reveal, requeue]
  next =>
    refine ⟨o.fill q, ?_, rfl, rfl⟩
    simp [hf.fillOrder_orders]

theorem Focus.successor_eq {A B : List PriceLevel} {l : PriceLevel} {Xs Ys : List Order}
    (h : Focus o A l B Xs Ys) : successor o.id (A ++ l :: B) = Ys.head?.map (·.id) := by
  have hdrop : l.orders.dropWhile (·.id != o.id) = o :: Ys := by
    rw [h.queue, dropWhile_append_of_pos]
    · simp
    · intro x hx
      simpa using h.inside x (by simp [hx])
  simp [successor, h.levelOf_eq, hdrop]

theorem successor_spec (hH : H.Sound X w extra) (ho : o ∈ ordersIn (H.lvls .limit o.side))
    {id : Nat} (h : successor o.id (H.lvls .limit o.side) = some id) :
    ∃ x ∈ ordersIn (H.lvls .limit o.side), x.id = id ∧ x.id ≠ o.id ∧ x.price = o.price := by
  obtain ⟨A, l, B, Xs, Ys, hsplit, hf⟩ := exists_focus_of_mem (hH.nodup .limit o.side) ho
  have hlevel := (hsplit ▸ hH.shape .limit o.side).level
  rw [hsplit, hf.successor_eq] at h
  obtain ⟨x, hx, rfl⟩ := map_eq_some_iff.mp h
  have hxY : x ∈ Ys := mem_of_mem_head? hx
  have hxl : x ∈ l.orders := by simp [hf.queue, hxY]
  refine ⟨x, ?_, rfl, hf.inside x (by simp [hxY]), ?_⟩
  · rw [hsplit]
    exact mem_ordersIn.mpr ⟨l, by simp, hxl⟩
  · rw [(hlevel.fits x hxl).2.2, (hlevel.fits o (by simp [hf.queue])).2.2]

theorem auctionAdvance_next (o : Order) (next : Option Nat) (ts : Int) (e : Engine D) :
    (e.auctionAdvance o next ts).2 = (e.auctionAdvance o none ts).2 := by
  unfold auctionAdvance
  split <;> rfl

theorem auctionAdvance_fst (o : Order) (next : Option Nat) (ts : Int) (e : Engine D) :
    (e.auctionAdvance o next ts).1 =
      if o.remainingQuantity ≠ 0 ∨ o.hasNextTranche = true then some o.id else next := by
  unfold auctionAdvance auctionHandleFilledOrder
  by_cases hz : o.remainingQuantity = 0
  · by_cases ht : o.hasNextTranche = true <;> simp [hz, ht]
  · simp [hz]

theorem auctionAdvance_bookCross (price ts : Int) (bid ask : Order) (q : Int)
    (nextBid nextAsk : Option Nat) (e : Engine D) :
    ((((e.auctionTrade X price ts (bid.fill q) (ask.fill q) q).auctionAdvance (bid.fill q) nextBid
      ts).2).auctionAdvance (ask.fill q) nextAsk ts).2 = e.bookCross X price ts bid ask q := by
  rw [auctionAdvance_next, auctionAdvance_next (bid.fill q)]
  rfl

def Engine.Cursor (e : Engine D) (s : Side) (price : Int) (p : Option Nat) : Prop :=
  ∀ id ∈ p, ∃ o ∈ ordersIn (e.book s), o.id = id ∧ o.price = price

/-- The order of its side an auction goes on with after a fill of `q`, if there is one. -/
def Order.goesOn (o : Order) (q : Int) (lvls : List PriceLevel) : Option Nat :=
  if (o.fill q).remainingQuantity ≠ 0 ∨ (o.fill q).hasNextTranche = true then some o.id
  else successor o.id lvls

theorem settle_cursor (hH : H.Sound X w extra) (ho : o ∈ ordersIn (H.lvls .limit o.side)) {id : Nat}
    (h : o.goesOn q (H.lvls .limit o.side) = some id) :
    ∃ x ∈ ordersIn ((H.settle o q).lvls .limit o.side), x.id = id ∧ x.price = o.price := by
  unfold Order.goesOn at h
  split at h
  next hstay =>
    obtain rfl := some.inj h
    exact settle_mem_self hH ho hstay
  next =>
    obtain ⟨x, hx, rfl, hne, hprice⟩ := successor_spec hH ho h
    exact ⟨x, settle_mem_other hH ho q hx hne, rfl, hprice⟩

theorem cross_run (ts : Int) (hP : ∀ b k q, P (.cross price ts b k q) = true) {bid ask : Order}
    (hs : World.Sound X w ⟨e, none⟩) (hbid : bid ∈ ordersIn (e.book .buy))
    (hask : ask ∈ ordersIn (e.book .sell)) (hbp : bid.price = bidPrice) (hap : ask.price = askPrice)
    (hb : price ≤ bidPrice) (hk : askPrice ≤ price)
    (hq : w → 0 < q ∧ q ≤ bid.remainingQuantity ∧ q ≤ ask.remainingQuantity) :
    let e₁ := e.auctionTrade X price ts (bid.fill q) (ask.fill q) q
    let b := e₁.auctionAdvance (bid.fill q) (successor bid.id (e.book .buy)) ts
    let k := b.2.auctionAdvance (ask.fill q) (successor ask.id (e.book .sell)) ts
    OpRun X w c P ⟨e, none⟩ ⟨k.2, none⟩ ∧
      k.2.Cursor .buy bidPrice b.1 ∧ k.2.Cursor .sell askPrice k.1 := by
  intro e₁ b k
  have hH : e.holdings.Sound X w [] := hs.holds_none rfl
  have hbuy : bid.side = .buy := hH.side_eq (k := .limit) hbid
  have hsell : ask.side = .sell := hH.side_eq (k := .limit) hask
  have hrb : e.rests bid := by rw [rests, hbuy]; exact hbid
  have hrk : e.rests ask := by rw [rests, hsell]; exact hask
  have hcross : k.2 = e.bookCross X price ts bid ask q :=
    auctionAdvance_bookCross price ts bid ask q _ _ e
  have hrun : OpRun X w c P ⟨e, none⟩ ⟨k.2, none⟩ := by
    rw [hcross]
    exact OpRun.step (.cross price ts bid ask q)
      ⟨rfl, hrb, hbuy, by omega, hrk, hsell, by omega⟩ hq (fun _ => rfl) trivial (hP _ _ _)
  obtain ⟨A, l, B, Xs, Ys, hsplit, hf⟩ := exists_focus_of_mem (hH.nodup .limit .buy) hbid
  obtain ⟨A', l', B', Xs', Ys', hsplit', hf'⟩ := exists_focus_of_mem (hH.nodup .limit .sell) hask
  have hlvls : ∀ s, k.2.book s =
      ((e.holdings.settle bid q).settle ask q).lvls .limit s := by
    intro s
    rw [hcross]
    exact congrArg (fun H => H.lvls .limit s)
      (holdings_bookCross X price ts q hbuy hsell hsplit hf hsplit' hf')
  have hsound₁ := hH.settle hrb fun hw => (hq hw).2.1
  have hasks : (e.holdings.settle bid q).lvls .limit .sell = e.book .sell :=
    settle_lvls_other (by simp [hbuy]) q
  refine ⟨hrun, fun id hid => ?_, fun id hid => ?_⟩
  · rw [auctionAdvance_fst] at hid
    rw [hlvls, settle_lvls_other (by simp [hsell]), ← hbuy, ← hbp]
    refine settle_cursor hH hrb ?_
    rw [hbuy]
    exact hid
  · rw [auctionAdvance_fst] at hid
    rw [hlvls, ← hsell, ← hap]
    refine settle_cursor hsound₁ (by rw [hsell, hasks]; exact hask) ?_
    rw [hsell, hasks]
    exact hid

theorem findOrder_of_mem {lvls : List PriceLevel} (hn : (idsIn lvls).Nodup)
    (ho : o ∈ ordersIn lvls) : findOrder o.id lvls = some o := by
  obtain ⟨A, l, B, Xs, Ys, rfl, hf⟩ := exists_focus_of_mem hn ho
  exact hf.findOrder_eq

def StretchOutcome {α : Type} (X : Exchange D) (w c : Prop) (P : Move D → Bool) (e : Engine D) :
    Outcome D (α × Engine D) → Prop
  | .ok (_, e') => OpRun X w c P ⟨e, none⟩ ⟨e', none⟩
  | .error (fault, e') => fault.expected ∧ OpRun X w c P ⟨e, none⟩ ⟨e', none⟩

theorem StretchOutcome.after {α : Type} {e' : Engine D} (hrun : OpRun X w c P ⟨e, none⟩ ⟨e', none⟩)
    {r : Outcome D (α × Engine D)} (h : StretchOutcome X w c P e' r) :
    StretchOutcome X w c P e r := by
  cases r with
  | ok r => exact Machine.Run.trans hrun h
  | error r => exact ⟨h.1, Machine.Run.trans hrun h.2⟩

theorem auctionLevel_noBid (price ts : Int) (fuel : Nat) (left : Int) (ask : Option Nat)
    (e : Engine D) : e.auctionLevel X price ts fuel left none ask = .ok (left, e) := by
  cases fuel <;> rfl

theorem auctionLevel_noAsk (price ts : Int) (fuel : Nat) (left : Int) (bid : Option Nat)
    (e : Engine D) : e.auctionLevel X price ts fuel left bid none = .ok (left, e) := by
  cases fuel <;> cases bid <;> rfl

theorem auctionLevel_run {ts : Int} (hP : ∀ b k q, P (.cross price ts b k q) = true)
    (hb : price ≤ bidPrice) (hk : askPrice ≤ price) (fuel : Nat) (left : Int)
    {bidId askId : Option Nat} (hs : World.Sound X w ⟨e, none⟩)
    (hbid : e.Cursor .buy bidPrice bidId) (hask : e.Cursor .sell askPrice askId) :
    StretchOutcome X w c P e (e.auctionLevel X price ts fuel left bidId askId) := by
  induction fuel generalizing left bidId askId e with
  | zero =>
    cases bidId with
    | none => rw [auctionLevel_noBid]; exact .refl
    | some bidId =>
      cases askId with
      | none => rw [auctionLevel_noAsk]; exact .refl
      | some askId =>
        unfold auctionLevel
        split
        · exact .refl
        · exact ⟨trivial, .refl⟩
  | succ fuel ih =>
    cases bidId with
    | none => rw [auctionLevel_noBid]; exact .refl
    | some bidId =>
      cases askId with
      | none => rw [auctionLevel_noAsk]; exact .refl
      | some askId =>
        have hH : e.holdings.Sound X w [] := hs.holds_none rfl
        obtain ⟨bid, hbmem, rfl, hbp⟩ := hbid bidId rfl
        obtain ⟨ask, hkmem, rfl, hap⟩ := hask askId rfl
        have hfb : findOrder bid.id (e.book .buy) = some bid :=
          findOrder_of_mem (hH.nodup .limit .buy) hbmem
        have hfk : findOrder ask.id (e.book .sell) = some ask :=
          findOrder_of_mem (hH.nodup .limit .sell) hkmem
        unfold auctionLevel
        split
        · exact .refl
        next hleft =>
          simp only [hfb, hfk]
          have hq : w → 0 < min left (min bid.remainingQuantity ask.remainingQuantity) ∧
              min left (min bid.remainingQuantity ask.remainingQuantity) ≤ bid.remainingQuantity ∧
              min left (min bid.remainingQuantity ask.remainingQuantity) ≤
                ask.remainingQuantity := by
            intro hw
            have := hH.remaining_pos (k := .limit) hbmem hw
            have := hH.remaining_pos (k := .limit) hkmem hw
            omega
          obtain ⟨hrun, hcb, hck⟩ := cross_run ts hP hs hbmem hkmem hbp hap hb hk hq
          exact StretchOutcome.after hrun (ih _ (OpRun.sound hrun hs) hcb hck)

def Engine.LevelCursor (e : Engine D) (s : Side) (p : Option Int) : Prop :=
  ∀ price ∈ p, (findLevel price (e.book s)).isSome = true

theorem levelCursor_head (e : Engine D) (s : Side) :
    e.LevelCursor s ((e.book s).head?.map (·.price)) := by
  intro price hp
  obtain ⟨l, hl, rfl⟩ := map_eq_some_iff.mp hp
  rw [findLevel, find?_isSome]
  exact ⟨l, mem_of_mem_head? hl, by simp⟩

theorem levelCursor_next (e : Engine D) (s : Side) (price current : Int) :
    e.LevelCursor s (e.auctionNextLevel s price current) := by
  unfold auctionNextLevel
  split
  · exact levelCursor_head e s
  next lv hfind =>
    split
    · exact levelCursor_head e s
    · split
      · simp [LevelCursor]
      · intro p hp
        obtain rfl : lv.price = p := by simpa using hp
        have hprice : lv.price = current := by simpa using find?_some hfind
        rw [hprice, hfind]
        rfl

theorem findLevel_cursor (hH : e.holdings.Sound X w []) {lv : PriceLevel}
    (h : findLevel price (e.book s) = some lv) : e.Cursor s price (lv.orders.head?.map (·.id)) := by
  intro id hid
  obtain ⟨o, ho, rfl⟩ := map_eq_some_iff.mp hid
  have hlv : lv ∈ e.book s := mem_of_find?_eq_some h
  have hprice : lv.price = price := by simpa using find?_some h
  have hmem : o ∈ lv.orders := mem_of_mem_head? ho
  refine ⟨o, mem_ordersIn.mpr ⟨lv, hlv, hmem⟩, rfl, ?_⟩
  rw [← hprice]
  exact (((hH.shape .limit s).sound lv hlv).fits o hmem).2.2

theorem auctionLoop_noBid (price ts : Int) (fuel rounds : Nat) (left : Int) (ask : Option Int)
    (e : Engine D) : e.auctionLoop X price ts fuel rounds left none ask = .ok e := by
  cases rounds <;> rfl

theorem auctionLoop_noAsk (price ts : Int) (fuel rounds : Nat) (left : Int) (bid : Option Int)
    (e : Engine D) : e.auctionLoop X price ts fuel rounds left bid none = .ok e := by
  cases rounds <;> cases bid <;> rfl

theorem auctionLoop_run (price ts : Int) (hP : ∀ b k q, P (.cross price ts b k q) = true)
    (fuel rounds : Nat) (left : Int) {bidPrice askPrice : Option Int}
    (hs : World.Sound X w ⟨e, none⟩) (hbid : e.LevelCursor .buy bidPrice)
    (hask : e.LevelCursor .sell askPrice) :
    OpOutcome X w c P ⟨e, none⟩
      (e.auctionLoop X price ts fuel rounds left bidPrice askPrice) := by
  induction rounds generalizing left bidPrice askPrice e with
  | zero =>
    cases bidPrice with
    | none => rw [auctionLoop_noBid]; exact .refl
    | some bidPrice =>
      cases askPrice with
      | none => rw [auctionLoop_noAsk]; exact .refl
      | some askPrice =>
        unfold auctionLoop
        split
        · exact .refl
        · exact ⟨trivial, none, .refl⟩
  | succ rounds ih =>
    cases bidPrice with
    | none => rw [auctionLoop_noBid]; exact .refl
    | some bidPrice =>
      cases askPrice with
      | none => rw [auctionLoop_noAsk]; exact .refl
      | some askPrice =>
        unfold auctionLoop
        split
        · exact .refl
        next hgo =>
          obtain ⟨bidLevel, hfb⟩ := isSome_iff_exists.mp (hbid bidPrice rfl)
          obtain ⟨askLevel, hfk⟩ := isSome_iff_exists.mp (hask askPrice rfl)
          have hH : e.holdings.Sound X w [] := hs.holds_none rfl
          simp only [hfb, hfk]
          have hlevel := auctionLevel_run (c := c) hP
            (show price ≤ bidPrice by omega) (show askPrice ≤ price by omega) fuel left hs
            (findLevel_cursor hH hfb) (findLevel_cursor hH hfk)
          cases hr : e.auctionLevel X price ts fuel left (bidLevel.orders.head?.map (·.id))
              (askLevel.orders.head?.map (·.id)) with
          | error err =>
            rw [hr] at hlevel
            exact ⟨hlevel.1, none, hlevel.2⟩
          | ok r =>
            rw [hr] at hlevel
            exact OpOutcome.after hlevel (ih _ (OpRun.sound hlevel hs)
              (levelCursor_next _ _ _ _) (levelCursor_next _ _ _ _))

theorem executeAuction_run (fuel : Nat) (referencePrice ts : Int) (hs : World.Sound X w ⟨e, none⟩) :
    OpOutcome X w c (Move.partOf (.executeAuction referencePrice ts)) ⟨e, none⟩
      (e.executeAuction X fuel referencePrice ts) := by
  unfold executeAuction
  dsimp only
  split
  · exact .refl
  · have hloop := auctionLoop_run (c := c)
      (P := Move.partOf (.executeAuction referencePrice ts))
      (calculateAuctionPrice e.book referencePrice).price ts (fun _ _ _ => rfl) fuel fuel
      (calculateAuctionPrice e.book referencePrice).matchedVolume hs
      (levelCursor_head e .buy) (levelCursor_head e .sell)
    split
    next err hr =>
      rw [hr] at hloop
      exact hloop
    next e' hr =>
      rw [hr] at hloop
      have htob := OpRun.step (X := X) (w := w) (c := c) (P := Move.partOf (.executeAuction referencePrice ts))
        (W := ⟨e', none⟩) (.topOfBook ts) trivial (fun _ => trivial) (fun _ => rfl) trivial rfl
      exact Machine.Run.trans hloop (Machine.Run.trans htob (OpRun.step
        (.reference (calculateAuctionPrice e.book referencePrice).price) trivial
        (fun _ => trivial) (fun _ => rfl) trivial rfl))

end ExchangeSim
