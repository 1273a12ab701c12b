import ExchangeSim.Settle

namespace ExchangeSim

open Engine PriceLevel Holdings Move

variable {D : Type} {X : Exchange D} {w : Prop} {o stop : Order} {e : Engine D} {k : Shelf}
  {extra : List Nat} {s : Side} {req : OrderRequest} {H : Holdings} {price ts : Int}

namespace Holdings

variable {extra : List Nat} {H : Holdings}

theorem Sound.disjoint (h : H.Sound X w extra) {k' : Shelf} {s' : Side} (hne : ¬(k' = k ∧ s' = s))
    {id : Nat} (hid : id ∈ idsIn (H.lvls k s)) : id ∉ idsIn (H.lvls k' s') :=
  ids_disjoint (List.nodup_append.mp h.owns.nodup).2.1 hne hid

theorem Sound.has_eq_false (h : H.Sound X w extra) (k k' : Shelf) (s s' : Side)
    (hne : ¬(k' = k ∧ s' = s)) (ho : o ∈ ordersIn (H.lvls k s)) :
    ∀ m ∈ H.lvls k' s', m.has o.id = false := by
  intro m hm
  rw [PriceLevel.has_eq_false]
  intro x hx he
  have hid : o.id ∈ idsIn (H.lvls k s) := mem_idsIn.mpr ⟨o, ho, rfl⟩
  exact h.disjoint hne hid (mem_idsIn.mpr ⟨x, mem_ordersIn.mpr ⟨m, hm, hx⟩, he⟩)

theorem set_eq_self (H : Holdings) (k : Shelf) (s : Side) : H.set k s (H.lvls k s) = H := by
  simp [set]

end Holdings

theorem onLevelOf_eq_self {id : Nat} {lvls : List PriceLevel}
    (h : ∀ m ∈ lvls, m.has id = false) (f : PriceLevel → PriceLevel) :
    onLevelOf id f lvls = lvls := by
  apply map_eq_self
  intro m hm
  simp [h m hm]

/-- An order changed in place with the total of its level moved by `delta`. -/
def PriceLevel.adjust (o : Order) (f : Order → Order) (delta : Int) (l : PriceLevel) :
    PriceLevel :=
  { l with
    orders := l.orders.map fun x => if x.id = o.id then f x else x
    totalQuantity := l.totalQuantity + delta }

theorem Focus.adjust_orders {A B : List PriceLevel} {l : PriceLevel} {Xs Ys : List Order}
    (h : Focus o A l B Xs Ys) (f : Order → Order) (delta : Int) :
    (l.adjust o f delta).orders = Xs ++ f o :: Ys := by
  have keep : ∀ (os : List Order), (∀ x ∈ os, x.id ≠ o.id) →
      os.map (fun x => if x.id = o.id then f x else x) = os := by
    intro os hos
    apply map_eq_self
    intro x hx
    simp [hos x hx]
  simp [PriceLevel.adjust, h.queue, keep Xs fun x hx => h.inside x (by simp [hx]),
    keep Ys fun y hy => h.inside y (by simp [hy])]

theorem holdings_adjustOrder (e : Engine D) (o : Order) (f : Order → Order) (delta : Int) :
    (e.adjustOrder o f delta).holdings =
      (e.holdings.set .limit o.side (onLevelOf o.id (adjust o f delta)
        (e.holdings.lvls .limit o.side))).set .stop o.side
        (onLevelOf o.id (adjust o f delta) (e.holdings.lvls .stop o.side)) := by
  rw [← holdings_setBook, ← holdings_setStopBook]
  rfl

theorem Holdings.Sound.onBoth_eq (h : H.Sound X w extra) (ho : o ∈ ordersIn (H.lvls k o.side))
    (f : PriceLevel → PriceLevel) :
    (H.set .limit o.side (onLevelOf o.id f (H.lvls .limit o.side))).set .stop o.side
      (onLevelOf o.id f (H.lvls .stop o.side)) =
        H.set k o.side (onLevelOf o.id f (H.lvls k o.side)) := by
  cases k with
  | limit =>
    have hother := h.has_eq_false .limit .stop o.side o.side (by simp) ho
    rw [onLevelOf_eq_self hother]
    exact set_eq_self (H.set .limit o.side _) .stop o.side
  | stop =>
    have hother := h.has_eq_false .stop .limit o.side o.side (by simp) ho
    rw [onLevelOf_eq_self hother, set_eq_self]

theorem Holdings.Sound.onBoth (h : H.Sound X w extra) (ho : o ∈ ordersIn (H.lvls k o.side))
    (f : PriceLevel → PriceLevel) :
    ∃ A l B Xs Ys, H.lvls k o.side = A ++ l :: B ∧ Focus o A l B Xs Ys ∧
      (H.set .limit o.side (onLevelOf o.id f (H.lvls .limit o.side))).set .stop o.side
        (onLevelOf o.id f (H.lvls .stop o.side)) = H.set k o.side (A ++ f l :: B) := by
  obtain ⟨A, l, B, Xs, Ys, hsplit, hf⟩ := exists_focus_of_mem (h.nodup k o.side) ho
  refine ⟨A, l, B, Xs, Ys, hsplit, hf, ?_⟩
  rw [h.onBoth_eq ho, hsplit, hf.onLevelOf_eq]

theorem Holdings.Sound.adjustOrder_holdings (h : e.holdings.Sound X w extra)
    (ho : o ∈ ordersIn (e.shelf k o.side)) (f : Order → Order) (delta : Int) :
    ∃ A l B Xs Ys, e.holdings.lvls k o.side = A ++ l :: B ∧ Focus o A l B Xs Ys ∧
      (e.adjustOrder o f delta).holdings =
        e.holdings.set k o.side (A ++ l.adjust o f delta :: B) := by
  rw [holdings_adjustOrder]
  exact h.onBoth ho (adjust o f delta)

theorem Holdings.Sound.adjustOrder (h : e.holdings.Sound X w extra)
    (ho : o ∈ ordersIn (e.shelf k o.side)) (f : Order → Order) (delta : Int) (hid : (f o).id = o.id)
    (hfits : ∀ price, k.fits o.side price o → k.fits o.side price (f o))
    (hdelta : (f o).remainingQuantity - o.remainingQuantity = delta)
    (hpos : w → 0 < (f o).remainingQuantity) :
    (e.adjustOrder o f delta).holdings.Sound X w extra := by
  obtain ⟨A, l, B, Xs, Ys, hsplit, hf, heq⟩ := h.adjustOrder_holdings ho f delta
  have hlevel := (hsplit ▸ h.shape k o.side).level
  rw [heq]
  refine h.updateLevel hsplit rfl ?_ ?_
  · have hu := hlevel.update hf (hfits _ (hlevel.fits o (by simp [hf.queue]))) hpos
    rw [hdelta, ← hf.adjust_orders f delta] at hu
    exact hu
  · simp [hf.adjust_orders, hf.queue, hid]

theorem Holdings.Sound.amendOrder {req : ModifyRequest} (h : e.holdings.Sound X w extra)
    (ho : o ∈ ordersIn (e.shelf k o.side)) (hlt : o.filledQuantity < req.newQuantity) :
    (e.amendOrder o req).holdings.Sound X w extra := by
  have hadj := h.adjustOrder ho
    (fun x => { x with
      quantity := req.newQuantity
      remainingQuantity := req.newQuantity - o.filledQuantity })
    (-(o.remainingQuantity - (req.newQuantity - o.filledQuantity)))
    rfl (fun _ hfit => Shelf.fits_congr hfit rfl rfl rfl) (by simp only; omega)
    (fun _ => by simp only; omega)
  unfold Engine.amendOrder
  dsimp only
  split <;> simpa using hadj

structure World.Sound (X : Exchange D) (w : Prop) (W : World D) : Prop where
  holds : W.engine.holdings.Sound X w (W.flight.toList.map (·.id))
  flight : ∀ o ∈ W.flight, w → 0 ≤ o.remainingQuantity

namespace World.Sound

variable {W : World D}

theorem holds_some (h : W.Sound X w) (hf : W.flight = some o) :
    W.engine.holdings.Sound X w [o.id] := by
  simpa [hf] using h.holds

theorem holds_none (h : W.Sound X w) (hf : W.flight = none) :
    W.engine.holdings.Sound X w [] := by
  simpa [hf] using h.holds

theorem keep (h : W.Sound X w) (he : e.holdings = W.engine.holdings) :
    World.Sound X w { W with engine := e } where
  holds := by simpa [he] using h.holds
  flight := h.flight

theorem land (h : e.holdings.Sound X w []) : World.Sound X w ⟨e, none⟩ where
  holds := by simpa using h
  flight := by simp

theorem fly (h : e.holdings.Sound X w [o.id]) (hpos : w → 0 ≤ o.remainingQuantity) :
    World.Sound X w ⟨e, some o⟩ where
  holds := by simpa using h
  flight := by simpa using hpos

end World.Sound

theorem firstFailure_eq_none {checks : List (Bool × RejectReason)}
    (h : firstFailure checks = none) {c : Bool × RejectReason} (hc : c ∈ checks) : c.1 = false := by
  unfold firstFailure at h
  rw [Option.map_eq_none_iff, List.find?_eq_none] at h
  simpa using h c hc

theorem quantity_pos_of_checks (h : firstFailure (e.newOrderChecks X req) = none) :
    0 < req.quantity := by
  have := firstFailure_eq_none h (c := (decide (req.quantity ≤ 0), .invalidQuantity))
    (by simp [newOrderChecks])
  simpa using this

theorem displayQty_le_of_checks (h : firstFailure (e.newOrderChecks X req) = none) :
    req.displayQty ≤ req.quantity := by
  have hq := quantity_pos_of_checks h
  have hshow := firstFailure_eq_none h
    (c := (decide (req.displayQty > 0 ∧ req.displayQty > req.quantity), .invalidQuantity))
    (by simp [newOrderChecks])
  simp only [decide_eq_false_iff_not, not_and] at hshow
  omega

theorem buildOrder_remaining_pos (slot : SlotResidue)
    (h : firstFailure (e.newOrderChecks X req) = none) :
    0 < (e.buildOrder X req slot).remainingQuantity := by
  have hq := quantity_pos_of_checks h
  unfold buildOrder
  dsimp only
  split <;> omega

theorem buildOrder_price_of_stop (slot : SlotResidue)
    (h : (e.buildOrder X req slot).type = .stop) :
    (e.buildOrder X req slot).price = req.stopPrice := by
  have hreq : req.type = .stop := h
  simp [buildOrder, hreq]

theorem nextTriggeredStop_mem (h : e.nextTriggeredStop = some stop) :
    ∃ s lv rest, e.stopBook s = lv :: rest ∧ stop ∈ lv.orders := by
  have hlv : ∃ s lv, e.triggeredLevel s = some lv ∧ stop ∈ lv.orders := by
    unfold nextTriggeredStop at h
    split at h
    next lv hb => exact ⟨.buy, lv, hb, List.mem_of_mem_head? h⟩
    next =>
      split at h
      next lv hb => exact ⟨.sell, lv, hb, List.mem_of_mem_head? h⟩
      next => simp at h
  obtain ⟨s, lv, ht, hmem⟩ := hlv
  refine ⟨s, lv, ?_⟩
  unfold triggeredLevel at ht
  split at ht
  next => simp at ht
  next lv' rest hb =>
    split at ht
    · obtain rfl := Option.some.inj ht
      exact ⟨rest, hb, hmem⟩
    · simp at ht
  next lv' rest hb =>
    split at ht
    · obtain rfl := Option.some.inj ht
      exact ⟨rest, hb, hmem⟩
    · simp at ht

namespace Holdings.Sound

variable {extra : List Nat} {H : Holdings}

theorem side_eq (h : H.Sound X w extra) (ho : o ∈ ordersIn (H.lvls k s)) : o.side = s := by
  obtain ⟨l, hl, ho⟩ := mem_ordersIn.mp ho
  exact Shelf.fits_side (((h.shape k s).sound l hl).fits o ho)

theorem remaining_pos (h : H.Sound X w extra) (ho : o ∈ ordersIn (H.lvls k s)) (hw : w) :
    0 < o.remainingQuantity := by
  obtain ⟨l, hl, ho⟩ := mem_ordersIn.mp ho
  exact (((h.shape k s).sound l hl).exact hw).positive o ho

theorem enter (h : H.Sound X w (o.id :: extra)) (hfits : k.fits o.side price o)
    (hpos : w → 0 < o.remainingQuantity) : (H.enter k o price).Sound X w extra := by
  rcases halloc : H.levelPool.allocate with _ | ⟨slot, pool⟩
  · rw [enter_none halloc]
    exact h.release
  · rw [enter_some halloc]
    exact h.putIn halloc hfits hpos

end Holdings.Sound

theorem nextTriggeredStop_waits (h : e.holdings.Sound X w extra)
    (hnext : e.nextTriggeredStop = some stop) : e.waits stop := by
  obtain ⟨s, lv, rest, hbook, hmem⟩ := nextTriggeredStop_mem hnext
  have hin : stop ∈ ordersIn (e.holdings.lvls .stop s) :=
    mem_ordersIn.mpr ⟨lv, by simp [holdings, shelf, hbook], hmem⟩
  have hside := h.side_eq hin
  rw [← hside] at hin
  exact hin

namespace World.Sound

variable {W : World D}

theorem fill (h : W.Sound X w) {order resting : Order} {f : FillResult} {left reported : Int}
    (hg : guard X (.fill ts order resting f left reported) W)
    (hx : w → exact (D := D) (.fill ts order resting f left reported)) :
    (run X (.fill ts order resting f left reported) W).Sound X w := by
  obtain ⟨hfl, hm⟩ := hg
  have hH := h.holds_some hfl
  obtain ⟨level, deeper, hbook, hmem, -⟩ := hm.best
  have hin : resting ∈ ordersIn (W.engine.holdings.lvls .limit order.side.opposite) :=
    mem_ordersIn.mpr ⟨level, by simp [holdings, shelf, hbook], hmem⟩
  have hside : resting.side = order.side.opposite := hH.side_eq hin
  obtain ⟨Xs, Ys, hf⟩ := exists_focus (hH.nodup .limit order.side.opposite) (A := []) hbook hmem
  rw [← hside] at hbook hin
  refine World.Sound.fly ?_ fun hw => ?_
  · rw [holdings_bookFill X ts reported hside hbook hf hm.remaining]
    have hq : w → f.quantity ≤ resting.remainingQuantity := by
      intro hw
      have := (hx hw).2.1
      have := hm.remaining
      omega
    have hrec : (W.engine.holdings.settle resting f.quantity).tradeRegistry =
        W.engine.tradeRegistry := settle_tradeRegistry _ _ _
    rw [← hrec]
    exact (hH.settle hin hq).record (fun hw => (hx hw).1) _ _ _ _ _ _ _ _
  · obtain ⟨-, -, hle, hleft⟩ := hx hw
    simp only [hleft]
    omega

theorem cross (h : W.Sound X w) {bid ask : Order} {q : Int}
    (hg : guard X (.cross price ts bid ask q) W)
    (hx : w → exact (D := D) (.cross price ts bid ask q)) :
    (run X (.cross price ts bid ask q) W).Sound X w := by
  obtain ⟨hfl, hbid, hbuy, -, hask, hsell, -⟩ := hg
  have hH := h.holds_none hfl
  have hbid' := hbid
  have hask' := hask
  unfold rests at hbid' hask'
  rw [hbuy] at hbid'
  rw [hsell] at hask'
  obtain ⟨A, l, B, Xs, Ys, hsplit, hf⟩ := exists_focus_of_mem (hH.nodup .limit .buy) hbid'
  obtain ⟨A', l', B', Xs', Ys', hsplit', hf'⟩ := exists_focus_of_mem (hH.nodup .limit .sell) hask'
  have hbids : W.engine.holdings.lvls .limit bid.side = A ++ l :: B := by rw [hbuy]; exact hsplit
  have hne : Side.sell ≠ (bid.fill q).side := by simp [hbuy]
  have hs1 := hH.settle hbid fun hw => (hx hw).2.1
  have hask1 : ask ∈ ordersIn ((W.engine.holdings.settle bid q).lvls .limit ask.side) := by
    rw [← cleanup_booked hbids hf, hsell, cleanup_lvls_other _ hne,
      booked, hbuy, set_other (by simp)]
    exact hask'
  have hs2 := hs1.settle hask1 fun hw => (hx hw).2.2
  have hrec : ((W.engine.holdings.settle bid q).settle ask q).tradeRegistry =
      W.engine.tradeRegistry := by
    rw [settle_tradeRegistry, settle_tradeRegistry]
    rfl
  refine { holds := ?_, flight := by simp [run, hfl] }
  simp only [run, hfl]
  rw [holdings_bookCross X price ts q hbuy hsell hsplit hf hsplit' hf', ← hrec]
  exact hs2.record (fun hw => (hx hw).1) _ _ _ _ _ _ _ _

theorem run (h : W.Sound X w) {m : Move D} (hg : m.guard X W) (hx : w → m.exact) :
    (m.run X W).Sound X w := by
  cases m with
  | note | bust | topOfBook | session | reference | hook => exact h.keep rfl
  | accept req slot pool =>
    obtain ⟨hfl, hpool, hchecks, -⟩ := hg
    refine World.Sound.fly ?_ fun _ => (buildOrder_remaining_pos slot hchecks).le
    exact (h.holds_none hfl).accept rfl hpool
  | adjust order remaining =>
    have hfl : W.flight = some order := hg
    have hH := h.holds_some hfl
    refine World.Sound.fly hH fun hw => ?_
    have hsame : remaining = order.remainingQuantity := hx hw
    have hpos := h.flight order hfl hw
    simp only [hsame]
    exact hpos
  | fill ts order resting f left reported => exact h.fill hg hx
  | cancelResting ts order resting f notify =>
    obtain ⟨hfl, hrest, -, -⟩ := hg
    have hheld := ((h.holds_some hfl).takeOut (k := .limit) hrest).release
    refine World.Sound.fly ?_ (h.flight order hfl)
    cases notify <;> simpa using hheld
  | drop order ts reason => exact World.Sound.land (h.holds_some hg).release
  | finish order => exact World.Sound.land (h.holds_some hg.1).release
  | rest order ts =>
    obtain ⟨hfl, htype, hne⟩ := hg
    refine World.Sound.land ?_
    rw [holdings_insertIntoBook]
    refine (h.holds_some hfl).enter ⟨rfl, htype, rfl⟩ fun hw => ?_
    have := h.flight order hfl hw
    omega
  | park order stopPrice =>
    obtain ⟨hfl, htype, hprice, hne⟩ := hg
    refine World.Sound.land ?_
    rw [holdings_insertIntoStopBook]
    refine (h.holds_some hfl).enter ⟨rfl, htype, hprice⟩ fun hw => ?_
    have := h.flight order hfl hw
    omega
  | trigger stop =>
    obtain ⟨hfl, -, hnext⟩ := hg
    have hH := h.holds_none hfl
    have hin := nextTriggeredStop_waits hH hnext
    have hid : stop.triggered.id = stop.id := by unfold Order.triggered; split <;> rfl
    have hrem : stop.triggered.remainingQuantity = stop.remainingQuantity := by
      unfold Order.triggered
      split <;> rfl
    refine World.Sound.fly ?_ fun hw => ?_
    · rw [holdings_removeStop, hid]
      exact hH.takeOut hin
    · rw [hrem]
      exact (hH.remaining_pos (k := .stop) hin hw).le
  | pull order req =>
    obtain ⟨hfl, hrest⟩ := hg
    have hheld := (h.holds_none hfl).takeOut (k := .limit) hrest
    refine World.Sound.fly (by simpa [Order.replaced] using hheld) fun hw => ?_
    have := hx hw
    simp only [exact] at this
    simp only [Order.replaced]
    omega
  | cancel order ts reason =>
    obtain ⟨hfl, hrest⟩ := hg
    have hheld := ((h.holds_none hfl).takeOut (k := .limit) hrest).release
    exact ⟨by simpa [Move.run, hfl] using hheld, by simp [Move.run, hfl]⟩
  | cancelStop order ts reason =>
    obtain ⟨hfl, hwait⟩ := hg
    have hheld := ((h.holds_none hfl).takeOut (k := .stop) hwait).release
    exact ⟨by simpa [Move.run, hfl] using hheld, by simp [Move.run, hfl]⟩
  | amend order req =>
    obtain ⟨hfl, hrest, hlt, -, -⟩ := hg
    have hheld := (h.holds_none hfl).amendOrder (k := .limit) hrest hlt
    exact ⟨by simpa [Move.run, hfl] using hheld, by simp [Move.run, hfl]⟩
  | cross price ts bid ask q => exact h.cross hg hx
  | markBusted id =>
    exact ⟨(h.holds.markBusted id), h.flight⟩
  | unfill order q =>
    obtain ⟨hfl, hlinked⟩ := hg
    have hH := h.holds_none hfl
    have hadj : ∀ k, order ∈ ordersIn (W.engine.shelf k order.side) →
        (W.engine.adjustOrder order (·.fill (-q)) q).holdings.Sound X w [] := by
      intro k hin
      refine hH.adjustOrder hin _ _ rfl (fun _ hfit => Shelf.fits_congr hfit rfl rfl rfl) ?_ ?_
      · simp [Order.fill]
      · intro hw
        have hrem := hH.remaining_pos hin hw
        have hq := hx hw
        simp only [exact, Order.fill] at hq ⊢
        omega
    refine ⟨?_, by simp [Move.run, hfl]⟩
    simp only [Move.run, hfl]
    rcases hlinked with hin | hin
    · exact hadj .limit hin
    · exact hadj .stop hin

end World.Sound

end ExchangeSim
