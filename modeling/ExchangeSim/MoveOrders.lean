import ExchangeSim.OrdersById

namespace ExchangeSim

open Engine List Function Holdings Move

variable {D : Type} {X : Exchange D} {w : Prop} {W : World D} {o order resting bid ask o' : Order}
  {e : Engine D} {f : FillResult} {price ts q : Int}

def World.view (W : World D) : Nat → Option Order :=
  byId (W.flight.toList ++ W.engine.holdings.orders)

theorem World.id_ne {a b : Order} (ha : W.view a.id = some a)
    (hb : W.view b.id = some b) (hside : a.side ≠ b.side) : a.id ≠ b.id := by
  intro he
  rw [he, hb] at ha
  exact hside (by rw [Option.some.inj ha])

namespace World.Sound

section

variable (h : W.Sound X w)

include h

theorem nodup :
    ((W.flight.toList ++ W.engine.holdings.orders).map (·.id)).Nodup := by
  rw [map_append, ← ids_eq]
  exact h.holds.owns.nodup

theorem view_flight (hf : W.flight = some o) : W.view o.id = some o :=
  (byId_eq_some h.nodup).mpr ⟨by simp [hf], rfl⟩

theorem view_linked (ho : o ∈ W.engine.holdings.orders) : W.view o.id = some o :=
  (byId_eq_some h.nodup).mpr ⟨by simp [ho], rfl⟩

theorem view_rests (ho : W.engine.rests o) : W.view o.id = some o := by
  have hmem : o ∈ ordersIn (W.engine.book o.side) := ho
  refine h.view_linked ?_
  cases hs : o.side <;> rw [hs] at hmem <;>
    simp [orders, holdings, shelf, hmem]

theorem view_waits (ho : W.engine.waits o) : W.view o.id = some o := by
  have hmem : o ∈ ordersIn (W.engine.stopBook o.side) := ho
  refine h.view_linked ?_
  cases hs : o.side <;> rw [hs] at hmem <;>
    simp [orders, holdings, shelf, hmem]

theorem rests_of_meets (hm : W.engine.Meets order resting f) :
    W.engine.rests resting ∧ resting.side = order.side.opposite ∧ resting.price = f.price ∧
      resting.type = .limit := by
  obtain ⟨level, deeper, hbook, hmem, hprice⟩ := hm.best
  have hl : level ∈ W.engine.holdings.lvls .limit order.side.opposite := by
    simp [holdings, shelf, hbook]
  have hfits := ((h.holds.shape .limit _).sound level hl).fits resting hmem
  have hin : resting ∈ ordersIn (W.engine.book order.side.opposite) :=
    mem_ordersIn.mpr ⟨level, hl, hmem⟩
  refine ⟨?_, hfits.1, hfits.2.2.trans hprice.symm, hfits.2.1⟩
  rw [rests, hfits.1]
  exact hin

theorem fill_lvls (hfl : W.flight = some order)
    (hm : W.engine.Meets order resting f) (ts reported : Int) :
    (W.engine.bookFill X ts order resting f reported).holdings.lvls =
      (W.engine.holdings.settle resting f.quantity).lvls := by
  obtain ⟨hrest, hside, -, -⟩ := h.rests_of_meets hm
  obtain ⟨A, l, B, Xs, Ys, hsplit, hf⟩ :=
    exists_focus_of_mem ((h.holds_some hfl).nodup .limit resting.side) hrest
  rw [holdings_bookFill X ts reported hside hsplit hf hm.remaining]
  rfl

theorem cross_lvls (hg : guard X (.cross price ts bid ask q) W) :
    (W.engine.bookCross X price ts bid ask q).holdings.lvls =
      ((W.engine.holdings.settle bid q).settle ask q).lvls := by
  obtain ⟨hfl, hbid, hbuy, -, hask, hsell, -⟩ := hg
  have hH := h.holds_none hfl
  obtain ⟨A, l, B, Xs, Ys, hsplit, hf⟩ := exists_focus_of_mem (hH.nodup .limit bid.side) hbid
  obtain ⟨A', l', B', Xs', Ys', hsplit', hf'⟩ :=
    exists_focus_of_mem (hH.nodup .limit ask.side) hask
  rw [holdings_bookCross X price ts q hbuy hsell (hbuy ▸ hsplit) hf (hsell ▸ hsplit') hf']
  rfl

end

end World.Sound

def Move.write (X : Exchange D) : Move D → World D → (Nat → Option Order) → Nat → Option Order
  | .accept req slot _, W, v =>
    Function.update v W.engine.nextOrderId (some (W.engine.buildOrder X req slot))
  | .adjust order remaining, _, v =>
    Function.update v order.id (some { order with remainingQuantity := remaining })
  | .fill _ order resting f left _, _, v =>
    Function.update (Function.update v resting.id (resting.settled f.quantity)) order.id
      (some { order with
        filledQuantity := order.filledQuantity + f.quantity
        remainingQuantity := left })
  | .cancelResting _ _ resting _ _, _, v => Function.update v resting.id none
  | .drop order _ _, _, v => Function.update v order.id none
  | .finish order, _, v => Function.update v order.id none
  | .rest order _, W, v =>
    if W.engine.levelPool.allocate.isNone then Function.update v order.id none else v
  | .park order _, W, v =>
    if W.engine.levelPool.allocate.isNone then Function.update v order.id none else v
  | .trigger stop, _, v => Function.update v stop.id (some stop.triggered)
  | .pull order req, _, v => Function.update v order.id (some (order.replaced req))
  | .cancel order _ _, _, v => Function.update v order.id none
  | .cancelStop order _ _, _, v => Function.update v order.id none
  | .amend order req, _, v =>
    Function.update v order.id (some { order with
      quantity := req.newQuantity
      remainingQuantity := req.newQuantity - order.filledQuantity })
  | .cross _ _ bid ask q, _, v =>
    Function.update (Function.update v bid.id (bid.settled q)) ask.id (ask.settled q)
  | .unfill order q, _, v => Function.update v order.id (some (order.fill (-q)))
  | _, _, v => v

theorem Order.triggered_id (stop : Order) : stop.triggered.id = stop.id := by
  unfold Order.triggered
  split <;> rfl

theorem World.view_reflight (hf : W.flight = some o) (hid : o'.id = o.id) :
    World.view ⟨e, some o'⟩ =
      update (World.view { W with engine := e }) o.id (some o') := by
  rw [World.view, World.view, hf]
  simp only [Option.toList_some, singleton_append]
  rw [byId_cons, byId_cons, hid, update_idem]

namespace World.Sound

section

variable (h : W.Sound X w)

include h

theorem view_flight_replace {o' : Option Order} (hf : W.flight = some o)
    (he : e.holdings.orders = W.engine.holdings.orders) (hid : ∀ x ∈ o', x.id = o.id) :
    World.view ⟨e, o'⟩ = update W.view o.id o' := by
  refine byId_replace h.nodup (R := W.engine.holdings.orders) ?_ ?_ hid
  · rw [hf]
    exact Perm.refl _
  · rw [he]

theorem view_linked_replace {o' : Option Order} {rest : List Order}
    (hold : W.engine.holdings.orders.Perm (o :: rest))
    (hnew : e.holdings.orders.Perm (o'.toList ++ rest)) (hid : ∀ x ∈ o', x.id = o.id) :
    World.view { W with engine := e } = update W.view o.id o' := by
  refine byId_replace h.nodup (R := W.flight.toList ++ rest) ?_ ?_ hid
  · exact (hold.append_left _).trans perm_middle
  · refine (hnew.append_left _).trans ?_
    rw [← List.append_assoc, ← List.append_assoc]
    exact perm_append_comm.append_right _

theorem view_takeOff (hf : W.flight = none)
    (hold : W.engine.holdings.orders.Perm (o :: e.holdings.orders)) (hid : o'.id = o.id) :
    World.view ⟨e, some o'⟩ = update W.view o.id (some o') := by
  refine byId_replace h.nodup (R := e.holdings.orders) ?_ (Perm.refl _) (by simpa using hid)
  rw [hf]
  exact hold

theorem view_enter {k : Shelf} (hf : W.flight = some o)
    (he : e.holdings = W.engine.holdings.enter k o price) :
    World.view ⟨e, none⟩ =
      if W.engine.levelPool.allocate.isNone then update W.view o.id none else W.view := by
  have hH := h.holds_some hf
  rcases halloc : W.engine.levelPool.allocate with _ | ⟨slot, pool⟩
  · rw [enter_none halloc] at he
    simpa using h.view_flight_replace hf (by rw [he]; rfl) (by simp)
  · rw [enter_some halloc] at he
    have hp := hH.putIn_orders k o price pool
    simp only [Option.isNone_some, Bool.false_eq_true, if_false]
    refine (byId_perm h.nodup ?_).symm
    rw [hf, he]
    exact hp.symm

theorem view_fill {left reported : Int}
    (hg : guard X (.fill ts order resting f left reported) W) :
    (Move.run X (.fill ts order resting f left reported) W).view =
      write X (.fill ts order resting f left reported) W W.view := by
  obtain ⟨hfl, hm⟩ := hg
  have hH := h.holds_some hfl
  obtain ⟨hrest, hside, -, -⟩ := h.rests_of_meets hm
  obtain ⟨A, l, B, Xs, Ys, hsplit, hf⟩ := exists_focus_of_mem (hH.nodup .limit resting.side) hrest
  obtain ⟨rest, hold, hnew⟩ := hH.settle_orders hrest f.quantity
  have he := holdings_bookFill X ts reported hside hsplit hf hm.remaining
  have hlinked := h.view_linked_replace (e := W.engine.bookFill X ts order resting f reported)
    hold (by rw [he]; exact hnew) fun x hx => Order.settled_id hx
  rw [write, ← hlinked]
  exact World.view_reflight hfl rfl

theorem view_cross (hg : Move.guard X (.cross price ts bid ask q) W) :
    (Move.run X (.cross price ts bid ask q) W).view =
      Move.write X (.cross price ts bid ask q) W W.view := by
  obtain ⟨hfl, hbid, hbuy, -, hask, hsell, -⟩ := hg
  have hH := (h.holds_none hfl).mono (fun h : False => h.elim)
  obtain ⟨A, l, B, Xs, Ys, hsplit, hf⟩ := exists_focus_of_mem (hH.nodup .limit bid.side) hbid
  obtain ⟨A', l', B', Xs', Ys', hsplit', hf'⟩ :=
    exists_focus_of_mem (hH.nodup .limit ask.side) hask
  obtain ⟨rest, hold, hnew⟩ := hH.settle_orders hbid q
  have hask' : ask ∈ ordersIn ((W.engine.holdings.settle bid q).lvls .limit ask.side) := by
    rw [Holdings.settle_lvls_other (by simp [hbuy, hsell])]
    exact hask
  obtain ⟨rest', hold', hnew'⟩ := (hH.settle hbid False.elim).settle_orders hask' q
  have he := holdings_bookCross X price ts q hbuy hsell (hbuy ▸ hsplit) hf (hsell ▸ hsplit') hf'
  have hn : (W.engine.holdings.orders.map (·.id)).Nodup := by
    simpa [hfl] using h.nodup
  have hid : ∀ (o : Order), ∀ x ∈ o.settled q, x.id = o.id := fun o x hx => Order.settled_id hx
  have hn' := nodup_replace hn hold hnew (hid bid)
  have hview : ∀ e : Engine D, World.view { W with engine := e } = byId e.holdings.orders := by
    intro e
    simp [World.view, hfl]
  have hW : W.view = byId W.engine.holdings.orders := hview W.engine
  simp only [Move.run, Move.write]
  rw [hview, he, hW, ← byId_replace hn hold hnew (hid bid)]
  exact byId_replace hn' hold' hnew' (hid ask)

theorem view_run {m : Move D} (hg : m.guard X W) :
    (m.run X W).view = m.write X W W.view := by
  cases m with
  | accept req slot pool =>
    obtain ⟨hfl, -, -, -⟩ := hg
    have hW : W.view = byId W.engine.holdings.orders := by simp [World.view, hfl]
    rw [hW]
    exact byId_cons (W.engine.buildOrder X req slot) _
  | adjust | drop => exact h.view_flight_replace hg rfl (by simp)
  | fill ts order resting f left reported => exact h.view_fill hg
  | cancelResting ts order resting f notify =>
    obtain ⟨hfl, hrest, -, -⟩ := hg
    have hout := (h.holds_some hfl).takeOut_orders (k := .limit) hrest
    have hW : ∀ e : Engine D, (⟨e, some order⟩ : World D) = { W with engine := e } := by
      intro e
      rw [hfl]
    simp only [Move.run, Move.write]
    rw [hW]
    refine h.view_linked_replace hout ?_ (by simp)
    cases notify <;> simp [Holdings.release, Holdings.orders]
  | finish order => exact h.view_flight_replace hg.1 rfl (by simp)
  | rest order ts => exact h.view_enter hg.1 (holdings_insertIntoBook _ _ _)
  | park order stopPrice => exact h.view_enter hg.1 (holdings_insertIntoStopBook _ _ _)
  | trigger stop =>
    obtain ⟨hfl, -, hnext⟩ := hg
    have hout := (h.holds_none hfl).takeOut_orders (k := .stop)
      (nextTriggeredStop_waits (h.holds_none hfl) hnext)
    refine h.view_takeOff hfl ?_ stop.triggered_id
    simpa using hout
  | pull order req =>
    obtain ⟨hfl, hrest⟩ := hg
    have hout := (h.holds_none hfl).takeOut_orders (k := .limit) hrest
    exact h.view_takeOff hfl (by simpa using hout) rfl
  | cancel order ts reason =>
    obtain ⟨hfl, hrest⟩ := hg
    have hout := (h.holds_none hfl).takeOut_orders (k := .limit) hrest
    refine h.view_linked_replace hout ?_ (by simp)
    simp [Holdings.release, Holdings.orders]
  | cancelStop order ts reason =>
    obtain ⟨hfl, hwait⟩ := hg
    have hout := (h.holds_none hfl).takeOut_orders (k := .stop) hwait
    refine h.view_linked_replace hout ?_ (by simp)
    simp [Holdings.release, Holdings.orders]
  | amend order req =>
    obtain ⟨hfl, hrest, -⟩ := hg
    obtain ⟨rest, hold, hnew⟩ := (h.holds_none hfl).adjustOrder_orders (k := .limit) hrest
      (fun o => { o with
        quantity := req.newQuantity
        remainingQuantity := req.newQuantity - order.filledQuantity })
      (-(order.remainingQuantity - (req.newQuantity - order.filledQuantity)))
    refine h.view_linked_replace hold ?_ (by simp)
    simp only [Engine.amendOrder]
    split <;> simpa using hnew
  | cross price ts bid ask q => exact h.view_cross hg
  | unfill order q =>
    obtain ⟨hfl, hlinked⟩ := hg
    have hadj : ∃ rest, W.engine.holdings.orders.Perm (order :: rest) ∧
        (W.engine.adjustOrder order (·.fill (-q)) q).holdings.orders.Perm
          (order.fill (-q) :: rest) := by
      rcases hlinked with hin | hin
      · exact (h.holds_none hfl).adjustOrder_orders (k := .limit) hin _ _
      · exact (h.holds_none hfl).adjustOrder_orders (k := .stop) hin _ _
    obtain ⟨rest, hold, hnew⟩ := hadj
    exact h.view_linked_replace hold hnew (by simp)
  | note | markBusted | bust | topOfBook | session | reference | hook => rfl

end

end World.Sound

end ExchangeSim
