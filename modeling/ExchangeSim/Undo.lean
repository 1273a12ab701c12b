import ExchangeSim.OrdersById
import ExchangeSim.Policies

/-!
Undoing the tail of a batch. The policy has changed the orders for all of its results when the
engine comes to a self-match; the results before it are booked by then, and `undo_fills` takes back
the others.
-/

namespace ExchangeSim

open List Option PriceLevel Holdings

variable {D : Type} {X : Exchange D}

/-- The results of a level pass that the engine books before it comes to a self-match. -/
def Engine.bookFills (X : Exchange D) (ts : Int) :
    List FillResult → Order → Engine D → Outcome D (Order × Engine D)
  | [], order, e => .ok (order, e)
  | fill :: rest, order, e =>
    match findOrder fill.restingOrder (e.book order.side.opposite) with
    | none => .error (.dangling, e)
    | some resting =>
      let order := { order with filledQuantity := order.filledQuantity + fill.quantity }
      Engine.bookFills X ts rest order
        ((e.bookTrade X ts order fill resting).closeResting ts fill resting)

/-- A level pass books the results before its first self-match, and goes on from there with the
others. -/
theorem processFills_cases (X : Exchange D) (ts : Int) (rs : List FillResult) (order : Order)
    (e : Engine D) : ∃ first later order' e', first ++ later = rs ∧
      e.bookFills X ts first order = .ok (order', e') ∧
      e.processFills X ts rs order = e'.processFills X ts later order' ∧
      ∀ fill rest resting, later = fill :: rest →
        findOrder fill.restingOrder (e'.book order'.side.opposite) = some resting →
        X.isSelfMatch e'.derived order' resting = true := by
  induction rs generalizing order e with
  | nil => exact ⟨[], [], order, e, rfl, rfl, rfl, by simp⟩
  | cons f rs ih =>
    cases hfind : findOrder f.restingOrder (e.book order.side.opposite) with
    | none =>
      refine ⟨[], f :: rs, order, e, rfl, rfl, rfl, ?_⟩
      rintro fill rest resting ⟨rfl, rfl⟩ hsome
      simp [hfind] at hsome
    | some resting =>
      by_cases hself : X.isSelfMatch e.derived order resting = true
      · refine ⟨[], f :: rs, order, e, rfl, rfl, rfl, ?_⟩
        rintro fill rest found ⟨rfl, rfl⟩ hsome
        obtain rfl : resting = found := some.inj (hfind.symm.trans hsome)
        exact hself
      · obtain ⟨first, later, order', e', hsplit, hbooked, hgo, hstop⟩ :=
          ih { order with filledQuantity := order.filledQuantity + f.quantity }
            ((e.bookTrade X ts { order with filledQuantity := order.filledQuantity + f.quantity } f
              resting).closeResting ts f resting)
        refine ⟨f :: first, later, order', e', by rw [cons_append, hsplit], ?_, ?_, hstop⟩
        · simpa only [Engine.bookFills, hfind] using hbooked
        · simpa only [Engine.processFills, hfind, hself, Bool.false_eq_true, if_false] using hgo

/-- What booked results leave of an order: nothing has happened to an order that none of them
names, and one that they use up shows its next tranche or is gone. -/
def Order.after (o : Order) (rs : List FillResult) : Option Order :=
  if rs.any (·.restingOrder == o.id) then o.settled (filledBy o.id rs) else some o

section after

variable {o : Order} {f : FillResult} {rs : List FillResult}

theorem Order.after_of_not_named (h : ∀ f ∈ rs, f.restingOrder ≠ o.id) : o.after rs = some o := by
  have hnone : rs.any (·.restingOrder == o.id) = false := by simpa using h
  simp [Order.after, hnone]

theorem Order.settled_fill (o : Order) (q r : Int) : (o.fill q).settled r = o.settled (q + r) := by
  unfold Order.settled
  rw [Order.fill_fill]
  have hsub : (o.fill q).remainingQuantity - r = o.remainingQuantity - (q + r) := by
    simp only [Order.fill]
    omega
  rw [hsub]

theorem Order.after_cons_of_ne (h : f.restingOrder ≠ o.id) : o.after (f :: rs) = o.after rs := by
  simp [Order.after, filledBy, h]

theorem Order.after_cons (h : f.restingOrder = o.id)
    (hdone : o.remainingQuantity - f.quantity = 0 → ∀ g ∈ rs, g.restingOrder ≠ o.id) :
    o.after (f :: rs) = (o.settled f.quantity).bind (·.after rs) := by
  have hnamed : o.after (f :: rs) = o.settled (f.quantity + filledBy o.id rs) := by
    simp [Order.after, filledBy, h]
  rw [hnamed]
  by_cases hzero : o.remainingQuantity - f.quantity = 0
  · have hnone := hdone hzero
    rw [filledBy_eq_zero hnone, add_zero]
    cases hset : o.settled f.quantity with
    | none => rfl
    | some x =>
      refine (Order.after_of_not_named fun g hg => ?_).symm
      rw [Order.settled_id hset]
      exact hnone g hg
  · have hset : o.settled f.quantity = some (o.fill f.quantity) := if_neg hzero
    rw [hset, bind_some]
    by_cases hmore : rs.any (·.restingOrder == o.id) = true
    · have hafter : (o.fill f.quantity).after rs =
          (o.fill f.quantity).settled (filledBy o.id rs) := if_pos hmore
      rw [hafter, Order.settled_fill]
    · have hafter : (o.fill f.quantity).after rs = some (o.fill f.quantity) := if_neg hmore
      rw [hafter, filledBy_eq_zero (by simpa using hmore), add_zero, hset]

end after

/-- A side of the book that results can be booked against, one after the other, on its best
level. -/
structure Serves (s : Side) (lvls : List PriceLevel) (rs : List FillResult) : Prop where
  nodup : (idsIn lvls).Nodup
  best : rs = [] ∨ ∃ l deeper, lvls = l :: deeper ∧ l.Sound False (fun _ o => o.side = s) ∧
    Bookable False (remainingIn l.orders) rs

section settled

variable {s : Side} {o : Order} {l : PriceLevel} {deeper : List PriceLevel} {Xs Ys : List Order}
  {q : Int}

theorem settledLevel_perm (hf : Focus o [] l deeper Xs Ys) (hcount : l.orderCount = l.orders.length) :
    ((settledLevel o q l).elim [] orders).Perm
      ((o.settled q).toList ++ (Xs ++ Ys)) := by
  unfold settledLevel Order.settled
  split
  next =>
    split
    next =>
      simp only [elim_some, reveal, requeue,
        (hf.fillOrder q).filter_queue]
      exact perm_append_singleton _ _
    next =>
      split
      next hone =>
        have hnil : Xs ++ Ys = [] := by
          have : l.orders.length = (Xs ++ Ys).length + 1 := by simp [hf.queue]; omega
          exact length_eq_zero_iff.mp (by omega)
        simp [hnil]
      next => simp [unlink, hf.filter_queue]
  next =>
    simp only [elim_some, hf.fillOrder_orders]
    exact perm_middle

theorem settledLevel_sound (hf : Focus o [] l deeper Xs Ys)
    (h : l.Sound False fun _ o => o.side = s) {l' : PriceLevel}
    (hl' : settledLevel o q l = some l') : l'.Sound False fun _ o => o.side = s := by
  have hside : o.side = s := h.fits o (by simp [hf.queue])
  unfold settledLevel at hl'
  split at hl'
  next hz =>
    split at hl'
    next => exact some.inj hl' ▸ h.reveal hf hz hside False.elim
    next =>
      split at hl'
      next => simp at hl'
      next hone =>
        refine some.inj hl' ▸ h.unlink hf fun hnil => hone ?_
        have : l.orders.length = (Xs ++ Ys).length + 1 := by simp [hf.queue]; omega
        simp [h.count, this, hnil]
  next => exact some.inj hl' ▸ h.fillOrder hf hside False.elim

end settled

section book

variable {e : Engine D} {order resting : Order} {f : FillResult} {rs : List FillResult}

theorem Serves.step (h : Serves order.side.opposite (e.book order.side.opposite) (f :: rs))
    (ts reported : Int) : ∃ resting,
      findOrder f.restingOrder (e.book order.side.opposite) = some resting ∧
      resting.id = f.restingOrder ∧ resting.side = order.side.opposite ∧
      f.restingRemaining = resting.remainingQuantity - f.quantity ∧
      (f.restingRemaining = 0 → ∀ x ∈ rs, x.restingOrder ≠ f.restingOrder) ∧
      let book := (e.bookFill X ts order resting f reported).book order.side.opposite
      Serves order.side.opposite book rs ∧
        (findOrder · book) = Function.update (findOrder · (e.book order.side.opposite)) resting.id
          (resting.settled f.quantity) := by
  obtain ⟨l, deeper, hbook, hsound, hb⟩ := h.best.resolve_left (by simp)
  have hb' := hb
  obtain ⟨⟨v, hv, hrr⟩, hdone, -, -⟩ := hb
  obtain ⟨resting, hmem, hid, hval⟩ := exists_of_remainingIn hv
  obtain ⟨Xs, Ys, hf⟩ := exists_focus h.nodup (A := []) hbook hmem
  have hside : resting.side = order.side.opposite := hsound.fits resting hmem
  have hrem : f.restingRemaining = resting.remainingQuantity - f.quantity := by
    rw [hval]
    exact hrr
  have hbook' := bookFill_book (X := X) ts reported hside hbook hf hrem
  have hset := Bookable.settled hf hsound.count hid.symm hb'
  have hold : (ordersIn (e.book order.side.opposite)).Perm
      (resting :: ((Xs ++ Ys) ++ ordersIn deeper)) := by
    rw [hbook, ordersIn_cons, hf.queue]
    exact perm_middle.append_right _
  have hnew : (ordersIn ((e.bookFill X ts order resting f reported).book order.side.opposite)).Perm
      ((resting.settled f.quantity).toList ++ ((Xs ++ Ys) ++ ordersIn deeper)) := by
    have hperm := (settledLevel_perm (q := f.quantity) hf hsound.count).append_right
      (ordersIn deeper)
    rw [hbook', ordersIn_append]
    cases hl : settledLevel resting f.quantity l with
    | none | some => simpa [hl] using hperm
  have hids : ∀ x ∈ resting.settled f.quantity, x.id = resting.id := fun x hx =>
    Order.settled_id hx
  refine ⟨resting, ?_, hid, hside, hrem, hdone, ⟨?_, ?_⟩, ?_⟩
  · rw [← hid, hbook]
    exact hf.findOrder_eq
  · exact nodup_replace h.nodup hold hnew hids
  · cases hl : settledLevel resting f.quantity l with
    | none =>
      rw [hl] at hset
      exact .inl hset
    | some l' =>
      rw [hl] at hset hbook'
      exact .inr ⟨l', deeper, hbook', settledLevel_sound hf hsound hl, hset⟩
  · exact byId_replace h.nodup hold hnew hids

theorem bookFills_advance (ts R : Int) {first later : List FillResult}
    (h : Serves order.side.opposite (e.book order.side.opposite) (first ++ later)) :
    ∃ e' : Engine D, (e.advance order.side.opposite (first ++ later)).bookFills X ts first
        { order with remainingQuantity := R } =
          .ok ({ order with
            filledQuantity := order.filledQuantity + fillTotal first
            remainingQuantity := R }, e'.advance order.side.opposite later) ∧
      ∀ id, findOrder id (e'.book order.side.opposite) =
        (findOrder id (e.book order.side.opposite)).bind (·.after first) := by
  induction first generalizing order e with
  | nil =>
    refine ⟨e, by simp [Engine.bookFills], fun id => ?_⟩
    cases findOrder id (e.book order.side.opposite) <;> rfl
  | cons f first ih =>
    obtain ⟨resting, hfind, hid, hside, hrem, hdone, hserves, hbook⟩ := h.step ts R
    let order' : Order := { order with
      filledQuantity := order.filledQuantity + f.quantity
      remainingQuantity := R }
    obtain ⟨e', hrun, hfound⟩ := @ih _ order' hserves
    refine ⟨e', ?_, fun id => ?_⟩
    · have hlast : f.restingRemaining = 0 → ∀ x ∈ first ++ later, x.restingOrder ≠ f.restingOrder :=
        hdone
      have hstep := bookFill_advance X ts R e hside hid.symm hlast
      have htotal : order.filledQuantity + fillTotal (f :: first) =
          order.filledQuantity + f.quantity + fillTotal first := by
        rw [fillTotal_cons, add_assoc]
      simp only [cons_append, Engine.bookFills, findOrder_advance hfind]
      rw [hstep, htotal]
      exact hrun
    · rw [hfound, congrFun hbook id]
      by_cases hne : id = resting.id
      · subst hne
        rw [Function.update_self, hid, hfind, bind_some]
        refine (Order.after_cons hid.symm fun hz g hg => ?_).symm
        rw [hid]
        exact hdone (by omega) g (by simp [hg])
      · rw [Function.update_of_ne hne]
        cases hx : findOrder id (e.book order.side.opposite) with
        | none => rfl
        | some x =>
          have hxid : x.id = id := by simpa using find?_some hx
          rw [bind_some, bind_some, Order.after_cons_of_ne]
          rw [hxid, ← hid]
          exact Ne.symm hne

end book

/-- The state in which the engine finds a level after the policy has been at it. -/
def Engine.matched (p : Policy) (order : Order) (level : PriceLevel) (deeper : List PriceLevel)
    (e : Engine D) : Engine D :=
  e.setBook order.side.opposite
    ({ level with orders := (p.matchLevel level order.remainingQuantity).orders } :: deeper)

/-- A level pass up to the result with index `i`, and the other results undone: the aggressor has
its quantity less the first results, and each order of the side is as it was but for the results
that name it. -/
theorem undoFills_exact (X : Exchange D) (p : Policy) (ts : Int) {e : Engine D} {order : Order}
    {level : PriceLevel} {deeper : List PriceLevel}
    (hbook : e.book order.side.opposite = level :: deeper)
    (hn : (idsIn (level :: deeper)).Nodup) (hne : level.orders ≠ [])
    (hcount : level.orderCount = level.orders.length)
    (hside : ∀ o ∈ level.orders, o.side = order.side.opposite) (he : level.Exact)
    (hq : 0 < order.remainingQuantity) (hfits : p.Fits level order.remainingQuantity) (i : Nat) :
    let m := p.matchLevel level order.remainingQuantity
    let first := m.results.take i
    ∃ order' e', (e.matched p order level deeper).bookFills X ts first
        { order with remainingQuantity := m.remaining } = .ok (order', e') ∧
      let u := e'.undoFills order.side.opposite (m.results.drop i) order'
      u.1.remainingQuantity = order.remainingQuantity - fillTotal first ∧
      ∀ o ∈ ordersIn (e.book order.side.opposite),
        let now := findOrder o.id (u.2.book order.side.opposite)
        ((∀ f ∈ first, f.restingOrder ≠ o.id) → now = some o) ∧
        ((∃ f ∈ first, f.restingOrder = o.id) →
          let filled := o.fill (filledBy o.id first)
          (filled.remainingQuantity ≠ 0 → now = some filled) ∧
          (filled.remainingQuantity = 0 → now = if filled.hasNextTranche then
            some { filled with remainingQuantity := filled.nextTranche } else none)) := by
  unfold Engine.matched
  rw [Policy.matchLevel_eq hfits]
  intro m first
  have hsplit : first ++ m.results.drop i = m.results := take_append_drop i m.results
  have hdistinct : level.Distinct := by
    simp only [idsIn, ordersIn_cons, map_append] at hn
    exact (List.nodup_append.mp hn).1
  have hserves : Serves order.side.opposite (e.book order.side.opposite)
      (first ++ m.results.drop i) := by
    rw [hsplit, hbook]
    exact ⟨hn, .inr ⟨level, deeper, rfl, ⟨hne, hcount, hside, fun h => h.elim⟩,
      (p.algo.bookable level _ hdistinct).mono False.elim⟩⟩
  obtain ⟨e', hrun, hfound⟩ := bookFills_advance (X := X) ts m.remaining hserves
  have hmatched : e.setBook order.side.opposite ({ level with orders := m.orders } :: deeper) =
      e.advance order.side.opposite (first ++ m.results.drop i) := by
    rw [hsplit]
    exact setBook_eq_advance p.algo hbook (hbook ▸ hn) _
  refine ⟨_, _, hmatched ▸ hrun, ?_⟩
  rw [undoFills_advance]
  refine ⟨?_, fun o ho => ?_⟩
  · have hleft := p.algo.remaining_eq level _ hdistinct he hq
    change m.remaining = order.remainingQuantity - fillTotal m.results at hleft
    rw [← hsplit, fillTotal_append] at hleft
    dsimp only
    omega
  · have hnow : findOrder o.id (e'.book order.side.opposite) = o.after first := by
      have hthere : findOrder o.id (e.book order.side.opposite) = some o :=
        (byId_eq_some (by rw [hbook]; exact hn)).mpr ⟨ho, rfl⟩
      rw [hfound, hthere, bind_some]
    refine ⟨fun hnone => hnow.trans (Order.after_of_not_named hnone), fun hsome => ?_⟩
    have hnamed : o.after first = o.settled (filledBy o.id first) :=
      if_pos (by simpa using hsome)
    refine ⟨fun hmore => ?_, fun hzero => ?_⟩
    · exact hnow.trans (hnamed.trans (if_neg hmore))
    · exact hnow.trans (hnamed.trans (if_pos hzero))

def incomingBid (quantity : Int) : Order :=
  limitOrder 9 .buy 100 quantity

def offering (level : PriceLevel) : Engine Unit :=
  (sampleStart sampleExchange sampleConfig ()).setBook .sell [level]

/-- A bid for 6 against offers of 4 and 5, undone from its second fill on. -/
theorem undoFills_exact_sample :
    let level := offerLevel [restingOffer 1 4, restingOffer 2 5]
    let m := Policy.fifo.matchLevel level 6
    m.results.map (fun f => (f.restingOrder, f.quantity)) = [(1, 4), (2, 2)] ∧
      ∃ order' e', ((offering level).matched .fifo (incomingBid 6) level []).bookFills
          sampleExchange 3 (m.results.take 1)
          { incomingBid 6 with remainingQuantity := m.remaining } = .ok (order', e') ∧
        let u := e'.undoFills .sell (m.results.drop 1) order'
        u.1.remainingQuantity = 2 ∧ findOrder 2 (u.2.book .sell) = some (restingOffer 2 5) := by
  intro level m
  have hbook : (offering level).book (incomingBid 6).side.opposite = [level] := rfl
  obtain ⟨order', e', hrun, hleft, hnow⟩ := undoFills_exact sampleExchange .fifo 3 hbook
    (by decide) (by decide) rfl (by decide) ⟨rfl, by decide⟩ (by decide) (by decide) 1
  refine ⟨by decide, order', e', hrun, hleft.trans (by decide), ?_⟩
  exact (hnow (restingOffer 2 5) (by decide)).1 (by decide)

/-- An iceberg that shows 4 of 10 is used up by the first fill of a bid for 6. Once the second fill
is undone it shows the next 4, where its fill alone would have left nothing. -/
theorem undoFills_shows_tranche :
    let level := offerLevel
      [{ restingOffer 1 4 with displayQty := 4, totalQty := 10 }, restingOffer 2 5]
    let m := Policy.fifo.matchLevel level 6
    m.results.map (fun f => (f.restingOrder, f.quantity)) = [(1, 4), (2, 2)] ∧
      (((offering level).matched .fifo (incomingBid 6) level []).bookFills
          sampleExchange 3 (m.results.take 1)
          { incomingBid 6 with remainingQuantity := m.remaining }).toOption.map
        (fun r => (findOrder 1 ((r.2.undoFills .sell (m.results.drop 1) r.1).2.book .sell)).map
          fun o => (o.filledQuantity, o.remainingQuantity)) = some (some (4, 4)) := by
  decide +kernel

end ExchangeSim
