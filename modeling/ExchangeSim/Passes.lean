import ExchangeSim.Batch
import ExchangeSim.Context
import ExchangeSim.MoveSound

namespace ExchangeSim

open Engine List Option PriceLevel Holdings

variable {D : Type} {X : Exchange D} {w c : Prop} {rs : List FillResult} {e : Engine D}
  {f : FillResult} {resting o order ord : Order} {left : Nat → Option Int} {strict : Prop}
  {Xs Ys : List Order} {l : PriceLevel} {v price R : Int} {A B deeper : List PriceLevel}
  {W : World D}

section

variable (h : Bookable strict left rs)

include h

theorem Bookable.congr {left' : Nat → Option Int}
    (heq : ∀ g ∈ rs, left g.restingOrder = left' g.restingOrder) : Bookable strict left' rs := by
  induction rs generalizing left left' with
  | nil => trivial
  | cons f rs ih =>
    obtain ⟨hthere, hdone, hstrict, hrest⟩ := h
    refine ⟨?_, hdone, hstrict, ih hrest ?_⟩
    · rw [← heq f (by simp)]
      exact hthere
    · intro g hg
      by_cases he : g.restingOrder = f.restingOrder
      · simp [he]
      · simp [he, heq g (by simp [hg])]

omit h in
theorem Bookable.mono {p q : Prop} (h : Bookable p left rs) (hpq : q → p) : Bookable q left rs := by
  induction rs generalizing left with
  | nil => trivial
  | cons f rs ih =>
    obtain ⟨hthere, hdone, hstrict, hrest⟩ := h
    exact ⟨hthere, hdone, fun hq => hstrict (hpq hq), ih hrest⟩

theorem Bookable.fillTotal_nonneg (hs : strict) :
    0 ≤ fillTotal rs := by
  induction rs generalizing left with
  | nil => simp
  | cons f rs ih =>
    obtain ⟨-, -, hstrict, hrest⟩ := h
    have := ih hrest
    have := (hstrict hs).1
    simp only [fillTotal_cons]
    omega

theorem Bookable.positive (hs : strict) :
    ∀ f ∈ rs, 0 < f.quantity := by
  induction rs generalizing left with
  | nil => simp
  | cons f rs ih =>
    obtain ⟨-, -, hstrict, hrest⟩ := h
    exact List.forall_mem_cons.mpr ⟨(hstrict hs).1, ih hrest⟩

theorem Bookable.filledBy_le (hs : strict) {id : Nat}
    (hv : left id = some v) (hpos : 0 ≤ v) : filledBy id rs ≤ v := by
  induction rs generalizing left v with
  | nil => simpa [filledBy] using hpos
  | cons f rs ih =>
    obtain ⟨⟨u, hu, hrem⟩, -, hstrict, hrest⟩ := h
    by_cases hid : f.restingOrder = id
    · subst hid
      obtain rfl : v = u := some.inj (hv.symm.trans hu)
      have hle := ih hrest (by simp) (hstrict hs).2
      simp only [filledBy, if_true]
      omega
    · have hle := ih hrest (by rw [Function.update_of_ne (Ne.symm hid), hv]) hpos
      simpa [filledBy, hid] using hle

theorem Bookable.last {id : Nat} (hv : left id = some v) :
    ∀ f ∈ (rs.filter (·.restingOrder == id)).getLast?, f.restingRemaining = v - filledBy id rs := by
  induction rs generalizing left v with
  | nil => simp
  | cons f rs ih =>
    obtain ⟨⟨u, hu, hrem⟩, -, -, hrest⟩ := h
    by_cases hid : f.restingOrder = id
    · subst hid
      obtain rfl : v = u := some.inj (hv.symm.trans hu)
      have hlater := ih hrest (v := f.restingRemaining) (by simp)
      simp only [filter_cons, beq_self_eq_true, if_true, filledBy]
      rcases hrs : rs.filter (·.restingOrder == f.restingOrder) with _ | ⟨g, gs⟩
      · have hnone : filledBy f.restingOrder rs = 0 := by
          refine filledBy_eq_zero fun g hg he => ?_
          have := filter_eq_nil_iff.mp hrs g hg
          simp [he] at this
        intro g hg
        rw [hrs] at hg
        obtain rfl : f = g := by simpa using hg
        omega
      · rw [hrs] at hlater
        intro g' hg'
        rw [hrs, getLast?_cons_cons] at hg'
        have := hlater g' hg'
        omega
    · have hskip : (f :: rs).filter (·.restingOrder == id) = rs.filter (·.restingOrder == id) := by
        simp [hid]
      rw [hskip]
      simp only [filledBy, hid, if_false, zero_add]
      exact ih hrest (by rw [Function.update_of_ne (Ne.symm hid), hv])

end

theorem exists_of_remainingIn {orders : List Order} {id : Nat}
    (h : remainingIn orders id = some v) : ∃ o ∈ orders, o.id = id ∧ o.remainingQuantity = v := by
  obtain ⟨o, ho, hv⟩ := map_eq_some_iff.mp h
  exact ⟨o, mem_of_find?_eq_some ho, by simpa using find?_some ho, hv⟩

theorem remainingIn_skip {id : Nat} (h : o.id ≠ id) (Xs Ys : List Order) :
    remainingIn (Xs ++ o :: Ys) id = remainingIn (Xs ++ Ys) id := by
  simp [remainingIn, find?_append, h]

theorem remainingIn_at (h : ∀ x ∈ Xs, x.id ≠ o.id) :
    remainingIn (Xs ++ o :: Ys) o.id = some o.remainingQuantity := by
  have hX : Xs.find? (fun x => x.id == o.id) = none := by
    simpa [find?_eq_none] using h
  simp [remainingIn, find?_append, hX]

/-- The fills of a batch still to be booked, against the best level of a side as it
stands. -/
def Engine.Pending (w : Prop) (e : Engine D) (s : Side) (price : Int) (rs : List FillResult) :
    Prop :=
  rs = [] ∨ ∃ l deeper, e.book s = l :: deeper ∧ l.price = price ∧
    (∀ f ∈ rs, f.price = price) ∧ Bookable w (remainingIn l.orders) rs

theorem Bookable.settled (hf : Focus o A l B Xs Ys) (hcount : l.orderCount = l.orders.length)
    (hid : f.restingOrder = o.id) (h : Bookable w (remainingIn l.orders) (f :: rs)) :
    match settledLevel o f.quantity l with
    | none => rs = []
    | some l' => Bookable w (remainingIn l'.orders) rs := by
  obtain ⟨⟨v, hv, hrr⟩, hdone, -, hrest⟩ := h
  have hrem : v = o.remainingQuantity := by
    rw [hid, hf.queue, remainingIn_at fun x hx => hf.inside x (by simp [hx])] at hv
    exact (some.inj hv).symm
  have hother : ∀ id, o.id ≠ id → remainingIn l.orders id = remainingIn (Xs ++ Ys) id := by
    intro id hne
    rw [hf.queue, remainingIn_skip hne]
  have hne : o.remainingQuantity - f.quantity = 0 → ∀ g ∈ rs, o.id ≠ g.restingOrder := by
    intro hz g hg he
    exact hdone (by omega) g hg (by rw [hid, he])
  unfold settledLevel
  split
  next hnone =>
    split at hnone
    next hz =>
      split at hnone
      · simp at hnone
      · split at hnone
        next hone =>
          have hnil : Xs ++ Ys = [] := by
            have : l.orders.length = (Xs ++ Ys).length + 1 := by simp [hf.queue]; omega
            exact length_eq_zero_iff.mp (by omega)
          cases rs with
          | nil => rfl
          | cons g rs =>
            obtain ⟨⟨u, hu, -⟩, -⟩ := hrest
            have hg := hne hz g (by simp)
            rw [Function.update_of_ne (by rw [hid]; exact hg.symm), hother _ hg, hnil] at hu
            simp [remainingIn] at hu
        · simp at hnone
    · simp at hnone
  next l' hsome =>
    refine hrest.congr fun g hg => ?_
    split at hsome
    next hz =>
      have hg' := hne hz g hg
      rw [Function.update_of_ne (by rw [hid]; exact hg'.symm), hother _ hg']
      split at hsome
      · obtain rfl := some.inj hsome
        have hx := (hf.fillOrder f.quantity).filter_queue
        simp only [reveal, requeue, hx]
        rw [remainingIn_skip (by simpa using hg'), append_nil]
      · split at hsome
        · simp at hsome
        · obtain rfl := some.inj hsome
          rw [unlink, hf.filter_queue]
    next hz =>
      obtain rfl := some.inj hsome
      rw [hf.fillOrder_orders]
      by_cases he : g.restingOrder = f.restingOrder
      · have hat : remainingIn (Xs ++ o.fill f.quantity :: Ys) (o.fill f.quantity).id = _ :=
          remainingIn_at fun x hx => hf.inside x (by simp [hx])
        rw [he, Function.update_self, hid, ← Order.fill_id o f.quantity, hat]
        simp [Order.fill, hrr, hrem]
      · have hg' : o.id ≠ g.restingOrder := by rw [← hid]; exact Ne.symm he
        rw [Function.update_of_ne he, hother _ hg', remainingIn_skip (by simpa using hg')]

/-- The order as it goes on: only what is filled and what remains may differ. -/
def Order.Continues (o order : Order) : Prop :=
  o = { order with
    filledQuantity := o.filledQuantity
    remainingQuantity := o.remainingQuantity }

theorem Order.Continues.refl (order : Order) : order.Continues order := rfl

theorem Order.Continues.trans {o' : Order} (h : o'.Continues o) (h' : o.Continues order) :
    o'.Continues order := by
  unfold Order.Continues at *
  rw [h, h']

theorem Order.Continues.fill (o : Order) (q : Int) : (o.fill q).Continues o := rfl

theorem settledLevel_continues {l' : PriceLevel} (hf : Focus o A l B Xs Ys) {q : Int}
    (h : settledLevel o q l = some l') {y : Order} (hy : y ∈ l'.orders) :
    ∃ z ∈ l.orders, y.Continues z := by
  have ho : o ∈ l.orders := by simp [hf.queue]
  unfold settledLevel at h
  split at h
  · split at h
    · obtain rfl := some.inj h
      simp only [reveal, requeue, (hf.fillOrder q).filter_queue,
        List.mem_append, mem_singleton] at hy
      rcases hy with hy | rfl
      · exact ⟨y, by rw [hf.queue]; simp only [List.mem_append, List.mem_cons]; tauto, .refl y⟩
      · exact ⟨o, ho, rfl⟩
    · split at h
      · simp at h
      · obtain rfl := some.inj h
        exact ⟨y, mem_of_mem_filter hy, .refl y⟩
  · obtain rfl := some.inj h
    obtain ⟨z, hz, rfl⟩ := mem_map.mp hy
    refine ⟨z, hz, ?_⟩
    split
    · exact .fill z q
    · exact .refl z

def Move.matching : Move D → Bool
  | .note .. => true
  | .adjust .. => true
  | .fill .. => true
  | .cancelResting .. => true
  | .drop .. => true
  | .session .. => true
  | .reference .. => true
  | .hook .. => true
  | _ => false

/-- An order rests once nothing it could meet is left, unless orders are being collected.
Under `c` nothing interrupts matching. -/
def Move.restsLegally (c : Prop) : Move D → World D → Prop
  | .rest order _, W => W.engine.currentState.isCollectionPhase = true ∨
    (order.tif ≠ .ioc ∧ order.tif ≠ .fok ∧ (c → W.engine.clearOf order))
  | _, _ => True

/-- A move as the operations make it. -/
structure Legal (w c : Prop) (m : Move D) (W : World D) : Prop where
  exact : w → m.exact
  steady : c → m.steady = true
  rests : m.restsLegally c W

theorem Legal.of_matching {m : Move D} (hm : m.matching = true) (hx : w → m.exact)
    (hs : c → m.steady = true) : Legal w c m W ∧ m.matching = true :=
  ⟨⟨hx, hs, by cases m <;> trivial⟩, hm⟩

def MatchRun (X : Exchange D) (w c : Prop) : World D → World D → Prop :=
  (machine X).Run fun m W => Legal w c m W ∧ m.matching = true

theorem MatchRun.sound {W' : World D} (h : MatchRun X w c W W') (hs : W.Sound X w) : W'.Sound X w :=
  Machine.Run.invariant h hs fun _ _ ht hg hp => ht.run hg hp.1.exact

theorem Engine.Meets.of_pending (hbook : e.book order.side.opposite = l :: deeper)
    (hmem : resting ∈ l.orders) (hid : f.restingOrder = resting.id) (hprice : f.price = l.price)
    (hrem : f.restingRemaining = resting.remainingQuantity - f.quantity)
    (hallow : order.allows l.price = true) (hent : order.Entered) : e.Meets order resting f :=
  ⟨⟨l, deeper, hbook, hmem, hprice⟩, hid, hrem, by rw [hprice]; exact hallow, hent⟩

theorem Order.allows_continues (h : o.Continues order) (price : Int) :
    o.allows price = order.allows price := by
  rw [h]
  rfl

theorem applySmpAction_run (ts : Int) (hrest : e.rests resting)
    (hside : resting.side = order.side.opposite) (hprice : f.price = resting.price) :
    let r := e.applySmpAction X order resting f ts
    MatchRun X w c ⟨e, some order⟩ ⟨r.2, r.1⟩ ∧ ∀ o ∈ r.1, o = order := by
  have hdrop : ∀ (e : Engine D), MatchRun X w c ⟨e, some order⟩
      ⟨e.dropOrder order ts .selfMatchPrevention, none⟩ := fun e =>
    Machine.Run.single (M := machine X) (m := .drop order ts .selfMatchPrevention) rfl
      (Legal.of_matching rfl (fun _ => trivial) fun _ => rfl)
  have hcancel : ∀ notify, MatchRun X w c ⟨e, some order⟩
      (Move.run X (.cancelResting ts order resting f notify) ⟨e, some order⟩) := fun notify =>
    Machine.Run.single (M := machine X) (m := .cancelResting ts order resting f notify)
      ⟨rfl, hrest, hside, hprice⟩ (Legal.of_matching rfl (fun _ => trivial) fun _ => rfl)
  unfold applySmpAction
  cases X.getSmpAction e.derived with
  | cancelNewest => exact ⟨hdrop e, by simp⟩
  | cancelOldest => exact ⟨hcancel true, by simp⟩
  | cancelBoth => exact ⟨Machine.Run.trans (hcancel false) (hdrop _), by simp⟩
  | decrement | none => exact ⟨.refl, by simp⟩

theorem bookFill_book (ts reported : Int) (hside : resting.side = order.side.opposite)
    (hbook : e.book order.side.opposite = l :: deeper) (hf : Focus resting [] l deeper Xs Ys)
    (hrem : f.restingRemaining = resting.remainingQuantity - f.quantity) :
    (e.bookFill X ts order resting f reported).book order.side.opposite =
      (settledLevel resting f.quantity l).toList ++ deeper := by
  rw [← hside] at hbook ⊢
  have hH := holdings_bookFill X ts reported hside hbook hf hrem
  have hl := settle_lvls (H := e.holdings) (A := []) hbook hf f.quantity
  exact (congrArg (fun H => H.lvls .limit resting.side) hH).trans hl

theorem findOrder_advance {s : Side} {id : Nat} (hfind : findOrder id (e.book s) = some resting)
    (pend : List FillResult) :
    findOrder id ((e.advance s pend).book s) =
      some (resting.fill (filledBy resting.id pend)) := by
  rw [advance, mapBook_book,
    findOrder_map (g := fun o => o.fill (filledBy o.id pend)) (fun _ => rfl), hfind]
  rfl

theorem processFills_fill (ts R : Int)
    (hfind : findOrder f.restingOrder (e.book ord.side.opposite) = some resting)
    (hside : resting.side = ord.side.opposite) (hid : f.restingOrder = resting.id)
    (hdone : f.restingRemaining = 0 → ∀ x ∈ rs, x.restingOrder ≠ f.restingOrder)
    (hself : X.isSelfMatch e.derived { ord with remainingQuantity := R }
      (resting.fill (filledBy resting.id (f :: rs))) = false) :
    (e.advance ord.side.opposite (f :: rs)).processFills X ts (f :: rs)
        { ord with remainingQuantity := R } =
      ((e.bookFill X ts ord resting f R).advance ord.side.opposite rs).processFills X ts rs
        { ord with
          filledQuantity := ord.filledQuantity + f.quantity
          remainingQuantity := R } := by
  have hself' : X.isSelfMatch (e.advance ord.side.opposite (f :: rs)).derived
      { ord with remainingQuantity := R } (resting.fill (filledBy resting.id (f :: rs))) = false :=
    hself
  rw [processFills]
  simp only [findOrder_advance hfind, hself', Bool.false_eq_true, if_false]
  rw [bookFill_advance X ts R e hside hid hdone]

/-- The first fill of a pending batch and the order it names. -/
structure Engine.Heads (w : Prop) (e : Engine D) (ord resting : Order) (f : FillResult)
    (rs : List FillResult) : Prop where
  meets : e.Meets ord resting f
  rests : e.rests resting
  side : resting.side = ord.side.opposite
  found : findOrder f.restingOrder (e.book ord.side.opposite) = some resting
  price : f.price = resting.price
  done : f.restingRemaining = 0 → ∀ x ∈ rs, x.restingOrder ≠ f.restingOrder
  strict : w → 0 < f.quantity ∧ 0 ≤ f.restingRemaining
  rest : w → 0 ≤ fillTotal rs

theorem Engine.Pending.heads (hs : World.Sound X w ⟨e, some ord⟩) (hallow : ord.allows price = true)
    (hent : ord.Entered) (hp : e.Pending w ord.side.opposite price (f :: rs)) :
    ∃ resting, e.Heads w ord resting f rs ∧
      ∀ ts R, (e.bookFill X ts ord resting f R).Pending w ord.side.opposite price rs := by
  obtain ⟨l, deeper, hbook, hlprice, hprices, hb⟩ := hp.resolve_left (by simp)
  have hb' := hb
  obtain ⟨⟨v, hv, hrr⟩, hdone, hstrict, hrest⟩ := hb
  obtain ⟨resting, hmem, hid, hval⟩ := exists_of_remainingIn hv
  have hH : e.holdings.Sound X w [ord.id] := hs.holds_some rfl
  obtain ⟨Xs, Ys, hf⟩ := exists_focus (hH.nodup .limit ord.side.opposite) (A := []) hbook hmem
  have hin : resting ∈ ordersIn (e.holdings.lvls .limit ord.side.opposite) :=
    mem_ordersIn.mpr ⟨l, by simp [holdings, shelf, hbook], hmem⟩
  have hside : resting.side = ord.side.opposite := hH.side_eq hin
  have hlevel : l.Sound w (bookFits ord.side.opposite) :=
    (hH.shape .limit ord.side.opposite).sound l
      (by simp [holdings, shelf, hbook])
  have hfprice : f.price = l.price := by rw [hlprice]; exact hprices f (by simp)
  have hrem : f.restingRemaining = resting.remainingQuantity - f.quantity := by
    rw [hval]
    exact hrr
  refine ⟨resting, ⟨?_, ?_, hside, ?_, ?_, hdone, hstrict, hrest.fillTotal_nonneg⟩,
    fun ts R => ?_⟩
  · exact Meets.of_pending hbook hmem hid.symm hfprice hrem
      (by rw [hlprice]; exact hallow) hent
  · rw [rests, hside]
    exact hin
  · rw [← hid, hbook]
    exact hf.findOrder_eq
  · rw [hfprice]
    exact (hlevel.fits resting hmem).2.2.symm
  · have hset := Bookable.settled hf hlevel.count hid.symm hb'
    have hbook' := bookFill_book (X := X) ts R hside hbook hf hrem
    cases hl : settledLevel resting f.quantity l with
    | none =>
      rw [hl] at hset
      exact .inl hset
    | some l' =>
      rw [hl] at hset hbook'
      exact .inr ⟨l', deeper, hbook', (settledLevel_price hl).trans hlprice,
        fun g hg => hprices g (by simp [hg]), hset⟩

theorem Engine.Heads.exact (h : e.Heads w ord resting f rs) (ts : Int) (hR : w → 0 ≤ R)
    (hrem : ord.remainingQuantity = R + fillTotal (f :: rs)) (hw : w) :
    Move.exact (D := D) (.fill ts ord resting f (R + fillTotal rs) R) := by
  obtain ⟨hpos, hnn⟩ := h.strict hw
  have htot := h.rest hw
  have hR' := hR hw
  simp only [fillTotal_cons] at hrem
  exact ⟨hpos, hnn, by omega, by omega⟩

theorem processFills_self (ts R : Int)
    (hfind : findOrder f.restingOrder (e.book ord.side.opposite) = some resting)
    (hrem : ord.remainingQuantity = R + fillTotal (f :: rs))
    (hself : X.isSelfMatch e.derived { ord with remainingQuantity := R }
      (resting.fill (filledBy resting.id (f :: rs))) = true) :
    (e.advance ord.side.opposite (f :: rs)).processFills X ts (f :: rs)
        { ord with remainingQuantity := R } = .ok (e.applySmpAction X ord resting f ts) := by
  have hself' : X.isSelfMatch (e.advance ord.side.opposite (f :: rs)).derived
      { ord with remainingQuantity := R } (resting.fill (filledBy resting.id (f :: rs))) = true :=
    hself
  have hord : { ord with remainingQuantity := R + fillTotal (f :: rs) } = ord := by
    rw [← hrem]
  unfold processFills
  simp only [findOrder_advance hfind, hself', if_true, undoFills_advance, hord, hfind]

theorem processFills_run (ts : Int) {pend : List FillResult} (hs : World.Sound X w ⟨e, some ord⟩)
    (hR : w → 0 ≤ R) (hrem : ord.remainingQuantity = R + fillTotal pend)
    (hallow : ord.allows price = true) (hent : ord.Entered)
    (hp : e.Pending w ord.side.opposite price pend) :
    ∃ alive e', (e.advance ord.side.opposite pend).processFills X ts pend
        { ord with remainingQuantity := R } = .ok (alive, e') ∧
      MatchRun X w c ⟨e, some ord⟩ ⟨e', alive⟩ ∧ ∀ o ∈ alive, o.Continues ord := by
  induction pend generalizing ord e with
  | nil =>
    have hord : { ord with remainingQuantity := R } = ord := by
      simp only [fillTotal_nil, add_zero] at hrem
      rw [← hrem]
    exact ⟨some ord, e, by rw [advance_nil, hord]; rfl, .refl, by simp [Order.Continues]⟩
  | cons f rs ih =>
    obtain ⟨resting, hh, hpend⟩ := hp.heads hs hallow hent
    by_cases hself : X.isSelfMatch e.derived { ord with remainingQuantity := R }
        (resting.fill (filledBy resting.id (f :: rs))) = true
    · have hsmp := applySmpAction_run (X := X) (w := w) (c := c) ts hh.rests hh.side
        hh.price
      refine ⟨_, _, processFills_self ts R hh.found hrem hself, hsmp.1, fun o ho => ?_⟩
      rw [hsmp.2 o ho]
      exact Order.Continues.refl ord
    · have hmove : Move.guard X (.fill ts ord resting f (R + fillTotal rs) R) ⟨e, some ord⟩ :=
        ⟨rfl, hh.meets⟩
      have hexact : w → Move.exact (.fill ts ord resting f (R + fillTotal rs) R) :=
        hh.exact ts hR hrem
      let ord' : Order := { ord with
        filledQuantity := ord.filledQuantity + f.quantity
        remainingQuantity := R + fillTotal rs }
      rw [processFills_fill ts R hh.found hh.side hh.meets.named hh.done
        (Bool.eq_false_iff.mpr hself)]
      obtain ⟨alive, e', heq, hrun, hcont⟩ := ih
        (show World.Sound X w ⟨e.bookFill X ts ord resting f R, some ord'⟩ from
          World.Sound.fill hs hmove hexact) rfl hallow hent (hpend ts R)
      refine ⟨alive, e', heq, ?_, fun o ho => (hcont o ho).trans rfl⟩
      exact Machine.Run.head
        (m := .fill ts ord resting f (R + fillTotal rs) R) hmove
        (Legal.of_matching rfl hexact fun _ => rfl) hrun

end ExchangeSim
