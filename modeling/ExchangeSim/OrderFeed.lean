import ExchangeSim.BookShape
import ExchangeSim.MoveOrders
import ExchangeSim.Observers
import ExchangeSim.OrderEvents
import ExchangeSim.Queues

namespace ExchangeSim

open Engine List Function PriceLevel Holdings Move

open Queues

variable {D : Type} {X : Exchange D} {w : Prop} {e : Engine D} {lvls : List PriceLevel} {ts : Int}
  {m : Move D}

/-- What a reader of the order-by-order feed keeps: the queue of every side and price, as ids
with their quantities. -/
abbrev Replica := Side → Int → List (Nat × Int)

/-- `Add` joins the back of a queue, `Fill` takes from an order and drops it when nothing is
left, `Cancel` drops an order. The order is looked up by its id. -/
def Replica.apply (b : Replica) (a : OrderBookAction) : Replica :=
  match a.action with
  | .add => Function.update b a.side
    (Function.update (b a.side) a.price (b a.side a.price ++ [(a.id, a.qty)]))
  | .fill => fun s p => takeFrom a.id a.qty (b s p)
  | .cancel => fun s p => without a.id (b s p)
  | .modify => b

def orderFeed : Observer JournalEntry Replica where
  start := fun _ _ => []
  see b
    | .event (.orderBookAction a) => b.apply a
    | _ => b

theorem orderFeed_state (e : Engine D) :
    orderFeed.state e.journal = e.shown.foldl Replica.apply orderFeed.start := by
  unfold shown Observer.state
  generalize orderFeed.start = b
  induction e.journal generalizing b with
  | nil => rfl
  | cons x xs ih =>
    rw [List.foldl_cons, ih]
    cases x with
    | action a => rfl
    | event ev => cases ev <;> rfl

def PriceLevel.entries (l : PriceLevel) : List (Nat × Int) :=
  l.orders.map fun o => (o.id, o.remainingQuantity)

def queueAt (lvls : List PriceLevel) (p : Int) : List (Nat × Int) :=
  lvls.flatMap fun l => if l.price = p then l.entries else []

theorem queueAt_append (A B : List PriceLevel) (p : Int) :
    queueAt (A ++ B) p = queueAt A p ++ queueAt B p :=
  flatMap_append

theorem queueAt_eq_nil {p : Int} (h : ∀ l ∈ lvls, l.price ≠ p) : queueAt lvls p = [] := by
  simpa [queueAt] using fun l hl he => absurd he (h l hl)

theorem queueAt_absent {id : Nat} (h : ∀ l ∈ lvls, l.has id = false) (p : Int) :
    ∀ x ∈ queueAt lvls p, x.1 ≠ id := by
  intro x hx he
  obtain ⟨l, hl, hx⟩ := mem_flatMap.mp hx
  split at hx
  · obtain ⟨o, ho, rfl⟩ := mem_map.mp hx
    exact has_eq_false.mp (h l hl) o ho he
  · simp at hx

section level

variable {before : Int → Int → Bool} {fits : Int → Order → Prop} {A B : List PriceLevel}
  {l : PriceLevel} {o : Order} {Xs Ys : List Order}

theorem queueAt_level (hs : StrictBefore before) (h : SideSound w before fits (A ++ l :: B))
    (l' : Option PriceLevel) (hprice : ∀ m ∈ l', m.price = l.price) :
    queueAt (A ++ (l'.toList ++ B)) =
      update (queueAt (A ++ B)) l.price ((l'.map (·.entries)).getD []) := by
  have hA : ∀ m ∈ A, m.price ≠ l.price := fun m hm => h.price_ne hs (by simp [hm])
  have hB : ∀ m ∈ B, m.price ≠ l.price := fun m hm => h.price_ne hs (by simp [hm])
  funext p
  rw [queueAt_append, queueAt_append]
  by_cases hp : p = l.price
  · subst hp
    rw [Function.update_self, queueAt_eq_nil hA, queueAt_eq_nil hB]
    cases l' with
    | none => rfl
    | some m => simp [queueAt, hprice m rfl]
  · rw [Function.update_of_ne hp, queueAt_append]
    cases l' with
    | none => rfl
    | some m =>
      have hm : ¬m.price = p := fun he => hp (he.symm.trans (hprice m rfl))
      simp [queueAt, hm]

theorem queueAt_self (hs : StrictBefore before) (h : SideSound w before fits (A ++ l :: B)) :
    queueAt (A ++ l :: B) = update (queueAt (A ++ B)) l.price l.entries :=
  queueAt_level hs h (some l) (by simp)

theorem Focus.entries (hf : Focus o A l B Xs Ys) : l.entries =
    Xs.map (fun x => (x.id, x.remainingQuantity)) ++ (o.id, o.remainingQuantity) ::
      Ys.map fun y => (y.id, y.remainingQuantity) := by
  simp [PriceLevel.entries, hf.queue]

theorem Focus.entries_ne (hf : Focus o A l B Xs Ys) (Zs : List Order)
    (hZ : ∀ z ∈ Zs, z ∈ Xs ++ Ys) :
    ∀ x ∈ Zs.map (fun z => (z.id, z.remainingQuantity)), x.1 ≠ o.id := by
  intro x hx
  obtain ⟨z, hz, rfl⟩ := mem_map.mp hx
  exact hf.inside z (hZ z hz)

theorem Focus.settled_entries (hf : Focus o A l B Xs Ys) (hcount : l.orderCount = l.orders.length)
    (q : Int) : ((Holdings.settledLevel o q l).map (·.entries)).getD [] =
      takeFrom o.id q l.entries ++ if o.remainingQuantity - q = 0 ∧ (o.fill q).hasNextTranche then
        [(o.id, (o.fill q).nextTranche)] else [] := by
  have hX := hf.entries_ne Xs (by simp +contextual)
  have hY := hf.entries_ne Ys (by simp +contextual)
  rw [hf.entries, takeFrom_middle hX hY]
  unfold Holdings.settledLevel
  by_cases hz : o.remainingQuantity - q = 0
  · by_cases ht : (o.fill q).hasNextTranche = true
    · have hx := (hf.fillOrder q).filter_queue
      rw [Order.fill_id] at hx
      simp [hz, ht, PriceLevel.entries, PriceLevel.reveal, PriceLevel.requeue, hx]
    · by_cases hone : l.orderCount - 1 = 0
      · have hnil : Xs = [] ∧ Ys = [] := by
          have hlen : l.orders.length = (Xs ++ Ys).length + 1 := by simp [hf.queue]; omega
          simpa using List.length_eq_zero_iff.mp (show (Xs ++ Ys).length = 0 by omega)
        simp [hz, ht, hone, hnil]
      · simp [hz, ht, hone, PriceLevel.entries, PriceLevel.unlink, hf.filter_queue]
  · simp [hz, PriceLevel.entries, hf.fillOrder_orders, Order.fill]

theorem Focus.unlinked_entries (hf : Focus o A l B Xs Ys)
    (hcount : l.orderCount = l.orders.length) :
    ((if l.orderCount - 1 = 0 then none else some (l.unlink o)).map (·.entries)).getD [] =
      without o.id l.entries := by
  have hX := hf.entries_ne Xs (by simp +contextual)
  have hY := hf.entries_ne Ys (by simp +contextual)
  rw [hf.entries, without_middle hX hY]
  split
  next hone =>
    have hlen : l.orders.length = (Xs ++ Ys).length + 1 := by simp [hf.queue]; omega
    have hnil : Xs ++ Ys = [] := length_eq_zero_iff.mp (by omega)
    rw [← map_append, hnil]
    rfl
  next => simp [PriceLevel.entries, PriceLevel.unlink, hf.filter_queue]

end level

namespace Holdings

variable {H : Holdings} {extra : List Nat} {o : Order}

def queues (H : Holdings) : Replica :=
  fun s => queueAt (H.lvls .limit s)

theorem queues_set (H : Holdings) (s : Side) (lvls : List PriceLevel) :
    (H.set .limit s lvls).queues = update H.queues s (queueAt lvls) := by
  funext t
  by_cases ht : t = s
  · subst ht
    simp [queues]
  · rw [Function.update_of_ne ht]
    exact congrArg queueAt (set_other (by simp [ht]) lvls)

theorem Sound.queues_map (h : H.Sound X w extra) {A B : List PriceLevel} {l : PriceLevel}
    {Xs Ys : List Order} (hsplit : H.lvls .limit o.side = A ++ l :: B) (hf : Focus o A l B Xs Ys)
    {g : List (Nat × Int) → List (Nat × Int)} (hg : ∀ xs, (∀ x ∈ xs, x.1 ≠ o.id) → g xs = xs) :
    (fun s p => g (H.queues s p)) = update H.queues o.side
      (update (queueAt (A ++ B)) l.price (g l.entries)) := by
  have hin : o ∈ ordersIn (H.lvls .limit o.side) := by simp [hsplit, hf.queue]
  have hside := hsplit ▸ h.shape .limit o.side
  funext s p
  by_cases hs : s = o.side
  · subst hs
    have hq : H.queues o.side = update (queueAt (A ++ B)) l.price l.entries := by
      rw [queues, hsplit]
      exact queueAt_self (Shelf.strictBefore .limit o.side) hside
    rw [Function.update_self, hq]
    by_cases hp : p = l.price
    · subst hp
      rw [Function.update_self, Function.update_self]
    · rw [Function.update_of_ne hp, Function.update_of_ne hp]
      exact hg _ (queueAt_absent hf.outside p)
  · rw [Function.update_of_ne hs]
    exact hg _ (queueAt_absent (h.has_eq_false .limit .limit o.side s (by simp [hs]) hin) p)

theorem Sound.queues_settle (h : H.Sound X w extra) (ho : o ∈ ordersIn (H.lvls .limit o.side))
    (s : Side) (price q ts : Int) : (H.settle o q).queues =
      (if o.remainingQuantity - q = 0 then (o.fill q).reveals ts else []).foldl Replica.apply
        (H.queues.apply ⟨o.id, s, price, q, .fill, ts⟩) := by
  obtain ⟨A, l, B, Xs, Ys, hsplit, hf⟩ := exists_focus_of_mem (h.nodup .limit o.side) ho
  have hside := hsplit ▸ h.shape .limit o.side
  have hprice : o.price = l.price := (hside.level.fits o (by simp [hf.queue])).2.2
  have hfill : H.queues.apply ⟨o.id, s, price, q, .fill, ts⟩ = update H.queues o.side
      (update (queueAt (A ++ B)) l.price (takeFrom o.id q l.entries)) :=
    h.queues_map hsplit hf fun _ => takeFrom_absent
  have hsettled : (H.settle o q).queues = update H.queues o.side
      (update (queueAt (A ++ B)) l.price
        (((settledLevel o q l).map (·.entries)).getD [])) := by
    rw [← queueAt_level (Shelf.strictBefore .limit o.side) hside _ fun _ => settledLevel_price,
      ← settle_lvls hsplit hf]
    funext t
    by_cases ht : t = o.side
    · subst ht
      rw [Function.update_self]
      rfl
    · rw [Function.update_of_ne ht]
      exact congrArg queueAt (settle_lvls_other (by simp [ht]) q)
  rw [hsettled, hfill, hf.settled_entries hside.level.count]
  by_cases hz : o.remainingQuantity - q = 0
  · by_cases ht : (o.fill q).hasNextTranche = true
    · have hid : (o.fill q).price = l.price := hprice
      simp [hz, ht, Order.reveals, Replica.apply, hid]
    · simp [hz, ht, Order.reveals]
  · simp [hz]

theorem Sound.queues_takeOut (h : H.Sound X w extra) (ho : o ∈ ordersIn (H.lvls .limit o.side))
    (s : Side) (price q ts : Int) :
    (H.takeOut .limit o).queues = H.queues.apply ⟨o.id, s, price, q, .cancel, ts⟩ := by
  obtain ⟨A, l, B, Xs, Ys, hsplit, hf⟩ := exists_focus_of_mem (h.nodup .limit o.side) ho
  have hside := hsplit ▸ h.shape .limit o.side
  have hcancel : H.queues.apply ⟨o.id, s, price, q, .cancel, ts⟩ = update H.queues o.side
      (update (queueAt (A ++ B)) l.price (without o.id l.entries)) :=
    h.queues_map hsplit hf fun _ => without_absent
  have hout : (unlinkFrom o (A ++ l :: B)).1 =
      A ++ ((if l.orderCount - 1 = 0 then none else some (l.unlink o)).toList ++ B) := by
    rw [hf.unlinkFrom_eq]
    split <;> simp
  have htake : (H.takeOut .limit o).queues =
      update H.queues o.side (queueAt (unlinkFrom o (A ++ l :: B)).1) := by
    rw [← hsplit]
    exact queues_set H o.side _
  rw [htake, hcancel, hout, queueAt_level (Shelf.strictBefore .limit o.side) hside,
    hf.unlinked_entries hside.level.count]
  intro m hm
  split at hm
  · simp at hm
  · obtain rfl : l.unlink o = m := by simpa using hm
    rfl

theorem Sound.queues_putIn (h : H.Sound X w extra) (o : Order) (pool : ObjectPool Unit)
    (ts : Int) : (H.putIn .limit o o.price pool).queues =
      H.queues.apply ⟨o.id, o.side, o.price, o.remainingQuantity, .add, ts⟩ := by
  have hstrict := Shelf.strictBefore .limit o.side
  have hside := h.shape .limit o.side
  have hput : (H.putIn .limit o o.price pool).queues = update H.queues o.side
      (queueAt (insertAt (Shelf.before .limit o.side) o.price o (H.lvls .limit o.side)).1) :=
    queues_set H o.side _
  rw [hput]
  congr 1
  rcases insertAt_split (hside.prices_nodup hstrict) _ o.price o with
    ⟨A, l, B, hsplit, hprice, heq⟩ | ⟨A, B, hsplit, hnone, heq⟩
  · rw [heq, queues, hsplit]
    have hside' := hsplit ▸ hside
    have happend := queueAt_level hstrict hside' (some (l.append o)) (by simp [append])
    simp only [Option.toList_some, singleton_append] at happend
    rw [happend, queueAt_self hstrict hside', ← hprice]
    simp [entries, append]
  · rw [heq, queues, hsplit]
    have hfree : ∀ m ∈ A ++ B, m.price ≠ o.price := by
      rw [← hsplit]
      simpa [findLevel, find?_eq_none] using hnone
    funext p
    by_cases hp : p = o.price
    · subst hp
      rw [Function.update_self, queueAt_eq_nil hfree, queueAt_append]
      have hA : queueAt A o.price = [] := queueAt_eq_nil fun m hm => hfree m (by simp [hm])
      have hB : queueAt B o.price = [] := queueAt_eq_nil fun m hm => hfree m (by simp [hm])
      have hcons : queueAt (append ⟨o.price, 0, 0, []⟩ o :: B) o.price =
          [(o.id, o.remainingQuantity)] ++ queueAt B o.price := by
        simp [queueAt, append, entries]
      rw [hA, hcons, hB]
      rfl
    · have hne : ¬o.price = p := fun he => hp he.symm
      rw [Function.update_of_ne hp, queueAt_append, queueAt_append]
      simp [queueAt, append, hne]

theorem queues_set_stop (H : Holdings) (s : Side) (lvls : List PriceLevel) :
    (H.set .stop s lvls).queues = H.queues := by
  funext t
  exact congrArg queueAt (set_other (by simp) lvls)

theorem queues_takeOut_stop (H : Holdings) (o : Order) : (H.takeOut .stop o).queues = H.queues :=
  queues_set_stop H o.side (unlinkFrom o (H.lvls .stop o.side)).1

theorem queues_enter_stop (H : Holdings) (o : Order) (price : Int) :
    (H.enter .stop o price).queues = H.queues := by
  rcases hpool : H.levelPool.allocate with _ | ⟨slot, pool⟩
  · rw [enter_none hpool]
    rfl
  · rw [enter_some hpool]
    exact queues_set_stop H o.side
      (insertAt (Shelf.before .stop o.side) price o (H.lvls .stop o.side)).1

theorem Sound.queues_enter (h : H.Sound X w extra) (o : Order) (ts : Int) :
    (H.enter .limit o o.price).queues =
      (if H.levelPool.allocate.isNone then []
        else [⟨o.id, o.side, o.price, o.remainingQuantity, .add, ts⟩]).foldl Replica.apply
        H.queues := by
  rcases hpool : H.levelPool.allocate with _ | ⟨slot, pool⟩
  · rw [enter_none hpool]
    rfl
  · rw [enter_some hpool]
    exact h.queues_putIn o pool ts

end Holdings

theorem Replica.fill_reveals (b : Replica) {o : Order} {a : OrderBookAction} (ha : a.action = .fill)
    (hne : o.id ≠ a.id) (ts : Int) : (((o.reveals ts).foldl Replica.apply b).apply a) =
      (o.reveals ts).foldl Replica.apply (b.apply a) := by
  unfold Order.reveals
  split
  · funext s p
    simp only [List.foldl_cons, foldl_nil, Replica.apply, ha]
    by_cases hs : s = o.side
    · subst hs
      by_cases hp : p = o.price
      · subst hp
        have hkeep : takeFrom a.id a.qty [(o.id, o.nextTranche)] = [(o.id, o.nextTranche)] :=
          takeFrom_absent (by simpa using hne)
        simp [takeFrom_append, hkeep]
      · simp [hp]
    · simp [hs]
  · rfl

/-- The moves that change an order's quantity and send no order-by-order event. -/
def Move.silent : Move D → Bool
  | .amend .. => true
  | .unfill .. => true
  | _ => false

namespace World.Sound

variable {W : World D}

theorem queues_fill (h : W.Sound X w) {order resting : Order} {f : FillResult} {left reported : Int}
    (hg : guard X (.fill ts order resting f left reported) W) :
    (W.engine.bookFill X ts order resting f reported).holdings.queues =
      (shows (.fill ts order resting f left reported) W).foldl Replica.apply
        W.engine.holdings.queues := by
  obtain ⟨hfl, hm⟩ := hg
  obtain ⟨hrest, -, -, -⟩ := h.rests_of_meets hm
  have hlvls : (W.engine.bookFill X ts order resting f reported).holdings.queues =
      (W.engine.holdings.settle resting f.quantity).queues := by
    unfold queues
    rw [h.fill_lvls hfl hm]
  rw [hlvls, (h.holds_some hfl).queues_settle hrest resting.side f.price f.quantity ts,
    ← hm.remaining]
  rfl

theorem queues_cross (h : W.Sound X w) {price : Int} {bid ask : Order} {q : Int}
    (hg : guard X (.cross price ts bid ask q) W)
    (hx : w → exact (D := D) (.cross price ts bid ask q)) :
    (W.engine.bookCross X price ts bid ask q).holdings.queues =
      (shows (.cross price ts bid ask q) W).foldl Replica.apply W.engine.holdings.queues := by
  have hlvls : (W.engine.bookCross X price ts bid ask q).holdings.queues =
      ((W.engine.holdings.settle bid q).settle ask q).queues := by
    unfold queues
    rw [h.cross_lvls hg]
  obtain ⟨hfl, hbid, hbuy, -, hask, hsell, -⟩ := hg
  have hH := h.holds_none hfl
  have hne : (bid.fill q).id ≠ ask.id := by
    intro he
    have hin : bid.id ∈ idsIn (W.engine.holdings.lvls .limit bid.side) :=
      mem_idsIn.mpr ⟨bid, hbid, rfl⟩
    have hin' : bid.id ∈ idsIn (W.engine.holdings.lvls .limit ask.side) :=
      mem_idsIn.mpr ⟨ask, hask, he.symm⟩
    exact hH.disjoint (by simp [hbuy, hsell]) hin hin'
  have hask' : ask ∈ ordersIn ((W.engine.holdings.settle bid q).lvls .limit ask.side) := by
    rw [settle_lvls_other (by simp [hbuy, hsell]) q]
    exact hask
  rw [hlvls, (hH.settle hbid fun hw => (hx hw).2.1).queues_settle hask' .sell price q ts,
    hH.queues_settle hbid .buy price q ts]
  simp only [shows, cons_append, nil_append, List.foldl_cons, foldl_append]
  -- The bid's tranche comes after the ask's fill.
  congr 1
  split
  · exact Replica.fill_reveals _ rfl hne ts
  · rfl

theorem queues_run (h : W.Sound X w) (hg : m.guard X W) (hx : w → m.exact) (hm : m.silent = false) :
    (m.run X W).engine.holdings.queues =
      (m.shows W).foldl Replica.apply W.engine.holdings.queues := by
  cases m with
  | fill ts order resting f left reported => exact h.queues_fill hg
  | cancelResting ts order resting f notify =>
    obtain ⟨hfl, hrest, -, -⟩ := hg
    have hout := (h.holds_some hfl).queues_takeOut hrest resting.side f.price
      resting.remainingQuantity ts
    cases notify with
    | false =>
      simp only [Move.run, Bool.false_eq_true, if_false, holdings_cancelResting]
      exact hout
    | true =>
      simp only [Move.run, if_true, holdings_notifyCancelled, holdings_cancelResting]
      exact hout
  | rest order ts =>
    simp only [Move.run, holdings_insertIntoBook]
    exact h.holds.queues_enter order ts
  | park order stopPrice =>
    simp only [Move.run, holdings_insertIntoStopBook]
    exact queues_enter_stop _ order stopPrice
  | trigger stop =>
    simp only [Move.run, holdings_removeStop]
    exact queues_takeOut_stop _ stop
  | pull order req =>
    simp only [Move.run, holdings_reportPull, holdings_removeOrder]
    exact h.holds.queues_takeOut hg.2 order.side order.price order.remainingQuantity req.timestamp
  | cancel order ts reason =>
    simp only [Move.run, holdings_reportCancel, holdings_removeOrder]
    exact h.holds.queues_takeOut hg.2 order.side order.price order.remainingQuantity ts
  | cancelStop order ts reason =>
    simp only [Move.run, holdings_dropOrder, holdings_removeStop]
    exact queues_takeOut_stop _ order
  | cross price ts bid ask q => exact h.queues_cross hg hx
  | amend | unfill => simp [silent] at hm
  | _ => rfl

end World.Sound

structure Replica.Shows (b : Replica) (e : Engine D) : Prop where
  levels : ∀ s, ∀ l ∈ e.book s, b s l.price = l.entries
  elsewhere : ∀ s p, (∀ l ∈ e.book s, l.price ≠ p) → b s p = []

def World.Fed (W : World D) : Prop :=
  orderFeed.state W.engine.journal = W.engine.holdings.queues

theorem World.Fed.run {W : World D} (h : W.Fed) (hs : W.Sound X w) (hg : m.guard X W)
    (hx : w → m.exact) (hm : m.silent = false) : (m.run X W).Fed := by
  unfold World.Fed at h ⊢
  rw [orderFeed_state] at h ⊢
  rw [run_shown hg, foldl_append, h, hs.queues_run hg hx hm]

theorem World.Fed.shows (h : World.Fed ⟨e, none⟩) (hs : World.Sound X w ⟨e, none⟩) :
    (orderFeed.state e.journal).Shows e := by
  have hstate : orderFeed.state e.journal = e.holdings.queues := h
  rw [hstate]
  constructor
  · intro s l hl
    have hside : SideSound w (Shelf.before .limit s) (Shelf.fits .limit s) (e.book s) :=
      hs.holds.shape .limit s
    have hqueue : e.holdings.queues s = queueAt (e.book s) := rfl
    obtain ⟨A, B, hsplit⟩ := append_of_mem hl
    rw [hsplit] at hside
    rw [hqueue, hsplit, queueAt_self (Shelf.strictBefore .limit s) hside, Function.update_self]
  · exact fun s p hp => queueAt_eq_nil hp

def Engine.followed (e : Engine D) : Action → Prop
  | .modifyOrder req => ∀ order ∈ e.linked, order.id = req.orderId → e.rests order
  | .bustTrade .. => False
  | .restoreOrder .. => False
  | .applyImpliedFills .. => False
  | _ => True

theorem World.Fed.note (h : World.Fed ⟨e, none⟩) (hs : World.Sound X w ⟨e, none⟩) (t : RateTracker)
    (es : List JournalEntry) (hes : ∀ x ∈ es, x.quiet = true) :
    World.Sound X w ⟨{ e with rateTracker := t, journal := e.journal ++ es }, none⟩ ∧
      World.Fed ⟨{ e with rateTracker := t, journal := e.journal ++ es }, none⟩ :=
  ⟨hs.run (m := .note t es) hes fun _ => trivial, h.run hs (m := .note t es) hes (fun _ => trivial)
    rfl⟩

theorem OpOutcome.keeps_fed {P : Move D → Bool} {r : Outcome D (Engine D)}
    (h : OpOutcome X w False P ⟨e, none⟩ r) (hP : ∀ m, P m = true → m.silent = false)
    (hs : World.Sound X w ⟨e, none⟩) (hfed : World.Fed ⟨e, none⟩) :
    Outcome.Keeps (fun W => W.Sound X w ∧ W.Fed) r :=
  h.keeps hs hfed fun m _ hV hI hg hl hp => hI.run hV hg hl.exact (hP m hp)

theorem modifyOrder_keeps_fed (hpolicy : ∀ d, X.getModifyPolicy d = .cancelReplace) (fuel : Nat)
    {req : ModifyRequest} (hs : World.Sound X False ⟨e, none⟩) (hfed : World.Fed ⟨e, none⟩)
    (hok : e.followed (.modifyOrder req)) :
    Outcome.Keeps (fun W => W.Sound X False ∧ W.Fed) (e.modifyOrder X fuel req) := by
  have hH : e.holdings.Sound X False [] := hs.holds_none rfl
  rcases modifyOrder_cases fuel req hH with
    ⟨t, reason, heq⟩ | ⟨t, order, hmem, hid, ⟨hamend, heq⟩ | ⟨-, heq⟩⟩
  · rw [heq]
    exact hfed.note hs t _ (by simp [JournalEntry.quiet])
  · simp [amends, hpolicy] at hamend
  · have hrest := hok order hmem hid
    obtain ⟨hs', hfed'⟩ := hfed.note hs t [] (by simp)
    rw [append_nil] at hs' hfed'
    rw [heq]
    refine (replaceOrder_run (P := fun m => !m.silent) ?_ fuel rfl hs' False.elim
      False.elim hrest (type_of_rests hH hrest) False.elim).keeps_fed (by simp) hs' hfed'
    intro m hm
    cases m <;> first | rfl | simp [landing, matching] at hm

theorem perform_keeps_fed (hpolicy : ∀ d, X.getModifyPolicy d = .cancelReplace) (fuel : Nat)
    {a : Action} (hs : World.Sound X False ⟨e, none⟩) (hfed : World.Fed ⟨e, none⟩)
    (hok : e.followed a) :
    Outcome.Keeps (fun W => W.Sound X False ∧ W.Fed) (e.perform X fuel a) := by
  have hplain : (∀ m : Move D, m.partOf a = true → m.silent = false) →
      e.Admits False False a →
      Outcome.Keeps (fun W => W.Sound X False ∧ W.Fed) (e.perform X fuel a) :=
    fun hm ha => (perform_run fuel hs False.elim False.elim ha).keeps_fed hm hs hfed
  cases a with
  | modifyOrder req =>
    obtain ⟨hs', hfed'⟩ := hfed.note hs e.rateTracker [.action (.modifyOrder req)]
      (by simp [JournalEntry.quiet])
    exact modifyOrder_keeps_fed hpolicy fuel hs' hfed' hok
  | setSessionState | unlockLimit =>
    exact hplain (fun m hm => by cases m <;> first | rfl | cases hm) id
  | bustTrade | restoreOrder | applyImpliedFills => exact hok.elim
  | _ => exact hplain (fun m hm => by cases m <;> first | rfl | cases hm) trivial

/-- Under the cancel-replace policy the order-by-order feed shows the queues of the book after
every operation. -/
theorem reach_orderFeed (X : Exchange D) (hpolicy : ∀ d, X.getModifyPolicy d = .cancelReplace)
    (config : EngineConfig) (derived : D) (slots : Nat → SlotResidue) {e : Engine D}
    (h : Reach X Engine.followed (Engine.init X config derived slots) e) :
    (orderFeed.state e.journal).Shows e := by
  have hinit : World.Fed ⟨init X config derived slots, none⟩ := rfl
  obtain ⟨⟨hs, hfed⟩, -⟩ := reach_keeps
    ⟨init_sound X False config derived slots, hinit⟩
    (fun e a fuel ha hI => perform_keeps_fed hpolicy fuel hI.1 hI.2 ha) h
  exact hfed.shows hs

def feedActions : List Action :=
  [.newOrder { limitRequest .sell 101 6 with displayQty := 3 },
    .newOrder (limitRequest .sell 101 5), .newOrder (limitRequest .buy 101 4),
    .modifyOrder liftRequest, .executeAuction 101 3]

theorem reach_orderFeed_sample : (orderFeed.state (runAll sampleExchange feedActions
      (sampleStart sampleExchange sampleConfig ())).journal).Shows
    (runAll sampleExchange feedActions (sampleStart sampleExchange sampleConfig ())) := by
  refine reach_orderFeed sampleExchange (fun _ => rfl) sampleConfig () (fun _ => {})
    (reach_passes ⟨trivial, trivial, trivial, ?_, trivial, trivial⟩ (by decide +kernel))
  simp only [followed, rests]
  decide +kernel

end ExchangeSim
