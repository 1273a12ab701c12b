import ExchangeSim.AuctionPrice
import ExchangeSim.Drain
import ExchangeSim.Exposure

/-!
What an auction takes from the book. Every fill comes out of the best level of both sides, and out
of the oldest order there until an order shows its next tranche ahead of others.
-/

namespace ExchangeSim

open Engine List Option PriceLevel Holdings

open UniformPrice

variable {D : Type} {X : Exchange D} {l : PriceLevel} {s : Side} {ys : List Order} {o : Order}
  {fits : Int → Order → Prop} {w : Prop} {rest : List PriceLevel}

def PriceLevel.whole (l : PriceLevel) : Int :=
  (l.orders.map Order.exposure).sum

def depthOf (lvls : List PriceLevel) : List (Int × Int) :=
  lvls.map fun l => (l.price, l.whole)

def queueOf (lvls : List PriceLevel) : List (Nat × Int) :=
  (ordersIn lvls).map fun o => (o.id, o.exposure)

/-- The volumes at which an order of a level has given all it shows, hides more and has another
order behind it; `v` is what was given before. -/
def turnsIn : Int → List Order → List Int
  | v, o :: x :: os =>
    (if o.exposure = o.remainingQuantity then [] else [v + o.remainingQuantity]) ++
      turnsIn (v + o.exposure) (x :: os)
  | _, _ => []

def turns : Int → List PriceLevel → List Int
  | _, [] => []
  | v, l :: lvls => turnsIn v l.orders ++ turns (v + l.whole) lvls

theorem Order.remaining_le_exposure (o : Order) : o.remainingQuantity ≤ o.exposure := by
  unfold exposure
  split
  · exact le_max_left _ _
  · exact le_rfl

theorem Order.hides_iff :
    (o.fill o.remainingQuantity).hasNextTranche = true ↔ o.exposure ≠ o.remainingQuantity := by
  rw [hasNextTranche_iff, exposure]
  simp only [fill]
  split <;> omega

theorem sum_pos_of_ne_nil {xs : List Int} (hne : xs ≠ []) (hpos : ∀ x ∈ xs, 0 < x) : 0 < xs.sum := by
  obtain ⟨x, xs, rfl⟩ := exists_cons_of_ne_nil hne
  have hrest : 0 ≤ xs.sum := sum_nonneg fun y hy => (hpos y (by simp [hy])).le
  have := hpos x (by simp)
  rw [sum_cons]
  omega

theorem PriceLevel.whole_pos (h : l.Sound True fits) : 0 < l.whole := by
  refine sum_pos_of_ne_nil (by simpa using h.nonempty) fun x hx => ?_
  obtain ⟨o, ho, rfl⟩ := mem_map.mp hx
  exact ((h.exact trivial).positive o ho).trans_le o.remaining_le_exposure

section Settled

variable {s : Side} {l : PriceLevel} {rest : List PriceLevel} {o : Order} {Xs Ys : List Order}
  {q : Int}

theorem PriceLevel.whole_split (h : l.orders = Xs ++ o :: Ys) :
    l.whole = ((Xs ++ Ys).map Order.exposure).sum + o.exposure := by
  simp only [whole, h, map_append, List.map_cons, sum_append, sum_cons]
  omega

theorem settledLevel_whole {A B : List PriceLevel} (hf : Focus o A l B Xs Ys)
    (hcount : l.orderCount = l.orders.length) (q : Int) :
    (settledLevel o q l).elim 0 whole = l.whole - q := by
  have hwhole := whole_split hf.queue
  unfold settledLevel
  split
  next hzero =>
    split
    next hnext =>
      have hfilter := (hf.fillOrder q).filter_queue
      have he := Order.exposure_reveal hzero hnext
      rw [Order.exposure_fill] at he
      simp only [elim_some, whole, reveal, requeue, hfilter,
        map_append, List.map_cons, map_nil, sum_append, sum_cons, sum_nil,
        he] at hwhole ⊢
      omega
    next hnext =>
      have he := Order.exposure_of_done hzero hnext
      split
      next hone =>
        have hnil : Xs ++ Ys = [] := by
          have : l.orders.length = (Xs ++ Ys).length + 1 := by simp [hf.queue]; omega
          exact length_eq_zero_iff.mp (by omega)
        simp only [elim_none, hwhole, hnil, map_nil, sum_nil]
        omega
      next =>
        have hfilter := hf.filter_queue
        simp only [elim_some, whole, unlink, hfilter] at hwhole ⊢
        omega
  next =>
    have hsplit := whole_split (hf.fillOrder_orders q)
    rw [elim_some, hsplit, Order.exposure_fill, hwhole]
    omega

theorem depthOf_settled (hf : Focus o [] l rest Xs Ys) (hcount : l.orderCount = l.orders.length)
    (hsound : ∀ m ∈ settledLevel o q l, m.Sound True fits) (hq : 0 < q) :
    depthOf ((settledLevel o q l).toList ++ rest) = drain q (depthOf (l :: rest)) := by
  have hwhole := settledLevel_whole hf hcount q
  simp only [depthOf, map_append, List.map_cons]
  cases hm : settledLevel o q l with
  | none =>
    rw [hm, elim_none] at hwhole
    rw [drain_of_le (by omega) (by omega), drain_of_nonpos (by omega)]
    rfl
  | some m =>
    have hpos := whole_pos (hsound m hm)
    rw [hm, elim_some] at hwhole
    rw [drain_of_lt hq (by omega), toList_some, List.map_cons, map_nil,
      singleton_append, hwhole, settledLevel_price hm]

theorem turnsIn_cons {os : List Order} (hne : os ≠ []) (v : Int) (o : Order) :
    turnsIn v (o :: os) = (if o.exposure = o.remainingQuantity then [] else
      [v + o.remainingQuantity]) ++ turnsIn (v + o.exposure) os := by
  obtain ⟨x, os, rfl⟩ := exists_cons_of_ne_nil hne
  rfl

theorem turns_of_open {lvls : List PriceLevel}
    (h : ∀ o ∈ ordersIn lvls, o.exposure = o.remainingQuantity) (v : Int) : turns v lvls = [] := by
  have hin : ∀ os : List Order, (∀ o ∈ os, o.exposure = o.remainingQuantity) → ∀ v,
      turnsIn v os = [] := by
    intro os ho v
    fun_induction turnsIn v os with
    | case1 v o x os ih =>
      rw [if_pos (ho o (by simp)), ih fun y hy => ho y (by simp [hy]), nil_append]
    | case2 => rfl
  induction lvls generalizing v with
  | nil => rfl
  | cons l lvls ih =>
    rw [ordersIn_cons, List.forall_mem_append] at h
    rw [turns, hin _ h.1, ih h.2, append_nil]

/-- The turn of an order that hides something and has another one behind it. -/
theorem mem_turns {A B : List PriceLevel} {os : List Order} {x : Order}
    (horders : l.orders = os ++ o :: x :: ys) (hides : o.exposure ≠ o.remainingQuantity) (v : Int) :
    v + ((ordersIn A ++ os).map Order.exposure).sum + o.remainingQuantity ∈
      turns v (A ++ l :: B) := by
  induction A generalizing v with
  | nil =>
    rw [nil_append, turns, horders]
    refine mem_append_left _ ?_
    clear horders
    induction os generalizing v with
    | nil => simp [turnsIn, hides]
    | cons y os ih =>
      rw [cons_append, turnsIn_cons (by simp)]
      refine mem_append_right _ ?_
      simpa [add_assoc] using ih (v + y.exposure)
  | cons m A ih =>
    rw [cons_append, turns]
    refine mem_append_right _ ?_
    simpa [whole, add_assoc] using ih (v + m.whole)

theorem turnsIn_gt {os : List Order} {v T : Int} (hpos : ∀ o ∈ os, 0 < o.remainingQuantity)
    (hT : T ∈ turnsIn v os) : v < T := by
  fun_induction turnsIn v os with
  | case1 v o x os ih =>
    have ho := hpos o (by simp)
    have := o.remaining_le_exposure
    rcases List.mem_append.mp hT with hT | hT
    · split at hT
      · simp at hT
      · obtain rfl := mem_singleton.mp hT
        omega
    · have := ih (fun y hy => hpos y (by simp [hy])) hT
      omega
  | case2 => simp at hT

theorem ordersIn_toList (m : Option PriceLevel) (rest : List PriceLevel) :
    ordersIn (m.toList ++ rest) = m.elim [] orders ++ ordersIn rest := by
  cases m <;> simp

theorem PriceLevel.exposure_le_whole (h : ∀ x ∈ l.orders, 0 < x.remainingQuantity)
    (ho : o ∈ l.orders) : o.exposure ≤ l.whole := by
  refine single_le_sum (fun n hn => ?_) _ (mem_map_of_mem ho)
  obtain ⟨x, hx, rfl⟩ := mem_map.mp hn
  exact (h x hx).le.trans x.remaining_le_exposure

theorem turns_gt {lvls : List PriceLevel} {v T : Int} (hpos : ∀ l ∈ lvls, l.Sound True fits)
    (hT : T ∈ turns v lvls) : v < T := by
  induction lvls generalizing v with
  | nil => simp [turns] at hT
  | cons l lvls ih =>
    rw [List.forall_mem_cons] at hpos
    rcases List.mem_append.mp hT with hT | hT
    · exact turnsIn_gt (hpos.1.exact trivial).positive hT
    · have := whole_pos hpos.1
      have := ih hpos.2 hT
      omega

section Front

variable {v : Int} (hf : Focus o [] l rest [] ys) (hcount : l.orderCount = l.orders.length)
  (hq : 0 < q) (hle : q ≤ o.remainingQuantity) (hturn : ∀ T ∈ turns v (l :: rest), v + q < T)

include hf hturn

/-- Before the next turn an order that shows its next tranche is alone on its level. -/
theorem alone_of_reveals (hzero : o.remainingQuantity - q = 0)
    (hnext : (o.fill q).hasNextTranche = true) : ys = [] := by
  obtain rfl : q = o.remainingQuantity := by omega
  by_contra hne
  obtain ⟨y, ys, rfl⟩ := exists_cons_of_ne_nil hne
  have := hturn (v + o.remainingQuantity) (by
    simp [turns, turnsIn, hf.queue, Order.hides_iff.mp hnext])
  omega

include hcount

theorem settledLevel_front : (settledLevel o q l).elim [] orders = (o.settled q).toList ++ ys := by
  have hq : l.orders = o :: ys := by simpa using hf.queue
  unfold settledLevel Order.settled
  split
  next hzero =>
    split
    next hnext =>
      have hfilter := (hf.fillOrder q).filter_queue
      simp only [elim_some, reveal, requeue, hfilter, alone_of_reveals hf hturn hzero hnext]
      rfl
    next =>
      have hfilter := hf.filter_queue
      split
      next hone =>
        have hnil : ys = [] := by
          rw [hcount, hq, List.length_cons] at hone
          exact length_eq_zero_iff.mp (by omega)
        simp [hnil]
      next => simpa [unlink] using hfilter
  next => simpa using hf.fillOrder_orders q

theorem turns_settled : turns (v + q) ((settledLevel o q l).toList ++ rest) = turns v (l :: rest) := by
  have horders : l.orders = o :: ys := by simpa using hf.queue
  have hwhole := settledLevel_whole hf hcount q
  have hfront := settledLevel_front hf hcount hturn
  have hin : turnsIn (v + q) ((o.settled q).toList ++ ys) = turnsIn v (o :: ys) := by
    have halone := alone_of_reveals hf hturn
    have := o.remaining_le_exposure
    unfold Order.settled
    split
    next hzero =>
      split
      next hnext => rw [halone hzero hnext]; rfl
      next hnext =>
        have he := Order.exposure_of_done hzero hnext
        cases ys with
        | nil => rfl
        | cons y ys =>
          rw [turnsIn, if_pos (by omega), he]
          rfl
    next =>
      cases ys with
      | nil => rfl
      | cons y ys =>
        simp only [toList_some, singleton_append, turnsIn, Order.exposure_fill]
        simp only [Order.fill, sub_left_inj, add_assoc, add_sub_cancel]
  cases hm : settledLevel o q l with
  | none =>
    rw [hm, elim_none] at hwhole hfront
    rw [← hfront] at hin
    rw [turns, horders, ← hin, show v + l.whole = v + q by omega]
    rfl
  | some m =>
    rw [hm, elim_some] at hwhole hfront
    rw [toList_some, singleton_append, turns, turns, hfront, hin, horders, hwhole,
      show v + q + (l.whole - q) = v + l.whole by omega]

include hq hle in
theorem queueOf_settled :
    queueOf ((settledLevel o q l).toList ++ rest) = drain q (queueOf (l :: rest)) := by
  have horders : l.orders = o :: ys := by simpa using hf.queue
  simp only [queueOf, ordersIn_toList, settledLevel_front hf hcount hturn,
    ordersIn_cons, horders, cons_append, List.map_cons, map_append, List.append_assoc]
  have hexp := o.remaining_le_exposure
  unfold Order.settled
  split
  next hzero =>
    split
    next hnext =>
      obtain rfl : q = o.remainingQuantity := by omega
      have he := Order.exposure_reveal hzero hnext
      have := Order.hides_iff.mp hnext
      rw [drain_of_lt hq (by omega)]
      simp only [toList_some, List.map_cons, map_nil, singleton_append, he,
        Order.exposure_fill]
      rfl
    next hnext =>
      have he := Order.exposure_of_done hzero hnext
      rw [drain_of_le (by omega) he.le, he, sub_self, drain_of_nonpos le_rfl]
      rfl
  next hne =>
    rw [drain_of_lt hq (by omega)]
    simp [Order.exposure_fill]

end Front

end Settled

variable {e e' : Engine D} {U V v price ts : Int}

def Engine.OnBest (e : Engine D) (s : Side) (o : Order) : Prop :=
  ∃ l rest, e.book s = l :: rest ∧ o ∈ l.orders

def Engine.Oldest (e : Engine D) (s : Side) (id : Nat) : Prop :=
  (queueOf (e.book s)).head?.map Prod.fst = some id

theorem bookCross_book (hs : World.Sound X w ⟨e, none⟩) {pair : Side → Order}
    (hbest : ∀ s, e.OnBest s (pair s)) (price ts q : Int) (s : Side)
    (hbook : e.book s = l :: rest) :
    (e.bookCross X price ts (pair .buy) (pair .sell) q).book s =
      (settledLevel (pair s) q l).toList ++ rest := by
  have hH : e.holdings.Sound X w [] := hs.holds_none rfl
  have hin : ∀ s, pair s ∈ ordersIn (e.book s) := by
    intro s
    obtain ⟨l, rest, hl, ho⟩ := hbest s
    rw [hl]
    exact mem_ordersIn.mpr ⟨l, by simp, ho⟩
  have hside : ∀ s, (pair s).side = s := fun s => hH.side_eq (k := .limit) (hin s)
  have hfocus : ∀ s, ∃ l rest Xs Ys, e.book s = [] ++ l :: rest ∧
      Focus (pair s) [] l rest Xs Ys := by
    intro s
    obtain ⟨l, rest, hl, ho⟩ := hbest s
    obtain ⟨Xs, Ys, hf⟩ := exists_focus (hH.nodup .limit s) (A := []) hl ho
    exact ⟨l, rest, Xs, Ys, hl, hf⟩
  obtain ⟨b, bids, Xb, Yb, hb, hfb⟩ := hfocus .buy
  obtain ⟨k, asks, Xk, Yk, hk, hfk⟩ := hfocus .sell
  have hlvls := congrArg (fun H => H.lvls .limit s)
    (holdings_bookCross X price ts q (hside .buy) (hside .sell) hb hfb hk hfk)
  refine hlvls.trans ?_
  change ((e.holdings.settle (pair .buy) q).settle (pair .sell) q).lvls .limit s = _
  cases s with
  | buy =>
    obtain ⟨rfl, rfl⟩ : b = l ∧ bids = rest := by simpa using hb.symm.trans hbook
    rw [settle_lvls_other (by simp [hside .sell])]
    have h := settle_lvls (H := e.holdings)
      (by rw [hside .buy]; exact hb) hfb q
    rw [hside .buy] at h
    simpa using h
  | sell =>
    obtain ⟨rfl, rfl⟩ : k = l ∧ asks = rest := by simpa using hk.symm.trans hbook
    have hsell : (e.holdings.settle (pair .buy) q).lvls .limit (pair .sell).side =
        [] ++ k :: asks := by
      rw [hside .sell, settle_lvls_other (by simp [hside .buy])]
      exact hk
    have h := settle_lvls hsell hfk q
    rw [hside .sell] at h
    simpa using h

def Trade.party (s : Side) (t : Trade) : Nat :=
  if t.aggressorSide = s then t.aggressorId else t.restingId

theorem party_pair (price q ts : Int) (pair : Side → Order) (s : Side) :
    Trade.party s ⟨price, q, (pair .buy).id, (pair .sell).id, .buy, ts⟩ = (pair s).id := by
  cases s <;> rfl

def volumeOf (trades : List Trade) : Int :=
  (trades.map (·.quantity)).sum

def tradedBy (s : Side) (id : Nat) (trades : List Trade) : Int :=
  quantityOf (fun k => k == id) (trades.map fun t => (t.party s, t.quantity))

/-- A run of auction fills at one price, each between orders of the two best levels, where a volume
of `v` was traded before. Until a volume of `U` the fills go to the oldest orders, and until `V` a
fill is followed by one of the orders the auction goes on with, if it has one on either side. -/
inductive Clearing (X : Exchange D) (U V price ts : Int) :
    Int → Engine D → List Trade → Engine D → Prop
  | done {v : Int} {e : Engine D} (sound : World.Sound X True ⟨e, none⟩) :
      Clearing X U V price ts v e [] e
  | fill {v : Int} {e e' : Engine D} {trades : List Trade} (pair : Side → Order) (q : Int)
      (sound : World.Sound X True ⟨e, none⟩) (best : ∀ s, e.OnBest s (pair s))
      (oldest : v < U → ∀ s, e.Oldest s (pair s).id) (pos : 0 < q)
      (fits : ∀ s, q ≤ (pair s).remainingQuantity)
      (goes : v + q < V → (∀ s, ((pair s).goesOn q (e.book s)).isSome = true) →
        ∀ s, trades.head?.map (Trade.party s) = (pair s).goesOn q (e.book s))
      (next : Clearing X U V price ts (v + q) (e.bookCross X price ts (pair .buy) (pair .sell) q)
        trades e') :
      Clearing X U V price ts v e
        (⟨price, q, (pair .buy).id, (pair .sell).id, .buy, ts⟩ :: trades) e'

theorem Engine.Oldest.focus (hs : World.Sound X w ⟨e, none⟩) (hbook : e.book s = l :: rest)
    (ho : o ∈ l.orders) (h : e.Oldest s o.id) : ∃ ys, Focus o [] l rest [] ys := by
  have hH : e.holdings.Sound X w [] := hs.holds_none rfl
  obtain ⟨Xs, Ys, hf⟩ := exists_focus (hH.nodup .limit s) (A := []) hbook ho
  cases Xs with
  | nil => exact ⟨Ys, hf⟩
  | cons x Xs =>
    have hx : x.id = o.id := by
      simpa [Oldest, queueOf, hbook, hf.queue] using h
    exact absurd hx (hf.inside x (by simp))

theorem World.Sound.level (hs : World.Sound X True ⟨e, none⟩) (hl : l ∈ e.book s) :
    l.Sound True (bookFits s) :=
  ((hs.holds_none rfl).shape .limit s).sound l hl

theorem World.Sound.filled_depth (hs : World.Sound X True ⟨e, none⟩) (s : Side) :
    Filled (depthOf (e.book s)) := by
  intro x hx
  obtain ⟨l, hl, rfl⟩ := mem_map.mp hx
  exact whole_pos (hs.level hl)

theorem World.Sound.filled_queue (hs : World.Sound X True ⟨e, none⟩) (s : Side) :
    Filled (queueOf (e.book s)) := by
  intro x hx
  obtain ⟨o, ho, rfl⟩ := mem_map.mp hx
  obtain ⟨l, hl, hol⟩ := mem_ordersIn.mp ho
  exact (((hs.level hl).exact trivial).positive o hol).trans_le o.remaining_le_exposure

section Step

variable {pair : Side → Order} {q : Int} (hs : World.Sound X True ⟨e, none⟩)
  (hbest : ∀ s, e.OnBest s (pair s)) (pos : 0 < q)

include hs hbest pos

theorem depthOf_bookCross
    (hs' : World.Sound X True ⟨e.bookCross X price ts (pair .buy) (pair .sell) q, none⟩)
    (s : Side) : depthOf ((e.bookCross X price ts (pair .buy) (pair .sell) q).book s) =
      drain q (depthOf (e.book s)) := by
  obtain ⟨l, rest, hbook, ho⟩ := hbest s
  have hafter := bookCross_book hs hbest price ts q s hbook
  obtain ⟨Xs, Ys, hf⟩ := exists_focus ((hs.holds_none rfl).nodup .limit s) (A := []) hbook ho
  have hsettled : ∀ m ∈ settledLevel (pair s) q l, m.Sound True (bookFits s) := by
    intro m hm
    refine hs'.level ?_
    rw [hafter]
    exact mem_append_left _ (mem_toList.mpr hm)
  rw [hafter, hbook]
  exact depthOf_settled hf (hs.level (s := s) (by simp [hbook])).count hsettled pos

theorem queueOf_bookCross (price ts : Int) (fits : ∀ s, q ≤ (pair s).remainingQuantity) (s : Side)
    (hturn : ∀ T ∈ turns v (e.book s), v + q < T) (hold : e.Oldest s (pair s).id) :
    turns (v + q) ((e.bookCross X price ts (pair .buy) (pair .sell) q).book s) =
        turns v (e.book s) ∧
      queueOf ((e.bookCross X price ts (pair .buy) (pair .sell) q).book s) =
        drain q (queueOf (e.book s)) := by
  obtain ⟨l, rest, hbook, ho⟩ := hbest s
  obtain ⟨ys, hf⟩ := hold.focus hs hbook ho
  have hcount := (hs.level (s := s) (l := l) (by simp [hbook])).count
  rw [bookCross_book hs hbest price ts q s hbook, hbook]
  rw [hbook] at hturn
  exact ⟨turns_settled hf hcount hturn, queueOf_settled hf hcount pos (fits s) hturn⟩

end Step

def JournalEntry.trade? : JournalEntry → Option Trade
  | .event (.trade t) => some t
  | _ => none

def Engine.trades (e : Engine D) : List Trade :=
  e.journal.filterMap JournalEntry.trade?

theorem trades_filter {p : JournalEntry → Bool} (hp : ∀ t, p (.event (.trade t)) = true)
    (e : Engine D) : e.trades = (e.journal.filter p).filterMap JournalEntry.trade? := by
  rw [trades, filterMap_filter]
  refine filterMap_congr fun x _ => ?_
  cases x with
  | action a => simp [JournalEntry.trade?]
  | event ev => cases ev <;> simp [JournalEntry.trade?, hp]

theorem trades_tape (e : Engine D) : e.trades = e.tape.filterMap JournalEntry.trade? :=
  trades_filter (fun _ => rfl) e

@[simp] theorem volumeOf_cons (t : Trade) (trades : List Trade) :
    volumeOf (t :: trades) = t.quantity + volumeOf trades := by
  simp [volumeOf]

theorem volumeOf_append (xs ys : List Trade) :
    volumeOf (xs ++ ys) = volumeOf xs + volumeOf ys := by
  simp [volumeOf]

theorem volumeOf_nonneg {trades : List Trade} (h : ∀ t ∈ trades, 0 < t.quantity) :
    0 ≤ volumeOf trades :=
  sum_nonneg fun n hn => by
    obtain ⟨t, ht, rfl⟩ := mem_map.mp hn
    exact (h t ht).le

namespace Clearing

variable {trades : List Trade}

section

variable (h : Clearing X U V price ts v e trades e')

include h

theorem quantity_pos : ∀ t ∈ trades, 0 < t.quantity := by
  induction h with
  | done => simp
  | fill pair q _ _ _ pos _ _ _ ih => exact List.forall_mem_cons.mpr ⟨pos, ih⟩

theorem volume_nonneg : 0 ≤ volumeOf trades :=
  volumeOf_nonneg h.quantity_pos

theorem at_price : ∀ t ∈ trades, t.price = price := by
  induction h with
  | done => simp
  | fill pair q _ _ _ _ _ _ _ ih =>
    intro t ht
    rcases List.mem_cons.mp ht with rfl | ht
    · rfl
    · exact ih t ht

theorem trades_eq : e'.trades = e.trades ++ trades := by
  induction h with
  | done => simp
  | fill pair q _ _ _ _ _ _ _ ih =>
    rw [ih, trades_tape, trades_tape, tape_bookCross, filterMap_append, List.append_assoc]
    rfl

theorem sound : World.Sound X True ⟨e, none⟩ := by
  cases h <;> assumption

theorem sound_end : World.Sound X True ⟨e', none⟩ := by
  induction h with
  | done hs => exact hs
  | fill _ _ _ _ _ _ _ _ _ ih => exact ih

theorem trans {trades' : List Trade} {e'' : Engine D}
    (h' : Clearing X U V price ts (v + volumeOf trades) e' trades' e'') :
    Clearing X U V price ts v e (trades ++ trades') e'' := by
  induction h with
  | done => simpa [volumeOf] using h'
  | @fill v e e' trades pair q hs best oldest pos fits goes _ ih =>
    rw [volumeOf_cons, ← add_assoc] at h'
    refine .fill pair q hs best oldest pos fits (fun hlt hsome s => ?_) (ih h')
    have hhead := goes hlt hsome s
    cases trades with
    | nil =>
      have hnone : (pair s).goesOn q (e.book s) = none := by simpa using hhead.symm
      simpa [hnone] using hsome s
    | cons t trades => exact hhead

theorem depth (s : Side) :
    depthOf (e'.book s) = drain (volumeOf trades) (depthOf (e.book s)) := by
  induction h with
  | done => exact (drain_of_nonpos le_rfl _).symm
  | fill pair q hs best _ pos _ _ next ih =>
    rw [ih, depthOf_bookCross hs best pos next.sound, volumeOf_cons,
      drain_add (hs.filled_depth s) pos.le next.volume_nonneg]

end

theorem queue {before after : List Trade} (h : Clearing X U V price ts v e (before ++ after) e')
    (hturn : ∀ T ∈ turns v (e.book s), U ≤ T) (hlt : v + volumeOf before < U) :
    ∃ e₁, Clearing X U V price ts (v + volumeOf before) e₁ after e' ∧
      queueOf (e₁.book s) = drain (volumeOf before) (queueOf (e.book s)) ∧
      ∀ id, tradedBy s id before = quantityOf (fun k => k == id) (queueOf (e.book s)) -
        quantityOf (fun k => k == id) (queueOf (e₁.book s)) := by
  induction before generalizing v e with
  | nil =>
    refine ⟨e, by simpa [volumeOf] using h, (drain_of_nonpos le_rfl _).symm, fun id => ?_⟩
    rw [sub_self]
    rfl
  | cons t before ih =>
    have hpos : 0 ≤ volumeOf before :=
      volumeOf_nonneg fun u hu => h.quantity_pos u (by simp [hu])
    cases h with
    | fill pair q hs best oldest pos fits goes next =>
      rw [volumeOf_cons] at hlt ⊢
      dsimp only at hlt ⊢
      have hold := oldest (by omega) s
      obtain ⟨hturn₁, hqueue₁⟩ := queueOf_bookCross hs best pos price ts fits s
        (fun T hT => by have := hturn T hT; omega) hold
      obtain ⟨e₁, hrun, hqueue, htraded⟩ := ih next (hturn₁ ▸ hturn) (by omega)
      refine ⟨e₁, by rwa [← add_assoc], ?_, fun id => ?_⟩
      · rw [hqueue, hqueue₁, drain_add (hs.filled_queue s) pos.le hpos]
      · obtain ⟨l, rest, hbook, ho⟩ := best s
        obtain ⟨ys, hf⟩ := hold.focus hs hbook ho
        have hfront : queueOf (e.book s) =
            ((pair s).id, (pair s).exposure) :: (queueOf (e.book s)).tail := by
          simp [queueOf, hbook, hf.queue]
        have hstep := quantityOf_drain_first (queueOf (e.book s)).tail (k := (pair s).id) pos
          ((fits s).trans (pair s).remaining_le_exposure) fun k => k == id
        rw [← hfront] at hstep
        have := htraded id
        rw [hqueue₁, hstep] at this
        rw [tradedBy, List.map_cons, quantityOf_cons, party_pair]
        dsimp only
        rw [tradedBy] at this
        omega

end Clearing

end ExchangeSim
