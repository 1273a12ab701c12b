import ExchangeSim.Inversions
import Mathlib.Algebra.Group.Subgroup.ZPowers.Basic
import Mathlib.Algebra.Order.Group.Int

/-!
Quantities on a grid. The engine only adds quantities, subtracts them and takes the smaller of two,
so whatever group of numbers the requests are taken from, it never leaves it. The same goes for what
it reports: only a trade, a bust and a limit hit are reports that not every operation makes.
-/

namespace ExchangeSim

open Engine List Function TradeRegistry

variable {D : Type} {G : AddSubgroup ℤ} {E : Event → Prop} {s : Side} {f : Order → Order}
  {lvls : List PriceLevel} {r : Bool × Engine D}

theorem min_mem_grid {a b : ℤ} (ha : a ∈ G) (hb : b ∈ G) : min a b ∈ G := by
  rcases min_choice a b with h | h <;> rw [h] <;> assumption

structure Order.OnGrid (G : AddSubgroup ℤ) (o : Order) : Prop where
  filled : o.filledQuantity ∈ G
  remaining : o.remainingQuantity ∈ G
  total : o.totalQty ∈ G
  display : 0 < o.displayQty → o.displayQty ∈ G

namespace Order.OnGrid

variable {o : Order} {q : Int}

theorem fill (h : o.OnGrid G) (hq : q ∈ G) : (o.fill q).OnGrid G where
  filled := add_mem h.filled hq
  remaining := sub_mem h.remaining hq
  total := h.total
  display := h.display

theorem withRemaining (h : o.OnGrid G) (hq : q ∈ G) :
    ({ o with remainingQuantity := q } : Order).OnGrid G :=
  ⟨h.filled, hq, h.total, h.display⟩

theorem tranche (h : o.OnGrid G) (hnext : o.hasNextTranche = true) :
    min o.displayQty (o.totalQty - o.filledQuantity) ∈ G := by
  simp only [Order.hasNextTranche, Bool.and_eq_true, decide_eq_true_eq] at hnext
  exact min_mem_grid (h.display hnext.1) (sub_mem h.total h.filled)

theorem triggered (h : o.OnGrid G) : o.triggered.OnGrid G := by
  unfold Order.triggered
  split <;> exact ⟨h.filled, h.remaining, h.total, h.display⟩

theorem replaced (h : o.OnGrid G) {req : ModifyRequest} (hq : req.newQuantity ∈ G) :
    (o.replaced req).OnGrid G :=
  ⟨h.filled, sub_mem hq h.filled, h.total, h.display⟩

end Order.OnGrid

structure PriceLevel.OnGrid (G : AddSubgroup ℤ) (l : PriceLevel) : Prop where
  total : l.totalQuantity ∈ G
  orders : ∀ o ∈ l.orders, o.OnGrid G

namespace PriceLevel.OnGrid

variable {l : PriceLevel} {o : Order} {q : Int}

theorem append (h : l.OnGrid G) (ho : o.OnGrid G) : (l.append o).OnGrid G := by
  refine ⟨add_mem h.total ho.remaining, fun x hx => ?_⟩
  rcases List.mem_append.mp hx with hx | hx
  · exact h.orders x hx
  · exact mem_singleton.mp hx ▸ ho

theorem unlink (h : l.OnGrid G) (ho : o.OnGrid G) : (l.unlink o).OnGrid G :=
  ⟨sub_mem h.total ho.remaining, fun x hx => h.orders x (mem_of_mem_filter hx)⟩

theorem requeue (h : l.OnGrid G) (ho : o.OnGrid G) (hq : q ∈ G) : (l.requeue o q).OnGrid G := by
  refine ⟨add_mem h.total hq, fun x hx => ?_⟩
  rcases List.mem_append.mp hx with hx | hx
  · exact h.orders x (mem_of_mem_filter hx)
  · exact mem_singleton.mp hx ▸ ho.withRemaining hq

theorem less (h : l.OnGrid G) (hq : q ∈ G) :
    ({ l with totalQuantity := l.totalQuantity - q } : PriceLevel).OnGrid G :=
  ⟨sub_mem h.total hq, h.orders⟩

theorem mapOrders (h : l.OnGrid G) (hf : ∀ o, o.OnGrid G → (f o).OnGrid G) :
    (l.mapOrders f).OnGrid G := by
  refine ⟨h.total, fun x hx => ?_⟩
  obtain ⟨o, ho, rfl⟩ := mem_map.mp hx
  exact hf o (h.orders o ho)

end PriceLevel.OnGrid

def LevelsOnGrid (G : AddSubgroup ℤ) (lvls : List PriceLevel) : Prop :=
  ∀ l ∈ lvls, l.OnGrid G

namespace LevelsOnGrid

variable {lvls : List PriceLevel} {o : Order}

section

variable (h : LevelsOnGrid G lvls)

include h

theorem onLevelOf (id : Nat) {f : PriceLevel → PriceLevel}
    (hf : ∀ l, l.OnGrid G → (f l).OnGrid G) : LevelsOnGrid G (onLevelOf id f lvls) := by
  intro x hx
  obtain ⟨l, hl, rfl⟩ := mem_map.mp hx
  split
  · exact hf l (h l hl)
  · exact h l hl

theorem insertAt (ho : o.OnGrid G) (before : Int → Int → Bool)
    (key : Int) : LevelsOnGrid G (insertAt before key o lvls).1 := by
  unfold ExchangeSim.insertAt
  split
  · intro x hx
    obtain ⟨l, hl, rfl⟩ := mem_map.mp hx
    split
    · exact (h l hl).append ho
    · exact h l hl
  · intro x hx
    rcases (mem_orderedInsert _).mp hx with rfl | hx
    · exact PriceLevel.OnGrid.append ⟨zero_mem G, by simp⟩ ho
    · exact h x hx

theorem unlinkFrom (ho : o.OnGrid G) :
    LevelsOnGrid G (unlinkFrom o lvls).1 := by
  unfold ExchangeSim.unlinkFrom
  split
  · exact h
  · split
    · exact fun l hl => h l (mem_of_mem_filter hl)
    · exact h.onLevelOf o.id fun l hl => hl.unlink ho

theorem mem (ho : o ∈ ordersIn lvls) : o.OnGrid G := by
  obtain ⟨l, hl, hmem⟩ := mem_flatMap.mp ho
  exact (h l hl).orders o hmem

theorem findOrder {id : Nat} (ho : findOrder id lvls = some o) :
    o.OnGrid G :=
  h.mem (mem_of_find?_eq_some ho)

theorem sum_mem : (lvls.map (·.totalQuantity)).sum ∈ G :=
  list_sum_mem fun q hq => by
    obtain ⟨l, hl, rfl⟩ := mem_map.mp hq
    exact (h l hl).total

end

end LevelsOnGrid

/-- An event that says nothing of a trade, of a bust or of a limit that was hit. -/
def Event.plain : Event → Bool
  | .trade _ => false
  | .tradeBusted .. => false
  | .lockLimitTriggered .. => false
  | _ => true

/-- A law of reports: every plain event obeys it, and so does a trade on the grid. -/
structure EventLaw (G : AddSubgroup ℤ) (E : Event → Prop) : Prop where
  plain : ∀ ev : Event, ev.plain = true → E ev
  trade : ∀ t : Trade, t.quantity ∈ G → E (.trade t)

/-- Where limit hits do not obey the law, the daily limits are off. -/
def EngineConfig.Quiet (E : Event → Prop) (c : EngineConfig) : Prop :=
  (∀ side limit last ts, E (.lockLimitTriggered side limit last ts)) ∨
    c.dailyLimitHigh ≤ 0 ∧ c.dailyLimitLow ≤ 0

/-- Every quantity an engine holds is on the grid, and all it has reported obeys the law. -/
structure Engine.Aligned (G : AddSubgroup ℤ) (E : Event → Prop) (e : Engine D) : Prop where
  books : ∀ s, LevelsOnGrid G (e.book s)
  stops : ∀ s, LevelsOnGrid G (e.stopBook s)
  trades : ∀ id t, e.tradeRegistry.trades id = some t → t.quantity ∈ G
  journal : ∀ ev, JournalEntry.event ev ∈ e.journal → E ev
  limits : e.config.Quiet E

theorem TradeRegistry.record_grid {g : TradeRegistry} {m a r : Nat} {price q ts : Int} {aa ra : Nat}
    (h : ∀ id t, g.trades id = some t → t.quantity ∈ G) (hq : q ∈ G) :
    ∀ id t, (g.record m a r price q ts s aa ra).trades id = some t → t.quantity ∈ G := by
  intro id t ht
  unfold record at ht
  split at ht
  · exact h id t ht
  · dsimp only at ht
    by_cases hid : id = g.nextTradeId
    · subst hid
      rw [Function.update_self] at ht
      exact Option.some.inj ht ▸ hq
    · rw [Function.update_of_ne hid] at ht
      exact h id t ht

namespace Engine.Aligned

variable {X : Exchange D} {e e' : Engine D} {o : Order} {ts q : Int}

section

variable (h : e.Aligned G E)

include h

theorem linked (ho : o ∈ e.linked) : o.OnGrid G := by
  simp only [Engine.linked, List.mem_append] at ho
  rcases ho with (ho | ho) | ho | ho
  exacts [(h.books _).mem ho, (h.books _).mem ho, (h.stops _).mem ho, (h.stops _).mem ho]

theorem indexed {id : Nat} (ho : e.indexed id = .ok o) : o.OnGrid G := by
  unfold Engine.indexed at ho
  split at ho
  · simp at ho
  next order hfound =>
    cases ho
    obtain ⟨p, -, hp⟩ := Option.bind_eq_some_iff.mp hfound
    exact h.linked (mem_of_find?_eq_some hp)

theorem emit {ev : Event} (hev : E ev) : (e.emit ev).Aligned G E := by
  refine ⟨h.books, h.stops, h.trades, fun x hx => ?_, h.limits⟩
  rcases List.mem_append.mp hx with hx | hx
  · exact h.journal x hx
  · obtain rfl : x = ev := by simpa using hx
    exact hev

theorem setBook (hl : LevelsOnGrid G lvls) :
    (e.setBook s lvls).Aligned G E := by
  refine ⟨fun s' => ?_, h.stops, h.trades, h.journal, h.limits⟩
  change LevelsOnGrid G (update e.book s lvls s')
  by_cases hs : s' = s
  · subst hs
    rwa [Function.update_self]
  · rw [Function.update_of_ne hs]
    exact h.books s'

theorem setStopBook (hl : LevelsOnGrid G lvls) :
    (e.setStopBook s lvls).Aligned G E := by
  refine ⟨h.books, fun s' => ?_, h.trades, h.journal, h.limits⟩
  change LevelsOnGrid G (update e.stopBook s lvls s')
  by_cases hs : s' = s
  · subst hs
    rwa [Function.update_self]
  · rw [Function.update_of_ne hs]
    exact h.stops s'

theorem release (o : Order) : (e.release o).Aligned G E :=
  ⟨h.books, h.stops, h.trades, h.journal, h.limits⟩

theorem removeOrder (ho : o.OnGrid G) : (e.removeOrder o).2.Aligned G E := by
  have hset := h.setBook (s := o.side) ((h.books o.side).unlinkFrom ho)
  unfold Engine.removeOrder
  dsimp only
  split
  · exact ⟨hset.books, hset.stops, hset.trades, hset.journal, hset.limits⟩
  · exact hset

theorem removeStop (ho : o.OnGrid G) : (e.removeStop o).Aligned G E := by
  have hset := h.setStopBook (s := o.side) ((h.stops o.side).unlinkFrom ho)
  unfold Engine.removeStop
  dsimp only
  split
  · exact ⟨hset.books, hset.stops, hset.trades, hset.journal, hset.limits⟩
  · exact hset

theorem bookRemoveOrder (ho : o.OnGrid G) (hr : e.bookRemoveOrder o = .ok r) :
    r.2.Aligned G E := by
  rcases bookRemoveOrder_ok hr with ⟨-, rfl⟩ | ⟨-, rfl⟩
  · exact h.removeOrder ho
  · exact h.removeStop ho

theorem fillResting (s : Side) (id : Nat) (hq : q ∈ G) :
    (e.fillResting s id q).Aligned G E := by
  refine h.setBook fun x hx => ?_
  obtain ⟨l, hl, rfl⟩ := mem_map.mp hx
  refine (h.books s l hl).mapOrders fun o ho => ?_
  split
  · exact ho.fill hq
  · exact ho

theorem less (s : Side) (id : Nat) (hq : q ∈ G) :
    (e.setBook s (onLevelOf id (fun l => { l with totalQuantity := l.totalQuantity - q })
      (e.book s))).Aligned G E :=
  h.setBook ((h.books s).onLevelOf id fun _ hl => hl.less hq)

theorem adjustOrder (o : Order) {delta : Int}
    (hf : ∀ x, x.OnGrid G → x.id = o.id → (f x).OnGrid G) (hd : delta ∈ G) :
    (e.adjustOrder o f delta).Aligned G E := by
  have hadjust : ∀ l : PriceLevel, l.OnGrid G → ({ l with
      orders := l.orders.map (fun x => if x.id = o.id then f x else x)
      totalQuantity := l.totalQuantity + delta } : PriceLevel).OnGrid G := fun l hl => by
    refine ⟨add_mem hl.total hd, fun x hx => ?_⟩
    obtain ⟨y, hy, rfl⟩ := mem_map.mp hx
    split
    next hid => exact hf y (hl.orders y hy) hid
    next => exact hl.orders y hy
  exact (h.setBook ((h.books o.side).onLevelOf o.id hadjust)).setStopBook
    ((h.stops o.side).onLevelOf o.id hadjust)

end

section law

variable (hE : EventLaw G E)

include hE

section

variable (h : e.Aligned G E)

include h

theorem dropOrder (o : Order) (ts : Int) (reason : CancelReason) :
    (e.dropOrder o ts reason).Aligned G E :=
  (h.release o).emit (hE.plain _ rfl)

theorem fireTopOfBook (ts : Int) : (e.fireTopOfBook ts).Aligned G E :=
  h.emit (hE.plain _ rfl)

theorem fireTopOfBookIfChanged (ts b a : Int) :
    (e.fireTopOfBookIfChanged ts b a).Aligned G E := by
  unfold Engine.fireTopOfBookIfChanged
  split
  · exact h.fireTopOfBook hE ts
  · exact h

theorem fireDepth (s : Side) (lv : PriceLevel) (a : DepthAction) (ts : Int) :
    (e.fireDepth s lv a ts).Aligned G E :=
  h.emit (hE.plain _ rfl)

theorem fireDepthRemove (s : Side) (price ts : Int) :
    (e.fireDepthRemove s price ts).Aligned G E :=
  h.emit (hE.plain _ rfl)

theorem fireDepthOf (o : Order) (ts : Int) :
    (e.fireDepthOf o ts).Aligned G E := by
  unfold Engine.fireDepthOf
  split
  · exact h
  · exact h.fireDepth hE _ _ _ _

theorem fireDepthHolding (o : Order) (ts : Int) :
    (e.fireDepthHolding o ts).Aligned G E := by
  unfold Engine.fireDepthHolding
  split
  · exact h
  · exact h.fireDepth hE _ _ _ _

theorem fireDepthAfterRemove (freed : Bool) (s : Side) (price ts : Int) :
    (e.fireDepthAfterRemove freed s price ts).Aligned G E := by
  unfold Engine.fireDepthAfterRemove
  split
  · exact h.fireDepthRemove hE _ _ _
  · unfold fireDepthAt
    split
    · exact h
    · exact h.fireDepth hE _ _ _ _

theorem insertIntoBook (ho : o.OnGrid G) (ts : Int) :
    (e.insertIntoBook o ts).Aligned G E := by
  unfold Engine.insertIntoBook
  split
  · exact h.dropOrder hE _ _ _
  next pool _ =>
    dsimp only
    have hpool : ({ e with levelPool := if (insertAt (bookBefore o.side) o.price o
        (e.book o.side)).2 then pool else pool.deallocate () } : Engine D).Aligned G E :=
      ⟨h.books, h.stops, h.trades, h.journal, h.limits⟩
    have hset := (hpool.setBook (s := o.side)
      ((h.books o.side).insertAt ho (bookBefore o.side) o.price)).emit
        (hE.plain (.orderBookAction ⟨o.id, o.side, o.price, o.remainingQuantity, .add, ts⟩) rfl)
    split
    · exact hset
    · exact hset.fireDepth hE _ _ _ _

theorem insertIntoStopBook (ho : o.OnGrid G) (stopPrice : Int) :
    (e.insertIntoStopBook o stopPrice).Aligned G E := by
  unfold Engine.insertIntoStopBook
  split
  · exact h.dropOrder hE _ _ _
  · refine setStopBook ?_ ((h.stops o.side).insertAt ho (stopBefore o.side) stopPrice)
    exact ⟨h.books, h.stops, h.trades, h.journal, h.limits⟩

theorem revealTranche (ho : o.OnGrid G) (hnext : o.hasNextTranche = true)
    (ts : Int) : (e.revealTranche o ts).Aligned G E := by
  have hq := ho.tranche hnext
  refine fireDepthOf hE (emit (h.setBook ?_) (hE.plain _ rfl)) o ts
  exact (h.books o.side).onLevelOf o.id fun _ hl => hl.requeue ho hq

theorem recordTrade {t : Trade} (hq : t.quantity ∈ G) (m aa ra : Nat) :
    ({ e.emit (.trade t) with
      tradeRegistry := e.tradeRegistry.record m t.aggressorId t.restingId t.price t.quantity t.ts
        t.aggressorSide aa ra } : Engine D).Aligned G E := by
  have hreport := h.emit (hE.trade t hq)
  exact ⟨hreport.books, hreport.stops, record_grid h.trades hq, hreport.journal,
    hreport.limits⟩

theorem bookTrade (ts : Int) (order : Order) {f : FillResult}
    (hq : f.quantity ∈ G) (resting : Order) :
    (e.bookTrade X ts order f resting).Aligned G E := by
  let e₁ : Engine D := { e with
    lastTradePrice := f.price
    positions := updateFill X.maxAccounts resting.accountId resting.side f.quantity
      (updateFill X.maxAccounts order.accountId order.side f.quantity e.positions) }
  have h₁ : e₁.Aligned G E := ⟨h.books, h.stops, h.trades, h.journal, h.limits⟩
  refine emit (recordTrade hE (emit (h₁.less resting.side resting.id hq) (hE.plain _ ?_))
    hq _ _ _) (hE.plain _ rfl)
  split <;> rfl

theorem closeResting (ts : Int) (f : FillResult) (ho : o.OnGrid G) :
    (e.closeResting ts f o).Aligned G E := by
  unfold Engine.closeResting
  split
  · split
    next hnext => exact h.revealTranche hE ho hnext ts
    next => exact ((h.removeOrder ho).fireDepthRemove hE _ _ _).release o
  · exact h.fireDepthOf hE o ts

theorem cancelResting (ts : Int) (f : FillResult) (ho : o.OnGrid G) :
    (e.cancelResting ts f o).2.Aligned G E := by
  have hout := ((h.removeOrder ho).dropOrder hE o ts .selfMatchPrevention).emit
    (hE.plain (.orderBookAction ⟨o.id, o.side, f.price, o.remainingQuantity, .cancel, ts⟩) rfl)
  unfold Engine.cancelResting
  dsimp only
  split
  · exact hout.fireDepthRemove hE _ _ _
  · exact hout

omit h in
theorem notifyCancelled (h : r.2.Aligned G E) (ts : Int) (f : FillResult) (o : Order)
    (e : Engine D) : (e.notifyCancelled ts f o r).Aligned G E := by
  unfold Engine.notifyCancelled
  split
  · exact h.emit (hE.plain _ rfl)
  · exact h

theorem applySmpAction {order resting : Order} (ho : order.OnGrid G)
    (hr : resting.OnGrid G) (f : FillResult) (ts : Int) :
    (e.applySmpAction X order resting f ts).2.Aligned G E ∧
      ∀ x ∈ (e.applySmpAction X order resting f ts).1, x.OnGrid G := by
  unfold Engine.applySmpAction
  split
  · exact ⟨h.dropOrder hE _ _ _, by simp⟩
  · exact ⟨notifyCancelled hE (h.cancelResting hE ts f hr) ts f resting e, by simpa using ho⟩
  · exact ⟨(h.cancelResting hE ts f hr).dropOrder hE _ _ _, by simp⟩
  · exact ⟨h, by simpa using ho⟩
  · exact ⟨h, by simpa using ho⟩

end

end law

theorem undoFills (h : e.Aligned G E) (s : Side) {rs : List FillResult} (ho : o.OnGrid G)
    (hrs : ∀ f ∈ rs, f.quantity ∈ G) :
    (e.undoFills s rs o).1.OnGrid G ∧ (e.undoFills s rs o).2.Aligned G E := by
  induction rs generalizing o e with
  | nil => exact ⟨ho, h⟩
  | cons f rs ih =>
    have hq := hrs f (by simp)
    exact ih (h.fillResting s f.restingOrder (neg_mem hq))
      (ho.withRemaining (add_mem ho.remaining hq)) fun x hx => hrs x (by simp [hx])

/-! Sessions. -/

section sessions

variable (hE : EventLaw G E)

include hE

theorem enterState (h : e.Aligned G E) (s : SessionState) (ts : Int) :
    ({ e with currentState := s }.emit (.marketStatus s ts)).Aligned G E := by
  refine emit ?_ (hE.plain _ rfl)
  exact ⟨h.books, h.stops, h.trades, h.journal, h.limits⟩

theorem session (h : e.Aligned G E) (hsteps : SessionSteps X ts e e') : e'.Aligned G E := by
  induction hsteps with
  | refl => exact h
  | @tail e₁ _ _ hstep h =>
    cases hstep with
    | status s => exact h.enterState hE s ts
    | reference => exact ⟨h.books, h.stops, h.trades, h.journal, h.limits⟩
    | report side limit hhit | hook side limit hhit =>
      rcases h.limits with hlock | ⟨hhigh, hlow⟩
      · first
        | exact h.emit (hlock side limit e₁.lastTradePrice ts)
        | exact ⟨h.books, h.stops, h.trades, h.journal, .inl hlock⟩
      · simp [atUpperLimit, atLowerLimit, not_lt.mpr hhigh, not_lt.mpr hlow] at hhit

end sessions

end Engine.Aligned

end ExchangeSim
