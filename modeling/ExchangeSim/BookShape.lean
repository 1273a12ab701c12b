import ExchangeSim.Reachable
import ExchangeSim.Sample
import ExchangeSim.Tape

namespace ExchangeSim

open Engine ObjectPool

variable {D : Type} {e : Engine D} {X : Exchange D} {k : Shelf} {o : Order} {price : Int}

/-- The target of a modification, if it is live, rests in the limit book and has less filled
than the new quantity. -/
def Engine.amendable (e : Engine D) (req : ModifyRequest) : Prop :=
  ∀ order ∈ e.linked, order.id = req.orderId →
    e.rests order ∧ order.filledQuantity < req.newQuantity

/-- The operations of an ordinary trading day. -/
def Engine.ordinary (e : Engine D) : Action → Prop
  | .newOrder _ => True
  | .cancelOrder .. => True
  | .modifyOrder req => e.amendable req
  | .massCancel .. => True
  | .massCancelAll _ => True
  | .triggerExpiry .. => True
  | .setSessionState .. => True
  | .unlockLimit _ => True
  | .executeAuction .. => True
  | .bustTrade .. => True
  | _ => False

theorem Engine.ordinary.admits {a : Action} (h : e.ordinary a) (w : Prop) : e.Admits w False a := by
  cases a with
  | modifyOrder req => exact fun order ho hid => ⟨(h order ho hid).1, fun _ => (h order ho hid).2.le⟩
  | restoreOrder | applyImpliedFills => exact h
  | setSessionState | unlockLimit => exact id
  | _ => trivial

structure PriceLevel.Resting (s : Side) (l : PriceLevel) : Prop where
  nonempty : l.orders ≠ []
  total : l.totalQuantity = sumQty l.orders
  count : l.orderCount = l.orders.length
  orders : ∀ o ∈ l.orders, o.price = l.price ∧ o.side = s ∧ 0 < o.remainingQuantity

/-- A level of the stop book on side `s`; its price is the trigger price, which is also the
price of a stop order, while a stop-limit order keeps its limit price. -/
structure PriceLevel.Waiting (s : Side) (l : PriceLevel) : Prop where
  nonempty : l.orders ≠ []
  total : l.totalQuantity = sumQty l.orders
  count : l.orderCount = l.orders.length
  orders : ∀ o ∈ l.orders, (o.type = .stop ∧ o.price = l.price ∨ o.type = .stopLimit) ∧
    o.side = s ∧ 0 < o.remainingQuantity

/-- The representation invariant of both books. -/
structure Engine.WellShaped (e : Engine D) : Prop where
  bids : (e.book .buy).Pairwise fun a b => b.price < a.price
  asks : (e.book .sell).Pairwise fun a b => a.price < b.price
  levels : ∀ s, ∀ l ∈ e.book s, l.Resting s
  buyStops : (e.stopBook .buy).Pairwise fun a b => a.price < b.price
  sellStops : (e.stopBook .sell).Pairwise fun a b => b.price < a.price
  stopLevels : ∀ s, ∀ l ∈ e.stopBook s, l.Waiting s

theorem wellShaped_of_sound {extra : List Nat} (h : e.holdings.Sound X True extra) :
    e.WellShaped where
  bids := (h.shape .limit .buy).sorted.imp (by simp [Shelf.before, bookBefore])
  asks := (h.shape .limit .sell).sorted.imp (by simp [Shelf.before, bookBefore])
  levels := by
    intro s l hl
    have hs := (h.shape .limit s).sound l hl
    have hx := hs.exact trivial
    refine ⟨hs.nonempty, hx.total, hs.count, fun o ho => ?_⟩
    obtain ⟨hside, -, hprice⟩ := hs.fits o ho
    exact ⟨hprice, hside, hx.positive o ho⟩
  buyStops := (h.shape .stop .buy).sorted.imp
    (by simp [Shelf.before, stopBefore, bookBefore, Side.opposite])
  sellStops := (h.shape .stop .sell).sorted.imp
    (by simp [Shelf.before, stopBefore, bookBefore, Side.opposite])
  stopLevels := by
    intro s l hl
    have hs := (h.shape .stop s).sound l hl
    have hx := hs.exact trivial
    refine ⟨hs.nonempty, hx.total, hs.count, fun o ho => ?_⟩
    obtain ⟨hside, htype, hprice⟩ := hs.fits o ho
    refine ⟨?_, hside, hx.positive o ho⟩
    simp only [OrderType.isStop, Bool.or_eq_true, decide_eq_true_eq] at htype
    rcases htype with htype | htype
    · exact .inl ⟨htype, hprice htype⟩
    · exact .inr htype

/-- After every operation of an ordinary run both books are well shaped, and no operation
ends by following a dangling pointer or by unlinking a level through the wrong list. -/
theorem reach_wellShaped (X : Exchange D) (config : EngineConfig) (derived : D)
    (slots : Nat → SlotResidue) {e : Engine D}
    (h : Reach X Engine.ordinary (Engine.init X config derived slots) e) :
    e.WellShaped ∧ ∀ a fuel fault e', e.ordinary a → e.perform X fuel a = .error (fault, e') →
      fault = .fillBuffer ∨ fault = .outOfFuel := by
  have hs : World.Sound X True ⟨e, none⟩ :=
    reach_sound (init_sound X True config derived slots) (fun _ _ ha => ha.admits True) h
  exact ⟨wellShaped_of_sound hs.holds,
    fun a fuel fault e' ha hperf => perform_fault fuel hs (ha.admits True) hperf⟩

theorem sampleRun_sound {actions : List Action}
    (hok : ∀ a ∈ actions, ∀ e : Engine Unit, e.Admits True False a)
    (h : ((sampleStart sampleExchange sampleConfig ()).performAll sampleExchange 20 actions).isOk = true) :
    World.Sound sampleExchange True
      ⟨runAll sampleExchange actions (sampleStart sampleExchange sampleConfig ()), none⟩ :=
  reach_sound (init_sound sampleExchange True sampleConfig () fun _ => {}) (fun _ _ => id)
    (reach_runAll hok h)

def sampleActions : List Action :=
  [.newOrder (limitRequest .sell 101 5), .newOrder (limitRequest .sell 100 5),
    .newOrder (limitRequest .buy 101 7)]

theorem reach_wellShaped_sample :
    (runAll sampleExchange sampleActions (sampleStart sampleExchange sampleConfig ())).WellShaped :=
  (reach_wellShaped sampleExchange sampleConfig () (fun _ => {})
    (reach_runAll (by simp [sampleActions, ordinary]) (by decide +kernel))).1

def Engine.linkedLevels (e : Engine D) : Nat :=
  (e.book .buy).length + (e.book .sell).length +
    ((e.stopBook .buy).length + (e.stopBook .sell).length)

/-- Every order and every level is owned exactly once. -/
structure Engine.Accounted (X : Exchange D) (e : Engine D) : Prop where
  indexed : ∀ id p, e.orderIndex id = some p ↔ p = id ∧ ∃ o ∈ e.linked, o.id = id
  once : (e.linked.map (·.id)).Nodup
  active : e.activeOrderCount X = e.linked.length
  levels : e.availableLevelSlots X + e.linkedLevels = X.maxPriceLevels

theorem accounted_of_sound {w : Prop} (h : e.holdings.Sound X w []) : e.Accounted X where
  indexed := by
    intro id p
    rw [show e.orderIndex = e.holdings.orderIndex from rfl, h.owns.index, List.nil_append,
      holdings_ids, List.mem_map]
  once := by simpa [holdings_ids] using h.owns.nodup
  active := by
    have hlive : e.orderPool.allocated = e.linked.length := by
      have hids := h.owns.live
      rw [List.nil_append, holdings_ids, List.length_map] at hids
      exact hids
    have hbal := h.owns.balanced
    simp only [ObjectPool.Balanced, Engine.holdings] at hbal
    simp only [activeOrderCount, available]
    omega
  levels := by
    have hlive : e.levelPool.allocated = e.linkedLevels := h.levelsLive
    have hbal := h.levelsBalanced
    simp only [ObjectPool.Balanced, Engine.holdings] at hbal
    simp only [availableLevelSlots, available]
    omega

theorem reach_accounted (X : Exchange D) (config : EngineConfig) (derived : D)
    (slots : Nat → SlotResidue) {e : Engine D}
    (h : Reach X Engine.ordinary (Engine.init X config derived slots) e) : e.Accounted X := by
  have hs : World.Sound X True ⟨e, none⟩ :=
    reach_sound (init_sound X True config derived slots) (fun _ _ ha => ha.admits True) h
  exact accounted_of_sound (hs.holds_none rfl)

theorem reach_accounted_sample :
    (runAll sampleExchange sampleActions
      (sampleStart sampleExchange sampleConfig ())).Accounted sampleExchange :=
  reach_accounted sampleExchange sampleConfig () (fun _ => {})
    (reach_runAll (by simp [sampleActions, ordinary]) (by decide +kernel))

/-! The level an order rests at. Both inserts take a level slot before they look for the price. -/

theorem insertAt_existing (before : Int → Int → Bool) {key : Int} (o : Order)
    {lvls : List PriceLevel} (h : ∃ l ∈ lvls, l.price = key) :
    (insertAt before key o lvls).2 = false ∧ o ∈ ordersIn (insertAt before key o lvls).1 := by
  obtain ⟨l, hl, rfl⟩ := h
  have hfound : (findLevel l.price lvls).isSome = true := by
    simp only [findLevel, List.find?_isSome]
    exact ⟨l, hl, by simp⟩
  obtain ⟨m, hm⟩ := Option.isSome_iff_exists.mp hfound
  simp only [insertAt, hm]
  refine ⟨trivial, mem_ordersIn.mpr ⟨l.append o, List.mem_map.mpr ⟨l, hl, by simp⟩, ?_⟩⟩
  simp [PriceLevel.append]

structure Engine.KeptIn (k : Shelf) (o : Order) (e e' : Engine D) : Prop where
  told : e'.tape = e.tape
  linked : o ∈ ordersIn (e'.shelf k o.side)
  slots : e'.levelPool = e.levelPool

theorem putIn_existing {H : Holdings} (hl : ∃ l ∈ H.lvls k o.side, l.price = price) {slot : Unit}
    {pool : ObjectPool Unit} (hpool : H.levelPool.allocate = some (slot, pool)) :
    o ∈ ordersIn ((H.putIn k o price pool).lvls k o.side) ∧
      (H.putIn k o price pool).levelPool = H.levelPool := by
  obtain ⟨hold, hmem⟩ := insertAt_existing (k.before o.side) o hl
  refine ⟨by simpa [Holdings.putIn] using hmem, ?_⟩
  rw [← allocate_deallocate hpool]
  exact if_neg (Bool.eq_false_iff.mp hold)

theorem kept_iff_slot {e' : Engine D} {ts : Int} (hl : ∃ l ∈ e.shelf k o.side, l.price = price)
    (hheld : e'.holdings = e.holdings.enter k o price)
    (htold : e'.tape = e.tape ++ e.refusal o ts) :
    (e.KeptIn k o e' ↔ e.levelPool.free ≠ []) ∧
      (e'.tape = e.tape ++ [.event (.orderCancelled o.id ts .levelPoolExhausted)] ↔
        e.levelPool.free = []) := by
  by_cases hfree : e.levelPool.free = []
  · have hcancelled : e'.tape = e.tape ++
        [.event (.orderCancelled o.id ts .levelPoolExhausted)] := by
      rw [htold, refusal, if_pos (allocate_isNone_iff.mpr hfree)]
    refine ⟨iff_of_false (fun hkept => ?_) (by simp [hfree]), iff_of_true hcancelled hfree⟩
    simpa [hcancelled] using hkept.told
  · have htape : e'.tape = e.tape := by
      rw [htold, refusal, if_neg (mt allocate_isNone_iff.mp hfree), List.append_nil]
    obtain ⟨⟨slot, pool⟩, hpool⟩ : ∃ r, e.levelPool.allocate = some r :=
      Option.ne_none_iff_exists'.mp fun h => hfree (allocate_isNone_iff.mp (by simp [h]))
    rw [Holdings.enter_some hpool] at hheld
    obtain ⟨hmem, hslots⟩ := putIn_existing (H := e.holdings) hl hpool
    rw [← hheld] at hmem hslots
    have hkept : e.KeptIn k o e' := ⟨htape, hmem, hslots⟩
    exact ⟨iff_of_true hkept hfree, iff_of_false (by simp [htape]) hfree⟩

/-- Where the price of an order has a level no slot is needed, but without a free one the order
is cancelled all the same. -/
theorem existing_level_kept_iff (e : Engine D) (order : Order) (ts stopPrice : Int) :
    ((∃ l ∈ e.book order.side, l.price = order.price) →
      (e.KeptIn .limit order (e.insertIntoBook order ts) ↔ e.levelPool.free ≠ []) ∧
      ((e.insertIntoBook order ts).tape = e.tape ++
          [.event (.orderCancelled order.id ts .levelPoolExhausted)] ↔ e.levelPool.free = [])) ∧
    ((∃ l ∈ e.stopBook order.side, l.price = stopPrice) →
      (e.KeptIn .stop order (e.insertIntoStopBook order stopPrice) ↔ e.levelPool.free ≠ []) ∧
      ((e.insertIntoStopBook order stopPrice).tape = e.tape ++
          [.event (.orderCancelled order.id order.timestamp .levelPoolExhausted)] ↔
        e.levelPool.free = [])) :=
  ⟨fun hl => kept_iff_slot (k := .limit) hl (holdings_insertIntoBook e order ts)
      (tape_insertIntoBook e order ts),
    fun hl => kept_iff_slot (k := .stop) hl (holdings_insertIntoStopBook e order stopPrice)
      (tape_insertIntoStopBook e order stopPrice)⟩

def narrowExchange : Exchange Unit := { sampleExchange with maxPriceLevels := 2 }

/-- One bid rests and a level slot is free: a second bid joins the level of the first. -/
theorem existing_level_kept_sample :
    let e := runAll narrowExchange [.newOrder (limitRequest .buy 100 5)]
      (sampleStart narrowExchange sampleConfig ())
    let order := e.buildOrder narrowExchange (limitRequest .buy 100 3) {}
    e.levelPool.free ≠ [] ∧ e.KeptIn .limit order (e.insertIntoBook order 2) := by
  intro e order
  have hlevel : ∃ l ∈ e.book order.side, l.price = order.price := by decide +kernel
  have hfree : e.levelPool.free ≠ [] := by decide +kernel
  exact ⟨hfree, (((existing_level_kept_iff e order 2 0).1 hlevel).1).mpr hfree⟩

/-- Two bids take both level slots; a third bid at the price of the first is cancelled. -/
theorem existing_level_refused : ¬∀ (e e' : Engine Unit) (req : OrderRequest),
    Reach narrowExchange (fun _ _ => True) (sampleStart narrowExchange sampleConfig ()) e →
    req.type = .limit → (∃ l ∈ e.book req.side, l.price = req.price) →
    e.perform narrowExchange 20 (.newOrder req) = .ok e' →
    .event (.orderCancelled e.nextOrderId req.timestamp .levelPoolExhausted) ∉ e'.journal := by
  intro h
  let e := runAll narrowExchange [.newOrder (limitRequest .buy 100 5),
    .newOrder (limitRequest .buy 99 5)] (sampleStart narrowExchange sampleConfig ())
  have hreach : Reach narrowExchange (fun _ _ => True)
      (sampleStart narrowExchange sampleConfig ()) e :=
    reach_runAll (by simp) (by decide +kernel)
  refine h e _ (limitRequest .buy 100 5) hreach rfl (by decide +kernel)
    (Outcome.eq_ok (by decide +kernel)) ?_
  decide +kernel

end ExchangeSim
