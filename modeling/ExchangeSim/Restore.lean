import ExchangeSim.ImpliedBatch
import ExchangeSim.StaleSlots

/-!
Orders that are saved and restored into a fresh engine. The saved record has all terms of an order
but the two flags; `restore_order` puts every order into the limit book.
-/

namespace ExchangeSim

open Engine List Function PriceLevel Holdings

variable {D : Type} {X : Exchange D} {e e' : Engine D}

def serializeOrder (order : Order) : SerializedOrder where
  id := order.id
  clientOrderId := order.clientOrderId
  accountId := order.accountId
  price := order.price
  quantity := order.quantity
  filledQuantity := order.filledQuantity
  remainingQuantity := order.remainingQuantity
  side := order.side
  type := order.type
  tif := order.tif
  timestamp := order.timestamp
  gtdExpiry := order.gtdExpiry
  displayQty := order.displayQty
  totalQty := order.totalQty

theorem deserialize_blank (o : Order) (slot : SlotResidue) :
    (deserializeOrder (serializeOrder o) slot).blank true = o.blank true := rfl

/-! The levels of a side, built again from their orders. -/

section relink

variable {before : Int → Int → Bool} {fits : Int → Order → Prop} {A lvls : List PriceLevel}
  {os : List Order} {o : Order} {key : Int}

/-- The orders enter a side one after the other. -/
def relink (before : Int → Int → Bool) (os : List Order) (lvls : List PriceLevel) :
    List PriceLevel :=
  os.foldl (fun lvls o => (insertAt before o.price o lvls).1) lvls

theorem relink_blank {b : Bool} (os : List Order) (lvls : List PriceLevel) :
    relink before (os.map (·.blank b)) (lvls.map (·.blank b)) =
      (relink before os lvls).map (·.blank b) := by
  induction os generalizing lvls with
  | nil => rfl
  | cons o os ih =>
    simp only [relink, List.map_cons, List.foldl_cons, Order.blank_price, insertAt_blank]
    exact ih _

theorem length_le_relink (before : Int → Int → Bool) (os : List Order) (lvls : List PriceLevel) :
    lvls.length ≤ (relink before os lvls).length := by
  induction os generalizing lvls with
  | nil => exact le_rfl
  | cons o os ih =>
    have hinsert : lvls.length ≤ (insertAt before o.price o lvls).1.length := by
      unfold insertAt
      split
      · simp
      · simp [linkLevel, orderedInsert_length]
    exact hinsert.trans (ih _)

theorem insertAt_behind (hs : StrictBefore before) (hA : ∀ l ∈ A, before l.price key = true) :
    insertAt before key o A = (A ++ [append ⟨key, 0, 0, []⟩ o], true) := by
  have hnone : findLevel key A = none := by
    simp only [findLevel, find?_eq_none, beq_iff_eq]
    intro l hl he
    have hl := hA l hl
    rw [he, hs.irrefl] at hl
    simp at hl
  have hlink (l : PriceLevel) (hl : l.price = key) : linkLevel before l A = A ++ [l] := by
    clear hnone
    induction A with
    | nil => rfl
    | cons a A ih =>
      have ha := hA a (by simp)
      have hnot : ¬before l.price a.price = true := fun hb => by
        have hirr := hs.trans _ _ _ ha (hl ▸ hb)
        rw [hs.irrefl] at hirr
        simp at hirr
      unfold linkLevel at ih ⊢
      rw [orderedInsert_cons, if_neg hnot, ih fun l hl => hA l (by simp [hl])]
      rfl
  have hnew := hlink (append ⟨key, 0, 0, []⟩ o) rfl
  simp [insertAt, hnone, hnew]

theorem insertAt_joins (hs : StrictBefore before) (hA : ∀ l ∈ A, before l.price key = true)
    {l : PriceLevel} (hl : l.price = key) :
    insertAt before key o (A ++ [l]) = (A ++ [l.append o], false) := by
  have hne : ∀ m ∈ A, m.price ≠ key := by
    intro m hm he
    have hm := hA m hm
    rw [he, hs.irrefl] at hm
    simp at hm
  have hfind : findLevel key (A ++ [l]) = some l := by
    have hnone : A.find? (fun m => m.price == key) = none := by
      simpa [find?_eq_none] using hne
    simp [findLevel, find?_append, hnone, hl]
  have hkeep : A.map (fun m => if m.price == key then m.append o else m) = A := by
    rw [map_congr_left (g := id) fun m hm => by simp [hne m hm], map_id]
  simp only [insertAt, hfind, map_append, hkeep, List.map_cons, map_nil, hl, beq_self_eq_true,
    if_true]

theorem relink_price (hs : StrictBefore before) (hA : ∀ l ∈ A, before l.price key = true)
    (hne : os ≠ []) (hprice : ∀ o ∈ os, o.price = key) :
    relink before os A = A ++ [⟨key, sumQty os, os.length, os⟩] := by
  induction os using reverseRecOn with
  | nil => exact (hne rfl).elim
  | append_singleton os o ih =>
    have ho : o.price = key := hprice o (by simp)
    have hstep : relink before (os ++ [o]) A =
        (insertAt before o.price o (relink before os A)).1 := by
      simp [relink]
    rw [hstep, ho]
    by_cases hos : os = []
    · subst hos
      simp [relink, insertAt_behind hs hA, append]
    · rw [ih hos fun o ho => hprice o (by simp [ho]), insertAt_joins hs hA rfl]
      simp [append]

theorem relink_ordersIn (hs : StrictBefore before) (h : SideSound True before fits lvls)
    (hprice : ∀ l ∈ lvls, ∀ o ∈ l.orders, o.price = l.price) :
    relink before (ordersIn lvls) [] = lvls := by
  induction lvls using reverseRecOn with
  | nil => rfl
  | append_singleton A l ih =>
    have hlevel : l.Sound True fits := h.sound l (by simp)
    obtain ⟨hsorted, -, hlast⟩ := pairwise_append.mp h.sorted
    have hA : relink before (ordersIn A) [] = A :=
      ih ⟨hsorted, fun m hm => h.sound m (by simp [hm])⟩ fun m hm => hprice m (by simp [hm])
    have hfold : relink before (ordersIn (A ++ [l])) [] =
        relink before l.orders (relink before (ordersIn A) []) := by
      simp [relink]
    rw [hfold, hA, relink_price hs (fun m hm => hlast m hm l (by simp)) hlevel.nonempty
      (hprice l (by simp)), ← (hlevel.exact trivial).total, ← hlevel.count]

end relink

/-! One restored order. -/

section restore

variable {s : SerializedOrder} {ts : Int}

theorem holdings_restoreOrder {slot : SlotResidue} {pool : ObjectPool SlotResidue}
    (hchecks : firstFailure (e.restoreChecks X s ts) = none)
    (hpool : e.orderPool.allocate = some (slot, pool)) :
    (e.restoreOrder X s ts).holdings =
      (e.holdings.accept (deserializeOrder s slot) pool).enter .limit (deserializeOrder s slot)
        s.price := by
  simp only [restoreOrder, hchecks, hpool, holdings_fireTopOfBook, holdings_insertIntoBook,
    holdings_acceptOrder]
  rfl

theorem restored_of_checks (h : firstFailure (e.restoreChecks X s ts) = none) :
    0 < s.id ∧ e.orderIndex s.id = none ∧ 0 < s.remainingQuantity := by
  have hid := firstFailure_eq_none h (c := (decide (s.id = 0 ∨ s.id ≥ X.maxOrderIds),
    .exchangeSpecific)) (by simp [restoreChecks])
  have hindex := firstFailure_eq_none h (c := ((e.orderIndex s.id).isSome, .exchangeSpecific))
    (by simp [restoreChecks])
  have hqty := firstFailure_eq_none h (c := (decide (s.remainingQuantity ≤ 0), .invalidQuantity))
    (by simp [restoreChecks])
  simp only [decide_eq_false_iff_not, not_or, not_le] at hid hqty
  exact ⟨Nat.pos_of_ne_zero hid.1, by simpa using hindex, hqty⟩

theorem restoreOrder_sound (hs : World.Sound X True ⟨e, none⟩) (htype : s.type = .limit) :
    World.Sound X True ⟨e.restoreOrder X s ts, none⟩ := by
  have hH := hs.holds_none rfl
  cases hchecks : firstFailure (e.restoreChecks X s ts) with
  | some r => simpa only [restoreOrder, hchecks] using hs.keep (holdings_emit ..)
  | none =>
    rcases hpool : e.orderPool.allocate with _ | ⟨slot, pool⟩
    · simpa only [restoreOrder, hchecks, hpool] using hs.keep (holdings_emit ..)
    · obtain ⟨hid, hindex, hqty⟩ := restored_of_checks hchecks
      have haccept : (e.holdings.accept (deserializeOrder s slot) pool).Sound X True
          [(deserializeOrder s slot).id] := by
        refine hH.admit ?_ ?_ hpool
        · exact hindex
        · exact hid
      refine .land ?_
      rw [holdings_restoreOrder hchecks hpool]
      rcases hlevel : e.levelPool.allocate with _ | ⟨u, levels⟩
      · rw [enter_none hlevel]
        exact haccept.release
      · rw [enter_some hlevel]
        exact haccept.putIn hlevel ⟨rfl, htype, rfl⟩ fun _ => hqty

end restore

/-- The operations that keep every order where it belongs. -/
def Engine.savable (X : Exchange D) (e : Engine D) : Action → Prop
  | .restoreOrder s _ => s.type = .limit
  | a => e.measured X a

theorem reach_savable {config : EngineConfig} {derived : D} {slots : Nat → SlotResidue}
    (h : Reach X (savable X) (init X config derived slots) e) :
    World.Sound X True ⟨e, none⟩ := by
  induction h with
  | start => exact init_sound X True config derived slots
  | @step e e' a fuel _ hok hperf ih =>
    cases a with
    | restoreOrder s ts =>
      cases hperf
      exact restoreOrder_sound (.land (ih.holds_none rfl)) hok
    | _ => exact perform_measured ih (by exact hok) hperf

/-! The parts of an engine that restored orders leave alone. -/

/-- The engine without orders and without its past. -/
def Engine.setting (e : Engine D) : Engine D :=
  { e with
    book := fun _ => []
    orderPool := ⟨[], 0⟩
    levelPool := ⟨[], 0⟩
    nextOrderId := 0
    orderIndex := fun _ => none
    journal := [] }

theorem setting_restoreOrder (s : SerializedOrder) (ts : Int) (e : Engine D) :
    (e.restoreOrder X s ts).setting = e.setting := by
  unfold restoreOrder
  dsimp only
  split
  · rfl
  · rfl
  · unfold insertIntoBook
    split
    · rfl
    · dsimp only
      split <;> rfl

theorem restoreChecks_congr (hset : e.setting = e'.setting) {s : SerializedOrder}
    (hindex : e.orderIndex s.id = e'.orderIndex s.id) (ts : Int) :
    e.restoreChecks X s ts = e'.restoreChecks X s ts := by
  have hconfig : e.setting.config = e'.setting.config := by rw [hset]
  have hderived : e.setting.derived = e'.setting.derived := by rw [hset]
  have hlast : e.setting.lastTradePrice = e'.setting.lastTradePrice := by rw [hset]
  simp only [setting] at hconfig hderived hlast
  simp only [restoreChecks, hconfig, hderived, hlast, hindex]

theorem holdings_determined {H H' : Holdings} (h : H.Sound X True []) (h' : H'.Sound X True [])
    (hids : H.ids = H'.ids) (hcount : H.levelCount = H'.levelCount) :
    H.orderIndex = H'.orderIndex ∧ H.orderPool.allocated = H'.orderPool.allocated ∧
      H.orderPool.free.length = H'.orderPool.free.length ∧ H.levelPool = H'.levelPool := by
  have hlive : H.orderPool.allocated = H'.orderPool.allocated := by
    rw [h.owns.live, h'.owns.live, hids]
  have hbal := h.owns.balanced
  have hbal' := h'.owns.balanced
  have hlevels : H.levelPool.allocated = H'.levelPool.allocated := by
    rw [h.levelsLive, h'.levelsLive, hcount]
  have hlbal := h.levelsBalanced
  have hlbal' := h'.levelsBalanced
  unfold ObjectPool.Balanced at hbal hbal' hlbal hlbal'
  refine ⟨funext fun id => ?_, hlive, by omega, ?_⟩
  · refine Option.ext fun p => ?_
    rw [h.owns.index, h'.owns.index, hids]
  · have hfree : H.levelPool.free = H'.levelPool.free :=
      ext_getElem (by omega) fun _ _ _ => rfl
    calc H.levelPool = ⟨H.levelPool.free, H.levelPool.allocated⟩ := rfl
      _ = ⟨H'.levelPool.free, H'.levelPool.allocated⟩ := by rw [hfree, hlevels]
      _ = H'.levelPool := rfl

theorem bare_eq {b : Bool} (hset : e.setting = e'.setting)
    (hbook : ∀ s, (e.book s).map (·.blank b) = (e'.book s).map (·.blank b))
    (hfree : e.orderPool.free.length = e'.orderPool.free.length)
    (hlive : e.orderPool.allocated = e'.orderPool.allocated)
    (hlevels : e.levelPool = e'.levelPool) (hnext : e.nextOrderId = e'.nextOrderId)
    (hindex : e.orderIndex = e'.orderIndex) : e.bare b = e'.bare b := by
  simp only [Engine.setting, Engine.mk.injEq, true_and, and_true] at hset
  simp_all [Engine.bare, Engine.blank]

/-! All orders of the limit book. -/

def Engine.restoreAll (X : Exchange D) (ts : Int) (saved : List SerializedOrder) (e : Engine D) :
    Engine D :=
  saved.foldl (fun e s => e.restoreOrder X s ts) e

def ordersOf (s : Side) (os : List Order) : List Order :=
  os.filter fun o => decide (o.side = s)

def Engine.rebuilt (s : Side) (os : List Order) (e : Engine D) : List PriceLevel :=
  relink (bookBefore s) ((ordersOf s os).map (·.blank true)) ((e.book s).map (·.blank true))

/-- An engine that can take all of `os`. -/
structure Engine.Receives (X : Exchange D) (ts : Int) (os : List Order) (e : Engine D) : Prop where
  sound : World.Sound X True ⟨e, none⟩
  stops : ∀ s, e.stopBook s = []
  passes : ∀ o ∈ os, firstFailure (e.restoreChecks X (serializeOrder o) ts) = none
  limits : ∀ o ∈ os, o.type = .limit ∧ o.id < e.nextOrderId
  nodup : (os.map (·.id)).Nodup
  slots : e.orderPool.allocated + os.length ≤ X.maxOrders
  levels : (e.rebuilt .buy os).length + (e.rebuilt .sell os).length < X.maxPriceLevels

namespace Engine.Receives

variable {ts : Int} {o : Order} {os : List Order}

theorem restored (h : e.Receives X ts (o :: os)) :
    ∃ slot, (e.restoreOrder X (serializeOrder o) ts).book = update e.book o.side
        (insertAt (bookBefore o.side) o.price (deserializeOrder (serializeOrder o) slot)
          (e.book o.side)).1 ∧
      (e.restoreOrder X (serializeOrder o) ts).nextOrderId = e.nextOrderId ∧
      (e.restoreOrder X (serializeOrder o) ts).orderPool.allocated = e.orderPool.allocated + 1 ∧
      (e.restoreOrder X (serializeOrder o) ts).orderIndex =
        update e.orderIndex o.id (some o.id) := by
  have hH := h.sound.holds_none rfl
  have hbal : e.orderPool.free.length + e.orderPool.allocated = X.maxOrders := hH.owns.balanced
  have hroom := h.slots
  simp only [List.length_cons] at hroom
  obtain ⟨slot, rest, hfree⟩ := exists_cons_of_length_pos
    (show 0 < e.orderPool.free.length by omega)
  have hpool : e.orderPool.allocate = some (slot, ⟨rest, e.orderPool.allocated + 1⟩) := by
    simp [ObjectPool.allocate, hfree]
  have hlive : e.levelPool.allocated = e.holdings.levelCount := hH.levelsLive
  have hlbal : e.levelPool.free.length + e.levelPool.allocated = X.maxPriceLevels :=
    hH.levelsBalanced
  have hcount : e.holdings.levelCount = (e.book .buy).length + (e.book .sell).length := by
    simp [levelCount, holdings, shelf, h.stops]
  have hgrow (s : Side) : (e.book s).length ≤ (e.rebuilt s (o :: os)).length := by
    simpa [rebuilt] using length_le_relink (bookBefore s)
      ((ordersOf s (o :: os)).map (·.blank true)) ((e.book s).map (·.blank true))
  have hlevels := h.levels
  have hbuy := hgrow .buy
  have hsell := hgrow .sell
  obtain ⟨u, levels, hlfree⟩ := exists_cons_of_length_pos
    (show 0 < e.levelPool.free.length by omega)
  have hlevel : e.levelPool.allocate = some (u, ⟨levels, e.levelPool.allocated + 1⟩) := by
    simp [ObjectPool.allocate, hlfree]
  have hhold := holdings_restoreOrder (h.passes o (by simp)) hpool
  rw [enter_some hlevel] at hhold
  have hnext := (h.limits o (by simp)).2
  refine ⟨slot, ?_, ?_, ?_, ?_⟩
  · exact congrArg (fun H => H.lvls .limit) hhold
  · refine (congrArg Holdings.nextOrderId hhold).trans ?_
    exact max_eq_left hnext
  · exact congrArg (fun H => H.orderPool.allocated) hhold
  · exact congrArg Holdings.orderIndex hhold

theorem rebuilt_restored (h : e.Receives X ts (o :: os)) (s : Side) :
    (e.restoreOrder X (serializeOrder o) ts).rebuilt s os = e.rebuilt s (o :: os) := by
  obtain ⟨slot, hbook, -⟩ := h.restored
  unfold rebuilt
  rw [hbook]
  by_cases hside : o.side = s
  · subst hside
    have hof : ordersOf o.side (o :: os) = o :: ordersOf o.side os := by simp [ordersOf]
    rw [hof, Function.update_self]
    have hinsert := insertAt_blank (b := true) (deserializeOrder (serializeOrder o) slot)
    rw [deserialize_blank] at hinsert
    simp [relink, hinsert]
  · have hof : ordersOf s (o :: os) = ordersOf s os := by simp [ordersOf, hside]
    rw [hof, Function.update_of_ne (Ne.symm hside)]

theorem tail (h : e.Receives X ts (o :: os)) :
    (e.restoreOrder X (serializeOrder o) ts).Receives X ts os := by
  obtain ⟨slot, -, hnext, hlive, hindex⟩ := h.restored
  have hset := setting_restoreOrder (X := X) (serializeOrder o) ts e
  obtain ⟨hout, hnodup⟩ := List.nodup_cons.mp h.nodup
  refine
    { sound := restoreOrder_sound h.sound (h.limits o (by simp)).1
      stops := ?_
      passes := fun x hx => ?_
      limits := fun x hx => by rw [hnext]; exact h.limits x (by simp [hx])
      nodup := hnodup
      slots := ?_
      levels := ?_ }
  · have hstop : (e.restoreOrder X (serializeOrder o) ts).setting.stopBook = e.setting.stopBook := by
      rw [hset]
    intro s
    exact (congrFun hstop s).trans (h.stops s)
  · have hne : x.id ≠ o.id := fun he => hout (mem_map.mpr ⟨x, hx, he⟩)
    have hsame : (e.restoreOrder X (serializeOrder o) ts).orderIndex (serializeOrder x).id =
        e.orderIndex (serializeOrder x).id := by
      rw [hindex]
      exact Function.update_of_ne hne _ _
    rw [restoreChecks_congr hset hsame]
    exact h.passes x (by simp [hx])
  · have := h.slots
    simp only [List.length_cons] at this
    omega
  · simpa only [h.rebuilt_restored] using h.levels

theorem restoreAll (h : e.Receives X ts os) :
    let r := e.restoreAll X ts (os.map serializeOrder)
    World.Sound X True ⟨r, none⟩ ∧ r.setting = e.setting ∧ r.nextOrderId = e.nextOrderId ∧
      ∀ s, (r.book s).map (·.blank true) = e.rebuilt s os := by
  induction os generalizing e with
  | nil => exact ⟨h.sound, rfl, rfl, fun _ => rfl⟩
  | cons o os ih =>
    obtain ⟨slot, -, hnext, -⟩ := h.restored
    obtain ⟨hsound, hset, hnext', hbook⟩ := ih h.tail
    refine ⟨hsound, hset.trans (setting_restoreOrder ..), hnext'.trans hnext, fun s => ?_⟩
    rw [← h.rebuilt_restored]
    exact hbook s

end Engine.Receives

def Engine.limitOrders (e : Engine D) : List Order :=
  ordersIn (e.book .buy) ++ ordersIn (e.book .sell)

/-- A fresh engine for the orders of `e`, with what they do not tell: the session, the last price
and the reference price, the next id, positions, recorded trades and message counts. -/
def Engine.reopened (X : Exchange D) (slots : Nat → SlotResidue) (e : Engine D) : Engine D :=
  { Engine.init X e.config e.derived slots with
    currentState := e.currentState
    lastTradePrice := e.lastTradePrice
    viReferencePrice := e.viReferencePrice
    nextOrderId := e.nextOrderId
    positions := e.positions
    tradeRegistry := e.tradeRegistry
    rateTracker := e.rateTracker }

theorem reopened_sound (hs : World.Sound X True ⟨e, none⟩) (slots : Nat → SlotResidue) :
    World.Sound X True ⟨e.reopened X slots, none⟩ := by
  have hH := hs.holds_none rfl
  have hinit := (init_sound X True e.config e.derived slots).holds_none rfl
  have hempty : (e.reopened X slots).holdings.ids = [] := rfl
  refine .land
    { shape := hinit.shape
      owns := ?_
      levelsLive := hinit.levelsLive
      levelsBalanced := hinit.levelsBalanced
      trades := hH.trades }
  exact
    { nodup := hinit.owns.nodup
      index := hinit.owns.index
      live := hinit.owns.live
      balanced := hinit.owns.balanced
      assigned := by simp [hempty]
      next := hH.owns.next }

section saved

variable {ts : Int} {slots : Nat → SlotResidue}

section

variable (hs : World.Sound X True ⟨e, none⟩)

include hs

theorem limitOrders_fits {s : Side} {l : PriceLevel}
    (hl : l ∈ e.book s) {o : Order} (ho : o ∈ l.orders) :
    o.side = s ∧ o.type = .limit ∧ o.price = l.price :=
  (((hs.holds_none rfl).shape .limit s).sound l hl).fits o ho

theorem ordersOf_limitOrders (s : Side) :
    ordersOf s e.limitOrders = ordersIn (e.book s) := by
  have hside (t : Side) : ∀ o ∈ ordersIn (e.book t), o.side = t := by
    intro o ho
    obtain ⟨l, hl, ho⟩ := mem_ordersIn.mp ho
    exact (limitOrders_fits hs hl ho).1
  have hsame (t : Side) : ordersOf t (ordersIn (e.book t)) = ordersIn (e.book t) :=
    filter_eq_self.mpr fun o ho => by simp [hside t o ho]
  have hother {t t' : Side} (hne : t' ≠ t) : ordersOf t (ordersIn (e.book t')) = [] :=
    filter_eq_nil_iff.mpr fun o ho => by simp [hside t' o ho, hne]
  have happend : ordersOf s e.limitOrders =
      ordersOf s (ordersIn (e.book .buy)) ++ ordersOf s (ordersIn (e.book .sell)) :=
    filter_append ..
  rw [happend]
  cases s with
  | buy => rw [hsame, hother (by decide), append_nil]
  | sell => rw [hsame, hother (by decide), nil_append]

theorem rebuilt_limitOrders (s : Side) :
    (e.reopened X slots).rebuilt s e.limitOrders = (e.book s).map (·.blank true) := by
  have hside : SideSound True (bookBefore s) (bookFits s) (e.book s) :=
    (hs.holds_none rfl).shape .limit s
  unfold rebuilt
  rw [ordersOf_limitOrders hs, show (e.reopened X slots).book s = [] from rfl, relink_blank,
    relink_ordersIn (strictBefore_book s) hside fun l hl o ho => (limitOrders_fits hs hl ho).2.2]

theorem reopened_receives
    (hpass : ∀ o ∈ e.limitOrders,
      firstFailure ((e.reopened X slots).restoreChecks X (serializeOrder o) ts) = none)
    (hroom : (e.book .buy).length + (e.book .sell).length < X.maxPriceLevels) :
    (e.reopened X slots).Receives X ts e.limitOrders := by
  have hH := hs.holds_none rfl
  have hids : e.limitOrders.map (·.id) = idsIn (e.book .buy) ++ idsIn (e.book .sell) :=
    map_append ..
  have hsplit : e.holdings.ids = e.limitOrders.map (·.id) ++
      (idsIn (e.stopBook .buy) ++ idsIn (e.stopBook .sell)) := by
    rw [hids]
    rfl
  have hnodup := hH.owns.nodup
  have hlive : e.orderPool.allocated = e.holdings.ids.length := hH.owns.live
  have hbal : e.orderPool.free.length + e.orderPool.allocated = X.maxOrders := hH.owns.balanced
  rw [nil_append, hsplit] at hnodup
  rw [hsplit, length_append, length_map] at hlive
  refine
    { sound := reopened_sound hs slots
      stops := fun _ => rfl
      passes := hpass
      limits := fun o ho => ⟨?_, ?_⟩
      nodup := (List.nodup_append.mp hnodup).1
      slots := ?_
      levels := ?_ }
  · rcases List.mem_append.mp ho with ho | ho <;> obtain ⟨l, hl, ho⟩ := mem_ordersIn.mp ho <;>
      exact (limitOrders_fits hs hl ho).2.1
  · refine (hH.owns.assigned o.id ?_).2
    rw [nil_append, hsplit]
    exact mem_append_left _ (mem_map.mpr ⟨o, ho, rfl⟩)
  · change 0 + e.limitOrders.length ≤ X.maxOrders
    omega
  · simpa only [rebuilt_limitOrders hs, length_map] using hroom

end

end saved

def restingDay : Engine Unit :=
  runAll sampleExchange [.newOrder (limitRequest .buy 99 5),
    .newOrder { limitRequest .sell 101 10 with displayQty := 4 },
    .newOrder (limitRequest .sell 101 3), .newOrder (limitRequest .buy 101 4)]
    (sampleStart sampleExchange sampleConfig ())

def nextDay : List Action :=
  [.newOrder (limitRequest .buy 101 8), .cancelOrder 1 5]

def waitingStop : Engine Unit :=
  runAll sampleExchange [.newOrder (limitRequest .sell 100 5), .newOrder (limitRequest .buy 100 5),
    .newOrder { limitRequest .sell 0 5 with type := .stop, stopPrice := 95 }]
    (sampleStart sampleExchange sampleConfig ())

def cancelledOffer : Engine Unit :=
  runAll sampleExchange [.newOrder (limitRequest .sell 100 5), .newOrder (limitRequest .sell 101 5),
    .cancelOrder 2 1] (sampleStart sampleExchange sampleConfig ())

end ExchangeSim
