import ExchangeSim.DriftRuns
import ExchangeSim.Sample

/-!
A trade of `apply_implied_fills` moves one order and one account, and is recorded with that order
as both parties. `bust_trade` gives the quantity back to each party of a record.
-/

namespace ExchangeSim

open Engine List PriceLevel

variable {D : Type} {X : Exchange D} {e e' : Engine D} {o : Order}

/-- The order is in one of the books of its side, nowhere else, and the index leads to it. -/
structure Engine.Live (e : Engine D) (o : Order) : Prop where
  indexed : e.orderIndex o.id = some o.id
  linked : ∃ k, o ∈ ordersIn (e.shelf k o.side)
  once : ∀ k, ∀ x ∈ ordersIn (e.shelf k o.side), x.id = o.id → x = o
  apart : ∀ k, ∀ x ∈ ordersIn (e.shelf k o.side.opposite), x.id ≠ o.id

theorem Engine.Live.eq_of_linked (h : e.Live o) {x : Order} (hx : x ∈ e.linked)
    (hid : x.id = o.id) : x = o := by
  obtain ⟨k, s, hks⟩ := mem_linked.mp hx
  by_cases hs : s = o.side
  · exact h.once k x (hs ▸ hks) hid
  · have hopp : s = o.side.opposite := by
      cases s <;> cases hside : o.side <;> simp_all [Side.opposite]
    exact absurd hid (h.apart k x (hopp ▸ hks))

theorem Engine.Live.indexed_eq (h : e.Live o) : e.indexed o.id = .ok o := by
  obtain ⟨k, hk⟩ := h.linked
  have hin : o ∈ e.linked := mem_linked.mpr ⟨k, o.side, hk⟩
  have hsome : (e.deref o.id).isSome = true := by
    simp only [Engine.deref, List.find?_isSome]
    exact ⟨o, hin, by simp⟩
  obtain ⟨x, hx⟩ := Option.isSome_iff_exists.mp hsome
  have hxid : x.id = o.id := by simpa using List.find?_some hx
  have hxo : x = o := h.eq_of_linked (List.mem_of_find?_eq_some hx) hxid
  simp [Engine.indexed, h.indexed, hx, hxo]

theorem ordersIn_adjust (o : Order) (f : Order → Order) (delta : Int) (lvls : List PriceLevel) :
    ordersIn (onLevelOf o.id (fun l => { l with
      orders := l.orders.map (fun x => if x.id = o.id then f x else x)
      totalQuantity := l.totalQuantity + delta }) lvls) =
    (ordersIn lvls).map fun x => if x.id = o.id then f x else x := by
  induction lvls with
  | nil => rfl
  | cons l lvls ih =>
    simp only [onLevelOf, map_cons, ordersIn_cons, map_append] at ih ⊢
    congr 1
    by_cases hl : l.has o.id = true
    · simp [hl]
    · have hnot := has_eq_false.mp (Bool.eq_false_iff.mpr hl)
      rw [if_neg hl]
      exact (map_eq_self fun x hx => if_neg (hnot x hx)).symm

theorem Engine.Live.adjust (h : e.Live o) {f : Order → Order} (hid : (f o).id = o.id)
    (hside : (f o).side = o.side) (delta : Int) : (e.adjustOrder o f delta).Live (f o) := by
  have hhere : ∀ k, ordersIn ((e.adjustOrder o f delta).shelf k o.side) =
      (ordersIn (e.shelf k o.side)).map fun x => if x.id = o.id then f x else x := by
    intro k
    rw [adjustOrder_shelf, if_pos rfl, ordersIn_adjust]
  refine ⟨?_, ?_, ?_, ?_⟩
  · rw [hid]
    exact h.indexed
  · obtain ⟨k, hk⟩ := h.linked
    rw [hside]
    exact ⟨k, (hhere k) ▸ mem_map.mpr ⟨o, hk, if_pos rfl⟩⟩
  · intro k x hx hxid
    rw [hside, hhere] at hx
    rw [hid] at hxid
    obtain ⟨y, hy, rfl⟩ := mem_map.mp hx
    by_cases hyid : y.id = o.id
    · rw [if_pos hyid, h.once k y hy hyid]
    · rw [if_neg hyid] at hxid
      exact absurd hxid hyid
  · intro k x hx
    rw [hside, adjustOrder_shelf, if_neg o.side.opposite_ne] at hx
    rw [hid]
    exact h.apart k x hx

theorem levelHolding_adjust (o : Order) {f : Order → Order} (hf : ∀ x, (f x).id = x.id)
    (delta : Int) (e : Engine D) :
    (e.adjustOrder o f delta).levelHolding o = (e.levelHolding o).map (adjust o f delta) := by
  have hbooks : (e.adjustOrder o f delta).book o.side ++
      (e.adjustOrder o f delta).stopBook o.side = onLevelOf o.id (adjust o f delta)
        (e.book o.side ++ e.stopBook o.side) := by
    simp [adjustOrder, setBook, setStopBook, onLevelOf, adjust]
  have hhas : ∀ l : PriceLevel, (l.adjust o f delta).has o.id = l.has o.id := by
    intro l
    simp only [has, adjust, any_map]
    congr 1
    funext x
    by_cases hx : x.id = o.id <;> simp [hx, hf]
  unfold levelHolding levelOf
  rw [hbooks]
  generalize e.book o.side ++ e.stopBook o.side = lvls
  induction lvls with
  | nil => rfl
  | cons l lvls ih =>
    by_cases hl : l.has o.id = true
    · simp [onLevelOf, hl, hhas]
    · simpa [onLevelOf, hl] using ih

/-- The record `apply_implied_fills` makes of a fill of the order. -/
structure TradeRecord.OfImplied (t : TradeRecord) (o : Order) : Prop where
  aggressor : t.aggressorId = o.id
  resting : t.restingId = o.id
  side : t.aggressorSide = o.side
  payer : t.aggressorAccountId = o.accountId
  payee : t.restingAccountId = o.accountId

/-- The fill of an order is taken back: the order, its level, its owner, and nothing else. -/
structure Engine.Undoes (X : Exchange D) (o : Order) (q : Int) (e e' : Engine D) : Prop where
  order : e'.Live (o.fill (-q))
  level : (e'.levelHolding o).map (·.totalQuantity) = (e.levelHolding o).map (·.totalQuantity + q)
  account : e'.positions = reverseFill X.maxAccounts o.accountId o.side q e.positions
  others : ∀ k s, ∀ x ∈ ordersIn (e.shelf k s), x.id ≠ o.id → x ∈ ordersIn (e'.shelf k s)

/-- A bust that takes the quantity from the order twice, and leaves the owner's position. -/
structure Engine.DoublyUndoes (o : Order) (q : Int) (e e' : Engine D) : Prop where
  order : e'.Live ((o.fill (-q)).fill (-q))
  level : (e'.levelHolding o).map (·.totalQuantity) =
    (e.levelHolding o).map (·.totalQuantity + q + q)
  account : e'.positions = e.positions

theorem not_undoes_of_live {q n : Int} (h : e'.Live (o.fill (-n))) (hne : n ≠ q) :
    ¬e.Undoes X o q e' := by
  intro hu
  have heq := Except.ok.inj (h.indexed_eq.symm.trans hu.order.indexed_eq)
  have hfilled := congrArg Order.filledQuantity heq
  simp only [Order.fill] at hfilled
  omega

theorem Engine.Live.unfill (h : e.Live o) (hid : o.id < X.maxOrderIds) (q : Int) :
    e.unfill X o.id q = .ok (e.adjustOrder o (·.fill (-q)) q) := by
  have hknown : ¬(o.id ≥ X.maxOrderIds ∨ (e.orderIndex o.id).isNone = true) := by
    simp [h.indexed, hid]
  simp only [Engine.unfill, if_neg hknown, h.indexed_eq]

theorem reverseFill_both (m account : Nat) (s : Side) (q : Int) (p : Positions) :
    reverseFill m account s.opposite q (reverseFill m account s q p) = p := by
  unfold reverseFill
  split
  · rfl
  · cases s <;> simp [Side.opposite]

theorem reverseFill_zero (m account : Nat) (s : Side) (p : Positions) :
    reverseFill m account s 0 p = p := by
  unfold reverseFill
  split
  · rfl
  · cases s <;> simp

theorem adjustOrder_zero (o : Order) (e : Engine D) :
    e.adjustOrder o (·.fill (-0)) 0 = e := by
  have hstay : ∀ lvls : List PriceLevel, onLevelOf o.id (fun l => { l with
      orders := l.orders.map (fun x => if x.id = o.id then x.fill (-0) else x)
      totalQuantity := l.totalQuantity + 0 }) lvls = lvls := by
    intro lvls
    refine map_eq_self fun l _ => ?_
    simp [Order.fill]
  simp only [adjustOrder, hstay, setBook, setStopBook, Function.update_eq_self]

theorem undoes_iff_of_kept (hlive : e.Live o) {q : Int} (hbook : e'.book = e.book)
    (hstops : e'.stopBook = e.stopBook) (hindex : e'.orderIndex = e.orderIndex)
    (hpos : e'.positions = e.positions) : e.Undoes X o q e' ↔ q = 0 := by
  have hshelf : ∀ k, e'.shelf k = e.shelf k := by
    intro k
    cases k
    · exact hbook
    · exact hstops
  have hlive' : e'.Live o := by
    refine ⟨hindex ▸ hlive.indexed, ?_, ?_, ?_⟩ <;> simp only [hshelf]
    exacts [hlive.linked, hlive.once, hlive.apart]
  constructor
  · intro hu
    by_contra hq
    exact not_undoes_of_live (by simpa using hlive') (Ne.symm hq) hu
  · rintro rfl
    refine ⟨by simpa using hlive', ?_, ?_, fun k s x hx _ => (hshelf k) ▸ hx⟩
    · simp [levelHolding, hbook, hstops]
    · rw [hpos, reverseFill_zero]

theorem bustTrade_eq {id : Nat} {reason : BustReason} {ts : Int} {t : TradeRecord}
    {e₂ e₃ : Engine D} (hopen : e.currentState ≠ .closed)
    (hlook : e.tradeRegistry.lookup id = some t)
    (hnew : (t.busted || !X.onValidateBust e.derived id t ts) = false)
    (hfirst : ({ e with tradeRegistry := e.tradeRegistry.markBusted id } : Engine D).unfill X
      t.aggressorId t.quantity = .ok e₂)
    (hsecond : e₂.unfill X t.restingId t.quantity = .ok e₃) :
    e.bustTrade X id reason ts = .ok (e₃.reportBust X id t reason ts) := by
  simp [bustTrade, hopen, hlook, hnew, hfirst, hsecond]

/-- The bust of an implied trade of a live order undoes it only where there is nothing to undo. Where
it is not turned away the quantity is given back twice, once for each party of the record, and the
two reversals of the owner's position cancel out. -/
theorem bust_implied_iff (X : Exchange D) (e : Engine D) (fuel id : Nat) (reason : BustReason)
    (ts : Int) {t : TradeRecord} {o : Order} (hlook : e.tradeRegistry.lookup id = some t)
    (himplied : t.OfImplied o) (hlive : e.Live o) :
    ∃ e', e.perform X fuel (.bustTrade id reason ts) = .ok e' ∧
      (e.Undoes X o t.quantity e' ↔ t.quantity = 0) ∧
      (e.currentState ≠ .closed → t.busted = false → X.onValidateBust e.derived id t ts = true →
        o.id < X.maxOrderIds → e.DoublyUndoes o t.quantity e') := by
  let e₀ : Engine D := e.record (.bustTrade id reason ts)
  change ∃ e', e₀.bustTrade X id reason ts = .ok e' ∧ _
  have hlook₀ : e₀.tradeRegistry.lookup id = some t := hlook
  by_cases hclosed : e.currentState = .closed
  · exact ⟨e₀, if_pos hclosed, undoes_iff_of_kept hlive rfl rfl rfl rfl,
      fun h => absurd hclosed h⟩
  cases hturned : t.busted || !X.onValidateBust e₀.derived id t ts with
  | true =>
    refine ⟨e₀, ?_, undoes_iff_of_kept hlive rfl rfl rfl rfl, fun _ hb hv => ?_⟩
    · simp [bustTrade, hlook₀, hturned]
    · simp [hb, show X.onValidateBust e₀.derived id t ts = true from hv] at hturned
  | false =>
    let e₁ : Engine D := { e₀ with tradeRegistry := e₀.tradeRegistry.markBusted id }
    have hback : ∀ e' : Engine D, (e'.reportBust X id t reason ts).positions = e'.positions := by
      intro e'
      simp only [reportBust, emit, himplied.payee, himplied.payer]
      exact reverseFill_both _ _ _ _ _
    by_cases hid : o.id < X.maxOrderIds
    · have hlive₁ : e₁.Live o := ⟨hlive.indexed, hlive.linked, hlive.once, hlive.apart⟩
      let e₂ := e₁.adjustOrder o (·.fill (-t.quantity)) t.quantity
      have hlive₂ : e₂.Live (o.fill (-t.quantity)) := hlive₁.adjust rfl rfl _
      let e₃ := e₂.adjustOrder (o.fill (-t.quantity)) (·.fill (-t.quantity)) t.quantity
      have hlive₃ : e₃.Live ((o.fill (-t.quantity)).fill (-t.quantity)) := hlive₂.adjust rfl rfl _
      have hfirst : e₁.unfill X t.aggressorId t.quantity = .ok e₂ := by
        rw [himplied.aggressor]
        exact hlive₁.unfill hid _
      have hsecond : e₂.unfill X t.restingId t.quantity = .ok e₃ := by
        rw [himplied.resting]
        exact hlive₂.unfill (o := o.fill (-t.quantity)) hid _
      have hlevel : (e₃.levelHolding o).map (·.totalQuantity) =
          (e.levelHolding o).map (·.totalQuantity + t.quantity + t.quantity) := by
        have hlast := levelHolding_adjust (o.fill (-t.quantity)) (f := (·.fill (-t.quantity)))
          (fun _ => rfl) t.quantity e₂
        have hfore := levelHolding_adjust o (f := (·.fill (-t.quantity))) (fun _ => rfl) t.quantity e₁
        rw [show e₃.levelHolding o = e₃.levelHolding (o.fill (-t.quantity)) from rfl, hlast,
          show e₂.levelHolding (o.fill (-t.quantity)) = e₂.levelHolding o from rfl, hfore,
          Option.map_map, Option.map_map]
        rfl
      refine ⟨e₃.reportBust X id t reason ts,
        bustTrade_eq hclosed hlook₀ hturned hfirst hsecond, ?_, fun _ _ _ _ =>
          ⟨⟨hlive₃.indexed, hlive₃.linked, hlive₃.once, hlive₃.apart⟩, hlevel, hback e₃⟩⟩
      by_cases hq : t.quantity = 0
      · have hsame : e₃ = e₁ := by
          change (e₁.adjustOrder o (·.fill (-t.quantity)) t.quantity).adjustOrder
            (o.fill (-t.quantity)) (·.fill (-t.quantity)) t.quantity = e₁
          rw [hq, adjustOrder_zero, adjustOrder_zero]
        rw [hsame]
        exact undoes_iff_of_kept hlive rfl rfl rfl (hback e₁)
      · refine iff_of_false (not_undoes_of_live (n := t.quantity + t.quantity) ?_ (by omega)) hq
        rw [neg_add, ← Order.fill_fill]
        exact ⟨hlive₃.indexed, hlive₃.linked, hlive₃.once, hlive₃.apart⟩
    · have hskip : ∀ e' : Engine D, e'.unfill X o.id t.quantity = .ok e' := fun e' =>
        if_pos (.inl (not_lt.mp hid))
      exact ⟨e₁.reportBust X id t reason ts, bustTrade_eq hclosed hlook₀ hturned
        (himplied.aggressor ▸ hskip e₁) (himplied.resting ▸ hskip e₁),
        undoes_iff_of_kept hlive rfl rfl rfl (hback e₁), fun _ _ _ h => absurd h hid⟩

def impliedStart : Engine Unit :=
  runAll sampleExchange
    [.newOrder (limitRequest .sell 100 10), .applyImpliedFills [⟨1, 100, 4⟩] 2]
    (sampleStart sampleExchange sampleConfig ())

def impliedOffer : Order :=
  { limitOrder 1 .sell 100 10 with filledQuantity := 4, remainingQuantity := 6 }

def impliedRecord : TradeRecord where
  tradeId := 1
  aggressorId := 1
  restingId := 1
  price := 100
  quantity := 4
  ts := 2
  aggressorSide := .sell
  aggressorAccountId := 1
  restingAccountId := 1
  busted := false

theorem impliedOffer_live : impliedStart.Live impliedOffer := by
  refine ⟨by decide +kernel, ⟨.limit, by decide +kernel⟩, ?_, ?_⟩ <;>
    intro k <;> cases k <;> decide +kernel

/-- The bust leaves 14 of an offer of 10. -/
theorem implied_bust_doubles : ¬∀ (e e' : Engine Unit) (t : TradeRecord) (o : Order),
    Reach sampleExchange (fun _ _ => True) (sampleStart sampleExchange sampleConfig ()) e →
      e.tradeRegistry.lookup 1 = some t → t.OfImplied o → 0 < t.quantity → e.Live o →
        e.perform sampleExchange 20 (.bustTrade 1 .erroneousTrade 3) = .ok e' →
          e.Undoes sampleExchange o t.quantity e' := by
  intro h
  have hreach : Reach sampleExchange (fun _ _ => True)
      (sampleStart sampleExchange sampleConfig ()) impliedStart :=
    reach_runAll (fun _ _ _ => trivial) (by decide +kernel)
  have hundone := h impliedStart _ impliedRecord impliedOffer hreach (by decide +kernel)
    ⟨rfl, rfl, rfl, rfl, rfl⟩ (by decide) impliedOffer_live (Outcome.eq_ok (by decide +kernel))
  obtain ⟨k, hk⟩ := hundone.order.linked
  have hwrong : ∀ k, impliedOffer.fill (-4) ∉ ordersIn ((Outcome.engine (impliedStart.perform
      sampleExchange 20 (.bustTrade 1 .erroneousTrade 3))).shelf k .sell) := by
    intro k
    cases k <;> decide +kernel
  exact hwrong k hk

/-- The order of the trade is live in a run of the engine, and the trade is not of nothing. -/
theorem bust_implied_sample :
    impliedStart.tradeRegistry.lookup 1 = some impliedRecord ∧ impliedRecord.OfImplied impliedOffer ∧
      impliedStart.Live impliedOffer ∧
      ∃ e', impliedStart.perform sampleExchange 20 (.bustTrade 1 .erroneousTrade 3) = .ok e' ∧
        (impliedStart.Undoes sampleExchange impliedOffer 4 e' ↔ (4 : Int) = 0) ∧
        (impliedStart.currentState ≠ .closed → impliedRecord.busted = false →
          sampleExchange.onValidateBust impliedStart.derived 1 impliedRecord 3 = true →
          impliedOffer.id < sampleExchange.maxOrderIds →
            impliedStart.DoublyUndoes impliedOffer 4 e') :=
  have hlook : impliedStart.tradeRegistry.lookup 1 = some impliedRecord := by decide +kernel
  have himplied : impliedRecord.OfImplied impliedOffer := ⟨rfl, rfl, rfl, rfl, rfl⟩
  ⟨hlook, himplied, impliedOffer_live,
    bust_implied_iff sampleExchange impliedStart 20 1 .erroneousTrade 3 hlook himplied
      impliedOffer_live⟩

end ExchangeSim
