import ExchangeSim.Types
import Mathlib.Algebra.Ring.Int.Parity
import Mathlib.Algebra.Order.Ring.Int
import Mathlib.Tactic.Linarith

/-!
The trading client: the tick grid its strategies price on, and what it keeps of its orders and of
its profit and loss from the execution reports it is sent.
-/

namespace ExchangeSim

def snapToTick (price tickSize : Int) : Int :=
  if tickSize ≤ 0 then price
  else
    let remainder := price.tmod tickSize
    let remainder := if remainder < 0 then remainder + tickSize else remainder
    if remainder ≥ tickSize.tdiv 2 then price + (tickSize - remainder) else price - remainder

structure SnapsNearest (tick : Int) : Prop where
  multiple : ∀ price, tick ∣ snapToTick price tick
  near : ∀ price, 2 * |snapToTick price tick - price| ≤ tick
  fixes : ∀ price, tick ∣ price → snapToTick price tick = price
  idempotent : ∀ price, snapToTick (snapToTick price tick) tick = snapToTick price tick
  monotone : Monotone (snapToTick · tick)

section snap

variable {price tick : Int}

theorem snapToTick_eq (htick : 0 < tick) : snapToTick price tick =
    price - price % tick + if tick / 2 ≤ price % tick then tick else 0 := by
  have hrem : (if price.tmod tick < 0 then price.tmod tick + tick else price.tmod tick) =
      price % tick := by
    have hlt := Int.emod_lt_of_pos price htick
    have hnn := Int.emod_nonneg price htick.ne'
    rw [Int.tmod_eq_emod]
    split_ifs <;> omega
  simp only [snapToTick, not_le.mpr htick, if_false, hrem, Int.tdiv_eq_ediv_of_nonneg htick.le,
    ge_iff_le]
  split <;> omega

theorem dvd_snapToTick (htick : 0 < tick) : tick ∣ snapToTick price tick := by
  rw [snapToTick_eq htick]
  refine Int.dvd_add (Int.dvd_self_sub_emod ..) ?_
  split <;> simp

/-- The half of an odd tick is rounded down, and a price that far above a multiple is taken up. -/
theorem snapToTick_near_iff (htick : 0 < tick) :
    2 * |snapToTick price tick - price| ≤ tick ↔ ¬(tick % 2 = 1 ∧ price % tick = tick / 2) := by
  have hlt := Int.emod_lt_of_pos price htick
  have hnn := Int.emod_nonneg price htick.ne'
  rw [snapToTick_eq htick]
  generalize price % tick = r at *
  split
  · rw [abs_of_nonneg (by omega)]
    omega
  · rw [abs_of_nonpos (by omega)]
    omega

theorem snapToTick_mono (htick : 0 < tick) : Monotone (snapToTick · tick) := by
  intro p p' hle
  have hlt := Int.emod_lt_of_pos p htick
  have hnn := Int.emod_nonneg p' htick.ne'
  have hp := Int.emod_add_mul_ediv p tick
  have hp' := Int.emod_add_mul_ediv p' tick
  simp only [snapToTick_eq htick]
  rcases (Int.ediv_le_ediv htick hle).eq_or_lt with hq | hq
  · rw [hq] at hp
    split <;> split <;> omega
  · -- a whole tick lies between the two
    have hstep : tick * (p / tick) + tick ≤ tick * (p' / tick) := by
      rw [← mul_add_one]
      exact Int.mul_le_mul_of_nonneg_left hq htick.le
    split <;> split <;> omega

theorem snapToTick_of_dvd (heven : Even tick) (htick : 0 < tick) (h : tick ∣ price) :
    snapToTick price tick = price := by
  obtain ⟨k, rfl⟩ := heven
  rw [snapToTick_eq htick, Int.emod_eq_zero_of_dvd h, if_neg (by omega)]
  omega

end snap

/-- The rounding is to the nearest multiple exactly for the even ticks; for an odd one it fails at
the prices half a tick, rounded down, above a multiple. -/
theorem snapsNearest_iff {tick : Int} (htick : 0 < tick) :
    (SnapsNearest tick ↔ Even tick) ∧ ∀ price, tick ∣ snapToTick price tick ∧
      (2 * |snapToTick price tick - price| ≤ tick ↔
        ¬(tick % 2 = 1 ∧ price % tick = tick / 2)) := by
  refine ⟨⟨fun h => ?_, fun heven => ?_⟩, fun price => ⟨dvd_snapToTick htick,
    snapToTick_near_iff htick⟩⟩
  · have hhalf := (snapToTick_near_iff htick).mp (h.near (tick / 2))
    rw [Int.emod_eq_of_lt (a := tick / 2) (by omega) (by omega)] at hhalf
    exact Int.even_iff.mpr (by omega)
  · have hdvd : ∀ price, tick ∣ snapToTick price tick := fun _ => dvd_snapToTick htick
    exact ⟨hdvd, fun price => (snapToTick_near_iff htick).mpr fun h => by
        have := Int.even_iff.mp heven
        omega,
      fun _ => snapToTick_of_dvd heven htick, fun price => snapToTick_of_dvd heven htick (hdvd price),
      snapToTick_mono htick⟩

theorem snapsNearest_two : SnapsNearest 2 :=
  (snapsNearest_iff (by decide)).1.mpr (by decide)

theorem snapToTick_unit : snapToTick 5 1 = 6 ∧ snapToTick 4 3 = 6 := by decide

/-- An order as the client tracks it. -/
structure OpenOrder where
  clOrdId : Nat
  side : Side
  price : Int
  qty : Int
  createdAt : Int
  deriving DecidableEq, Repr

inductive ExecReportType
  | accepted | fill | cancelled | rejected | cancelRejected | replaced
  deriving DecidableEq, Repr

/-- What the client reads of a decoded execution report. -/
structure ExecReport where
  type : ExecReportType
  orderId : Nat := 0
  clOrdId : Nat
  fillPrice : Int := 0
  fillQty : Int := 0
  leavesQty : Int := 0

structure SimClient where
  orders : Nat → Option OpenOrder := fun _ => none
  pendingOrders : Nat → Option OpenOrder := fun _ => none
  orderIdMap : Nat → Nat := fun _ => 0
  position : Int := 0
  realizedPnl : Int := 0
  avgBuyPrice : Int := 0
  avgSellPrice : Int := 0
  lastFillPrice : Int := 0
  fillCount : Nat := 0

namespace SimClient

/-- The position and the profit and loss after a fill of an order on the given side. -/
def bookFill (side : Side) (rpt : ExecReport) (c : SimClient) : SimClient :=
  let fillLots := rpt.fillQty.tdiv priceScale
  match side with
  | .buy =>
    let covered := min (fillLots * priceScale) (-c.position)
    { c with
      realizedPnl := if c.position < 0 then
          c.realizedPnl + (c.avgSellPrice - rpt.fillPrice) * covered.tdiv priceScale
        else c.realizedPnl
      position := c.position + rpt.fillQty
      avgBuyPrice := rpt.fillPrice }
  | .sell =>
    let covered := min (fillLots * priceScale) c.position
    { c with
      realizedPnl := if c.position > 0 then
          c.realizedPnl + (rpt.fillPrice - c.avgBuyPrice) * covered.tdiv priceScale
        else c.realizedPnl
      position := c.position - rpt.fillQty
      avgSellPrice := rpt.fillPrice }

def handleExecReport (rpt : ExecReport) (c : SimClient) : SimClient :=
  match rpt.type with
  | .accepted =>
    let c := match c.pendingOrders rpt.clOrdId with
      | some o => { c with
          orders := Function.update c.orders rpt.clOrdId (some o)
          pendingOrders := Function.update c.pendingOrders rpt.clOrdId none }
      | none => c
    { c with orderIdMap := Function.update c.orderIdMap rpt.clOrdId rpt.orderId }
  | .fill =>
    let c := match c.orders rpt.clOrdId with
      | some o =>
        let c := c.bookFill o.side rpt
        if rpt.leavesQty = 0 then
          { c with orders := Function.update c.orders rpt.clOrdId none }
        else c
      | none => c
    { c with lastFillPrice := rpt.fillPrice, fillCount := (c.fillCount + 1) % 2 ^ 32 }
  | .cancelled => { c with orders := Function.update c.orders rpt.clOrdId none }
  | .rejected => { c with pendingOrders := Function.update c.pendingOrders rpt.clOrdId none }
  | .cancelRejected => c
  | .replaced => c

def cash (side : Side) (price contracts : Int) : Int :=
  match side with
  | .buy => -(price * contracts)
  | .sell => price * contracts

/-- The fill does not add to an open position, or does so at the price of the last fill on its
side. -/
def Steady (c : SimClient) (side : Side) (price : Int) : Prop :=
  match side with
  | .buy => 0 < c.position → price = c.avgBuyPrice
  | .sell => c.position < 0 → price = c.avgSellPrice

/-- What the client may come to from its start, with the cash of the fills of tracked orders. The
fills satisfy `ok` where they come in. -/
inductive Fills (ok : SimClient → Side → Int → Prop) : SimClient → Int → Prop
  | start (orders : Nat → Option OpenOrder) : Fills ok { orders } 0
  | other {c flow} (rpt : ExecReport) : Fills ok c flow → rpt.type ≠ .fill →
    Fills ok (c.handleExecReport rpt) flow
  | send {c flow} (pending : Nat → Option OpenOrder) : Fills ok c flow →
    Fills ok { c with pendingOrders := pending } flow
  | fill {c flow o contracts} (rpt : ExecReport) : Fills ok c flow → rpt.type = .fill →
    c.orders rpt.clOrdId = some o → 0 < contracts → rpt.fillQty = contracts * priceScale →
    ok c o.side rpt.fillPrice →
    Fills ok (c.handleExecReport rpt) (flow + cash o.side rpt.fillPrice contracts)

/-- The open contracts are carried at the last price of their side. -/
def Conserved (flow : Int) (c : SimClient) : Prop :=
  ∃ held, c.position = held * priceScale ∧
    c.realizedPnl = flow + held * if 0 < held then c.avgBuyPrice else c.avgSellPrice

theorem Conserved.congr {c c' : SimClient} {flow : Int} (h : Conserved flow c)
    (hp : c'.position = c.position) (hr : c'.realizedPnl = c.realizedPnl)
    (hb : c'.avgBuyPrice = c.avgBuyPrice) (hs : c'.avgSellPrice = c.avgSellPrice) :
    Conserved flow c' := by
  unfold Conserved
  rwa [hp, hr, hb, hs]

theorem Conserved.bookFill {c : SimClient} {flow contracts : Int} {side : Side} {rpt : ExecReport}
    (h : Conserved flow c) (hpos : 0 < contracts) (hqty : rpt.fillQty = contracts * priceScale)
    (hsteady : c.Steady side rpt.fillPrice) :
    Conserved (flow + cash side rpt.fillPrice contracts) (c.bookFill side rpt) := by
  obtain ⟨held, hheld, hpnl⟩ := h
  have hlots : rpt.fillQty.tdiv priceScale = contracts := by
    rw [hqty]
    exact Int.mul_tdiv_cancel _ (by decide)
  have hcovered : ∀ n : Int, (min (contracts * priceScale) (n * priceScale)).tdiv priceScale =
      min contracts n := fun n => by
    rw [← min_mul_of_nonneg _ _ (by decide)]
    exact Int.mul_tdiv_cancel _ (by decide)
  have hshort : held * priceScale < 0 ↔ held < 0 := by
    unfold priceScale
    omega
  have hlong : 0 < held * priceScale ↔ 0 < held := by
    unfold priceScale
    omega
  cases side with
  | buy =>
    have hsteady : 0 < c.position → rpt.fillPrice = c.avgBuyPrice := hsteady
    refine ⟨held + contracts, by simp only [SimClient.bookFill]; rw [hheld, hqty]; ring, ?_⟩
    simp only [SimClient.bookFill, hlots, hheld, ← Int.neg_mul, hcovered, cash, hpnl, hshort,
      hlong] at hsteady ⊢
    rcases lt_trichotomy held 0 with hlt | rfl | hgt
    · rw [if_pos hlt, if_neg (by omega)]
      rcases le_or_gt contracts (-held) with hle | hover
      · rw [min_eq_left hle, if_neg (by omega)]
        ring
      · rw [min_eq_right hover.le, if_pos (by omega)]
        ring
    · simp [hpos]
      ring
    · rw [if_neg (by omega), if_pos hgt, if_pos (by omega), ← hsteady hgt]
      ring
  | sell =>
    have hsteady : c.position < 0 → rpt.fillPrice = c.avgSellPrice := hsteady
    refine ⟨held - contracts, by simp only [SimClient.bookFill]; rw [hheld, hqty]; ring, ?_⟩
    simp only [SimClient.bookFill, hlots, hheld, hcovered, cash, hpnl, hshort, gt_iff_lt,
      hlong] at hsteady ⊢
    rcases lt_trichotomy held 0 with hlt | rfl | hgt
    · rw [if_neg (by omega), if_neg (by omega), if_neg (by omega), ← hsteady hlt]
      ring
    · simp [hpos.not_gt]
      ring
    · rw [if_pos hgt, if_pos hgt]
      rcases lt_or_ge contracts held with hlt | hover
      · rw [min_eq_left hlt.le, if_pos (by omega)]
        ring
      · rw [min_eq_right hover, if_neg (by omega)]
        ring

theorem Fills.conserved {c : SimClient} {flow : Int} (h : Fills Steady c flow) :
    Conserved flow c := by
  induction h with
  | start orders => exact ⟨0, by simp, by simp⟩
  | send pending _ ih => exact ih
  | other rpt _ htype ih =>
    refine ih.congr ?_ ?_ ?_ ?_ <;> unfold handleExecReport <;> grind
  | fill rpt _ htype ho hpos hqty hsteady ih =>
    refine (ih.bookFill hpos hqty hsteady).congr ?_ ?_ ?_ ?_ <;> unfold handleExecReport <;> grind

/-- Where no fill adds to an open position at another price than the last fill on its side, the
realized profit of a flat client is its net cash flow. -/
theorem flat_realizedPnl {c : SimClient} {flow : Int} (h : Fills Steady c flow)
    (hflat : c.position = 0) : c.realizedPnl = flow := by
  obtain ⟨held, hheld, hpnl⟩ := h.conserved
  have hzero : held = 0 := by
    unfold priceScale at hheld
    omega
  simpa [hzero] using hpnl

def twoSided (id : Nat) : Option OpenOrder :=
  if id = 1 then some ⟨1, .buy, 100, 50000, 0⟩
    else if id = 2 then some ⟨2, .sell, 103, 50000, 0⟩ else none

def contractsAt (id : Nat) (price contracts : Int) : ExecReport :=
  ⟨.fill, 0, id, price, contracts * priceScale, priceScale⟩

theorem flat_realizedPnl_sample :
    ∃ c, Fills Steady c 6 ∧ c.position = 0 ∧ c.realizedPnl = 6 := by
  have hbuy : Fills Steady _ _ := .fill (contractsAt 1 100 2) (.start twoSided) rfl rfl
    (show (0 : Int) < 2 by decide) rfl fun h => absurd h (by decide)
  have hsell := Fills.fill (contractsAt 2 103 2) hbuy rfl rfl (show (0 : Int) < 2 by decide) rfl
    fun h => absurd h (by decide)
  exact ⟨_, hsell, rfl, flat_realizedPnl hsell rfl⟩

/-- Contracts bought at 100 and at 102 are sold as if both had cost 102. -/
theorem flat_realizedPnl_lost : ∃ c, Fills (fun _ _ _ => True) c 4 ∧ c.position = 0 ∧
    c.realizedPnl = 2 := by
  have hfirst : Fills (fun _ _ _ => True) _ _ := .fill (contractsAt 1 100 1) (.start twoSided) rfl rfl
    (show (0 : Int) < 1 by decide) rfl trivial
  have hsecond := hfirst.fill (contractsAt 1 102 1) rfl rfl (show (0 : Int) < 1 by decide) rfl trivial
  have hsold := hsecond.fill (contractsAt 2 103 2) rfl rfl (show (0 : Int) < 2 by decide) rfl trivial
  exact ⟨_, hsold, rfl, rfl⟩

end SimClient

end ExchangeSim
