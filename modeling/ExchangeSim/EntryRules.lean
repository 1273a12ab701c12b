import ExchangeSim.Sample
import ExchangeSim.Traits

namespace ExchangeSim

open Engine

variable {D : Type} {X : Exchange D}

/-- Inside the static bands and the daily limits. A bound of zero is off. -/
structure EngineConfig.InRange (c : EngineConfig) (p : Int) : Prop where
  bandLow : 0 < c.priceBandLow → c.priceBandLow ≤ p
  bandHigh : 0 < c.priceBandHigh → p ≤ c.priceBandHigh
  limitHigh : 0 < c.dailyLimitHigh → p ≤ c.dailyLimitHigh
  limitLow : 0 < c.dailyLimitLow → c.dailyLimitLow ≤ p

structure EngineConfig.TakesPrice (c : EngineConfig) (p : Int) : Prop where
  positive : 0 < p
  tick : 0 < c.tickSize → c.tickSize ∣ p
  range : c.InRange p

structure EngineConfig.TakesQuantity (c : EngineConfig) (q : Int) : Prop where
  lot : 0 < c.lotSize → c.lotSize ∣ q
  size : 0 < c.maxOrderSize → q ≤ c.maxOrderSize

def Order.ObeysEntry (c : EngineConfig) (o : Order) : Prop :=
  c.TakesPrice o.price ∧ c.TakesQuantity o.quantity

structure Order.Parked (c : EngineConfig) (o : Order) : Prop where
  stop : o.type.isStop = true
  quantity : c.TakesQuantity o.quantity
  price : o.type = .stopLimit → c.TakesPrice o.price

def Exchange.StaticBands (X : Exchange D) : Prop :=
  ∀ d c p, X.calculateDynamicBands d c p = (c.priceBandLow, c.priceBandHigh)

/-- Every modification is of an order of the limit book and asks for a price inside the bands and
limits and for no more than the largest order. -/
def Engine.withinRules (e : Engine D) : Action → Prop
  | .modifyOrder req => e.limitTargets (.modifyOrder req) ∧ e.config.InRange req.newPrice ∧
    (0 < e.config.maxOrderSize → req.newQuantity ≤ e.config.maxOrderSize)
  | a => e.limitTargets a

section checks

variable {e : Engine D} {req : OrderRequest}

theorem takesQuantity_of_checks (h : firstFailure (e.newOrderChecks X req) = none) :
    e.config.TakesQuantity req.quantity where
  lot hlot := by
    have hcheck := firstFailure_eq_none h
      (c := (decide (e.config.lotSize > 0 ∧ req.quantity % e.config.lotSize ≠ 0),
        .invalidQuantity)) (by simp [newOrderChecks])
    exact Int.dvd_of_emod_eq_zero (by simpa [hlot] using hcheck)
  size hsize := by
    have hcheck := firstFailure_eq_none h
      (c := (decide (e.config.maxOrderSize > 0 ∧ req.quantity > e.config.maxOrderSize),
        .maxOrderSizeExceeded)) (by simp [newOrderChecks])
    simpa [hsize] using hcheck

theorem takesPrice_of_checks (hb : X.StaticBands)
    (h : firstFailure (e.newOrderChecks X req) = none) (hp : req.type.priced = true) :
    e.config.TakesPrice req.price := by
  have hall := fun c hc => firstFailure_eq_none h (c := c) hc
  simp only [newOrderChecks, hb e.derived e.config e.lastTradePrice, List.mem_cons,
    List.not_mem_nil, or_false, forall_eq_or_imp, forall_eq, hp, Bool.true_and,
    decide_eq_false_iff_not, not_and, not_not, not_le, not_lt, gt_iff_lt] at hall
  -- eight checks come before those on the price
  obtain ⟨-, -, -, -, -, -, -, -, hpos, htick, hbl, hbh, hlh, hll, -⟩ := hall
  exact ⟨hpos, fun ht => Int.dvd_of_emod_eq_zero (htick ht), hbl, hbh, hlh, hll⟩

theorem obeysEntry_of_checks (hb : X.StaticBands)
    (h : firstFailure (e.newOrderChecks X req) = none) (hlimit : req.type = .limit)
    (slot : SlotResidue) : (e.buildOrder X req slot).ObeysEntry e.config := by
  refine ⟨?_, takesQuantity_of_checks h⟩
  have hprice := takesPrice_of_checks hb h (by simp [hlimit, OrderType.priced])
  simpa [buildOrder, hlimit] using hprice

end checks

theorem takes_of_modifyChecks {e : Engine D} {req : ModifyRequest}
    (h : firstFailure (e.modifyChecks X req) = none)
    (hin : e.config.InRange req.newPrice ∧
      (0 < e.config.maxOrderSize → req.newQuantity ≤ e.config.maxOrderSize)) :
    e.config.TakesPrice req.newPrice ∧ e.config.TakesQuantity req.newQuantity := by
  have hall := fun c hc => firstFailure_eq_none h (c := c) hc
  simp only [modifyChecks, List.mem_cons, List.not_mem_nil, or_false, forall_eq_or_imp,
    forall_eq, decide_eq_false_iff_not, not_and, not_not, not_le, gt_iff_lt] at hall
  obtain ⟨-, hpos, htick, hlot, -⟩ := hall
  exact ⟨⟨hpos, fun ht => Int.dvd_of_emod_eq_zero (htick ht), hin.1⟩,
    fun hl => Int.dvd_of_emod_eq_zero (hlot hl), hin.2⟩

theorem upholds_entered (hb : X.StaticBands) {e : Engine D} {a : Action} (ha : e.withinRules a) :
    Upholds X (Order.ObeysEntry e.config) (Order.Parked e.config) e a where
  resting := by
    intro o o' hcore ho
    have hprice : o.core.price = o'.core.price := by rw [hcore]
    have hquantity : o.core.quantity = o'.core.quantity := by rw [hcore]
    exact ⟨hprice ▸ ho.1, hquantity ▸ ho.2⟩
  waiting := by
    intro o o' hcore ho
    have hprice : o.core.price = o'.core.price := by rw [hcore]
    have hquantity : o.core.quantity = o'.core.quantity := by rw [hcore]
    have htype : o.core.type = o'.core.type := by rw [hcore]
    exact ⟨htype ▸ ho.stop, hquantity ▸ ho.quantity,
      fun ht => hprice ▸ ho.price (htype.trans ht)⟩
  entered := by
    intro req o hacc hstop hlast
    obtain ⟨slot, rfl⟩ := hacc.built
    have hlimit : req.type = .limit := by
      have hmarket : req.type ≠ .market := hlast.market
      cases htype : req.type <;> simp_all [OrderType.isStop]
    exact obeysEntry_of_checks hb hacc.checked hlimit slot
  collected := by
    intro req o hacc _ hlimit
    obtain ⟨slot, rfl⟩ := hacc.built
    exact obeysEntry_of_checks hb hacc.checked hlimit slot
  parked := by
    intro req o hacc hstop
    obtain ⟨slot, rfl⟩ := hacc.built
    refine ⟨hstop, takesQuantity_of_checks hacc.checked, fun htype => ?_⟩
    have htype' : req.type = .stopLimit := htype
    have hprice := takesPrice_of_checks hb hacc.checked (by simp [htype', OrderType.priced])
    simpa [buildOrder, htype'] using hprice
  triggered := by
    intro o ho hlast
    unfold Order.triggered at hlast ⊢
    split at hlast
    next htype => exact absurd rfl hlast.market
    next htype =>
      rw [if_neg htype]
      have hsl : o.type = .stopLimit := by
        have hstop := ho.stop
        cases ht : o.type <;> simp_all [OrderType.isStop]
      exact ⟨ho.price hsl, ho.quantity⟩
  replaced := by
    intro req o hmod _
    have hcall := hmod.called
    subst hcall
    exact takes_of_modifyChecks hmod.checked ha.2
  amended := by
    intro req o hmod _
    have hcall := hmod.called
    subst hcall
    have hq := (takes_of_modifyChecks hmod.checked ha.2).2
    exact ⟨fun ho => ⟨ho.1, hq⟩, fun ho => ⟨ho.stop, hq, ho.price⟩⟩

/-- Every order of the limit book obeys the rules of entry, if modifications keep to the bands,
the limits and the largest size, which `modify_order` does not check. -/
theorem reach_entered (hb : X.StaticBands) (hc : X.KeepsConfig) (config : EngineConfig)
    (derived : D) (slots : Nat → SlotResidue) (e : Engine D)
    (h : Reach X Engine.withinRules (Engine.init X config derived slots) e) :
    ∀ s, ∀ o ∈ ordersIn (e.book s), o.ObeysEntry config := by
  refine (reach_carries (P := Order.ObeysEntry config) (Q := Order.Parked config)
    (fun e a ha s ts he => ?_) (fun e a ha hconf => ?_) h).resting
  · subst he
    exact ha
  · rw [← hconf hc]
    exact upholds_entered hb ha

def bandedConfig : EngineConfig := { sampleConfig with priceBandHigh := 110, maxOrderSize := 10 }

/-- A bid lifted inside the band. -/
theorem reach_entered_sample :
    let e := runAll sampleExchange
      [.newOrder (limitRequest .buy 100 5), .modifyOrder ⟨1, 0, 110, 10, 2⟩]
      (sampleStart sampleExchange bandedConfig ())
    (ordersIn (e.book .buy)).map (·.price) = [110] ∧
      ∀ s, ∀ o ∈ ordersIn (e.book s), o.ObeysEntry bandedConfig := by
  intro e
  refine ⟨by decide +kernel, ?_⟩
  have hreach : Reach sampleExchange withinRules
      (sampleStart sampleExchange bandedConfig ()) e := by
    refine reach_passes ⟨trivial, ⟨?_, ⟨?_, ?_, ?_, ?_⟩, ?_⟩, trivial⟩ (by decide +kernel)
    · unfold limitTargets Engine.rests
      decide +kernel
    all_goals decide +kernel
  exact reach_entered (fun _ _ _ => rfl) (fun _ _ _ _ _ => rfl) bandedConfig () (fun _ => {}) e
    hreach

/-- A bid lifted above the band, to twice the largest size. -/
theorem modified_beyond_rules : ¬∀ e : Engine Unit, Reach sampleExchange (fun _ _ => True)
    (sampleStart sampleExchange bandedConfig ()) e →
    ∀ s, ∀ o ∈ ordersIn (e.book s), o.ObeysEntry bandedConfig := by
  intro h
  have hlaw := h (runAll sampleExchange
    [.newOrder (limitRequest .buy 100 5), .modifyOrder ⟨1, 0, 120, 20, 2⟩]
    (sampleStart sampleExchange bandedConfig ())) (reach_runAll (by simp) (by decide +kernel)) .buy
  have hout : ∃ o ∈ ordersIn ((runAll sampleExchange
      [.newOrder (limitRequest .buy 100 5), .modifyOrder ⟨1, 0, 120, 20, 2⟩]
      (sampleStart sampleExchange bandedConfig ())).book .buy),
      bandedConfig.priceBandHigh < o.price ∧ bandedConfig.maxOrderSize < o.quantity := by
    decide +kernel
  obtain ⟨o, ho, hprice, -⟩ := hout
  have := (hlaw o ho).1.range.bandHigh (by decide)
  omega

end ExchangeSim
