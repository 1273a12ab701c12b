import ExchangeSim.Sample
import ExchangeSim.Traits
import ExchangeSim.Venues

namespace ExchangeSim

variable {D : Type} {X : Exchange D} {phases : List SessionState} {e : Engine D}
  {req : OrderRequest}

def Engine.HoldsLasting (e : Engine D) : Prop :=
  ∀ s, ∀ o ∈ ordersIn (e.book s), o.Lasts

def Engine.patientIn (phases : List SessionState) (e : Engine D) : Action → Prop
  | .newOrder req => e.currentState ∈ phases → req.type = .limit →
    req.tif ≠ .ioc ∧ req.tif ≠ .fok
  | a => e.limitTargets a

/-- The phase check keeps immediate orders out of every collection phase but those named. -/
def Exchange.CollectsLasting (X : Exchange D) (phases : List SessionState) : Prop :=
  ∀ d req s, s.isCollectionPhase = true → s ∉ phases → X.isOrderAllowedInPhase d req s = true →
    req.tif ≠ .ioc ∧ req.tif ≠ .fok

theorem allowed_of_checks (h : firstFailure (e.newOrderChecks X req) = none) :
    X.isOrderAllowedInPhase e.derived req e.currentState = true := by
  have hcheck := firstFailure_eq_none h
    (c := (!X.isOrderAllowedInPhase e.derived req e.currentState, .invalidTif))
    (by simp [Engine.newOrderChecks])
  simpa using hcheck

theorem upholds_lasts (hX : X.CollectsLasting phases) {a : Action} (ha : e.patientIn phases a) :
    Upholds X Order.Lasts (fun _ => True) e a where
  resting _ _ hcore ho := ho.congr hcore
  waiting _ _ _ _ := trivial
  entered _ _ _ _ hlast := hlast
  collected := by
    intro req o hacc hphase htype
    obtain ⟨slot, rfl⟩ := hacc.built
    have hcall := hacc.called
    subst hcall
    have htif : req.tif ≠ .ioc ∧ req.tif ≠ .fok := by
      by_cases hin : e.currentState ∈ phases
      · exact ha hin htype
      · exact hX e.derived req e.currentState hphase hin (allowed_of_checks hacc.checked)
    have hmarket : req.type ≠ .market := by simp [htype]
    exact ⟨hmarket, htif.1, htif.2⟩
  parked _ _ _ _ := trivial
  triggered _ _ hlast := hlast
  replaced _ _ _ hlast := hlast
  amended _ _ _ _ := ⟨fun ho => ⟨ho.market, ho.ioc, ho.fok⟩, id⟩

theorem reach_lasting (hX : X.CollectsLasting phases) {config : EngineConfig} {derived : D}
    {slots : Nat → SlotResidue}
    (h : Reach X (Engine.patientIn phases) (Engine.init X config derived slots) e) :
    e.HoldsLasting := by
  refine (reach_carries (P := Order.Lasts) (Q := fun _ => True) (fun e a ha s ts he => ?_)
    (fun e a ha _ => upholds_lasts hX ha) h).resting
  subst he
  exact ha

theorem allowedOutside_tif {s : SessionState} (hs : s ∈ phases)
    (h : allowedOutside phases req s = true) : req.tif ≠ .ioc ∧ req.tif ≠ .fok := by
  unfold allowedOutside at h
  split at h
  · simp at h
  · simp only [Bool.and_eq_true, Bool.not_eq_true', Bool.or_eq_false_iff,
      decide_eq_false_iff_not] at h
    exact h.1

theorem collectsLasting_of_phases {blocked : List SessionState}
    (hall : ∀ s, SessionState.isCollectionPhase s = true → s ∉ phases → s ∈ blocked)
    (hX : ∀ d, X.isOrderAllowedInPhase d = allowedOutside blocked) : X.CollectsLasting phases := by
  intro d req s hphase hs hallowed
  rw [hX] at hallowed
  exact allowedOutside_tif (hall s hphase hs) hallowed

/-- No immediate order and no market order rests on any of the three venues, if none is sent as a
limit order while the daily limit locks the market, nor to ICE in a volatility auction. -/
theorem reach_holdsLasting (algo : MatchPolicy) (size : VenueSize) (config : EngineConfig)
    (slots : Nat → SlotResidue) :
    (∀ d e, Reach (cmeExchange algo size) (Engine.patientIn [.lockLimit])
      (Engine.init (cmeExchange algo size) config d slots) e → e.HoldsLasting) ∧
    (∀ d e, Reach (iceExchange algo size) (Engine.patientIn [.lockLimit, .volatilityAuction])
      (Engine.init (iceExchange algo size) config d slots) e → e.HoldsLasting) ∧
    (∀ d e, Reach (krxExchange algo size) (Engine.patientIn [.lockLimit])
      (Engine.init (krxExchange algo size) config d slots) e → e.HoldsLasting) := by
  refine ⟨fun d e h => reach_lasting (collectsLasting_of_phases ?_ fun _ => rfl) h,
    fun d e h => reach_lasting (collectsLasting_of_phases ?_ fun _ => rfl) h,
    fun d e h => reach_lasting (collectsLasting_of_phases ?_ fun _ => rfl) h⟩ <;>
  · intro s hphase hs
    cases s <;> simp_all [SessionState.isCollectionPhase]

def lockActions : List Action :=
  [.newOrder (limitRequest .sell 105 5),
    .newOrder { limitRequest .buy 105 5 with accountId := 2 }]

/-- In the lock a bid that may wait is collected. -/
theorem reach_holdsLasting_sample : (runAll (cmeExchange fifoMatch sampleVenue)
    (lockActions ++ [.newOrder (limitRequest .buy 100 5)])
    (sampleStart (cmeExchange fifoMatch sampleVenue) { sampleConfig with dailyLimitHigh := 105 }
      {})).HoldsLasting :=
  (reach_holdsLasting fifoMatch sampleVenue { sampleConfig with dailyLimitHigh := 105 }
    fun _ => {}).1 {} _ (reach_runAll (by simp [lockActions, Engine.patientIn, limitRequest])
      (by decide +kernel))

/-- In the lock an `IOC` bid is collected and rests. -/
theorem immediate_rests_in_lock : ¬∀ e : Engine CmeState,
    Reach (cmeExchange fifoMatch sampleVenue) (fun _ _ => True) (sampleStart
      (cmeExchange fifoMatch sampleVenue) { sampleConfig with dailyLimitHigh := 105 } {}) e →
      e.HoldsLasting := by
  intro h
  let e := runAll (cmeExchange fifoMatch sampleVenue)
    (lockActions ++ [.newOrder { limitRequest .buy 100 5 with tif := .ioc }])
    (sampleStart (cmeExchange fifoMatch sampleVenue) { sampleConfig with dailyLimitHigh := 105 } {})
  have hlaw := h e (reach_runAll (by simp) (by decide +kernel)) .buy
  have hioc : ∃ o ∈ ordersIn (e.book .buy), o.tif = .ioc := by decide +kernel
  obtain ⟨o, ho, htif⟩ := hioc
  exact (hlaw o ho).ioc htif

end ExchangeSim
