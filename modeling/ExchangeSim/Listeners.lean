import ExchangeSim.GridOperations
import ExchangeSim.KrxLimits

/-!
The listeners. An engine calls one callback of one of its two listeners for each event. A composite
listener is meant to hand every event on to the listeners it wraps; a callback it does not declare is
the empty one of its base class.
-/

namespace ExchangeSim

/-- `OrderListenerBase` and what a derived class puts in the place of its empty callbacks, on a
state of its own. -/
structure OrderListener (σ : Type) where
  onOrderAccepted : Event → σ → σ := fun _ s => s
  onOrderRejected : Event → σ → σ := fun _ s => s
  onOrderFilled : Event → σ → σ := fun _ s => s
  onOrderPartiallyFilled : Event → σ → σ := fun _ s => s
  onOrderCancelled : Event → σ → σ := fun _ s => s
  onOrderCancelRejected : Event → σ → σ := fun _ s => s
  onOrderModified : Event → σ → σ := fun _ s => s
  onOrderModifyRejected : Event → σ → σ := fun _ s => s
  onTradeBusted : Event → σ → σ := fun _ s => s

/-- `MarketDataListenerBase` and what a derived class puts in the place of its callbacks. -/
structure MdListener (σ : Type) where
  onTopOfBook : Event → σ → σ := fun _ s => s
  onDepthUpdate : Event → σ → σ := fun _ s => s
  onOrderBookAction : Event → σ → σ := fun _ s => s
  onTrade : Event → σ → σ := fun _ s => s
  onMarketStatus : Event → σ → σ := fun _ s => s
  onIndicativePrice : Event → σ → σ := fun _ s => s
  onLockLimitTriggered : Event → σ → σ := fun _ s => s

/-- The callback the engine makes for an event, if it is one for the order listener. -/
def OrderListener.hear {σ : Type} (l : OrderListener σ) (ev : Event) : σ → σ :=
  match ev with
  | .orderAccepted .. => l.onOrderAccepted ev
  | .orderRejected .. => l.onOrderRejected ev
  | .orderFilled .. => l.onOrderFilled ev
  | .orderPartiallyFilled .. => l.onOrderPartiallyFilled ev
  | .orderCancelled .. => l.onOrderCancelled ev
  | .orderCancelRejected .. => l.onOrderCancelRejected ev
  | .orderModified .. => l.onOrderModified ev
  | .orderModifyRejected .. => l.onOrderModifyRejected ev
  | .tradeBusted .. => l.onTradeBusted ev
  | _ => id

def MdListener.hear {σ : Type} (l : MdListener σ) (ev : Event) : σ → σ :=
  match ev with
  | .topOfBook _ => l.onTopOfBook ev
  | .depthUpdate _ => l.onDepthUpdate ev
  | .orderBookAction _ => l.onOrderBookAction ev
  | .trade _ => l.onTrade ev
  | .marketStatus .. => l.onMarketStatus ev
  | .indicativePrice .. => l.onIndicativePrice ev
  | .lockLimitTriggered .. => l.onLockLimitTriggered ev
  | _ => id

def hearAll {σ : Type} (hear : Event → σ → σ) (evs : List Event) (s : σ) : σ :=
  evs.foldl (fun s ev => hear ev s) s

section composite

variable {ι : Type} {σ : ι → Type}

def compositeOrderListener (ls : (i : ι) → OrderListener (σ i)) :
    OrderListener ((i : ι) → σ i) where
  onOrderAccepted ev s i := (ls i).onOrderAccepted ev (s i)
  onOrderRejected ev s i := (ls i).onOrderRejected ev (s i)
  onOrderFilled ev s i := (ls i).onOrderFilled ev (s i)
  onOrderPartiallyFilled ev s i := (ls i).onOrderPartiallyFilled ev (s i)
  onOrderCancelled ev s i := (ls i).onOrderCancelled ev (s i)
  onOrderCancelRejected ev s i := (ls i).onOrderCancelRejected ev (s i)
  onOrderModified ev s i := (ls i).onOrderModified ev (s i)
  onOrderModifyRejected ev s i := (ls i).onOrderModifyRejected ev (s i)

/-- `CompositeMdListener`. It declares no `on_lock_limit_triggered`. -/
def compositeMdListener (ls : (i : ι) → MdListener (σ i)) : MdListener ((i : ι) → σ i) where
  onTopOfBook ev s i := (ls i).onTopOfBook ev (s i)
  onDepthUpdate ev s i := (ls i).onDepthUpdate ev (s i)
  onOrderBookAction ev s i := (ls i).onOrderBookAction ev (s i)
  onTrade ev s i := (ls i).onTrade ev (s i)
  onMarketStatus ev s i := (ls i).onMarketStatus ev (s i)
  onIndicativePrice ev s i := (ls i).onIndicativePrice ev (s i)

end composite

/-- Whatever listeners are wrapped, each comes to what it would come to alone. -/
def OrderTransparent (evs : List Event) : Prop :=
  ∀ (ι : Type) (σ : ι → Type) (ls : (i : ι) → OrderListener (σ i)) (s : (i : ι) → σ i) (i : ι),
    hearAll (compositeOrderListener ls).hear evs s i = hearAll (ls i).hear evs (s i)

def MdTransparent (evs : List Event) : Prop :=
  ∀ (ι : Type) (σ : ι → Type) (ls : (i : ι) → MdListener (σ i)) (s : (i : ι) → σ i) (i : ι),
    hearAll (compositeMdListener ls).hear evs s i = hearAll (ls i).hear evs (s i)

def Event.isBust : Event → Bool
  | .tradeBusted .. => true
  | _ => false

def Event.isLimitHit : Event → Bool
  | .lockLimitTriggered .. => true
  | _ => false

theorem hearAll_apply {ι : Type} {σ : ι → Type} {hear : Event → ((i : ι) → σ i) → (i : ι) → σ i}
    {i : ι} (one : Event → σ i → σ i) {evs : List Event}
    (h : ∀ ev ∈ evs, ∀ s, hear ev s i = one ev (s i)) (s : (i : ι) → σ i) :
    hearAll hear evs s i = hearAll one evs (s i) := by
  induction evs generalizing s with
  | nil => rfl
  | cons ev evs ih =>
    have hfirst : hear ev s i = one ev (s i) := h ev (by simp) s
    have hrest := ih (fun x hx => h x (by simp [hx])) (hear ev s)
    rw [hfirst] at hrest
    exact hrest

theorem hearAll_count {p : Event → Bool} {hear : Event → Nat → Nat}
    (h : ∀ ev n, hear ev n = if p ev then n + 1 else n) (evs : List Event) (n : Nat) :
    hearAll hear evs n = n + evs.countP p := by
  induction evs generalizing n with
  | nil => rfl
  | cons ev evs ih =>
    have hstep : hearAll hear (ev :: evs) n = hearAll hear evs (hear ev n) := rfl
    rw [hstep, ih, h, List.countP_cons]
    split <;> omega

theorem none_of_silent {p : Event → Bool} (one : Event → Nat → Nat)
    {hear : Event → (Unit → Nat) → Unit → Nat}
    (hone : ∀ ev n, one ev n = if p ev then n + 1 else n) (hsilent : ∀ ev s, hear ev s () = s ())
    {evs : List Event} (h : hearAll hear evs (fun _ => 0) () = hearAll one evs 0) :
    ∀ ev ∈ evs, p ev = false := by
  have hbehind : hearAll hear evs (fun _ => 0) () = 0 := by
    rw [hearAll_apply (fun _ n => n) fun ev _ s => hsilent ev s]
    exact List.foldl_fixed evs
  have hnone : evs.countP p = 0 := by
    rw [hbehind, hearAll_count hone] at h
    omega
  exact fun ev hev => Bool.eq_false_iff.mpr (List.countP_eq_zero.mp hnone ev hev)

theorem orderTransparent_iff (evs : List Event) :
    OrderTransparent evs ↔ ∀ ev ∈ evs, ev.isBust = false := by
  constructor
  · intro h
    let counter : OrderListener Nat := { onTradeBusted := fun _ n => n + 1 }
    exact none_of_silent counter.hear (fun ev n => by cases ev <;> rfl)
      (fun ev s => by cases ev <;> rfl) (h Unit (fun _ => Nat) (fun _ => counter) _ ())
  · intro h ι σ ls s i
    refine hearAll_apply (ls i).hear (fun ev hev s => ?_) s
    have hkind := h ev hev
    cases ev <;> first | rfl | simp [Event.isBust] at hkind

theorem mdTransparent_iff (evs : List Event) :
    MdTransparent evs ↔ ∀ ev ∈ evs, ev.isLimitHit = false := by
  constructor
  · intro h
    let counter : MdListener Nat := { onLockLimitTriggered := fun _ n => n + 1 }
    exact none_of_silent counter.hear (fun ev n => by cases ev <;> rfl)
      (fun ev s => by cases ev <;> rfl) (h Unit (fun _ => Nat) (fun _ => counter) _ ())
  · intro h ι σ ls s i
    refine hearAll_apply (ls i).hear (fun ev hev s => ?_) s
    have hkind := h ev hev
    cases ev <;> first | rfl | simp [Event.isLimitHit] at hkind

/-! Runs of the engine. -/

variable {D : Type}

def JournalEntry.event? : JournalEntry → Option Event
  | .action _ => none
  | .event ev => some ev

def Engine.events (e : Engine D) : List Event :=
  e.journal.filterMap JournalEntry.event?

theorem journal_of_mem_events {e : Engine D} {ev : Event} (hev : ev ∈ e.events) :
    JournalEntry.event ev ∈ e.journal := by
  refine mem_of_mem_filterMap (g := JournalEntry.event) (fun x b hx => ?_) hev
  cases x <;> simp_all [JournalEntry.event?]

def Action.isBust : Action → Bool
  | .bustTrade .. => true
  | _ => false

theorem lotted_top {E : Event → Prop} {a : Action}
    (hbust : a.isBust = true → ∀ id x r price q reason ts, E (.tradeBusted id x r price q reason ts))
    (e : Engine D) : e.lotted ⊤ E a := by
  cases a with
  | newOrder | modifyOrder | applyImpliedFills => exact fun _ _ => AddSubgroup.mem_top _
  | restoreOrder s ts =>
    exact ⟨AddSubgroup.mem_top _, AddSubgroup.mem_top _, AddSubgroup.mem_top _,
      fun _ => AddSubgroup.mem_top _⟩
  | bustTrade id reason ts => exact fun x r price q => hbust rfl id x r price q reason ts
  | _ => trivial

theorem Order.onGrid_top (o : Order) : o.OnGrid ⊤ :=
  ⟨AddSubgroup.mem_top _, AddSubgroup.mem_top _, AddSubgroup.mem_top _,
    fun _ => AddSubgroup.mem_top _⟩

theorem aligns_top (A : MatchPolicy) : A.Aligns ⊤ := fun _ _ _ _ =>
  ⟨fun o _ => o.onGrid_top, fun _ _ => AddSubgroup.mem_top _, AddSubgroup.mem_top _⟩

theorem aligned_top {E : Event → Prop} {e : Engine D}
    (hjournal : ∀ ev, JournalEntry.event ev ∈ e.journal → E ev) (hlimits : e.config.Quiet E) :
    e.Aligned ⊤ E where
  books _ _ _ := ⟨AddSubgroup.mem_top _, fun o _ => o.onGrid_top⟩
  stops _ _ _ := ⟨AddSubgroup.mem_top _, fun o _ => o.onGrid_top⟩
  trades _ _ _ := AddSubgroup.mem_top _
  journal := hjournal
  limits := hlimits

/-- What is called from outside: an operation of the engine, or a setter of the derived class. A
setter fires nothing, and can change the state of the class and the configuration. -/
inductive OutsideCall (D : Type)
  | operate (a : Action)
  | configure (config : EngineConfig) (derived : D)

def OutsideCall.run (X : Exchange D) (fuel : Nat) (call : OutsideCall D) (e : Engine D) :
    Outcome D (Engine D) :=
  match call with
  | .operate a => e.perform X fuel a
  | .configure config derived => .ok { e with config := config, derived := derived }

/-- The engines reached from a new one by operations and setters that meet `ok` in the state they
are called in. -/
def OutsideReach (X : Exchange D) (config : EngineConfig) (derived : D)
    (slots : Nat → SlotResidue) (ok : Engine D → OutsideCall D → Prop) : Engine D → Prop :=
  Calls.Reach (fun fuel (call : OutsideCall D) => call.run X fuel) ok
    (Engine.init X config derived slots)

theorem outside_events {X : Exchange D} {E : Event → Prop} (hE : EventLaw ⊤ E)
    {ok : Engine D → OutsideCall D → Prop} {config : EngineConfig} {derived : D}
    {slots : Nat → SlotResidue} {e : Engine D}
    (hok : ∀ e a, ok e (.operate a) → e.config.Quiet E ∧ e.lotted ⊤ E a)
    (h : OutsideReach X config derived slots ok e) : ∀ ev ∈ e.events, E ev := by
  have hjournal : ∀ ev, JournalEntry.event ev ∈ e.journal → E ev := by
    refine Calls.Reach.invariant (I := fun e => ∀ ev, JournalEntry.event ev ∈ e.journal → E ev) h
      (by simp [Engine.init]) fun fuel call e e' hI hcall hrun => ?_
    cases call with
    | operate a =>
      obtain ⟨hquiet, hlotted⟩ := hok e a hcall
      exact ((aligned_top hI hquiet).perform hE (aligns_top X.algo) hlotted hrun).journal
    | configure config derived =>
      cases hrun
      exact hI
  exact fun ev hev => hjournal ev (journal_of_mem_events hev)

def OutsideCall.isBust : OutsideCall D → Bool
  | .operate a => a.isBust
  | .configure .. => false

def Engine.unlimited (e : Engine D) : OutsideCall D → Prop
  | .operate _ => e.config.dailyLimitHigh ≤ 0 ∧ e.config.dailyLimitLow ≤ 0
  | .configure .. => True

instance decidableUnlimited (e : Engine D) (call : OutsideCall D) : Decidable (e.unlimited call) :=
  match call with
  | .operate _ => inferInstanceAs (Decidable (_ ∧ _))
  | .configure .. => .isTrue trivial

/-- Behind a composite order listener every listener receives what it would receive alone, in every
run in which no trade is busted; behind a composite market data listener, in every run whose
operations find no daily limit in force. -/
theorem reach_composites_transparent (X : Exchange D) (config : EngineConfig) (derived : D)
    (slots : Nat → SlotResidue) (e : Engine D) :
    (OutsideReach X config derived slots (fun _ call => call.isBust = false) e →
      OrderTransparent e.events) ∧
    (OutsideReach X config derived slots Engine.unlimited e → MdTransparent e.events) := by
  constructor
  · intro h
    have hlaw : EventLaw ⊤ (fun ev => ev.isBust = false) :=
      ⟨fun ev hev => by cases ev <;> first | rfl | simp [Event.plain] at hev, fun _ _ => rfl⟩
    refine (orderTransparent_iff _).mpr (outside_events hlaw (fun e a ha => ?_) h)
    exact ⟨.inl fun _ _ _ _ => rfl,
      lotted_top (fun hbust => absurd hbust (Bool.eq_false_iff.mp ha)) e⟩
  · intro h
    have hlaw : EventLaw ⊤ (fun ev => ev.isLimitHit = false) :=
      ⟨fun ev hev => by cases ev <;> first | rfl | simp [Event.plain] at hev, fun _ _ => rfl⟩
    refine (mdTransparent_iff _).mpr (outside_events hlaw (fun e a ha => ?_) h)
    exact ⟨.inr ha, lotted_top (fun _ _ _ _ _ _ _ _ => rfl) e⟩

def oneTrade : List Action :=
  [.newOrder (limitRequest .sell 100 5), .newOrder (limitRequest .buy 100 5)]

/-- A trade, and then a reference price for the next day, which brings daily limits. -/
theorem reach_composites_transparent_sample :
    let X := krxExchange fifoMatch sampleVenue
    let next := ({} : KrxState).setReferencePrice 1000 sampleConfig
    let e := Calls.after (OutsideCall.run X 20)
      (oneTrade.map .operate ++ [.configure next.2 next.1]) (sampleStart X sampleConfig {})
    0 < e.events.length ∧ 0 < e.config.dailyLimitHigh ∧
      OrderTransparent e.events ∧ MdTransparent e.events := by
  intro X next e
  have hall := reach_composites_transparent X sampleConfig {} (fun _ => {}) e
  exact ⟨by decide +kernel, by decide +kernel, hall.1 (Calls.Reach.after .start (by decide +kernel)),
    hall.2 (Calls.Reach.after .start (by decide +kernel))⟩

/-- A bust does not come through the composite order listener, and a limit that is hit does not
come through the composite market data listener. -/
theorem composites_not_transparent :
    (¬∀ e, Reach sampleExchange (fun _ _ => True) (sampleStart sampleExchange sampleConfig ()) e →
      OrderTransparent e.events) ∧
    ¬∀ e, Reach sampleExchange (fun _ _ => True)
        (sampleStart sampleExchange { sampleConfig with dailyLimitHigh := 100 } ()) e →
      MdTransparent e.events := by
  constructor
  · intro hall
    have htransparent := hall (runAll sampleExchange (oneTrade ++ [.bustTrade 1 .erroneousTrade 3])
      (sampleStart sampleExchange sampleConfig ())) (reach_runAll (by simp) (by decide +kernel))
    exact absurd ((orderTransparent_iff _).mp htransparent) (by decide +kernel)
  · intro hall
    have htransparent := hall (runAll sampleExchange oneTrade
      (sampleStart sampleExchange { sampleConfig with dailyLimitHigh := 100 } ()))
      (reach_runAll (by simp) (by decide +kernel))
    exact absurd ((mdTransparent_iff _).mp htransparent) (by decide +kernel)

end ExchangeSim
