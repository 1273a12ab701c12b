import ExchangeSim.Capped
import ExchangeSim.Policies

/-!
The products of the proportional policies. Each multiplies what remains of an order by the quantity
to fill before it divides, in a signed word of 64 bits. Neither factor is larger than the largest
order, so the products fit while that is at most the root of the largest word.
-/

namespace ExchangeSim

open Engine

variable {D : Type} {X : Exchange D}

def Exchange.withPolicy (p : Policy) (X : Exchange D) : Exchange D :=
  { X with algo := p.algo }

def Engine.products (X : Exchange D) (p : Policy) (fuel : Nat) (a : Action) (e : Engine D) :
    List Int :=
  (e.policyCalls (X.withPolicy p) fuel a).flatMap fun call => p.products call.1 call.2

theorem fitsInt64_mul {x y : Int} (hx : 0 ≤ x) (hxM : x ≤ shareCap) (hy : 0 ≤ y)
    (hyM : y ≤ shareCap) : FitsInt64 (x * y) := by
  have hlow : 0 ≤ x * y := Int.mul_nonneg hx hy
  have hhigh : x * y ≤ shareCap * shareCap := Int.mul_le_mul hxM hyM hy (hx.trans hxM)
  have hroot : shareCap * shareCap ≤ 2 ^ 63 - 1 := by decide
  exact ⟨by omega, hhigh.trans hroot⟩

section level

variable {l : PriceLevel} {q M : Int}

theorem applyGrants_le {price : Int} {g : Grants} {os : List Order} (h : GrantsWithin os g)
    (hM : ∀ o ∈ os, o.remainingQuantity ≤ M) :
    ∀ o ∈ (applyGrants price g os).1, o.remainingQuantity ≤ M := by
  rw [applyGrants_orders]
  intro x hx
  obtain ⟨o, ho, rfl⟩ := List.mem_map.mp hx
  have hgiven := Grants.of_nonneg h.positive o.id
  have hbound := hM o ho
  rw [filledBy_applyGrants o.id h.nodup]
  simp only [Order.fill]
  omega

theorem percentProducts_fit (p : Policy) (he : l.Exact) (hq : 0 < q) (hqM : q ≤ shareCap) :
    ∀ v ∈ p.percentProducts l q, FitsInt64 v := by
  obtain ⟨hnonneg, -⟩ := toFill_bounds he hq
  have hfit : ∀ {x : Int} {pct : Nat}, 0 ≤ x → x ≤ q → pct ≤ 100 → FitsInt64 (x * pct) :=
    fun hx hxq hpct => fitsInt64_mul hx (hxq.trans hqM) (Int.natCast_nonneg _)
      (by unfold shareCap; omega)
  cases p with
  | splitFifoProRata fifoPct hpct =>
    simpa [Policy.percentProducts] using hfit hnonneg (min_le_left _ _) hpct
  | fifoLmm mmPriorityPct hpct => simpa [Policy.percentProducts] using hfit hq.le le_rfl hpct
  | fifoTopLmm topPct mmPriorityPct htop hpct =>
    simpa [Policy.percentProducts] using ⟨hfit hq.le le_rfl htop, hfit hq.le le_rfl hpct⟩
  | _ => simp [Policy.percentProducts]

theorem products_fit (p : Policy) (hd : l.Distinct) (he : l.Exact) (hq : 0 < q)
    (hqM : q ≤ shareCap) (hM : ∀ o ∈ l.orders, o.remainingQuantity ≤ shareCap) :
    p.Fits l q := by
  refine List.forall_mem_append.mpr ⟨?_, percentProducts_fit p he hq hqM⟩
  obtain ⟨hnonneg, -⟩ := toFill_bounds he hq
  have hle : min q l.totalQuantity ≤ shareCap := (min_le_left _ _).trans hqM
  have hplain : ∀ v ∈ l.orders.map (·.shareProduct (min q l.totalQuantity)), FitsInt64 v := by
    intro v hv
    obtain ⟨o, ho, rfl⟩ := List.mem_map.mp hv
    exact fitsInt64_mul (he.positive o ho).le (hM o ho) hnonneg hle
  unfold Policy.products
  dsimp only
  split
  · simp
  · cases p with
    | proRata | thresholdProRata | allocation => exact hplain
    | splitFifoProRata fifoPct hpct =>
      obtain ⟨⟨hfirst, -⟩, -⟩ := splitLevel_parts hpct hd he hq
      obtain ⟨hfifo, -⟩ := percentOf_bounds hnonneg hpct
      intro v hv
      simp only [splitProducts] at hv
      split at hv
      next hrun =>
        obtain ⟨o, ho, rfl⟩ := List.mem_map.mp hv
        obtain ⟨hmem, hpos⟩ := List.mem_filter.mp ho
        refine fitsInt64_mul (of_decide_eq_true hpos).le (applyGrants_le hfirst hM o hmem)
          (le_min hrun.1.le hrun.2.le) ((min_le_left _ _).trans ?_)
        omega
      next => simp at hv
    | _ => simp

end level

theorem World.Capped.call_fits {M : Int} {e : Engine D} {order : Order} {level : PriceLevel}
    {deeper : List PriceLevel} (h : World.Capped X M ⟨e, some order⟩)
    (hs : World.Sound X True ⟨e, some order⟩) (hbook : e.book order.side.opposite = level :: deeper) :
    order.remainingQuantity ≤ M ∧ ∀ o ∈ level.orders, o.remainingQuantity ≤ M := by
  refine ⟨h.remaining_le hs (hs.view_flight rfl), fun o ho => ?_⟩
  obtain ⟨-, hlevel⟩ := best_level hs hbook
  have hside : o.side = order.side.opposite := (hlevel.fits o ho).1
  have hrest : e.rests o := by
    rw [rests, hside, hbook]
    exact mem_ordersIn.mpr ⟨level, by simp, ho⟩
  exact h.remaining_le hs (hs.view_rests hrest)

theorem policyCalls_fit (p : Policy) {e : Engine D} {a : Action} (fuel : Nat)
    (hs : World.Sound X True ⟨e, none⟩) (h : World.Capped X shareCap ⟨e, none⟩)
    (hok : e.sized shareCap a) :
    ∀ call ∈ e.policyCalls X fuel a, p.Fits call.1 call.2 := by
  have hg : Move.guard X (.note e.rateTracker [.action a]) ⟨e, none⟩ := by
    simp [Move.guard, JournalEntry.quiet]
  have hs' : World.Sound X True ⟨e.record a, none⟩ := hs.run hg fun _ => trivial
  have h' : World.Capped X shareCap ⟨e.record a, none⟩ := h.run hs hg trivial rfl rfl
  have hentry : ∀ {e₁ : Engine D} {order : Order} {ts : Int},
      World.Sound X True ⟨e₁, some order⟩ → World.Capped X shareCap ⟨e₁, some order⟩ →
      order.Entered → ∀ call ∈ e₁.entryCalls X fuel order ts, p.Fits call.1 call.2 :=
    fun hs₁ h₁ hent => entryCalls_all (I := World.Capped X shareCap) (P := p.Fits)
      (fun m V hV hI hguard hx hm => hI.run hV hguard hx
        (Move.lasting_of_routed (Move.routed_of_landing hm))
        (Move.spends_of_routed (Move.routed_of_landing hm)))
      (fun e₂ order level deeper hs₂ hI hpos hbook => by
        obtain ⟨hd, hlevel⟩ := best_level hs₂ hbook
        obtain ⟨hq, hM⟩ := hI.call_fits hs₂ hbook
        exact products_fit p hd (hlevel.exact trivial) hpos hq hM) hs₁ h₁ hent
  cases a with
  | newOrder req =>
    simp only [policyCalls]
    split
    · simp
    next order e₁ hnew =>
      obtain ⟨t, slot, pool, hpool, hchecks, rfl, rfl, htype⟩ := (newOrderEntry_eq fuel hnew).1
      obtain ⟨hs₁, h₁⟩ := capped_accept hs' h' (currentAction_record _ e) hok t hpool hchecks
      exact hentry hs₁ h₁ htype
  | modifyOrder req =>
    simp only [policyCalls]
    split
    · simp
    next order e₁ hmodify =>
      obtain ⟨t, o, hmem, hid, rfl, hpull⟩ :=
        (modifyOrderEntry_eq (hs'.holds_none rfl) fuel hmodify).1
      obtain ⟨hrest, -⟩ := hok.2 o hmem hid
      have hrest' : ({ e.record (.modifyOrder req) with rateTracker := t } : Engine D).rests o :=
        hrest
      have htype : o.type = .limit := type_of_rests (hs'.holds_none rfl) hrest
      simp only [pullOrder, bookRemoveOrder, holds_of_mem hrest', if_true] at hpull
      cases hpull
      obtain ⟨hs₁, h₁⟩ := capped_pull hs' h' hok hmem hid t
      exact hentry hs₁ h₁ (.inl htype)
  | _ => simp [policyCalls]

/-- While requests ask for no more than the root of the largest word, every call of the policy
returns in words what it returns in the model. -/
theorem reach_calls_in_words (p : Policy) {config : EngineConfig} {derived : D}
    {slots : Nat → SlotResidue} {e : Engine D}
    (h : Reach (X.withPolicy p) (sized shareCap) (init (X.withPolicy p) config derived slots) e)
    {a : Action} (ha : e.sized shareCap a) (fuel : Nat) :
    ∀ call ∈ e.policyCalls (X.withPolicy p) fuel a,
      p.matchLevel call.1 call.2 = (X.withPolicy p).algo.matchLevel call.1 call.2 := by
  obtain ⟨hs, hcap⟩ := reach_capped h
  exact fun call hcall => Policy.matchLevel_eq (policyCalls_fit p fuel hs hcap ha call hcall)

/-- In every run whose requests ask for no more than the root of the largest word, or whose engine
takes no larger order, every product of a proportional policy fits. -/
theorem reach_products_fit (X : Exchange D) (p : Policy) {config : EngineConfig} {derived : D}
    {slots : Nat → SlotResidue} {e : Engine D}
    (h : Reach (X.withPolicy p) (Engine.sized shareCap)
      (Engine.init (X.withPolicy p) config derived slots) e) {a : Action}
    (ha : e.sized shareCap a) (fuel : Nat) : ∀ v ∈ e.products X p fuel a, FitsInt64 v := by
  obtain ⟨hs, hcap⟩ := reach_capped h
  intro v hv
  obtain ⟨call, hcall, hv⟩ := List.mem_flatMap.mp hv
  exact policyCalls_fit p fuel hs hcap ha call hcall v (List.mem_append_left _ hv)

def unlimitedActions (quantity : Int) : List Action :=
  [.newOrder (limitRequest .sell 100 quantity), .newOrder (limitRequest .sell 100 3)]

/-- With the largest orders the bound allows, on an engine without a largest order size. -/
theorem reach_products_fit_sample :
    let e := runAll (sampleExchange.withPolicy .proRata) (unlimitedActions shareCap)
      (sampleStart (sampleExchange.withPolicy .proRata) sampleConfig ())
    let a := Action.newOrder (limitRequest .buy 100 shareCap)
    e.products sampleExchange .proRata 20 a = [shareCap * shareCap, 3 * shareCap] ∧
      ∀ v ∈ e.products sampleExchange .proRata 20 a, FitsInt64 v := by
  intro e a
  have hreach : Reach (sampleExchange.withPolicy .proRata) (sized shareCap)
      (sampleStart (sampleExchange.withPolicy .proRata) sampleConfig ()) e := by
    refine reach_runAll (fun b hb e => ?_) (by decide +kernel)
    simp only [unlimitedActions, List.mem_cons, List.not_mem_nil, or_false] at hb
    rcases hb with rfl | rfl
    · exact .inl le_rfl
    · exact .inl (by decide)
  have hlast : e.sized shareCap a := Or.inl le_rfl
  exact ⟨by decide +kernel, reach_products_fit sampleExchange .proRata hreach hlast 20⟩

/-- Without a largest order size, two orders of four thousand million make a product beyond the
word. -/
theorem products_overflow : ¬∀ (e : Engine Unit) (a : Action) (fuel : Nat),
    Reach (sampleExchange.withPolicy .proRata) (fun _ _ => True)
        (sampleStart (sampleExchange.withPolicy .proRata) sampleConfig ()) e →
      ∀ v ∈ e.products sampleExchange .proRata fuel a, FitsInt64 v := by
  intro hall
  have hreach : Reach (sampleExchange.withPolicy .proRata) (fun _ _ => True)
      (sampleStart (sampleExchange.withPolicy .proRata) sampleConfig ())
      (runAll (sampleExchange.withPolicy .proRata) (unlimitedActions 4000000000)
        (sampleStart (sampleExchange.withPolicy .proRata) sampleConfig ())) :=
    reach_runAll (fun _ _ _ => trivial) (by decide +kernel)
  have hfits := hall _ (.newOrder (limitRequest .buy 100 4000000000)) 20 hreach
    (4000000000 * 4000000000) (by decide +kernel)
  exact absurd hfits (by decide)

end ExchangeSim
