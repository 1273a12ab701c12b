import ExchangeSim.Clearing
import ExchangeSim.Faults
import ExchangeSim.Policies
import ExchangeSim.ShadowOperations

/-!
What the slots of the order pool held before is not seen, as long as nothing reads the flags that
`new_order` and `restore_order` do not write.
-/

namespace ExchangeSim

open Engine List Function PriceLevel

variable {D : Type} {b : Bool} {X : Exchange D}

/-! The policies that do not look at the flags. -/

theorem walk_blank (give : Order → Grants → Int → Option Int)
    (hgive : ∀ o : Order, give (o.blank b) = give o) (os : List Order) (r : Int) (g : Grants) :
    Grants.walk Order.id give (os.map (·.blank b)) r g = Grants.walk Order.id give os r g := by
  induction os generalizing r g with
  | nil => rfl
  | cons o os ih =>
    simp [Grants.walk, hgive, ih]

theorem baseGrants_blank (keep : Order → Int → Bool)
    (hkeep : ∀ o : Order, keep (o.blank b) = keep o) (t T : Int) (os : List Order) :
    baseGrants keep (Order.share t T) (os.map (·.blank b)) = baseGrants keep (Order.share t T) os := by
  induction os with
  | nil => rfl
  | cons o os ih =>
    have hshare : (o.blank b).share t T = o.share t T := rfl
    simp [baseGrants, hkeep, hshare, ih]

theorem remainingIn_blank (os : List Order) :
    remainingIn (os.map (·.blank b)) = remainingIn os := by
  funext id
  simp [remainingIn, find?_map, comp_def]

theorem applyGrants_blank (price : Int) (g : Grants) (os : List Order) :
    applyGrants price g (os.map (·.blank b)) =
      ((applyGrants price g os).1.map (·.blank b), (applyGrants price g os).2) := by
  induction g generalizing os with
  | nil => rfl
  | cons entry g ih =>
    obtain ⟨id, q⟩ := entry
    have hfill : (os.map (·.blank b)).map (fun o => if o.id = id then o.fill q else o) =
        (os.map fun o => if o.id = id then o.fill q else o).map (·.blank b) := by
      simp only [map_map]
      refine map_congr_left fun o _ => ?_
      simp only [comp_apply, Order.blank_id]
      split <;> rfl
    simp only [applyGrants, hfill, ih, remainingIn_blank]

theorem fifoWalk_blank (price : Int) (os : List Order) (q : Int) :
    fifoWalk price (os.map (·.blank b)) q =
      { fifoWalk price os q with orders := (fifoWalk price os q).orders.map (·.blank b) } := by
  induction os generalizing q with
  | nil => rfl
  | cons o os ih =>
    simp only [List.map_cons, fifoWalk, Order.blank_remainingQuantity, ih]
    split <;> rfl

theorem Allocator.policy_blank (A : Allocator) (hA : ∀ l q, A.alloc (l.blank b) q = A.alloc l q)
    (l : PriceLevel) (q : Int) : A.policy.matchLevel (l.blank b) q =
      { A.policy.matchLevel l q with orders := (A.policy.matchLevel l q).orders.map (·.blank b) } := by
  change grantLevel A.alloc (l.blank b) q = { grantLevel A.alloc l q with
    orders := (grantLevel A.alloc l q).orders.map (·.blank b) }
  unfold grantLevel
  simp only [blank_orders, map_eq_nil_iff, blank_price, hA,
    applyGrants_blank]
  split <;> rfl

theorem largest_blank (g : Grants) (os : List Order) :
    largest g (os.map (·.blank b)) = (largest g os).map (·.blank b) := by
  have hstep (best : Option Order) (o : Order) :
      better g (best.map (·.blank b)) (o.blank b) = (better g best o).map (·.blank b) := by
    have hbest : (best.map (·.blank b)).elim (-1) (·.remainingQuantity) =
        best.elim (-1) (·.remainingQuantity) := by cases best <;> rfl
    simp only [better, hbest, Order.blank_remainingQuantity, Order.blank_id]
    split <;> rfl
  suffices hfold : ∀ best : Option Order, (os.map (·.blank b)).foldl (better g)
      (best.map (·.blank b)) = (os.foldl (better g) best).map (·.blank b) from hfold none
  induction os with
  | nil => exact fun _ => rfl
  | cons o os ih =>
    intro best
    simp [hstep, ih]

theorem lotsToLargest_blank (os : List Order) (n : Nat) (g : Grants) :
    lotsToLargest (os.map (·.blank b)) n g = lotsToLargest os n g := by
  induction n generalizing g with
  | zero => rfl
  | succ n ih =>
    unfold lotsToLargest
    rw [largest_blank]
    cases largest g os with
    | none => rfl
    | some best => exact ih _

theorem sumQty_blank (os : List Order) : sumQty (os.map (·.blank b)) = sumQty os := by
  simp [sumQty, comp_def]

theorem mmResting_blank (g : Grants) (os : List Order) :
    mmResting g (os.map (·.blank false)) = mmResting g os := by
  have hflag : (fun o : Order => o.isMarketMaker) ∘ Order.blank false = (·.isMarketMaker) := rfl
  have hlive : liveQty g ∘ Order.blank false = liveQty g := rfl
  simp [mmResting, filter_map, hflag, hlive]

theorem splitLevel_blank (fifoPct : Nat) (l : PriceLevel) (q : Int) :
    splitLevel percentOf Order.share fifoPct (l.blank b) q =
      { splitLevel percentOf Order.share fifoPct l q with
        orders := (splitLevel percentOf Order.share fifoPct l q).orders.map (·.blank b) } := by
  have hfirst (t : Int) (os : List Order) :
      splitFifo t (os.map (·.blank b)) = splitFifo t os :=
    congrArg Prod.fst (walk_blank splitFifoGive (fun _ => rfl) os t [])
  have hsecond (t : Int) (os : List Order) :
      splitProRata Order.share t (os.map (·.blank b)) = splitProRata Order.share t os := by
    unfold splitProRata
    simp [sumQty_blank, baseGrants_blank splitKeep fun _ => rfl, walk_blank splitGive fun _ => rfl]
  unfold splitLevel
  simp only [blank_orders, map_eq_nil_iff, blank_price,
    blank_totalQuantity, hfirst, applyGrants_blank, hsecond]
  split <;> rfl

theorem gtbprPriority_blank (cfg : GtbprConfig) (os : List Order) :
    gtbprPriority cfg (os.map (·.blank b)) = (gtbprPriority cfg os).map (·.blank b) := by
  simp [gtbprPriority, find?_map]

theorem gtbprPriorityFill_blank (cfg : GtbprConfig) (pool : Int) (os : List Order) :
    gtbprPriorityFill cfg pool (os.map (·.blank b)) = gtbprPriorityFill cfg pool os := by
  unfold gtbprPriorityFill
  rw [gtbprPriority_blank]
  cases gtbprPriority cfg os <;> rfl

theorem gtbprFirst_blank (cfg : GtbprConfig) (pool : Int) (os : List Order) :
    gtbprFirst cfg pool (os.map (·.blank b)) = gtbprFirst cfg pool os := by
  unfold gtbprFirst
  rw [gtbprPriority_blank, gtbprPriorityFill_blank]
  cases gtbprPriority cfg os <;> rfl

theorem effectiveQty_blank (cfg : GtbprConfig) (pool : Int) (os : List Order) :
    effectiveQty cfg pool (os.map (·.blank b)) = effectiveQty cfg pool os := by
  unfold effectiveQty
  rw [gtbprPriority_blank, gtbprPriorityFill_blank, Option.map_map]
  rfl

section weights

variable (eff : Order → Int) (weight : Order → Rat)

theorem totalWeight_blank (heff : ∀ o : Order, eff (o.blank b) = eff o)
    (hweight : ∀ o : Order, weight (o.blank b) = weight o) (os : List Order) :
    totalWeight eff weight (os.map (·.blank b)) = totalWeight eff weight os := by
  simp [totalWeight, filter_map, comp_def, heff, hweight]

theorem weightedGrants_blank (heff : ∀ o : Order, eff (o.blank b) = eff o)
    (hweight : ∀ o : Order, weight (o.blank b) = weight o) (total : Rat) (pool : Int)
    (os : List Order) (g : Grants) :
    weightedGrants eff weight total pool (os.map (·.blank b)) g =
      weightedGrants eff weight total pool os g := by
  induction os generalizing g with
  | nil => rfl
  | cons o os ih => simp only [List.map_cons, weightedGrants, heff, hweight, Order.blank_id, ih]

end weights

theorem lotPasses_blank (os : List Order) (n : Nat) (remainder : Int) (g : Grants) :
    lotPasses (os.map (·.blank b)) n remainder g = lotPasses os n remainder g := by
  induction n generalizing remainder g with
  | zero => rfl
  | succ n ih =>
    simp [lotPasses, walk_blank lotGive fun _ => rfl, ih]

theorem gtbprAlloc_blank (cfg : GtbprConfig) (now : Int) (l : PriceLevel) (q : Int) :
    gtbprAlloc cfg now (l.blank b) q = gtbprAlloc cfg now l q := by
  let eff := effectiveQty cfg (min q l.totalQuantity) l.orders
  let weight := fun o => timeWeight cfg now (eff o) o
  have htotal := totalWeight_blank (b := b) eff weight (fun _ => rfl) (fun _ => rfl) l.orders
  have hshares := weightedGrants_blank (b := b) eff weight (fun _ => rfl) fun _ => rfl
  unfold gtbprAlloc
  simp only [blank_orders, blank_totalQuantity, gtbprFirst_blank,
    effectiveQty_blank, lotPasses_blank, eff, weight] at htotal hshares ⊢
  simp [htotal, hshares]

/-- All but `FifoTopLmmMatch`, and without market-maker flags all but `FifoLmmMatch`. -/
def Policy.Blind (b : Bool) : Policy → Prop
  | .fifoTopLmm .. => False
  | .fifoLmm .. => b = false
  | _ => True

theorem Policy.algo_blank {p : Policy} (hp : p.Blind b) (l : PriceLevel) (q : Int) :
    p.algo.matchLevel (l.blank b) q =
      { p.algo.matchLevel l q with orders := (p.algo.matchLevel l q).orders.map (·.blank b) } := by
  cases p with
  | fifo => exact fifoWalk_blank l.price l.orders q
  | proRata =>
    refine Allocator.policy_blank _ (fun l q => ?_) l q
    simp [ExchangeSim.proRata, proRataAlloc, lotsInOrder, baseGrants_blank proRataKeep fun _ => rfl, walk_blank (fun _ _ _ => some 1) fun _ => rfl]
  | thresholdProRata minThreshold =>
    refine Allocator.policy_blank _ (fun l q => ?_) l q
    simp [ExchangeSim.thresholdProRata, thresholdAlloc, baseGrants_blank (thresholdKeep minThreshold) fun _ => rfl, walk_blank thresholdGive fun _ => rfl]
  | allocation =>
    refine Allocator.policy_blank _ (fun l q => ?_) l q
    simp [ExchangeSim.allocation, allocationAlloc, blank_orders, blank_totalQuantity, lotsToLargest_blank, baseGrants_blank (b := b) proRataKeep fun _ => rfl]
  | splitFifoProRata fifoPct hpct => exact splitLevel_blank fifoPct l q
  | fifoLmm mmPriorityPct hpct =>
    obtain rfl : b = false := hp
    refine Allocator.policy_blank _ (fun l q => ?_) l q
    simp only [ExchangeSim.fifoLmm, fifoLmmAlloc, fifoLmmPriority, fifoRest,
      blank_orders, mmResting_blank, walk_blank (b := false) lmmGive fun _ => rfl,
      walk_blank (b := false) (liveGive fun _ => true) fun _ => rfl]
  | fifoTopLmm topPct mmPriorityPct htop hpct => exact hp.elim
  | gtbpr cfg hcap hfactor now =>
    exact Allocator.policy_blank _ (fun l q => gtbprAlloc_blank cfg now l q) l q

/-! What an engine shows. -/

/-- The engine without its past, without the flags, and with nothing in its free slots. -/
def Engine.bare (b : Bool) (e : Engine D) : Engine D :=
  { e.blank b [] (List.replicate e.orderPool.free.length {}) with journal := [] }

theorem init_bare (config : EngineConfig) (derived : D) (slots slots' : Nat → SlotResidue) :
    (Engine.init X config derived slots).bare b = (Engine.init X config derived slots').bare b := by
  simp [Engine.bare, Engine.init, Engine.blank]

theorem Order.blank_blank (o : Order) : (o.blank b).blank b = o.blank b := by
  cases b <;> rfl

theorem PriceLevel.blank_blank (l : PriceLevel) : (l.blank b).blank b = l.blank b := by
  simp [blank, comp_def, Order.blank_blank]

theorem Engine.blank_blank (e : Engine D) (past past' : List JournalEntry)
    (slots slots' : List SlotResidue) :
    (e.blank b past slots).blank b past' slots' = e.blank b (past' ++ past) slots' := by
  simp [Engine.blank, Function.comp_def, PriceLevel.blank_blank]

theorem Exchange.hush_hush (X : Exchange D) : (X.hush b).hush b = X.hush b := by
  cases b <;> rfl

theorem Exchange.Ignores.hush (h : X.Ignores b) : (X.hush b).Ignores b :=
  ⟨h.policy, h.selfMatch⟩

namespace Engine.Shadow

variable {past : List JournalEntry} {e e' : Engine D}

theorem bare (h : e.Shadow b past e') : e'.bare b = e.bare b := by
  obtain ⟨slots, hlen, -, rfl⟩ := h
  simp only [bare, blank_blank, blank_orderPool_free, hlen]
  rfl

theorem journal (h : e.Shadow b past e') : e'.journal = past ++ e.journal := by
  obtain ⟨slots, -, -, rfl⟩ := h
  rfl

end Engine.Shadow

theorem clean_replicate (n : Nat) : ∀ x ∈ replicate n ({} : SlotResidue), x.Clean b := by
  intro x hx
  obtain rfl := eq_of_mem_replicate hx
  exact ⟨rfl, fun _ => rfl⟩

/-- Two outcomes with the same new events: both end well in engines that show the same, or both
end with the same fault, and that is not a level taken out of a list it is not in. -/
def Outcome.Agree (b : Bool) (past past' : List JournalEntry) (r r' : Outcome D (Engine D)) :
    Prop :=
  ∃ told, match r, r' with
    | .ok e, .ok e' =>
      e.bare b = e'.bare b ∧ e.journal = past ++ told ∧ e'.journal = past' ++ told
    | .error (f, e), .error (f', e') =>
      f = f' ∧ f ≠ .foreignLevel ∧ e.bare b = e'.bare b ∧ e.journal = past ++ told ∧ e'.journal = past' ++ told
    | _, _ => False

theorem performAll_bare (hX : X.Ignores b) (fuel : Nat) {actions : List Action}
    (ha : b = true ∨ ∀ s ts, .restoreOrder s ts ∉ actions) (e : Engine D) :
    (∃ e' k, e.performAll X fuel actions = .ok e' ∧
      (e.bare b).performAll (X.hush b) fuel actions = .ok k ∧
      e'.bare b = k.bare b ∧ e'.journal = e.journal ++ k.journal) ∨
    ∃ f e' k, e.performAll X fuel actions = .error (f, e') ∧
      (e.bare b).performAll (X.hush b) fuel actions = .error (f, k) ∧
      e'.bare b = k.bare b ∧ e'.journal = e.journal ++ k.journal := by
  -- the engine with its past and with empty slots shadows both
  have hslots := clean_replicate (b := b) e.orderPool.free.length
  have hshadow : e.Shadow b [] (e.blank b [] (replicate e.orderPool.free.length {})) :=
    ⟨_, length_replicate .., hslots, rfl⟩
  have hbare : (e.bare b).Shadow b e.journal
      (e.blank b [] (List.replicate e.orderPool.free.length {})) := by
    refine ⟨replicate e.orderPool.free.length {}, rfl, hslots, ?_⟩
    simp [Engine.bare, Engine.blank, Function.comp_def, PriceLevel.blank_blank]
  have hrun := Shadow.performAll hX fuel hshadow ha
  have hrun' := Shadow.performAll hX.hush fuel hbare ha
  rw [Exchange.hush_hush] at hrun'
  rcases hrun.cases with ⟨e', s, hr, hs, h⟩ | ⟨⟨f, e'⟩, ⟨f', s⟩, hr, hs, rfl, h⟩
  · rw [hs] at hrun'
    rcases hrun'.cases with ⟨k, s', hk, hs', h'⟩ | ⟨_, _, _, hs', _⟩
    · obtain rfl := Except.ok.inj hs'
      exact .inl ⟨e', k, hr, hk, h.bare.symm.trans h'.bare, h.journal.symm.trans h'.journal⟩
    · simp at hs'
  · rw [hs] at hrun'
    rcases hrun'.cases with ⟨_, _, _, hs', _⟩ | ⟨⟨f', k⟩, ⟨_, s'⟩, hk, hs', rfl, h'⟩
    · simp at hs'
    · obtain ⟨rfl, rfl⟩ := Prod.mk.inj (Except.error.inj hs')
      exact .inr ⟨_, e', k, hr, hk, h.bare.symm.trans h'.bare, h.journal.symm.trans h'.journal⟩

theorem agree_of_bare_eq (hX : X.Ignores b) (fuel : Nat) {actions : List Action}
    (ha : b = true ∨ ∀ s ts, .restoreOrder s ts ∉ actions) {e₁ e₂ : Engine D}
    (h : e₁.bare b = e₂.bare b) (hown : e₁.Along X fuel ownLevels actions) :
    Outcome.Agree b e₁.journal e₂.journal (e₁.performAll X fuel actions)
      (e₂.performAll X fuel actions) := by
  rcases performAll_bare hX fuel ha e₁ with ⟨e, k, hr, hk, hb, hj⟩ | ⟨f, e, k, hr, hk, hb, hj⟩
  · rcases performAll_bare hX fuel ha e₂ with
      ⟨e', k', hr', hk', hb', hj'⟩ | ⟨f', e', k', hr', hk', hb', hj'⟩
    · rw [← h, hk] at hk'
      obtain rfl := Except.ok.inj hk'
      rw [hr, hr']
      exact ⟨k.journal, hb.trans hb'.symm, hj, hj'⟩
    · rw [← h, hk] at hk'
      simp at hk'
  · rcases performAll_bare hX fuel ha e₂ with
      ⟨e', k', hr', hk', hb', hj'⟩ | ⟨f', e', k', hr', hk', hb', hj'⟩
    · rw [← h, hk] at hk'
      simp at hk'
    · rw [← h, hk] at hk'
      obtain ⟨rfl, rfl⟩ := Prod.mk.inj (Except.error.inj hk')
      have hf : f ≠ .foreignLevel := fun hf => performAll_avoids hown e (hf ▸ hr)
      rw [hr, hr']
      exact ⟨k.journal, rfl, hf, hb.trans hb'.symm, hj, hj'⟩

/-- Whatever the slots held at the start, and whatever orders were in the free ones before, the
same operations give the same events and the same book. -/
theorem performAll_agree (hX : X.Ignores b) (fuel : Nat) {actions : List Action}
    (ha : b = true ∨ ∀ s ts, .restoreOrder s ts ∉ actions) :
    (∀ (config : EngineConfig) (derived : D) (slots slots' : Nat → SlotResidue),
      (Engine.init X config derived slots).Along X fuel ownLevels actions →
      Outcome.Agree b [] [] ((Engine.init X config derived slots).performAll X fuel actions)
        ((Engine.init X config derived slots').performAll X fuel actions)) ∧
    ∀ e₁ e₂ : Engine D, e₁.bare b = e₂.bare b → e₁.Along X fuel ownLevels actions →
      Outcome.Agree b e₁.journal e₂.journal (e₁.performAll X fuel actions)
        (e₂.performAll X fuel actions) :=
  ⟨fun config derived slots slots' => agree_of_bare_eq hX fuel ha
      (init_bare config derived slots slots'),
    fun _ _ h => agree_of_bare_eq hX fuel ha h⟩

def savedOffer (id : Nat) : SerializedOrder where
  id := id
  clientOrderId := 0
  accountId := 1
  price := 100
  quantity := 10
  filledQuantity := 0
  remainingQuantity := 10
  side := .sell
  type := .limit
  tif := .gtc
  timestamp := 1
  gtdExpiry := 0
  displayQty := 0
  totalQty := 0

def offersAndBuyer : List Action :=
  [.newOrder (limitRequest .sell 100 10), .restoreOrder (savedOffer 2) 1,
    .newOrder (limitRequest .buy 100 10),
    .newOrder { limitRequest .sell 0 5 with type := .stop, stopPrice := 95 }, .massCancelAll 4]

def flaggedSlots (n : Nat) : SlotResidue where
  isMarketMaker := decide (n = 1)
  isTopOrder := decide (n = 1)

theorem sampleExchange_ignores : sampleExchange.Ignores b :=
  ⟨fun l q => Policy.algo_blank (p := .fifo) trivial l q, fun _ _ _ => rfl⟩

theorem along_of_passes {ok : Engine D → Action → Prop} {actions : List Action} {e : Engine D}
    (h : Passes X ok actions e) : e.Along X 20 ok actions := by
  induction actions generalizing e with
  | nil => trivial
  | cons a rest ih =>
    refine ⟨h.1, fun e' hone => ih ?_⟩
    have hrest := h.2
    rwa [hone] at hrest

theorem offersAndBuyer_along :
    (Engine.init sampleExchange sampleConfig () flaggedSlots).Along sampleExchange 20 ownLevels
      offersAndBuyer := by
  refine along_of_passes ⟨trivial, trivial, trivial, trivial, fun s => ?_, trivial⟩
  cases s <;> decide +kernel

theorem performAll_agree_flagged :
    Outcome.Agree true [] []
      ((Engine.init sampleExchange sampleConfig () flaggedSlots).performAll sampleExchange 20
        offersAndBuyer)
      ((Engine.init sampleExchange sampleConfig () fun _ => {}).performAll sampleExchange 20
        offersAndBuyer) :=
  (performAll_agree sampleExchange_ignores 20 (.inl rfl)).1 sampleConfig () flaggedSlots
    (fun _ => {}) offersAndBuyer_along

/-- The class of the test runner for market makers, which takes their flag from the request. -/
def makerExchange (algo : MatchPolicy) : Exchange Unit :=
  { sampleExchange with algo := algo, isMarketMaker := fun _ req => req.isMarketMaker }

def restingTrades (e : Engine Unit) : List (Nat × Int) :=
  e.trades.map fun t => (t.restingId, t.quantity)

def offerAfterCancel (isMaker : Bool) : List Action :=
  [.newOrder (limitRequest .sell 100 10),
    .newOrder { limitRequest .sell 101 10 with isMarketMaker := isMaker }, .cancelOrder 2 1]

def restoreAndBuy : List Action :=
  [.restoreOrder (savedOffer 3) 1, .newOrder (limitRequest .buy 100 10)]

/-- Under `FifoLmmMatch` a restored order has priority where its slot was a market maker's; under
`FifoTopLmmMatch` a new order has it where its slot had the flag at the start. -/
theorem trades_follow_slots :
    (let X := makerExchange (fifoLmmMatch 50 (by decide))
    let after := fun isMaker => runAll X (offerAfterCancel isMaker)
      (Engine.init X sampleConfig () fun _ => {})
    (after true).book .sell = (after false).book .sell ∧
      restingTrades (runAll X restoreAndBuy (after false)) = [(1, 10)] ∧
      restingTrades (runAll X restoreAndBuy (after true)) = [(3, 5), (1, 5)]) ∧
    let X := makerExchange (fifoTopLmmMatch 50 0 (by decide))
    let offers := [.newOrder (limitRequest .sell 100 10), .newOrder (limitRequest .sell 100 10),
      .newOrder (limitRequest .buy 100 10)]
    restingTrades (runAll X offers (init X sampleConfig () fun _ => {})) = [(1, 10)] ∧
      restingTrades (runAll X offers (init X sampleConfig () flaggedSlots)) =
        [(2, 5), (1, 5)] := by
  decide +kernel

end ExchangeSim
