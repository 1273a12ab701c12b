import ExchangeSim.Progress
import ExchangeSim.Sample
import ExchangeSim.Venues

namespace ExchangeSim

open Engine List

variable {D : Type} {X : Exchange D}

theorem matchLoop_standoff {ord : Order} {e : Engine D} {level : PriceLevel}
    {deeper : List PriceLevel} {f : FillResult} {rs : List FillResult} {ts : Int}
    (hs : World.Sound X True ⟨e, some ord⟩) (hturn : e.Turn ord level deeper)
    (hent : ord.Entered)
    (hr : (X.algo.matchLevel level ord.remainingQuantity).results = f :: rs)
    (hlen : (f :: rs).length ≤ kMaxFills)
    (hself : ∀ resting, e.Heads True ord resting f rs →
      X.isSelfMatch e.derived { ord with remainingQuantity :=
          (X.algo.matchLevel level ord.remainingQuantity).remaining }
        (resting.fill (filledBy resting.id (f :: rs))) = true)
    (hact : (X.getSmpAction e.derived).cancels = false)
    (hlimit : (e.checkDailyLimitHit X ts).1 = false)
    (hvi : (e.checkVolatilityInterruption X ts).1 = false) (fuel : Nat) :
    e.matchLoop X ts fuel ord = .error (.outOfFuel, e) := by
  have hpend := best_pending hs hturn
  rw [hr] at hpend
  obtain ⟨resting, hh, -⟩ := hpend.heads hs hturn.allowed hent
  have hpass := pass_self hs trivial hturn hr hh.found (hself resting hh) ts
  rw [applySmpAction_eq hact] at hpass
  have hmiss : (e.interrupted X ts).1 = false := by
    simp [interrupted, hlimit, checkDailyLimitHit_eq hlimit, hvi]
  exact matchLoop_stuck hturn (hr ▸ hlen) hpass hmiss fuel

theorem Bookable.single {strict : Prop} {left : Nat → Option Int} {rs : List FillResult}
    (h : Bookable strict left rs) (hs : strict) (hone : fillTotal rs = 1) :
    ∃ f, rs = [f] ∧ f.quantity = 1 ∧ (left f.restingOrder).isSome = true := by
  cases rs with
  | nil => simp at hone
  | cons f rs =>
    have hnamed := h.named f (by simp)
    obtain ⟨-, -, hstrict, hrest⟩ := h
    have hpos := (hstrict hs).1
    have hnn := hrest.fillTotal_nonneg hs
    simp only [fillTotal_cons] at hone
    cases rs with
    | nil => exact ⟨f, rfl, by simpa using hone, hnamed⟩
    | cons g rs =>
      obtain ⟨-, -, hg, hrest'⟩ := hrest
      have := (hg hs).1
      have := hrest'.fillTotal_nonneg hs
      simp only [fillTotal_cons] at hone
      omega

/-- An engine in which `r` rests alone with one unit more, and `a` is about to be matched. -/
def standoff (X : Exchange D) (d : D) (a r : Order) : Engine D :=
  { Engine.init X { tickSize := 1, lotSize := 1 } d (fun _ => {}) with
    book := Function.update (fun _ => []) r.side
      [⟨r.price, r.remainingQuantity + 1, 1, [r.fill (-1)]⟩]
    orderPool := ⟨List.replicate (X.maxOrders - 2) {}, 2⟩
    levelPool := ⟨List.replicate (X.maxPriceLevels - 1) (), 1⟩
    orderIndex := fun id => if id = a.id ∨ id = r.id then some id else none
    nextOrderId := max a.id r.id + 1 }

def Order.armed (a : Order) : Order :=
  { a with remainingQuantity := a.remainingQuantity + 1 }

section standoff

variable {d : D} {a r : Order}

theorem standoff_shelf_other {k : Shelf} {s : Side} (h : ¬(k = .limit ∧ s = r.side)) :
    (standoff X d a r).shelf k s = [] := by
  cases k with
  | limit =>
    have hs : s ≠ r.side := fun he => h ⟨rfl, he⟩
    simp [shelf, standoff, hs]
  | stop => rfl

theorem standoff_book : (standoff X d a r).book r.side =
    [⟨r.price, r.remainingQuantity + 1, 1, [r.fill (-1)]⟩] := by
  simp [standoff]

theorem standoff_ids : (standoff X d a r).holdings.ids = [r.id] := by
  have hhere : idsIn ((standoff X d a r).holdings.lvls .limit r.side) = [r.id] := by
    simp only [holdings, shelf, standoff_book]
    rfl
  have hthere : ∀ k s, ¬(k = .limit ∧ s = r.side) →
      idsIn ((standoff X d a r).holdings.lvls k s) = [] := fun k s h => by
    simp only [holdings, standoff_shelf_other h]
    rfl
  unfold Holdings.ids
  cases hs : r.side <;> rw [hs] at hhere hthere <;>
    simp [hhere, hthere]

theorem standoff_levelCount : (standoff X d a r).holdings.levelCount = 1 := by
  have hhere : ((standoff X d a r).holdings.lvls .limit r.side).length = 1 := by
    simp only [holdings, shelf, standoff_book]
    rfl
  have hthere : ∀ k s, ¬(k = .limit ∧ s = r.side) →
      ((standoff X d a r).holdings.lvls k s).length = 0 := fun k s h => by
    simp only [holdings, standoff_shelf_other h]
    rfl
  unfold Holdings.levelCount
  cases hs : r.side <;> rw [hs] at hhere hthere <;>
    simp [hhere, hthere]

theorem standoff_sound (ho : 2 ≤ X.maxOrders) (hl : 1 ≤ X.maxPriceLevels) (h : a.Faces r) :
    World.Sound X True ⟨standoff X d a r, some a.armed⟩ := by
  obtain ⟨hida, hidr, hne⟩ := h.ids
  obtain ⟨hla, hlr⟩ := h.left
  refine World.Sound.fly ⟨fun k s => ?_, ?_, ?_, ?_, ?_⟩ fun _ => ?_
  · by_cases hks : k = .limit ∧ s = r.side
    · obtain ⟨rfl, rfl⟩ := hks
      simp only [holdings, shelf, standoff_book]
      refine ⟨pairwise_singleton _ _, fun l hl => ?_⟩
      obtain rfl := mem_singleton.mp hl
      refine ⟨by simp, rfl, fun o ho => ?_, fun _ => ⟨?_, fun o ho => ?_⟩⟩
      · obtain rfl := mem_singleton.mp ho
        exact ⟨rfl, h.limit, rfl⟩
      · simp [Order.fill]
      · obtain rfl := mem_singleton.mp ho
        simp only [Order.fill]
        omega
    · simp only [holdings, standoff_shelf_other hks]
      exact sideSound_nil _ _ _
  · rw [standoff_ids]
    refine ⟨by simpa [Order.armed] using hne, fun id p => ?_, rfl, ?_, fun id hid => ?_, ?_⟩
    · simp only [holdings, standoff, Order.armed, cons_append, nil_append,
        List.mem_cons, not_mem_nil, or_false]
      split
      next hid => exact ⟨fun hp => ⟨(Option.some.inj hp).symm, hid⟩, fun hp => by rw [hp.1]⟩
      next hid => exact ⟨fun hp => by simp at hp, fun hp => absurd hp.2 hid⟩
    · simp only [ObjectPool.Balanced, holdings, standoff, length_replicate]
      omega
    · simp only [Order.armed, cons_append, nil_append, List.mem_cons, not_mem_nil,
        or_false] at hid
      simp only [holdings, standoff]
      omega
    · simp [holdings, standoff]
  · rw [standoff_levelCount]
    rfl
  · simp only [ObjectPool.Balanced, holdings, standoff, length_replicate]
    omega
  · intro _ id t ht
    simp [holdings, standoff, init] at ht
  · simp only [Order.armed]
    omega

theorem standoff_stuck (ho : 2 ≤ X.maxOrders) (hl : 1 ≤ X.maxPriceLevels) (h : a.Faces r)
    (hself : X.isSelfMatch d a r = true) (hact : (X.getSmpAction d).cancels = false) (ts : Int)
    (fuel : Nat) : (standoff X d a r).matchLoop X ts fuel a.armed =
      .error (.outOfFuel, standoff X d a r) := by
  obtain ⟨hla, hlr⟩ := h.left
  have hs := standoff_sound (d := d) ho hl h
  have hbook : (standoff X d a r).book a.armed.side.opposite =
      [⟨r.price, r.remainingQuantity + 1, 1, [r.fill (-1)]⟩] := by
    rw [show a.armed.side.opposite = r.side from h.side.symm]
    exact standoff_book
  have hpos : 0 < a.armed.remainingQuantity := by
    simp only [Order.armed]
    omega
  have hturn : (standoff X d a r).Turn a.armed _ _ := ⟨hpos, hbook, h.allows⟩
  obtain ⟨hdistinct, hlevel⟩ := best_level hs hbook
  obtain ⟨hrem, htot⟩ := best_amounts hs hturn trivial
  have hone : min a.armed.remainingQuantity (r.remainingQuantity + 1) = 1 := by
    have := h.used
    simp only [Order.armed]
    omega
  obtain ⟨f, hf, hq, hnamed⟩ := (X.algo.bookable _ a.armed.remainingQuantity hdistinct).single
    ⟨hlevel.exact trivial, hpos⟩ (htot.trans hone)
  have hid : f.restingOrder = r.id := by
    obtain ⟨v, hv⟩ := Option.isSome_iff_exists.mp hnamed
    obtain ⟨o, ho, hoid, -⟩ := exists_of_remainingIn hv
    obtain rfl := mem_singleton.mp ho
    exact hoid.symm
  refine matchLoop_standoff hs hturn h.entered hf (by simp [kMaxFills]) (fun resting hh => ?_)
    hact ?_ ?_ fuel
  · obtain ⟨l, deeper, hbook', hmem, -⟩ := hh.meets.best
    rw [hbook] at hbook'
    obtain ⟨rfl, -⟩ := cons.inj hbook'
    obtain rfl := mem_singleton.mp hmem
    have hfilled : filledBy (r.fill (-1)).id [f] = 1 := by simp [filledBy, hid, hq]
    have hback : (r.fill (-1)).fill 1 = r := by rw [Order.fill_fill]; simp
    have hleft : (X.algo.matchLevel ⟨r.price, r.remainingQuantity + 1, 1, [r.fill (-1)]⟩
        a.armed.remainingQuantity).remaining = a.remainingQuantity := by
      rw [hrem, htot, hone]
      simp [Order.armed]
    rw [hfilled, hback, hleft]
    exact hself
  · simp [checkDailyLimitHit, standoff, init, atUpperLimit,
      atLowerLimit]
  · simp [checkVolatilityInterruption, standoff, init]

end standoff

/-- Matching ends on every sound book, for every order, exactly if every self-match that can come
up cancels an order. -/
theorem matching_finishes_iff (X : Exchange D) (ho : 2 ≤ X.maxOrders)
    (hl : 1 ≤ X.maxPriceLevels) :
    (∀ (e : Engine D) (order : Order) (ts : Int), World.Sound X True ⟨e, some order⟩ →
      order.Entered → ∃ rounds, ∀ fuel, rounds ≤ fuel →
        (e.matchLoop X ts fuel order).Finishes ∧ (e.matchAndTrigger X fuel order ts).Finishes) ↔
    X.Resolves := by
  constructor
  · intro h d a r hfaces hself
    by_contra hact
    have hact' : (X.getSmpAction d).cancels = false := by simpa using hact
    obtain ⟨rounds, hfin⟩ := h (standoff X d a r) a.armed 0 (standoff_sound ho hl hfaces)
      hfaces.entered
    have hloop := (hfin rounds le_rfl).1
    rw [standoff_stuck ho hl hfaces hself hact'] at hloop
    exact hloop
  · intro hX e order ts hs hent
    refine ⟨World.load ⟨e, some order⟩ + 1, fun fuel hfuel => ?_⟩
    exact ⟨matchLoop_finishes hX ts fuel hs hent (by omega),
      matchAndTrigger_finishes hX ts fuel hs hent (by omega)⟩

/-- On CME every self-match cancels the aggressor. -/
theorem matching_finishes_iff_cme :
    (cmeExchange fifoMatch sampleVenue).Resolves ∧
      ∀ (e : Engine CmeState) (order : Order) (ts : Int),
        World.Sound (cmeExchange fifoMatch sampleVenue) True ⟨e, some order⟩ → order.Entered →
          ∃ rounds, ∀ fuel, rounds ≤ fuel →
            (e.matchLoop (cmeExchange fifoMatch sampleVenue) ts fuel order).Finishes ∧
              (e.matchAndTrigger (cmeExchange fifoMatch sampleVenue) fuel order ts).Finishes := by
  have hresolves : (cmeExchange fifoMatch sampleVenue).Resolves := fun _ _ _ _ _ => rfl
  exact ⟨hresolves,
    (matching_finishes_iff (cmeExchange fifoMatch sampleVenue) (by decide) (by decide)).mpr
      hresolves⟩

def accountExchange (action : SmpAction) : Exchange Unit :=
  { sampleExchange with
    isSelfMatch := fun _ a r => decide (a.accountId = r.accountId)
    getSmpAction := fun _ => action }

/-- A limit order of account 1 in which the level pass has used up all that was left. -/
def spentOrder (id : Nat) (side : Side) : Order :=
  { limitOrder id side 105 5 with remainingQuantity := 0 }

/-- With `Decrement` a bid of the account that offers at its price is matched for ever. -/
theorem decrement_never_finishes : ¬∀ (e : Engine Unit) (order : Order) (ts : Int),
    World.Sound (accountExchange .decrement) True ⟨e, some order⟩ → order.Entered →
      ∃ rounds, ∀ fuel, rounds ≤ fuel →
        (e.matchAndTrigger (accountExchange .decrement) fuel order ts).Finishes := by
  intro h
  have hfaces : (spentOrder 2 .buy).Faces (spentOrder 1 .sell) :=
    ⟨.inl rfl, rfl, rfl, by decide, by decide, by decide, .inl rfl⟩
  obtain ⟨rounds, hfin⟩ := h (standoff _ () (spentOrder 2 .buy) (spentOrder 1 .sell))
    (spentOrder 2 .buy).armed 0 (standoff_sound (by decide) (by decide) hfaces) hfaces.entered
  have hstuck := standoff_stuck (X := accountExchange .decrement) (d := ()) (by decide) (by decide)
    hfaces (by decide) rfl 0 rounds
  have hmatch := hfin rounds le_rfl
  have hgtc : (spentOrder 2 .buy).armed.tif ≠ .fok := by decide
  simp only [matchAndTrigger, matchOrder, hgtc, false_and, if_false, hstuck] at hmatch
  exact hmatch

end ExchangeSim
