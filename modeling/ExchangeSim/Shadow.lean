import ExchangeSim.Blank

/-!
Two engines side by side: one, and its shadow, in which no order and no free slot has the flags
that slots bring along. Where policy and hooks do not look at the flags, the shadow follows.
-/

namespace ExchangeSim

open Engine Option

variable {D α : Type} {b : Bool} {past : List JournalEntry} {X : Exchange D} {e e' : Engine D}

def SlotResidue.Clean (b : Bool) (slot : SlotResidue) : Prop :=
  slot.isTopOrder = false ∧ (b = true → slot.isMarketMaker = false)

/-- `e'` is `e` with blanked orders, with clean slots in place of the free ones, and with `past`
before its journal. -/
def Engine.Shadow (b : Bool) (past : List JournalEntry) (e e' : Engine D) : Prop :=
  ∃ slots, slots.length = e.orderPool.free.length ∧ (∀ x ∈ slots, x.Clean b) ∧
    e' = e.blank b past slots

/-- A policy and a self-match hook that do not look at the flags. -/
structure Exchange.Ignores (X : Exchange D) (b : Bool) : Prop where
  policy : ∀ l q, X.algo.matchLevel (l.blank b) q =
    { X.algo.matchLevel l q with orders := (X.algo.matchLevel l q).orders.map (·.blank b) }
  selfMatch : ∀ d o r, X.isSelfMatch d (o.blank b) (r.blank b) = X.isSelfMatch d o r

/-- The same class, whose market-maker hook always says no if `b`. -/
@[simps]
def Exchange.hush (b : Bool) (X : Exchange D) : Exchange D :=
  { X with isMarketMaker := fun d req => !b && X.isMarketMaker d req }

/-- A value and an engine next to the same with a shadow. -/
def Beside (b : Bool) (past : List JournalEntry) (g : α → α) (p p' : α × Engine D) : Prop :=
  p'.1 = g p.1 ∧ p.2.Shadow b past p'.2

/-- Both end well with values in `R`, or both fail in the same way. -/
def Outcome.Shadows (b : Bool) (past : List JournalEntry) (R : α → α → Prop) :
    Outcome D α → Outcome D α → Prop
  | .ok a, .ok a' => R a a'
  | .error err, .error err' => Beside b past id err err'
  | _, _ => False

theorem Outcome.Shadows.cases {R : α → α → Prop} {r r' : Outcome D α}
    (h : Outcome.Shadows b past R r r') :
    (∃ a a', r = .ok a ∧ r' = .ok a' ∧ R a a') ∨
      ∃ err err', r = .error err ∧ r' = .error err' ∧ Beside b past id err err' := by
  cases r with
  | ok a =>
    cases r' with
    | ok a' => exact .inl ⟨a, a', rfl, rfl, h⟩
    | error err' => exact h.elim
  | error err =>
    cases r' with
    | ok a' => exact h.elim
    | error err' => exact .inr ⟨err, err', rfl, rfl, h⟩

namespace Engine.Shadow

variable (h : e.Shadow b past e')

include h

theorem map {f : Engine D → Engine D} {e₁ : Engine D}
    (hf : ∀ slots, f (e.blank b past slots) = e₁.blank b past slots)
    (hp : e₁.orderPool = e.orderPool) : e₁.Shadow b past (f e') := by
  obtain ⟨slots, hlen, hclean, rfl⟩ := h
  exact ⟨slots, by rw [hp, hlen], hclean, hf slots⟩

theorem derived : e'.derived = e.derived := by
  obtain ⟨slots, -, -, rfl⟩ := h
  rfl

theorem currentState : e'.currentState = e.currentState := by
  obtain ⟨slots, -, -, rfl⟩ := h
  rfl

theorem lastTradePrice : e'.lastTradePrice = e.lastTradePrice := by
  obtain ⟨slots, -, -, rfl⟩ := h
  rfl

theorem bestPrice (s : Side) : e'.bestPrice s = e.bestPrice s := by
  obtain ⟨slots, -, -, rfl⟩ := h
  exact bestPrice_blank e s

theorem hasTriggeredStops :
    e'.hasTriggeredStops = e.hasTriggeredStops := by
  obtain ⟨slots, -, -, rfl⟩ := h
  exact hasTriggeredStops_blank e

theorem nextTriggeredStop :
    e'.nextTriggeredStop = e.nextTriggeredStop.map (·.blank b) := by
  obtain ⟨slots, -, -, rfl⟩ := h
  exact nextTriggeredStop_blank e

theorem emit (ev : Event) : (e.emit ev).Shadow b past (e'.emit ev) :=
  h.map (fun _ => emit_blank e ev) rfl

theorem release (o : Order) :
    (e.release o).Shadow b past (e'.release (o.blank b)) := by
  obtain ⟨slots, hlen, hclean, rfl⟩ := h
  refine ⟨⟨!b && o.isMarketMaker, false⟩ :: slots, congrArg Nat.succ hlen, ?_, release_blank e o⟩
  refine List.forall_mem_cons.mpr ⟨⟨rfl, fun hb => ?_⟩, hclean⟩
  simp [hb]

theorem dropOrder (o : Order) (ts : Int) (r : CancelReason) :
    (e.dropOrder o ts r).Shadow b past (e'.dropOrder (o.blank b) ts r) :=
  (h.release o).emit (.orderCancelled o.id ts r)

theorem fireTopOfBook (ts : Int) :
    (e.fireTopOfBook ts).Shadow b past (e'.fireTopOfBook ts) :=
  h.map (fun _ => fireTopOfBook_blank e ts) rfl

theorem fireTopOfBookIfChanged (ts bid ask : Int) :
    (e.fireTopOfBookIfChanged ts bid ask).Shadow b past (e'.fireTopOfBookIfChanged ts bid ask) :=
  h.map (fun _ => fireTopOfBookIfChanged_blank e ts bid ask) (by simp)

theorem removeOrder (o : Order) :
    Beside b past id (e.removeOrder o) (e'.removeOrder (o.blank b)) := by
  obtain ⟨slots, hlen, hclean, rfl⟩ := h
  rw [removeOrder_blank]
  exact ⟨rfl, slots, by rw [orderPool_removeOrder, hlen], hclean, rfl⟩

theorem insertIntoBook (o : Order) (ts : Int) :
    (e.insertIntoBook o ts).Shadow b past (e'.insertIntoBook (o.blank b) ts) := by
  obtain ⟨slots, hlen, hclean, rfl⟩ := h
  unfold insertIntoBook
  simp only [blank_levelPool, Order.blank_side, Order.blank_price, Order.blank_id,
    Order.blank_remainingQuantity, blank_book, insertAt_blank]
  cases e.levelPool.allocate with
  | none => exact dropOrder ⟨slots, hlen, hclean, rfl⟩ o ts _
  | some r =>
    let pool := if (insertAt (bookBefore o.side) o.price o (e.book o.side)).2 then r.2
      else r.2.deallocate ()
    let add : Event := .orderBookAction ⟨o.id, o.side, o.price, o.remainingQuantity, .add, ts⟩
    let e₁ := ({ e with levelPool := pool }.setBook o.side
      (insertAt (bookBefore o.side) o.price o (e.book o.side)).1).emit add
    have hlinked : ({ e.blank b past slots with levelPool := pool }.setBook o.side
        ((insertAt (bookBefore o.side) o.price o (e.book o.side)).1.map
          fun l : PriceLevel => l.blank b)).emit add =
        e₁.blank b past slots := by
      rw [levelPool_blank, setBook_blank, emit_blank]
    dsimp only
    rw [hlinked]
    simp only [blank_book, levelOf_blank]
    cases levelOf o.id (e₁.book o.side) with
    | none => exact ⟨slots, hlen, hclean, rfl⟩
    | some lv => exact ⟨slots, hlen, hclean, fireDepth_blank e₁ ts o.side lv _⟩

theorem insertIntoStopBook (o : Order) (price : Int) :
    (e.insertIntoStopBook o price).Shadow b past (e'.insertIntoStopBook (o.blank b) price) := by
  obtain ⟨slots, hlen, hclean, rfl⟩ := h
  unfold insertIntoStopBook
  simp only [blank_levelPool, Order.blank_side, Order.blank_timestamp,
    blank_stopBook, insertAt_blank]
  cases e.levelPool.allocate with
  | none => exact dropOrder ⟨slots, hlen, hclean, rfl⟩ o _ _
  | some r =>
    refine ⟨slots, hlen, hclean, ?_⟩
    dsimp only
    rw [levelPool_blank, setStopBook_blank]

theorem closeResting (ts : Int) (f : FillResult) (o : Order) :
    (e.closeResting ts f o).Shadow b past (e'.closeResting ts f (o.blank b)) := by
  unfold Engine.closeResting
  simp only [hasNextTranche_blank, Order.blank_side]
  split
  · split
    · exact h.map (fun _ => revealTranche_blank e o ts) (orderPool_revealTranche e o ts)
    · have hremoved : ((e.removeOrder o).2.fireDepthRemove o.side f.price ts).Shadow b past
          ((e'.removeOrder (o.blank b)).2.fireDepthRemove o.side f.price ts) :=
        h.map (f := fun e => (e.removeOrder (o.blank b)).2.fireDepthRemove o.side f.price ts)
          (fun _ => by simp) (orderPool_removeOrder e o)
      exact hremoved.release o
  · exact h.map (fun _ => fireDepthOf_blank e o ts) (orderPool_fireDepthOf e o ts)

theorem cancelResting (ts : Int) (f : FillResult) (o : Order) :
    Beside b past id (e.cancelResting ts f o) (e'.cancelResting ts f (o.blank b)) := by
  have hremoved : Beside b past id (e.removeOrder o) (e'.removeOrder (o.blank b)) := h.removeOrder o
  obtain ⟨hfreed, hrest⟩ := hremoved
  have hdropped := (hrest.dropOrder o ts .selfMatchPrevention).emit
    (.orderBookAction ⟨o.id, o.side, f.price, o.remainingQuantity, .cancel, ts⟩)
  unfold Engine.cancelResting
  refine ⟨hfreed, ?_⟩
  dsimp only
  rw [hfreed]
  simp only [id_eq]
  split
  · exact hdropped.map (fun _ => fireDepthRemove_blank _ ts o.side f.price) rfl
  · exact hdropped

theorem notifyCancelled (ts : Int) (f : FillResult) (o : Order)
    {r r' : Bool × Engine D} (hr : Beside b past id r r') :
    (e.notifyCancelled ts f o r).Shadow b past (e'.notifyCancelled ts f (o.blank b) r') := by
  obtain ⟨slots, -, -, rfl⟩ := h
  obtain ⟨hfreed, hrest⟩ := hr
  unfold notifyCancelled
  simp only [Order.blank_id, Order.blank_side, blank_book, levelOf_blank, hfreed, id_eq,
    map_map]
  cases r.1 with
  | true => exact hrest
  | false =>
    cases levelOf o.id (e.book o.side) with
    | none => exact hrest
    | some l => exact hrest.emit _

theorem applySmpAction (o resting : Order) (f : FillResult) (ts : Int) :
    Beside b past (Option.map (·.blank b)) (e.applySmpAction X o resting f ts)
      (e'.applySmpAction (X.hush b) (o.blank b) (resting.blank b) f ts) := by
  have hcancel := h.cancelResting ts f resting
  unfold Engine.applySmpAction
  rw [h.derived, Exchange.hush_getSmpAction]
  split
  · exact ⟨rfl, h.dropOrder o ts _⟩
  · exact ⟨rfl, h.notifyCancelled ts f resting hcancel⟩
  · exact ⟨rfl, hcancel.2.dropOrder o ts _⟩
  · exact ⟨rfl, h⟩
  · exact ⟨rfl, h⟩

theorem bookTrade (ts : Int) (o : Order) (f : FillResult)
    (resting : Order) : (e.bookTrade X ts o f resting).Shadow b past
      (e'.bookTrade (X.hush b) ts (o.blank b) f (resting.blank b)) :=
  h.map (fun _ => bookTrade_blank e o ts X f resting) rfl

theorem finds (id : Nat) (s : Side) :
    findOrder id (e'.book s) = (findOrder id (e.book s)).map (·.blank b) := by
  obtain ⟨slots, -, -, rfl⟩ := h
  exact findOrder_blank (e.book s) id

theorem undoFills (s : Side) (fills : List FillResult) (o : Order) :
    Beside b past (·.blank b) (e.undoFills s fills o) (e'.undoFills s fills (o.blank b)) := by
  obtain ⟨slots, hlen, hclean, rfl⟩ := h
  rw [undoFills_blank]
  exact ⟨rfl, slots, by rw [orderPool_undoFills, hlen], hclean, rfl⟩

theorem processFills (hX : X.Ignores b) (ts : Int)
    (fills : List FillResult) (o : Order) :
    Outcome.Shadows b past (Beside b past (Option.map (·.blank b)))
      (e.processFills X ts fills o) (e'.processFills (X.hush b) ts fills (o.blank b)) := by
  induction fills generalizing e e' o with
  | nil => exact ⟨rfl, h⟩
  | cons f rest ih =>
    have hundo := h.undoFills o.side.opposite (f :: rest) o
    unfold processFills
    simp only [Order.blank_side, h.finds, h.derived]
    cases findOrder f.restingOrder (e.book o.side.opposite) with
    | none => exact ⟨rfl, h⟩
    | some resting =>
      simp only [map_some, Exchange.hush_isSelfMatch, hX.selfMatch]
      split
      · rw [hundo.2.finds]
        cases findOrder f.restingOrder _ with
        | none => exact ⟨rfl, hundo.2⟩
        | some resting =>
          rw [hundo.1]
          exact hundo.2.applySmpAction _ resting f ts
      · exact ih ((h.bookTrade ts { o with filledQuantity := o.filledQuantity + f.quantity } f
          resting).closeResting ts f resting) _

theorem checkDailyLimitHit (ts : Int) :
    Beside b past id (e.checkDailyLimitHit X ts) (e'.checkDailyLimitHit (X.hush b) ts) := by
  obtain ⟨slots, hlen, hclean, rfl⟩ := h
  rw [checkDailyLimitHit_blank]
  exact ⟨rfl, slots, by rw [orderPool_session (checkDailyLimitHit_steps X ts _), hlen], hclean, rfl⟩

theorem checkVolatilityInterruption (ts : Int) :
    Beside b past id (e.checkVolatilityInterruption X ts)
      (e'.checkVolatilityInterruption (X.hush b) ts) := by
  obtain ⟨slots, hlen, hclean, rfl⟩ := h
  rw [checkVolatilityInterruption_blank]
  exact ⟨rfl, slots, by rw [orderPool_session (checkVolatilityInterruption_steps X ts _), hlen], hclean, rfl⟩

theorem setBook (s : Side) (lvls : List PriceLevel) :
    (e.setBook s lvls).Shadow b past (e'.setBook s (lvls.map (·.blank b))) :=
  h.map (fun _ => setBook_blank e s lvls) rfl

/-- What comes after the fills of a level. -/
def afterFills (X : Exchange D) (ts : Int) (fuel : Nat) :
    Outcome D (Option Order × Engine D) → Outcome D (Option Order × Engine D)
  | .error err => .error err
  | .ok (alive, e) =>
    if (e.checkDailyLimitHit X ts).1 then .ok (alive, (e.checkDailyLimitHit X ts).2)
    else
      let vi := (e.checkDailyLimitHit X ts).2.checkVolatilityInterruption X ts
      if vi.1 then .ok (alive, vi.2)
      else match alive with
        | none => .ok (none, vi.2)
        | some order => Engine.matchLoop X ts fuel order vi.2

theorem matchLoop (hX : X.Ignores b) (ts : Int) (fuel : Nat) (o : Order) :
    Outcome.Shadows b past (Beside b past (Option.map (·.blank b)))
      (e.matchLoop X ts fuel o) (e'.matchLoop (X.hush b) ts fuel (o.blank b)) := by
  induction fuel generalizing e e' o with
  | zero => exact ⟨rfl, h⟩
  | succ fuel ih =>
    have hrest : ∀ r r', Outcome.Shadows b past (Beside b past (Option.map (·.blank b))) r r' →
        Outcome.Shadows b past (Beside b past (Option.map (·.blank b))) (afterFills X ts fuel r)
          (afterFills (X.hush b) ts fuel r') := by
      intro r r' hr
      rcases hr.cases with ⟨⟨alive, e₁⟩, ⟨alive', e₁'⟩, rfl, rfl, rfl, h₁⟩ | ⟨err, err', rfl, rfl, herr⟩
      · obtain ⟨hstop, hlimit⟩ := h₁.checkDailyLimitHit (X := X) ts
        obtain ⟨hstop', hvi⟩ := hlimit.checkVolatilityInterruption (X := X) ts
        simp only [afterFills, hstop, hstop', id_eq]
        split
        · exact ⟨rfl, hlimit⟩
        · split
          · exact ⟨rfl, hvi⟩
          · cases alive with
            | none => exact ⟨rfl, hvi⟩
            | some order => exact ih hvi order
      · exact herr
    have hbook : e'.book o.side.opposite = (e.book o.side.opposite).map (·.blank b) := by
      obtain ⟨slots, -, -, rfl⟩ := h
      rfl
    unfold Engine.matchLoop
    simp only [Order.blank_remainingQuantity, Order.blank_side, hbook, allows_blank]
    split
    · exact ⟨rfl, h⟩
    · cases e.book o.side.opposite with
      | nil => exact ⟨rfl, h⟩
      | cons l deeper =>
        simp only [List.map_cons, PriceLevel.blank_price, Exchange.hush_algo, hX.policy]
        split
        · exact ⟨rfl, h⟩
        · split
          · exact ⟨rfl, h⟩
          · let m := X.algo.matchLevel l o.remainingQuantity
            have hset := h.setBook o.side.opposite ({ l with orders := m.orders } :: deeper)
            exact hrest _ _
              (hset.processFills hX ts m.results { o with remainingQuantity := m.remaining })

theorem postMatch (o : Order) (ts bid ask : Int) :
    (e.postMatch o ts bid ask).Shadow b past (e'.postMatch (o.blank b) ts bid ask) := by
  unfold Engine.postMatch
  simp only [Order.blank_remainingQuantity, Order.blank_type, Order.blank_tif]
  split
  · exact (h.release o).fireTopOfBookIfChanged ts bid ask
  · split
    · exact (h.dropOrder o ts _).fireTopOfBookIfChanged ts bid ask
    · split
      · exact (h.dropOrder o ts _).fireTopOfBookIfChanged ts bid ask
      · split
        · exact (h.dropOrder o ts _).fireTopOfBookIfChanged ts bid ask
        · exact (h.insertIntoBook o ts).fireTopOfBook ts

theorem matchOrder (hX : X.Ignores b) (fuel : Nat) (o : Order) (ts : Int) :
    Outcome.Shadows b past (Shadow b past) (e.matchOrder X fuel o ts)
      (e'.matchOrder (X.hush b) fuel (o.blank b) ts) := by
  have hmatchable : computeMatchableQty e'.book (o.blank b) = computeMatchableQty e.book o := by
    obtain ⟨slots, -, -, rfl⟩ := h
    exact computeMatchableQty_blank o e.book
  unfold Engine.matchOrder
  simp only [Order.blank_tif, Order.blank_remainingQuantity, hmatchable, h.bestPrice]
  split
  · exact (h.dropOrder o ts _).fireTopOfBookIfChanged ts _ _
  · rcases (h.matchLoop hX ts fuel o).cases with
      ⟨⟨alive, e₁⟩, ⟨alive', e₁'⟩, hr, hr', rfl, h₁⟩ | ⟨_, _, hr, hr', herr⟩ <;> rw [hr, hr']
    · cases alive with
      | none => exact h₁.fireTopOfBookIfChanged ts _ _
      | some order => exact h₁.postMatch order ts _ _
    · exact herr

theorem removeStop (o : Order) :
    (e.removeStop o).Shadow b past (e'.removeStop (o.blank b)) :=
  h.map (fun _ => removeStop_blank e o) (orderPool_removeStop e o)

theorem checkAndTriggerStops (hX : X.Ignores b) (fuel : Nat) (ts : Int)
    (rounds : Nat) : Outcome.Shadows b past (Shadow b past)
      (e.checkAndTriggerStops X fuel ts rounds) (e'.checkAndTriggerStops (X.hush b) fuel ts rounds) := by
  induction rounds generalizing e e' with
  | zero =>
    unfold checkAndTriggerStops
    simp only [h.lastTradePrice, h.hasTriggeredStops, h.nextTriggeredStop]
    split
    · cases e.nextTriggeredStop with
      | none => exact h
      | some stop => exact ⟨rfl, h⟩
    · exact h
  | succ rounds ih =>
    unfold checkAndTriggerStops
    simp only [h.lastTradePrice, h.hasTriggeredStops, h.nextTriggeredStop]
    split
    · cases e.nextTriggeredStop with
      | none => exact h
      | some stop =>
        simp only [map_some, triggered_blank]
        rcases ((h.removeStop stop).matchOrder hX fuel stop.triggered ts).cases with
          ⟨e₁, e₁', hr, hr', h₁⟩ | ⟨_, _, hr, hr', herr⟩ <;> rw [hr, hr']
        · exact ih h₁
        · exact herr
    · exact h

theorem matchAndTrigger (hX : X.Ignores b) (fuel : Nat) (o : Order)
    (ts : Int) : Outcome.Shadows b past (Shadow b past) (e.matchAndTrigger X fuel o ts)
      (e'.matchAndTrigger (X.hush b) fuel (o.blank b) ts) := by
  unfold Engine.matchAndTrigger
  rcases (h.matchOrder hX fuel o ts).cases with ⟨e₁, e₁', hr, hr', h₁⟩ | ⟨_, _, hr, hr', herr⟩ <;>
    rw [hr, hr']
  · exact h₁.checkAndTriggerStops hX fuel ts fuel
  · exact herr

end Engine.Shadow

end ExchangeSim
