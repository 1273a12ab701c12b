import ExchangeSim.Implied

/-!
Which faults an operation can end with. Most operations follow no pointer but those of the book they
work on. The exceptions take an order out of a book it may not be in: a cancellation goes by the
type of the order, and `modify_order` and `apply_implied_fills` always go to the limit book.
-/

namespace ExchangeSim

open Engine List

variable {D α : Type} {X : Exchange D} {f : Fault} {e e' : Engine D} {o : Order} {ts price q : Int}
  {fuel : Nat} {reason : CancelReason} {a : Action}

def Outcome.Avoids (f : Fault) (r : Outcome D α) : Prop :=
  ∀ e, r ≠ .error (f, e)

namespace Outcome.Avoids

variable {β : Type}

theorem ok (a : α) : Outcome.Avoids f (.ok a : Outcome D α) :=
  fun _ => by simp

theorem fault {g : Fault} (hg : g ≠ f) : Outcome.Avoids f (.error (g, e) : Outcome D α) :=
  fun _ h => hg (Prod.mk.inj (Except.error.inj h)).1

theorem error {r : Outcome D α} (h : r.Avoids f) {err : Fault × Engine D} (hr : r = .error err) :
    Outcome.Avoids f (.error err : Outcome D β) := by
  intro e he
  obtain rfl := Except.error.inj he
  exact h e hr

theorem map {r : Outcome D α} (h : r.Avoids f) (g : α → β) :
    Outcome.Avoids f (Except.map g r : Outcome D β) := by
  cases hr : r with
  | ok a => exact ok (g a)
  | error err => exact h.error hr

end Outcome.Avoids

open Outcome

section common

/-! Faults other than a dangling pointer and the end of the rounds. -/

variable (hd : f ≠ .dangling) (hf : f ≠ .outOfFuel)

include hd

theorem indexed_avoids {id : Nat} : Avoids f (e.indexed id) := by
  unfold Avoids indexed
  grind

theorem unfill_avoids {id : Nat} : Avoids f (e.unfill X id q) := by
  unfold unfill
  split
  · exact .ok _
  · split
    next herr => exact (indexed_avoids hd).error herr
    next => exact .ok _

theorem bustTrade_avoids {id : Nat} {reason : BustReason} :
    Avoids f (e.bustTrade X id reason ts) := by
  unfold bustTrade
  split
  · exact .ok _
  · split
    next => exact .ok _
    next =>
      dsimp only
      split
      · exact .ok _
      · split
        next herr => exact (unfill_avoids hd).error herr
        next =>
          split
          next herr => exact (unfill_avoids hd).error herr
          next => exact .ok _

include hf

theorem auctionLevel_avoids (fuel : Nat) (left : Int) (bid ask : Option Nat) (e : Engine D) :
    Avoids f (e.auctionLevel X price ts fuel left bid ask) := by
  induction fuel generalizing left bid ask e with
  | zero =>
    unfold Avoids auctionLevel
    grind
  | succ fuel ih =>
    unfold Avoids auctionLevel
    grind [Avoids]

theorem auctionLoop_avoids (rounds : Nat) (left : Int) (bid ask : Option Int) (e : Engine D) :
    Avoids f (e.auctionLoop X price ts fuel rounds left bid ask) := by
  induction rounds generalizing left bid ask e with
  | zero =>
    unfold Avoids auctionLoop
    grind
  | succ rounds ih =>
    have hlevel : ∀ left bid ask (e : Engine D),
        Avoids f (e.auctionLevel X price ts fuel left bid ask) := auctionLevel_avoids hd hf fuel
    unfold Avoids at ih hlevel ⊢
    unfold auctionLoop
    grind

theorem executeAuction_avoids : Avoids f (e.executeAuction X fuel price ts) := by
  unfold executeAuction
  dsimp only
  split
  · exact .ok _
  · split
    next herr => exact (auctionLoop_avoids hd hf _ _ _ _ e).error herr
    next => exact .ok _

end common

section matching

/-! Matching unlinks the levels of the limit book only, and a triggered stop leaves the stop
book. -/

theorem processFills_avoids (fills : List FillResult) (o : Order) (e : Engine D) :
    Avoids .foreignLevel (e.processFills X ts fills o) := by
  induction fills generalizing o e with
  | nil => exact .ok _
  | cons fill rest ih =>
    unfold Avoids processFills
    grind [Avoids]

theorem matchLoop_avoids (fuel : Nat) (o : Order) (e : Engine D) :
    Avoids .foreignLevel (e.matchLoop X ts fuel o) := by
  induction fuel generalizing o e with
  | zero => exact .fault (by simp)
  | succ fuel ih =>
    unfold Avoids matchLoop
    grind [Avoids, processFills_avoids]

theorem matchOrder_avoids : Avoids .foreignLevel (e.matchOrder X fuel o ts) := by
  unfold Avoids matchOrder
  grind [Avoids, matchLoop_avoids]

theorem checkAndTriggerStops_avoids (rounds : Nat) (e : Engine D) :
    Avoids .foreignLevel (e.checkAndTriggerStops X fuel ts rounds) := by
  induction rounds generalizing e with
  | zero =>
    unfold Avoids checkAndTriggerStops
    grind
  | succ rounds ih =>
    unfold Avoids checkAndTriggerStops
    grind [Avoids, matchOrder_avoids]

theorem matchAndTrigger_avoids : Avoids .foreignLevel (e.matchAndTrigger X fuel o ts) := by
  unfold Avoids matchAndTrigger
  grind [Avoids, matchOrder_avoids, checkAndTriggerStops_avoids]

theorem newOrder_avoids {req : OrderRequest} : Avoids .foreignLevel (e.newOrder X fuel req) := by
  unfold Avoids newOrder routeOrder
  grind [Avoids, matchAndTrigger_avoids]

end matching

section removal

/-- Every order is in the book of its kind, on its own side. -/
def Engine.Shelved (e : Engine D) : Prop :=
  ∀ s, (∀ o ∈ ordersIn (e.book s), o.side = s ∧ o.type.isStop = false) ∧
    ∀ o ∈ ordersIn (e.stopBook s), o.side = s ∧ o.type.isStop = true

def Engine.sparesStops (id : Nat) (e : Engine D) : Prop :=
  ∀ p ∈ e.orderIndex id, ∀ s, p ∉ idsIn (e.stopBook s)

/-- The operation takes no level out of a list that it is not in. -/
def Engine.ownLevels (e : Engine D) : Action → Prop
  | .cancelOrder .. => e.Shelved
  | .triggerExpiry .. => e.Shelved
  | .massCancel .. => e.Shelved
  | .massCancelAll .. => e.Shelved
  | .modifyOrder req => e.sparesStops req.orderId
  | .applyImpliedFills fills _ => ∀ fill ∈ fills, e.sparesStops fill.orderId
  | _ => True

theorem holds_iff {lvls : List PriceLevel} {id : Nat} : holds lvls id = true ↔ id ∈ idsIn lvls := by
  simp only [holds, any_eq_true, PriceLevel.has_iff, mem_idsIn, mem_ordersIn]
  grind

theorem Order.type_of_core {x : Order} (h : o.core = x.core) : o.type = x.type := by
  have htype : o.core.type = x.core.type := by rw [h]
  exact htype

theorem Engine.Shelved.still (h : e.Shelved) (hs : e.Still X e') : e'.Shelved := by
  refine fun s => ⟨fun o ho => ?_, fun o ho => ?_⟩
  · obtain ⟨x, hx, hcore⟩ := (hs.shelf .limit s).exists_core ho
    rw [← Order.side_of_core hcore, ← Order.type_of_core hcore]
    exact (h s).1 x hx
  · obtain ⟨x, hx, hcore⟩ := (hs.shelf .stop s).exists_core ho
    rw [← Order.side_of_core hcore, ← Order.type_of_core hcore]
    exact (h s).2 x hx

theorem cancelActiveOrder_avoids (h : e.Shelved) (ho : o ∈ e.linked) :
    Avoids .foreignLevel (e.cancelActiveOrder o ts reason) := by
  obtain ⟨k, s, ho⟩ := mem_linked.mp ho
  unfold cancelActiveOrder
  cases k with
  | limit =>
    obtain ⟨rfl, htype⟩ := (h s).1 o ho
    have hbook : e.bookRemoveOrder o = .ok (e.removeOrder o) := if_pos (holds_of_mem ho)
    simp only [htype, hbook, Bool.false_eq_true, if_false]
    exact .ok _
  | stop =>
    obtain ⟨rfl, htype⟩ := (h s).2 o ho
    have hbook : e.stopBookRemoveStop o = .ok (e.removeStop o) := if_pos (holds_of_mem ho)
    simp only [htype, hbook, if_true]
    exact .ok _

theorem cancelWhere_avoids (X : Exchange D) {select : Order → Bool} (ids : List Nat) (count : Nat) (h : e.Shelved) :
    Avoids .foreignLevel (e.cancelWhere select ts reason ids count) := by
  induction ids generalizing count e with
  | nil => exact .ok _
  | cons id ids ih =>
    unfold cancelWhere
    split
    · exact ih count h
    · split
      next herr => exact (indexed_avoids (by simp)).error herr
      next order hindexed =>
        have ho := mem_linked_of_indexed hindexed
        split
        · split
          next herr => exact (cancelActiveOrder_avoids h ho).error herr
          next hone => exact ih _ (h.still (still_cancelActiveOrder (X := X) hone))
        · exact ih count h

theorem cancelOrder_avoids {id : Nat} (h : e.Shelved) :
    Avoids .foreignLevel (e.cancelOrder X id ts) := by
  unfold cancelOrder
  dsimp only
  split
  · exact .ok _
  · split
    · exact .ok _
    · split
      next herr => exact (indexed_avoids (by simp)).error herr
      next o hindexed =>
        obtain ⟨t, ht⟩ := rateCheck_eq (X := X) o.accountId ts e
        rw [ht]
        split
        · exact .ok _
        · exact cancelActiveOrder_avoids (h.still (still_rated (X := X) t e))
            (mem_linked_of_indexed (e := e) hindexed)

/-! Orders named by their id. -/

theorem indexed_id {id : Nat} (h : e.indexed id = .ok o) : e.orderIndex id = some o.id := by
  unfold indexed at h
  split at h
  · simp at h
  next order hderef =>
    cases h
    obtain ⟨p, hp, hfound⟩ := Option.bind_eq_some_iff.mp hderef
    rw [hp, show o.id = p by simpa using find?_some hfound]

theorem bookRemoveOrder_avoids (h : ∀ s, o.id ∉ idsIn (e.stopBook s)) :
    Avoids .foreignLevel (e.bookRemoveOrder o) := by
  unfold bookRemoveOrder
  split
  · exact .ok _
  · split
    next hwait => exact absurd (holds_iff.mp hwait) (h _)
    next => exact .fault (by simp)

theorem pullOrder_avoids {req : ModifyRequest} (h : ∀ s, o.id ∉ idsIn (e.stopBook s)) :
    Avoids .foreignLevel (e.pullOrder o req) := by
  unfold pullOrder
  split
  next herr => exact (bookRemoveOrder_avoids h).error herr
  next => exact .ok _

theorem modifyOrder_avoids {req : ModifyRequest} (h : e.sparesStops req.orderId) :
    Avoids .foreignLevel (e.modifyOrder X fuel req) := by
  unfold modifyOrder
  dsimp only
  split
  · exact .ok _
  · split
    · exact .ok _
    · split
      next herr => exact (indexed_avoids (by simp)).error herr
      next o hindexed =>
        obtain ⟨t, ht⟩ := rateCheck_eq (X := X) o.accountId req.timestamp e
        rw [ht]
        split
        · exact .ok _
        · split
          · exact .ok _
          · split
            · exact .ok _
            · have hpull : Avoids .foreignLevel
                  (({ e with rateTracker := t } : Engine D).pullOrder o req) :=
                pullOrder_avoids (h o.id (indexed_id hindexed))
              unfold replaceOrder
              split
              next herr => exact hpull.error herr
              next => exact matchAndTrigger_avoids

section legs

variable {fill : LegFill}

theorem onLevelOf_absent {lvls : List PriceLevel} (h : o.id ∉ idsIn lvls)
    (g : PriceLevel → PriceLevel) : onLevelOf o.id g lvls = lvls :=
  onLevelOf_eq_self (fun l hl => by
    by_contra hhas
    refine h (holds_iff.mp (any_eq_true.mpr ⟨l, hl, ?_⟩))
    simpa using hhas) g

theorem setStopBook_absent (h : ∀ s, o.id ∉ idsIn (e.stopBook s)) (g : PriceLevel → PriceLevel) :
    Function.update e.stopBook o.side (onLevelOf o.id g (e.stopBook o.side)) = e.stopBook := by
  rw [onLevelOf_absent (h _), Function.update_eq_self]

theorem stopBook_impliedTrade (h : ∀ s, o.id ∉ idsIn (e.stopBook s)) :
    (e.impliedTrade X ts fill o).stopBook = e.stopBook :=
  setStopBook_absent h _

theorem fireDepthHolding_keeps (o : Order) (ts : Int) (e : Engine D) :
    (e.fireDepthHolding o ts).stopBook = e.stopBook ∧
      (e.fireDepthHolding o ts).orderIndex = e.orderIndex := by
  unfold fireDepthHolding
  split <;> exact ⟨rfl, rfl⟩

theorem bookRemoveOrder_keeps {r : Bool × Engine D} (h : ∀ s, o.id ∉ idsIn (e.stopBook s))
    (hrem : e.bookRemoveOrder o = .ok r) :
    r.2.stopBook = e.stopBook ∧ r.2.orderIndex = e.orderIndex := by
  rcases bookRemoveOrder_ok hrem with ⟨-, rfl⟩ | ⟨⟨hwait, -⟩, -⟩
  · unfold removeOrder
    dsimp only
    split <;> exact ⟨rfl, rfl⟩
  · exact absurd (holds_iff.mp hwait) (h _)

theorem fireDepthAfterRemove_keeps (freed : Bool) (s : Side) (price ts : Int) (e : Engine D) :
    (e.fireDepthAfterRemove freed s price ts).stopBook = e.stopBook ∧
      (e.fireDepthAfterRemove freed s price ts).orderIndex = e.orderIndex := by
  unfold fireDepthAfterRemove fireDepthAt
  split
  · exact ⟨rfl, rfl⟩
  · split <;> exact ⟨rfl, rfl⟩

/-- A leg of the limit book leaves the stops where they are, and the index names no order it did
not name before. -/
theorem applyImpliedFill_spares (h : e.sparesStops fill.orderId)
    (hleg : e.applyImpliedFill X ts fill = .ok e') :
    e'.stopBook = e.stopBook ∧ ∀ id, ∀ p ∈ e'.orderIndex id, p ∈ e.orderIndex id := by
  obtain ⟨o, hindexed, hcase⟩ := applyImpliedFill_ok hleg
  have habsent : ∀ s, (o.fill fill.fillQty).id ∉ idsIn (e.stopBook s) :=
    h o.id (indexed_id hindexed)
  have htrade : (e.impliedTrade X ts fill (o.fill fill.fillQty)).stopBook = e.stopBook :=
    stopBook_impliedTrade habsent
  have htrade' : ∀ s, (o.fill fill.fillQty).id ∉
      idsIn ((e.impliedTrade X ts fill (o.fill fill.fillQty)).stopBook s) := by rwa [htrade]
  rcases hcase with ⟨-, rfl⟩ | rfl | ⟨r, hrem, rfl⟩
  · obtain ⟨hstops, hindex⟩ := fireDepthHolding_keeps (o.fill fill.fillQty) ts _
    exact ⟨hstops.trans ((setStopBook_absent htrade' _).trans htrade), fun _ _ hp => hindex ▸ hp⟩
  · obtain ⟨hstops, hindex⟩ := fireDepthHolding_keeps (o.fill fill.fillQty) ts
      (e.impliedTrade X ts fill (o.fill fill.fillQty))
    exact ⟨hstops.trans htrade, fun _ _ hp => hindex ▸ hp⟩
  · obtain ⟨hstops, hindex⟩ := bookRemoveOrder_keeps htrade' hrem
    obtain ⟨hstops', hindex'⟩ := fireDepthAfterRemove_keeps r.1 o.side fill.fillPrice ts r.2
    refine ⟨hstops'.trans (hstops.trans htrade), fun id p hp => ?_⟩
    change p ∈ Function.update (r.2.fireDepthAfterRemove r.1 o.side fill.fillPrice ts).orderIndex
      (o.fill fill.fillQty).id none id at hp
    by_cases hid : id = (o.fill fill.fillQty).id
    · subst hid
      simp at hp
    · rw [Function.update_of_ne hid, hindex', hindex] at hp
      exact hp

theorem applyImpliedFill_avoids (h : e.sparesStops fill.orderId) :
    Avoids .foreignLevel (e.applyImpliedFill X ts fill) := by
  unfold applyImpliedFill
  split
  next herr => exact (indexed_avoids (by simp)).error herr
  next o hindexed =>
    have habsent : ∀ s, (o.fill fill.fillQty).id ∉ idsIn (e.stopBook s) :=
      h o.id (indexed_id hindexed)
    dsimp only
    split
    · split
      · exact .ok _
      · split
        next herr =>
          exact (bookRemoveOrder_avoids (by rwa [stopBook_impliedTrade habsent])).error herr
        next => exact .ok _
    · exact .ok _

theorem applyImpliedLegs_avoids (fills : List LegFill)
    (h : ∀ fill ∈ fills, e.sparesStops fill.orderId) :
    Avoids .foreignLevel (e.applyImpliedLegs X ts fills) := by
  induction fills generalizing e with
  | nil => exact .ok _
  | cons fill fills ih =>
    unfold applyImpliedLegs
    split
    next herr => exact (applyImpliedFill_avoids (h fill (by simp))).error herr
    next e₁ hleg =>
      obtain ⟨hstops, hindex⟩ := applyImpliedFill_spares (h fill (by simp)) hleg
      refine ih fun f hf p hp s => ?_
      rw [hstops]
      exact h f (by simp [hf]) p (hindex _ p hp) s

end legs

theorem perform_avoids (ha : e.ownLevels a) (fuel : Nat) :
    Avoids .foreignLevel (e.perform X fuel a) := by
  cases a with
  | newOrder req => exact newOrder_avoids
  | cancelOrder id ts => exact cancelOrder_avoids (e := e.record _) ha
  | modifyOrder req => exact modifyOrder_avoids (e := e.record _) ha
  | triggerExpiry | massCancel | massCancelAll =>
    exact (cancelWhere_avoids (e := e.record _) X _ _ ha).map _
  | bustTrade id reason ts => exact bustTrade_avoids (by simp)
  | executeAuction price ts => exact executeAuction_avoids (by simp) (by simp)
  | applyImpliedFills fills ts =>
    refine Avoids.map ?_ _
    unfold applyImpliedFills
    split
    · split
      next herr => exact (applyImpliedLegs_avoids (e := e.record _) fills ha).error herr
      next => exact .ok _
    · exact .ok _
  | _ => exact .ok _

/-- Every operation of the sequence meets `ok` in the state it is called in. -/
def Engine.Along (X : Exchange D) (fuel : Nat) (ok : Engine D → Action → Prop) :
    List Action → Engine D → Prop
  | [], _ => True
  | a :: rest, e =>
    ok e a ∧ ∀ e', e.perform X fuel a = .ok e' → Engine.Along X fuel ok rest e'

theorem performAll_avoids {actions : List Action} (h : e.Along X fuel ownLevels actions) :
    Avoids .foreignLevel (e.performAll X fuel actions) := by
  induction actions generalizing e with
  | nil => exact .ok _
  | cons a rest ih =>
    unfold performAll
    split
    next herr => exact (perform_avoids h.1 fuel).error herr
    next e₁ hone => exact ih (h.2 e₁ hone)

end removal

end ExchangeSim
