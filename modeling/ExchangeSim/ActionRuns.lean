import ExchangeSim.OperationRuns

namespace ExchangeSim

open Engine List Move

variable {D : Type} {X : Exchange D} {w c : Prop} {P : Move D → Bool} {e : Engine D}
  {o order : Order} {extra : List Nat} {req : ModifyRequest} {k : Shelf} {a : Action} {m : Move D}

theorem rateCheck_run (hP : ∀ t es, P (.note t es) = true) (account : Nat) (ts : Int)
    (e : Engine D) (fl : Option Order) : OpRun X w c P ⟨e, fl⟩ ⟨(e.rateCheck X account ts).2, fl⟩ := by
  obtain ⟨t, ht⟩ := rateCheck_eq account ts e
  have hnote := note_run (X := X) (w := w) (c := c) hP e fl t [] (by simp)
  rw [append_nil] at hnote
  rw [ht]
  exact hnote

theorem mem_linked : o ∈ e.linked ↔ ∃ k s, o ∈ ordersIn (e.shelf k s) := by
  simp only [linked, List.mem_append]
  constructor
  · rintro ((h | h) | (h | h))
    · exact ⟨.limit, .buy, h⟩
    · exact ⟨.limit, .sell, h⟩
    · exact ⟨.stop, .buy, h⟩
    · exact ⟨.stop, .sell, h⟩
  · rintro ⟨k, s, h⟩
    cases k <;> cases s <;> simp only [shelf] at h <;> simp [h]

theorem holdings_ids (e : Engine D) : e.holdings.ids = e.linked.map (·.id) := by
  simp [Holdings.ids, holdings, shelf, linked, idsIn]

section

variable (hH : e.holdings.Sound X w extra)

include hH

theorem type_of_rests (ho : e.rests o) : o.type = .limit := by
  obtain ⟨l, hl, hmem⟩ := mem_ordersIn.mp ho
  exact (((hH.shape .limit o.side).sound l hl).fits o hmem).2.1

theorem type_of_waits (ho : e.waits o) :
    o.type.isStop = true := by
  obtain ⟨l, hl, hmem⟩ := mem_ordersIn.mp ho
  exact (((hH.shape .stop o.side).sound l hl).fits o hmem).2.1

theorem linked_cases (ho : o ∈ e.linked) :
    (e.rests o ∧ o.type = .limit) ∨ (e.waits o ∧ o.type.isStop = true) := by
  obtain ⟨k, s, hk⟩ := mem_linked.mp ho
  have hside : o.side = s := hH.side_eq hk
  obtain ⟨l, hl, hmem⟩ := mem_ordersIn.mp hk
  have hfits := ((hH.shape k s).sound l hl).fits o hmem
  subst hside
  cases k with
  | limit => exact .inl ⟨hk, hfits.2.1⟩
  | stop => exact .inr ⟨hk, hfits.2.1⟩

omit hH in
theorem indexed_eq (hH : e.holdings.Sound X w []) {id : Nat}
    (h : (e.orderIndex id).isNone = false) :
    ∃ order, e.indexed id = .ok order ∧ order.id = id ∧ order ∈ e.linked := by
  obtain ⟨p, hp⟩ : ∃ p, e.orderIndex id = some p := by
    cases hx : e.orderIndex id with
    | none => simp [hx] at h
    | some p => exact ⟨p, rfl⟩
  obtain ⟨rfl, hmem⟩ := (hH.owns.index id p).mp hp
  rw [nil_append, holdings_ids] at hmem
  obtain ⟨o, ho, hid⟩ := mem_map.mp hmem
  have hfind : (e.linked.find? (·.id == p)).isSome = true := by
    rw [find?_isSome]
    exact ⟨o, ho, by simpa using hid⟩
  obtain ⟨order, horder⟩ := Option.isSome_iff_exists.mp hfind
  refine ⟨order, ?_, by simpa using find?_some horder, mem_of_find?_eq_some horder⟩
  simp [indexed, hp, deref, horder]

omit hH in
theorem holds_of_mem {lvls : List PriceLevel} (h : o ∈ ordersIn lvls) : holds lvls o.id = true := by
  obtain ⟨l, hl, ho⟩ := mem_ordersIn.mp h
  simp only [holds, any_eq_true]
  exact ⟨l, hl, PriceLevel.has_iff.mpr ⟨o, ho, rfl⟩⟩

theorem not_holds_other (ho : o ∈ ordersIn (e.shelf k o.side))
    (k' : Shelf) (hne : k' ≠ k) : holds (e.shelf k' o.side) o.id = false := by
  rw [holds, any_eq_false]
  intro l hl
  simp [hH.has_eq_false k k' o.side o.side (by simp [hne]) ho l hl]

theorem holdings_bookRemoveOrder
    (ho : o ∈ ordersIn (e.shelf k o.side)) {r : Bool × Engine D} (h : e.bookRemoveOrder o = .ok r) :
    r.2.holdings = e.holdings.takeOut k o := by
  rcases bookRemoveOrder_ok h with ⟨hin, rfl⟩ | ⟨⟨hin, -⟩, rfl⟩
  · cases k with
    | limit => exact holdings_removeOrder e o
    | stop => exact absurd hin (by simp [show e.book = e.shelf .limit from rfl,
        not_holds_other hH ho .limit (by simp)])
  · cases k with
    | limit => exact absurd hin (by simp [show e.stopBook = e.shelf .stop from rfl,
        not_holds_other hH ho .stop (by simp)])
    | stop => exact holdings_removeStop e o

end

def Action.cancelling : Action → Bool
  | .cancelOrder .. => true
  | .triggerExpiry .. => true
  | .massCancel .. => true
  | .massCancelAll .. => true
  | _ => false

theorem cancelActiveOrder_cases (hH : e.holdings.Sound X w []) (ho : o ∈ e.linked) (ts : Int)
    (reason : CancelReason) :
    (e.rests o ∧ e.cancelActiveOrder o ts reason =
      .ok (((e.removeOrder o).2.reportCancel o ts reason (e.removeOrder o).1).fireTopOfBookIfChanged
        ts (e.bestPrice .buy) (e.bestPrice .sell))) ∨
    e.waits o ∧ e.cancelActiveOrder o ts reason = .ok ((e.removeStop o).dropOrder o ts reason) := by
  unfold cancelActiveOrder
  rcases linked_cases hH ho with ⟨hrest, htype⟩ | ⟨hwait, htype⟩
  · have hbook : e.bookRemoveOrder o = .ok (e.removeOrder o) := if_pos (holds_of_mem hrest)
    exact .inl ⟨hrest, by simp [htype, OrderType.isStop, hbook]⟩
  · have hbook : e.stopBookRemoveStop o = .ok (e.removeStop o) := if_pos (holds_of_mem hwait)
    exact .inr ⟨hwait, by simp [htype, hbook]⟩

theorem cancelActiveOrder_run (ha : a.cancelling = true) (hH : e.holdings.Sound X w [])
    (ho : o ∈ e.linked) (ts : Int) (reason : CancelReason) :
    ∃ e', e.cancelActiveOrder o ts reason = .ok e' ∧ OpRun X w c (partOf a) ⟨e, none⟩ ⟨e', none⟩ := by
  have hpart : partOf (D := D) a (.cancel o ts reason) = true ∧
      partOf (D := D) a (.cancelStop o ts reason) = true ∧
      ∀ ts, partOf (D := D) a (.topOfBook ts) = true := by
    cases a <;> simp [Action.cancelling] at ha <;> exact ⟨rfl, rfl, fun _ => rfl⟩
  rcases cancelActiveOrder_cases hH ho ts reason with ⟨hrest, heq⟩ | ⟨hwait, heq⟩
  · refine ⟨_, heq, ?_⟩
    have hcancel : OpRun X w c (partOf a) ⟨e, none⟩
        ⟨(e.removeOrder o).2.reportCancel o ts reason (e.removeOrder o).1, none⟩ :=
      OpRun.step (.cancel o ts reason) ⟨rfl, hrest⟩ (fun _ => trivial) (fun _ => rfl) trivial
        hpart.1
    exact Machine.Run.trans hcancel (fireTopOfBookIfChanged_run hpart.2.2 ts _ _ _ none)
  · exact ⟨_, heq, OpRun.step (.cancelStop o ts reason) ⟨rfl, hwait⟩ (fun _ => trivial)
      (fun _ => rfl) trivial hpart.2.1⟩

theorem cancelOrder_run (id : Nat) (ts : Int) (hs : World.Sound X w ⟨e, none⟩) :
    OpOutcome X w c (partOf (.cancelOrder id ts)) ⟨e, none⟩ (e.cancelOrder X id ts) := by
  unfold cancelOrder
  split
  · exact emit_run (partOf_note _) e none rfl
  · split
    · exact emit_run (partOf_note _) e none rfl
    next hknown =>
      have hidx : (e.orderIndex id).isNone = false := by
        simp only [unknown, Bool.or_eq_true, not_or, Bool.not_eq_true] at hknown
        exact hknown.2
      obtain ⟨order, hord, -, hmem⟩ := indexed_eq (hs.holds_none rfl) hidx
      simp only [hord]
      have hrate := rateCheck_run (X := X) (w := w) (c := c) (partOf_note (.cancelOrder id ts))
        order.accountId ts e none
      obtain ⟨t, ht⟩ := rateCheck_eq order.accountId ts e
      split
      · exact Machine.Run.trans hrate (emit_run (partOf_note _) _ none rfl)
      · have hmem' : order ∈ (e.rateCheck X order.accountId ts).2.linked := by
          rw [ht]
          exact hmem
        obtain ⟨e', he, hrun⟩ := cancelActiveOrder_run (a := .cancelOrder id ts) rfl
          ((OpRun.sound hrate hs).holds_none rfl) hmem' ts .userRequested
        rw [he]
        exact Machine.Run.trans hrate hrun

theorem cancelWhere_run (ha : a.cancelling = true) (select : Order → Bool) (ts : Int)
    (reason : CancelReason) (ids : List Nat) (count : Nat) (hs : World.Sound X w ⟨e, none⟩) :
    ∃ n e', e.cancelWhere select ts reason ids count = .ok (n, e') ∧
      OpRun X w c (partOf a) ⟨e, none⟩ ⟨e', none⟩ := by
  induction ids generalizing count e with
  | nil => exact ⟨count, e, rfl, .refl⟩
  | cons id ids ih =>
    unfold cancelWhere
    split
    next => exact ih count hs
    next hset =>
      obtain ⟨order, hord, -, hmem⟩ := indexed_eq (hs.holds_none rfl)
        (Bool.eq_false_iff.mpr hset)
      simp only [hord]
      split
      next =>
        obtain ⟨e₁, he₁, hrun₁⟩ := cancelActiveOrder_run ha (hs.holds_none rfl) hmem ts
          reason
        simp only [he₁]
        obtain ⟨n, e₂, he₂, hrun₂⟩ := ih (count + 1) (OpRun.sound hrun₁ hs)
        exact ⟨n, e₂, he₂, Machine.Run.trans hrun₁ hrun₂⟩
      next => exact ih count hs

theorem currentAction_record (a : Action) (e : Engine D) :
    currentAction (e.record a).journal = some a := by
  simp [currentAction, record, foldl_append]

theorem matchAndTrigger_run (hP : ∀ m : Move D, m.landing = true → P m = true) (fuel : Nat)
    (ts : Int) (hs : World.Sound X w ⟨e, some order⟩) (hcw : c → w) (hcalm : c → e.context.Calm X)
    (hent : order.Entered) :
    OpOutcome X w c P ⟨e, some order⟩ (e.matchAndTrigger X fuel order ts) := by
  refine opOutcome_iff.mpr (matchAndTrigger_calls (fun e₁ stop hrun hg => ?_)
    (fun e₁ o hrun hent => ?_) (fun e₁ hrun => ⟨trivial, hrun⟩) .refl hent)
  · exact Machine.Run.trans hrun (OpRun.step (.trigger stop) hg (fun _ => trivial) (fun _ => rfl)
      trivial (hP _ rfl))
  · exact opOutcome_iff.mp (OpOutcome.after hrun (matchOrder_run hP fuel ts (OpRun.sound hrun hs)
      hcw (fun hc => OpRun.context hrun hc ▸ hcalm hc) hent))

def Move.routed : Move D → Bool
  | .park .. => true
  | m => m.landing

theorem Move.routed_of_landing (hm : m.landing = true) : m.routed = true := by
  cases m <;> simp [landing, matching] at hm <;> rfl

theorem Move.partOf_newOrder (req : OrderRequest) (hm : m.routed = true) :
    m.partOf (.newOrder req) = true := by
  cases m <;> simp [routed, landing, matching] at hm <;> rfl

theorem routeOrder_run (hP : ∀ m : Move D, m.routed = true → P m = true) (fuel : Nat)
    {req : OrderRequest} (hs : World.Sound X w ⟨e, some order⟩) (hcw : c → w)
    (hcalm : c → e.context.Calm X) (htype : order.type = req.type)
    (hprice : order.type = .stop → order.price = req.stopPrice)
    (hrem : order.remainingQuantity ≠ 0) :
    OpOutcome X w c P ⟨e, some order⟩ (e.routeOrder X fuel req order) := by
  unfold routeOrder
  split
  next hstop =>
    exact OpRun.step (.park order req.stopPrice) ⟨rfl, by rw [htype]; exact hstop, hprice, hrem⟩
      (fun _ => trivial) (fun _ => rfl) trivial (hP _ rfl)
  next hstop =>
    split
    next hphase =>
      split
      next hlimit =>
        have hrest : OpRun X w c P ⟨e, some order⟩
            ⟨e.insertIntoBook order req.timestamp, none⟩ :=
          OpRun.step (.rest order req.timestamp) ⟨rfl, by rw [htype]; exact hlimit, hrem⟩
            (fun _ => trivial) (fun _ => rfl) (.inl hphase) (hP _ rfl)
        exact Machine.Run.trans hrest (OpRun.step (.topOfBook req.timestamp) trivial
          (fun _ => trivial) (fun _ => rfl) trivial (hP _ rfl))
      next =>
        exact OpRun.step (.drop order req.timestamp .iocRemainder) rfl (fun _ => trivial)
          (fun _ => rfl) trivial (hP _ rfl)
    next =>
      have hlm : order.type = .limit ∨ order.type = .market := by
        rw [htype]
        cases ht : req.type <;> simp [ht, OrderType.isStop] at hstop ⊢
      have hland : ∀ m : Move D, m.landing = true → P m = true :=
        fun m hm => hP m (routed_of_landing hm)
      exact matchAndTrigger_run hland fuel req.timestamp hs hcw hcalm hlm

theorem newOrder_run (fuel : Nat) (req : OrderRequest) (hs : World.Sound X w ⟨e, none⟩)
    (hcw : c → w) (hcalm : c → e.context.Calm X)
    (haction : currentAction e.journal = some (.newOrder req)) :
    OpOutcome X w c (partOf (.newOrder req)) ⟨e, none⟩ (e.newOrder X fuel req) := by
  have hnote : ∀ t es, (∀ x ∈ es, x.quiet = true) → OpRun X w c (partOf (.newOrder req))
      ⟨e, none⟩ ⟨{ e with rateTracker := t, journal := e.journal ++ es }, none⟩ :=
    fun t es hes => note_run (partOf_note _) e none t es hes
  rcases newOrder_cases fuel req e with ⟨t, reason, heq⟩ | ⟨t, slot, pool, hpool, hchecks, heq⟩
  · rw [heq]
    exact hnote t [.event (.orderRejected req.clientOrderId req.timestamp reason)]
      (by simp [JournalEntry.quiet])
  · rw [heq]
    have hrate : OpRun X w c (partOf (.newOrder req)) ⟨e, none⟩
        ⟨{ e with rateTracker := t }, none⟩ := by
      simpa using hnote t [] (by simp)
    have haccept : OpRun X w c (partOf (.newOrder req)) ⟨{ e with rateTracker := t }, none⟩
        ⟨{ e with rateTracker := t }.acceptOrder (e.buildOrder X req slot) pool req.timestamp,
          some (e.buildOrder X req slot)⟩ :=
      OpRun.step (.accept req slot pool) ⟨rfl, hpool, hchecks, haction⟩ (fun _ => trivial)
        (fun _ => rfl) trivial rfl
    have hrun := Machine.Run.trans hrate haccept
    refine OpOutcome.after hrun (routeOrder_run (fun _ => partOf_newOrder req) fuel
      (OpRun.sound hrun hs) hcw (fun hc => OpRun.context hrun hc ▸ hcalm hc) rfl
      (buildOrder_price_of_stop slot) (buildOrder_remaining_pos slot hchecks).ne')

theorem replaceOrder_eq (fuel : Nat) (hrest : e.rests order) : e.replaceOrder X fuel order req =
      ((e.removeOrder order).2.reportPull order req (e.removeOrder order).1).matchAndTrigger X fuel
        (order.replaced req) req.timestamp := by
  simp [replaceOrder, pullOrder, bookRemoveOrder, holds_of_mem hrest]

theorem replaceOrder_run (hP : ∀ m : Move D, m.landing = true → P m = true) (fuel : Nat)
    (hPpull : P (.pull order req) = true) (hs : World.Sound X w ⟨e, none⟩) (hcw : c → w)
    (hcalm : c → e.context.Calm X) (hrest : e.rests order) (htype : order.type = .limit)
    (hnew : w → order.filledQuantity ≤ req.newQuantity) :
    OpOutcome X w c P ⟨e, none⟩ (e.replaceOrder X fuel order req) := by
  have hpull : OpRun X w c P ⟨e, none⟩
      ⟨(e.removeOrder order).2.reportPull order req (e.removeOrder order).1,
        some (order.replaced req)⟩ :=
    OpRun.step (.pull order req) ⟨rfl, hrest⟩ hnew (fun _ => rfl) trivial hPpull
  rw [replaceOrder_eq fuel hrest]
  exact OpOutcome.after hpull (matchAndTrigger_run hP fuel req.timestamp
    (OpRun.sound hpull hs) hcw (fun hc => OpRun.context hpull hc ▸ hcalm hc) (.inl htype))

structure Engine.TakesModify (X : Exchange D) (e : Engine D) (req : ModifyRequest)
    (order : Order) : Prop where
  opened : e.currentState ≠ .closed
  named : order.id = req.orderId
  known : e.unknown X req.orderId = false
  paced : (e.rateCheck X order.accountId req.timestamp).1 = true
  checked : firstFailure (e.modifyChecks X req) = none

theorem rateCheck_record (account : Nat) (ts : Int) (e : Engine D) (a : Action) :
    ((e.record a).rateCheck X account ts).1 = (e.rateCheck X account ts).1 := by
  unfold rateCheck
  change (if X.isRateCheckEnabled e.derived = true then _ else _ : Bool × Engine D).1 = _
  split <;> rfl

theorem takesModify_record (a : Action) :
    (e.record a).TakesModify X req order ↔ e.TakesModify X req order :=
  ⟨fun h => ⟨h.opened, h.named, h.known, rateCheck_record _ _ e a ▸ h.paced, h.checked⟩,
    fun h => ⟨h.opened, h.named, h.known, (rateCheck_record _ _ e a).trans h.paced, h.checked⟩⟩

theorem eq_of_linked (hH : e.holdings.Sound X w []) {o' : Order} (ho : o ∈ e.linked)
    (ho' : o' ∈ e.linked) (hid : o.id = o'.id) : o = o' := by
  have hnodup := hH.owns.nodup
  rw [nil_append, holdings_ids] at hnodup
  exact inj_on_of_nodup_map hnodup ho ho' hid

theorem orderIndex_of_known {id : Nat} (h : e.unknown X id = false) :
    (e.orderIndex id).isNone = false := by
  simp only [unknown, Bool.or_eq_false_iff] at h
  exact h.2

theorem modifyOrder_taken (hH : e.holdings.Sound X w []) (ho : order ∈ e.linked)
    (h : e.TakesModify X req order) :
    ∃ t, ∀ fuel, e.modifyOrder X fuel req =
      if e.amends X order req then .ok ({ e with rateTracker := t }.amendOrder order req)
      else { e with rateTracker := t }.replaceOrder X fuel order req := by
  obtain ⟨o, hord, hid, hmem⟩ := indexed_eq hH (orderIndex_of_known h.known)
  obtain rfl := eq_of_linked hH hmem ho (hid.trans h.named.symm)
  obtain ⟨t, ht⟩ := rateCheck_eq (X := X) o.accountId req.timestamp e
  have hchecks : firstFailure ({ e with rateTracker := t }.modifyChecks X req) = none := h.checked
  refine ⟨t, fun fuel => ?_⟩
  simp only [modifyOrder, if_neg h.opened, h.known, Bool.false_eq_true, if_false, hord,
    h.paced, ht, Bool.not_true, hchecks]
  rfl

theorem perform_taken (hH : e.holdings.Sound X w []) (ho : order ∈ e.linked)
    (h : e.TakesModify X req order) :
    ∃ t, ∀ fuel, e.perform X fuel (.modifyOrder req) =
      let e₁ : Engine D := { e.record (.modifyOrder req) with rateTracker := t }
      if e.amends X order req then .ok (e₁.amendOrder order req)
      else e₁.replaceOrder X fuel order req :=
  modifyOrder_taken (e := e.record (.modifyOrder req)) hH ho ((takesModify_record _).mpr h)

theorem modifyOrder_refused (fuel : Nat) (hH : e.holdings.Sound X w [])
    (h : ∀ order ∈ e.linked, ¬e.TakesModify X req order) :
    ∃ t reason, e.modifyOrder X fuel req = .ok ({ e with rateTracker := t }.emit
      (.orderModifyRejected req.orderId req.clientOrderId req.timestamp reason)) := by
  unfold modifyOrder
  split
  · exact ⟨e.rateTracker, _, rfl⟩
  next hopen =>
    split
    · exact ⟨e.rateTracker, _, rfl⟩
    next hknown =>
      have hknown' := Bool.eq_false_iff.mpr hknown
      obtain ⟨order, hord, hid, hmem⟩ := indexed_eq hH (orderIndex_of_known hknown')
      obtain ⟨t, ht⟩ := rateCheck_eq (X := X) order.accountId req.timestamp e
      simp only [hord, ht]
      split
      · exact ⟨t, _, rfl⟩
      next hpaced =>
        split
        · exact ⟨t, _, rfl⟩
        next hchecked =>
          exact (h order hmem ⟨hopen, hid, hknown', by simpa using hpaced, hchecked⟩).elim

theorem modifyOrder_cases (fuel : Nat) (req : ModifyRequest) (hH : e.holdings.Sound X w []) :
    (∃ t reason, e.modifyOrder X fuel req =
      .ok ({ e with rateTracker := t }.emit
        (.orderModifyRejected req.orderId req.clientOrderId req.timestamp reason))) ∨
    ∃ t order, order ∈ e.linked ∧ order.id = req.orderId ∧
      ((e.amends X order req = true ∧
        e.modifyOrder X fuel req = .ok ({ e with rateTracker := t }.amendOrder order req)) ∨
      (e.amends X order req = false ∧
        e.modifyOrder X fuel req = { e with rateTracker := t }.replaceOrder X fuel order req)) := by
  by_cases htaken : ∃ order ∈ e.linked, e.TakesModify X req order
  · obtain ⟨order, hmem, htakes⟩ := htaken
    obtain ⟨t, heq⟩ := modifyOrder_taken hH hmem htakes
    refine .inr ⟨t, order, hmem, htakes.named, ?_⟩
    rw [heq fuel]
    cases hamend : e.amends X order req with
    | true => exact .inl ⟨rfl, if_pos rfl⟩
    | false => exact .inr ⟨rfl, if_neg (by simp)⟩
  · exact .inl (modifyOrder_refused fuel hH fun order hmem htakes => htaken ⟨order, hmem, htakes⟩)

theorem guard_amend (hamend : e.amends X order req = true) (hrest : e.rests order)
    (t : RateTracker) : guard X (.amend order req) ⟨{ e with rateTracker := t }, none⟩ := by
  simp only [amends, Bool.and_eq_true, decide_eq_true_eq] at hamend
  obtain ⟨⟨⟨-, hprice⟩, hlt⟩, hgt⟩ := hamend
  exact ⟨rfl, hrest, hgt, hlt, hprice⟩

theorem modifyOrder_run (fuel : Nat) (req : ModifyRequest) (hs : World.Sound X w ⟨e, none⟩)
    (hcw : c → w) (hcalm : c → e.context.Calm X)
    (htarget : ∀ order ∈ e.linked, order.id = req.orderId →
      e.rests order ∧ (w → order.filledQuantity ≤ req.newQuantity)) :
    OpOutcome X w c (partOf (.modifyOrder req)) ⟨e, none⟩ (e.modifyOrder X fuel req) := by
  have hnote : ∀ t es, (∀ x ∈ es, x.quiet = true) → OpRun X w c (partOf (.modifyOrder req))
      ⟨e, none⟩ ⟨{ e with rateTracker := t, journal := e.journal ++ es }, none⟩ :=
    fun t es hes => note_run (partOf_note _) e none t es hes
  have hrate : ∀ t, OpRun X w c (partOf (.modifyOrder req)) ⟨e, none⟩
      ⟨{ e with rateTracker := t }, none⟩ := fun t => by simpa using hnote t [] (by simp)
  rcases modifyOrder_cases fuel req (hs.holds_none rfl) with
    ⟨t, reason, heq⟩ | ⟨t, order, hmem, hid, ⟨hamend, heq⟩ | ⟨-, heq⟩⟩
  · rw [heq]
    exact hnote t [.event (.orderModifyRejected req.orderId req.clientOrderId req.timestamp reason)]
      (by simp [JournalEntry.quiet])
  · rw [heq]
    exact Machine.Run.trans (hrate t) (OpRun.step (.amend order req)
      (guard_amend hamend (htarget order hmem hid).1 t) (fun _ => trivial) (fun _ => rfl) trivial rfl)
  · rw [heq]
    obtain ⟨hrest, hnew⟩ := htarget order hmem hid
    exact OpOutcome.after (hrate t) (replaceOrder_run (fun _ => partOf_entering rfl) fuel rfl
      (OpRun.sound (hrate t) hs) hcw
      (fun hc => OpRun.context (hrate t) hc ▸ hcalm hc) hrest
      (type_of_rests (hs.holds_none rfl) hrest) hnew)

theorem unfill_run (a : Action) (ha : ∀ o q, partOf (D := D) a (.unfill o q) = true) (id : Nat)
    (q : Int) (hs : World.Sound X w ⟨e, none⟩) (hq : w → 0 < q) :
    ∃ e', e.unfill X id q = .ok e' ∧ OpRun X w c (partOf a) ⟨e, none⟩ ⟨e', none⟩ := by
  unfold Engine.unfill
  split
  · exact ⟨e, rfl, .refl⟩
  next hknown =>
    obtain ⟨order, hord, -, hmem⟩ := indexed_eq (hs.holds_none rfl)
      (show (e.orderIndex id).isNone = false from Bool.eq_false_iff.mpr fun h => hknown (.inr h))
    simp only [hord]
    refine ⟨_, rfl, OpRun.step (.unfill order q) ⟨rfl, ?_⟩ hq (fun _ => rfl) trivial (ha _ _)⟩
    rcases linked_cases (hs.holds_none rfl) hmem with ⟨h, -⟩ | ⟨h, -⟩
    · exact .inl h
    · exact .inr h

theorem bustTrade_run (tradeId : Nat) (reason : BustReason) (ts : Int)
    (hs : World.Sound X w ⟨e, none⟩) :
    OpOutcome X w c (partOf (.bustTrade tradeId reason ts)) ⟨e, none⟩ (e.bustTrade X tradeId reason ts) := by
  unfold bustTrade
  split
  · exact .refl
  · split
    · exact .refl
    next record hlook =>
      split
      · exact .refl
      · have hq : w → 0 < record.quantity := by
          intro hw
          refine (hs.holds_none rfl).trades hw tradeId record ?_
          unfold TradeRegistry.lookup at hlook
          split at hlook
          · simp at hlook
          · exact hlook
        have hmark : OpRun X w c (partOf (.bustTrade tradeId reason ts)) ⟨e, none⟩
            ⟨{ e with tradeRegistry := e.tradeRegistry.markBusted tradeId }, none⟩ :=
          OpRun.step (.markBusted tradeId) rfl (fun _ => trivial) (fun _ => rfl) trivial rfl
        obtain ⟨e₁, he₁, hrun₁⟩ := unfill_run (.bustTrade tradeId reason ts)
          (fun _ _ => rfl) record.aggressorId record.quantity (OpRun.sound hmark hs) hq
        have hto₁ := Machine.Run.trans hmark hrun₁
        obtain ⟨e₂, he₂, hrun₂⟩ := unfill_run (.bustTrade tradeId reason ts)
          (fun _ _ => rfl) record.restingId record.quantity (OpRun.sound hto₁ hs) hq
        simp only [he₁, he₂]
        have hto₂ := Machine.Run.trans hto₁ hrun₂
        exact Machine.Run.trans hto₂ (OpRun.step (.bust tradeId record reason ts) rfl
          (fun _ => trivial) (fun _ => rfl) trivial rfl)

theorem setSessionState_op (hc : ¬c) (s : SessionState) (ts : Int) (e : Engine D) :
    OpRun X w c (partOf (.setSessionState s ts)) ⟨e, none⟩ ⟨e.setSessionState X s ts, none⟩ := by
  unfold setSessionState
  split
  · exact .refl
  · split
    · exact .refl
    · have hsession : OpRun X w c (partOf (.setSessionState s ts)) ⟨e, none⟩
          ⟨{ e with currentState := s }.emit (.marketStatus s ts), none⟩ :=
        OpRun.step (.session s ts) trivial (fun _ => trivial) (fun h => absurd h hc) trivial rfl
      dsimp only
      split
      · exact Machine.Run.trans hsession (OpRun.step (.reference _) trivial (fun _ => trivial)
          (fun _ => rfl) trivial rfl)
      · exact hsession

theorem unlockLimit_op (hc : ¬c) (ts : Int) (e : Engine D) :
    OpRun X w c (partOf (.unlockLimit ts)) ⟨e, none⟩ ⟨e.unlockLimit ts, none⟩ := by
  unfold unlockLimit
  split
  · exact .refl
  · exact OpRun.step (.session .continuous ts) trivial (fun _ => trivial) (fun h => absurd h hc)
      trivial rfl

end ExchangeSim
