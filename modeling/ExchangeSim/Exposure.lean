import ExchangeSim.Blotter
import ExchangeSim.Conservation

/-!
How far a position can go. A fill moves a position by what it takes off an open order, so the
position an account would have if all its orders on one side traded never grows but by an order
that enters or is modified.
-/

namespace ExchangeSim

open Engine Function Option Move

variable {D : Type} {X : Exchange D} {w c : Prop} {W : World D} {account : Nat} {s : Side}
  {o bid ask a r order : Order} {e : Engine D} {q ts price : Int} {V : World D} {req : OrderRequest}
  {m : Move D}

def Order.exposure (o : Order) : Int :=
  if 0 < o.displayQty then max o.remainingQuantity (o.totalQty - o.filledQuantity)
  else o.remainingQuantity

def Order.exposureOf (account : Nat) (s : Side) (o : Order) : Int :=
  if o.accountId = account ∧ o.side = s then o.exposure else 0

def Order.shareOf (account : Nat) (s : Side) (q : Int) (o : Order) : Int :=
  if o.accountId = account ∧ o.side = s then q else 0

namespace Order

theorem exposure_nonneg (h : 0 ≤ o.remainingQuantity) : 0 ≤ o.exposure := by
  unfold exposure
  split
  · exact h.trans (le_max_left _ _)
  · exact h

theorem exposureOf_nonneg (h : 0 ≤ o.remainingQuantity) (account : Nat) (s : Side) :
    0 ≤ o.exposureOf account s := by
  unfold exposureOf
  split
  · exact exposure_nonneg h
  · exact le_rfl

theorem exposure_fill (o : Order) (q : Int) : (o.fill q).exposure = o.exposure - q := by
  unfold exposure fill
  dsimp only
  split <;> omega

theorem exposureOf_fill (o : Order) (q : Int) (account : Nat) (s : Side) :
    (o.fill q).exposureOf account s = o.exposureOf account s - o.shareOf account s q := by
  by_cases h : o.accountId = account ∧ o.side = s
  · have h' : (o.fill q).accountId = account ∧ (o.fill q).side = s := h
    rw [exposureOf, exposureOf, shareOf, if_pos h, if_pos h, if_pos h', exposure_fill]
  · have h' : ¬((o.fill q).accountId = account ∧ (o.fill q).side = s) := h
    rw [exposureOf, exposureOf, shareOf, if_neg h, if_neg h, if_neg h', sub_zero]

theorem exposure_reveal (hzero : o.remainingQuantity = 0) (hnext : o.hasNextTranche = true) :
    ({ o with remainingQuantity := o.nextTranche } : Order).exposure = o.exposure := by
  obtain ⟨hdisplay, htotal⟩ := hasNextTranche_iff.mp hnext
  simp only [exposure, nextTranche]
  omega

theorem exposure_of_done (hzero : o.remainingQuantity - q = 0)
    (hnext : ¬(o.fill q).hasNextTranche = true) : o.exposure = q := by
  have hno := mt hasNextTranche_iff.mpr hnext
  simp only [fill] at hno
  unfold exposure
  split <;> omega

theorem exposureOf_settled (o : Order) (q : Int) (account : Nat) (s : Side) :
    (o.settled q).elim 0 (exposureOf account s) =
      o.exposureOf account s - o.shareOf account s q := by
  unfold settled
  split
  next hzero =>
    split
    next hnext =>
      rw [← exposureOf_fill]
      have he := exposure_reveal hzero hnext
      simp only [elim_some, exposureOf, he]
    next hnext =>
      simp [exposureOf, shareOf, exposure_of_done hzero hnext]
  next => exact exposureOf_fill o q account s

theorem exposureOf_triggered (o : Order) (account : Nat) (s : Side) :
    o.triggered.exposureOf account s = o.exposureOf account s := by
  unfold triggered
  split <;> rfl

end Order

theorem signed_le_shareOf (o : Order) (hq : 0 ≤ q) (account : Nat) (s : Side) :
    s.signed (if o.accountId = account then o.side.signed q else 0) ≤ o.shareOf account s q := by
  unfold Order.shareOf
  by_cases ha : o.accountId = account
  · cases s <;> cases hs : o.side <;> simp [ha, Side.signed] <;> omega
  · cases s <;> simp [ha, Side.signed]

theorem Side.signed_add (s : Side) (p q : Int) : s.signed (p + q) = s.signed p + s.signed q := by
  cases s <;> simp [Side.signed]
  omega

/-! The positions in the course of an operation. -/

def Exchange.Tracks (X : Exchange D) (account : Nat) : Prop :=
  0 < account ∧ account < X.maxAccounts

def World.exposure (account : Nat) (s : Side) (W : World D) : Int :=
  tally (Order.exposureOf account s) W.view W.engine.nextOrderId

/-- How far the position goes towards a side if all the orders there trade. -/
def World.utmost (account : Nat) (s : Side) (W : World D) : Int :=
  s.signed (W.engine.positions account) + W.exposure account s

/-- The moves that let no order in and give no order more to trade. -/
def Move.spends : Move D → Bool
  | .accept .. => false
  | .pull .. => false
  | .amend .. => false
  | .unfill .. => false
  | .bust .. => false
  | _ => true

theorem Move.spends_of_routed (h : m.routed = true) : m.spends = true := by
  cases m <;> first | rfl | simp [routed, landing, matching] at h

theorem standing_closeResting (ts : Int) (f : FillResult) (resting : Order) (e : Engine D) :
    (e.closeResting ts f resting).standing = e.standing := by
  rw [← standing_sheet, sheet_closeResting]
  split <;> simp [standing_reveals, standing_sheet]

theorem standing_auctionAdvance (o : Order) (next : Option Nat) (ts : Int) (e : Engine D) :
    (e.auctionAdvance o next ts).2.standing = e.standing := by
  rw [← standing_sheet, sheet_auctionAdvance]
  split <;> simp [standing_reveals, standing_sheet]

theorem standing_bookFill (ts : Int) (order resting : Order) (f : FillResult) (reported : Int)
    (e : Engine D) : (e.bookFill X ts order resting f reported).standing =
      e.standing.trade X order resting f.price f.quantity ts := by
  unfold bookFill
  rw [standing_closeResting, (posts_bookTrade ts _ f _ _).standing]
  rfl

theorem standing_bookCross (price ts : Int) (q : Int) (e : Engine D) (hb : bid.side = .buy)
    (hk : ask.side = .sell) :
    (e.bookCross X price ts bid ask q).standing = e.standing.trade X bid ask price q ts := by
  unfold bookCross
  rw [standing_auctionAdvance, standing_auctionAdvance, standing_auctionTrade price ts q e hb hk]

theorem signed_trade (ht : X.Tracks account) (S : Standing) (a r : Order) (hq : 0 ≤ q)
    (price ts : Int) (s : Side) : s.signed ((S.trade X a r price q ts).positions account) ≤
      s.signed (S.positions account) + a.shareOf account s q + r.shareOf account s q := by
  have ha := signed_le_shareOf a hq account s
  have hr := signed_le_shareOf r hq account s
  rw [Standing.trade]
  dsimp only
  rw [updateFill_apply ht.1 ht.2, updateFill_apply ht.1 ht.2, Side.signed_add, Side.signed_add]
  omega

theorem utmost_le_of_trade (ht : X.Tracks account) (hq : 0 ≤ q)
    (hstand : V.engine.standing = W.engine.standing.trade X a r price q ts)
    (hexp : V.exposure account s =
      W.exposure account s - a.shareOf account s q - r.shareOf account s q) :
    V.utmost account s ≤ W.utmost account s := by
  have hpos := signed_trade ht W.engine.standing a r hq price ts s
  rw [← hstand] at hpos
  simp only [standing] at hpos
  rw [World.utmost, World.utmost, hexp]
  omega

namespace World.Sound

theorem view_lt (h : W.Sound X w) {id : Nat} (ho : W.view id = some o) :
    id < W.engine.nextOrderId := by
  obtain ⟨hmem, rfl⟩ := (byId_eq_some h.nodup).mp ho
  refine (h.holds.owns.assigned o.id ?_).2
  rw [Holdings.ids_eq, ← List.map_append]
  exact List.mem_map_of_mem hmem

section

variable (h : W.Sound X True)

include h

theorem remaining_nonneg {id : Nat} (ho : W.view id = some o) :
    0 ≤ o.remainingQuantity := by
  obtain ⟨hmem, -⟩ := (byId_eq_some h.nodup).mp ho
  rcases List.mem_append.mp hmem with hfl | hin
  · exact h.flight o (by simpa using hfl) trivial
  · simp only [Holdings.orders, List.mem_append] at hin
    rcases hin with (hin | hin) | (hin | hin) <;> exact (h.holds.remaining_pos hin trivial).le

theorem exposure_nonneg (account : Nat) (s : Side) :
    0 ≤ W.exposure account s :=
  tally_nonneg fun _ _ hv => Order.exposureOf_nonneg (h.remaining_nonneg hv) account s

omit h in
theorem exposure_update (h : W.Sound X w) (ho : W.view o.id = some o) (o' : Option Order)
    (account : Nat) (s : Side) :
    tally (Order.exposureOf account s) (update W.view o.id o') W.engine.nextOrderId =
      W.exposure account s - o.exposureOf account s + o'.elim 0 (Order.exposureOf account s) := by
  rw [tally_update (h.view_lt ho), ho]
  rfl

omit h in
theorem exposure_trade (h : W.Sound X w) (ha : W.view a.id = some a) (hr : W.view r.id = some r)
    (hne : a.id ≠ r.id) (a' r' : Option Order) (account : Nat) (s : Side) :
    tally (Order.exposureOf account s)
      (update (update W.view r.id r') a.id a') W.engine.nextOrderId =
      W.exposure account s - r.exposureOf account s + r'.elim 0 (Order.exposureOf account s) -
        a.exposureOf account s + a'.elim 0 (Order.exposureOf account s) := by
  rw [tally_update (h.view_lt ha), h.exposure_update hr, Function.update_of_ne hne, ha]
  rfl

theorem utmost_fill (ht : X.Tracks account) {resting : Order} {f : FillResult}
    {left reported : Int} (hg : Move.guard X (.fill ts order resting f left reported) W)
    (hx : Move.exact (D := D) (.fill ts order resting f left reported)) :
    (Move.run X (.fill ts order resting f left reported) W).utmost account s ≤
      W.utmost account s := by
  obtain ⟨hfl, hm⟩ := id hg
  obtain ⟨hq, -, -, hleft⟩ := hx
  obtain ⟨hrest, hside, -, -⟩ := h.rests_of_meets hm
  have hne : order.id ≠ resting.id :=
    World.id_ne (h.view_flight hfl) (h.view_rests hrest)
      (by rw [hside]; exact order.side.opposite_ne.symm)
  have hstand := standing_bookFill (X := X) ts order resting f reported W.engine
  refine utmost_le_of_trade ht hq.le hstand ?_
  have hfill := Order.exposureOf_fill order f.quantity account s
  rw [Order.fill, ← hleft] at hfill
  have hexp := h.exposure_trade (h.view_flight hfl) (h.view_rests hrest) hne
    (some { order with
      filledQuantity := order.filledQuantity + f.quantity
      remainingQuantity := left }) (resting.settled f.quantity) account s
  rw [Order.exposureOf_settled, Option.elim_some, hfill] at hexp
  rw [World.exposure, h.view_run hg]
  refine (congrArg (tally _ _) (congrArg Standing.nextOrderId hstand)).trans (hexp.trans ?_)
  omega

theorem utmost_cross (ht : X.Tracks account)
    (hg : Move.guard X (.cross price ts bid ask q) W)
    (hx : Move.exact (D := D) (.cross price ts bid ask q)) :
    (Move.run X (.cross price ts bid ask q) W).utmost account s ≤ W.utmost account s := by
  obtain ⟨-, hbid, hbuy, -, hask, hsell, -⟩ := id hg
  have hne : ask.id ≠ bid.id :=
    World.id_ne (h.view_rests hask) (h.view_rests hbid) (by simp [hbuy, hsell])
  have hstand := standing_bookCross (X := X) price ts q W.engine hbuy hsell
  refine utmost_le_of_trade ht hx.1.le hstand ?_
  have hexp := h.exposure_trade (h.view_rests hask) (h.view_rests hbid) hne (ask.settled q)
    (bid.settled q) account s
  rw [Order.exposureOf_settled, Order.exposureOf_settled] at hexp
  rw [World.exposure, h.view_run hg]
  refine (congrArg (tally _ _) (congrArg Standing.nextOrderId hstand)).trans (hexp.trans ?_)
  omega

omit h in
theorem utmost_replace (h : W.Sound X w) {o' : Option Order} (ho : W.view o.id = some o)
    (hview : V.view = Function.update W.view o.id o')
    (hstand : V.engine.standing = W.engine.standing)
    (hle : o'.elim 0 (Order.exposureOf account s) ≤ o.exposureOf account s) :
    V.utmost account s ≤ W.utmost account s := by
  have hpos : V.engine.positions = W.engine.positions := congrArg Standing.positions hstand
  have hnext : V.engine.nextOrderId = W.engine.nextOrderId :=
    congrArg Standing.nextOrderId hstand
  have hexp := h.exposure_update ho o' account s
  rw [World.utmost, World.utmost, hpos, World.exposure, hview, hnext, hexp]
  omega

theorem utmost_leave (ho : W.view o.id = some o)
    (hview : V.view = Function.update W.view o.id none)
    (hstand : V.engine.standing = W.engine.standing) (account : Nat) (s : Side) :
    V.utmost account s ≤ W.utmost account s :=
  h.utmost_replace ho hview hstand (Order.exposureOf_nonneg (h.remaining_nonneg ho) account s)

theorem utmost_enter (hfl : W.flight = some o)
    (hview : V.view = if W.engine.levelPool.allocate.isNone then Function.update W.view o.id none
      else W.view) (hstand : V.engine.standing = W.engine.standing) (account : Nat) (s : Side) :
    V.utmost account s ≤ W.utmost account s := by
  split at hview
  · exact h.utmost_leave (h.view_flight hfl) hview hstand account s
  · have hpos : V.engine.positions = W.engine.positions := congrArg Standing.positions hstand
    have hnext : V.engine.nextOrderId = W.engine.nextOrderId :=
      congrArg Standing.nextOrderId hstand
    rw [World.utmost, World.utmost, hpos, World.exposure, hview, hnext, World.exposure]

theorem utmost_run (ht : X.Tracks account) (hg : m.guard X W) (hx : m.exact)
    (hm : m.spends = true) : (m.run X W).utmost account s ≤ W.utmost account s := by
  have hview := h.view_run hg
  have hst := fun h => m.run_standing (X := X) h W
  cases m with
  | fill ts order resting f left reported => exact h.utmost_fill ht hg hx
  | cross price ts bid ask q => exact h.utmost_cross ht hg hx
  | adjust order remaining =>
    have hsame : remaining = order.remainingQuantity := hx
    subst hsame
    exact h.utmost_replace (h.view_flight hg) hview rfl le_rfl
  | cancelResting ts order resting f notify =>
    exact h.utmost_leave (h.view_rests hg.2.1) hview (hst rfl) account s
  | drop order ts reason => exact h.utmost_leave (h.view_flight hg) hview (hst rfl) account s
  | finish order => exact h.utmost_leave (h.view_flight hg.1) hview rfl account s
  | rest | park => exact h.utmost_enter hg.1 hview (hst rfl) account s
  | trigger stop =>
    have hwait := nextTriggeredStop_waits (h.holds_none hg.1) hg.2.2
    exact h.utmost_replace (h.view_waits hwait) hview (hst rfl)
      (stop.exposureOf_triggered account s).le
  | cancel order ts reason =>
    exact h.utmost_leave (h.view_rests hg.2) hview (hst rfl) account s
  | cancelStop order ts reason =>
    exact h.utmost_leave (h.view_waits hg.2) hview (hst rfl) account s
  | note | markBusted | topOfBook | session | reference | hook => exact le_rfl
  | _ => simp [spends] at hm

end

end World.Sound

/-! The operations. -/

def Engine.exposure (account : Nat) (s : Side) (e : Engine D) : Int :=
  (e.linked.map (Order.exposureOf account s)).sum

def Engine.utmost (account : Nat) (s : Side) (e : Engine D) : Int :=
  s.signed (e.positions account) + e.exposure account s

theorem tally_byId {os : List Order} {n : Nat} (hn : (os.map (·.id)).Nodup)
    (hlt : ∀ o ∈ os, o.id < n) (f : Order → Int) : tally f (byId os) n = (os.map f).sum := by
  induction os with
  | nil => exact tally_none
  | cons o os ih =>
    obtain ⟨hout, hn⟩ := List.nodup_cons.mp hn
    rw [byId_cons, tally_update (hlt o (by simp)), byId_eq_none hout,
      ih hn fun x hx => hlt x (by simp [hx]), List.map_cons, List.sum_cons]
    simp only [elim_none, elim_some]
    omega

theorem World.Sound.exposure_landed (h : World.Sound X w ⟨e, none⟩) (account : Nat) (s : Side) :
    World.exposure account s ⟨e, none⟩ = e.exposure account s := by
  refine tally_byId h.nodup (fun o ho => ?_) (Order.exposureOf account s)
  exact h.view_lt ((byId_eq_some h.nodup).mpr ⟨ho, rfl⟩)

theorem World.Sound.utmost_landed (h : World.Sound X w ⟨e, none⟩) (account : Nat) (s : Side) :
    World.utmost account s ⟨e, none⟩ = e.utmost account s := by
  rw [World.utmost, h.exposure_landed, Engine.utmost]

theorem buildOrder_exposure (slot : SlotResidue)
    (h : firstFailure (e.newOrderChecks X req) = none) :
    (e.buildOrder X req slot).exposure = req.quantity := by
  have hshow := displayQty_le_of_checks h
  simp only [Order.exposure, buildOrder, gt_iff_lt]
  split
  · omega
  · rfl

theorem position_of_checks {L : Int} (hL : 0 < L) (hon : X.isPositionCheckEnabled e.derived = true)
    (hlimit : X.getPositionLimit e.derived req.accountId = L)
    (h : firstFailure (e.newOrderChecks X req) = none) (ht : X.Tracks req.accountId) :
    req.side.signed (e.positions req.accountId) + req.quantity ≤ L := by
  have hpos := firstFailure_eq_none h
    (c := (X.isPositionCheckEnabled e.derived && wouldExceedLimit X.maxAccounts e.positions
      req.accountId req.side req.quantity (X.getPositionLimit e.derived req.accountId),
      .positionLimitExceeded)) (by simp [newOrderChecks])
  have hin : ¬(req.accountId = 0 ∨ req.accountId ≥ X.maxAccounts) := by
    have := ht.1
    have := ht.2
    omega
  have hL' : ¬L ≤ 0 := by omega
  simp only [hon, hlimit, Bool.true_and, wouldExceedLimit, if_neg hin, if_neg hL'] at hpos
  cases hs : req.side <;> rw [hs] at hpos <;>
    simp only [decide_eq_false_iff_not, not_lt, gt_iff_lt, Side.signed] at hpos ⊢ <;> omega

/-- The requests that leave room for the open orders of an account: with them and the position, an
accepted or modified order is within the limit, or it adds nothing to them. -/
def Engine.leavesRoom (X : Exchange D) (L : Int) (e : Engine D) : Action → Prop
  | .newOrder req => firstFailure (e.newOrderChecks X req) = none → X.Tracks req.accountId →
    e.exposure req.accountId req.side = 0 ∨
      e.utmost req.accountId req.side + req.quantity ≤ L
  | .modifyOrder req => ∀ order ∈ e.linked, order.id = req.orderId →
    e.rests order ∧ order.filledQuantity ≤ req.newQuantity ∧
      ((order.replaced req).exposure ≤ order.exposure ∨
        e.utmost order.accountId order.side +
          ((order.replaced req).exposure - order.exposure) ≤ L)
  | .cancelOrder .. => True
  | .executeAuction .. => True
  | _ => False

instance (X : Exchange D) (account : Nat) : Decidable (X.Tracks account) :=
  inferInstanceAs (Decidable (_ ∧ _))

instance (X : Exchange D) (L : Int) (e : Engine D) : (a : Action) → Decidable (e.leavesRoom X L a)
  | .newOrder req => inferInstanceAs (Decidable (firstFailure (e.newOrderChecks X req) = none →
      X.Tracks req.accountId → _ ∨ _))
  | .modifyOrder req => inferInstanceAs (Decidable (∀ order ∈ e.linked, order.id = req.orderId →
      order ∈ ordersIn (e.book order.side) ∧ _ ∧ (_ ∨ _)))
  | .cancelOrder .. => .isTrue trivial
  | .executeAuction .. => .isTrue trivial
  | .triggerExpiry .. => .isFalse id
  | .massCancel .. => .isFalse id
  | .massCancelAll .. => .isFalse id
  | .restoreOrder .. => .isFalse id
  | .bustTrade .. => .isFalse id
  | .setSessionState .. => .isFalse id
  | .unlockLimit .. => .isFalse id
  | .publishIndicativePrice .. => .isFalse id
  | .applyImpliedFills .. => .isFalse id

structure World.Within (X : Exchange D) (L : Int) (W : World D) : Prop where
  sound : W.Sound X True
  bound : ∀ account, X.Tracks account → ∀ s, W.utmost account s ≤ L

namespace World.Within

variable {L : Int}

theorem step (h : W.Within X L) (hg : m.guard X W) (hx : m.exact) (hm : m.spends = true) :
    (m.run X W).Within X L :=
  ⟨h.sound.run hg fun _ => hx,
    fun account ht s => (h.sound.utmost_run ht hg hx hm).trans (h.bound account ht s)⟩

theorem keeps {P : Move D → Bool} (hP : ∀ m : Move D, P m = true → m.spends = true)
    {r : Outcome D (Engine D)} (hrun : OpOutcome X True c P W r) (h : W.Within X L) :
    Outcome.Keeps (World.Within X L) r := by
  have hk := hrun.keeps (I := fun V => ∀ account, X.Tracks account → ∀ s, V.utmost account s ≤ L)
    h.sound h.bound fun m V hV hI hg hl hm account ht s =>
      (hV.utmost_run ht hg (hl.exact trivial) (hP m hm)).trans (hI account ht s)
  cases r with
  | ok e => exact ⟨hk.1, hk.2⟩
  | error r =>
    obtain ⟨fl, hs, hb⟩ := hk
    exact ⟨fl, hs, hb⟩

theorem accept (h : World.Within X L ⟨e, none⟩) {slot : SlotResidue} {pool : ObjectPool SlotResidue}
    (hL : 0 < L) (hon : X.isPositionCheckEnabled e.derived = true)
    (hlimit : X.getPositionLimit e.derived req.accountId = L)
    (hg : guard X (.accept req slot pool) ⟨e, none⟩) (hok : e.leavesRoom X L (.newOrder req)) :
    (run X (.accept req slot pool) ⟨e, none⟩).Within X L := by
  obtain ⟨-, -, hchecks, -⟩ := id hg
  refine ⟨h.sound.run hg fun _ => trivial, fun account ht s => ?_⟩
  let V := run X (.accept req slot pool) ⟨e, none⟩
  have hnext : V.engine.nextOrderId = e.nextOrderId + 1 := by
    change max e.nextOrderId (e.nextOrderId + 1) = _
    omega
  have hexp : V.exposure account s = World.exposure account s ⟨e, none⟩ +
      (e.buildOrder X req slot).exposureOf account s := by
    rw [World.exposure, h.sound.view_run hg, hnext]
    exact tally_push _
  have hut : V.utmost account s = World.utmost account s ⟨e, none⟩ +
      (e.buildOrder X req slot).exposureOf account s := by
    rw [World.utmost, hexp, World.utmost, add_assoc]
    rfl
  have hold := h.bound account ht s
  rw [hut]
  by_cases hown : req.accountId = account ∧ req.side = s
  · obtain ⟨rfl, rfl⟩ := hown
    have hself : (e.buildOrder X req slot).exposureOf req.accountId req.side = req.quantity :=
      (if_pos ⟨rfl, rfl⟩).trans (buildOrder_exposure slot hchecks)
    rw [hself, h.sound.utmost_landed]
    rcases hok hchecks ht with hzero | hroom
    · rw [Engine.utmost, hzero, add_zero]
      exact position_of_checks hL hon hlimit hchecks ht
    · exact hroom
  · have hother : (e.buildOrder X req slot).exposureOf account s = 0 := if_neg hown
    rw [hother, add_zero]
    exact hold

theorem replace (h : World.Within X L ⟨e, none⟩) {req : ModifyRequest} (order' : Order)
    (hrest : e.rests order) (ha : order'.accountId = order.accountId)
    (hs : order'.side = order.side) (he : order'.exposure = (order.replaced req).exposure)
    (hroom : (order.replaced req).exposure ≤ order.exposure ∨
      e.utmost order.accountId order.side +
        ((order.replaced req).exposure - order.exposure) ≤ L) (hsound : V.Sound X True)
    (hview : V.view = Function.update (World.view ⟨e, none⟩) order.id (some order'))
    (hstand : V.engine.standing = e.standing) : V.Within X L := by
  refine ⟨hsound, fun account ht s => ?_⟩
  have hold := h.bound account ht s
  have hpos : V.engine.positions = e.positions := congrArg Standing.positions hstand
  have hnext : V.engine.nextOrderId = e.nextOrderId := congrArg Standing.nextOrderId hstand
  have hexp := h.sound.exposure_update (h.sound.view_rests hrest) (some order') account s
  have hut : V.utmost account s = World.utmost account s ⟨e, none⟩ +
      (order'.exposureOf account s - order.exposureOf account s) := by
    rw [World.utmost, World.exposure, hview, hnext, hexp, hpos, World.utmost, Option.elim_some]
    dsimp only
    omega
  rw [hut]
  by_cases hown : order.accountId = account ∧ order.side = s
  · obtain ⟨rfl, rfl⟩ := hown
    have hnew : order'.exposureOf order.accountId order.side = (order.replaced req).exposure := by
      rw [Order.exposureOf, if_pos ⟨ha, hs⟩, he]
    have hself : order.exposureOf order.accountId order.side = order.exposure :=
      if_pos ⟨rfl, rfl⟩
    rw [hnew, hself]
    rcases hroom with hless | hroom
    · omega
    · rwa [h.sound.utmost_landed]
  · have hnew : order'.exposureOf account s = 0 := by
      rw [Order.exposureOf, ha, hs]
      exact if_neg hown
    have hself : order.exposureOf account s = 0 := if_neg hown
    omega

theorem rate (h : World.Within X L ⟨e, none⟩) (t : RateTracker) :
    World.Within X L ⟨{ e with rateTracker := t }, none⟩ := by
  have hnote := h.step (m := .note t []) (by simp [Move.guard]) trivial rfl
  simpa [run] using hnote

end World.Within

section operations

variable {L : Int} (hL : 0 < L) (hon : ∀ d, X.isPositionCheckEnabled d = true)
  (hlimit : ∀ d account, X.getPositionLimit d account = L)

include hL hon hlimit in
theorem newOrder_within (fuel : Nat) (h : World.Within X L ⟨e, none⟩)
    (haction : currentAction e.journal = some (.newOrder req))
    (hok : e.leavesRoom X L (.newOrder req)) :
    Outcome.Keeps (World.Within X L) (e.newOrder X fuel req) := by
  rcases newOrder_cases (X := X) fuel req e with
    ⟨t, reason, heq⟩ | ⟨t, slot, pool, hpool, hchecks, heq⟩
  · rw [heq]
    exact h.step (m := .note t [.event (.orderRejected req.clientOrderId req.timestamp reason)])
      (by simp [Move.guard, JournalEntry.quiet]) trivial rfl
  · rw [heq]
    have hg : guard X (.accept req slot pool) ⟨{ e with rateTracker := t }, none⟩ :=
      ⟨rfl, hpool, hchecks, haction⟩
    have haccept := (h.rate t).accept hL (hon _) (hlimit _ _) hg hok
    refine World.Within.keeps (c := False) (fun _ => spends_of_routed)
      (routeOrder_run (fun _ => id) fuel haccept.sound False.elim False.elim rfl
        (buildOrder_price_of_stop slot) (buildOrder_remaining_pos slot hchecks).ne') haccept

theorem modifyOrder_within (fuel : Nat) {req : ModifyRequest} (h : World.Within X L ⟨e, none⟩)
    (hok : e.leavesRoom X L (.modifyOrder req)) :
    Outcome.Keeps (World.Within X L) (e.modifyOrder X fuel req) := by
  have hH : e.holdings.Sound X True [] := h.sound.holds_none rfl
  rcases modifyOrder_cases fuel req hH with
    ⟨t, reason, heq⟩ | ⟨t, order, hmem, hid, ⟨hamend, heq⟩ | ⟨-, heq⟩⟩
  · rw [heq]
    exact h.step (m := .note t
      [.event (.orderModifyRejected req.orderId req.clientOrderId req.timestamp reason)])
      (by simp [Move.guard, JournalEntry.quiet]) trivial rfl
  · obtain ⟨hrest, -, hroom⟩ := hok order hmem hid
    have hg := guard_amend hamend hrest t
    rw [heq]
    exact (h.rate t).replace { order with
        quantity := req.newQuantity
        remainingQuantity := req.newQuantity - order.filledQuantity } hrest rfl rfl rfl hroom ((h.rate t).sound.run hg fun _ => trivial)
      ((h.rate t).sound.view_run hg) (Move.run_standing (X := X) (m := .amend order req) rfl ⟨_, none⟩)
  · obtain ⟨hrest, hfilled, hroom⟩ := hok order hmem hid
    have hrest' : ({ e with rateTracker := t } : Engine D).rests order := hrest
    have htype : order.type = .limit := type_of_rests hH hrest
    have hg : guard X (.pull order req) ⟨{ e with rateTracker := t }, none⟩ := ⟨rfl, hrest⟩
    have hpull := (h.rate t).replace (order.replaced req) hrest rfl rfl rfl hroom
      ((h.rate t).sound.run hg fun _ => hfilled) ((h.rate t).sound.view_run hg)
      (Move.run_standing rfl ⟨_, none⟩)
    rw [heq, replaceOrder_eq fuel hrest']
    exact World.Within.keeps (fun _ => spends_of_routed)
      (matchAndTrigger_run (fun _ => routed_of_landing) fuel req.timestamp hpull.sound
        False.elim False.elim (.inl htype)) hpull

include hL hon hlimit in
theorem perform_within (fuel : Nat) {a : Action} (h : World.Within X L ⟨e, none⟩)
    (hok : e.leavesRoom X L a) : Outcome.Keeps (World.Within X L) (e.perform X fuel a) := by
  have hrec : World.Within X L ⟨e.record a, none⟩ :=
    h.step (m := .note e.rateTracker [.action a]) (by simp [Move.guard, JournalEntry.quiet])
      trivial rfl
  have hplain : (∀ m : Move D, m.partOf a = true → m.spends = true) → e.Admits True False a →
      Outcome.Keeps (World.Within X L) (e.perform X fuel a) := fun hm ha =>
    World.Within.keeps hm (perform_run (c := False) fuel h.sound False.elim False.elim ha) h
  cases a with
  | newOrder req => exact newOrder_within hL hon hlimit fuel hrec (currentAction_record _ e) hok
  | modifyOrder req => exact modifyOrder_within fuel hrec hok
  | cancelOrder | executeAuction =>
    exact hplain (fun m hm => by cases m <;> first | rfl | simp [partOf] at hm) trivial
  | _ => exact hok.elim

end operations

/-- With the position check on and one limit for every account, no position goes beyond the limit
in any run whose requests leave room for the open orders of their account. -/
theorem reach_position_within (X : Exchange D) {L : Int} (hL : 0 < L)
    (hon : ∀ d, X.isPositionCheckEnabled d = true)
    (hlimit : ∀ d account, X.getPositionLimit d account = L) (config : EngineConfig) (derived : D)
    (slots : Nat → SlotResidue) {e : Engine D}
    (h : Reach X (Engine.leavesRoom X L) (Engine.init X config derived slots) e)
    {account : Nat} (ht : X.Tracks account) : |e.positions account| ≤ L := by
  have hsound := init_sound X True config derived slots
  have hinit : World.Within X L ⟨init X config derived slots, none⟩ := by
    refine ⟨hsound, fun account _ s => ?_⟩
    rw [hsound.utmost_landed]
    cases s <;> simp [utmost, exposure, linked, init, Side.signed,
      hL.le]
  have hin := (reach_keeps hinit
    (fun e a fuel ha hI => perform_within hL hon hlimit fuel hI ha) h).1
  have hlong := hin.bound account ht .buy
  have hshort := hin.bound account ht .sell
  have hbuy := hin.sound.exposure_nonneg account .buy
  have hsell := hin.sound.exposure_nonneg account .sell
  simp only [World.utmost, Side.signed] at hlong hshort
  rw [abs_le]
  omega

def limitedExchange : Exchange Unit :=
  { sampleExchange with
    isPositionCheckEnabled := fun _ => true
    getPositionLimit := fun _ _ => 10 }

def roomyActions : List Action :=
  [.newOrder (limitRequest .buy 100 6),
    .newOrder { limitRequest .sell 100 6 with accountId := 2 },
    .newOrder (limitRequest .buy 99 4),
    .modifyOrder ⟨3, 0, 99, 3, 2⟩, .cancelOrder 3 3, .executeAuction 100 4]

theorem reach_position_within_sample : limitedExchange.Tracks 1 ∧
    |(runAll limitedExchange roomyActions
      (sampleStart limitedExchange sampleConfig ())).positions 1| ≤ 10 := by
  have htracks : limitedExchange.Tracks 1 := ⟨by decide, by decide⟩
  have hreach : Reach limitedExchange (leavesRoom limitedExchange 10)
      (sampleStart limitedExchange sampleConfig ())
      (runAll limitedExchange roomyActions (sampleStart limitedExchange sampleConfig ())) :=
    reach_passes (by decide +kernel) (by decide +kernel)
  exact ⟨htracks, reach_position_within limitedExchange (by decide) (fun _ => rfl)
    (fun _ _ => rfl) sampleConfig () (fun _ => {}) hreach htracks⟩

/-- Account 1 bids twice for 10, each time with no position yet, and both bids trade. -/
def crowdedActions : List Action :=
  [.newOrder (limitRequest .buy 100 10), .newOrder (limitRequest .buy 100 10),
    .newOrder { limitRequest .sell 100 10 with accountId := 2 },
    .newOrder { limitRequest .sell 100 10 with accountId := 3 }]

/-- The check of each request sees the position but not the open orders. -/
theorem crowded_beyond_limit : ¬∀ e : Engine Unit,
    Reach limitedExchange (fun _ a => a.dealing) (sampleStart limitedExchange sampleConfig ()) e →
      ∀ account, limitedExchange.Tracks account → |e.positions account| ≤ 10 := by
  intro h
  have hreach : Reach limitedExchange (fun _ a => a.dealing)
      (sampleStart limitedExchange sampleConfig ())
      (runAll limitedExchange crowdedActions (sampleStart limitedExchange sampleConfig ())) :=
    reach_runAll (by simp [crowdedActions, Action.dealing]) (by decide +kernel)
  have hbound := h _ hreach 1 ⟨by decide, by decide⟩
  have hlong : (runAll limitedExchange crowdedActions
      (sampleStart limitedExchange sampleConfig ())).positions 1 = 20 := by decide +kernel
  rw [hlong] at hbound
  exact absurd hbound (by decide)

end ExchangeSim
