import ExchangeSim.Clearing
import ExchangeSim.ImpliedBust
import ExchangeSim.Postings
import ExchangeSim.Progress
import ExchangeSim.Triggers

namespace ExchangeSim

open Engine List JournalEntry

variable {D : Type} {X : Exchange D} {w : Prop} {e e' e₁ : Engine D} {o order : Order} {fuel : Nat}
  {ts : Int} {req : ModifyRequest}

def DepthUpdate.Tells (d : DepthUpdate) (book : Side → List PriceLevel) : Prop :=
  if d.action = .remove then ∀ l ∈ book d.side, l.price ≠ d.price
  else ∃ l ∈ book d.side,
    l.price = d.price ∧ l.totalQuantity = d.totalQty ∧ l.orderCount = d.orderCount

def JournalEntry.Inert (book : Side → List PriceLevel) : JournalEntry → Prop
  | .event (.trade _) => False
  | .event (.depthUpdate d) => d.Tells book
  | _ => True

/-- The order does not come to rest after matching. -/
def Order.Leaves (o : Order) (full : Prop) : Prop :=
  o.remainingQuantity = 0 ∨ ¬o.Lasts ∨ full

/-- Between `e` and `e'` nothing is told that is not true of `book`. -/
def Engine.Writes (book : Side → List PriceLevel) (e e' : Engine D) : Prop :=
  ∃ es, e'.journal = e.journal ++ es ∧ ∀ x ∈ es, x.Inert book

/-- From `e` to `e'` the holdings become `h` and no stop becomes due. -/
structure Engine.Hushes (book : Side → List PriceLevel) (h : Holdings) (e e' : Engine D) :
    Prop where
  holdings : e'.holdings = h
  view : e'.stopView = e.stopView
  writes : e.Writes book e'

section

variable {book : Side → List PriceLevel} {h : Holdings}

theorem Engine.Writes.trans (h : e.Writes book e₁) (h' : e₁.Writes book e') : e.Writes book e' := by
  obtain ⟨es, hes, hp⟩ := h
  obtain ⟨es', hes', hp'⟩ := h'
  refine ⟨es ++ es', by rw [hes', hes, List.append_assoc], fun x hx => ?_⟩
  exact (List.mem_append.mp hx).elim (hp x) (hp' x)

theorem Engine.Writes.emit (h : e.Writes book e₁) {ev : Event}
    (hev : (JournalEntry.event ev).Inert book) : e.Writes book (e₁.emit ev) :=
  h.trans ⟨[.event ev], rfl, by simpa using hev⟩

theorem Engine.Hushes.refl (e : Engine D) : e.Hushes book e.holdings e :=
  ⟨rfl, rfl, [], by simp, by simp⟩

namespace Engine.Hushes

variable (hh : e.Hushes book h e₁)

include hh

theorem tell {ev : Event} (hev : (JournalEntry.event ev).Inert book) :
    e.Hushes book h (e₁.emit ev) :=
  ⟨hh.holdings, hh.view, hh.writes.emit hev⟩

theorem quote (ts b a : Int) : e.Hushes book h (e₁.fireTopOfBookIfChanged ts b a) := by
  unfold fireTopOfBookIfChanged
  split
  · exact hh.tell trivial
  · exact hh

theorem release (o : Order) : e.Hushes book (h.release o) (e₁.release o) :=
  ⟨hh.holdings ▸ rfl, hh.view, hh.writes⟩

theorem drop (o : Order) (ts : Int) (reason : CancelReason) :
    e.Hushes book (h.release o) (e₁.dropOrder o ts reason) :=
  (hh.release o).tell trivial

theorem session (hsteps : SessionSteps X ts e₁ e') : e.Hushes book h e' := by
  induction hsteps with
  | refl => exact hh
  | tail _ hstep ih =>
    cases hstep with
    | status | report =>
      exact ⟨ih.holdings, ih.view, ih.writes.trans ⟨[_], rfl, by simp [Inert]⟩⟩
    | hook | reference => exact ⟨ih.holdings, ih.view, ih.writes⟩

theorem postMatch (hl : o.Leaves (h.levelPool.free = [])) (ts b a : Int) :
    e.Hushes book (h.release o) (e₁.postMatch o ts b a) := by
  rcases postMatch_cases o ts b a e₁ with
    ⟨-, heq⟩ | ⟨reason, heq⟩ | ⟨hne, ⟨hmarket, hioc, hfok⟩, heq⟩ <;> rw [heq]
  · exact (hh.release o).quote ts b a
  · exact (hh.drop o ts reason).quote ts b a
  · have hfull : e₁.levelPool.free = [] := (congrArg (·.levelPool.free) hh.holdings).trans
      ((hl.resolve_left hne).resolve_left (not_not.mpr ⟨hmarket, hioc, hfok⟩))
    have hinsert : e₁.insertIntoBook o ts = e₁.dropOrder o ts .levelPoolExhausted := by
      simp [insertIntoBook, ObjectPool.allocate, hfull]
    rw [hinsert]
    exact (hh.drop o ts .levelPoolExhausted).tell trivial

end Engine.Hushes

end

/-- A level pass that changes nothing is followed by an interruption. -/
def Engine.Halts (X : Exchange D) (e : Engine D) : Prop :=
  e.currentState = .lockLimit ∨ (!e.atUpperLimit && !e.atLowerLimit) = false ∨
    (e.currentState = .continuous ∧ e.viReferencePrice ≠ 0 ∧
      X.shouldTriggerVolatilityAuction e.derived e.lastTradePrice e.viReferencePrice = true)

theorem interrupted_iff : (e.interrupted X ts).1 = true ↔ e.Halts X := by
  unfold interrupted checkDailyLimitHit checkVolatilityInterruption Halts
  grind

/-- The first fill of the best level is a self-match. -/
def Engine.MeetsOwn (X : Exchange D) (e : Engine D) (o : Order) : Prop :=
  ∃ level deeper f rs resting, 0 < o.remainingQuantity ∧
    e.book o.side.opposite = level :: deeper ∧ o.allows level.price = true ∧
    (X.algo.matchLevel level o.remainingQuantity).results = f :: rs ∧ (f :: rs).length ≤ kMaxFills ∧
    findOrder f.restingOrder (e.book o.side.opposite) = some resting ∧
    X.isSelfMatch e.derived { o with remainingQuantity :=
        (X.algo.matchLevel level o.remainingQuantity).remaining }
      (resting.fill (filledBy resting.id (f :: rs))) = true

/-- `match_order` is done with the order before it trades, rests or cancels another. -/
def Engine.Drops (X : Exchange D) (e : Engine D) (o : Order) (full : Prop) : Prop :=
  (o.tif = .fok ∧ computeMatchableQty e.book o < o.remainingQuantity) ∨
    ((o.remainingQuantity ≤ 0 ∨ e.clearOf o) ∧ o.Leaves full) ∨
    (e.MeetsOwn X o ∧ (X.getSmpAction e.derived = .cancelNewest ∨
      ((X.getSmpAction e.derived).cancels = false ∧ e.Halts X ∧ o.Leaves full)))

/-- The operation ends in a state that meets `P`; without fuel it may not end. -/
def Outcome.Reaches (P : Engine D → Prop) (fuel : Nat) (r : Outcome D (Engine D)) : Prop :=
  (∃ e', r = .ok e' ∧ P e') ∨ (fuel = 0 ∧ ∃ err, r = .error err)

theorem Outcome.Reaches.mono {P Q : Engine D → Prop} {r : Outcome D (Engine D)}
    (h : r.Reaches P fuel) (hPQ : ∀ e, P e → Q e) : r.Reaches Q fuel :=
  h.imp_left fun ⟨e', hr, hP⟩ => ⟨e', hr, hPQ e' hP⟩

/-! What matching does after the first level pass is none of an operation that enters orders. -/

theorem tidy_of_sound (hH : e.holdings.Sound X w [o.id]) : World.Tidy ⟨e, some o⟩ where
  ids := hH.owns.nodup
  assigned id hid := (hH.owns.assigned id hid).2
  prices k s := (hH.shape k s).prices_nodup (k.strictBefore s)
  sides _ _ _ hx := hH.side_eq hx

theorem Posting.posted {S S' : Standing} (h : Posting X S S') : S.posted <+: S'.posted := by
  cases h with
  | nothing => exact prefix_rfl
  | _ => exact prefix_append _ _

section

variable {W W' : World D} (hd : Drifts X e (.massCancelAll 0) W W')

include hd

theorem drifts_trades : W.engine.trades <+: W'.engine.trades := by
  have hposted : ∀ e : Engine D, e.trades = e.standing.posted.filterMap trade? :=
    trades_filter fun _ => rfl
  induction hd with
  | refl => exact prefix_rfl
  | tail _ hstep ih =>
    refine ih.trans ?_
    rw [hposted, hposted]
    exact (hstep.posting trivial).posted.filterMap _

theorem drifts_absent {id : Nat} (ht : W.Tidy) (h : W.Carries (·.id ≠ id) (·.id ≠ id)) :
    W'.Carries (·.id ≠ id) (·.id ≠ id) := by
  have htrait : Trait (·.id ≠ id) := fun _ _ hcore hne heq => hne ((Order.id_of_core hcore).trans heq)
  have hup : Upholds X (·.id ≠ id) (·.id ≠ id) e (.massCancelAll 0) := by
    refine ⟨htrait, htrait, ?_, ?_, ?_, fun o hne _ => by rwa [Order.triggered_id], ?_, ?_⟩ <;>
      intro _ _ hcall <;> cases hcall.called
  induction hd with
  | refl => exact h
  | tail hd hstep ih => exact ih.drift (ht.drifts hd) hup hstep

end

theorem carries_applySmpAction {resting : Order} (f : FillResult) (ts : Int)
    (hH : e.holdings.Sound X w [o.id]) (hrests : e.rests resting)
    (hcancel : (X.getSmpAction e.derived).cancels = true)
    (hnew : X.getSmpAction e.derived ≠ .cancelNewest) :
    World.Carries (·.id ≠ resting.id) (·.id ≠ resting.id)
      ⟨(e.applySmpAction X o resting f ts).2, (e.applySmpAction X o resting f ts).1⟩ := by
  have hn := (hH.takeOut (k := .limit) hrests).owns.nodup
  simp only [cons_append, List.nodup_cons, List.mem_cons, not_or] at hn
  obtain ⟨hlvls, halive⟩ : (e.applySmpAction X o resting f ts).2.holdings.lvls =
      (e.holdings.takeOut .limit resting).lvls ∧
      ∀ x ∈ (e.applySmpAction X o resting f ts).1, x = o := by
    cases hact : X.getSmpAction e.derived <;>
      simp_all [SmpAction.cancels, applySmpAction, Holdings.release]
  have hgone : ∀ k s, ∀ x ∈ ordersIn ((e.applySmpAction X o resting f ts).2.shelf k s),
      x.id ≠ resting.id := fun k s x hx hid => hn.1.2 <|
    Holdings.mem_ids.mpr ⟨k, s, mem_idsIn.mpr ⟨x, hlvls ▸ hx, hid⟩⟩
  exact ⟨hgone .limit, hgone .stop, fun x hx _ hid => hn.1.1 (hid.symm.trans (halive x hx ▸ rfl))⟩

theorem processFills_trades {resting : Order} {f : FillResult} {rs : List FillResult}
    {r : Option Order × Engine D}
    (hfind : findOrder f.restingOrder (e.book o.side.opposite) = some resting)
    (hself : X.isSelfMatch e.derived o resting = false)
    (h : e.processFills X ts (f :: rs) o = .ok r) :
    ∃ t more, r.2.trades = e.trades ++ t :: more ∧ t.aggressorId = o.id := by
  have htrail : ∀ e : Engine D, e.trades = e.trail.filterMap trade? := fun e => by
    rw [trail_journal]
    exact trades_filter (fun _ => rfl) e
  rw [processFills] at h
  simp only [hfind, hself, Bool.false_eq_true, if_false] at h
  obtain ⟨es, hes, -⟩ := ((trades_closeResting ts f resting _).trans (trades_processFills h)).trail
  refine ⟨⟨f.price, f.quantity, o.id, resting.id, o.side, ts⟩, es.filterMap trade?, ?_, rfl⟩
  rw [htrail, hes, filterMap_append, ← htrail, trades_tape, trades_tape, tape_bookTrade,
    filterMap_append, List.append_assoc]
  rfl

theorem matchAndTrigger_loop (h : e.matchAndTrigger X fuel o ts = .ok e')
    (hfok : ¬(o.tif = .fok ∧ computeMatchableQty e.book o < o.remainingQuantity)) :
    ∃ alive e₁ e₂, e.matchLoop X ts fuel o = .ok (alive, e₁) ∧
      (∀ o₁ ∈ alive, e₂ = e₁.postMatch o₁ ts (e.bestPrice .buy) (e.bestPrice .sell)) ∧
      (alive = none → e₂ = e₁.fireTopOfBookIfChanged ts (e.bestPrice .buy) (e.bestPrice .sell)) ∧
      e₂.checkAndTriggerStops X fuel ts fuel = .ok e' := by
  obtain ⟨e₂, hmatch, hstops⟩ := matchAndTrigger_ok h
  obtain ⟨hno, -⟩ | ⟨alive, e₁, hloop, heq⟩ := matchOrder_ok hmatch
  · exact absurd hno hfok
  refine ⟨alive, e₁, e₂, hloop, ?_, ?_, hstops⟩
  · rintro o₁ ⟨⟩
    exact heq
  · rintro rfl
    exact heq

theorem matchAndTrigger_turn {level : PriceLevel} {deeper : List PriceLevel} {a : Action}
    (ht : World.Tidy ⟨e, some o⟩) (hturn : e.Turn o level deeper)
    (hfok : ¬(o.tif = .fok ∧ computeMatchableQty e.book o < o.remainingQuantity))
    (h : e.matchAndTrigger X (fuel + 1) o ts = .ok e') :
    (X.algo.matchLevel level o.remainingQuantity).results.length ≤ kMaxFills ∧
      ∃ alive e₁, e.pass X ts o level deeper = .ok (alive, e₁) ∧ World.Tidy ⟨e₁, alive⟩ ∧
        Drifts X e a ⟨e₁, alive⟩ ⟨e', none⟩ := by
  obtain ⟨alive₂, e₂, e₃, hloop, hpost, hquote, hstops⟩ := matchAndTrigger_loop h hfok
  have hfits : (X.algo.matchLevel level o.remainingQuantity).results.length ≤ kMaxFills := by
    by_contra hover
    simp [matchLoop, not_le.mpr hturn.left, hturn.book, hturn.allowed, not_le.mp hover] at hloop
  rw [matchLoop_turn hturn hfits] at hloop
  cases hpass : e.pass X ts o level deeper with
  | error err => simp [hpass] at hloop
  | ok r =>
    obtain ⟨alive, e₁⟩ := r
    have hdrifts : Drifts X e a ⟨e, some o⟩ ⟨e₁, alive⟩ := pass_drifts ht hturn hpass
    have ht₁ : World.Tidy ⟨e₁, alive⟩ := ht.drifts hdrifts
    have hrest : Drifts X e a ⟨e₁, alive⟩ ⟨e₂, alive₂⟩ := by
      simp only [hpass] at hloop
      split at hloop
      · cases hloop
        exact (Still.session (interrupted_steps X ts e₁)).drifts _
      · cases alive with
        | none =>
          cases hloop
          exact .refl
        | some o₁ => exact matchLoop_drifts ht₁ hloop
    have hend : Drifts X e a ⟨e₁, alive⟩ ⟨e₃, none⟩ := by
      refine hrest.trans ?_
      cases alive₂ with
      | some o₂ => exact hpost o₂ rfl ▸ postMatch_drifts ts _ _ (ht₁.drifts hrest)
      | none => exact hquote rfl ▸ (still_fireTopOfBookIfChanged _ ts _ _).drifts none
    exact ⟨hfits, alive, e₁, rfl, ht₁,
      hend.trans (checkAndTriggerStops_drifts (ht₁.drifts hend) hstops)⟩

section dropped

variable (hH : e.holdings.Sound X True [o.id]) (hdue : ¬e.hasDueStops)

include hH hdue

theorem matchAndTrigger_drops (hdrop : e.Drops X o (e.levelPool.free = []))
    (book : Side → List PriceLevel) (fuel : Nat) (ts : Int) :
    Outcome.Reaches (e.Hushes book (e.holdings.release o)) fuel (e.matchAndTrigger X fuel o ts) := by
  have hcalm : ∀ e₁ : Engine D, e.Hushes book (e.holdings.release o) e₁ →
      Outcome.Reaches (e.Hushes book (e.holdings.release o)) fuel
        (e₁.checkAndTriggerStops X fuel ts fuel) := fun e₁ hh =>
    .inl ⟨e₁, checkAndTriggerStops_eq (mt (hasDueStops_congr hh.view).mp hdue) _ _ ts, hh⟩
  have hstart : e.Hushes book e.holdings e := .refl e
  unfold matchAndTrigger matchOrder
  by_cases hfok : o.tif = .fok ∧ computeMatchableQty e.book o < o.remainingQuantity
  · simp only [if_pos hfok]
    exact hcalm _ ((hstart.drop o ts _).quote ts _ _)
  simp only [if_neg hfok]
  cases fuel with
  | zero => exact .inr ⟨rfl, _, rfl⟩
  | succ fuel =>
    rcases hdrop.resolve_left hfok with ⟨hidle, hleaves⟩ | ⟨hown, hact⟩
    · rw [matchLoop_done hidle]
      exact hcalm _ (hstart.postMatch hleaves ts _ _)
    · obtain ⟨level, deeper, f, rs, resting, hleft, hbook, hallow, hr, hlen, hfind, hself⟩ := hown
      have hturn : e.Turn o level deeper := ⟨hleft, hbook, hallow⟩
      rw [matchLoop_turn hturn (hr ▸ hlen),
        pass_self (.fly hH fun _ => hleft.le) trivial hturn hr hfind hself]
      rcases hact with hact | ⟨hact, hhalts, hleaves⟩
      · rw [show e.applySmpAction X o resting f ts = (none, e.dropOrder o ts .selfMatchPrevention) by
          simp [applySmpAction, hact]]
        have hend := hstart.drop o ts .selfMatchPrevention
        dsimp only
        cases ((e.dropOrder o ts .selfMatchPrevention).interrupted X ts).1 with
        | true => exact hcalm _ ((hend.session (interrupted_steps X ts _)).quote ts _ _)
        | false => exact hcalm _ (hend.quote ts _ _)
      · rw [applySmpAction_eq hact]
        simp only [interrupted_iff.mpr hhalts, if_true]
        exact hcalm _ ((hstart.session (interrupted_steps X ts e)).postMatch hleaves ts _ _)

theorem leaves_of_unchanged
    (hfok : ¬(o.tif = .fok ∧ computeMatchableQty e.book o < o.remainingQuantity))
    (hsame : e.Hushes e.book e.holdings e₁) (hloop : e.matchLoop X ts fuel o = .ok (some o, e₁))
    (h : e.matchAndTrigger X fuel o ts = .ok e') (hbook : e'.book = e.book) :
    o.Leaves (e.levelPool.free = []) := by
  by_contra hstay
  simp only [Order.Leaves, not_or, not_not] at hstay
  obtain ⟨hne, hlasts, hfree⟩ := hstay
  obtain ⟨alive, e₂, e₃, hloop', hland, -, hstops⟩ := matchAndTrigger_loop h hfok
  cases hloop.symm.trans hloop'
  have hpost : e₃ = (e₁.insertIntoBook o ts).fireTopOfBook ts := by
    rw [hland o rfl]
    simp [postMatch, hne, hlasts.market, hlasts.ioc, hlasts.fok]
  subst hpost
  have hcalm : ¬((e₁.insertIntoBook o ts).fireTopOfBook ts).hasDueStops :=
    mt (hasDueStops_congr ((stopView_insertIntoBook e₁ o ts).trans hsame.view)).mp hdue
  rw [checkAndTriggerStops_eq hcalm] at hstops
  cases hstops
  rcases insertIntoBook_cases o ts ((tidy_of_sound (hsame.holdings ▸ hH)).prices .limit o.side) with
    ⟨hfull, -⟩ | hlink
  · rw [show e₁.levelPool = e.levelPool from congrArg Holdings.levelPool hsame.holdings] at hfull
    cases hpool : e.levelPool.free with
    | nil => exact hfree hpool
    | cons slot rest => simp [ObjectPool.allocate, hpool] at hfull
  · have hlen := hlink.here.length_eq
    rw [show (e₁.insertIntoBook o ts).shelf .limit o.side = e₁.shelf .limit o.side from
      congrFun (hbook.trans (congrArg (Holdings.lvls · .limit) hsame.holdings).symm) o.side] at hlen
    simp at hlen

/-- A turn of the match loop leaves the order only if it changes the book. -/
theorem drops_of_matchAndTrigger (h : e.matchAndTrigger X (fuel + 1) o ts = .ok e')
    (hbook : e'.book = e.book)
    (htrades : ∀ t ∈ e'.trades.drop e.trades.length, t.aggressorId ≠ o.id) :
    e.Drops X o (e.levelPool.free = []) := by
  by_cases hfok : o.tif = .fok ∧ computeMatchableQty e.book o < o.remainingQuantity
  · exact .inl hfok
  refine .inr ?_
  rcases idle_or_turn o e with hidle | ⟨level, deeper, hturn⟩
  · exact .inl ⟨hidle, leaves_of_unchanged hH hdue hfok (.refl e) (matchLoop_done hidle) h hbook⟩
  have hs : World.Sound X True ⟨e, some o⟩ := .fly hH fun _ => hturn.left.le
  obtain ⟨hfits, alive, e₁, hpass, ht₁, hrest⟩ := matchAndTrigger_turn (tidy_of_sound hH) hturn hfok h
  obtain ⟨f, rs, hr⟩ := best_fills hs hturn
  have hfills := hpass
  rw [pass_eq_advance (hH.nodup .limit _) hturn, hr] at hfills
  cases hfind : findOrder f.restingOrder (e.book o.side.opposite) with
  | none =>
    have hmiss : findOrder f.restingOrder
        ((e.advance o.side.opposite (f :: rs)).book o.side.opposite) = none := by
      rw [advance, mapBook_book,
        findOrder_map (g := fun x => x.fill (filledBy x.id (f :: rs))) (fun _ => rfl), hfind]
      rfl
    simp [processFills, hmiss] at hfills
  | some resting =>
    by_cases hself : X.isSelfMatch e.derived { o with remainingQuantity :=
        (X.algo.matchLevel level o.remainingQuantity).remaining }
        (resting.fill (filledBy resting.id (f :: rs))) = true
    · refine .inr ⟨⟨level, deeper, f, rs, resting, hturn.left, hturn.book, hturn.allowed, hr,
        hr ▸ hfits, hfind, hself⟩, ?_⟩
      have hown := pass_self hs trivial hturn hr hfind hself ts
      cases hact : (X.getSmpAction e.derived).cancels with
      | false =>
        rw [applySmpAction_eq hact] at hown
        by_cases hhalts : e.Halts X
        · refine .inr ⟨rfl, hhalts, leaves_of_unchanged hH hdue hfok
            (.session (.refl e) (interrupted_steps X ts e)) ?_ h hbook⟩
          rw [matchLoop_turn hturn hfits, hown]
          simp [interrupted_iff.mpr hhalts]
        · obtain ⟨_, _, _, hloop, -⟩ := matchAndTrigger_loop h hfok
          rw [matchLoop_stuck hturn hfits hown
            (Bool.eq_false_iff.mpr (mt interrupted_iff.mp hhalts))] at hloop
          simp at hloop
      | true =>
        refine .inl ?_
        by_contra hnew
        -- the resting order is gone and does not come back
        have hrests : resting ∈ ordersIn (e.book o.side.opposite) := mem_of_find?_eq_some hfind
        have hside : resting.side = o.side.opposite := hH.side_eq (k := .limit) hrests
        have hgone := carries_applySmpAction f ts hH (hside ▸ hrests) hact hnew
        rw [Except.ok.inj (hown.symm.trans hpass)] at hgone
        exact (drifts_absent hrest ht₁ hgone).resting _ resting (hbook ▸ hrests) rfl
    · obtain ⟨t, more, hmore, hid⟩ := processFills_trades (o := { o with remainingQuantity :=
        (X.algo.matchLevel level o.remainingQuantity).remaining })
        (findOrder_advance hfind (f :: rs)) (Bool.eq_false_iff.mpr hself) hfills
      obtain ⟨later, hlater⟩ := drifts_trades hrest
      refine absurd hid (htrades t ?_)
      rw [← hlater, hmore, show (e.advance o.side.opposite (f :: rs)).trades = e.trades from rfl]
      simp

end dropped

/-- The stop is not alone on its level. -/
def Engine.sharesLevel (e : Engine D) (order : Order) : Prop :=
  ∃ l ∈ e.stopBook order.side, order ∈ l.orders ∧ l.orderCount ≠ 1

/-- A modification that takes a stop out of the stop book, whole, and does not get it into the
limit book: the level stays, or is one `list_remove` can unlink from the inside of the list. -/
structure Engine.Withdraws (X : Exchange D) (e : Engine D) (req : ModifyRequest)
    (order : Order) : Prop where
  replaces : e.amends X order req = false
  detaches : e.sharesLevel order ∨ (inner (e.stopBook order.side) order.id = true ∧
    ∀ l ∈ e.book order.side, l.price ≠ order.price)
  drops : e.Drops X (order.replaced req) (e.sharesLevel order ∧ e.levelPool.free = [])

/-- The update an amendment sends of the level of a stop. -/
def Order.amendUpdate (order : Order) (req : ModifyRequest) (level : PriceLevel) : DepthUpdate :=
  ⟨order.side, level.price,
    level.totalQuantity - (order.remainingQuantity - (req.newQuantity - order.filledQuantity)),
    level.orderCount, .update, req.timestamp⟩

/-- The stop is withdrawn, or amended while the update is true of the limit book. -/
def Engine.Harmless (X : Exchange D) (e : Engine D) (req : ModifyRequest) (order : Order) : Prop :=
  (e.amends X order req = true ∧ ∀ l ∈ levelOf order.id (e.stopBook order.side),
      (order.amendUpdate req l).Tells e.book) ∨ e.Withdraws X req order

/-- What a modification of a waiting stop should leave. -/
structure Engine.Spares (e e' : Engine D) (order : Order) : Prop where
  shaped : e'.WellShaped
  stops : ∀ o ∈ e'.linked, o.type.isStop = true → e'.waits o
  untraded : ∀ t ∈ e'.trades.drop e.trades.length,
    t.aggressorId = order.id ∨ t.restingId = order.id →
    ∃ l ∈ e.stopBook order.side, order ∈ l.orders ∧
      0 < e.lastTradePrice ∧ order.side.reaches e.lastTradePrice l.price
  book : e'.book = e.book
  depth : ∀ d, .event (.depthUpdate d) ∈ e'.journal.drop e.journal.length → d.Tells e'.book

theorem spares_of_writes (hs : World.Sound X True ⟨e', none⟩) (hbook : e'.book = e.book)
    (hw : e.Writes e.book e') : e.Spares e' order := by
  obtain ⟨es, hes, hinert⟩ := hw
  refine
    { shaped := wellShaped_of_sound hs.holds
      stops := fun o ho hstop => ?_
      untraded := fun t ht => ?_
      book := hbook
      depth := fun d hd => ?_ }
  · rcases linked_cases (hs.holds_none rfl) ho with ⟨-, htype⟩ | ⟨hwait, -⟩
    · simp [htype, OrderType.isStop] at hstop
    · exact hwait
  · rw [trades, trades, hes, filterMap_append, drop_left] at ht
    obtain ⟨x, hx, htrade⟩ := mem_filterMap.mp ht
    have hfalse := hinert x hx
    cases x with
    | action a => simp [trade?] at htrade
    | event ev => cases ev <;> simp_all [trade?, Inert]
  · rw [hes, drop_left] at hd
    exact hbook ▸ hinert _ hd

theorem amendOrder_waits (hH : e.holdings.Sound X w []) (hwait : e.waits order)
    (req : ModifyRequest) : (e.amendOrder order req).book = e.book ∧
      ∃ l, levelOf order.id (e.stopBook order.side) = some l ∧
        (e.amendOrder order req).journal = e.journal ++
          [.event (.orderModified order.id req.clientOrderId req.newPrice req.newQuantity
              req.timestamp),
            .event (.depthUpdate (order.amendUpdate req l))] := by
  have hlimit := hH.has_eq_false .stop .limit order.side order.side (by simp) hwait
  obtain ⟨A, l, B, Xs, Ys, hsplit, hf⟩ := exists_focus_of_mem (hH.nodup .stop order.side) hwait
  have hlevel : levelOf order.id (e.stopBook order.side) = some l :=
    (congrArg (levelOf order.id) hsplit).trans hf.levelOf_eq
  have hfound : e.levelHolding order = some l := by
    rw [levelHolding, levelOf, find?_append,
      find?_eq_none.mpr fun m hm => by simp [show m.has order.id = false from hlimit m hm]]
    exact hlevel
  refine ⟨funext fun s => ?_, l, hlevel, ?_⟩
  · have hshelf := congrFun (congrFun (amendOrder_shelf order req e) .limit) s
    rw [adjustOrder_shelf] at hshelf
    by_cases hs : s = order.side
    · subst hs
      rw [if_pos rfl] at hshelf
      exact hshelf.trans (onLevelOf_eq_self hlimit _)
    · exact hshelf.trans (if_neg hs)
  · have hafter := levelHolding_adjust order (f := fun o => { o with
      quantity := req.newQuantity, remainingQuantity := req.newQuantity - order.filledQuantity })
      (fun _ => rfl) (-(order.remainingQuantity - (req.newQuantity - order.filledQuantity))) e
    rw [hfound] at hafter
    unfold amendOrder
    dsimp only
    split
    next hmiss => cases hafter.symm.trans hmiss
    next lv hlv =>
      cases hafter.symm.trans hlv
      exact List.append_assoc _ _ _

/-- The engine as a stop has left its level. -/
def Engine.withdrawn (e : Engine D) (req : ModifyRequest) (order : Order) : Engine D :=
  (e.removeStop order).reportPull order req (unlinkFrom order (e.stopBook order.side)).2

theorem trades_sheet (e : Engine D) : e.sheet.trades = e.trades :=
  (trades_filter (fun _ => rfl) e).symm

theorem journal_removeStop (e : Engine D) (o : Order) : (e.removeStop o).journal = e.journal := by
  unfold removeStop
  dsimp only
  split <;> rfl

section withdrawn

variable (e : Engine D) (req : ModifyRequest) (order : Order)

@[simp] theorem holdings_withdrawn :
    (e.withdrawn req order).holdings = e.holdings.takeOut .stop order := by
  simp [withdrawn]

theorem book_withdrawn : (e.withdrawn req order).book = e.book :=
  congrArg (Holdings.lvls · .limit) (holdings_withdrawn e req order)

theorem sheet_withdrawn : (e.withdrawn req order).sheet = (e.sheet.emit (.orderBookAction
      ⟨order.id, order.side, order.price, order.remainingQuantity, .cancel, req.timestamp⟩)).emit
    (.orderModified order.id req.clientOrderId req.newPrice req.newQuantity req.timestamp) := by
  simp [withdrawn]

theorem trades_withdrawn : (e.withdrawn req order).trades = e.trades := by
  rw [← trades_sheet, sheet_withdrawn, ← trades_sheet e]
  simp [trades, emit, trade?]

theorem writes_withdrawn (hfree : (unlinkFrom order (e.stopBook order.side)).2 = true →
      ∀ l ∈ e.book order.side, l.price ≠ order.price) :
    e.Writes e.book (e.withdrawn req order) := by
  have hcancel : e.Writes e.book ((e.removeStop order).emit (.orderBookAction
      ⟨order.id, order.side, order.price, order.remainingQuantity, .cancel, req.timestamp⟩)) :=
    ⟨[_], congrArg (· ++ _) (journal_removeStop e order), by simp [Inert]⟩
  have hbook : (e.removeStop order).book = e.book :=
    congrArg (Holdings.lvls · .limit) (holdings_removeStop e order)
  refine Writes.emit ?_ trivial
  unfold fireDepthAfterRemove
  split
  next hfreed =>
    refine hcancel.emit ?_
    simpa [Inert, DepthUpdate.Tells] using hfree hfreed
  next =>
    unfold fireDepthAt
    split
    · exact hcancel
    next lv hfind =>
      exact hcancel.emit ⟨lv, hbook ▸ mem_of_find?_eq_some hfind, rfl, rfl, rfl⟩

variable {e order} (hH : e.holdings.Sound X True []) (hwait : e.waits order)

include hH hwait

theorem unlinkFrom_freed :
    (unlinkFrom order (e.stopBook order.side)).2 = true ↔ ¬e.sharesLevel order := by
  obtain ⟨A, l, B, Xs, Ys, hsplit, hf⟩ := exists_focus_of_mem (hH.nodup .stop order.side) hwait
  have hstop : e.stopBook order.side = A ++ l :: B := hsplit
  have hpos := ((hH.shape .stop order.side).sound l (by simp [hsplit])).count
  have hshare : e.sharesLevel order ↔ l.orderCount ≠ 1 := by
    refine ⟨fun ⟨m, hm, ho, hne⟩ => ?_, fun hne => ⟨l, by simp [hstop], by simp [hf.queue], hne⟩⟩
    rw [hstop] at hm
    by_cases hml : m = l
    · exact hml ▸ hne
    · have hout := hf.outside m (by simp_all)
      exact absurd rfl (PriceLevel.has_eq_false.mp hout order ho)
  rw [hshare, hstop, hf.unlinkFrom_eq]
  simp only [hf.queue, length_append, List.length_cons] at hpos
  grind

theorem pullOrder_waits : e.pullOrder order req =
    if (unlinkFrom order (e.stopBook order.side)).2 && !inner (e.stopBook order.side) order.id then
      .error (.foreignLevel, e) else .ok (e.withdrawn req order) := by
  have hnot : holds (e.book order.side) order.id = false :=
    not_holds_other hH (k := .stop) hwait .limit (by simp)
  simp only [pullOrder, bookRemoveOrder, hnot, holds_of_mem hwait, Bool.false_eq_true, if_false,
    if_true]
  cases (unlinkFrom order (e.stopBook order.side)).2 && !inner (e.stopBook order.side) order.id <;>
    rfl

theorem sound_withdrawn :
    (e.withdrawn req order).holdings.Sound X True [(order.replaced req).id] := by
  rw [holdings_withdrawn]
  exact hH.takeOut (k := .stop) hwait

theorem idle_withdrawn (hidle : ¬e.hasDueStops) : ¬(e.withdrawn req order).hasDueStops := by
  have hview : (e.withdrawn req order).stopView = (e.removeStop order).stopView := by
    simp [withdrawn]
  have hout : (e.removeStop order).holdings.Sound X True [order.id] := by
    simpa using hH.takeOut hwait
  rw [hasDueStops_congr hview, hasDueStops_iff (inTurn_of_sound hout)]
  exact not_missed_of_thins ((hasDueStops_iff (inTurn_of_sound hH)).not.mp hidle)
    (lastTradePrice_removeStop order e) (thins_removeStop order e)

theorem drops_withdrawn : (e.withdrawn req order).Drops X (order.replaced req)
      ((e.withdrawn req order).levelPool.free = []) ↔
    e.Drops X (order.replaced req) (e.sharesLevel order ∧ e.levelPool.free = []) := by
  have hsheet := sheet_withdrawn e req order
  have hderived : (e.withdrawn req order).derived = e.derived :=
    (congrArg Engine.derived hsheet :)
  have hhalts : (e.withdrawn req order).sheet.Halts X ↔ e.sheet.Halts X := by
    rw [hsheet]
    rfl
  have hhalts : (e.withdrawn req order).Halts X ↔ e.Halts X := hhalts
  have hfull : (e.withdrawn req order).levelPool.free = [] ↔
      e.sharesLevel order ∧ e.levelPool.free = [] := by
    have hfreed := unlinkFrom_freed hH hwait
    rw [show (e.withdrawn req order).levelPool = (e.holdings.takeOut .stop order).levelPool from
      congrArg Holdings.levelPool (holdings_withdrawn e req order)]
    change (if (unlinkFrom order (e.stopBook order.side)).2 then e.levelPool.deallocate ()
      else e.levelPool).free = [] ↔ _
    split <;> simp_all [ObjectPool.deallocate]
  unfold Drops MeetsOwn Order.Leaves clearOf
  rw [book_withdrawn, hderived, hhalts, hfull]

end withdrawn

section

variable (hs : World.Sound X True ⟨e, none⟩) (hidle : ¬e.hasDueStops) (hwait : e.waits order)

include hs hidle hwait

theorem replaceOrder_withdraws (h : e.Withdraws X req order) (fuel : Nat) :
    Outcome.Reaches (fun e' => World.Sound X True ⟨e', none⟩ ∧ e'.book = e.book ∧
      e.Writes e.book e') fuel (e.replaceOrder X fuel order req) := by
  have hH := hs.holds_none rfl
  have hfree : (unlinkFrom order (e.stopBook order.side)).2 = true →
      inner (e.stopBook order.side) order.id = true ∧ ∀ l ∈ e.book order.side, l.price ≠ order.price :=
    fun hfreed => h.detaches.resolve_left ((unlinkFrom_freed hH hwait).mp hfreed)
  have hpull : e.pullOrder order req = .ok (e.withdrawn req order) := by
    rw [pullOrder_waits req hH hwait, if_neg]
    simpa using fun hfreed => (hfree hfreed).1
  have hout := sound_withdrawn req hH hwait
  simp only [replaceOrder, hpull]
  refine (matchAndTrigger_drops hout (idle_withdrawn req hH hwait hidle)
    ((drops_withdrawn req hH hwait).mpr h.drops) e.book fuel req.timestamp).mono ?_
  rintro e' ⟨hheld, -, hwrites⟩
  refine ⟨.land (hheld ▸ hout.release), ?_,
    (writes_withdrawn e req order fun hfreed => (hfree hfreed).2).trans hwrites⟩
  exact (congrArg (Holdings.lvls · .limit) hheld).trans (book_withdrawn e req order)

theorem withdraws_of_replaceOrder (hreplaces : e.amends X order req = false)
    (h : e.replaceOrder X (fuel + 1) order req = .ok e') (hspares : e.Spares e' order) :
    e.Withdraws X req order := by
  have hH := hs.holds_none rfl
  have hout := sound_withdrawn req hH hwait
  have hcalm := idle_withdrawn req hH hwait hidle
  rw [replaceOrder, pullOrder_waits req hH hwait] at h
  by_cases hfault : ((unlinkFrom order (e.stopBook order.side)).2 &&
      !inner (e.stopBook order.side) order.id) = true
  · simp [hfault] at h
  simp only [if_neg hfault] at h
  have hdrops := drops_of_matchAndTrigger hout hcalm h
    (hspares.book.trans (book_withdrawn e req order).symm) ?_
  · refine ⟨hreplaces, or_iff_not_imp_left.mpr fun halone => ?_,
      (drops_withdrawn req hH hwait).mp hdrops⟩
    have hfreed := (unlinkFrom_freed hH hwait).mpr halone
    obtain ⟨e₁, hok, hhush⟩ | ⟨hzero, -⟩ := matchAndTrigger_drops hout hcalm hdrops e.book (fuel + 1)
      req.timestamp
    · cases hok.symm.trans h
      have hremove := hspares.depth ⟨order.side, order.price, 0, 0, .remove, req.timestamp⟩ (by
        obtain ⟨es, hes, -⟩ := hhush.writes
        simp [hes, withdrawn, hfreed, reportPull, fireDepthAfterRemove, fireDepthRemove, emit,
          journal_removeStop])
      rw [hspares.book] at hremove
      exact ⟨by simpa [hfreed] using hfault, by simpa [DepthUpdate.Tells] using hremove⟩
    · omega
  · -- a trade of the stop would be one of a stop that is due
    rw [trades_withdrawn]
    intro t ht hid
    obtain ⟨l, hl, -, hpos, hreach⟩ := hspares.untraded t ht (.inl hid)
    exact hidle ((hasDueStops_iff (inTurn_of_sound hH)).mpr
      ⟨hpos, order.side, l.price, mem_map_of_mem hl, hreach⟩)

variable (htakes : e.TakesModify X req order)

include htakes

theorem modifyOrder_harmless (h : e.Harmless X req order) (fuel : Nat) :
    Outcome.Reaches (fun e' => World.Sound X True ⟨e', none⟩ ∧ e.Spares e' order) fuel
      (e.perform X fuel (.modifyOrder req)) := by
  have hH := hs.holds_none rfl
  obtain ⟨t, heq⟩ := perform_taken hH (mem_linked.mpr ⟨.stop, _, hwait⟩) htakes
  let e₁ : Engine D := { e.record (.modifyOrder req) with rateTracker := t }
  have hnote : e.Writes e.book e₁ := ⟨[.action (.modifyOrder req)], rfl, by simp [Inert]⟩
  rw [heq]
  rcases h with ⟨hamends, htold⟩ | hw
  · rw [if_pos hamends]
    obtain ⟨hbook, l, hl, hjournal⟩ := amendOrder_waits (e := e₁) hH hwait req
    have hlt : order.filledQuantity < req.newQuantity := by
      simp only [amends, Bool.and_eq_true, decide_eq_true_eq] at hamends
      exact hamends.2
    have hs' : World.Sound X True ⟨e₁.amendOrder order req, none⟩ :=
      .land (Holdings.Sound.amendOrder (e := e₁) (k := .stop) hH hwait hlt)
    refine .inl ⟨_, rfl, hs', spares_of_writes hs' hbook (hnote.trans ⟨_, hjournal, ?_⟩)⟩
    simpa [Inert] using htold l hl
  · rw [if_neg (by simp [hw.replaces])]
    refine (replaceOrder_withdraws (e := e₁) (.land hH) hidle hwait
      ⟨hw.replaces, hw.detaches, hw.drops⟩ fuel).mono ?_
    rintro e' ⟨hs', hbook, hwrites⟩
    exact ⟨hs', spares_of_writes hs' hbook (hnote.trans hwrites)⟩

theorem harmless_of_spares (h : e.perform X (fuel + 1) (.modifyOrder req) = .ok e')
    (hspares : e.Spares e' order) : e.Harmless X req order := by
  have hH := hs.holds_none rfl
  obtain ⟨t, heq⟩ := perform_taken hH (mem_linked.mpr ⟨.stop, _, hwait⟩) htakes
  let e₁ : Engine D := { e.record (.modifyOrder req) with rateTracker := t }
  have hspares' : e₁.Spares e' order :=
    ⟨hspares.shaped, hspares.stops,
      fun u hu => hspares.untraded u (drop_subset_drop_left _ (by simp [trades, e₁, record]) hu),
      hspares.book, fun d hd => hspares.depth d (drop_subset_drop_left _ (by simp [e₁, record]) hd)⟩
  rw [heq] at h
  cases hamends : e.amends X order req with
  | true =>
    rw [if_pos hamends] at h
    obtain ⟨hbook, l, hl, hjournal⟩ := amendOrder_waits (e := e₁) hH hwait req
    obtain rfl := Except.ok.inj h
    refine .inl ⟨hamends, fun l' hl' => ?_⟩
    obtain rfl := Option.some.inj (hl.symm.trans hl')
    have htold := hspares'.depth (order.amendUpdate req l) (by rw [hjournal]; simp)
    rwa [hbook] at htold
  | false =>
    rw [if_neg (by simp [hamends])] at h
    obtain ⟨hreplaces, hdetaches, hdrops⟩ := withdraws_of_replaceOrder (e := e₁) (.land hH) hidle
      hwait hamends h hspares'
    exact .inr ⟨hreplaces, hdetaches, hdrops⟩

end

/-- Modifications of waiting stops are refused or harmless; the other operations are those of an
exact book. -/
def Engine.sparing (X : Exchange D) (e : Engine D) : Action → Prop
  | .modifyOrder req => ∀ order ∈ e.linked, order.id = req.orderId →
    (e.rests order ∧ order.filledQuantity ≤ req.newQuantity) ∨
      (e.waits order ∧ (e.TakesModify X req order → ¬e.hasDueStops ∧ e.Harmless X req order))
  | a => e.Admits True False a

theorem perform_sparing {a : Action} (hs : World.Sound X True ⟨e, none⟩) (ha : e.sparing X a)
    (h : e.perform X fuel a = .ok e') : World.Sound X True ⟨e', none⟩ := by
  have hH := hs.holds_none rfl
  have hplain : e.Admits True False a → World.Sound X True ⟨e', none⟩ := by
    intro hadmits
    have hrun := perform_run fuel hs False.elim False.elim hadmits
    rw [h] at hrun
    exact OpRun.sound hrun hs
  cases a with
  | modifyOrder req =>
    by_cases htaken : ∃ order ∈ e.linked, e.TakesModify X req order
    · obtain ⟨order, hlinked, htakes⟩ := htaken
      rcases ha order hlinked htakes.named with ⟨hrest, hq⟩ | ⟨hwait, hw⟩
      · refine hplain fun o ho hid => ?_
        obtain rfl := eq_of_linked hH hlinked ho (htakes.named.trans hid.symm)
        exact ⟨hrest, fun _ => hq⟩
      · obtain ⟨hidle, hharmless⟩ := hw htakes
        rcases modifyOrder_harmless hs hidle hwait htakes hharmless fuel with
          ⟨e₂, hok, hs₂, -⟩ | ⟨-, err, herr⟩
        · obtain rfl := Except.ok.inj (hok.symm.trans h)
          exact hs₂
        · simp [herr] at h
    · obtain ⟨t, reason, heq⟩ := modifyOrder_refused (e := e.record (.modifyOrder req)) fuel hH
        fun order hlinked htakes => htaken ⟨order, hlinked, (takesModify_record _).mp htakes⟩
      obtain rfl := Except.ok.inj (heq.symm.trans h)
      exact .land hH
  | _ => exact hplain ha

theorem reach_sparing {config : EngineConfig} {derived : D} {slots : Nat → SlotResidue}
    (h : Reach X (sparing X) (init X config derived slots) e) :
    World.Sound X True ⟨e, none⟩ := by
  induction h with
  | start => exact init_sound X True config derived slots
  | step _ ha hperf ih => exact perform_sparing ih ha hperf

/-- Two stops that buy 5 from 110 on, all or nothing, and an offer of 5 at 105. -/
def stoppedEngine : Engine Unit := runAll sampleExchange
  (List.replicate 2 (.newOrder
    { limitRequest .buy 0 5 with type := .stop, stopPrice := 110, tif := .fok }) ++
    [.newOrder (limitRequest .sell 105 5)])
  (sampleStart sampleExchange sampleConfig ())

theorem stoppedEngine_reach : Reach sampleExchange (sparing sampleExchange)
    (sampleStart sampleExchange sampleConfig ()) stoppedEngine :=
  reach_runAll (by simp [sparing, Admits]) (by decide +kernel)

theorem stoppedEngine_idle : ¬stoppedEngine.hasDueStops :=
  fun hdue => absurd hdue.1 (by decide +kernel)

theorem stoppedEngine_waits : ∃ order, stoppedEngine.waits order ∧ order.id = 1 ∧
    stoppedEngine.sharesLevel order ∧ order.tif = .fok ∧ order.quantity = 5 ∧
    computeMatchableQty stoppedEngine.book (order.replaced ⟨1, 0, 100, 6, 2⟩) <
      (order.replaced ⟨1, 0, 100, 6, 2⟩).remainingQuantity := by
  have hfound : ∃ l ∈ stoppedEngine.stopBook .buy, l.orderCount ≠ 1 ∧ ∃ o ∈ l.orders, o.side = .buy ∧
      o.id = 1 ∧ o.tif = .fok ∧ o.quantity = 5 ∧
      computeMatchableQty stoppedEngine.book (o.replaced ⟨1, 0, 100, 6, 2⟩) <
        (o.replaced ⟨1, 0, 100, 6, 2⟩).remainingQuantity := by
    decide +kernel
  obtain ⟨l, hl, hcount, o, ho, hside, hid, hrest⟩ := hfound
  rw [← hside] at hl
  exact ⟨o, mem_ordersIn.mpr ⟨l, hl, ho⟩, hid, ⟨l, hl, ho, hcount⟩, hrest⟩

theorem stoppedEngine_takes {q : Int} (hq : q = 5 ∨ q = 6) (hid : order.id = 1) :
    stoppedEngine.TakesModify sampleExchange ⟨1, 0, 100, q, 2⟩ order where
  opened := by decide +kernel
  named := hid
  known := by rcases hq with rfl | rfl <;> decide +kernel
  paced := rfl
  checked := by rcases hq with rfl | rfl <;> decide +kernel

end ExchangeSim
