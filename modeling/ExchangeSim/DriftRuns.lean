import ExchangeSim.ActionRuns
import ExchangeSim.Drift

namespace ExchangeSim

open Engine List Function JournalEntry Holdings

variable {D : Type} {X : Exchange D} {e₀ e e' e₁ : Engine D} {a : Action} {fl : Option Order}
  {ts price left ts' : Int} {o order bid ask : Order} {fuel rounds : Nat} {fills : List LegFill}
  {alive : Option Order} {k : Shelf} {r : Bool × Engine D} {reason : CancelReason}
  {f : Order → Order} {req : OrderRequest}

theorem Engine.Still.drifts (h : e.Still X e') (fl : Option Order) :
    Drifts X e₀ a ⟨e, fl⟩ ⟨e', fl⟩ :=
  .single (.still h rfl)

theorem drift_core {o' : Order} (h : o'.core = o.core) (hs : e.Still X e') :
    Drift X e₀ a ⟨e, some o⟩ ⟨e', some o'⟩ :=
  .still hs (congrArg some h)

theorem World.Tidy.still (h : World.Tidy ⟨e, fl⟩) (hs : e.Still X e') : World.Tidy ⟨e', fl⟩ := by
  have hd : Drift X e (.massCancelAll 0) ⟨e, fl⟩ ⟨e', fl⟩ := .still hs rfl
  exact h.drift hd

theorem applySmpAction_drifts (order resting : Order) (f : FillResult) (ts : Int) (e : Engine D) :
    Drifts X e₀ a ⟨e, some order⟩ ⟨(e.applySmpAction X order resting f ts).2,
      (e.applySmpAction X order resting f ts).1⟩ := by
  unfold applySmpAction
  have hcancel := still_cancelResting (X := X) e ts f resting
  split
  · exact .single (.leave (still_dropOrder e order ts .selfMatchPrevention))
  · exact (hcancel.trans (still_notifyCancelled e ts f resting _)).drifts _
  · exact .single (.leave (hcancel.trans (still_dropOrder _ order ts .selfMatchPrevention)))
  · exact .refl
  · exact .refl

theorem posts_bookTrade (ts : Int) (order : Order) (f : FillResult) (resting : Order)
    (e : Engine D) : e.Posts X (e.standing.trade X order resting f.price f.quantity ts)
      (e.bookTrade X ts order f resting) where
  shelf k s := by
    have hbook : (e.bookTrade X ts order f resting).book = update e.book resting.side
        (onLevelOf resting.id (fun l => { l with totalQuantity := l.totalQuantity - f.quantity })
          (e.book resting.side)) := rfl
    cases k with
    | limit =>
      simp only [shelf, hbook]
      by_cases hs : s = resting.side
      · subst hs
        rw [Function.update_self]
        exact Thins.retotal resting.id (fun l => l.totalQuantity - f.quantity) _
      · rw [Function.update_of_ne hs]
        exact .refl _
    | stop => exact .refl _
  standing := by
    have hposted : (e.bookTrade X ts order f resting).journal.filter posted =
        e.journal.filter posted ++
          [.event (.trade ⟨f.price, f.quantity, order.id, resting.id, order.side, ts⟩)] := by
      unfold bookTrade
      by_cases h : order.remainingQuantity = 0 <;>
        simp [emit, setBook, filter_cons, posted, h]
    simp only [standing, hposted]
    rfl
  config _ := rfl

theorem processFills_drifts {fills : List FillResult} (ht : World.Tidy ⟨e, some order⟩)
    (h : e.processFills X ts fills order = .ok (alive, e')) :
    Drifts X e₀ a ⟨e, some order⟩ ⟨e', alive⟩ := by
  induction fills generalizing order e with
  | nil =>
    obtain ⟨rfl, rfl⟩ : some order = alive ∧ e = e' := by simpa [processFills] using h
    exact .refl
  | cons f rest ih =>
    unfold processFills at h
    split at h
    · simp at h
    next resting hfind =>
      have hmem : resting ∈ ordersIn (e.book order.side.opposite) :=
        mem_of_find?_eq_some hfind
      split at h
      · -- A self-match: the fills that are left are undone.
        dsimp only at h
        split at h
        · simp at h
        next resting' _ =>
          obtain ⟨hundo, hcore⟩ := still_undoFills e order.side.opposite (f :: rest) order
          have hsmp : Drifts X e₀ a _ _ := applySmpAction_drifts
            (e.undoFills order.side.opposite (f :: rest) order).1 resting' f ts
            (e.undoFills order.side.opposite (f :: rest) order).2
          rw [Except.ok.inj h] at hsmp
          exact .head (drift_core hcore hundo) hsmp
      · let order₁ : Order := { order with filledQuantity := order.filledQuantity + f.quantity }
        have hposts := posts_bookTrade (X := X) ts order₁ f resting e
        have hcount : Drift X e₀ a ⟨e, some order⟩ ⟨e, some order₁⟩ := drift_core rfl (.refl e)
        have htrade : Drift X e₀ a ⟨e, some order₁⟩ ⟨e.bookTrade X ts order₁ f resting, some order₁⟩ :=
          .trade hmem hposts
        have ht₁ := (ht.drift hcount).drift htrade
        have hside : resting.side = order.side.opposite := ht.sides .limit _ resting hmem
        have hagrees : Agrees resting ((e.bookTrade X ts order₁ f resting).book resting.side) := by
          rw [hside]
          exact (ht.agrees .limit hmem).thins (hposts.shelf .limit _)
        have hclose := still_closeResting (X := X) _ hagrees ts f
        exact .head hcount (.head htrade (.trans (hclose.drifts _) (ih (ht₁.still hclose) h)))

theorem pass_drifts {level : PriceLevel} {deeper : List PriceLevel}
    (ht : World.Tidy ⟨e, some order⟩) (hturn : e.Turn order level deeper)
    (h : e.pass X ts order level deeper = .ok (alive, e')) :
    Drifts X e₀ a ⟨e, some order⟩ ⟨e', alive⟩ := by
  let m := X.algo.matchLevel level order.remainingQuantity
  have hdistinct : level.Distinct := by
    have hn := ht.ids_shelf .limit order.side.opposite
    simp only [shelf, hturn.book, idsIn, ordersIn_cons, map_append] at hn
    exact (List.nodup_append.mp hn).1
  have hmatched : e.Still X (e.setBook order.side.opposite
      ({ level with orders := m.orders } :: deeper)) := by
    refine .setBook ?_
    rw [hturn.book]
    exact thins_matchLevel X.algo hdistinct _ deeper
  have hstart : Drift X e₀ a ⟨e, some order⟩ ⟨e.setBook order.side.opposite
      ({ level with orders := m.orders } :: deeper),
      some { order with remainingQuantity := m.remaining }⟩ := .still hmatched rfl
  exact .head hstart (processFills_drifts (ht.drift hstart) h)

theorem matchLoop_drifts (ht : World.Tidy ⟨e, some order⟩)
    (h : e.matchLoop X ts fuel order = .ok (alive, e')) :
    Drifts X e₀ a ⟨e, some order⟩ ⟨e', alive⟩ := by
  refine matchLoop_ok (I := fun o e alive e' => World.Tidy ⟨e, some o⟩ →
    Drifts X e₀ a ⟨e, some o⟩ ⟨e', alive⟩) ?_ ?_ ?_ h ht
  · exact fun _ _ _ => .refl
  · intro o e level deeper alive e' hturn hpass ht
    exact (pass_drifts ht hturn hpass).trans ((Still.session (interrupted_steps X ts e')).drifts _)
  · intro o e level deeper o' e' alive e'' hturn hpass ih ht
    have hd : Drifts X e₀ a _ _ := pass_drifts ht hturn hpass
    exact hd.trans (ih (ht.drifts hd))

theorem links_putIn (key : Int) (pool : ObjectPool Unit)
    (hn : ((e.shelf k o.side).map (·.price)).Nodup)
    (hlvls : e'.holdings.lvls = (e.holdings.putIn k o key pool).lvls) (hc : e'.config = e.config) :
    e.Links k o e' := by
  let lvls := (insertAt (k.before o.side) key o (e.shelf k o.side)).1
  have hhere : e'.shelf k o.side = lvls := by
    rw [show e'.shelf k o.side = e'.holdings.lvls k o.side from rfl, hlvls]
    exact set_self k o.side lvls
  refine ⟨?_, ?_, fun k' s hks => ?_, hc⟩
  · rw [hhere]
    exact (insertAt_perm hn _ key o).map Order.core
  · rw [hhere]
    exact insertAt_prices hn _ key o
  · rw [show e'.shelf k' s = e'.holdings.lvls k' s from rfl, hlvls]
    exact set_other hks lvls

theorem insertIntoBook_cases (o : Order) (ts : Int) (hn : ((e.book o.side).map (·.price)).Nodup) :
    e.levelPool.allocate = none ∧
        e.insertIntoBook o ts = e.dropOrder o ts .levelPoolExhausted ∨
      e.Links .limit o (e.insertIntoBook o ts) := by
  rcases h : e.levelPool.allocate with _ | ⟨slot, pool⟩
  · exact .inl ⟨rfl, by simp [insertIntoBook, h]⟩
  · refine .inr (links_putIn o.price pool hn ?_ ?_)
    · rw [holdings_insertIntoBook, enter_some h]
    · exact congrArg Context.config (context_insertIntoBook e o ts)

theorem insertIntoStopBook_cases (o : Order) (price : Int)
    (hn : ((e.stopBook o.side).map (·.price)).Nodup) :
    e.insertIntoStopBook o price = e.dropOrder o o.timestamp .levelPoolExhausted ∨
      e.Links .stop o (e.insertIntoStopBook o price) ∧
        (e.insertIntoStopBook o price).standing = e.standing := by
  rcases h : e.levelPool.allocate with _ | ⟨slot, pool⟩
  · exact .inl (by simp [insertIntoStopBook, h])
  · refine .inr ⟨links_putIn price pool hn ?_ ?_, ?_⟩
    · rw [holdings_insertIntoStopBook, enter_some h]
    · exact congrArg Context.config (context_insertIntoStopBook e o price)
    · simp only [insertIntoStopBook, h]
      rfl

theorem postMatch_drifts (ts b k : Int) (ht : World.Tidy ⟨e, some order⟩) :
    Drifts X e₀ a ⟨e, some order⟩ ⟨e.postMatch order ts b k, none⟩ := by
  rcases postMatch_cases order ts b k e with ⟨-, heq⟩ | ⟨reason, heq⟩ | ⟨-, ⟨hmarket, hioc, hfok⟩, heq⟩ <;>
    rw [heq]
  · exact .single (.leave ((still_release e order).trans (still_fireTopOfBookIfChanged _ ts b k)))
  · exact .single (.leave ((still_dropOrder e order ts reason).trans
      (still_fireTopOfBookIfChanged _ ts b k)))
  · rcases insertIntoBook_cases order ts (ht.prices .limit order.side) with ⟨-, heq⟩ | hlink
    · rw [heq]
      exact .single (.leave ((still_dropOrder e order ts _).trans (still_fireTopOfBook _ ts)))
    · exact .head (.rest ⟨hmarket, hioc, hfok⟩ hlink
        (Move.run_standing (X := X) (m := .rest order ts) rfl ⟨e, none⟩))
        ((still_fireTopOfBook _ ts).drifts none)

theorem matchOrder_drifts (ht : World.Tidy ⟨e, some order⟩)
    (h : e.matchOrder X fuel order ts = .ok e') : Drifts X e₀ a ⟨e, some order⟩ ⟨e', none⟩ := by
  rcases matchOrder_ok h with ⟨-, rfl⟩ | ⟨alive, e₁, hloop, rfl⟩
  · exact .single (.leave ((still_dropOrder e order ts _).trans
      (still_fireTopOfBookIfChanged _ ts _ _)))
  · have hrun : Drifts X e₀ a _ _ := matchLoop_drifts ht hloop
    cases alive with
    | some order₁ => exact hrun.trans (postMatch_drifts ts _ _ (ht.drifts hrun))
    | none => exact hrun.trans ((still_fireTopOfBookIfChanged _ ts _ _).drifts none)

theorem removeStop_drift {stop : Order} (ht : World.Tidy ⟨e, none⟩)
    (h : e.nextTriggeredStop = some stop) :
    Drift X e₀ a ⟨e, none⟩ ⟨e.removeStop stop, some stop.triggered⟩ := by
  obtain ⟨s, lv, rest, hbook, hlv⟩ := nextTriggeredStop_mem h
  have hmem : stop ∈ ordersIn (e.stopBook s) := by simp [hbook, hlv]
  have hside : stop.side = s := ht.sides .stop s stop hmem
  subst hside
  refine .trigger hmem (still_removeStop e stop) ?_
  have hbook : (e.removeStop stop).stopBook stop.side = (unlinkFrom stop (e.stopBook stop.side)).1 := by
    unfold removeStop
    dsimp only
    split <;> simp [setStopBook]
  rw [hbook]
  exact unlinkFrom_absent stop _

theorem checkAndTriggerStops_drifts (ht : World.Tidy ⟨e, none⟩)
    (h : e.checkAndTriggerStops X fuel ts rounds = .ok e') :
    Drifts X e₀ a ⟨e, none⟩ ⟨e', none⟩ := by
  refine (checkAndTriggerStops_ok (I := fun e' => Drifts X e₀ a ⟨e, none⟩ ⟨e', none⟩) ?_ h .refl).1
  intro e₁ stop e₂ hrun _ hnext hmatch
  have ht₁ := ht.drifts hrun
  have htake : Drift X e₀ a _ _ := removeStop_drift ht₁ hnext
  exact hrun.trans (.head htake (matchOrder_drifts (ht₁.drift htake) hmatch))

theorem matchAndTrigger_drifts (ht : World.Tidy ⟨e, some order⟩)
    (h : e.matchAndTrigger X fuel order ts = .ok e') :
    Drifts X e₀ a ⟨e, some order⟩ ⟨e', none⟩ := by
  obtain ⟨e₁, hmatch, hstops⟩ := matchAndTrigger_ok h
  have hrun : Drifts X e₀ a _ _ := matchOrder_drifts ht hmatch
  exact hrun.trans (checkAndTriggerStops_drifts (ht.drifts hrun) hstops)

/-! Cancels. -/

theorem still_bookRemoveOrder (h : e.bookRemoveOrder o = .ok r) :
    e.Still X r.2 ∧ ∃ k, holds (e.shelf k o.side) o.id = true ∧
      ∀ x ∈ ordersIn (r.2.shelf k o.side), x.id ≠ o.id := by
  rcases bookRemoveOrder_ok h with ⟨hin, rfl⟩ | ⟨⟨hin, -⟩, rfl⟩
  · refine ⟨still_removeOrder e o, .limit, hin, ?_⟩
    have hbook : (e.removeOrder o).2.shelf .limit o.side = (unlinkFrom o (e.book o.side)).1 := by
      simp [shelf, removeOrder_book]
    rw [hbook]
    exact unlinkFrom_absent o _
  · refine ⟨still_removeStop e o, .stop, hin, ?_⟩
    have hbook : (e.removeStop o).shelf .stop o.side = (unlinkFrom o (e.stopBook o.side)).1 := by
      simp [shelf, removeStop_stopBook]
    rw [hbook]
    exact unlinkFrom_absent o _

theorem still_cancelActiveOrder (h : e.cancelActiveOrder o ts reason = .ok e') : e.Still X e' := by
  rcases cancelActiveOrder_ok h with ⟨e₁, hrem, rfl⟩ | ⟨⟨freed, e₁⟩, hrem, rfl⟩
  · rcases stopBookRemoveStop_ok hrem with rfl | rfl
    · exact (still_removeStop e o).trans (still_dropOrder _ o ts reason)
    · exact (still_removeOrder e o).trans (still_dropOrder _ o ts reason)
  · have hreport : e₁.Still X (e₁.reportCancel o ts reason freed) :=
      ((still_dropOrder e₁ o ts reason).trans (.emit rfl)).trans
        (still_fireDepthAfterRemove _ freed o.side o.price ts)
    exact ((still_bookRemoveOrder hrem).1.trans hreport).trans
      (still_fireTopOfBookIfChanged _ ts _ _)

theorem still_rated (t : RateTracker) (e : Engine D) : e.Still X { e with rateTracker := t } :=
  .same rfl rfl rfl rfl

theorem still_reject (t : RateTracker) {ev : Event} (h : (event ev).posted = false)
    (e : Engine D) : e.Still X ({ e with rateTracker := t }.emit ev) :=
  .same rfl rfl (standing_emit { e with rateTracker := t } h) rfl

theorem still_cancelOrder {id : Nat} (h : e.cancelOrder X id ts = .ok e') : e.Still X e' := by
  obtain ⟨t, ⟨r, rfl⟩ | ⟨o, -, hcancel⟩⟩ := cancelOrder_ok h
  · exact still_reject t rfl e
  · exact (still_rated t e).trans (still_cancelActiveOrder hcancel)

theorem still_cancelWhere {select : Order → Bool} {ids : List Nat} {count : Nat}
    {r : Nat × Engine D} (h : e.cancelWhere select ts reason ids count = .ok r) :
    e.Still X r.2 :=
  cancelWhere_ok (fun _ _ _ _ hI _ hone => hI.trans (still_cancelActiveOrder hone))
    h (.refl e)

/-! Busts. -/

theorem thins_adjust (hf : ∀ x, (f x).core = x.core) (delta : Int) (lvls : List PriceLevel) :
    Thins lvls (onLevelOf o.id (fun l => { l with
      orders := l.orders.map (fun x => if x.id = o.id then f x else x)
      totalQuantity := l.totalQuantity + delta }) lvls) := by
  refine Thins.onLevelOf fun l _ _ => ⟨rfl, ?_⟩
  have hcores : (l.orders.map fun x => if x.id = o.id then f x else x).map Order.core =
      l.orders.map Order.core := by
    rw [map_map]
    refine map_congr_left fun x _ => ?_
    simp only [comp_apply]
    split
    · exact hf x
    · rfl
  exact hcores ▸ .refl _

theorem still_adjustOrder (o : Order) (hf : ∀ x, (f x).core = x.core) (delta : Int) (e : Engine D) :
    e.Still X (e.adjustOrder o f delta) :=
  (Still.setBook (thins_adjust hf delta _)).trans
    (.stopSide (thins_adjust hf delta _) rfl rfl rfl rfl)

theorem still_unfill {id : Nat} {q : Int} (h : e.unfill X id q = .ok e') : e.Still X e' := by
  rcases unfill_ok h with rfl | ⟨o, rfl⟩
  · exact .refl _
  · exact still_adjustOrder o (f := (·.fill (-q))) (fun _ => rfl) q e

theorem bustTrade_drifts {id : Nat} {reason : BustReason}
    (h : e.bustTrade X id reason ts = .ok e') : Drifts X e₀ a ⟨e, none⟩ ⟨e', none⟩ := by
  rcases bustTrade_ok h with rfl | ⟨record, e₁, e₂, hlook, hbusted, hfirst, hsecond, rfl⟩
  · exact .refl
  · have hback := (still_unfill hfirst).trans (still_unfill hsecond)
    have hposts : e.Posts X (e.standing.bust X id record reason ts)
        (e₂.reportBust X id record reason ts) := by
      refine ⟨hback.shelf, ?_, hback.config⟩
      have hst := hback.standing
      simp only [standing, Standing.mk.injEq] at hst
      obtain ⟨hpos, htrades, hnext, hposted⟩ := hst
      simp [reportBust, standing, Standing.bust, emit, hpos, htrades, hnext, hposted, posted]
    exact .single (.bust hlook hbusted hposts)

/-! Auctions. -/

theorem thins_auctionFill (id : Nat) (q : Int) (lvls : List PriceLevel) : Thins lvls (onLevelOf id
    (fun l => { l with totalQuantity := l.totalQuantity - q })
    (lvls.map (·.mapOrders fun o => if o.id = id then o.fill q else o))) :=
  (Thins.mapOrders (fun o => by split <;> rfl) lvls).trans
    (Thins.retotal id (fun l => l.totalQuantity - q) _)

theorem thins_auctionTrade (price ts : Int) (bid ask : Order) (q : Int) (e : Engine D) (k : Shelf)
    (s : Side) :
    Thins (e.shelf k s) ((e.auctionTrade X price ts (bid.fill q) (ask.fill q) q).shelf k s) := by
  cases k with
  | limit =>
    cases s with
    | buy =>
      exact thins_auctionFill bid.id q (e.book .buy)
    | sell =>
      exact thins_auctionFill ask.id q (e.book .sell)
  | stop =>
    have hbook : (e.auctionTrade X price ts (bid.fill q) (ask.fill q) q).stopBook = e.stopBook := by
      simp [auctionTrade, emit, setBook, fillResting]
    simp only [shelf, hbook]
    exact .refl _

theorem standing_auctionTrade (price ts : Int) (q : Int) (e : Engine D) (hb : bid.side = .buy)
    (hk : ask.side = .sell) :
    (e.auctionTrade X price ts (bid.fill q) (ask.fill q) q).standing =
      e.standing.trade X bid ask price q ts := by
  unfold auctionTrade
  dsimp only
  split <;> simp [standing, Standing.trade, emit, setBook, fillResting,
    filter_cons, posted, hb, hk, Order.fill]

theorem posts_auctionTrade (price ts : Int) (q : Int) (e : Engine D) (hb : bid.side = .buy)
    (hk : ask.side = .sell) :
    e.Posts X (e.standing.trade X bid ask price q ts)
      (e.auctionTrade X price ts (bid.fill q) (ask.fill q) q) :=
  ⟨thins_auctionTrade price ts bid ask q e, standing_auctionTrade price ts q e hb hk,
    fun _ => congrArg Context.config (context_auctionTrade e X price ts (bid.fill q) (ask.fill q) q)⟩

theorem still_auctionAdvance (ho : Agrees o (e.book o.side)) (next : Option Nat) (ts : Int) :
    e.Still X (e.auctionAdvance o next ts).2 := by
  unfold auctionAdvance auctionHandleFilledOrder
  split
  · split
    · exact still_revealTranche e ho ts
    · exact ((still_removeOrder e o).trans (still_fireDepthAfterRemove _ _ o.side o.price ts)).trans
        (still_release _ o)
  · exact .refl e

theorem cross_drifts (price ts : Int) (q : Int) (nextBid nextAsk : Option Nat)
    (ht : World.Tidy ⟨e, none⟩) (hb : bid ∈ ordersIn (e.book .buy))
    (hk : ask ∈ ordersIn (e.book .sell)) :
    Drifts X e₀ a ⟨e, none⟩ ⟨e.auctionStep X price ts bid ask q nextBid nextAsk, none⟩ := by
  have hbuy : bid.side = .buy := ht.sides .limit .buy bid hb
  have hsell : ask.side = .sell := ht.sides .limit .sell ask hk
  have hposts := posts_auctionTrade (X := X) price ts q e hbuy hsell
  have hbid : Agrees (bid.fill q) ((e.auctionTrade X price ts (bid.fill q) (ask.fill q) q).book
      (bid.fill q).side) := by
    rw [Order.fill_side, hbuy]
    exact ((ht.agrees .limit hb).thins (hposts.shelf .limit .buy)).congr rfl
  have hfirst := still_auctionAdvance (X := X) hbid nextBid ts
  have hask : Agrees (ask.fill q) (((e.auctionTrade X price ts (bid.fill q) (ask.fill q)
      q).auctionAdvance (bid.fill q) nextBid ts).2.book (ask.fill q).side) := by
    rw [Order.fill_side, hsell]
    exact hfirst.agrees (((ht.agrees .limit hk).thins (hposts.shelf .limit .sell)).congr rfl)
  exact .head (.cross hb hk hposts)
    ((hfirst.trans (still_auctionAdvance hask nextAsk ts)).drifts none)

theorem executeAuction_drifts {p : Int} (ht : World.Tidy ⟨e, none⟩)
    (h : e.executeAuction X fuel p ts = .ok e') : Drifts X e₀ a ⟨e, none⟩ ⟨e', none⟩ := by
  rcases executeAuction_ok h with rfl | ⟨e₁, hloop, rfl⟩
  · exact .refl
  · obtain ⟨-, hrun⟩ := auctionLoop_ok (I := fun _ e₁ => Drifts X e₀ a ⟨e, none⟩ ⟨e₁, none⟩)
      (fun _ _ _ _ _ _ _ _ hI hb hk => hI.trans (cross_drifts _ ts _ _ _ (ht.drifts hI)
        (mem_of_find?_eq_some hb) (mem_of_find?_eq_some hk))) hloop .refl
    refine hrun.trans (Still.drifts ?_ none)
    exact (still_fireTopOfBook e₁ ts).trans (.same rfl rfl rfl rfl)

/-! New orders and modifications. -/

theorem posts_acceptOrder (o : Order) (pool : ObjectPool SlotResidue) (ts : Int) (e : Engine D) :
    e.Posts X (e.standing.accept o ts) (e.acceptOrder o pool ts) where
  shelf _ _ := .refl _
  standing := by
    simp [acceptOrder, standing, Standing.accept, emit, posted]
  config _ := rfl

theorem routeOrder_drifts {pool : ObjectPool SlotResidue} (ht : World.Tidy ⟨e, none⟩)
    (hacc : e₀.Accepts X a req o) (hcall : e₀.Calls a e) (hstate : e.currentState = e₀.currentState)
    (h : (e.acceptOrder o pool req.timestamp).routeOrder X fuel req o = .ok e') :
    Drifts X e₀ a ⟨e, none⟩ ⟨e', none⟩ := by
  have hposts := posts_acceptOrder (X := X) o pool req.timestamp e
  have hprices : ∀ k s, (((e.acceptOrder o pool req.timestamp).shelf k s).map (·.price)).Nodup :=
    fun k s => (hposts.shelf k s).prices.nodup (ht.prices k s)
  have hrefuse : ∀ e₁ : Engine D, (e.acceptOrder o pool req.timestamp).Still X e₁ →
      Drifts X e₀ a ⟨e, none⟩ ⟨e₁, none⟩ := fun e₁ hs =>
    .head (.refuse hacc hcall hposts) (hs.drifts none)
  unfold routeOrder at h
  split at h
  next hstop =>
    cases h
    rcases insertIntoStopBook_cases o req.stopPrice (hprices .stop o.side) with
      heq | ⟨hlink, hst⟩
    · rw [heq]
      exact hrefuse _ (still_dropOrder _ o o.timestamp _)
    · exact .single (.park hacc hstop hcall ⟨hlink.here, hlink.prices, hlink.there, hlink.config⟩
        (hst.trans hposts.standing))
  next hstop =>
    split at h
    next hphase =>
      split at h
      next hlimit =>
        cases h
        have htop := still_fireTopOfBook (X := X)
          ((e.acceptOrder o pool req.timestamp).insertIntoBook o req.timestamp) req.timestamp
        rcases insertIntoBook_cases o req.timestamp (hprices .limit o.side) with ⟨-, heq⟩ | hlink
        · rw [heq]
          exact hrefuse _ ((still_dropOrder _ o req.timestamp _).trans (still_fireTopOfBook _ _))
        · have hphase₀ : e₀.currentState.isCollectionPhase = true := by
            rw [← hstate]
            exact hphase
          exact .head (.collect hacc hphase₀ hlimit hcall
            ⟨hlink.here, hlink.prices, hlink.there, hlink.config⟩
            ((Move.run_standing (X := X) (m := .rest o req.timestamp) rfl ⟨_, none⟩).trans hposts.standing)) (htop.drifts none)
      next =>
        cases h
        exact hrefuse _ (still_dropOrder _ o req.timestamp _)
    next =>
      have henter : Drift X e₀ a ⟨e, none⟩ ⟨e.acceptOrder o pool req.timestamp, some o⟩ :=
        .enter hacc (Bool.eq_false_iff.mpr hstop) hcall hposts
      exact .head henter (matchAndTrigger_drifts (ht.drift henter) h)

theorem record_drifts (a : Action) (e : Engine D) : Drifts X e₀ a ⟨e, none⟩ ⟨e.record a, none⟩ :=
  .single .note

theorem newOrder_drifts (ht : World.Tidy ⟨e, none⟩)
    (h : e.perform X fuel (.newOrder req) = .ok e') :
    Drifts X e (.newOrder req) ⟨e, none⟩ ⟨e', none⟩ := by
  have hrec : Drifts X e (.newOrder req) _ _ := record_drifts (.newOrder req) e
  have ht' := ht.drifts hrec
  refine hrec.trans ?_
  change (e.record (.newOrder req)).newOrder X fuel req = .ok e' at h
  rcases newOrder_cases fuel req (e.record (.newOrder req)) with
    ⟨t, reason, heq⟩ | ⟨t, slot, pool, -, hchecks, heq⟩
  · obtain rfl := Except.ok.inj (heq.symm.trans h)
    exact (still_reject t rfl _).drifts none
  · rw [heq] at h
    have hrate := still_rated (X := X) t (e.record (.newOrder req))
    exact (hrate.drifts none).trans (routeOrder_drifts (ht'.still hrate) ⟨rfl, hchecks, slot, rfl⟩
      ⟨rfl, currentAction_record _ e⟩ rfl h)

theorem mem_linked_of_indexed {id : Nat} (h : e.indexed id = .ok o) : o ∈ e.linked := by
  unfold indexed at h
  split at h
  · simp at h
  next order hderef =>
    cases h
    obtain ⟨p, -, hp⟩ := Option.bind_eq_some_iff.mp hderef
    exact mem_of_find?_eq_some hp

theorem reportPull_still (o : Order) (req : ModifyRequest) (freed : Bool) (e : Engine D) :
    e.Still X (e.reportPull o req freed) :=
  ((Still.emit rfl).trans (still_fireDepthAfterRemove _ freed o.side o.price _)).trans
    (.emit rfl)

theorem World.Tidy.shelf_of_holds (ht : World.Tidy ⟨e, none⟩) (ho : o ∈ e.linked)
    (hk : holds (e.shelf k o.side) o.id = true) : o ∈ ordersIn (e.shelf k o.side) := by
  simp only [holds, any_eq_true] at hk
  obtain ⟨l, hl, hhas⟩ := hk
  obtain ⟨x, hx, hid⟩ := PriceLevel.has_iff.mp hhas
  have hmem : x ∈ ordersIn (e.shelf k o.side) := mem_ordersIn.mpr ⟨l, hl, hx⟩
  have hn : (e.linked.map (·.id)).Nodup := holdings_ids e ▸ ht.linked
  obtain rfl := inj_on_of_nodup_map hn (mem_linked.mpr ⟨k, o.side, hmem⟩) ho hid
  exact hmem

theorem coresIn_onLevelOf {id : Nat} {f : PriceLevel → PriceLevel} {g : Order → Order}
    (hf : ∀ l, (f l).orders.map Order.core = (l.orders.map Order.core).map g)
    (hg : ∀ c, c.id ≠ id → g c = c) (lvls : List PriceLevel) :
    coresIn (onLevelOf id f lvls) = (coresIn lvls).map g := by
  induction lvls with
  | nil => rfl
  | cons l lvls ih =>
    rw [onLevelOf, List.map_cons, coresIn_cons, coresIn_cons, map_append]
    congr 1
    split
    · exact hf l
    next hnone =>
      have hne := PriceLevel.has_eq_false.mp (Bool.eq_false_iff.mpr hnone)
      refine (map_eq_self fun c hc => hg c ?_).symm
      obtain ⟨o, ho, rfl⟩ := mem_map.mp hc
      exact hne o ho

theorem prices_onLevelOf {id : Nat} {f : PriceLevel → PriceLevel} (hf : ∀ l, (f l).price = l.price)
    (lvls : List PriceLevel) : (onLevelOf id f lvls).map (·.price) = lvls.map (·.price) := by
  rw [onLevelOf, map_map]
  refine map_congr_left fun l _ => ?_
  simp only [comp_apply]
  split
  · exact hf l
  · rfl

theorem adjustOrder_shelf (o : Order) (f : Order → Order) (delta : Int) (e : Engine D) (k : Shelf)
    (s : Side) : (e.adjustOrder o f delta).shelf k s = if s = o.side then
      onLevelOf o.id (fun l => { l with
        orders := l.orders.map (fun x => if x.id = o.id then f x else x)
        totalQuantity := l.totalQuantity + delta }) (e.shelf k s) else e.shelf k s := by
  by_cases hs : s = o.side
  · subst hs
    cases k <;> simp [shelf, adjustOrder, setBook, setStopBook]
  · cases k <;> simp [shelf, adjustOrder, setBook, setStopBook, hs]

theorem amendOrder_shelf (o : Order) (req : ModifyRequest) (e : Engine D) :
    (e.amendOrder o req).shelf = (e.adjustOrder o (fun x => { x with
      quantity := req.newQuantity
      remainingQuantity := req.newQuantity - o.filledQuantity })
      (-(o.remainingQuantity - (req.newQuantity - o.filledQuantity)))).shelf := by
  unfold amendOrder
  dsimp only
  split <;> rfl

theorem amendOrder_drift {req : ModifyRequest} (hmod : e₀.Modifies X a req o) (ho : o ∈ e.linked)
    (hamends : e₀.amends X o req = true) : Drift X e₀ a ⟨e, none⟩ ⟨e.amendOrder o req, none⟩ := by
  refine .amend hmod ho hamends ?_ ?_ ?_ (Move.run_standing (X := X) (m := .amend o req) rfl ⟨e, none⟩)
    (congrArg Context.config (Move.run_context (X := X) (m := .amend o req) rfl ⟨e, none⟩))
  · intro k
    rw [amendOrder_shelf, adjustOrder_shelf, if_pos rfl]
    refine coresIn_onLevelOf (fun l => ?_) (fun c hc => if_neg hc) _
    rw [map_map, map_map]
    refine map_congr_left fun x _ => ?_
    simp only [comp_apply]
    by_cases hx : x.id = o.id
    · rw [if_pos hx, if_pos (show x.core.id = o.id from hx)]
      rfl
    · rw [if_neg hx, if_neg (show ¬x.core.id = o.id from hx)]
  · intro k s hs
    rw [amendOrder_shelf, adjustOrder_shelf, if_neg hs]
  · intro k s
    rw [amendOrder_shelf, adjustOrder_shelf]
    split
    · refine prices_onLevelOf (fun l => ?_) _
      rfl
    · rfl

theorem modifyOrder_drifts {req : ModifyRequest} (ht : World.Tidy ⟨e, none⟩)
    (h : e.perform X fuel (.modifyOrder req) = .ok e') :
    Drifts X e (.modifyOrder req) ⟨e, none⟩ ⟨e', none⟩ := by
  have hrec : Drifts X e (.modifyOrder req) _ _ := record_drifts (.modifyOrder req) e
  have ht' := ht.drifts hrec
  refine hrec.trans ?_
  obtain ⟨t, ⟨r, rfl⟩ | ⟨o, -, hindexed, hchecks, hcase⟩⟩ := modifyOrder_ok h
  · exact (still_reject t rfl _).drifts none
  · have ho : o ∈ e.linked := mem_linked_of_indexed (e := e.record (.modifyOrder req)) hindexed
    have hrate := still_rated (X := X) t (e.record (.modifyOrder req))
    have hmod : e.Modifies X (.modifyOrder req) req o := ⟨rfl, hchecks, ho⟩
    refine (hrate.drifts none).trans ?_
    rcases hcase with ⟨hamends, rfl⟩ | ⟨-, e₁, hpull, hmatch⟩
    · exact .single (amendOrder_drift hmod ho hamends)
    · obtain ⟨⟨freed, e₂⟩, hrem, rfl⟩ := pullOrder_ok hpull
      obtain ⟨hstill, k, hk, habsent⟩ := still_bookRemoveOrder hrem
      have hreport := reportPull_still (X := X) o req freed e₂
      have hin := (ht'.still hrate).shelf_of_holds ho hk
      have htake : Drift X e (.modifyOrder req)
          ⟨{ e.record (.modifyOrder req) with rateTracker := t }, none⟩
          ⟨e₂.reportPull o req freed, some (o.replaced req)⟩ := by
        refine .pull hmod hin (hstill.trans hreport) fun x hx => ?_
        obtain ⟨y, hy, hcore⟩ := (hreport.shelf k o.side).exists_core hx
        exact (Order.id_of_core hcore) ▸ habsent y hy
      exact .head htake (matchAndTrigger_drifts ((ht'.still hrate).drift htake) hmatch)

/-! Implied fills. -/

theorem World.Tidy.agrees_linked (ht : World.Tidy ⟨e, none⟩) (ho : o ∈ e.linked) (k : Shelf)
    (s : Side) : Agrees o (e.shelf k s) := by
  intro x hx hid
  have hn : (e.linked.map (·.id)).Nodup := holdings_ids e ▸ ht.linked
  rw [inj_on_of_nodup_map hn (mem_linked.mpr ⟨k, s, hx⟩) ho hid]

theorem still_impliedReveal (ho : ∀ k, Agrees o (e.shelf k o.side)) (ts : Int) :
    e.Still X (e.impliedReveal ts o) := by
  unfold impliedReveal fireDepthHolding
  dsimp only
  have hqueue : e.Still X ((e.setBook o.side (onLevelOf o.id (·.requeue o
      (min o.displayQty (o.totalQty - o.filledQuantity))) (e.book o.side))).setStopBook o.side
      (onLevelOf o.id (·.requeue o (min o.displayQty (o.totalQty - o.filledQuantity)))
        (e.stopBook o.side))) :=
    (Still.setBook (thins_requeue (ho .limit) _)).trans
      (.stopSide (thins_requeue (ho .stop) _) rfl rfl rfl rfl)
  split
  · exact hqueue.trans (.emit rfl)
  · exact (hqueue.trans (.emit rfl)).trans (.emit rfl)

theorem thins_impliedTrade (ts : Int) (fill : LegFill) (o : Order) (e : Engine D) (k : Shelf)
    (s : Side) : Thins (e.shelf k s) ((e.impliedTrade X ts fill o).shelf k s) := by
  have hadjust := still_adjustOrder (X := X) o (f := (·.fill fill.fillQty)) (fun _ => rfl)
    (-fill.fillQty) e
  exact hadjust.shelf k s

theorem applyImpliedFill_drifts {fill : LegFill} (ht : World.Tidy ⟨e, none⟩)
    (h : e.applyImpliedFill X ts' fill = .ok e') :
    Drifts X e₀ (.applyImpliedFills fills ts) ⟨e, none⟩ ⟨e', none⟩ := by
  obtain ⟨o, hindexed, hcase⟩ := applyImpliedFill_ok h
  have ho := mem_linked_of_indexed hindexed
  let o₁ := o.fill fill.fillQty
  have hthins := thins_impliedTrade (X := X) ts' fill o₁ e
  have hagrees : ∀ k, Agrees o₁ ((e.impliedTrade X ts' fill o₁).shelf k o₁.side) := fun k =>
    ((ht.agrees_linked ho k _).thins (hthins k _)).congr rfl
  refine .head (.leg rfl hthins rfl rfl) (Still.drifts ?_ none)
  rcases hcase with ⟨-, rfl⟩ | rfl | ⟨r, hrem, rfl⟩
  · exact still_impliedReveal hagrees ts'
  · unfold fireDepthHolding
    split
    · exact .refl _
    · exact .emit rfl
  · exact ((still_bookRemoveOrder hrem).1.trans
      (still_fireDepthAfterRemove _ r.1 _ _ ts')).trans (still_release _ _)

theorem applyImpliedFills_drifts (ht : World.Tidy ⟨e, none⟩)
    (h : e.applyImpliedFills X fills ts = .ok r) :
    Drifts X e₀ (.applyImpliedFills fills ts) ⟨e, none⟩ ⟨r.2, none⟩ := by
  rcases applyImpliedFills_ok h with heq | ⟨e₁, hlegs, heq⟩
  · rw [heq]
  · have hrun := applyImpliedLegs_ok
      (I := fun e₁ => Drifts X e₀ (.applyImpliedFills fills ts) ⟨e, none⟩ ⟨e₁, none⟩)
      (fun _ _ _ hI _ hleg => hI.trans (applyImpliedFill_drifts (ht.drifts hI) hleg)) hlegs .refl
    rw [heq]
    exact hrun.trans ((still_fireTopOfBook e₁ ts).drifts none)

theorem still_publishIndicativePrice (p ts : Int) (e : Engine D) :
    e.Still X (e.publishIndicativePrice p ts) := by
  unfold publishIndicativePrice
  dsimp only
  split
  · exact .emit rfl
  · exact .refl e

theorem map_snd_ok {α : Type} {r : Outcome D (α × Engine D)} (h : r.map (·.2) = .ok e') :
    ∃ x, r = .ok x ∧ x.2 = e' := by
  cases r with
  | error err => simp [Except.map] at h
  | ok x => exact ⟨x, rfl, Except.ok.inj h⟩

/-- Every operation but `restore_order` is a run of drifts. -/
theorem perform_drifts (ht : World.Tidy ⟨e, none⟩) (ha : ∀ s ts, a ≠ .restoreOrder s ts)
    (h : e.perform X fuel a = .ok e') : Drifts X e a ⟨e, none⟩ ⟨e', none⟩ := by
  have hrec : Drifts X e a _ _ := record_drifts a e
  have ht' := ht.drifts hrec
  cases a with
  | newOrder req => exact newOrder_drifts ht h
  | modifyOrder req => exact modifyOrder_drifts ht h
  | cancelOrder id ts => exact hrec.trans ((still_cancelOrder h).drifts none)
  | triggerExpiry | massCancel | massCancelAll =>
    obtain ⟨r, hr, rfl⟩ := map_snd_ok h
    exact hrec.trans ((still_cancelWhere hr).drifts none)
  | restoreOrder s ts => exact absurd rfl (ha s ts)
  | bustTrade id reason ts => exact hrec.trans (bustTrade_drifts h)
  | setSessionState s ts =>
    cases h
    exact hrec.trans ((Still.session (setSessionState_steps X ts _ s)).drifts none)
  | unlockLimit ts =>
    cases h
    exact hrec.trans ((Still.session (unlockLimit_steps X ts _)).drifts none)
  | executeAuction p ts => exact hrec.trans (executeAuction_drifts ht' h)
  | publishIndicativePrice p ts =>
    cases h
    exact hrec.trans ((still_publishIndicativePrice p ts _).drifts none)
  | applyImpliedFills fills ts =>
    obtain ⟨r, hr, rfl⟩ := map_snd_ok h
    exact hrec.trans (applyImpliedFills_drifts ht' hr)

theorem init_tidy (X : Exchange D) (config : EngineConfig) (derived : D)
    (slots : Nat → SlotResidue) : World.Tidy ⟨init X config derived slots, none⟩ where
  ids := by simp [World.ids, ids, holdings, shelf, init, idsIn]
  assigned := by simp [World.ids, ids, holdings, shelf, init, idsIn]
  prices k s := by cases k <;> simp [shelf, init]
  sides k s := by cases k <;> simp [shelf, init]

theorem reach_drifts {ok : Engine D → Action → Prop} {I : World D → Prop}
    (ht : World.Tidy ⟨e₀, none⟩) (hI : I ⟨e₀, none⟩)
    (hok : ∀ e a, ok e a → ∀ s ts, a ≠ .restoreOrder s ts)
    (hstep : ∀ e a, ok e a → World.Tidy ⟨e, none⟩ → I ⟨e, none⟩ →
      ∀ W W', W.Tidy → I W → Drift X e a W W' → I W')
    (h : Reach X ok e₀ e) : World.Tidy ⟨e, none⟩ ∧ I ⟨e, none⟩ := by
  induction h with
  | start => exact ⟨ht, hI⟩
  | @step e e' a fuel _ ha hperf ih =>
    have hrun := perform_drifts ih.1 (hok e a ha) hperf
    have hall : ∀ W, Drifts X e a ⟨e, none⟩ W → W.Tidy ∧ I W := by
      intro W hW
      induction hW with
      | refl => exact ih
      | tail _ hd ihW => exact ⟨ihW.1.drift hd, hstep e a ha ih.1 ih.2 _ _ ihW.1 ihW.2 hd⟩
    exact hall _ hrun

end ExchangeSim
