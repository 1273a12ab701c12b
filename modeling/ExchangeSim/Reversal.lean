import ExchangeSim.Exposure
import ExchangeSim.ImpliedBust
import ExchangeSim.MassCancel
import Mathlib.Algebra.BigOperators.Intervals

/-!
What is filled of an order is what the trades that name it come to, those that were busted left
out, and so is the position of an account. When every trade is busted nothing is left of either.
-/

namespace ExchangeSim

variable {D : Type} {X : Exchange D} {w : Prop} {W : World D} {e : Engine D} {q ts price : Int}
  {config : EngineConfig} {derived : D} {slots : Nat → SlotResidue} {t : TradeRecord}
  {o a r : Order} {V : World D} {account : Nat} {m : Move D}

/-! Sums over the registry. -/

/-- What `f` makes of trade `n`, nothing if it is busted. -/
def TradeRegistry.liveAt (f : TradeRecord → Int) (g : TradeRegistry) (n : Nat) : Int :=
  match g.trades n with
  | some t => if t.busted then 0 else f t
  | none => 0

def TradeRegistry.live (f : TradeRecord → Int) (g : TradeRegistry) : Int :=
  ∑ n ∈ Finset.Ico 1 g.nextTradeId, g.liveAt f n

namespace TradeRegistry

variable {g : TradeRegistry} {f : TradeRecord → Int}

theorem live_record {m a r : Nat} {s : Side} {aa ra : Nat} (hpos : 0 < g.nextTradeId)
    (hroom : g.nextTradeId < m) :
    (g.record m a r price q ts s aa ra).live f =
      g.live f + f ⟨g.nextTradeId, a, r, price, q, ts, s, aa, ra, false⟩ := by
  have hrec : g.record m a r price q ts s aa ra = ⟨g.nextTradeId + 1, Function.update g.trades
      g.nextTradeId (some ⟨g.nextTradeId, a, r, price, q, ts, s, aa, ra, false⟩)⟩ :=
    if_neg (by omega)
  rw [hrec, live, live, Finset.sum_Ico_succ_top hpos]
  congr 1
  · refine Finset.sum_congr rfl fun n hn => ?_
    have hne : n ≠ g.nextTradeId := (Finset.mem_Ico.mp hn).2.ne
    simp [liveAt, hne]
  · simp [liveAt]

theorem liveAt_markBusted (id : Nat) :
    (g.markBusted id).liveAt f = Function.update (g.liveAt f) id 0 := by
  funext n
  by_cases hn : n = id
  · subst hn
    simp only [liveAt, markBusted, Function.update_self]
    cases g.trades n <;> simp
  · simp [liveAt, markBusted, hn]

theorem live_markBusted {id : Nat} (hlook : g.lookup id = some t) (hlive : t.busted = false) :
    (g.markBusted id).live f = g.live f - f t := by
  obtain ⟨hpos, hlt⟩ := lookup_lt hlook
  have hmem : id ∈ Finset.Ico 1 g.nextTradeId := Finset.mem_Ico.mpr ⟨hpos, hlt⟩
  have htrade : g.trades id = some t := by
    rwa [lookup, if_neg (by omega)] at hlook
  have hat : g.liveAt f id = f t := by simp [liveAt, htrade, hlive]
  have hnext : (g.markBusted id).nextTradeId = g.nextTradeId := rfl
  rw [live, hnext, liveAt_markBusted, Finset.sum_update_of_mem hmem, live,
    Finset.sum_eq_sum_sdiff_singleton_add hmem (g.liveAt f), hat]
  ring

theorem live_eq_zero (h : ∀ n, 0 < n → n < g.nextTradeId → ∃ t, g.trades n = some t ∧
    t.busted = true) : g.live f = 0 := by
  refine Finset.sum_eq_zero fun n hn => ?_
  obtain ⟨hpos, hlt⟩ := Finset.mem_Ico.mp hn
  obtain ⟨t, ht, hb⟩ := h n hpos hlt
  simp [liveAt, ht, hb]

end TradeRegistry

def TradeRecord.stake (id : Nat) (t : TradeRecord) : Int :=
  (if t.aggressorId = id then t.quantity else 0) + if t.restingId = id then t.quantity else 0

def TradeRecord.share (account : Nat) (t : TradeRecord) : Int :=
  (if t.aggressorAccountId = account then t.aggressorSide.signed t.quantity else 0) +
    if t.restingAccountId = account then t.aggressorSide.opposite.signed t.quantity else 0

def tradeCount (journal : List JournalEntry) : Nat :=
  (journal.filter JournalEntry.isTrade).length

def JournalEntry.bustOf : JournalEntry → Option Nat
  | .event (.tradeBusted id ..) => some id
  | _ => none

def Engine.busts (e : Engine D) : List Nat :=
  e.journal.filterMap JournalEntry.bustOf

theorem busts_standing (e : Engine D) :
    e.busts = e.standing.posted.filterMap JournalEntry.bustOf := by
  rw [Engine.busts, Engine.standing, List.filterMap_filter]
  refine List.filterMap_congr fun x _ => ?_
  cases x with
  | action a => rfl
  | event ev => cases ev <;> rfl

/-- Every trade is in the registry, none is busted, and the positions are what they come to. -/
structure Standing.Tallied (X : Exchange D) (S : Standing) : Prop where
  tracked : ∀ account, X.Tracks account → S.positions account = S.trades.live (·.share account)
  untracked : ∀ account, ¬X.Tracks account → S.positions account = 0
  counted : S.trades.nextTradeId = tradeCount S.posted + 1
  recorded : ∀ n, 0 < n → n < S.trades.nextTradeId → ∃ t, S.trades.trades n = some t ∧
    t.busted = false ∧ t.aggressorId < S.nextOrderId ∧ t.restingId < S.nextOrderId
  unbusted : S.posted.filterMap JournalEntry.bustOf = []

theorem updateFill_untracked (h : ¬X.Tracks account) (owner : Nat) (s : Side) (q : Int)
    (p : Positions) : updateFill X.maxAccounts owner s q p account = p account := by
  unfold updateFill
  split
  · rfl
  next howner =>
    have hne : account ≠ owner := by
      rintro rfl
      exact h ⟨by omega, by omega⟩
    cases s <;> simp [hne]

namespace Standing.Tallied

variable {S : Standing}

theorem tradeCount_trade (S : Standing) (a r : Order) (price q ts : Int) :
    tradeCount (S.trade X a r price q ts).posted = tradeCount S.posted + 1 := by
  rw [tradeCount, Standing.trade, List.filter_append, List.length_append]
  rfl

theorem trade (h : S.Tallied X) (hside : r.side = a.side.opposite) (ha : a.id < S.nextOrderId)
    (hr : r.id < S.nextOrderId) (price q ts : Int)
    (hroom : tradeCount S.posted + 1 < X.maxOrderIds) : (S.trade X a r price q ts).Tallied X := by
  have hcount := h.counted
  have hlive : ∀ f, (S.trade X a r price q ts).trades.live f = S.trades.live f +
      f ⟨S.trades.nextTradeId, a.id, r.id, price, q, ts, a.side, a.accountId, r.accountId, false⟩ :=
    fun f => TradeRegistry.live_record (by omega) (by omega)
  have hrec : (S.trade X a r price q ts).trades = ⟨S.trades.nextTradeId + 1,
      Function.update S.trades.trades S.trades.nextTradeId (some ⟨S.trades.nextTradeId, a.id, r.id,
        price, q, ts, a.side, a.accountId, r.accountId, false⟩)⟩ := if_neg (by omega)
  refine ⟨fun account ht => ?_, fun account ht => ?_, ?_, fun n hpos hlt => ?_, ?_⟩
  · rw [hlive, ← h.tracked account ht]
    simp only [Standing.trade, TradeRecord.share]
    rw [updateFill_apply ht.1 ht.2, updateFill_apply ht.1 ht.2, hside, add_assoc]
  · simp only [Standing.trade]
    rw [updateFill_untracked ht, updateFill_untracked ht, h.untracked account ht]
  · rw [tradeCount_trade, hrec, ← hcount]
  · rw [hrec] at hlt ⊢
    by_cases hn : n = S.trades.nextTradeId
    · subst hn
      exact ⟨_, Function.update_self .., rfl, ha, hr⟩
    · dsimp only at hlt ⊢
      rw [Function.update_of_ne hn]
      exact h.recorded n hpos (by omega)
  · simp [Standing.trade, h.unbusted, JournalEntry.bustOf]

theorem accept (h : S.Tallied X) (o : Order) (ts : Int) : (S.accept o ts).Tallied X where
  tracked := h.tracked
  untracked := h.untracked
  counted := by simpa [Standing.accept, tradeCount, JournalEntry.isTrade] using h.counted
  recorded n hpos hlt := by
    obtain ⟨t, ht, hb, ha, hr⟩ := h.recorded n hpos hlt
    exact ⟨t, ht, hb, lt_max_of_lt_left ha, lt_max_of_lt_left hr⟩
  unbusted := by simp [Standing.accept, h.unbusted, JournalEntry.bustOf]

theorem quiet (h : S.Tallied X) {entries : List JournalEntry}
    (hq : ∀ x ∈ entries, x.isTrade = false ∧ x.bustOf = none) :
    ({ S with posted := S.posted ++ entries } : Standing).Tallied X where
  tracked := h.tracked
  untracked := h.untracked
  counted := by
    have hnone : entries.filter JournalEntry.isTrade = [] :=
      List.filter_eq_nil_iff.mpr fun x hx => by simp [(hq x hx).1]
    simpa [tradeCount, hnone] using h.counted
  recorded := h.recorded
  unbusted := by
    rw [List.filterMap_append, h.unbusted, List.nil_append]
    exact List.filterMap_eq_nil_iff.mpr fun x hx => (hq x hx).2

theorem stake_fresh (h : S.Tallied X) {id : Nat} (hid : S.nextOrderId ≤ id) :
    S.trades.live (·.stake id) = 0 := by
  refine Finset.sum_eq_zero fun n hn => ?_
  obtain ⟨hpos, hlt⟩ := Finset.mem_Ico.mp hn
  obtain ⟨t, ht, hb, ha, hr⟩ := h.recorded n hpos hlt
  have hna : t.aggressorId ≠ id := by omega
  have hnr : t.restingId ≠ id := by omega
  simp [TradeRegistry.liveAt, ht, hb, TradeRecord.stake, hna, hnr]

end Standing.Tallied

/-- What is filled of an order, against a sum of trades. -/
def FilledBy (X : Exchange D) (n : Int) (o : Option Order) : Prop :=
  ∀ x ∈ o, x.filledQuantity = n ∧ x.id < X.maxOrderIds

namespace FilledBy

variable {n : Int} {o o' : Order}

theorem none (n : Int) : FilledBy X n none := by
  simp [FilledBy]

theorem congr (h : FilledBy X n (some o)) (hf : o'.filledQuantity = o.filledQuantity)
    (hid : o'.id = o.id) : FilledBy X n (some o') := by
  intro x hx
  obtain rfl := Option.some.inj hx
  obtain ⟨hfill, hlt⟩ := h o rfl
  exact ⟨hf.trans hfill, hid ▸ hlt⟩

theorem filled (h : FilledBy X n (some o)) {r : Option Order}
    (hr : ∀ x ∈ r, x.filledQuantity = o.filledQuantity + q ∧ x.id = o.id) :
    FilledBy X (n + q) r := by
  intro x hx
  obtain ⟨hfill, hlt⟩ := h o rfl
  obtain ⟨hq, hid⟩ := hr x hx
  exact ⟨by rw [hq, hfill], hid ▸ hlt⟩

end FilledBy

theorem Order.settled_filled {x : Order} (h : o.settled q = some x) :
    x.filledQuantity = o.filledQuantity + q := by
  unfold Order.settled at h
  split at h
  · split at h
    · exact Option.some.inj h ▸ rfl
    · simp at h
  · exact Option.some.inj h ▸ rfl

/-- The registry knows all trades of a world without busts, and every order is filled by what
its trades come to. -/
structure World.Tallied (X : Exchange D) (W : World D) : Prop where
  standing : W.engine.standing.Tallied X
  fills : Agree (FilledBy X) (fun id => W.engine.tradeRegistry.live (·.stake id)) W.view

namespace World.Tallied

theorem keep (h : W.Tallied X) (hst : V.engine.standing = W.engine.standing)
    (hview : ∀ id, FilledBy X (W.engine.tradeRegistry.live (·.stake id)) (W.view id) →
      FilledBy X (W.engine.tradeRegistry.live (·.stake id)) (V.view id)) : V.Tallied X where
  standing := hst ▸ h.standing
  fills id := by
    have htrades : V.engine.tradeRegistry = W.engine.tradeRegistry :=
      congrArg Standing.trades hst
    rw [htrades]
    exact hview id (h.fills id)

theorem keep_update (h : W.Tallied X) (hst : V.engine.standing = W.engine.standing)
    {o' : Option Order} (ho : W.view o.id = some o)
    (hview : V.view = Function.update W.view o.id o')
    (hkeep : ∀ n, FilledBy X n (some o) → FilledBy X n o') : V.Tallied X := by
  refine h.keep hst fun id hid => ?_
  rw [hview]
  by_cases he : id = o.id
  · subst he
    rw [Function.update_self]
    exact hkeep _ (ho ▸ hid)
  · rw [Function.update_of_ne he]
    exact hid

theorem trade (h : W.Tallied X) (hs : W.Sound X w)
    (hst : V.engine.standing = W.engine.standing.trade X a r price q ts) (ha : W.view a.id = some a)
    (hr : W.view r.id = some r) (hside : r.side = a.side.opposite)
    (hroom : tradeCount V.engine.standing.posted < X.maxOrderIds) {a' r' : Option Order}
    (hview : V.view = Function.update (Function.update W.view r.id r') a.id a')
    (ha' : ∀ x ∈ a', x.filledQuantity = a.filledQuantity + q ∧ x.id = a.id)
    (hr' : ∀ x ∈ r', x.filledQuantity = r.filledQuantity + q ∧ x.id = r.id) : V.Tallied X := by
  have hne : a.id ≠ r.id := World.id_ne ha hr (by rw [hside]; exact a.side.opposite_ne.symm)
  rw [hst, Standing.Tallied.tradeCount_trade] at hroom
  refine ⟨hst ▸ h.standing.trade hside (hs.view_lt ha) (hs.view_lt hr) price q ts hroom, ?_⟩
  have htrades : V.engine.tradeRegistry =
      (W.engine.standing.trade X a r price q ts).trades := congrArg Standing.trades hst
  have hcount := h.standing.counted
  have hlive : ∀ f, V.engine.tradeRegistry.live f = W.engine.tradeRegistry.live f +
      f ⟨W.engine.tradeRegistry.nextTradeId, a.id, r.id, price, q, ts, a.side, a.accountId,
        r.accountId, false⟩ := by
    intro f
    rw [htrades]
    exact TradeRegistry.live_record (by omega) (by omega)
  intro id
  have hid : FilledBy X (W.engine.tradeRegistry.live (·.stake id)) (W.view id) := h.fills id
  change FilledBy X (V.engine.tradeRegistry.live (·.stake id)) (V.view id)
  rw [hlive, hview]
  by_cases hida : id = a.id
  · subst hida
    rw [ha] at hid
    simpa [TradeRecord.stake, hne.symm] using hid.filled ha'
  · rw [Function.update_of_ne hida]
    by_cases hidr : id = r.id
    · subst hidr
      rw [hr] at hid
      simpa [TradeRecord.stake, hne] using hid.filled hr'
    · rw [Function.update_of_ne hidr]
      simpa [TradeRecord.stake, Ne.symm hida, Ne.symm hidr] using hid

theorem enter (h : W.Tallied X) (hs : W.Sound X w) (hfl : W.flight = some o)
    (hst : V.engine.standing = W.engine.standing)
    (hview : V.view = if W.engine.levelPool.allocate.isNone then Function.update W.view o.id none
      else W.view) : V.Tallied X := by
  split at hview
  · exact h.keep_update hst (hs.view_flight hfl) hview fun n _ => .none n
  · exact h.keep hst fun id hid => hview ▸ hid

end World.Tallied

def Move.lasting : Move D → Bool
  | .markBusted _ => false
  | .unfill .. => false
  | .bust .. => false
  | _ => true

theorem quiet_posted {x : JournalEntry} (h : x.quiet = true) :
    x.isTrade = false ∧ x.bustOf = none := by
  cases x with
  | action a => exact ⟨rfl, rfl⟩
  | event ev => cases ev <;> first | exact ⟨rfl, rfl⟩ | simp [JournalEntry.quiet] at h

theorem next_lt_of_checks {req : OrderRequest} (h : firstFailure (e.newOrderChecks X req) = none) :
    e.nextOrderId < X.maxOrderIds := by
  have := firstFailure_eq_none h
    (c := (decide (e.nextOrderId ≥ X.maxOrderIds), .poolExhausted)) (by simp [Engine.newOrderChecks])
  simpa using this

theorem World.Tallied.run (h : W.Tallied X) (hs : W.Sound X w) (hg : m.guard X W)
    (hm : m.lasting = true)
    (hroom : tradeCount (m.run X W).engine.standing.posted < X.maxOrderIds) :
    (m.run X W).Tallied X := by
  have hview := hs.view_run hg
  have hst := fun h => m.run_standing (X := X) h W
  cases m with
  | note tracker entries =>
    have hst : (Move.run X (.note tracker entries) W).engine.standing =
        { W.engine.standing with
          posted := W.engine.standing.posted ++ entries.filter JournalEntry.posted } := by
      simp [Move.run, Engine.standing]
    refine ⟨hst ▸ h.standing.quiet fun x hx => quiet_posted (hg x (List.mem_of_mem_filter hx)), ?_⟩
    exact h.fills
  | accept req slot pool =>
    obtain ⟨hfl, -, hchecks, -⟩ := hg
    have hst : (Move.run X (.accept req slot pool) W).engine.standing =
        W.engine.standing.accept (W.engine.buildOrder X req slot) req.timestamp := by
      simp [Move.run, Engine.acceptOrder, Engine.standing, Engine.emit, Standing.accept,
        JournalEntry.posted]
    refine ⟨hst ▸ h.standing.accept _ _, fun id => ?_⟩
    rw [hview]
    by_cases hid : id = W.engine.nextOrderId
    · subst hid
      have hfresh : W.engine.standing.trades.live (·.stake W.engine.nextOrderId) = 0 :=
        h.standing.stake_fresh le_rfl
      simp only [Move.write, Function.update_self]
      intro x hx
      obtain rfl := Option.some.inj hx
      exact ⟨hfresh.symm, next_lt_of_checks hchecks⟩
    · simp only [Move.write, Function.update_of_ne hid]
      exact h.fills id
  | adjust order remaining =>
    exact h.keep_update rfl (hs.view_flight hg) hview fun n hn => hn.congr rfl rfl
  | fill ts order resting f left reported =>
    obtain ⟨hfl, hmeet⟩ := hg
    obtain ⟨hrest, hside, -, -⟩ := hs.rests_of_meets hmeet
    refine h.trade hs (standing_bookFill ts order resting f reported W.engine)
      (hs.view_flight hfl) (hs.view_rests hrest) hside hroom hview ?_
      fun x hx => ⟨Order.settled_filled hx, Order.settled_id hx⟩
    rintro x hx
    obtain rfl := Option.some.inj hx
    exact ⟨rfl, rfl⟩
  | cancelResting ts order resting f notify =>
    exact h.keep_update (hst rfl) (hs.view_rests hg.2.1) hview fun n _ => .none n
  | drop order ts reason =>
    exact h.keep_update (hst rfl) (hs.view_flight hg) hview fun n _ => .none n
  | finish order => exact h.keep_update rfl (hs.view_flight hg.1) hview fun n _ => .none n
  | rest | park => exact h.enter hs hg.1 (hst rfl) hview
  | trigger stop =>
    obtain ⟨hfl, -, hnext⟩ := hg
    have hwait := nextTriggeredStop_waits (hs.holds_none hfl) hnext
    refine h.keep_update (hst rfl) (hs.view_waits hwait) hview fun n hn => ?_
    refine hn.congr ?_ stop.triggered_id
    unfold Order.triggered
    split <;> rfl
  | pull order req =>
    exact h.keep_update (hst rfl) (hs.view_rests hg.2) hview fun n hn => hn.congr rfl rfl
  | cancel order ts reason =>
    exact h.keep_update (hst rfl) (hs.view_rests hg.2) hview fun n _ => .none n
  | cancelStop order ts reason =>
    exact h.keep_update (hst rfl) (hs.view_waits hg.2) hview fun n _ => .none n
  | amend order req =>
    exact h.keep_update (hst rfl) (hs.view_rests hg.2.1) hview
      fun n hn => hn.congr rfl rfl
  | cross price ts bid ask q =>
    obtain ⟨-, hbid, hbuy, -, hask, hsell, -⟩ := hg
    have hb := hs.view_rests hbid
    have ha := hs.view_rests hask
    have hne : bid.id ≠ ask.id := World.id_ne hb ha (by simp [hbuy, hsell])
    simp only [Move.write] at hview
    rw [Function.update_comm hne] at hview
    exact h.trade hs (standing_bookCross price ts q W.engine hbuy hsell) hb ha
      (by rw [hbuy, hsell]; rfl) hroom hview
      (fun x hx => ⟨Order.settled_filled hx, Order.settled_id hx⟩)
      fun x hx => ⟨Order.settled_filled hx, Order.settled_id hx⟩
  | topOfBook | session => exact h.keep (hst rfl) fun id hid => hid
  | reference | hook => exact h.keep rfl fun id hid => hid
  | _ => simp [Move.lasting] at hm

theorem tradeCount_filter {p : JournalEntry → Bool} (hp : ∀ t, p (.event (.trade t)) = true)
    (e : Engine D) : tradeCount (e.journal.filter p) = tradeCount e.journal := by
  rw [tradeCount, tradeCount, List.filter_filter]
  refine congrArg List.length (List.filter_congr fun x _ => ?_)
  cases x with
  | action a => rfl
  | event ev => cases ev <;> simp [JournalEntry.isTrade, hp]

theorem tradeCount_standing (e : Engine D) :
    tradeCount e.standing.posted = tradeCount e.journal :=
  tradeCount_filter (fun _ => rfl) e

theorem tradeCount_run (m : Move D) (W : World D) :
    tradeCount W.engine.standing.posted ≤ tradeCount (m.run X W).engine.standing.posted := by
  have htape : ∀ e : Engine D, tradeCount e.standing.posted = tradeCount e.tape := fun e =>
    (tradeCount_standing e).trans (tradeCount_filter (fun _ => rfl) e).symm
  rw [htape, htape, Move.run_tape, tradeCount, tradeCount, List.filter_append, List.length_append]
  omega

/-- Orders that show all they ask for are entered, cancelled, modified while they rest, and
matched in an auction. -/
def Engine.plain (e : Engine D) : Action → Prop
  | .newOrder req => req.displayQty ≤ 0
  | .cancelOrder .. => True
  | .modifyOrder req => e.amendable req
  | .executeAuction .. => True
  | _ => False

theorem Engine.plain.admits {a : Action} (h : e.plain a) : e.Admits True False a := by
  cases a with
  | modifyOrder req => exact fun order ho hid => ⟨(h order ho hid).1, fun _ => (h order ho hid).2.le⟩
  | newOrder | cancelOrder | executeAuction => trivial
  | _ => exact h.elim

theorem Engine.plain.lasting {a : Action} (h : e.plain a) (hm : m.partOf a = true) :
    m.lasting = true := by
  cases a with
  | newOrder | modifyOrder => cases m <;> first | rfl | simp [Move.partOf, Move.matching] at hm
  | cancelOrder | executeAuction => cases m <;> first | rfl | simp [Move.partOf] at hm
  | _ => exact h.elim

theorem init_tallied (X : Exchange D) (config : EngineConfig) (derived : D)
    (slots : Nat → SlotResidue) : World.Tallied X ⟨Engine.init X config derived slots, none⟩ where
  standing :=
    { tracked := fun _ _ => rfl
      untracked := fun _ _ => rfl
      counted := rfl
      recorded := fun n hpos hlt => absurd hlt (by simp [Engine.standing, Engine.init]; omega)
      unbusted := rfl }
  fills id := by
    intro x hx
    simp [World.view, byId, Holdings.orders, Engine.holdings, Engine.shelf, Engine.init] at hx

section

variable (h : Reach X Engine.plain (Engine.init X config derived slots) e)

include h

theorem reach_tallied
    (hroom : tradeCount e.standing.posted < X.maxOrderIds) :
    World.Sound X True ⟨e, none⟩ ∧ World.Tallied X ⟨e, none⟩ := by
  let I : World D → Prop := fun W =>
    tradeCount W.engine.standing.posted < X.maxOrderIds → W.Tallied X
  have hstep : ∀ m V, V.Sound X True → I V → Move.guard X m V → m.lasting = true →
      I (m.run X V) := fun m V hV hIV hg hm hcount =>
    (hIV ((tradeCount_run m V).trans_lt hcount)).run hV hg hm hcount
  have hall := reach_invariant (init_sound X True config derived slots)
    (fun _ => init_tallied X config derived slots) (fun _ _ ha => ha.admits)
    (fun e a ha hs hI W hrun => OpRun.invariant hrun hs hI fun m V hV hIV hg _ hm =>
      hstep m V hV hIV hg (ha.lasting hm)) h
  exact ⟨hall.1, hall.2 hroom⟩

theorem reach_shown :
    ∀ o ∈ e.linked, o.displayQty ≤ 0 := by
  let P : Order → Prop := fun o => o.displayQty ≤ 0
  have htrait : Trait P := by
    intro o o' hcore ho
    have hd : o.core.displayQty = o'.core.displayQty := by rw [hcore]
    exact le_of_eq_of_le hd.symm ho
  have hbuilt : ∀ (e : Engine D) (a : Action), e.plain a → ∀ req o, e.Accepts X a req o → P o := by
    intro e a ha req o hacc
    obtain ⟨slot, rfl⟩ := hacc.built
    have hcall := hacc.called
    subst hcall
    exact ha
  have hall := reach_drifts (init_tidy X config derived slots)
    (init_carries X P P config derived slots)
    (fun e a ha s ts he => by subst he; exact ha)
    (fun e a ha _ hI W W' ht hW hd => by
      refine hW.drift ht ⟨htrait, htrait, fun req o hacc _ _ => hbuilt e a ha req o hacc,
        fun req o hacc _ _ => hbuilt e a ha req o hacc,
        fun req o hacc _ => hbuilt e a ha req o hacc, fun o ho _ => ?_, fun req o hmod _ => ?_,
        fun req o _ _ => ⟨id, id⟩⟩ hd
      · unfold Order.triggered
        split <;> exact ho
      · obtain ⟨k, s, hk⟩ := mem_linked.mp hmod.linked
        cases k with
        | limit => exact hI.resting s o hk
        | stop => exact hI.waiting s o hk) h
  intro o ho
  obtain ⟨k, s, hk⟩ := mem_linked.mp ho
  cases k with
  | limit => exact hall.2.resting s o hk
  | stop => exact hall.2.waiting s o hk

theorem reach_conserving :
    Reach X (Engine.conserving X) (Engine.init X config derived slots) e := by
  induction h with
  | start => exact .start
  | @step e e' a fuel hreach ha hperf ih =>
    refine ih.step ?_ hperf
    cases a with
    | newOrder req => exact .inl (.inl ha)
    | cancelOrder | executeAuction => trivial
    | modifyOrder req =>
      intro order ho hid
      exact ⟨(ha order ho hid).1, (ha order ho hid).2.le, .inl (reach_shown hreach order ho)⟩
    | _ => exact ha.elim

theorem reach_whole :
    ∀ o ∈ e.linked, o.filledQuantity + o.remainingQuantity = o.quantity := by
  obtain ⟨⟨hs, hbalanced⟩, -⟩ := reach_keeps (init_books X config derived slots)
    (fun e a fuel ha hI => perform_keeps_books fuel hI ha) (reach_conserving h)
  intro o ho
  have hled := hbalanced.agree o.id
  rw [hs.view_linked ho] at hled
  rcases hled.1.split with hwhole | hpart
  · exact hwhole.shown
  · exact absurd (reach_shown h o ho) (not_le.mpr hpart.display)

end

/-! The busts. -/

/-- The books are sound, and orders and positions are what the trades come to that are not
busted. -/
structure Engine.Reversible (X : Exchange D) (e : Engine D) : Prop where
  sound : World.Sound X True ⟨e, none⟩
  tracked : ∀ account, X.Tracks account →
    e.positions account = e.tradeRegistry.live (·.share account)
  untracked : ∀ account, ¬X.Tracks account → e.positions account = 0
  recorded : ∀ n, 0 < n → n < e.tradeRegistry.nextTradeId →
    ∃ t, e.tradeRegistry.lookup n = some t
  fills : ∀ o ∈ e.linked,
    o.filledQuantity = e.tradeRegistry.live (·.stake o.id) ∧ o.id < X.maxOrderIds
  whole : ∀ o ∈ e.linked, o.filledQuantity + o.remainingQuantity = o.quantity
  once : e.busts.Nodup
  struck : ∀ n, n ∈ e.busts ↔ ∃ t, e.tradeRegistry.lookup n = some t ∧ t.busted = true

theorem linked_adjust (hH : e.holdings.Sound X w []) (ho : o ∈ e.linked) (f : Order → Order)
    (delta : Int) :
    (e.adjustOrder o f delta).linked = e.linked.map fun x => if x.id = o.id then f x else x := by
  have hshelf : ∀ k s, ordersIn ((e.adjustOrder o f delta).shelf k s) =
      (ordersIn (e.shelf k s)).map fun x => if x.id = o.id then f x else x := by
    intro k s
    rw [adjustOrder_shelf]
    by_cases hs : s = o.side
    · rw [if_pos hs, ordersIn_adjust]
    · rw [if_neg hs]
      refine (map_eq_self fun x hx => if_neg fun hid => hs ?_).symm
      rw [← linked_unique hH ho (mem_linked.mpr ⟨k, s, hx⟩) hid]
      exact (hH.side_eq hx).symm
  have hbook := hshelf .limit
  have hstop := hshelf .stop
  simp only [Engine.shelf] at hbook hstop
  simp [Engine.linked, hbook, hstop]

def Order.giveBack (id : Nat) (q : Int) (o : Order) : Order :=
  if o.id = id then o.fill (-q) else o

theorem Order.giveBack_id (o : Order) (id : Nat) (q : Int) : (o.giveBack id q).id = o.id := by
  unfold Order.giveBack
  split <;> rfl

theorem unfill_linked (hs : World.Sound X True ⟨e, none⟩)
    (hknown : ∀ o ∈ e.linked, o.id < X.maxOrderIds) (id : Nat) (hq : 0 < q) :
    ∃ e', e.unfill X id q = .ok e' ∧ World.Sound X True ⟨e', none⟩ ∧
      e'.linked = e.linked.map (Order.giveBack id q) ∧
      e'.standing = e.standing ∧ e'.journal = e.journal ∧ e'.currentState = e.currentState := by
  have hH := hs.holds_none rfl
  unfold Engine.unfill
  split
  next hnone =>
    refine ⟨e, rfl, hs, (map_eq_self fun x hx => if_neg ?_).symm, rfl, rfl, rfl⟩
    rintro rfl
    have hindex : e.orderIndex x.id = some x.id := (hH.owns.index x.id x.id).mpr ⟨rfl, by
      rw [List.nil_append, holdings_ids]
      exact List.mem_map.mpr ⟨x, hx, rfl⟩⟩
    have hlt := hknown x hx
    rcases hnone with hge | hidx
    · omega
    · simp [hindex] at hidx
  next hset =>
    obtain ⟨order, hord, hid, hmem⟩ := indexed_eq hH (Bool.eq_false_iff.mpr fun h => hset (.inr h))
    subst hid
    simp only [hord]
    refine ⟨_, rfl, ?_, linked_adjust hH hmem _ _, rfl, rfl, rfl⟩
    refine hs.run (m := .unfill order q) ⟨rfl, ?_⟩ fun _ => hq
    rcases linked_cases hH hmem with ⟨h, -⟩ | ⟨h, -⟩
    · exact .inl h
    · exact .inr h

theorem TradeRecord.giveBack_both (t : TradeRecord) (o : Order) :
    (o.giveBack t.aggressorId t.quantity).giveBack t.restingId t.quantity =
      o.fill (-t.stake o.id) := by
  have hzero : o.fill 0 = o := by simp [Order.fill]
  have hid : (o.giveBack t.aggressorId t.quantity).id = o.id := o.giveBack_id _ _
  rw [Order.giveBack, hid]
  by_cases ha : o.id = t.aggressorId
  · have hfirst : o.giveBack t.aggressorId t.quantity = o.fill (-t.quantity) := if_pos ha
    rw [hfirst, Order.fill_fill]
    by_cases hr : o.id = t.restingId
    · rw [if_pos hr, stake, if_pos ha.symm, if_pos hr.symm, neg_add]
    · rw [if_neg hr, stake, if_pos ha.symm, if_neg (Ne.symm hr), add_zero]
  · have hfirst : o.giveBack t.aggressorId t.quantity = o := if_neg ha
    rw [hfirst]
    by_cases hr : o.id = t.restingId
    · rw [if_pos hr, stake, if_neg (Ne.symm ha), if_pos hr.symm, zero_add]
    · rw [if_neg hr, stake, if_neg (Ne.symm ha), if_neg (Ne.symm hr), add_zero, neg_zero, hzero]

theorem positions_reportBust (ht : X.Tracks account) (id : Nat) (t : TradeRecord)
    (reason : BustReason) (ts : Int) :
    (e.reportBust X id t reason ts).positions account = e.positions account - t.share account := by
  simp only [Engine.reportBust, Engine.emit, TradeRecord.share]
  rw [reverseFill_eq, reverseFill_eq, updateFill_apply ht.1 ht.2, updateFill_apply ht.1 ht.2,
    Side.signed_neg, Side.signed_neg]
  split <;> split <;> ring

theorem TradeRegistry.lookup_marked (g : TradeRegistry) (id n : Nat) :
    (g.markBusted id).lookup n =
      (g.lookup n).map fun t => if n = id then { t with busted := true } else t := by
  by_cases hout : n = 0 ∨ n ≥ g.nextTradeId
  · have hmarked : n = 0 ∨ n ≥ (g.markBusted id).nextTradeId := hout
    rw [lookup, if_pos hmarked, lookup, if_pos hout, Option.map_none]
  · have hmarked : ¬(n = 0 ∨ n ≥ (g.markBusted id).nextTradeId) := hout
    rw [lookup, if_neg hmarked, lookup, if_neg hout]
    by_cases hn : n = id
    · subst hn
      simp [markBusted]
    · simp [markBusted, hn]

theorem bustTrade_struck (hs : World.Sound X True ⟨e, none⟩)
    (hknown : ∀ o ∈ e.linked, o.id < X.maxOrderIds) {id : Nat} (hopen : e.currentState ≠ .closed)
    (hlook : e.tradeRegistry.lookup id = some t) (hlive : t.busted = false)
    (hhook : X.onValidateBust e.derived id t ts = true) (reason : BustReason) :
    ∃ e' : Engine D, e.bustTrade X id reason ts = .ok (e'.reportBust X id t reason ts) ∧
      World.Sound X True ⟨e'.reportBust X id t reason ts, none⟩ ∧
      e'.linked = e.linked.map (fun o => o.fill (-t.stake o.id)) ∧
      e'.standing = ({ e with tradeRegistry := e.tradeRegistry.markBusted id } : Engine D).standing ∧
      e'.journal = e.journal ∧ e'.currentState = e.currentState := by
  let e₁ : Engine D := { e with tradeRegistry := e.tradeRegistry.markBusted id }
  have hs₁ : World.Sound X True ⟨e₁, none⟩ := hs.run (m := .markBusted id) rfl fun _ => trivial
  have hq : 0 < t.quantity := by
    obtain ⟨hpos, hlt⟩ := TradeRegistry.lookup_lt hlook
    refine (hs.holds_none rfl).trades trivial id t ?_
    rwa [TradeRegistry.lookup, if_neg (by omega)] at hlook
  have hknown₁ : ∀ o ∈ e₁.linked, o.id < X.maxOrderIds := hknown
  obtain ⟨e₂, hfirst, hs₂, hlinked₂, hst₂, hj₂, hc₂⟩ := unfill_linked hs₁ hknown₁ t.aggressorId hq
  have hknown₂ : ∀ o ∈ e₂.linked, o.id < X.maxOrderIds := by
    intro o ho
    rw [hlinked₂] at ho
    obtain ⟨x, hx, rfl⟩ := List.mem_map.mp ho
    rw [Order.giveBack_id]
    exact hknown x hx
  obtain ⟨e₃, hsecond, hs₃, hlinked₃, hst₃, hj₃, hc₃⟩ := unfill_linked hs₂ hknown₂ t.restingId hq
  have hturned : (t.busted || !X.onValidateBust e.derived id t ts) = false := by simp [hlive, hhook]
  refine ⟨e₃, bustTrade_eq hopen hlook hturned hfirst hsecond,
    hs₃.run (m := .bust id t reason ts) rfl fun _ => trivial, ?_, hst₃.trans hst₂, hj₃.trans hj₂,
    hc₃.trans hc₂⟩
  rw [hlinked₃, hlinked₂, List.map_map]
  exact List.map_congr_left fun o _ => t.giveBack_both o

theorem Engine.Reversible.strike (h : e.Reversible X) {id : Nat} (hopen : e.currentState ≠ .closed)
    (hlook : e.tradeRegistry.lookup id = some t) (hlive : t.busted = false)
    (hhook : X.onValidateBust e.derived id t ts = true) (reason : BustReason) :
    ∃ e', e.bustTrade X id reason ts = .ok e' ∧ e'.Reversible X ∧
      e'.currentState = e.currentState ∧
      e'.tradeRegistry = e.tradeRegistry.markBusted id := by
  obtain ⟨e₃, heq, hs₃, hback, hst, hj, hc⟩ := bustTrade_struck h.sound
    (fun o ho => (h.fills o ho).2) hopen hlook hlive hhook reason
  have hreg : e₃.tradeRegistry = e.tradeRegistry.markBusted id := congrArg Standing.trades hst
  have hpos : e₃.positions = e.positions := congrArg Standing.positions hst
  have hlinked : (e₃.reportBust X id t reason ts).linked =
      e.linked.map fun o => o.fill (-t.stake o.id) := hback
  have hbusts : (e₃.reportBust X id t reason ts).busts = e.busts ++ [id] := by
    simp only [Engine.busts, Engine.reportBust, Engine.emit, hj, List.filterMap_append]
    rfl
  have hnot : id ∉ e.busts := by
    intro hmem
    obtain ⟨t', ht', hb⟩ := (h.struck id).mp hmem
    obtain rfl : t = t' := Option.some.inj (hlook.symm.trans ht')
    simp [hlive] at hb
  refine ⟨e₃.reportBust X id t reason ts, heq, ?_, hc, hreg⟩
  have hmarked : (e₃.reportBust X id t reason ts).tradeRegistry =
      e.tradeRegistry.markBusted id := hreg
  refine ⟨hs₃, fun account ht => ?_,
    fun account ht => ?_, fun n hn hlt => ?_, fun o ho => ?_, fun o ho => ?_, ?_, fun n => ?_⟩
  · rw [positions_reportBust ht, hpos, h.tracked account ht, hmarked,
      TradeRegistry.live_markBusted hlook hlive]
  · simp only [Engine.reportBust, Engine.emit]
    rw [reverseFill_eq, reverseFill_eq, updateFill_untracked ht, updateFill_untracked ht, hpos,
      h.untracked account ht]
  · rw [hmarked] at hlt ⊢
    obtain ⟨t', ht'⟩ := h.recorded n hn hlt
    exact ⟨_, by rw [TradeRegistry.lookup_marked, ht', Option.map_some]⟩
  · rw [hlinked] at ho
    obtain ⟨x, hx, rfl⟩ := List.mem_map.mp ho
    obtain ⟨hfill, hlt⟩ := h.fills x hx
    rw [hmarked, TradeRegistry.live_markBusted hlook hlive]
    simp only [Order.fill]
    omega
  · rw [hlinked] at ho
    obtain ⟨x, hx, rfl⟩ := List.mem_map.mp ho
    have := h.whole x hx
    simp only [Order.fill]
    omega
  · rw [hbusts]
    exact List.nodup_append.mpr ⟨h.once, List.nodup_singleton id, by
      rintro n hn m hm rfl
      exact hnot (List.mem_singleton.mp hm ▸ hn)⟩
  · rw [hbusts, hmarked, List.mem_append, List.mem_singleton, TradeRegistry.lookup_marked, h.struck n]
    by_cases hn : n = id
    · subst hn
      simp [hlook]
    · simp [hn]

theorem Engine.Reversible.bust (h : e.Reversible X)
    (hhook : ∀ d id t ts, X.onValidateBust d id t ts = true) (hopen : e.currentState ≠ .closed)
    (fuel id : Nat) (reason : BustReason) (ts : Int) :
    ∃ e', e.perform X fuel (.bustTrade id reason ts) = .ok e' ∧ e'.Reversible X ∧
      e'.currentState = e.currentState ∧
      e'.tradeRegistry.nextTradeId = e.tradeRegistry.nextTradeId ∧
      (∀ n ∈ e.busts, n ∈ e'.busts) ∧
      (0 < id → id < e.tradeRegistry.nextTradeId → id ∈ e'.busts) := by
  let e₀ : Engine D := e.record (.bustTrade id reason ts)
  have hbusts : e₀.busts = e.busts := by
    simp [e₀, Engine.busts, Engine.record, JournalEntry.bustOf]
  have h₀ : e₀.Reversible X :=
    { h with
      sound := h.sound.keep rfl
      once := hbusts ▸ h.once
      struck := hbusts ▸ h.struck }
  -- a bust that is turned away changes nothing
  have hstay : e₀.bustTrade X id reason ts = .ok e₀ →
      (0 < id → id < e.tradeRegistry.nextTradeId → id ∈ e.busts) → ∃ e',
        e₀.bustTrade X id reason ts = .ok e' ∧ e'.Reversible X ∧
        e'.currentState = e.currentState ∧
        e'.tradeRegistry.nextTradeId = e.tradeRegistry.nextTradeId ∧
        (∀ n ∈ e.busts, n ∈ e'.busts) ∧
        (0 < id → id < e.tradeRegistry.nextTradeId → id ∈ e'.busts) := fun heq hdone =>
    ⟨e₀, heq, h₀, rfl, rfl, fun n hn => hbusts ▸ hn, fun hpos hlt => hbusts ▸ hdone hpos hlt⟩
  have hclosed : e₀.currentState ≠ .closed := hopen
  cases hlook : e.tradeRegistry.lookup id with
  | none =>
    have hlook₀ : e₀.tradeRegistry.lookup id = none := hlook
    refine hstay (by simp [Engine.bustTrade, hclosed, hlook₀]) fun hpos hlt => ?_
    obtain ⟨t, ht⟩ := h.recorded id hpos hlt
    simp [hlook] at ht
  | some t =>
    have hlook₀ : e₀.tradeRegistry.lookup id = some t := hlook
    cases hb : t.busted with
    | true =>
      refine hstay (by simp [Engine.bustTrade, hclosed, hlook₀, hb]) fun _ _ => ?_
      exact (h.struck id).mpr ⟨t, hlook, hb⟩
    | false =>
      obtain ⟨e', heq, hrev, hstate, hreg⟩ := h₀.strike hclosed hlook₀ hb (hhook _ _ _ _) reason
      have hmarked : ∀ n, (e₀.tradeRegistry.lookup n).map (fun t =>
          if n = id then { t with busted := true } else t) = e'.tradeRegistry.lookup n := fun n => by
        rw [hreg, TradeRegistry.lookup_marked]
      refine ⟨e', heq, hrev, hstate, by rw [hreg]; rfl, fun n hn => ?_, fun _ _ => ?_⟩
      · obtain ⟨t', ht', hb'⟩ := (h.struck n).mp hn
        have hlook' : e₀.tradeRegistry.lookup n = some t' := ht'
        refine (hrev.struck n).mpr ⟨_, by rw [← hmarked, hlook', Option.map_some], ?_⟩
        split <;> simp [hb']
      · exact (hrev.struck id).mpr ⟨_, by rw [← hmarked, hlook₀, Option.map_some], by simp⟩

structure BustCall where
  tradeId : Nat
  reason : BustReason
  ts : Int

def BustCall.action (b : BustCall) : Action :=
  .bustTrade b.tradeId b.reason b.ts

theorem Engine.Reversible.bustAll (h : e.Reversible X)
    (hhook : ∀ d id t ts, X.onValidateBust d id t ts = true) (hopen : e.currentState ≠ .closed)
    (fuel : Nat) (calls : List BustCall) :
    ∃ e', e.performAll X fuel (calls.map BustCall.action) = .ok e' ∧ e'.Reversible X ∧
      e'.tradeRegistry.nextTradeId = e.tradeRegistry.nextTradeId ∧
      (∀ n ∈ e.busts, n ∈ e'.busts) ∧
      ∀ b ∈ calls, 0 < b.tradeId → b.tradeId < e.tradeRegistry.nextTradeId →
        b.tradeId ∈ e'.busts := by
  induction calls generalizing e with
  | nil => exact ⟨e, rfl, h, rfl, fun _ hn => hn, by simp⟩
  | cons b calls ih =>
    obtain ⟨e₁, hperf, h₁, hstate, hnext, hold, hnew⟩ :=
      h.bust hhook hopen fuel b.tradeId b.reason b.ts
    obtain ⟨e₂, hrest, h₂, hnext₂, hold₂, hnew₂⟩ := ih h₁ (hstate ▸ hopen)
    refine ⟨e₂, ?_, h₂, hnext₂.trans hnext, fun n hn => hold₂ n (hold n hn), ?_⟩
    · rw [List.map_cons, Engine.performAll, BustCall.action, hperf]
      exact hrest
    · intro c hc hpos hlt
      rcases List.mem_cons.mp hc with rfl | hc
      · exact hold₂ _ (hnew hpos hlt)
      · exact hnew₂ c hc hpos (hnext ▸ hlt)

theorem Engine.Reversible.allBusted (h : e.Reversible X)
    (hall : ∀ n, 0 < n → n < e.tradeRegistry.nextTradeId → n ∈ e.busts) :
    (∀ account, e.positions account = 0) ∧
      (∀ o ∈ e.linked, o.filledQuantity = 0 ∧ o.remainingQuantity = o.quantity) ∧
      e.busts.Perm (List.range' 1 (e.tradeRegistry.nextTradeId - 1)) := by
  have hzero : ∀ f, e.tradeRegistry.live f = 0 := fun f =>
    TradeRegistry.live_eq_zero fun n hpos hlt => by
      obtain ⟨t, ht, hb⟩ := (h.struck n).mp (hall n hpos hlt)
      rw [TradeRegistry.lookup, if_neg (by omega)] at ht
      exact ⟨t, ht, hb⟩
  refine ⟨fun account => ?_, fun o ho => ?_, ?_⟩
  · by_cases ht : X.Tracks account
    · rw [h.tracked account ht, hzero]
    · exact h.untracked account ht
  · have hfill := (h.fills o ho).1.trans (hzero _)
    have hwhole := h.whole o ho
    exact ⟨hfill, by omega⟩
  · refine (List.perm_ext_iff_of_nodup h.once List.nodup_range').mpr fun n => ?_
    rw [List.mem_range'_1]
    constructor
    · intro hn
      obtain ⟨t, ht, -⟩ := (h.struck n).mp hn
      have := TradeRegistry.lookup_lt ht
      omega
    · intro hn
      exact hall n (by omega) (by omega)

theorem reach_reversible (h : Reach X Engine.plain (Engine.init X config derived slots) e)
    (hroom : tradeCount e.journal < X.maxOrderIds) :
    e.Reversible X ∧ e.tradeRegistry.nextTradeId = tradeCount e.journal + 1 := by
  have hposted := tradeCount_standing e
  obtain ⟨hs, htal⟩ := reach_tallied h (hposted ▸ hroom)
  have hnone : e.busts = [] := (busts_standing e).trans htal.standing.unbusted
  have hcount : e.tradeRegistry.nextTradeId = tradeCount e.journal + 1 :=
    hposted ▸ htal.standing.counted
  have hlook : ∀ n, 0 < n → n < e.tradeRegistry.nextTradeId →
      ∃ t, e.tradeRegistry.lookup n = some t ∧ t.busted = false := by
    intro n hpos hlt
    obtain ⟨t, ht, hb, -⟩ := htal.standing.recorded n hpos hlt
    exact ⟨t, by rw [TradeRegistry.lookup, if_neg (by omega)]; exact ht, hb⟩
  refine ⟨⟨hs, htal.standing.tracked, htal.standing.untracked, fun n hpos hlt => ?_,
    fun o ho => ?_, reach_whole h, by rw [hnone]; exact List.nodup_nil, fun n => ?_⟩, hcount⟩
  · obtain ⟨t, ht, -⟩ := hlook n hpos hlt
    exact ⟨t, ht⟩
  · have hfill := htal.fills o.id
    rw [hs.view_linked ho] at hfill
    exact hfill o rfl
  · rw [hnone]
    refine iff_of_false (by simp) ?_
    rintro ⟨t, ht, hb⟩
    obtain ⟨hpos, hlt⟩ := TradeRegistry.lookup_lt ht
    obtain ⟨t', ht', hb'⟩ := hlook n hpos hlt
    obtain rfl := Option.some.inj (ht.symm.trans ht')
    simp [hb] at hb'

/-- The run, then the busts: everything is back where it was before the trades, whatever the order
of the busts. -/
theorem reach_bustAll (X : Exchange D) (hhook : ∀ d id t ts, X.onValidateBust d id t ts = true)
    (config : EngineConfig) (derived : D) (slots : Nat → SlotResidue) {e : Engine D}
    (h : Reach X Engine.plain (Engine.init X config derived slots) e)
    (hroom : tradeCount e.journal < X.maxOrderIds) (hopen : e.currentState ≠ .closed) (fuel : Nat)
    (calls : List BustCall)
    (hall : ∀ n t, e.tradeRegistry.lookup n = some t → ∃ b ∈ calls, b.tradeId = n) :
    ∃ e', e.performAll X fuel (calls.map BustCall.action) = .ok e' ∧
      (∀ account, e'.positions account = 0) ∧
      (∀ s, ∀ o ∈ ordersIn (e'.book s),
        o.filledQuantity = 0 ∧ o.remainingQuantity = o.quantity) ∧
      (∀ s, ∀ l ∈ e'.book s, l.totalQuantity = sumQty l.orders) ∧
      e'.busts.Perm (List.range' 1 (tradeCount e.journal)) := by
  obtain ⟨hrev, hcount⟩ := reach_reversible h hroom
  obtain ⟨e', hperf, hrev', hnext, -, hnew⟩ := hrev.bustAll hhook hopen fuel calls
  obtain ⟨hpos, horders, hbusts⟩ := hrev'.allBusted fun n hn hlt => by
    rw [hnext] at hlt
    obtain ⟨t, ht⟩ := hrev.recorded n hn hlt
    obtain ⟨b, hb, rfl⟩ := hall n t ht
    exact hnew b hb hn hlt
  refine ⟨e', hperf, hpos, fun s o ho => ?_, fun s l hl => ?_, ?_⟩
  · exact horders o (mem_linked.mpr ⟨.limit, s, ho⟩)
  · exact ((((hrev'.sound.holds_none rfl).shape .limit s).sound l hl).exact trivial).total
  · rwa [hnext, hcount, Nat.add_sub_cancel] at hbusts

def twoTrades (X : Exchange Unit) : Engine Unit :=
  runAll X
    [.newOrder (limitRequest .sell 105 10), .newOrder { limitRequest .buy 105 4 with accountId := 2 },
      .newOrder { limitRequest .buy 105 3 with accountId := 2 }] (sampleStart X sampleConfig ())

def bustCalls : List BustCall :=
  [⟨2, .erroneousTrade, 5⟩, ⟨1, .systemError, 6⟩, ⟨2, .regulatory, 7⟩]

theorem bustCalls_all {e : Engine Unit} (hnext : e.tradeRegistry.nextTradeId = 3) {n : Nat}
    (ht : e.tradeRegistry.lookup n = some t) : ∃ b ∈ bustCalls, b.tradeId = n := by
  obtain ⟨hpos, hlt⟩ := TradeRegistry.lookup_lt ht
  have hn : n = 1 ∨ n = 2 := by omega
  rcases hn with rfl | rfl <;> simp [bustCalls]

theorem reach_bustAll_sample :
    let e := twoTrades sampleExchange
    Reach sampleExchange Engine.plain (sampleStart sampleExchange sampleConfig ()) e ∧
      ∃ e', e.performAll sampleExchange 20 (bustCalls.map BustCall.action) = .ok e' ∧
        (∀ account, e'.positions account = 0) ∧
        (∀ s, ∀ o ∈ ordersIn (e'.book s),
          o.filledQuantity = 0 ∧ o.remainingQuantity = o.quantity) ∧
        (∀ s, ∀ l ∈ e'.book s, l.totalQuantity = sumQty l.orders) ∧
        e'.busts.Perm (List.range' 1 (tradeCount e.journal)) := by
  intro e
  have hreach : Reach sampleExchange Engine.plain (sampleStart sampleExchange sampleConfig ()) e :=
    reach_runAll (by simp [Engine.plain, limitRequest]) (by decide +kernel)
  have hnext : e.tradeRegistry.nextTradeId = 3 := by decide +kernel
  exact ⟨hreach, reach_bustAll sampleExchange (fun _ _ _ _ => rfl) sampleConfig () (fun _ => {})
    hreach (by decide +kernel) (by decide +kernel) 20 bustCalls fun _ _ => bustCalls_all hnext⟩

def firmExchange : Exchange Unit :=
  { sampleExchange with onValidateBust := fun _ _ _ _ => false }

/-- There the trades stand. -/
theorem firm_not_reversed : ¬∀ (e e' : Engine Unit) (calls : List BustCall),
    Reach firmExchange Engine.plain (sampleStart firmExchange sampleConfig ()) e →
      tradeCount e.journal < firmExchange.maxOrderIds → e.currentState ≠ .closed →
        (∀ n t, e.tradeRegistry.lookup n = some t → ∃ b ∈ calls, b.tradeId = n) →
          e.performAll firmExchange 20 (calls.map BustCall.action) = .ok e' →
            ∀ account, e'.positions account = 0 := by
  intro h
  let e := twoTrades firmExchange
  have hreach : Reach firmExchange Engine.plain (sampleStart firmExchange sampleConfig ()) e :=
    reach_runAll (by simp [Engine.plain, limitRequest]) (by decide +kernel)
  have hnext : e.tradeRegistry.nextTradeId = 3 := by decide +kernel
  have hzero := h e _ bustCalls hreach (by decide +kernel) (by decide +kernel)
    (fun _ _ => bustCalls_all hnext) (Outcome.eq_ok (by decide +kernel)) 2
  have hseven : (Outcome.engine (e.performAll firmExchange 20
      (bustCalls.map BustCall.action))).positions 2 = 7 := by decide +kernel
  simp [hseven] at hzero

end ExchangeSim
