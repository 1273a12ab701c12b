import ExchangeSim.Observers
import ExchangeSim.Prices
import ExchangeSim.Reachable
import ExchangeSim.Sample
import ExchangeSim.Tape

namespace ExchangeSim

open Engine JournalEntry

variable {D : Type} {X : Exchange D} {w c : Prop} {W : World D} {e e' : Engine D} {fuel : Nat}
  {ts b k : Int} {o order : Order} {x : JournalEntry} {es : List JournalEntry}
  {reason : CancelReason} {req : ModifyRequest} {a : Action}

/-- Best bid and best ask as the last `TopOfBook` gave them, both 0 before the first. -/
def quotes : Observer JournalEntry (Int × Int) where
  start := (0, 0)
  see := fun q x => match x with
    | .event (.topOfBook t) => (t.bestBid, t.bestAsk)
    | _ => q

def Engine.best (e : Engine D) : Int × Int :=
  (e.bestPrice .buy, e.bestPrice .sell)

def JournalEntry.isQuote : JournalEntry → Bool
  | .event (.topOfBook _) => true
  | _ => false

theorem quotes_see (h : x.isQuote = false) (q : Int × Int) : quotes.see q x = q := by
  cases x with
  | action a => rfl
  | event ev => cases ev <;> first | rfl | simp [isQuote] at h

theorem quotes_heeds : quotes.Heeds told := by
  intro q x hx
  cases x with
  | action a => rfl
  | event ev => cases ev <;> first | rfl | simp [told] at hx

def Engine.lastQuote (e : Engine D) : Int × Int :=
  quotes.state e.tape

theorem lastQuote_journal (e : Engine D) : e.lastQuote = quotes.state e.journal :=
  quotes_heeds.state_filter _

theorem lastQuote_append (ht : e'.tape = e.tape ++ es) (hes : ∀ x ∈ es, x.isQuote = false) :
    e'.lastQuote = e.lastQuote := by
  rw [lastQuote, lastQuote, ht, Observer.state_append]
  exact Observer.foldl_eq_self (fun x hx q => quotes_see (hes x hx) q) _

def Move.isQuote : Move D → Bool
  | .topOfBook _ => true
  | _ => false

theorem Move.run_lastQuote {m : Move D} (hg : m.guard X W) (hm : m.isQuote = false) :
    (m.run X W).engine.lastQuote = W.engine.lastQuote := by
  refine lastQuote_append (m.run_tape X W) ?_
  have hrefusal : ∀ (o : Order) (ts : Int), ∀ x ∈ W.engine.refusal o ts, x.isQuote = false := by
    intro o ts x hx
    rcases refusal_cases W.engine o ts with hr | hr
    · simp [hr] at hx
    · rw [hr, List.mem_singleton] at hx
      rw [hx]
      rfl
  cases m with
  | note tracker entries =>
    intro x hx
    have hq := hg x (List.mem_of_mem_filter hx)
    cases x with
    | action a => rfl
    | event ev => cases ev <;> first | rfl | simp [quiet] at hq
  | rest order ts => exact hrefusal order ts
  | park order stopPrice => exact hrefusal order order.timestamp
  | topOfBook ts => simp [Move.isQuote] at hm
  | _ => simp [Move.tells, JournalEntry.isQuote]

theorem MatchRun.lastQuote {W' : World D} (h : MatchRun X w c W W') :
    W'.engine.lastQuote = W.engine.lastQuote :=
  Machine.Run.invariant (I := fun V => V.engine.lastQuote = W.engine.lastQuote) h rfl
    fun m V hV hg hp => (Move.run_lastQuote hg (by
      have hm := hp.2
      cases m <;> first | rfl | simp [Move.matching] at hm)).trans hV

def Engine.Quoted (e : Engine D) : Prop :=
  e.lastQuote = e.best

theorem best_congr (hbook : e'.book = e.book) : e'.best = e.best := by
  simp [best, bestPrice, hbook]

theorem Engine.Quoted.congr (h : e.Quoted) (hbest : e'.best = e.best) (ht : e'.tape = e.tape ++ es)
    (hes : ∀ x ∈ es, x.isQuote = false) : e'.Quoted := by
  rw [Engine.Quoted, lastQuote_append ht hes, hbest]
  exact h

theorem Engine.Quoted.same (h : e.Quoted) (hbook : e'.book = e.book) (ht : e'.tape = e.tape) :
    e'.Quoted :=
  h.congr (best_congr hbook) (ht.trans e.tape.append_nil.symm) (by simp)

theorem Engine.Quoted.report (h : e.Quoted) (hbook : e'.book = e.book)
    (ht : e'.tape = e.tape ++ [x]) (hx : x.isQuote = false) : e'.Quoted :=
  h.congr (best_congr hbook) ht (by simpa using hx)

theorem quoted_fireTopOfBook (ts : Int) (e : Engine D) : (e.fireTopOfBook ts).Quoted := by
  rw [Engine.Quoted, lastQuote, tape_fireTopOfBook, Observer.state_concat]
  rfl

theorem quoted_fireTopOfBookIfChanged (h : e.lastQuote = (b, k)) (ts : Int) :
    (e.fireTopOfBookIfChanged ts b k).Quoted := by
  unfold fireTopOfBookIfChanged
  split
  · exact quoted_fireTopOfBook ts e
  next hsame =>
    simp only [not_or, not_not] at hsame
    rw [Engine.Quoted, h, best, hsame.1, hsame.2]

theorem quoted_postMatch (h : e.lastQuote = (b, k)) (o : Order) (ts : Int) :
    (e.postMatch o ts b k).Quoted := by
  rcases postMatch_cases o ts b k e with ⟨-, heq⟩ | ⟨reason, heq⟩ | ⟨-, -, heq⟩ <;> rw [heq]
  · exact quoted_fireTopOfBookIfChanged (e := e.release o) h ts
  · exact quoted_fireTopOfBookIfChanged
      ((lastQuote_append (tape_dropOrder e o ts reason) (by simp [isQuote])).trans h) ts
  · exact quoted_fireTopOfBook ts _

theorem quoted_matchOrder {ord : Order} (hs : World.Sound X w ⟨e, some ord⟩) (hent : ord.Entered)
    (h : e.Quoted) (hm : e.matchOrder X fuel ord ts = .ok e') : e'.Quoted := by
  rcases matchOrder_ok hm with ⟨-, rfl⟩ | ⟨alive, e₁, hr, rfl⟩
  · refine quoted_fireTopOfBookIfChanged (Eq.trans ?_ h) ts
    exact lastQuote_append (tape_dropOrder e ord ts .fokFailed) (by simp [isQuote])
  · have hloop := matchLoop_run ts fuel hs False.elim hent
    rw [hr] at hloop
    have hquote : e₁.lastQuote = e.best := (MatchRun.lastQuote hloop.1).trans h
    cases alive with
    | none => exact quoted_fireTopOfBookIfChanged hquote ts
    | some o => exact quoted_postMatch hquote o ts

theorem removeStop_book (o : Order) (e : Engine D) : (e.removeStop o).book = e.book := by
  unfold removeStop
  dsimp only
  split <;> rfl

theorem quoted_checkAndTriggerStops {rounds : Nat} (hs : World.Sound X w ⟨e, none⟩) (h : e.Quoted)
    (hm : e.checkAndTriggerStops X fuel ts rounds = .ok e') : e'.Quoted := by
  refine (checkAndTriggerStops_ok (I := fun e => World.Sound X w ⟨e, none⟩ ∧ e.Quoted) ?_ hm
    ⟨hs, h⟩).1.2
  intro e stop e₁ ⟨hs, h⟩ hdue hnext hmatch
  have hstart : World.Sound X w ⟨e.removeStop stop, some stop.triggered⟩ :=
    hs.run (m := .trigger stop) ⟨rfl, hdue.1, hnext⟩ fun _ => trivial
  have hquoted : (e.removeStop stop).Quoted :=
    h.same (removeStop_book stop e) (by rw [← tape_sheet]; simp)
  have hrun := matchOrder_run (fun _ _ => rfl) fuel ts
    hstart False.elim False.elim stop.triggered_type
  rw [hmatch] at hrun
  exact ⟨OpRun.sound hrun hstart, quoted_matchOrder hstart stop.triggered_type hquoted hmatch⟩

theorem quoted_matchAndTrigger (hs : World.Sound X w ⟨e, some order⟩) (hent : order.Entered)
    (hfirst : ∀ e₁, e.matchOrder X fuel order ts = .ok e₁ → e₁.Quoted)
    (hm : e.matchAndTrigger X fuel order ts = .ok e') : e'.Quoted := by
  obtain ⟨e₁, hmatch, hstops⟩ := matchAndTrigger_ok hm
  have hrun := matchOrder_run (fun _ _ => rfl) fuel ts hs False.elim False.elim hent
  rw [hmatch] at hrun
  exact quoted_checkAndTriggerStops (OpRun.sound hrun hs) (hfirst e₁ hmatch) hstops

theorem quoted_newOrder {req : OrderRequest} (hs : World.Sound X w ⟨e, none⟩)
    (haction : currentAction e.journal = some (.newOrder req)) (h : e.Quoted)
    (hm : e.newOrder X fuel req = .ok e') : e'.Quoted := by
  rcases newOrder_cases fuel req e with
    ⟨t, reason, heq⟩ | ⟨t, slot, pool, hpool, hchecks, heq⟩
  · obtain rfl := Except.ok.inj (heq.symm.trans hm)
    exact h.same rfl (by simp [tape, emit, told])
  · rw [heq] at hm
    let order := e.buildOrder X req slot
    let e₁ := ({ e with rateTracker := t } : Engine D).acceptOrder order pool req.timestamp
    have haccept : World.Sound X w ⟨e₁, some order⟩ := by
      have hrate : World.Sound X w ⟨{ e with rateTracker := t }, none⟩ := hs.keep rfl
      exact hrate.run (m := .accept req slot pool) ⟨rfl, hpool, hchecks, haction⟩ fun _ => trivial
    have hquoted : e₁.Quoted :=
      h.report (x := .event (.orderAccepted order.id order.clientOrderId req.timestamp)) rfl
        (by simp [e₁, acceptOrder, tape, emit, told]) rfl
    unfold routeOrder at hm
    split at hm
    · cases hm
      refine hquoted.congr (best_congr ?_) (tape_insertIntoStopBook e₁ order req.stopPrice) ?_
      · unfold insertIntoStopBook
        split <;> rfl
      · intro x hx
        rcases refusal_cases e₁ order order.timestamp with hr | hr
        · simp [hr] at hx
        · rw [hr, List.mem_singleton] at hx
          rw [hx]
          rfl
    next hstop =>
      split at hm
      · split at hm
        · exact Except.ok.inj hm ▸ quoted_fireTopOfBook _ _
        · cases hm
          exact hquoted.report rfl (tape_dropOrder e₁ order req.timestamp .iocRemainder) rfl
      · have hent : order.Entered := by
          change req.type = .limit ∨ req.type = .market
          cases ht : req.type <;> simp [ht, OrderType.isStop] at hstop ⊢
        exact quoted_matchAndTrigger haccept hent (fun _ => quoted_matchOrder haccept hent hquoted) hm

theorem quoted_cancelActiveOrder (hH : e.holdings.Sound X w []) (ho : o ∈ e.linked) (h : e.Quoted)
    (hm : e.cancelActiveOrder o ts reason = .ok e') : e'.Quoted := by
  rcases cancelActiveOrder_cases hH ho ts reason with ⟨-, heq⟩ | ⟨-, heq⟩ <;>
    obtain rfl := Except.ok.inj (heq.symm.trans hm)
  · have htape : ((e.removeOrder o).2.reportCancel o ts reason (e.removeOrder o).1).tape =
        e.tape ++ [.event (.orderCancelled o.id ts reason)] := by
      rw [← tape_sheet]
      simp [told]
    exact quoted_fireTopOfBookIfChanged
      ((lastQuote_append htape (by simp [isQuote])).trans h) ts
  · exact h.report (x := .event (.orderCancelled o.id ts reason)) (removeStop_book o e)
      (by rw [← tape_sheet]; simp [told]) rfl

theorem quoted_cancelOrder {id : Nat} (hH : e.holdings.Sound X w []) (h : e.Quoted)
    (hm : e.cancelOrder X id ts = .ok e') : e'.Quoted := by
  have hreject : ∀ (e₁ : Engine D) (r : RejectReason), e₁.Quoted →
      (e₁.emit (.orderCancelRejected id 0 ts r)).Quoted := fun e₁ r h₁ =>
    h₁.same rfl (by simp [told])
  unfold cancelOrder at hm
  split at hm
  · exact Except.ok.inj hm ▸ hreject e _ h
  · split at hm
    · exact Except.ok.inj hm ▸ hreject e _ h
    next hknown =>
      have hidx : (e.orderIndex id).isNone = false := by
        simp only [unknown, Bool.or_eq_true, not_or, Bool.not_eq_true] at hknown
        exact hknown.2
      obtain ⟨order, hord, -, hmem⟩ := indexed_eq hH hidx
      obtain ⟨t, ht⟩ := rateCheck_eq (X := X) order.accountId ts e
      have hrate : ({ e with rateTracker := t } : Engine D).Quoted := h
      simp only [hord, ht] at hm
      split at hm
      · exact Except.ok.inj hm ▸ hreject _ _ hrate
      · exact quoted_cancelActiveOrder (e := { e with rateTracker := t }) hH hmem hrate hm

theorem quoted_cancelWhere {select : Order → Bool} {ids : List Nat} {count n : Nat}
    (hs : World.Sound X w ⟨e, none⟩) (h : e.Quoted)
    (hm : e.cancelWhere select ts reason ids count = .ok (n, e')) : e'.Quoted := by
  induction ids generalizing count e with
  | nil =>
    obtain ⟨-, rfl⟩ : count = n ∧ e = e' := by simpa [cancelWhere] using hm
    exact h
  | cons id ids ih =>
    unfold cancelWhere at hm
    split at hm
    next => exact ih hs h hm
    next hset =>
      obtain ⟨order, hord, -, hmem⟩ := indexed_eq (hs.holds_none rfl) (Bool.eq_false_iff.mpr hset)
      simp only [hord] at hm
      split at hm
      next =>
        obtain ⟨e₁, he₁, hrun⟩ := cancelActiveOrder_run (c := False) (a := .massCancelAll ts) rfl
          (hs.holds_none rfl) hmem ts reason
        simp only [he₁] at hm
        exact ih (OpRun.sound hrun hs)
          (quoted_cancelActiveOrder (hs.holds_none rfl) hmem h he₁) hm
      next => exact ih hs h hm

theorem quoted_executeAuction {referencePrice : Int} (h : e.Quoted)
    (hm : e.executeAuction X fuel referencePrice ts = .ok e') : e'.Quoted := by
  rcases executeAuction_ok hm with rfl | ⟨e₁, -, rfl⟩
  · exact h
  · exact quoted_fireTopOfBook ts e₁

def Engine.leads (e : Engine D) (o : Order) : Prop :=
  (e.book o.side).head?.map (·.orders) = some [o]

theorem best_removeOrder {extra : List Nat} (hH : e.holdings.Sound X w extra) (ho : e.rests o)
    (hlead : ¬e.leads o) : (e.removeOrder o).2.best = e.best := by
  obtain ⟨A, l, B, Xs, Ys, hsplit, hf⟩ := exists_focus_of_mem (hH.nodup .limit o.side) ho
  have hbook : e.book o.side = A ++ l :: B := hsplit
  have hcount := (hsplit ▸ hH.shape .limit o.side).level.count
  have hsame : (e.removeOrder o).2.bestPrice o.side = e.bestPrice o.side := by
    rw [bestPrice, bestPrice, removeOrder_book, Function.update_self, hbook,
      hf.unlinkFrom_eq]
    cases A with
    | cons a A => split <;> rfl
    | nil =>
      split
      next hone =>
        have hnil : Xs ++ Ys = [] := by
          have : l.orders.length = (Xs ++ Ys).length + 1 := by simp [hf.queue]; omega
          exact List.length_eq_zero_iff.mp (by omega)
        obtain ⟨rfl, rfl⟩ := List.append_eq_nil_iff.mp hnil
        exact absurd (by simp [leads, hbook, hf.queue]) hlead
      next => rfl
  have hother : (e.removeOrder o).2.bestPrice o.side.opposite = e.bestPrice o.side.opposite := by
    rw [bestPrice, bestPrice, removeOrder_book,
      Function.update_of_ne o.side.opposite_ne]
  rw [best, best]
  cases hs : o.side <;> simp only [hs, Side.opposite] at hsame hother <;> rw [hsame, hother]

theorem matchOrder_passive (htype : o.type = .limit) (hioc : o.tif ≠ .ioc) (hfok : o.tif ≠ .fok)
    (hrem : o.remainingQuantity ≠ 0) (hclear : e.clearOf o)
    (hm : e.matchOrder X fuel o ts = .ok e') : e' = (e.insertIntoBook o ts).fireTopOfBook ts := by
  unfold matchOrder at hm
  simp only [hfok, false_and, if_false] at hm
  cases hr : e.matchLoop X ts fuel o with
  | error err => simp [hr] at hm
  | ok r =>
    rw [hr, matchLoop_clear hclear hr] at hm
    rw [← Except.ok.inj hm]
    simp [postMatch, hrem, htype, hioc, hfok]

/-- A modification the quotes survive. The target rests in the limit book, and it is amended in
place, is not alone on the best level of its side, or goes straight back to rest. -/
def Engine.requotes (X : Exchange D) (e : Engine D) (req : ModifyRequest) : Prop :=
  ∀ order ∈ e.linked, order.id = req.orderId → e.rests order ∧
    (e.amends X order req = true ∨ ¬e.leads order ∨
      (order.tif ≠ .ioc ∧ order.tif ≠ .fok ∧ req.newQuantity ≠ order.filledQuantity ∧
        e.clearOf (order.replaced req)))

theorem best_amendOrder (o : Order) (req : ModifyRequest) (e : Engine D) :
    (e.amendOrder o req).best = e.best := by
  obtain ⟨f, hf, hbook⟩ : ∃ f : PriceLevel → PriceLevel, (∀ l, (f l).price = l.price) ∧
      (e.amendOrder o req).book =
        Function.update e.book o.side (onLevelOf o.id f (e.book o.side)) := by
    refine ⟨PriceLevel.adjust o (fun x => { x with
      quantity := req.newQuantity, remainingQuantity := req.newQuantity - o.filledQuantity })
      (-(o.remainingQuantity - (req.newQuantity - o.filledQuantity))), fun _ => rfl, ?_⟩
    unfold amendOrder
    dsimp only
    split <;> rfl
  have hside : ∀ s, (e.amendOrder o req).bestPrice s = e.bestPrice s := by
    intro s
    rw [bestPrice, bestPrice, hbook]
    by_cases hs : s = o.side
    · subst hs
      rw [Function.update_self]
      cases hl : e.book o.side with
      | nil => rfl
      | cons l rest =>
        simp only [onLevelOf, List.map_cons, List.head?_cons]
        split
        · exact hf l
        · rfl
    · rw [Function.update_of_ne hs]
  rw [best, best, hside, hside]

theorem quoted_replaceOrder (hs : World.Sound X False ⟨e, none⟩) (hrest : e.rests order)
    (hcase : ¬e.leads order ∨ (order.tif ≠ .ioc ∧ order.tif ≠ .fok ∧
      req.newQuantity ≠ order.filledQuantity ∧ e.clearOf (order.replaced req))) (h : e.Quoted)
    (hm : e.replaceOrder X fuel order req = .ok e') : e'.Quoted := by
  have hH : e.holdings.Sound X False [] := hs.holds_none rfl
  have htype : order.type = .limit := type_of_rests hH hrest
  let e₁ := (e.removeOrder order).2.reportPull order req (e.removeOrder order).1
  have hs₁ : World.Sound X False ⟨e₁, some (order.replaced req)⟩ :=
    hs.run (m := .pull order req) ⟨rfl, hrest⟩ False.elim
  have hbook : e₁.book = (e.removeOrder order).2.book :=
    congrArg (Holdings.lvls · .limit) (holdings_reportPull (e.removeOrder order).2 order req (e.removeOrder order).1)
  have htape : e₁.tape = e.tape ++ [.event (.orderModified order.id req.clientOrderId req.newPrice
      req.newQuantity req.timestamp)] := by
    rw [← tape_sheet]
    simp [e₁, told]
  rw [replaceOrder_eq fuel hrest] at hm
  refine quoted_matchAndTrigger hs₁ (.inl htype) (fun e₂ hmatch => ?_) hm
  rcases hcase with hlead | ⟨hioc, hfok, hq, hclear⟩
  · have hq₁ : e₁.Quoted :=
      h.congr ((best_congr hbook).trans (best_removeOrder hH hrest hlead))
        htape (by simp [isQuote])
    exact quoted_matchOrder hs₁ (.inl htype) hq₁ hmatch
  · have hclear₁ : e₁.clearOf (order.replaced req) := by
      intro l hl
      have hopp : (order.replaced req).side.opposite ≠ order.side := order.side.opposite_ne
      rw [hbook, removeOrder_book, Function.update_of_ne hopp] at hl
      exact hclear l hl
    rw [matchOrder_passive (o := order.replaced req) htype hioc hfok (sub_ne_zero.mpr hq) hclear₁
      hmatch]
    exact quoted_fireTopOfBook _ _

theorem quoted_modifyOrder (hs : World.Sound X False ⟨e, none⟩) (hreq : e.requotes X req)
    (h : e.Quoted) (hm : e.modifyOrder X fuel req = .ok e') : e'.Quoted := by
  have hH : e.holdings.Sound X False [] := hs.holds_none rfl
  rcases modifyOrder_cases fuel req hH with
    ⟨t, reason, heq⟩ | ⟨t, order, hmem, hid, ⟨hamend, heq⟩ | ⟨hamend, heq⟩⟩
  · obtain rfl := Except.ok.inj (heq.symm.trans hm)
    exact h.same rfl (by simp [tape, emit, told])
  · obtain rfl := Except.ok.inj (heq.symm.trans hm)
    exact h.congr (best_amendOrder order req _) (tape_amendOrder _ order req)
      (by simp [isQuote])
  · rw [heq] at hm
    obtain ⟨hrest, hcase⟩ := hreq order hmem hid
    have hcase := hcase.resolve_left (by simp [hamend])
    exact quoted_replaceOrder (e := { e with rateTracker := t }) (hs.keep rfl) hrest hcase h hm

/-- The operations whose quotes are followed, with the modifications kept to those the quotes
survive. -/
def Engine.requoting (X : Exchange D) (e : Engine D) : Action → Prop
  | .newOrder _ => True
  | .cancelOrder .. => True
  | .modifyOrder req => e.requotes X req
  | .triggerExpiry .. => True
  | .massCancel .. => True
  | .massCancelAll _ => True
  | .executeAuction .. => True
  | _ => False

theorem Engine.requoting.admits (h : e.requoting X a) : e.Admits False False a := by
  cases a with
  | modifyOrder req => exact fun order ho hid => ⟨(h order ho hid).1, False.elim⟩
  | restoreOrder | applyImpliedFills => exact h
  | setSessionState | unlockLimit => exact id
  | _ => trivial

theorem quoted_perform (hs : World.Sound X False ⟨e, none⟩) (ha : e.requoting X a) (h : e.Quoted)
    (hm : e.perform X fuel a = .ok e') : e'.Quoted := by
  have hs₁ : World.Sound X False ⟨e.record a, none⟩ := hs.keep rfl
  have hH₁ : (e.record a).holdings.Sound X False [] := hs₁.holds_none rfl
  have h₁ : (e.record a).Quoted :=
    h.report (x := .action a) rfl (by simp [record, tape, told]) rfl
  have hscan : ∀ {r : Outcome D (Nat × Engine D)}, (∀ n e₂, r = .ok (n, e₂) → e₂.Quoted) →
      r.map (·.2) = .ok e' → e'.Quoted := by
    intro r hr hmap
    cases r with
    | error err => simp [Except.map] at hmap
    | ok p =>
      obtain rfl : p.2 = e' := Except.ok.inj hmap
      exact hr p.1 p.2 rfl
  cases a with
  | newOrder req => exact quoted_newOrder hs₁ (currentAction_record _ e) h₁ hm
  | cancelOrder id ts => exact quoted_cancelOrder hH₁ h₁ hm
  | modifyOrder req => exact quoted_modifyOrder hs₁ ha h₁ hm
  | triggerExpiry | massCancel | massCancelAll =>
    exact hscan (fun n e₂ hr => quoted_cancelWhere hs₁ h₁ hr) hm
  | executeAuction p ts => exact quoted_executeAuction h₁ hm
  | _ => exact ha.elim

/-- In every run whose modifications the quotes survive, the last quote is the best bid and the
best ask of the book. -/
theorem reach_quoted (X : Exchange D) (config : EngineConfig) (derived : D)
    (slots : Nat → SlotResidue) {e : Engine D}
    (h : Reach X (Engine.requoting X) (Engine.init X config derived slots) e) :
    quotes.state e.journal = e.best := by
  have hall : World.Sound X False ⟨e, none⟩ ∧ e.Quoted := by
    induction h with
    | start => exact ⟨init_sound X False config derived slots, rfl⟩
    | @step e e' a fuel _ ha hperf ih =>
      have hrun := perform_run fuel ih.1 False.elim False.elim ha.admits
      rw [hperf] at hrun
      exact ⟨OpRun.sound hrun ih.1, quoted_perform ih.1 ha ih.2 hperf⟩
  rw [← lastQuote_journal]
  exact hall.2

/-- An offer, a bid below it that is cancelled, and a bid that trades. -/
theorem reach_quoted_sample :
    let e := runAll sampleExchange [.newOrder (limitRequest .sell 105 10),
      .newOrder (limitRequest .buy 100 5), .cancelOrder 2 2, .newOrder (limitRequest .buy 105 4),
      .massCancelAll 3] (sampleStart sampleExchange sampleConfig ())
    quotes.state e.journal = e.best :=
  reach_quoted sampleExchange sampleConfig () (fun _ => {})
    (reach_runAll (by simp [requoting]) (by decide +kernel))

def Action.quotable : Action → Prop
  | .newOrder _ => True
  | .cancelOrder .. => True
  | .modifyOrder _ => True
  | .triggerExpiry .. => True
  | .massCancel .. => True
  | .massCancelAll _ => True
  | .executeAuction .. => True
  | _ => False

/-- An offer of 10 at 105 and a bid of 5 at 100; the bid is moved to 105 and trades in full. The
bid side is empty, and the last quote still has a bid of 100. -/
theorem replaced_not_quoted : ¬∀ e : Engine Unit,
    Reach sampleExchange (fun _ a => a.quotable) (sampleStart sampleExchange sampleConfig ()) e →
      quotes.state e.journal = e.best := by
  intro h
  have hquote := h (runAll sampleExchange
    [.newOrder (limitRequest .sell 105 10), .newOrder (limitRequest .buy 100 5),
      .modifyOrder liftRequest] (sampleStart sampleExchange sampleConfig ()))
    (reach_runAll (by simp [Action.quotable]) (by decide +kernel))
  exact absurd hquote (by decide +kernel)

end ExchangeSim
