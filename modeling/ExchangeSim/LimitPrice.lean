import ExchangeSim.Records
import ExchangeSim.Reachable
import ExchangeSim.Sample

namespace ExchangeSim

variable {D : Type} {X : Exchange D} {w c : Prop} {W : World D} {o o' : Order}
  {r : Option OrderRecord} {m : Move D} {price : Int}

def OrderRecord.allows (r : OrderRecord) (price : Int) : Prop :=
  match r.request.side with
  | .buy => price ≤ r.price
  | .sell => r.price ≤ price

/-- The order of a record may trade at a price: a limit or stop-limit order only within its
current limit. -/
def OrderRecord.MayTrade (r : OrderRecord) (price : Int) : Prop :=
  r.request.type.priced = true → r.allows price

def Register.Fair (g : Register) : JournalEntry → Prop
  | .event (.trade t) => (∃ r ∈ g.record t.aggressorId, r.MayTrade t.price) ∧
    ∃ r ∈ g.record t.restingId, r.MayTrade t.price
  | _ => True

/-- Every trade of a journal is fair to its parties, as they stand at that time. -/
def FairTrades (journal : List JournalEntry) : Prop :=
  Along (fun pre x => (register.state pre).Fair x) journal

theorem FairTrades.append {journal entries : List JournalEntry} (h : FairTrades journal)
    (hes : ∀ x ∈ entries, x.isTrade = false) : FairTrades (journal ++ entries) := by
  induction entries using List.reverseRecOn with
  | nil => simpa using h
  | append_singleton es x ih =>
    rw [← List.append_assoc]
    refine along_concat.mpr ⟨ih fun y hy => hes y (by simp [hy]), ?_⟩
    have hx := hes x (by simp)
    cases x with
    | action a => trivial
    | event ev => cases ev <;> trivial

theorem fairTrades_tape (e : Engine D) : FairTrades e.tape ↔ FairTrades e.journal := by
  refine register_heeds.along_filter Register.Fair (fun s x hx => ?_) e.journal
  cases x with
  | action a => trivial
  | event ev => cases ev <;> trivial

structure OrderRecord.Backs (r : OrderRecord) (o : Order) : Prop where
  side : r.request.side = o.side
  priced : r.request.type.priced = o.type.priced
  price : o.type.priced = true → r.price = o.price

def Backed (r : Option OrderRecord) (o : Option Order) : Prop :=
  ∀ x ∈ o, ∃ y ∈ r, y.Backs x

theorem backed_none (r : Option OrderRecord) : Backed r none := by
  simp [Backed]

section

variable (h : Backed r (some o))

include h

theorem Backed.keep {f : OrderRecord → OrderRecord}
    (hreq : ∀ y, (f y).request = y.request) (hfp : ∀ y, (f y).price = y.price)
    (hside : o'.side = o.side) (htype : o'.type = o.type) (hprice : o'.price = o.price) :
    Backed (r.map f) (some o') := by
  obtain ⟨y, hy, hb⟩ := h o rfl
  intro x hx
  obtain rfl : o' = x := by simpa using hx
  refine ⟨f y, by simpa using ⟨y, hy, rfl⟩, ?_⟩
  exact ⟨by rw [hreq, hside]; exact hb.side, by rw [hreq, htype]; exact hb.priced,
    by rw [hfp, htype, hprice]; exact hb.price⟩

theorem Backed.same (hside : o'.side = o.side) (htype : o'.type = o.type)
    (hprice : o'.price = o.price) : Backed r (some o') := by
  simpa using h.keep (f := id) (fun _ => rfl) (fun _ => rfl) hside htype hprice

theorem Backed.settled (q : Int) :
    Backed (r.map (·.trade q)) (o.settled q) := by
  unfold Order.settled
  split
  · split
    · exact h.keep (fun _ => rfl) (fun _ => rfl) rfl rfl rfl
    · exact backed_none _
  · exact h.keep (fun _ => rfl) (fun _ => rfl) rfl rfl rfl

omit h in
theorem backed_accepted (e : Engine D) (req : OrderRequest) (slot : SlotResidue) :
    Backed (some (.accepted req)) (some (e.buildOrder X req slot)) := by
  intro x hx
  obtain rfl : e.buildOrder X req slot = x := by simpa using hx
  refine ⟨_, rfl, rfl, rfl, fun hp => ?_⟩
  have hne : req.type ≠ .stop := by
    intro he
    simp [Engine.buildOrder, he, OrderType.priced] at hp
  simp [Engine.buildOrder, OrderRecord.accepted, hne]

theorem Backed.triggered (hstop : o.type.isStop = true) :
    Backed r (some o.triggered) := by
  obtain ⟨y, hy, hb⟩ := h o rfl
  intro x hx
  obtain rfl : o.triggered = x := by simpa using hx
  refine ⟨y, hy, ?_⟩
  unfold Order.triggered
  split
  next ht => exact ⟨hb.side, by rw [hb.priced, ht]; rfl, by simp [OrderType.priced]⟩
  next ht =>
    have hsl : o.type = .stopLimit := by
      simp only [OrderType.isStop, Bool.or_eq_true, decide_eq_true_eq] at hstop
      exact hstop.resolve_left ht
    exact ⟨hb.side, by rw [hb.priced, hsl]; rfl, fun _ => hb.price (by rw [hsl]; rfl)⟩

theorem Backed.modified (price quantity : Int) (hside : o'.side = o.side)
    (htype : o'.type = o.type) (hprice : o'.price = price) :
    Backed (r.map (·.modify price quantity)) (some o') := by
  obtain ⟨y, hy, hb⟩ := h o rfl
  intro x hx
  obtain rfl : o' = x := by simpa using hx
  exact ⟨y.modify price quantity, by simpa using ⟨y, hy, rfl⟩,
    hside ▸ hb.side, htype ▸ hb.priced, fun _ => hprice.symm⟩

omit h in
theorem World.Sound.keeps_backed (h : W.Sound X w) (hg : m.guard X W) : m.keeps X Backed W := by
  cases m with
  | accept req slot pool => exact backed_accepted W.engine req slot
  | adjust | unfill =>
    intro r hr
    exact hr.same rfl rfl rfl
  | fill ts order resting f left reported =>
    exact ⟨fun r hr => hr.settled _, fun r hr => hr.keep (fun _ => rfl) (fun _ => rfl) rfl rfl rfl⟩
  | trigger stop =>
    obtain ⟨hfl, -, hnext⟩ := hg
    have hH := h.holds_none hfl
    have hwait := nextTriggeredStop_waits hH hnext
    obtain ⟨l, hl, hmem⟩ := mem_ordersIn.mp hwait
    have hstop := (((hH.shape .stop stop.side).sound l hl).fits stop hmem).2.1
    exact fun r hr => hr.triggered hstop
  | pull order req => exact fun r hr => hr.modified _ _ rfl rfl rfl
  | amend order req => exact fun r hr => hr.modified _ _ rfl rfl hg.2.2.2.2.symm
  | cross price ts bid ask q => exact ⟨fun r hr => hr.settled _, fun r hr => hr.settled _⟩
  | cancelResting | drop | finish | rest | park | cancel | cancelStop =>
    exact fun r _ => backed_none _
  | _ => trivial

theorem Backed.mayTrade (hprice : o.type.priced = true → match o.side with
      | .buy => price ≤ o.price
      | .sell => o.price ≤ price) : ∃ y ∈ r, y.MayTrade price := by
  obtain ⟨y, hy, hb⟩ := h o rfl
  refine ⟨y, hy, fun hp => ?_⟩
  have hpriced : o.type.priced = true := by rw [← hb.priced]; exact hp
  have hlim := hprice hpriced
  unfold OrderRecord.allows
  rw [hb.side, hb.price hpriced]
  exact hlim

end

theorem Order.allows_price (h : o.allows price = true) (hent : o.Entered)
    (hp : o.type.priced = true) : match o.side with
      | .buy => price ≤ o.price
      | .sell => o.price ≤ price := by
  have hlimit : o.type = .limit := by
    rcases hent with ht | ht
    · exact ht
    · simp [ht, OrderType.priced] at hp
  unfold Order.allows at h
  rw [hlimit] at h
  cases hs : o.side <;> simpa [hs] using h

/-- What every move keeps: fair trades so far, and records that back the orders. -/
structure World.Fair (W : World D) : Prop where
  trades : FairTrades W.engine.tape
  backed : Agree Backed W.engine.records W.view

theorem World.Fair.backs (h : W.Fair) (hv : W.view o.id = some o) :
    Backed (W.engine.records o.id) (some o) :=
  hv ▸ h.backed o.id

theorem World.Fair.tells (h : W.Fair) (hs : W.Sound X w) (hg : m.guard X W) :
    FairTrades (W.engine.tape ++ m.tells W) := by
  have hrefusal : ∀ (o : Order) (ts : Int), ∀ x ∈ W.engine.refusal o ts, x.isTrade = false := by
    intro o ts x hx
    rcases refusal_cases W.engine o ts with hr | hr
    · simp [hr] at hx
    · rw [hr, List.mem_singleton] at hx
      rw [hx]
      rfl
  cases m with
  | note tracker entries =>
    refine h.trades.append fun x hx => ?_
    have hq := hg x (List.mem_of_mem_filter hx)
    cases x with
    | action a => rfl
    | event ev => cases ev <;> first | rfl | simp [JournalEntry.quiet] at hq
  | fill ts order resting f left reported =>
    obtain ⟨hfl, hm⟩ := hg
    obtain ⟨hrest, hside, hprice, -⟩ := hs.rests_of_meets hm
    refine along_concat.mpr ⟨h.trades, ?_, ?_⟩
    · exact (h.backs (hs.view_flight hfl)).mayTrade (Order.allows_price hm.allowed hm.entered)
    · refine (h.backs (hs.view_rests hrest)).mayTrade fun _ => ?_
      cases resting.side <;> simp [hprice]
  | cross price ts bid ask q =>
    obtain ⟨-, hbid, hbuy, hlow, hask, hsell, hhigh⟩ := hg
    refine along_concat.mpr ⟨h.trades, ?_, ?_⟩
    · refine (h.backs (hs.view_rests hbid)).mayTrade fun _ => ?_
      simpa [hbuy] using hlow
    · refine (h.backs (hs.view_rests hask)).mayTrade fun _ => ?_
      simpa [hsell] using hhigh
  | rest order ts => exact h.trades.append (hrefusal order ts)
  | park order stopPrice => exact h.trades.append (hrefusal order order.timestamp)
  | _ => exact h.trades.append (by simp [Move.tells, JournalEntry.isTrade])

theorem World.Fair.run (h : W.Fair) (hs : W.Sound X w) (hg : m.guard X W) :
    (m.run X W).Fair where
  trades := by
    rw [Move.run_tape]
    exact h.tells hs hg
  backed := hs.agree_run h.backed hg (hs.keeps_backed hg)

/-- The operations whose trades are followed: everything but restored orders, implied fills
and busts, with modifications only of orders that rest in the limit book. -/
def Engine.quoting (e : Engine D) : Action → Prop
  | .newOrder _ => True
  | .cancelOrder .. => True
  | .modifyOrder req => ∀ order ∈ e.linked, order.id = req.orderId → e.rests order
  | .triggerExpiry .. => True
  | .massCancel .. => True
  | .massCancelAll _ => True
  | .setSessionState .. => True
  | .unlockLimit _ => True
  | .executeAuction .. => True
  | _ => False

theorem Engine.quoting.admits {e : Engine D} {a : Action} (h : e.quoting a) :
    e.Admits False False a := by
  cases a with
  | modifyOrder req => exact fun order ho hid => ⟨h order ho hid, False.elim⟩
  | restoreOrder | applyImpliedFills => exact h
  | setSessionState | unlockLimit => exact id
  | _ => trivial

theorem init_fair (X : Exchange D) (config : EngineConfig) (derived : D)
    (slots : Nat → SlotResidue) : World.Fair ⟨Engine.init X config derived slots, none⟩ where
  trades := along_nil _
  backed := fun _ => backed_none _

/-- Every trade of a run respects the current limit of each party that has one. This also
holds for the trades of an operation that does not come to its end. -/
theorem reach_fairTrades (X : Exchange D) (config : EngineConfig) (derived : D)
    (slots : Nat → SlotResidue) {e : Engine D}
    (h : Reach X Engine.quoting (Engine.init X config derived slots) e) :
    FairTrades e.journal ∧ ∀ a fuel fault e', e.quoting a →
      e.perform X fuel a = .error (fault, e') → FairTrades e'.journal := by
  have hkeep := reach_keeps (X := X) (I := fun W => W.Sound X False ∧ W.Fair)
    ⟨init_sound X False config derived slots, init_fair X config derived slots⟩
    (fun e a fuel ha hI => (perform_run (c := False) fuel hI.1 False.elim False.elim
      ha.admits).keeps hI.1 hI.2 fun m V hV hF hg _ _ => hF.run hV hg) h
  refine ⟨(fairTrades_tape e).mp hkeep.1.2.trades, fun a fuel fault e' ha hperf => ?_⟩
  have hend := hkeep.2 a fuel ha
  rw [hperf] at hend
  obtain ⟨fl, -, hF⟩ := hend
  exact (fairTrades_tape e').mp hF.trades

/-- An offer, a bid that trades with it, and the auction. -/
theorem reach_fairTrades_sample : FairTrades (runAll sampleExchange
    [.newOrder (limitRequest .sell 100 5), .newOrder (limitRequest .buy 101 7),
      .executeAuction 100 2] (sampleStart sampleExchange sampleConfig ())).journal :=
  (reach_fairTrades sampleExchange sampleConfig () (fun _ => {})
    (reach_runAll (by simp [Engine.quoting]) (by decide +kernel))).1

end ExchangeSim
