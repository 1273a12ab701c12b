import ExchangeSim.Crowding
import ExchangeSim.Exposure
import ExchangeSim.Interruptions

namespace ExchangeSim

open Engine List JournalEntry Move

structure FillReport where
  aggressor : Nat
  quantity : Int
  remaining : Option Int
  deriving DecidableEq, Repr

variable {D : Type} {X : Exchange D} {e e₁ e₂ : Engine D} {order ord o stop : Order}
  {rs rs' : List FillReport} {W : World D} {a : Action}

def JournalEntry.fillReport? : JournalEntry → Option FillReport
  | .event (.orderFilled aggressor _ _ quantity _) => some ⟨aggressor, quantity, none⟩
  | .event (.orderPartiallyFilled aggressor _ _ quantity remaining _ _) =>
    some ⟨aggressor, quantity, some remaining⟩
  | _ => none

def Engine.fillReports (e : Engine D) : List FillReport :=
  e.journal.filterMap JournalEntry.fillReport?

def shownRemaining (q : Int) : Option Int :=
  if q = 0 then none else some q

/-- Reports of fills of one aggressor with this open quantity: each gives what is left after it,
and is an `OrderFilled` when that is nothing. -/
def ExactReports : Int → List FillReport → Prop
  | _, [] => True
  | opened, r :: rs => 0 < r.quantity ∧ r.quantity ≤ opened ∧
    r.remaining = shownRemaining (opened - r.quantity) ∧ ExactReports (opened - r.quantity) rs

instance decidableExactReports : (opened : Int) → (rs : List FillReport) →
    Decidable (ExactReports opened rs)
  | _, [] => .isTrue trivial
  | opened, r :: rs =>
    have := decidableExactReports (opened - r.quantity) rs
    inferInstanceAs (Decidable (0 < r.quantity ∧ r.quantity ≤ opened ∧
      r.remaining = shownRemaining (opened - r.quantity) ∧ ExactReports (opened - r.quantity) rs))

def reportTotal (rs : List FillReport) : Int :=
  (rs.map (·.quantity)).sum

/-- The reports of one call of the match policy for an aggressor with this open quantity. The call
allots `done` and `rest`; the fills of `done` are booked, a self-match cuts off `rest`, and every
report gives what the whole call leaves. -/
def Exchange.Batch (X : Exchange D) (opened : Int) (batch : List FillReport) : Prop :=
  ∃ level done rest, (X.algo.matchLevel level opened).results = done ++ rest ∧
    (∀ f ∈ done, 0 < f.quantity) ∧ fillTotal (done ++ rest) = min opened level.totalQuantity ∧
    batch.map (·.quantity) = done.map (·.quantity) ∧
    (∀ r ∈ batch, r.remaining = shownRemaining (opened - fillTotal (done ++ rest))) ∧
    ((∀ d a b, X.isSelfMatch d a b = false) → rest = [])

/-- Batches of reports, each of them about what the ones before have left open. -/
def Exchange.Batches (X : Exchange D) : Int → List (List FillReport) → Prop
  | _, [] => True
  | opened, batch :: later => X.Batch opened batch ∧ X.Batches (opened - reportTotal batch) later

def Exchange.InBatches (X : Exchange D) (opened : Int) (rs : List FillReport) : Prop :=
  ∃ batches, rs = batches.flatten ∧ X.Batches opened batches

theorem Exchange.InBatches.nil (opened : Int) : X.InBatches opened [] :=
  ⟨[], rfl, trivial⟩

theorem Exchange.InBatches.cons {opened : Int} (h : X.Batch opened rs)
    (h' : X.InBatches (opened - reportTotal rs) rs') : X.InBatches opened (rs ++ rs') := by
  obtain ⟨batches, rfl, hlater⟩ := h'
  exact ⟨rs :: batches, rfl, h, hlater⟩

section observer

variable (e : Engine D)

@[simp] theorem fillReports_emit (ev : Event) : (e.emit ev).fillReports =
    e.fillReports ++ (fillReport? (.event ev)).toList := by
  cases h : fillReport? (.event ev) <;> simp [fillReports, emit, h]

@[simp] theorem fillReports_sheet : e.sheet.fillReports = e.fillReports :=
  filterMap_logged (fun _ => rfl) e.journal

@[simp] theorem fillReports_reveals (o : Order) (ts : Int) :
    (e.reveals o ts).fillReports = e.fillReports := by
  unfold reveals
  split <;> simp [fillReport?]

theorem fillReports_closeResting (ts : Int) (f : FillResult) (resting : Order) :
    (e.closeResting ts f resting).fillReports = e.fillReports := by
  rw [← fillReports_sheet, sheet_closeResting]
  split <;> simp

@[simp] theorem fillReports_dropOrder (o : Order) (ts : Int) (r : CancelReason) :
    (e.dropOrder o ts r).fillReports = e.fillReports := by
  rw [← fillReports_sheet]
  simp [fillReport?]

@[simp] theorem fillReports_fireTopOfBook (ts : Int) :
    (e.fireTopOfBook ts).fillReports = e.fillReports := by
  rw [← fillReports_sheet]
  simp [fillReport?]

@[simp] theorem fillReports_fireTopOfBookIfChanged (ts b a : Int) :
    (e.fireTopOfBookIfChanged ts b a).fillReports = e.fillReports := by
  unfold fireTopOfBookIfChanged
  split <;> simp

theorem fillReports_bookFill (X : Exchange D) (ts : Int) (order resting : Order) (f : FillResult)
    (reported : Int) : (e.bookFill X ts order resting f reported).fillReports =
      e.fillReports ++ [⟨order.id, f.quantity, shownRemaining reported⟩] := by
  unfold bookFill
  rw [fillReports_closeResting]
  unfold bookTrade
  by_cases h : reported = 0 <;>
    simp [emit, fillReports, setBook, fillResting,
      filterMap_cons, fillReport?, shownRemaining, h]

@[simp] theorem fillReports_applySmpAction (X : Exchange D) (order resting : Order)
    (f : FillResult) (ts : Int) :
    (e.applySmpAction X order resting f ts).2.fillReports = e.fillReports := by
  rw [← fillReports_sheet]
  unfold applySmpAction
  cases X.getSmpAction e.derived <;> simp [fillReport?]

@[simp] theorem fillReports_insertIntoBook (o : Order) (ts : Int) :
    (e.insertIntoBook o ts).fillReports = e.fillReports := by
  rw [← fillReports_sheet, sheet_insertIntoBook]
  split <;> simp [fillReport?]

@[simp] theorem fillReports_postMatch (o : Order) (ts b a : Int) :
    (e.postMatch o ts b a).fillReports = e.fillReports := by
  have hrelease : (e.release o).fillReports = e.fillReports := rfl
  rcases postMatch_cases o ts b a e with ⟨-, heq⟩ | ⟨reason, heq⟩ | ⟨-, -, heq⟩ <;> rw [heq]
  · simp [hrelease]
  · simp
  · simp

end observer

theorem fillReports_session {ts : Int} (h : SessionSteps X ts e e₁) :
    e₁.fillReports = e.fillReports := by
  induction h with
  | refl => rfl
  | tail _ hstep ih =>
    rw [← ih]
    cases hstep <;> simp [fillReports, emit, fillReport?]

theorem fillReports_run {m : Move D} (hg : m.guard X W) (hm : m.unmatched = true) :
    (m.run X W).engine.fillReports = W.engine.fillReports := by
  cases m with
  | note tracker entries =>
    have hnone : entries.filterMap fillReport? = [] := by
      rw [filterMap_eq_nil_iff]
      intro x hx
      have hq : x.quiet = true := hg x hx
      cases x with
      | action a => rfl
      | event ev => cases ev <;> first | rfl | simp [quiet] at hq
    simp [run, fillReports, hnone]
  | accept req slot pool =>
    simp [run, acceptOrder, fillReports, emit, fillReport?]
  | fill | cross => simp [unmatched] at hm
  | cancelResting ts order resting f notify =>
    rw [← fillReports_sheet]
    cases notify <;> simp [run, fillReport?]
  | rest order ts => exact fillReports_insertIntoBook _ order ts
  | park order stopPrice =>
    rw [← fillReports_sheet]
    simp only [run, sheet_insertIntoStopBook]
    split <;> simp [fillReport?]
  | bust | session | markBusted | reference | hook =>
    simp [run, reportBust, fillReports, emit, fillReport?]
  | _ =>
    rw [← fillReports_sheet]
    simp [run, fillReport?]

theorem OpRun.fillReports {w c : Prop} {W' : World D} (h : OpRun X w c unmatched W W') :
    W'.engine.fillReports = W.engine.fillReports :=
  Machine.Run.invariant (I := fun V => V.engine.fillReports = W.engine.fillReports) h rfl
    fun _ _ hV hg hp => (fillReports_run hg hp.2).trans hV

/-- The fills of a level pass are reported with what is left of the aggressor after all of
them, up to the first self-match. -/
theorem processFills_reports (ts : Int) {pend : List FillResult} {R price : Int}
    (hs : World.Sound X True ⟨e, some ord⟩) (hR : 0 ≤ R)
    (hrem : ord.remainingQuantity = R + fillTotal pend) (hallow : ord.allows price = true)
    (hent : ord.Entered) (hp : e.Pending True ord.side.opposite price pend) :
    ∃ alive e' done rest, (e.advance ord.side.opposite pend).processFills X ts pend
        { ord with remainingQuantity := R } = .ok (alive, e') ∧ pend = done ++ rest ∧
      e'.fillReports = e.fillReports ++
        done.map (fun f => ⟨ord.id, f.quantity, shownRemaining R⟩) ∧
      (∀ o ∈ alive, o.remainingQuantity = R + fillTotal rest) ∧
      ((∀ d a b, X.isSelfMatch d a b = false) → rest = []) := by
  induction pend generalizing ord e with
  | nil => exact ⟨_, _, [], [], by rw [advance_nil]; rfl, by simp⟩
  | cons f rs ih =>
    obtain ⟨resting, hh, hpend⟩ := hp.heads hs hallow hent
    by_cases hself : X.isSelfMatch e.derived { ord with remainingQuantity := R }
        (resting.fill (filledBy resting.id (f :: rs))) = true
    · have hsmp := applySmpAction_run (X := X) (w := True) (c := False) ts hh.rests hh.side
        hh.price
      let r := e.applySmpAction X ord resting f ts
      refine ⟨r.1, r.2, [], f :: rs, processFills_self ts R hh.found hrem hself, rfl, by simp [r],
        fun o ho => ?_, fun hno => ?_⟩
      · rw [hsmp.2 o ho, hrem]
      · simp [hno] at hself
    · have hmove : guard X (.fill ts ord resting f (R + fillTotal rs) R) ⟨e, some ord⟩ :=
        ⟨rfl, hh.meets⟩
      have hexact : True → exact (.fill ts ord resting f (R + fillTotal rs) R) :=
        hh.exact ts (fun _ => hR) hrem
      let ord' : Order := { ord with
        filledQuantity := ord.filledQuantity + f.quantity
        remainingQuantity := R + fillTotal rs }
      obtain ⟨alive, e', done, rest, heq, hsplit, hreports, halive, hno⟩ := ih
        (show World.Sound X True ⟨e.bookFill X ts ord resting f R, some ord'⟩ from
          World.Sound.fill hs hmove hexact) rfl hallow hent (hpend ts R)
      refine ⟨alive, e', f :: done, rest, ?_, by rw [hsplit]; rfl, ?_, halive, hno⟩
      · rw [processFills_fill ts R hh.found hh.side hh.meets.named hh.done
          (Bool.eq_false_iff.mpr hself)]
        exact heq
      · rw [hreports, fillReports_bookFill, List.append_assoc]
        rfl

section pass

variable {ord : Order} {alive : Option Order} {e e' : Engine D} {level : PriceLevel} {deeper : List PriceLevel}

theorem pass_reports (ts : Int) (hs : World.Sound X True ⟨e, some ord⟩)
    (hturn : e.Turn ord level deeper) (hent : ord.Entered) :
    let m := X.algo.matchLevel level ord.remainingQuantity
    let R := ord.remainingQuantity - fillTotal m.results
    ∃ alive e' done rest, e.pass X ts ord level deeper = .ok (alive, e') ∧
      m.results = done ++ rest ∧ e'.fillReports = e.fillReports ++
        done.map (fun f => ⟨ord.id, f.quantity, shownRemaining R⟩) ∧
      (∀ o ∈ alive, o.remainingQuantity = R + fillTotal rest) ∧
      ((∀ d a b, X.isSelfMatch d a b = false) → rest = []) := by
  obtain ⟨hrem, htot⟩ := best_amounts hs hturn trivial
  rw [pass_eq_advance (hs.holds.nodup .limit ord.side.opposite) hturn, hrem]
  exact processFills_reports ts hs (by omega) (by omega) hturn.allowed hent (best_pending hs hturn)

theorem pass_batch (ts : Int) (hs : World.Sound X True ⟨e, some ord⟩)
    (hturn : e.Turn ord level deeper) (hent : ord.Entered)
    (hpass : e.pass X ts ord level deeper = .ok (alive, e')) :
    ∃ rs, e'.fillReports = e.fillReports ++ rs ∧ (∀ r ∈ rs, r.aggressor = ord.id) ∧
      X.Batch ord.remainingQuantity rs ∧
      ∀ o ∈ alive, o.remainingQuantity = ord.remainingQuantity - reportTotal rs := by
  let m := X.algo.matchLevel level ord.remainingQuantity
  have htot : fillTotal m.results = min ord.remainingQuantity level.totalQuantity :=
    (best_amounts hs hturn trivial).2
  obtain ⟨_, _, done, rest, heq, hsplit, hreports, halive, hno⟩ := pass_reports ts hs hturn hent
  cases hpass.symm.trans heq
  have hsplit : m.results = done ++ rest := hsplit
  obtain ⟨hdistinct, hlevel⟩ := best_level hs hturn.book
  have hpos : ∀ f ∈ m.results, 0 < f.quantity :=
    (X.algo.bookable level ord.remainingQuantity hdistinct).positive
      ⟨hlevel.exact trivial, hturn.left⟩
  have hquantities : (done.map fun f => FillReport.mk ord.id f.quantity
      (shownRemaining (ord.remainingQuantity - fillTotal m.results))).map (·.quantity) =
        done.map (·.quantity) := by simp
  refine ⟨_, hreports, by simp, ⟨level, done, rest, hsplit, fun f hf => ?_, hsplit ▸ htot,
    hquantities, fun r hr => ?_, hno⟩, fun o ho => ?_⟩
  · exact hpos f (hsplit ▸ mem_append_left rest hf)
  · obtain ⟨f, -, rfl⟩ := mem_map.mp hr
    rw [← hsplit]
  · have hdone : reportTotal (done.map fun f => FillReport.mk ord.id f.quantity
        (shownRemaining (ord.remainingQuantity - fillTotal m.results))) = fillTotal done :=
      congrArg List.sum hquantities
    have hsum : fillTotal m.results = fillTotal done + fillTotal rest := by
      rw [hsplit, fillTotal_append]
    rw [halive o ho, hdone]
    change ord.remainingQuantity - fillTotal m.results + fillTotal rest = _
    omega

end pass

def Engine.ReportsOf (X : Exchange D) (order : Order) (e e' : Engine D) : Prop :=
  ∃ rs, e'.fillReports = e.fillReports ++ rs ∧ (∀ r ∈ rs, r.aggressor = order.id) ∧
    X.InBatches order.remainingQuantity rs

theorem Engine.ReportsOf.same {e' : Engine D} (h : e'.fillReports = e.fillReports) :
    e.ReportsOf X order e' :=
  ⟨[], by simp [h], by simp, .nil _⟩

theorem Engine.ReportsOf.congr (h : e.ReportsOf X order e₁)
    (heq : e₂.fillReports = e₁.fillReports) : e.ReportsOf X order e₂ := by
  obtain ⟨rs, hr, hrest⟩ := h
  exact ⟨rs, heq.trans hr, hrest⟩

theorem Engine.ReportsOf.after {order' : Order} (h : e₁.ReportsOf X order' e₂)
    (hreports : e₁.fillReports = e.fillReports ++ rs) (hnames : ∀ r ∈ rs, r.aggressor = order.id)
    (hbatch : X.Batch order.remainingQuantity rs) (hid : order'.id = order.id)
    (hrem : order'.remainingQuantity = order.remainingQuantity - reportTotal rs) :
    e.ReportsOf X order e₂ := by
  obtain ⟨rs', hreports', hnames', hbatches⟩ := h
  refine ⟨rs ++ rs', by rw [hreports', hreports, List.append_assoc], ?_, ?_⟩
  · intro r hr
    rcases List.mem_append.mp hr with hr | hr
    · exact hnames r hr
    · exact (hnames' r hr).trans hid
  · exact .cons hbatch (hrem ▸ hbatches)

theorem matchLoop_batches (ts : Int) (fuel : Nat) (hs : World.Sound X True ⟨e, some ord⟩)
    (hent : ord.Entered) :
    e.ReportsOf X ord (Outcome.engine ((e.matchLoop X ts fuel ord).map (·.2))) := by
  refine matchLoop_rule X ts (P := fun _ o e r => World.Sound X True ⟨e, some o⟩ → o.Entered →
    e.ReportsOf X o (Outcome.engine (r.map (·.2)))) ?_ ?_ ?_ ?_ ?_ ?_ fuel ord e hs hent
  · exact fun _ _ _ _ => .same rfl
  · exact fun _ _ _ _ _ _ => .same rfl
  · exact fun _ _ _ _ _ _ _ _ _ => .same rfl
  · exact fun _ _ _ _ _ _ hturn hpass hs hent => absurd hpass (pass_ne_error hs hturn hent)
  · intro _ o e level deeper alive e' hturn hpass _ hs hent
    obtain ⟨rs, hreports, hnames, hbatch, -⟩ := pass_batch ts hs hturn hent hpass
    have hends : e.ReportsOf X o e' :=
      ⟨rs, hreports, hnames, by simpa using Exchange.InBatches.cons hbatch (.nil _)⟩
    refine hends.congr ?_
    simp [Except.map, Outcome.engine, fillReports_session (interrupted_steps X ts e')]
  · intro _ o e level deeper o' e' r hturn hpass ih hs hent
    obtain ⟨rs, hreports, hnames, hbatch, hrem⟩ := pass_batch ts hs hturn hent hpass
    obtain ⟨hcont, hent', hs'⟩ := (pass_ok (c := False) hs hturn hent hpass).2 o' rfl
    exact (ih hs' hent').after hreports hnames hbatch (by rw [hcont]) (hrem o' rfl)

theorem matchOrder_batches (ts : Int) (fuel : Nat) (hs : World.Sound X True ⟨e, some order⟩)
    (hent : order.Entered) :
    e.ReportsOf X order (Outcome.engine (e.matchOrder X fuel order ts)) := by
  have hloop := matchLoop_batches ts fuel hs hent
  unfold matchOrder
  split
  next => exact .same (by simp [Outcome.engine])
  next =>
    cases hr : e.matchLoop X ts fuel order with
    | error err =>
      rw [hr] at hloop
      exact hloop
    | ok r =>
      rw [hr] at hloop
      obtain ⟨_ | o, e'⟩ := r
      · exact hloop.congr (by simp [Outcome.engine, Except.map])
      · exact hloop.congr (by simp [Outcome.engine, Except.map])

/-- An order as an operation finds it, or as the operation makes it. -/
def Engine.openOrder (X : Exchange D) (e : Engine D) : Action → Nat → Option Order
  | .newOrder req, id =>
    if id = e.nextOrderId then some (e.buildOrder X req {}) else World.view ⟨e, none⟩ id
  | .modifyOrder req, id =>
    (World.view ⟨e, none⟩ id).map fun o => if id = req.orderId then o.replaced req else o
  | _, id => World.view ⟨e, none⟩ id

/-- The open quantity of an order before an operation trades it, hidden quantity included. -/
def Engine.openQty (X : Exchange D) (e : Engine D) (a : Action) (id : Nat) : Int :=
  ((e.openOrder X a id).map Order.exposure).getD 0

def Engine.showsAll (X : Exchange D) (e : Engine D) (a : Action) (id : Nat) : Prop :=
  ∀ o ∈ e.openOrder X a id, o.exposure = o.remainingQuantity

def Engine.shownQty (X : Exchange D) (e : Engine D) (a : Action) (id : Nat) : Int :=
  ((e.openOrder X a id).map (·.remainingQuantity)).getD 0

theorem openQty_of_showsAll {id : Nat} (h : e.showsAll X a id) :
    e.openQty X a id = e.shownQty X a id := by
  unfold openQty shownQty
  cases ho : e.openOrder X a id with
  | none => rfl
  | some o => exact h o ho

/-- The fill events of an operation, told apart by the aggressor they name, meet `P` with its open
quantity. -/
def Engine.Reports (X : Exchange D) (P : Nat → Int → List FillReport → Prop) (fuel : Nat)
    (a : Action) (e : Engine D) : Prop :=
  ∃ rs, (Outcome.engine (e.perform X fuel a)).fillReports = e.fillReports ++ rs ∧
    ∀ id, P id (e.openQty X a id) (rs.filter (·.aggressor == id))

/-- The reports of an operation, told apart by the aggressor they name. -/
def Exchange.BatchesFor (X : Exchange D) (opened : Nat → Int) (rs : List FillReport) : Prop :=
  ∀ id, X.InBatches (opened id) (rs.filter (·.aggressor == id))

/-- Inside an operation: what is reported so far comes in batches, and an order that is still to be
matched has its open quantity and no report. -/
structure Engine.Reported (X : Exchange D) (opened : Nat → Int) (e₀ : Engine D) (W : World D) :
    Prop where
  sound : W.Sound X True
  reports : ∃ rs, W.engine.fillReports = e₀.fillReports ++ rs ∧ X.BatchesFor opened rs ∧
    ∀ o, W.engine.waits o ∨ W.flight = some o →
      opened o.id = o.remainingQuantity ∧ ∀ r ∈ rs, r.aggressor ≠ o.id

theorem Exchange.BatchesFor.append {opened : Nat → Int} (h : X.BatchesFor opened rs) {id : Nat}
    (hnew : ∀ r ∈ rs, r.aggressor ≠ id) (hnames : ∀ r ∈ rs', r.aggressor = id)
    (hbatches : X.InBatches (opened id) rs') : X.BatchesFor opened (rs ++ rs') := by
  intro j
  rw [filter_append]
  by_cases hj : j = id
  · subst hj
    have hnone : rs.filter (·.aggressor == j) = [] := by
      simpa [filter_eq_nil_iff] using hnew
    have hall : rs'.filter (·.aggressor == j) = rs' := by
      simpa [filter_eq_self] using hnames
    rw [hnone, hall]
    exact hbatches
  · have hnone : rs'.filter (·.aggressor == j) = [] := by
      simp only [filter_eq_nil_iff, beq_iff_eq]
      exact fun r hr he => hj (he.symm.trans (hnames r hr))
    rw [hnone, append_nil]
    exact h j

theorem id_ne_of_waits (hs : World.Sound X True ⟨e, some order⟩) (hent : order.Entered)
    (hwait : e.waits o) : o.id ≠ order.id := by
  intro he
  have hview : World.view ⟨e, some order⟩ o.id = some o := hs.view_waits hwait
  rw [he, hs.view_flight rfl] at hview
  obtain rfl := Option.some.inj hview
  have hstop := type_of_waits hs.holds hwait
  rcases hent with ht | ht <;> simp [ht, OrderType.isStop] at hstop

theorem waits_of_removeStop (h : (e.removeStop stop).waits o) : e.waits o := by
  unfold waits at h ⊢
  rw [removeStop_stopBook] at h
  by_cases hs : o.side = stop.side
  · rw [hs, Function.update_self] at h
    rw [hs]
    exact mem_of_mem_unlinkFrom h
  · rwa [Function.update_of_ne hs] at h

namespace Engine.Reported

variable {opened : Nat → Int} {e₀ e : Engine D}

theorem trigger (h : e₀.Reported X opened ⟨e, none⟩) (hg : guard X (.trigger stop) ⟨e, none⟩) :
    e₀.Reported X opened ⟨e.removeStop stop, some stop.triggered⟩ := by
  refine ⟨h.sound.run hg fun _ => trivial, ?_⟩
  obtain ⟨rs, hreports, hbatches, hopen⟩ := h.reports
  refine ⟨rs, (fillReports_run hg rfl).trans hreports, hbatches, ?_⟩
  rintro o (hwait | hfl)
  · exact hopen o (.inl (waits_of_removeStop hwait))
  · obtain rfl : stop.triggered = o := Option.some.inj hfl
    have hwait : e.waits stop := nextTriggeredStop_waits (h.sound.holds_none rfl) hg.2.2
    have hstop := hopen stop (.inl hwait)
    have hsame : stop.triggered.id = stop.id ∧
        stop.triggered.remainingQuantity = stop.remainingQuantity := by
      unfold Order.triggered
      split <;> exact ⟨rfl, rfl⟩
    rw [hsame.1, hsame.2]
    exact hstop

theorem call {fuel : Nat} {ts : Int} (h : e₀.Reported X opened ⟨e, some order⟩)
    (hent : order.Entered) :
    Outcome.Ends (e₀.Reported X opened) (fun _ W => ∃ rs,
      W.engine.fillReports = e₀.fillReports ++ rs ∧ X.BatchesFor opened rs)
      (e.matchOrder X fuel order ts) := by
  obtain ⟨rs, hreports, hbatches, hopen⟩ := h.reports
  obtain ⟨rs', hreports', hnames, hbatches'⟩ := matchOrder_batches ts fuel h.sound hent
  obtain ⟨hopened, hnew⟩ := hopen order (.inr rfl)
  have hboth : X.BatchesFor opened (rs ++ rs') :=
    hbatches.append hnew hnames (hopened ▸ hbatches')
  have hrun := matchOrder_run (c := False) (fun _ => id) fuel ts h.sound False.elim False.elim hent
  cases hm : e.matchOrder X fuel order ts with
  | error err =>
    rw [hm] at hreports'
    exact ⟨none, rs ++ rs', by rw [← List.append_assoc, ← hreports]; exact hreports', hboth⟩
  | ok e' =>
    rw [hm] at hreports' hrun
    refine ⟨OpRun.sound hrun h.sound, rs ++ rs', by rw [← List.append_assoc, ← hreports]; exact hreports',
      hboth, ?_⟩
    rintro o (hwait | hfl)
    · have hstops : e'.stopBook = e.stopBook := by
        obtain ⟨e₁, ht, hs⟩ := (concludes_matchOrder hm).parts
        exact hs.stops.trans ht.stops
      have hwait' : e.waits o := by
        unfold waits at hwait ⊢
        exact hstops ▸ hwait
      obtain ⟨hq, hne⟩ := hopen o (.inl hwait')
      refine ⟨hq, fun r hr => ?_⟩
      rcases List.mem_append.mp hr with hr | hr
      · exact hne r hr
      · rw [hnames r hr]
        exact (id_ne_of_waits h.sound hent hwait').symm
    · simp at hfl

end Engine.Reported

theorem Engine.Brings.shownQty {k : ℕ∞} (hs : World.Sound X True ⟨e, none⟩)
    (h : e.Brings X k a e₁ order) :
    ∀ o, e₁.waits o ∨ some order = some o → e.shownQty X a o.id = o.remainingQuantity := by
  rintro o (hwait | ho)
  · have hne : o.id ≠ order.id := id_ne_of_waits (h.run.sound hs) h.entered hwait
    have hwait' : e.waits o := by
      unfold waits at hwait ⊢
      exact h.stops ▸ hwait
    have hview : World.view ⟨e, none⟩ o.id = some o := hs.view_waits hwait'
    have hopens := h.opens
    cases a with
    | newOrder req =>
      obtain ⟨slot, rfl⟩ := hopens
      have hne : o.id ≠ e.nextOrderId := hne
      simp [shownQty, openOrder, hne, hview]
    | modifyOrder req =>
      obtain ⟨o', -, hid, rfl⟩ := hopens
      have hne : o.id ≠ req.orderId := hid ▸ hne
      simp [shownQty, openOrder, hne, hview]
    | _ => exact hopens.elim
  · obtain rfl := Option.some.inj ho
    have hopens := h.opens
    cases a with
    | newOrder req =>
      obtain ⟨slot, rfl⟩ := hopens
      simp [shownQty, openOrder, buildOrder]
    | modifyOrder req =>
      obtain ⟨o', hmem, hid, rfl⟩ := hopens
      have hview : World.view ⟨e, none⟩ o'.id = some o' := hs.view_linked hmem
      simp only [shownQty, openOrder, Order.replaced]
      rw [hview]
      simp [hid]
    | _ => exact hopens.elim

theorem perform_batches (fuel : Nat) (ha : a.entering = true)
    (hs : World.Sound X True ⟨e, none⟩) (hok : e.Admits True False a) :
    ∃ rs, (Outcome.engine (e.perform X fuel a)).fillReports = e.fillReports ++ rs ∧
      X.BatchesFor (e.shownQty X a) rs := by
  have hnil : X.BatchesFor (e.shownQty X a) [] := fun _ => .nil _
  rcases entering_admitted (k := ⊤) fuel ha hs (World.Uncrowded.top _) hok.roomy_top with
    ⟨e', heq, hrun, -⟩ | ⟨e₁, order, ts, heq, hbrings⟩
  · rw [heq]
    exact ⟨[], by rw [append_nil]; exact hrun.fillReports, hnil⟩
  · have hstart : e.Reported X (e.shownQty X a) ⟨e₁, some order⟩ := by
      refine ⟨hbrings.run.sound hs, [], ?_, hnil, fun o ho => ?_⟩
      · simpa using hbrings.run.fillReports
      · exact ⟨hbrings.shownQty hs o ho, by simp⟩
    have hend : Outcome.Ends (e.Reported X (e.shownQty X a)) (fun _ W => ∃ rs,
        W.engine.fillReports = e.fillReports ++ rs ∧ X.BatchesFor (e.shownQty X a) rs)
        (e₁.matchAndTrigger X fuel order ts) := matchAndTrigger_calls
      (fun _ _ hI hg => hI.trigger hg) (fun _ _ hI hent => hI.call hent)
      (fun _ hI => hI.reports.imp fun _ h => ⟨h.1, h.2.1⟩) hstart hbrings.entered
    rw [heq]
    cases hm : e₁.matchAndTrigger X fuel order ts with
    | error err =>
      rw [hm] at hend
      obtain ⟨_, rs, hreports, hbatches⟩ := hend
      exact ⟨rs, hreports, hbatches⟩
    | ok e' =>
      rw [hm] at hend
      obtain ⟨rs, hreports, hbatches, -⟩ := hend.reports
      exact ⟨rs, hreports, hbatches⟩

def Action.continuous : Action → Bool
  | .executeAuction .. => false
  | _ => true

theorem Move.unmatched_of_partOf (ha : a.continuous = true) (hent : a.entering = false) {m : Move D}
    (hm : m.partOf a = true) : m.unmatched = true := by
  cases a <;> simp [Action.continuous, Action.entering] at ha hent <;> cases m <;> first
    | rfl
    | simp [Move.partOf] at hm

theorem perform_unreported (fuel : Nat) (ha : a.continuous = true) (hent : a.entering = false)
    (hs : World.Sound X True ⟨e, none⟩) (hok : e.Admits True False a) :
    (Outcome.engine (e.perform X fuel a)).fillReports = e.fillReports := by
  have hrun := perform_run fuel hs False.elim False.elim hok
  have hquiet : ∀ {W : World D}, OpRun X True False (Move.partOf a) ⟨e, none⟩ W →
      W.engine.fillReports = e.fillReports := fun h =>
    OpRun.fillReports (Machine.Run.mono h fun m _ _ hp =>
      ⟨hp.1, Move.unmatched_of_partOf ha hent hp.2⟩)
  cases hr : e.perform X fuel a with
  | ok e' =>
    rw [hr] at hrun
    exact hquiet hrun
  | error err =>
    rw [hr] at hrun
    obtain ⟨-, fl, hrun⟩ := hrun
    exact hquiet hrun

def stackedOffers : Engine Unit :=
  runAll sampleExchange [.newOrder (limitRequest .sell 100 5), .newOrder (limitRequest .sell 100 5)]
    (sampleStart sampleExchange sampleConfig ())

end ExchangeSim
