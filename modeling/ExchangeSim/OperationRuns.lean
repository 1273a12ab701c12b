import ExchangeSim.MatchRuns

namespace ExchangeSim

open Engine Move

variable {D : Type} {X : Exchange D} {w c : Prop} {P : Move D → Bool} {W W' : World D}
  {e : Engine D} {I : World D → Prop} {m : Move D} {r : Outcome D (Engine D)}

def Move.partOf : Action → Move D → Bool
  | _, .note .. => true
  | .newOrder _, .accept .. => true
  | .newOrder _, .park .. => true
  | .newOrder _, .finish .. => true
  | .newOrder _, .rest .. => true
  | .newOrder _, .trigger .. => true
  | .newOrder _, .topOfBook .. => true
  | .newOrder _, m => m.matching
  | .modifyOrder _, .pull .. => true
  | .modifyOrder _, .amend .. => true
  | .modifyOrder _, .finish .. => true
  | .modifyOrder _, .rest .. => true
  | .modifyOrder _, .trigger .. => true
  | .modifyOrder _, .topOfBook .. => true
  | .modifyOrder _, m => m.matching
  | .cancelOrder .., .cancel .. => true
  | .cancelOrder .., .cancelStop .. => true
  | .cancelOrder .., .topOfBook .. => true
  | .triggerExpiry .., .cancel .. => true
  | .triggerExpiry .., .cancelStop .. => true
  | .triggerExpiry .., .topOfBook .. => true
  | .massCancel .., .cancel .. => true
  | .massCancel .., .cancelStop .. => true
  | .massCancel .., .topOfBook .. => true
  | .massCancelAll .., .cancel .. => true
  | .massCancelAll .., .cancelStop .. => true
  | .massCancelAll .., .topOfBook .. => true
  | .bustTrade .., .markBusted .. => true
  | .bustTrade .., .unfill .. => true
  | .bustTrade .., .bust .. => true
  | .setSessionState .., .session .. => true
  | .setSessionState .., .reference .. => true
  | .unlockLimit .., .session .. => true
  | .executeAuction .., .cross .. => true
  | .executeAuction .., .topOfBook .. => true
  | .executeAuction .., .reference .. => true
  | _, _ => false

theorem Move.partOf_note (a : Action) (t : RateTracker) (es : List JournalEntry) :
    partOf (D := D) a (.note t es) = true := by
  cases a <;> rfl

def OpRun (X : Exchange D) (w c : Prop) (P : Move D → Bool) : World D → World D → Prop :=
  (machine X).Run fun m W => Legal w c m W ∧ P m = true

theorem OpRun.sound (h : OpRun X w c P W W') (hs : W.Sound X w) : W'.Sound X w :=
  Machine.Run.invariant h hs fun _ _ ht hg hp => ht.run hg hp.1.exact

theorem OpRun.invariant (h : OpRun X w c P W W') (hs : W.Sound X w) (hI : I W)
    (step : ∀ m V, V.Sound X w → I V → guard X m V → Legal w c m V → P m = true →
      I (m.run X V)) : I W' := by
  have hboth : W'.Sound X w ∧ I W' :=
    Machine.Run.invariant (I := fun V => V.Sound X w ∧ I V) h ⟨hs, hI⟩ fun m V hV hg hp =>
      ⟨hV.1.run hg hp.1.exact, step m V hV.1 hV.2 hg hp.1 hp.2⟩
  exact hboth.2

theorem OpRun.context (h : OpRun X w c P W W') (hc : c) : W'.engine.context = W.engine.context :=
  Machine.Run.invariant (I := fun V => V.engine.context = W.engine.context) h rfl
    fun _ V ht _ hp => (run_context (hp.1.steady hc) V).trans ht

def Action.entering : Action → Bool
  | .newOrder _ => true
  | .modifyOrder _ => true
  | _ => false

def Move.landing : Move D → Bool
  | .finish .. => true
  | .rest .. => true
  | .trigger .. => true
  | .topOfBook .. => true
  | m => m.matching

theorem Move.partOf_entering {a : Action} (ha : a.entering = true) (hm : m.landing = true) :
    m.partOf a = true := by
  cases a <;> simp [Action.entering] at ha <;> cases m <;>
    simp [landing, matching, partOf] at hm ⊢

theorem Move.landing_of_matching (hm : m.matching = true) : m.landing = true := by
  cases m <;> simp [landing, matching] at hm ⊢

theorem MatchRun.toOpRun (hP : ∀ m : Move D, m.landing = true → P m = true)
    (h : MatchRun X w c W W') : OpRun X w c P W W' :=
  Machine.Run.mono h fun m _ _ hp => ⟨hp.1, hP m (landing_of_matching hp.2)⟩

/-- What an operation comes to: a run of its moves, which ends with no order in flight
unless the operation does not finish. -/
def OpOutcome (X : Exchange D) (w c : Prop) (P : Move D → Bool) (W : World D) :
    Outcome D (Engine D) → Prop
  | .ok e => OpRun X w c P W ⟨e, none⟩
  | .error (fault, e) => fault.expected ∧ ∃ fl, OpRun X w c P W ⟨e, fl⟩

/-- `I` holds where an operation ends, with no order in flight if it comes to its end. -/
def Outcome.Keeps (I : World D → Prop) : Outcome D (Engine D) → Prop
  | .ok e => I ⟨e, none⟩
  | .error (_, e) => ∃ fl, I ⟨e, fl⟩

theorem OpOutcome.keeps (h : OpOutcome X w c P W r) (hs : W.Sound X w) (hI : I W)
    (step : ∀ m V, V.Sound X w → I V → guard X m V → Legal w c m V → P m = true →
      I (m.run X V)) : Outcome.Keeps (fun V => V.Sound X w ∧ I V) r := by
  cases r with
  | ok e =>
    have hrun : OpRun X w c P W ⟨e, none⟩ := h
    exact ⟨hrun.sound hs, hrun.invariant hs hI step⟩
  | error r =>
    obtain ⟨-, fl, hrun⟩ := h
    exact ⟨fl, OpRun.sound hrun hs, OpRun.invariant hrun hs hI step⟩

theorem OpOutcome.after (hrun : OpRun X w c P W W') (h : OpOutcome X w c P W' r) :
    OpOutcome X w c P W r := by
  cases r with
  | ok e => exact Machine.Run.trans hrun h
  | error r =>
    obtain ⟨hf, fl, hfl⟩ := h
    exact ⟨hf, fl, Machine.Run.trans hrun hfl⟩

theorem OpRun.step (m : Move D) (hg : m.guard X W) (hx : w → m.exact) (hs : c → m.steady = true)
    (hr : m.restsLegally c W) (hP : P m = true) : OpRun X w c P W (m.run X W) :=
  Machine.Run.single hg ⟨⟨hx, hs, hr⟩, hP⟩

theorem note_run (hP : ∀ t es, P (.note t es) = true) (e : Engine D) (fl : Option Order)
    (t : RateTracker) (entries : List JournalEntry) (h : ∀ x ∈ entries, x.quiet = true) :
    OpRun X w c P ⟨e, fl⟩
      ⟨{ e with rateTracker := t, journal := e.journal ++ entries }, fl⟩ :=
  OpRun.step (.note t entries) h (fun _ => trivial) (fun _ => rfl) trivial (hP t entries)

theorem emit_run (hP : ∀ t es, P (.note t es) = true) (e : Engine D) (fl : Option Order)
    {ev : Event} (h : (JournalEntry.event ev).quiet = true) :
    OpRun X w c P ⟨e, fl⟩ ⟨e.emit ev, fl⟩ :=
  note_run hP e fl e.rateTracker [.event ev] (by simpa using h)

theorem fireTopOfBookIfChanged_run (hP : ∀ ts, P (.topOfBook ts) = true) (ts b k : Int)
    (e : Engine D) (fl : Option Order) :
    OpRun X w c P ⟨e, fl⟩ ⟨e.fireTopOfBookIfChanged ts b k, fl⟩ := by
  unfold fireTopOfBookIfChanged
  split
  · exact OpRun.step (.topOfBook ts) trivial (fun _ => trivial) (fun _ => rfl) trivial (hP ts)
  · exact .refl

theorem postMatch_run (hP : ∀ m : Move D, m.landing = true → P m = true) (ts b k : Int) {o : Order}
    (hs : World.Sound X w ⟨e, some o⟩) (hcw : c → w) (htype : o.Entered)
    (hend : o.remainingQuantity ≤ 0 ∨ (c → e.clearOf o)) :
    OpRun X w c P ⟨e, some o⟩ ⟨e.postMatch o ts b k, none⟩ := by
  have htob := fun (e : Engine D) =>
    fireTopOfBookIfChanged_run (X := X) (w := w) (c := c)
      (fun ts => hP (.topOfBook ts) rfl) ts b k e none
  rcases postMatch_cases o ts b k e with
    ⟨hzero, heq⟩ | ⟨reason, heq⟩ | ⟨hne, ⟨hmarket, hioc, hfok⟩, heq⟩ <;> rw [heq]
  · have hfinish : OpRun X w c P ⟨e, some o⟩ ⟨e.release o, none⟩ :=
      OpRun.step (.finish o) ⟨rfl, hzero⟩ (fun _ => trivial) (fun _ => rfl) trivial (hP _ rfl)
    exact Machine.Run.trans hfinish (htob _)
  · have hdrop : OpRun X w c P ⟨e, some o⟩ ⟨e.dropOrder o ts reason, none⟩ :=
      OpRun.step (.drop o ts reason) rfl (fun _ => trivial) (fun _ => rfl) trivial (hP _ rfl)
    exact Machine.Run.trans hdrop (htob _)
  · have hclear : c → e.clearOf o := by
      intro hc
      have := hs.flight o rfl (hcw hc)
      exact hend.resolve_left (by omega) hc
    have hrest : OpRun X w c P ⟨e, some o⟩ ⟨e.insertIntoBook o ts, none⟩ :=
      OpRun.step (.rest o ts) ⟨rfl, htype.resolve_right hmarket, hne⟩ (fun _ => trivial)
        (fun _ => rfl) (.inr ⟨hioc, hfok, hclear⟩) (hP _ rfl)
    exact Machine.Run.trans hrest (OpRun.step (.topOfBook ts) trivial (fun _ => trivial)
      (fun _ => rfl) trivial (hP _ rfl))

theorem matchOrder_run (hP : ∀ m : Move D, m.landing = true → P m = true) (fuel : Nat) (ts : Int)
    {ord : Order} (hs : World.Sound X w ⟨e, some ord⟩) (hcw : c → w) (hcalm : c → e.context.Calm X)
    (htype : ord.Entered) : OpOutcome X w c P ⟨e, some ord⟩ (e.matchOrder X fuel ord ts) := by
  have htob := fun (e : Engine D) (b k : Int) =>
    fireTopOfBookIfChanged_run (X := X) (w := w) (c := c)
      (fun ts => hP (.topOfBook ts) rfl) ts b k e none
  unfold matchOrder
  split
  next =>
    have hdrop : OpRun X w c P ⟨e, some ord⟩ ⟨e.dropOrder ord ts .fokFailed, none⟩ :=
      OpRun.step (.drop ord ts .fokFailed) rfl (fun _ => trivial) (fun _ => rfl) trivial
        (hP _ rfl)
    exact Machine.Run.trans hdrop (htob _ _ _)
  next =>
    have hloop := matchLoop_run ts fuel hs hcalm htype
    cases hr : e.matchLoop X ts fuel ord with
    | error err =>
      rw [hr] at hloop
      obtain ⟨hf, o, hrun⟩ := hloop
      exact ⟨hf, some o, hrun.toOpRun hP⟩
    | ok r =>
      obtain ⟨alive, e'⟩ := r
      rw [hr] at hloop
      obtain ⟨hrun, halive⟩ := hloop
      cases alive with
      | none => exact Machine.Run.trans (hrun.toOpRun hP) (htob _ _ _)
      | some o =>
        obtain ⟨hcont, hend⟩ := halive o rfl
        have ht : o.Entered := by rw [hcont]; exact htype
        exact Machine.Run.trans (hrun.toOpRun hP)
          (postMatch_run hP ts _ _ (hrun.sound hs) hcw ht hend)

theorem Order.triggered_type (stop : Order) : stop.triggered.Entered := by
  unfold Order.triggered
  split
  · exact .inr rfl
  · exact .inl rfl

/-- `I` holds where an operation comes to its end, and `F` where it stops in a fault. -/
def Outcome.Ends (I : World D → Prop) (F : Fault → World D → Prop) : Outcome D (Engine D) → Prop
  | .ok e => I ⟨e, none⟩
  | .error (fault, e) => ∃ fl, F fault ⟨e, fl⟩

theorem opOutcome_iff : OpOutcome X w c P W r ↔ Outcome.Ends (OpRun X w c P W)
    (fun fault V => fault.expected ∧ OpRun X w c P W V) r := by
  rcases r with ⟨fault, e⟩ | e
  · exact ⟨fun ⟨hf, fl, hrun⟩ => ⟨fl, hf, hrun⟩, fun ⟨fl, hf, hrun⟩ => ⟨hf, fl, hrun⟩⟩
  · exact Iff.rfl

section calls

variable {I : World D → Prop} {F : Fault → World D → Prop} {fuel : Nat} {ts : Int}

variable (htrig : ∀ e stop, I ⟨e, none⟩ → guard X (.trigger stop) ⟨e, none⟩ →
    I ⟨e.removeStop stop, some stop.triggered⟩)
  (hcall : ∀ e o, I ⟨e, some o⟩ → o.Entered → Outcome.Ends I F (e.matchOrder X fuel o ts))
  (hfuel : ∀ e, I ⟨e, none⟩ → F .outOfFuel ⟨e, none⟩)

include htrig hcall hfuel

/-- The rule for the stop cascade: what every trigger and every call of `match_order` keeps. -/
theorem checkAndTriggerStops_calls (rounds : Nat) (h : I ⟨e, none⟩) :
    Outcome.Ends I F (e.checkAndTriggerStops X fuel ts rounds) := by
  induction rounds generalizing e with
  | zero =>
    unfold checkAndTriggerStops
    split
    · split
      · exact h
      · exact ⟨none, hfuel e h⟩
      next hr => simp at hr
    · exact h
  | succ rounds ih =>
    unfold checkAndTriggerStops
    split
    next hdue =>
      split
      · exact h
      next hr => simp at hr
      next stop r hnext hr =>
        obtain rfl : rounds = r := by simpa using hr
        have hmatch := hcall _ _ (htrig e stop h ⟨rfl, hdue.1, hnext⟩) stop.triggered_type
        cases hm : (e.removeStop stop).matchOrder X fuel stop.triggered ts with
        | error err =>
          rw [hm] at hmatch
          exact hmatch
        | ok e' =>
          rw [hm] at hmatch
          exact ih hmatch
    next => exact h

theorem matchAndTrigger_calls {order : Order} (h : I ⟨e, some order⟩) (hent : order.Entered) :
    Outcome.Ends I F (e.matchAndTrigger X fuel order ts) := by
  have hmatch := hcall e order h hent
  unfold matchAndTrigger
  cases hm : e.matchOrder X fuel order ts with
  | error err =>
    rw [hm] at hmatch
    exact hmatch
  | ok e' =>
    rw [hm] at hmatch
    exact checkAndTriggerStops_calls htrig hcall hfuel fuel hmatch

end calls

end ExchangeSim
