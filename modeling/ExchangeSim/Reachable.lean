import ExchangeSim.AuctionRuns

namespace ExchangeSim

open Engine Move

variable {D : Type} {X : Exchange D} {w c : Prop} {e e₀ : Engine D} {ok : Engine D → Action → Prop}
  {a : Action} {I : World D → Prop}

/-- The operations the analysis covers: no restored orders and no implied fills, and a
modification only of an order that rests in the limit book. Under `w` it asks for no less
than is filled, under `c` the session is left alone. -/
def Engine.Admits (w c : Prop) (e : Engine D) : Action → Prop
  | .restoreOrder .. => False
  | .applyImpliedFills .. => False
  | .modifyOrder req => ∀ order ∈ e.linked, order.id = req.orderId →
    e.rests order ∧ (w → order.filledQuantity ≤ req.newQuantity)
  | .setSessionState .. => ¬c
  | .unlockLimit .. => ¬c
  | _ => True

/-- Every request asks for no more than `M`, and an order is modified where it rests, to no less
than is filled. -/
def Engine.sized (M : Int) (e : Engine D) : Action → Prop
  | .newOrder req => req.quantity ≤ M ∨ 0 < e.config.maxOrderSize ∧ e.config.maxOrderSize ≤ M
  | .modifyOrder req => req.newQuantity ≤ M ∧ ∀ order ∈ e.linked, order.id = req.orderId →
    e.rests order ∧ order.filledQuantity ≤ req.newQuantity
  | .restoreOrder .. => False
  | .applyImpliedFills .. => False
  | _ => True

/-- The root of the largest signed word. -/
def shareCap : Int := 3037000499

theorem publishIndicativePrice_run (p ts : Int) (e : Engine D) :
    OpRun X w c (partOf (.publishIndicativePrice p ts)) ⟨e, none⟩ ⟨e.publishIndicativePrice p ts, none⟩ := by
  unfold publishIndicativePrice
  dsimp only
  split
  · exact emit_run (partOf_note _) e none rfl
  · exact .refl

theorem cancelWhere_outcome (ha : a.cancelling = true) (select : Order → Bool) (ts : Int)
    (reason : CancelReason) (ids : List Nat) (hs : World.Sound X w ⟨e, none⟩) :
    OpOutcome X w c (partOf a) ⟨e, none⟩ ((e.cancelWhere select ts reason ids 0).map (·.2)) := by
  obtain ⟨n, e', he, hrun⟩ := cancelWhere_run (c := c) ha select ts reason ids 0 hs
  rw [he]
  exact hrun

theorem perform_run (fuel : Nat) (hs : World.Sound X w ⟨e, none⟩) (hcw : c → w)
    (hcalm : c → e.context.Calm X) (ha : e.Admits w c a) :
    OpOutcome X w c (partOf a) ⟨e, none⟩ (e.perform X fuel a) := by
  have hrec : OpRun X w c (partOf a) ⟨e, none⟩ ⟨e.record a, none⟩ :=
    note_run (partOf_note a) e none e.rateTracker [.action a] (by simp [JournalEntry.quiet])
  have hs' := OpRun.sound hrec hs
  have hcalm' : c → (e.record a).context.Calm X := fun hc => OpRun.context hrec hc ▸ hcalm hc
  refine OpOutcome.after hrec ?_
  cases a with
  | newOrder req => exact newOrder_run fuel req hs' hcw hcalm' (currentAction_record _ e)
  | cancelOrder id ts => exact cancelOrder_run id ts hs'
  | modifyOrder req => exact modifyOrder_run fuel req hs' hcw hcalm' ha
  | triggerExpiry | massCancel | massCancelAll => exact cancelWhere_outcome rfl _ _ _ _ hs'
  | restoreOrder | applyImpliedFills => exact ha.elim
  | bustTrade id reason ts => exact bustTrade_run id reason ts hs'
  | setSessionState s ts => exact setSessionState_op ha s ts _
  | unlockLimit ts => exact unlockLimit_op ha ts _
  | executeAuction p ts => exact executeAuction_run fuel p ts hs'
  | publishIndicativePrice p ts => exact publishIndicativePrice_run p ts _

theorem init_sound (X : Exchange D) (w : Prop) (config : EngineConfig) (derived : D)
    (slots : Nat → SlotResidue) :
    World.Sound X w ⟨init X config derived slots, none⟩ := by
  refine World.Sound.land ?_
  refine
    { shape := fun k s => ?_, owns := ?_, levelsLive := ?_, levelsBalanced := ?_,
      trades := ?_ }
  · cases k <;> exact sideSound_nil _ _ _
  · refine
      { nodup := by simp [Holdings.ids, holdings, shelf, init, idsIn]
        index := fun id p => ?_
        live := rfl
        balanced := ?_
        assigned := fun id hid => ?_
        next := Nat.one_pos }
    · simp [Holdings.ids, holdings, shelf, init, idsIn]
    · simp [ObjectPool.Balanced, holdings, init]
    · simp [Holdings.ids, holdings, shelf, init, idsIn] at hid
  · rfl
  · simp [ObjectPool.Balanced, holdings, init]
  · intro _ id t ht
    simp [holdings, init] at ht

/-- What an invariant of the moves gives for every operation of a run. `I` may also speak of
the order in flight. Where nothing interrupts matching, the context of the run stays. -/
theorem reach_invariant_calm (hcw : c → w) (hcalm : c → e₀.context.Calm X)
    (hstart : World.Sound X w ⟨e₀, none⟩) (hI : I ⟨e₀, none⟩) (hok : ∀ e a, ok e a → e.Admits w c a)
    (hstep : ∀ e a, ok e a → World.Sound X w ⟨e, none⟩ → I ⟨e, none⟩ →
      ∀ W, OpRun X w c (partOf a) ⟨e, none⟩ W → I W) (h : Reach X ok e₀ e) :
    World.Sound X w ⟨e, none⟩ ∧ I ⟨e, none⟩ ∧ (c → e.context = e₀.context) := by
  induction h with
  | start => exact ⟨hstart, hI, fun _ => rfl⟩
  | @step e e' a fuel _ ha hperf ih =>
    obtain ⟨hs, hIe, hctx⟩ := ih
    have hrun := perform_run fuel hs hcw (fun hc => hctx hc ▸ hcalm hc) (hok e a ha)
    rw [hperf] at hrun
    exact ⟨OpRun.sound hrun hs, hstep e a ha hs hIe _ hrun,
      fun hc => (OpRun.context hrun hc).trans (hctx hc)⟩

theorem reach_invariant (hstart : World.Sound X w ⟨e₀, none⟩) (hI : I ⟨e₀, none⟩)
    (hok : ∀ e a, ok e a → e.Admits w False a)
    (hstep : ∀ e a, ok e a → World.Sound X w ⟨e, none⟩ → I ⟨e, none⟩ →
      ∀ W, OpRun X w False (partOf a) ⟨e, none⟩ W → I W) (h : Reach X ok e₀ e) :
    World.Sound X w ⟨e, none⟩ ∧ I ⟨e, none⟩ :=
  (reach_invariant_calm False.elim False.elim hstart hI hok hstep h).imp_right And.left

theorem reach_keeps (hI : I ⟨e₀, none⟩)
    (hstep : ∀ e a fuel, ok e a → I ⟨e, none⟩ → Outcome.Keeps I (e.perform X fuel a))
    (h : Reach X ok e₀ e) :
    I ⟨e, none⟩ ∧ ∀ a fuel, ok e a → Outcome.Keeps I (e.perform X fuel a) := by
  have hall : I ⟨e, none⟩ := by
    induction h with
    | start => exact hI
    | @step e e' a fuel _ ha hperf ih =>
      have hk := hstep e a fuel ha ih
      rw [hperf] at hk
      exact hk
  exact ⟨hall, fun a fuel ha => hstep e a fuel ha hall⟩

theorem reach_sound (hstart : World.Sound X w ⟨e₀, none⟩) (hok : ∀ e a, ok e a → e.Admits w False a)
    (h : Reach X ok e₀ e) : World.Sound X w ⟨e, none⟩ :=
  (reach_invariant (I := fun _ => True) hstart trivial hok (fun _ _ _ _ _ _ _ => trivial) h).1

theorem perform_fault (fuel : Nat) {e' : Engine D} {fault : Fault} (hs : World.Sound X w ⟨e, none⟩)
    (ha : e.Admits w False a) (h : e.perform X fuel a = .error (fault, e')) :
    fault = .fillBuffer ∨ fault = .outOfFuel := by
  have hrun := perform_run (c := False) fuel hs False.elim False.elim ha
  rw [h] at hrun
  cases fault with
  | fillBuffer => exact .inl rfl
  | outOfFuel => exact .inr rfl
  | dangling | foreignLevel => exact hrun.1.elim

end ExchangeSim
