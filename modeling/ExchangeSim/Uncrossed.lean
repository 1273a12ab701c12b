import ExchangeSim.Apart
import ExchangeSim.BookShape

namespace ExchangeSim

open Engine

variable {D : Type} {X : Exchange D} {w c : Prop} {W : World D}

def Engine.Uncrossed (e : Engine D) : Prop :=
  ∀ b ∈ (e.book .buy).head?, ∀ a ∈ (e.book .sell).head?, b.price < a.price

def Engine.Apart (e : Engine D) : Prop :=
  ∀ b ∈ e.book .buy, ∀ a ∈ e.book .sell, b.price < a.price

theorem Engine.Apart.uncrossed {e : Engine D} (h : e.Apart) : e.Uncrossed :=
  fun b hb a ha => h b (List.mem_of_mem_head? hb) a (List.mem_of_mem_head? ha)

theorem Engine.Apart.shrink {e e' : Engine D} (h : e.Apart)
    (hs : e.holdings.Shrinks e'.holdings) : e'.Apart :=
  Holdings.Apart.shrink (H := e.holdings) h hs

theorem Engine.Apart.rest {e : Engine D} {extra : List Nat} (h : e.Apart)
    (hH : e.holdings.Sound X w extra) {o : Order} (htype : o.type = .limit) (hclear : e.clearOf o)
    (ts : Int) : (e.insertIntoBook o ts).Apart := by
  have hin := Holdings.Apart.enter (H := e.holdings) h hH htype (hclear.beyond hH)
  rw [← holdings_insertIntoBook e o ts] at hin
  exact hin

theorem Engine.Apart.run (h : W.engine.Apart) (hs : W.Sound X w)
    (hopen : W.engine.currentState.isCollectionPhase = false) {m : Move D} (hg : m.guard X W)
    (hr : m.restsLegally True W) : (m.run X W).engine.Apart := by
  cases hm : m.isRest with
  | false => exact h.shrink (hs.shrinks hg hm)
  | true =>
    cases m <;> simp [Move.isRest] at hm
    case rest order ts =>
      obtain ⟨hfl, htype, -⟩ := hg
      rcases hr with hr | ⟨-, -, hclear⟩
      · simp [hopen] at hr
      · exact h.rest hs.holds htype (hclear trivial) ts

def Engine.trading (e : Engine D) : Action → Prop
  | .newOrder _ => True
  | .cancelOrder .. => True
  | .modifyOrder req => e.amendable req
  | .bustTrade .. => True
  | _ => False

theorem Engine.trading.admits {e : Engine D} {a : Action} (h : e.trading a) (w c : Prop) :
    e.Admits w c a := by
  cases a with
  | modifyOrder req => exact fun order ho hid => ⟨(h order ho hid).1, fun _ => (h order ho hid).2.le⟩
  | newOrder | cancelOrder | bustTrade => trivial
  | _ => exact h.elim

/-- Continuous trading with no daily limit and no volatility interruption never leaves a
crossed book. -/
theorem reach_uncrossed (X : Exchange D) (config : EngineConfig) (derived : D)
    (slots : Nat → SlotResidue) (hhigh : config.dailyLimitHigh ≤ 0)
    (hlow : config.dailyLimitLow ≤ 0)
    (hvi : ∀ last ref, X.shouldTriggerVolatilityAuction derived last ref = false) {e : Engine D}
    (h : Reach X Engine.trading (Engine.init X config derived slots) e) :
    e.currentState = .continuous ∧ e.Uncrossed := by
  let I : World D → Prop := fun W => W.engine.currentState = .continuous ∧ W.engine.Apart
  have hcalm : (init X config derived slots).context.Calm X :=
    ⟨hhigh, hlow, by simp [context, init], hvi⟩
  have hstep : ∀ e a, e.trading a → World.Sound X True ⟨e, none⟩ → I ⟨e, none⟩ →
      ∀ W, OpRun X True True (Move.partOf a) ⟨e, none⟩ W → I W := by
    intro e a _ hs hI W hrun
    refine hrun.invariant hs hI fun m V hV hI hg hl _ => ⟨?_, ?_⟩
    · have hctx := Move.run_context (X := X) (hl.steady trivial) V
      exact (congrArg Context.state hctx).trans hI.1
    · exact hI.2.run hV (by rw [hI.1]; rfl) hg hl.rests
  have hinit : I ⟨init X config derived slots, none⟩ :=
    ⟨rfl, by simp [Apart, init]⟩
  obtain ⟨-, hI, -⟩ := reach_invariant_calm (w := True) (c := True) (fun _ => trivial)
    (fun _ => hcalm) (init_sound X True config derived slots) hinit
    (fun _ _ ha => ha.admits True True) hstep h
  exact ⟨hI.1, hI.2.uncrossed⟩

theorem reach_uncrossed_sample :
    (runAll sampleExchange sampleActions (sampleStart sampleExchange sampleConfig ())).Uncrossed :=
  (reach_uncrossed sampleExchange sampleConfig () (fun _ => {}) (by decide) (by decide)
    (fun _ _ => rfl) (reach_runAll (by simp [sampleActions, trading])
      (by decide +kernel))).2

end ExchangeSim
