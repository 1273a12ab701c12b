import ExchangeSim.Simulator

/-!
The reference price of an opening auction. The simulator takes it from the statistics of the
session, which start over at the close and again before the open.
-/

namespace ExchangeSim

open List

variable {D : Type} {X : Exchange D} {fresh : D} {sim sim' : Simulator D} {fuel : Nat}
  {calls : List SimCall} {a : InstrumentState D → Action} {call : SimCall}

theorem Except.exists_of_isOk {ε α : Type} {r : Except ε α} (h : r.isOk = true) :
    ∃ a, r = .ok a := by
  cases r with
  | error err => simp [Except.isOk, Except.toBool] at h
  | ok a => exact ⟨a, rfl⟩

/-- The calls start the statistics of the instrument over. -/
def SimCall.resets (id : Nat) : SimCall → Bool
  | .addInstrument cfg => cfg.id == id
  | .setSessionState s _ => s == .preOpen || s == .closed
  | _ => false

/-- What one call makes of the price of the last trade, where `resets` says that it is forgotten. -/
def SimCall.lastPrice (resets : SimCall → Bool) (id : Nat) (last : Int) (call : SimCall) : Int :=
  if resets call then 0
  else match call with
    | .recordTrade i price _ => if i = id then price else last
    | _ => last

/-- The price of the last trade since the statistics started over, or 0. -/
def sessionClose (id : Nat) (calls : List SimCall) : Int :=
  calls.foldl (SimCall.lastPrice (SimCall.resets id) id) 0

def lastTradePrice (id : Nat) (calls : List SimCall) : Int :=
  calls.foldl (SimCall.lastPrice (fun
    | .addInstrument cfg => cfg.id == id
    | _ => false) id) 0

def Simulator.Closes (calls : List SimCall) (sim : Simulator D) : Prop :=
  ∀ inst ∈ sim.instruments, inst.ohlcv.close = sessionClose inst.config.id calls

theorem sessionClose_append (id : Nat) (calls : List SimCall) (call : SimCall) :
    sessionClose id (calls ++ [call]) =
      (call.lastPrice (SimCall.resets id) id (sessionClose id calls)) := by
  simp [sessionClose]

theorem Simulator.Closes.same (h : sim.Closes calls)
    (hsame : ∀ inst' ∈ sim'.instruments, ∃ inst ∈ sim.instruments,
      inst'.config = inst.config ∧ inst'.ohlcv = inst.ohlcv)
    (hcall : ∀ id last, call.lastPrice (SimCall.resets id) id last = last) :
    sim'.Closes (calls ++ [call]) := by
  intro inst' hinst'
  obtain ⟨inst, hinst, hconfig, hohlcv⟩ := hsame inst' hinst'
  rw [sessionClose_append, hcall, hconfig, hohlcv]
  exact h inst hinst

theorem route_same {id : Nat} {a : Action} (h : sim.route X fuel id a = .ok sim') :
    ∀ inst' ∈ sim'.instruments, ∃ inst ∈ sim.instruments,
      inst'.config = inst.config ∧ inst'.ohlcv = inst.ohlcv := by
  unfold Simulator.route at h
  split at h
  · simp at h
  · split at h
    · simp at h
    · cases h
      intro inst' hinst'
      obtain ⟨inst, hinst, rfl⟩ := mem_map.mp hinst'
      refine ⟨inst, hinst, ?_⟩
      split <;> exact ⟨rfl, rfl⟩

theorem performEach_each {insts insts' : List (InstrumentState D)}
    (h : performEach X fuel a insts = .ok insts') :
    Forall₂ (fun inst inst' => inst.engine.perform X fuel (a inst) = .ok inst'.engine ∧
      inst'.config = inst.config ∧ inst'.ohlcv = inst.ohlcv) insts insts' := by
  induction insts generalizing insts' with
  | nil =>
    cases h
    exact .nil
  | cons inst rest ih =>
    unfold performEach at h
    split at h
    · simp at h
    next e hrun =>
      split at h
      · simp at h
      next rest' hrest =>
        cases h
        exact .cons ⟨hrun, rfl, rfl⟩ (ih hrest)

theorem forEach_each (h : sim.forEach X fuel a = .ok sim') :
    Forall₂ (fun inst inst' => inst.engine.perform X fuel (a inst) = .ok inst'.engine ∧
      inst'.config = inst.config ∧ inst'.ohlcv = inst.ohlcv) sim.instruments sim'.instruments := by
  unfold Simulator.forEach at h
  cases hrun : performEach X fuel a sim.instruments with
  | error err => simp [hrun, Except.map] at h
  | ok insts =>
    rw [hrun] at h
    cases h
    exact performEach_each hrun

theorem forEach_same (h : sim.forEach X fuel a = .ok sim') :
    ∀ inst' ∈ sim'.instruments, ∃ inst ∈ sim.instruments,
      inst'.config = inst.config ∧ inst'.ohlcv = inst.ohlcv := by
  intro inst' hinst'
  obtain ⟨i, hi, rfl⟩ := getElem_of_mem hinst'
  have heach := forEach_each h
  have hlen : i < sim.instruments.length := by
    rw [heach.length_eq]
    exact hi
  exact ⟨sim.instruments[i], getElem_mem hlen, (heach.get hlen hi).2⟩

theorem Simulator.Closes.run {given : Nat × (Nat → SlotResidue)} (h : sim.Closes calls)
    (hrun : call.run X fresh given sim = .ok sim') : sim'.Closes (calls ++ [call]) := by
  cases call with
  | addInstrument cfg =>
    change sim.addInstrument X fresh given.2 cfg = .ok sim' at hrun
    unfold Simulator.addInstrument at hrun
    split at hrun
    · simp at hrun
    next hnew =>
      cases hrun
      intro inst hinst
      rw [sessionClose_append]
      rcases List.mem_append.mp hinst with hold | hnow
      · have hother : ¬cfg.id = inst.config.id := by
          intro heq
          apply hnew
          simp only [Simulator.find, find?_isSome]
          exact ⟨inst, hold, by simp [heq]⟩
        simpa [SimCall.lastPrice, SimCall.resets, hother] using h inst hold
      · obtain rfl := mem_singleton.mp hnow
        simp [SimCall.lastPrice, SimCall.resets]
  | removeInstrument id =>
    change sim.removeInstrument id = .ok sim' at hrun
    unfold Simulator.removeInstrument at hrun
    split at hrun
    · simp at hrun
    · cases hrun
      exact h.same (fun inst' hinst' => ⟨inst', mem_of_mem_filter hinst', rfl, rfl⟩)
        fun _ _ => rfl
  | newOrder | cancelOrder | modifyOrder => exact h.same (route_same hrun) fun _ _ => rfl
  | recordTrade id price qty =>
    cases hrun
    intro inst' hinst'
    obtain ⟨inst, hinst, rfl⟩ := mem_map.mp hinst'
    rw [sessionClose_append]
    by_cases hid : inst.config.id = id
    · simp [SimCall.lastPrice, SimCall.resets, hid, OhlcvStats.onTrade]
    · simpa [SimCall.lastPrice, SimCall.resets, hid, Ne.symm hid] using h inst hinst
  | setSessionState s ts =>
    cases hrun
    intro inst' hinst'
    obtain ⟨inst, hinst, rfl⟩ := mem_map.mp hinst'
    rw [sessionClose_append]
    by_cases hreset : s = .preOpen ∨ s = .closed
    · simp [SimCall.lastPrice, SimCall.resets, InstrumentState.enterSession, hreset]
    · simpa [SimCall.lastPrice, SimCall.resets, InstrumentState.enterSession, hreset] using h inst hinst
  | executeAllAuctions | massCancelAll | triggerExpiry =>
    exact h.same (forEach_same hrun) fun _ _ => rfl

def SimTrace (X : Exchange D) (fresh : D) : List SimCall → Simulator D → Prop :=
  Calls.Trace (SimCall.run X fresh) {}

theorem simTrace_closes (h : SimTrace X fresh calls sim) : sim.Closes calls :=
  Calls.Trace.invariant h (by simp [Simulator.Closes]) fun _ _ _ _ _ => Simulator.Closes.run

def SimCall.recordsTrade : SimCall → Bool
  | .recordTrade .. => true
  | _ => false

theorem sessionClose_opening (id : Nat) (before collect : List SimCall) (ts : Int)
    (hcollect : ∀ c ∈ collect, c.recordsTrade = false) :
    sessionClose id (before ++ .setSessionState .preOpen ts :: collect) = 0 := by
  induction collect using reverseRecOn with
  | nil =>
    rw [sessionClose_append]
    rfl
  | append_singleton collect c ih =>
    have hzero := ih fun c hc => hcollect c (by simp [hc])
    have hc := hcollect c (by simp)
    rw [show before ++ .setSessionState .preOpen ts :: (collect ++ [c]) =
      (before ++ .setSessionState .preOpen ts :: collect) ++ [c] by simp, sessionClose_append, hzero]
    cases c <;> simp_all [SimCall.lastPrice, SimCall.recordsTrade]

/-- In every trading-day cycle, an instrument's opening auction gets the price of its last trade as
reference price exactly if that price is 0, in particular if it has never traded. `before` ends
with the close of the last session, and no trade is recorded while orders are collected. -/
theorem openingReference_iff (X : Exchange D) (fresh : D) {before collect : List SimCall} {t : Int}
    {sim sim' : Simulator D}
    (h : SimTrace X fresh (before ++ .setSessionState .preOpen t :: collect) sim)
    (hcollect : ∀ c ∈ collect, c.recordsTrade = false) {fuel : Nat} {ts : Int}
    (hauction : sim.executeAllAuctions X fuel ts = .ok sim') :
    List.Forall₂ (fun inst inst' =>
        let last := lastTradePrice inst.config.id (before ++ .setSessionState .preOpen t :: collect)
        ∃ reference, inst.engine.perform X fuel (.executeAuction reference ts) = .ok inst'.engine ∧
          (reference = last ↔ last = 0))
      sim.instruments sim'.instruments := by
  have hcloses := simTrace_closes h
  have heach := forEach_each hauction
  refine forall₂_iff_get.mpr ⟨heach.length_eq, fun i hi hi' => ?_⟩
  have hclose := hcloses _ (getElem_mem hi)
  rw [sessionClose_opening _ before collect t hcollect] at hclose
  refine ⟨_, (heach.get hi hi').1, ?_⟩
  rw [show (sim.instruments.get ⟨i, hi⟩).ohlcv.close = 0 from hclose]
  exact eq_comm

theorem simTrace_after (setup : Nat × (Nat → SlotResidue)) (calls : List SimCall)
    (h : Calls.Passes (SimCall.run X fresh setup) (fun _ _ => True) calls {}) :
    SimTrace X fresh calls (Calls.after (SimCall.run X fresh setup) calls {}) :=
  Calls.Trace.after .start h

def tradedDay : List SimCall :=
  [.addInstrument sampleInstrument, .setSessionState .continuous 1, .recordTrade 7 105 10,
    .setSessionState .closed 2]

theorem openingReference_iff_day :
    let calls := tradedDay ++ [.setSessionState .preOpen 3]
    let sim := Calls.after (SimCall.run sampleExchange () (20, fun _ => {})) calls {}
    ∃ sim', sim.executeAllAuctions sampleExchange 20 4 = .ok sim' ∧
      Forall₂ (fun inst inst' =>
          let last := lastTradePrice inst.config.id calls
          ∃ reference, inst.engine.perform sampleExchange 20 (.executeAuction reference 4) =
            .ok inst'.engine ∧ (reference = last ↔ last = 0))
        sim.instruments sim'.instruments := by
  intro calls sim
  have htrace : SimTrace sampleExchange () calls sim :=
    simTrace_after (20, fun _ => {}) calls (by decide +kernel)
  obtain ⟨sim', hsim'⟩ : ∃ sim', sim.executeAllAuctions sampleExchange 20 4 = .ok sim' :=
    Except.exists_of_isOk (by decide +kernel)
  exact ⟨sim', hsim', openingReference_iff sampleExchange () htrace (by simp) hsim'⟩

/-- The instrument traded at 105, and its opening auction gets 0. -/
theorem openingReference_lost :
    let calls := tradedDay ++ [.setSessionState .preOpen 3]
    let sim := Calls.after (SimCall.run sampleExchange () (20, fun _ => {})) calls {}
    SimTrace sampleExchange () calls sim ∧ lastTradePrice 7 calls = 105 ∧
      ∃ sim', sim.executeAllAuctions sampleExchange 20 4 = .ok sim' ∧
        sim.instruments.map (fun inst => Outcome.engine
          (inst.engine.perform sampleExchange 20 (.executeAuction 0 4))) =
            sim'.instruments.map (·.engine) := by
  intro calls sim
  obtain ⟨sim', hsim'⟩ : ∃ sim', sim.executeAllAuctions sampleExchange 20 4 = .ok sim' :=
    Except.exists_of_isOk (by decide +kernel)
  have htrace : SimTrace sampleExchange () calls sim :=
    simTrace_after (20, fun _ => {}) calls (by decide +kernel)
  refine ⟨htrace, by decide +kernel, sim', hsim', ?_⟩
  have hclose : ∀ inst ∈ sim.instruments, inst.ohlcv.close = 0 := by decide +kernel
  have heach := forEach_each hsim'
  refine ext_getElem (by simp [heach.length_eq]) fun i hi hi' => ?_
  simp only [length_map] at hi hi'
  have hrun := (heach.get hi hi').1
  rw [show sim.instruments.get ⟨i, hi⟩ = sim.instruments[i] from rfl,
    hclose _ (getElem_mem hi)] at hrun
  simp only [getElem_map, hrun]
  rfl

end ExchangeSim
