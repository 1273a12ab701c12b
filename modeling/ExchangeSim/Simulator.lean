import ExchangeSim.Calls
import ExchangeSim.LimitHits
import ExchangeSim.Venues

/-!
The exchange simulator: one engine per instrument behind one session state of its own. The source
keeps the instruments in an unordered map; here they stand in the order they were added.
-/

namespace ExchangeSim

variable {D : Type} {fuel : Nat} {a : Action}

structure OhlcvStats where
  openPrice : Int := 0
  high : Int := 0
  low : Int := 0
  close : Int := 0
  volume : Int := 0
  turnover : Int := 0
  tradeCount : Nat := 0
  hasTraded : Bool := false
  deriving DecidableEq, Repr

def OhlcvStats.onTrade (price qty : Int) (o : OhlcvStats) : OhlcvStats :=
  let o := if o.hasTraded then o
    else { o with openPrice := price, high := price, low := price, hasTraded := true }
  { o with
    high := if price > o.high then price else o.high
    low := if price < o.low then price else o.low
    close := price
    volume := o.volume + qty
    turnover := o.turnover + (price * qty).tdiv priceScale
    tradeCount := o.tradeCount + 1 }

structure InstrumentConfig where
  id : Nat
  symbol : String
  engineConfig : EngineConfig
  deriving DecidableEq, Repr

structure InstrumentState (D : Type) where
  config : InstrumentConfig
  engine : Engine D
  ohlcv : OhlcvStats := {}

structure Simulator (D : Type) where
  instruments : List (InstrumentState D) := []
  currentState : SessionState := .closed

/-- What a call of the simulator can end with: an exception, or a fault inside an engine. -/
inductive SimFault (D : Type)
  | instrumentExists (symbol : String)
  | unknownInstrument
  | engine (fault : Fault × Engine D)

def SimFault.what : SimFault D → Option String
  | .instrumentExists symbol => some ("Instrument already exists: " ++ symbol)
  | .unknownInstrument => some "Unknown instrument"
  | .engine _ => none

abbrev SimOutcome (D : Type) := Except (SimFault D) (Simulator D)

def Engine.enterSession (X : Exchange D) (s : SessionState) (ts : Int) (e : Engine D) : Engine D :=
  (e.record (.setSessionState s ts)).setSessionState X s ts

def Simulator.find (id : Nat) (sim : Simulator D) : Option (InstrumentState D) :=
  sim.instruments.find? fun inst => inst.config.id = id

/-- `fresh` is what the members of the derived class start with, `slots` what the new engine's
memory holds. -/
def Simulator.addInstrument (X : Exchange D) (fresh : D) (slots : Nat → SlotResidue)
    (cfg : InstrumentConfig) (sim : Simulator D) : SimOutcome D :=
  if (sim.find cfg.id).isSome then .error (.instrumentExists cfg.symbol)
  else
    let engine := Engine.init X cfg.engineConfig fresh slots
    let engine := if sim.currentState ≠ .closed then engine.enterSession X sim.currentState 0
      else engine
    .ok { sim with instruments := sim.instruments ++ [{ config := cfg, engine := engine }] }

def Simulator.removeInstrument (id : Nat) (sim : Simulator D) : SimOutcome D :=
  if (sim.find id).isNone then .error .unknownInstrument
  else .ok { sim with instruments := sim.instruments.filter fun inst => inst.config.id ≠ id }

def Simulator.route (X : Exchange D) (fuel : Nat) (id : Nat) (a : Action) (sim : Simulator D) :
    SimOutcome D :=
  match sim.find id with
  | none => .error .unknownInstrument
  | some inst =>
    match inst.engine.perform X fuel a with
    | .error err => .error (.engine err)
    | .ok e => .ok { sim with
        instruments := sim.instruments.map fun i =>
          if i.config.id = id then { i with engine := e } else i }

def Simulator.newOrder (X : Exchange D) (fuel : Nat) (id : Nat) (req : OrderRequest)
    (sim : Simulator D) : SimOutcome D :=
  sim.route X fuel id (.newOrder req)

def Simulator.cancelOrder (X : Exchange D) (fuel : Nat) (id : Nat) (order : Nat) (ts : Int)
    (sim : Simulator D) : SimOutcome D :=
  sim.route X fuel id (.cancelOrder order ts)

def Simulator.modifyOrder (X : Exchange D) (fuel : Nat) (id : Nat) (req : ModifyRequest)
    (sim : Simulator D) : SimOutcome D :=
  sim.route X fuel id (.modifyOrder req)

def Simulator.recordTrade (id : Nat) (price qty : Int) (sim : Simulator D) : Simulator D :=
  { sim with
    instruments := sim.instruments.map fun i =>
      if i.config.id = id then { i with ohlcv := i.ohlcv.onTrade price qty } else i }

/-- The statistics start over before the open and at the close. -/
def InstrumentState.enterSession (X : Exchange D) (s : SessionState) (ts : Int)
    (inst : InstrumentState D) : InstrumentState D :=
  { inst with
    engine := inst.engine.enterSession X s ts
    ohlcv := if s = .preOpen ∨ s = .closed then {} else inst.ohlcv }

def Simulator.setSessionState (X : Exchange D) (s : SessionState) (ts : Int) (sim : Simulator D) :
    Simulator D :=
  { currentState := s
    instruments := sim.instruments.map fun inst => inst.enterSession X s ts }

/-- An operation on every engine. The loop of the source stops where an engine fails. -/
def performEach (X : Exchange D) (fuel : Nat) (a : InstrumentState D → Action) :
    List (InstrumentState D) → Except (SimFault D) (List (InstrumentState D))
  | [] => .ok []
  | inst :: rest =>
    match inst.engine.perform X fuel (a inst) with
    | .error err => .error (.engine err)
    | .ok e =>
      match performEach X fuel a rest with
      | .error err => .error err
      | .ok rest => .ok ({ inst with engine := e } :: rest)

def Simulator.forEach (X : Exchange D) (fuel : Nat) (a : InstrumentState D → Action)
    (sim : Simulator D) : SimOutcome D :=
  (performEach X fuel a sim.instruments).map fun instruments =>
    { sim with instruments := instruments }

/-- The reference price is the last close, or 0. -/
def Simulator.executeAllAuctions (X : Exchange D) (fuel : Nat) (ts : Int) (sim : Simulator D) :
    SimOutcome D :=
  sim.forEach X fuel fun inst => .executeAuction inst.ohlcv.close ts

def Simulator.massCancelAll (X : Exchange D) (fuel : Nat) (ts : Int) (sim : Simulator D) :
    SimOutcome D :=
  sim.forEach X fuel fun _ => .massCancelAll ts

def Simulator.triggerExpiry (X : Exchange D) (fuel : Nat) (now : Int) (tif : TimeInForce)
    (sim : Simulator D) : SimOutcome D :=
  sim.forEach X fuel fun _ => .triggerExpiry now tif

inductive SimCall
  | addInstrument (cfg : InstrumentConfig)
  | removeInstrument (id : Nat)
  | newOrder (id : Nat) (req : OrderRequest)
  | cancelOrder (id order : Nat) (ts : Int)
  | modifyOrder (id : Nat) (req : ModifyRequest)
  | recordTrade (id : Nat) (price qty : Int)
  | setSessionState (s : SessionState) (ts : Int)
  | executeAllAuctions (ts : Int)
  | massCancelAll (ts : Int)
  | triggerExpiry (now : Int) (tif : TimeInForce)

/-- A call, given the rounds its loops may take and what the memory of a new engine holds. -/
def SimCall.run (X : Exchange D) (fresh : D) (given : Nat × (Nat → SlotResidue)) (call : SimCall)
    (sim : Simulator D) : SimOutcome D :=
  let fuel := given.1
  match call with
  | .addInstrument cfg => sim.addInstrument X fresh given.2 cfg
  | .removeInstrument id => sim.removeInstrument id
  | .newOrder id req => sim.newOrder X fuel id req
  | .cancelOrder id order ts => sim.cancelOrder X fuel id order ts
  | .modifyOrder id req => sim.modifyOrder X fuel id req
  | .recordTrade id price qty => .ok (sim.recordTrade id price qty)
  | .setSessionState s ts => .ok (sim.setSessionState X s ts)
  | .executeAllAuctions ts => sim.executeAllAuctions X fuel ts
  | .massCancelAll ts => sim.massCancelAll X fuel ts
  | .triggerExpiry now tif => sim.triggerExpiry X fuel now tif

/-- The simulators reached from a new one by calls that meet `ok` in the state they are made in. A
call that throws leaves the simulator as it is. -/
def SimReach (X : Exchange D) (fresh : D) (ok : Simulator D → SimCall → Prop) : Simulator D → Prop :=
  Calls.Reach (SimCall.run X fresh) ok {}

def Engine.Attends (s : SessionState) (e : Engine D) : Prop :=
  e.currentState = s ∨ e.currentState = .lockLimit ∨ e.currentState = .volatilityAuction

def Simulator.Attended (sim : Simulator D) : Prop :=
  ∀ inst ∈ sim.instruments, inst.engine.Attends sim.currentState

variable {X : Exchange D} {e e' : Engine D} {s : SessionState}

def Exchange.ResumesTo (X : Exchange D) (s : SessionState) : Prop :=
  ∀ s', X.Resumes s' → s' = s

theorem Engine.Attends.perform (he : e.Attends s) (hset : a.setsSession = false)
    (hresume : a.entering = true → X.ResumesTo s ∨
      s.isCollectionPhase = true ∧ ∃ req, a = .newOrder req) (h : e.perform X fuel a = .ok e') :
    e'.Attends s := by
  have hsame : e'.context = e.context → e'.Attends s := by
    intro hc
    have hstate : e'.currentState = e.currentState := congrArg Context.state hc
    unfold Engine.Attends
    rwa [hstate]
  by_cases hent : a.entering = true
  · rcases hresume hent with hresume | ⟨hcollect, req, rfl⟩
    · obtain ⟨n, hshift, -⟩ := shifts_perform hset h
      rcases hshift.state with heq | hlock | hvi | hres
      · unfold Engine.Attends
        rwa [show e'.currentState = e.currentState from heq]
      · exact .inr (.inl hlock)
      · exact .inr (.inr hvi)
      · exact .inl (hresume _ hres)
    · have hphase : e.currentState.isCollectionPhase = true := by
        rcases he with hs | hs | hs
        · rwa [hs]
        · rw [hs]
          rfl
        · rw [hs]
          rfl
      rcases newOrder_entry h with hsilent | ⟨hno, -⟩
      · exact hsame (hsilent fun _ => False).context
      · exact absurd (hphase.symm.trans hno) (by decide)
  · exact hsame (tells_dispatch (by simpa using hent) hset h).context

theorem attends_enterSession (haccept : ∀ d s s' ts, X.onSessionTransition d s s' ts = true)
    (s : SessionState) (ts : Int) (e : Engine D) : (e.enterSession X s ts).Attends s := by
  left
  have hc := congrArg Context.state
    (context_setSessionState (X := X) s ts (e.record (.setSessionState s ts)))
  rw [if_pos (haccept _ _ _ _)] at hc
  exact hc

theorem Simulator.Attended.route {sim sim' : Simulator D} {id : Nat} (hsim : sim.Attended)
    (hset : a.setsSession = false) (hresume : a.entering = true → X.ResumesTo sim.currentState ∨
      sim.currentState.isCollectionPhase = true ∧ ∃ req, a = .newOrder req)
    (h : sim.route X fuel id a = .ok sim') : sim'.Attended := by
  unfold Simulator.route at h
  split at h
  · simp at h
  next inst hfind =>
    split at h
    · simp at h
    next e hrun =>
      cases h
      have he : e.Attends sim.currentState :=
        (hsim inst (List.mem_of_find?_eq_some hfind)).perform hset hresume hrun
      intro i hi
      obtain ⟨j, hj, rfl⟩ := List.mem_map.mp hi
      split
      · exact he
      · exact hsim j hj

theorem performEach_attends {a : InstrumentState D → Action}
    (hset : ∀ inst, (a inst).setsSession = false) (hent : ∀ inst, (a inst).entering = false)
    {instruments instruments' : List (InstrumentState D)}
    (hin : ∀ inst ∈ instruments, inst.engine.Attends s)
    (h : performEach X fuel a instruments = .ok instruments') :
    ∀ inst ∈ instruments', inst.engine.Attends s := by
  induction instruments generalizing instruments' with
  | nil =>
    cases h
    exact hin
  | cons inst rest ih =>
    unfold performEach at h
    split at h
    · simp at h
    next e hrun =>
      split at h
      · simp at h
      next rest' hrest =>
        cases h
        have he : e.Attends s := (hin inst (by simp)).perform (hset inst)
          (fun hyes => absurd hyes (by simp [hent])) hrun
        intro i hi
        rcases List.mem_cons.mp hi with rfl | hi
        · exact he
        · exact ih (fun i hi => hin i (by simp [hi])) hrest i hi

theorem Simulator.Attended.forEach {sim sim' : Simulator D} {a : InstrumentState D → Action}
    (hsim : sim.Attended) (hset : ∀ inst, (a inst).setsSession = false)
    (hent : ∀ inst, (a inst).entering = false) (h : sim.forEach X fuel a = .ok sim') :
    sim'.Attended := by
  unfold Simulator.forEach at h
  cases heach : performEach X fuel a sim.instruments with
  | error err =>
    rw [heach] at h
    simp [Except.map] at h
  | ok instruments =>
    rw [heach] at h
    cases h
    exact performEach_attends hset hent hsim heach

/-- Instruments are added outside the closed state. Orders come where the hook of a limit hit, if
it resumes by itself, resumes to the simulator's state; new orders also in the collection phases,
where none is matched. -/
def Simulator.keepsSession (X : Exchange D) (sim : Simulator D) : SimCall → Prop
  | .addInstrument _ => sim.currentState ≠ .closed
  | .newOrder .. => X.ResumesTo sim.currentState ∨ sim.currentState.isCollectionPhase = true
  | .modifyOrder .. => X.ResumesTo sim.currentState
  | _ => True

theorem SimCall.run_attended {fresh : D} {given : Nat × (Nat → SlotResidue)} {call : SimCall}
    {sim sim' : Simulator D} (haccept : ∀ d s s' ts, X.onSessionTransition d s s' ts = true)
    (hsim : sim.Attended) (hok : sim.keepsSession X call)
    (h : call.run X fresh given sim = .ok sim') : sim'.Attended := by
  cases call with
  | addInstrument cfg =>
    simp only [SimCall.run, Simulator.addInstrument] at h
    split at h
    · simp at h
    · cases h
      intro inst hinst
      rcases List.mem_append.mp hinst with hinst | hinst
      · exact hsim inst hinst
      · obtain rfl := List.mem_singleton.mp hinst
        rw [if_pos (show sim.currentState ≠ .closed from hok)]
        exact attends_enterSession haccept sim.currentState 0 _
  | removeInstrument id =>
    simp only [SimCall.run, Simulator.removeInstrument] at h
    split at h
    · simp at h
    · cases h
      exact fun inst hinst => hsim inst (List.mem_of_mem_filter hinst)
  | newOrder id req =>
    exact hsim.route rfl (fun _ => hok.imp_right fun hc => ⟨hc, req, rfl⟩) h
  | cancelOrder id order ts =>
    exact hsim.route rfl (fun hyes => by simp [Action.entering] at hyes) h
  | modifyOrder id req => exact hsim.route rfl (fun _ => .inl hok) h
  | recordTrade id price qty =>
    cases h
    intro inst hinst
    obtain ⟨i, hi, rfl⟩ := List.mem_map.mp hinst
    split <;> exact hsim i hi
  | setSessionState s ts =>
    cases h
    intro inst hinst
    obtain ⟨i, -, rfl⟩ := List.mem_map.mp hinst
    exact attends_enterSession haccept s ts i.engine
  | executeAllAuctions | massCancelAll | triggerExpiry =>
    exact hsim.forEach (fun _ => rfl) (fun _ => rfl) h

/-- In every run of calls that keep the session, every engine is in the simulator's session state,
or in one that it entered itself. -/
theorem simReach_attended (X : Exchange D) (fresh : D)
    (haccept : ∀ d s s' ts, X.onSessionTransition d s s' ts = true) {sim : Simulator D}
    (h : SimReach X fresh (Simulator.keepsSession X) sim) : sim.Attended := by
  refine Calls.Reach.invariant h (fun inst hinst => absurd hinst (by simp)) ?_
  exact fun _ _ _ _ ih hok hrun => SimCall.run_attended haccept ih hok hrun

theorem krx_resumesTo (algo : MatchPolicy) (size : VenueSize) :
    (krxExchange algo size).ResumesTo .continuous := by
  rintro s ⟨k, c, side, limit, ts, h⟩
  change (k.onDailyLimitHit c).resume = some s at h
  unfold KrxState.onDailyLimitHit at h
  split at h
  · simp at h
  · split at h
    · simp at h
    · exact (Option.some.inj h).symm

def Simulator.openFor (sim : Simulator D) : SimCall → Bool
  | .addInstrument _ => sim.currentState ≠ .closed
  | .newOrder .. => sim.currentState = .continuous
  | .modifyOrder .. => sim.currentState = .continuous
  | _ => true

theorem krx_keepsSession (algo : MatchPolicy) (size : VenueSize) {sim : Simulator KrxState}
    {call : SimCall} (h : sim.openFor call = true) :
    sim.keepsSession (krxExchange algo size) call := by
  cases call with
  | addInstrument cfg => exact (of_decide_eq_true h : sim.currentState ≠ .closed)
  | newOrder id req =>
    have hc : sim.currentState = .continuous := of_decide_eq_true h
    exact .inl (hc ▸ krx_resumesTo algo size)
  | modifyOrder id req =>
    have hc : sim.currentState = .continuous := of_decide_eq_true h
    exact (hc ▸ krx_resumesTo algo size : (krxExchange algo size).ResumesTo sim.currentState)
  | _ => trivial

def sampleInstrument : InstrumentConfig where
  id := 7
  symbol := "KS"
  engineConfig := sampleConfig

def krxDay : List SimCall :=
  [.setSessionState .continuous 1, .addInstrument sampleInstrument,
    .newOrder 7 (limitRequest .sell 100 5),
    .newOrder 7 { limitRequest .buy 100 5 with accountId := 2 }, .setSessionState .closed 9]

theorem simReach_attended_krxDay :
    let X := krxExchange fifoMatch sampleVenue
    let sim := Calls.after (SimCall.run X {} (20, fun _ => {})) krxDay {}
    sim.currentState = .closed ∧ sim.instruments.map (·.engine.lastTradePrice) = [100] ∧
      sim.Attended := by
  intro X sim
  have hreach : SimReach X {} (fun sim call => sim.openFor call = true) sim :=
    Calls.Reach.after .start (by decide +kernel)
  refine ⟨by decide +kernel, by decide +kernel, ?_⟩
  refine simReach_attended X {} (fun _ _ _ _ => rfl) (hreach.mono fun sim call hopen => ?_)
  exact krx_keepsSession fifoMatch sampleVenue hopen

/-- An instrument added to a new simulator trades while the simulator says it is closed. -/
theorem addInstrument_closed : ∃ sim, SimReach sampleExchange () (fun _ _ => True) sim ∧
    sim.currentState = .closed ∧ sim.instruments.map (·.engine.currentState) = [.continuous] := by
  let sim := Calls.after (SimCall.run sampleExchange () (20, fun _ => {}))
    [.addInstrument sampleInstrument] {}
  have hreach : SimReach sampleExchange () (fun _ _ => True) sim :=
    Calls.Reach.after .start (by decide +kernel)
  exact ⟨sim, hreach, rfl, rfl⟩

end ExchangeSim
