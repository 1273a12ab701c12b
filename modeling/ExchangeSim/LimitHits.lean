import ExchangeSim.Sessions

namespace ExchangeSim

open Engine JournalEntry

variable {D : Type} {X : Exchange D} {p : JournalEntry → Prop} {e e₁ e₂ : Engine D} {fuel n : Nat}
  {ts : Int} {order : Order} {a : Action} {c : Context D} {req : OrderRequest}

/-- What a limit hit makes of the context: the lock, then the hook, then what the hook resumes
to. -/
def Context.hit (X : Exchange D) (side : Side) (limit ts : Int) (c : Context D) : Context D :=
  let r := X.onDailyLimitHit c.derived c.config side limit ts
  ⟨r.config, r.derived,
    match r.resume with
    | none => .lockLimit
    | some s => if X.onSessionTransition r.derived .lockLimit s ts then s else .lockLimit⟩

/-- What orders can make of the context: `n` limit hits, and volatility auctions. -/
inductive Context.Shifts (X : Exchange D) : Nat → Context D → Context D → Prop
  | refl (c : Context D) : Shifts X 0 c c
  | hit {n : Nat} {c c' : Context D} (side : Side) (limit ts : Int) : c.state ≠ .lockLimit →
    Shifts X n (c.hit X side limit ts) c' → Shifts X (n + 1) c c'
  | volatility {n : Nat} {c c' : Context D} : c.state = .continuous →
    Shifts X n { c with state := .volatilityAuction } c' → Shifts X n c c'

theorem Context.Shifts.trans {m : Nat} {c₁ c₂ : Context D} (h : c.Shifts X n c₁)
    (h' : c₁.Shifts X m c₂) : c.Shifts X (n + m) c₂ := by
  induction h with
  | refl c => rwa [Nat.zero_add]
  | @hit n c c₁ side limit ts hc _ ih =>
    rw [Nat.add_right_comm]
    exact .hit side limit ts hc (ih h')
  | volatility hc _ ih => exact .volatility hc (ih h')

def Exchange.Resumes (X : Exchange D) (s : SessionState) : Prop :=
  ∃ d c side limit ts, (X.onDailyLimitHit d c side limit ts).resume = some s

theorem Context.hit_state (c : Context D) (side : Side) (limit ts : Int) :
    (c.hit X side limit ts).state = .lockLimit ∨ X.Resumes (c.hit X side limit ts).state := by
  unfold Context.hit
  dsimp only
  split
  · exact .inl rfl
  next s hs =>
    split
    · exact .inr ⟨_, _, _, _, _, hs⟩
    · exact .inl rfl

theorem Context.Shifts.state {c' : Context D} (h : c.Shifts X n c') :
    c'.state = c.state ∨ c'.state = .lockLimit ∨ c'.state = .volatilityAuction ∨
      X.Resumes c'.state := by
  induction h with
  | refl c => exact .inl rfl
  | @hit n c c' side limit ts _ _ ih =>
    rcases ih with heq | hother
    · rw [heq]
      rcases c.hit_state side limit ts with hlock | hresume
      · exact .inr (.inl hlock)
      · exact .inr (.inr (.inr hresume))
    · exact .inr hother
  | volatility _ _ ih =>
    rcases ih with heq | hother
    · exact .inr (.inr (.inl heq))
    · exact .inr hother

def JournalEntry.isLock : JournalEntry → Bool
  | .event (.marketStatus .lockLimit _) => true
  | _ => false

def Engine.locks (e : Engine D) : Nat :=
  e.trail.countP JournalEntry.isLock

/-- What orders can do to an engine: each limit hit locks the session. -/
def Engine.Shifts (X : Exchange D) (e e' : Engine D) : Prop :=
  ∃ n, e.context.Shifts X n e'.context ∧ e'.locks = e.locks + n

theorem Engine.Shifts.trans (h : e.Shifts X e₁) (h' : e₁.Shifts X e₂) : e.Shifts X e₂ := by
  obtain ⟨n, hn, hlocks⟩ := h
  obtain ⟨m, hm, hlocks'⟩ := h'
  exact ⟨n + m, hn.trans hm, by omega⟩

theorem Engine.Tells.locks (h : e.Tells p e₁) (hp : ∀ x, p x → x.isLock = false) :
    e₁.locks = e.locks := by
  obtain ⟨es, htrail, hes⟩ := h.trail
  have hnone : es.countP isLock = 0 :=
    List.countP_eq_zero.mpr fun x hx => by simp [hp x (hes x hx)]
  rw [Engine.locks, htrail, List.countP_append, hnone, Nat.add_zero, Engine.locks]

theorem Engine.Tells.shifts (h : e.Tells p e₁) (hp : ∀ x, p x → x.isLock = false) :
    e.Shifts X e₁ :=
  by
  refine ⟨0, ?_, h.locks hp⟩
  rw [h.context]
  exact .refl e.context

theorem shifts_of_silent (h : e.Tells (fun _ => False) e₁) : e.Shifts X e₁ :=
  h.shifts fun _ => False.elim

theorem isLock_of_isTrade {x : JournalEntry} (h : x.isTrade = true) : x.isLock = false := by
  cases x with
  | action a => rfl
  | event ev =>
    cases ev with
    | trade t => rfl
    | _ => simp [isTrade] at h

theorem shifts_of_trades (h : e.Tells (·.isTrade = true) e₁) : e.Shifts X e₁ :=
  h.shifts fun _ => isLock_of_isTrade

theorem context_setSessionState (s : SessionState) (ts : Int) (e : Engine D) :
    (e.setSessionState X s ts).context = { e.context with
      state := if X.onSessionTransition e.derived e.currentState s ts then s
        else e.currentState } := by
  unfold setSessionState
  split
  next h => simp [context, h]
  · split
    next h => simp_all [context]
    next h =>
      have hyes : X.onSessionTransition e.derived e.currentState s ts = true := by simpa using h
      dsimp only
      split <;> rfl

theorem locks_status (s : SessionState) (ts : Int) (e : Engine D) :
    ({ e with currentState := s }.emit (.marketStatus s ts)).locks =
      e.locks + if s = .lockLimit then 1 else 0 := by
  cases s <;> simp [locks, trail, tape, emit, told,
    sessional, isLock]

theorem locks_setSessionState {s : SessionState} (h : e.currentState = .lockLimit) :
    (e.setSessionState X s ts).locks = e.locks := by
  unfold setSessionState
  split
  · rfl
  next hne =>
    have hs : s ≠ .lockLimit := fun hs => hne (h.trans hs.symm)
    split
    · rfl
    · dsimp only
      have hstatus := locks_status s ts e
      rw [if_neg hs] at hstatus
      split <;> exact hstatus

theorem enterLockLimit_eq (ts : Int) (e : Engine D) : ∃ side limit e₁,
    let r := X.onDailyLimitHit e.derived e.config side limit ts
    e₁.context = ⟨r.config, r.derived, .lockLimit⟩ ∧ e₁.locks = e.locks + 1 ∧
      e.enterLockLimit X ts =
        match r.resume with
        | none => e₁
        | some s => e₁.setSessionState X s ts := by
  let side := if e.atUpperLimit then Side.buy else Side.sell
  let limit := if e.atUpperLimit then e.config.dailyLimitHigh else e.config.dailyLimitLow
  let ev : Event := .lockLimitTriggered side limit e.lastTradePrice ts
  have hlocks : (e.emit ev).locks = e.locks := by
    simp [locks, trail, ev, told]
  refine ⟨side, limit, _, rfl, ?_, rfl⟩
  exact (locks_status .lockLimit ts (e.emit ev)).trans (by rw [hlocks]; rfl)

theorem shifts_enterLockLimit (ts : Int) (h : e.currentState ≠ .lockLimit) :
    e.Shifts X (e.enterLockLimit X ts) := by
  obtain ⟨side, limit, e₁, hc, hlocks, heq⟩ := enterLockLimit_eq ts e
  have hlocked : e₁.currentState = .lockLimit := congrArg Context.state hc
  have hend : (e.enterLockLimit X ts).context = e.context.hit X side limit ts ∧
      (e.enterLockLimit X ts).locks = e.locks + 1 := by
    rw [heq]
    change _ = (⟨_, _, match (X.onDailyLimitHit e.derived e.config side limit ts).resume with
      | none => .lockLimit
      | some s => _⟩ : Context D) ∧ _
    split
    · exact ⟨hc, hlocks⟩
    next s _ =>
      refine ⟨?_, (locks_setSessionState hlocked).trans hlocks⟩
      have hd : e₁.derived = (X.onDailyLimitHit e.derived e.config side limit ts).derived :=
        congrArg Context.derived hc
      rw [context_setSessionState, hc, hd, hlocked]
      rfl
  exact ⟨1, .hit side limit ts h (hend.1 ▸ .refl _), hend.2⟩

theorem shifts_checkDailyLimitHit (ts : Int) (e : Engine D) :
    e.Shifts X (e.checkDailyLimitHit X ts).2 := by
  unfold checkDailyLimitHit
  split
  · exact shifts_of_silent (.refl e)
  next hstate =>
    split
    · exact shifts_of_silent (.refl e)
    · exact shifts_enterLockLimit ts hstate

theorem shifts_checkVolatilityInterruption (ts : Int) (e : Engine D) :
    e.Shifts X (e.checkVolatilityInterruption X ts).2 := by
  unfold checkVolatilityInterruption
  split
  · exact shifts_of_silent (.refl e)
  next hstate =>
    split
    · exact shifts_of_silent (.refl e)
    · split
      · exact shifts_of_silent (.refl e)
      · exact ⟨0, .volatility (not_not.mp hstate) (.refl _), locks_status .volatilityAuction ts e⟩

theorem shifts_matchLoop {alive : Option Order}
    (h : e.matchLoop X ts fuel order = .ok (alive, e₁)) : e.Shifts X e₁ := by
  refine matchLoop_ok (I := fun _ e _ e' => e.Shifts X e') ?_ ?_ ?_ h
  · exact fun _ e => shifts_of_silent (.refl e)
  · intro o e level deeper alive e' _ hpass
    refine (shifts_of_trades (trades_pass hpass).toTells).trans ?_
    rcases interrupted_cases X ts e' with heq | heq <;> rw [heq]
    · exact shifts_checkDailyLimitHit ts e'
    · exact shifts_checkVolatilityInterruption ts e'
  · intro o e level deeper o' e' alive e'' _ hpass ih
    exact (shifts_of_trades (trades_pass hpass).toTells).trans ih

theorem shifts_matchOrder (h : e.matchOrder X fuel order ts = .ok e₁) : e.Shifts X e₁ := by
  rcases matchOrder_ok h with ⟨-, rfl⟩ | ⟨alive, e', hloop, rfl⟩
  · exact shifts_of_silent ((tells_dropOrder _ e order ts _).trans
      (tells_fireTopOfBookIfChanged _ _ ts _ _))
  · refine (shifts_matchLoop hloop).trans (shifts_of_silent ?_)
    cases alive with
    | some o => exact tells_postMatch _ e' o ts _ _
    | none => exact tells_fireTopOfBookIfChanged _ e' ts _ _

theorem shifts_checkAndTriggerStops {rounds : Nat}
    (h : e.checkAndTriggerStops X fuel ts rounds = .ok e₁) : e.Shifts X e₁ := by
  refine (checkAndTriggerStops_ok ?_ h (shifts_of_silent (.refl e))).1
  intro e' stop e'' hI _ _ hmatch
  have hremove : e'.Shifts X (e'.removeStop stop) := shifts_of_silent (.same (by simp))
  exact (hI.trans hremove).trans (shifts_matchOrder hmatch)

theorem shifts_matchAndTrigger (h : e.matchAndTrigger X fuel order ts = .ok e₁) :
    e.Shifts X e₁ := by
  obtain ⟨e', hmatch, hstops⟩ := matchAndTrigger_ok h
  exact (shifts_matchOrder hmatch).trans (shifts_checkAndTriggerStops hstops)

theorem shifts_newOrder (h : e.newOrder X fuel req = .ok e₁) : e.Shifts X e₁ := by
  rcases newOrder_entry h with hsilent | ⟨-, -, -, t, slot, pool, haccept, hmatch⟩
  · exact shifts_of_silent (hsilent _)
  · exact (shifts_of_silent (haccept _)).trans (shifts_matchAndTrigger hmatch)

theorem shifts_modifyOrder {req : ModifyRequest} (h : e.modifyOrder X fuel req = .ok e₁) :
    e.Shifts X e₁ := by
  obtain ⟨t, ⟨r, rfl⟩ | ⟨order, -, -, -, ⟨-, rfl⟩ | ⟨-, e', hpull, hmatch⟩⟩⟩ := modifyOrder_ok h
  · exact shifts_of_silent ((tells_rated t).trans (.quiet (by simp [told]) rfl))
  · exact shifts_of_silent ((tells_rated t).trans
      (.report (tape_amendOrder _ order req) (by rw [← context_sheet]; simp) rfl))
  · exact (shifts_of_silent ((tells_rated t).trans (tells_pullOrder hpull))).trans
      (shifts_matchAndTrigger hmatch)

def Action.setsSession : Action → Bool
  | .setSessionState .. => true
  | .unlockLimit _ => true
  | _ => false

theorem shifts_record (a : Action) (e : Engine D) : e.Shifts X (e.record a) :=
  ⟨0, .refl e.context, by simp [locks, trail, tape, record,
    told, sessional, isLock]⟩

theorem tells_map {α : Type} {r : Outcome D (α × Engine D)}
    (h : ∀ v, r = .ok v → e.Tells p v.2) (hm : r.map (·.2) = .ok e₁) : e.Tells p e₁ := by
  cases r with
  | error err => simp [Except.map] at hm
  | ok v => exact Except.ok.inj hm ▸ h v rfl

theorem tells_dispatch (hent : a.entering = false) (hset : a.setsSession = false)
    (h : e.dispatch X fuel a = .ok e₁) : e.Tells (·.isTrade = true) e₁ := by
  cases a with
  | newOrder | modifyOrder => simp [Action.entering] at hent
  | cancelOrder id ts => exact tells_cancelOrder h
  | triggerExpiry | massCancel | massCancelAll =>
    exact tells_map (fun v hv => tells_cancelWhere hv) h
  | restoreOrder s ts => exact Except.ok.inj h ▸ tells_restoreOrder s ts
  | bustTrade id reason ts => exact tells_bustTrade h
  | setSessionState | unlockLimit => simp [Action.setsSession] at hset
  | executeAuction price ts => exact tells_executeAuction h
  | publishIndicativePrice price ts => exact Except.ok.inj h ▸ tells_publishIndicativePrice price ts
  | applyImpliedFills fills ts => exact tells_map (fun v hv => tells_applyImpliedFills hv) h

theorem shifts_dispatch (hset : a.setsSession = false) (h : e.dispatch X fuel a = .ok e₁) :
    e.Shifts X e₁ := by
  by_cases hent : a.entering = true
  · cases a with
    | newOrder req => exact shifts_newOrder h
    | modifyOrder req => exact shifts_modifyOrder h
    | _ => simp [Action.entering] at hent
  · exact shifts_of_trades (tells_dispatch (by simpa using hent) hset h)

theorem shifts_perform (ha : a.setsSession = false) (h : e.perform X fuel a = .ok e₁) :
    e.Shifts X e₁ :=
  (shifts_record a e).trans (shifts_dispatch ha h)

end ExchangeSim
