import ExchangeSim.Trail

namespace ExchangeSim

open Engine JournalEntry

variable {D : Type} {X : Exchange D} {p : JournalEntry → Prop} {e e₁ e₂ : Engine D} {ts : Int}
  {order : Order} {fuel : Nat}

structure Engine.Trades (e e' : Engine D) : Prop extends e.Tells (·.isTrade = true) e' where
  stops : e'.stopBook = e.stopBook

theorem Engine.Trades.refl (e : Engine D) : e.Trades e :=
  ⟨.refl e, rfl⟩

theorem Engine.Trades.trans (h : e.Trades e₁) (h' : e₁.Trades e₂) : e.Trades e₂ :=
  ⟨h.toTells.trans h'.toTells, h'.stops.trans h.stops⟩

section

variable (e : Engine D)

@[simp] theorem stopBook_removeOrder (o : Order) : (e.removeOrder o).2.stopBook = e.stopBook := by
  unfold removeOrder
  dsimp only
  split <;> rfl

@[simp] theorem stopBook_fireDepthOf (o : Order) (ts : Int) :
    (e.fireDepthOf o ts).stopBook = e.stopBook := by
  unfold fireDepthOf
  split <;> rfl

@[simp] theorem stopBook_closeResting (ts : Int) (f : FillResult) (resting : Order) :
    (e.closeResting ts f resting).stopBook = e.stopBook := by
  unfold closeResting
  split
  · split
    · exact stopBook_fireDepthOf _ resting ts
    · exact stopBook_removeOrder e resting
  · exact stopBook_fireDepthOf e resting ts

@[simp] theorem stopBook_cancelResting (ts : Int) (f : FillResult) (o : Order) :
    (e.cancelResting ts f o).2.stopBook = e.stopBook := by
  unfold cancelResting
  dsimp only
  split <;> exact stopBook_removeOrder e o

@[simp] theorem stopBook_notifyCancelled (ts : Int) (f : FillResult) (o : Order)
    (r : Bool × Engine D) : (e.notifyCancelled ts f o r).stopBook = r.2.stopBook := by
  unfold notifyCancelled
  split <;> rfl

end

theorem trades_setBook (s : Side) (lvls : List PriceLevel) (e : Engine D) :
    e.Trades (e.setBook s lvls) :=
  ⟨.quiet rfl rfl, rfl⟩

theorem trades_bookTrade (X : Exchange D) (ts : Int) (order : Order) (f : FillResult)
    (resting : Order) (e : Engine D) : e.Trades (e.bookTrade X ts order f resting) :=
  ⟨tells_trade (tape_bookTrade e X ts order f resting) rfl rfl, rfl⟩

theorem trades_closeResting (ts : Int) (f : FillResult) (resting : Order) (e : Engine D) :
    e.Trades (e.closeResting ts f resting) :=
  ⟨.quiet (tape_closeResting e ts f resting) (context_closeResting e ts f resting), by simp⟩

theorem trades_undoFills (s : Side) (fills : List FillResult) (order : Order) (e : Engine D) :
    e.Trades (e.undoFills s fills order).2 := by
  induction fills generalizing order e with
  | nil => exact .refl e
  | cons f rest ih =>
    exact (trades_setBook s _ e).trans (ih _ _)

theorem trades_applySmpAction (order resting : Order) (f : FillResult) (ts : Int) (e : Engine D) :
    e.Trades (e.applySmpAction X order resting f ts).2 := by
  have hcancel : e.Trades (e.cancelResting ts f resting).2 :=
    ⟨.report (x := .event (.orderCancelled resting.id ts .selfMatchPrevention))
      (by rw [← tape_sheet]; simp [told]) (by rw [← context_sheet]; simp) rfl, by simp⟩
  have hdrop : ∀ e : Engine D, e.Trades (e.dropOrder order ts .selfMatchPrevention) := fun e =>
    ⟨tells_dropOrder _ e order ts _, rfl⟩
  unfold applySmpAction
  split
  · exact hdrop e
  · exact hcancel.trans ⟨.same (by simp), by simp⟩
  · exact hcancel.trans (hdrop _)
  · exact .refl e
  · exact .refl e

theorem trades_processFills {fills : List FillResult} {r : Option Order × Engine D}
    (h : e.processFills X ts fills order = .ok r) : e.Trades r.2 := by
  induction fills generalizing order e with
  | nil => exact Except.ok.inj h ▸ .refl e
  | cons f rest ih =>
    unfold processFills at h
    split at h
    · simp at h
    next resting _ =>
      split at h
      · dsimp only at h
        split at h
        · simp at h
        · cases h
          exact (trades_undoFills _ _ _ e).trans (trades_applySmpAction _ _ f ts _)
      · exact ((trades_bookTrade X ts _ f resting e).trans (trades_closeResting ts f resting _)).trans
          (ih h)

def JournalEntry.switch (s : SessionState) : JournalEntry → SessionState
  | .event (.marketStatus s' _) => s'
  | _ => s

/-- From `e` to `e'` only the session changes, and the trail tells how. -/
structure Engine.Switches (e e' : Engine D) : Prop where
  trail : ∃ es, e'.trail = e.trail ++ es ∧ (∀ x ∈ es, x.isStatus = true) ∧
    es.foldl JournalEntry.switch e.currentState = e'.currentState
  stops : e'.stopBook = e.stopBook

theorem Engine.Switches.refl (e : Engine D) : e.Switches e :=
  ⟨⟨[], by simp⟩, rfl⟩

theorem Engine.Switches.trans (h : e.Switches e₁) (h' : e₁.Switches e₂) : e.Switches e₂ := by
  obtain ⟨es, ht, hes, hs⟩ := h.trail
  obtain ⟨es', ht', hes', hs'⟩ := h'.trail
  refine ⟨⟨es ++ es', by rw [ht', ht, List.append_assoc], ?_, ?_⟩, h'.stops.trans h.stops⟩
  · intro x hx
    rcases List.mem_append.mp hx with hx | hx
    · exact hes x hx
    · exact hes' x hx
  · rw [List.foldl_append, hs, hs']

theorem Engine.Switches.quiet (ht : e₁.trail = e.trail) (hs : e₁.currentState = e.currentState)
    (hst : e₁.stopBook = e.stopBook) : e.Switches e₁ :=
  ⟨⟨[], by simp [ht], by simp, hs.symm⟩, hst⟩

theorem switches_status (s : SessionState) (ts : Int) (e : Engine D) :
    e.Switches ({ e with currentState := s }.emit (.marketStatus s ts)) :=
  ⟨⟨[.event (.marketStatus s ts)],
    by simp [trail, tape, emit, told, sessional],
    by simp [isStatus], rfl⟩, rfl⟩

theorem switches_session (h : SessionSteps X ts e e₁) : e.Switches e₁ := by
  induction h with
  | refl => exact .refl e
  | @tail e₁ _ _ hstep ih =>
    refine ih.trans ?_
    cases hstep with
    | status s => exact switches_status s ts e₁
    | report => exact .quiet (by simp [trail, told]) rfl rfl
    | hook => exact .quiet rfl rfl rfl
    | reference => exact .quiet rfl rfl rfl

/-- Trades, and then the session may change unless the engine is calm. -/
structure Engine.Concludes (X : Exchange D) (e e' : Engine D) : Prop where
  parts : ∃ e₁, e.Trades e₁ ∧ e₁.Switches e'
  calm : e.context.Calm X → e.Trades e'

theorem Engine.Trades.concludes (h : e.Trades e₁) : e.Concludes X e₁ :=
  ⟨⟨e₁, h, .refl e₁⟩, fun _ => h⟩

theorem Engine.Concludes.after (h : e₁.Concludes X e₂) (h' : e.Trades e₁) : e.Concludes X e₂ := by
  obtain ⟨e', ht, hs⟩ := h.parts
  exact ⟨⟨e', h'.trans ht, hs⟩, fun hc => h'.trans (h.calm (h'.context ▸ hc))⟩

theorem Engine.Trades.interrupted (h : e.Trades e₁) (ts : Int) :
    e.Concludes X (e₁.interrupted X ts).2 := by
  by_cases hcalm : e₁.context.Calm X
  · rw [interrupted_calm hcalm]
    exact h.concludes
  · exact ⟨⟨e₁, h, switches_session (interrupted_steps X ts e₁)⟩,
      fun hc => absurd (h.context ▸ hc) hcalm⟩

theorem trades_pass {level : PriceLevel} {deeper : List PriceLevel} {alive : Option Order}
    (h : e.pass X ts order level deeper = .ok (alive, e₁)) : e.Trades e₁ :=
  (trades_setBook _ _ e).trans (trades_processFills h)

theorem concludes_matchLoop {alive : Option Order}
    (h : e.matchLoop X ts fuel order = .ok (alive, e₁)) : e.Concludes X e₁ := by
  refine matchLoop_ok (I := fun _ e _ e' => e.Concludes X e') ?_ ?_ ?_ h
  · exact fun _ e => (Trades.refl e).concludes
  · exact fun o e level deeper alive e' _ hpass => (trades_pass hpass).interrupted ts
  · exact fun o e level deeper o' e' alive e'' _ hpass ih => ih.after (trades_pass hpass)

def Engine.stopView (e : Engine D) : (Side → List PriceLevel) × Int :=
  (e.stopBook, e.lastTradePrice)

section

variable (e : Engine D) (o : Order) (ts : Int)

@[simp] theorem stopView_fireTopOfBookIfChanged (b a : Int) :
    (e.fireTopOfBookIfChanged ts b a).stopView = e.stopView := by
  unfold fireTopOfBookIfChanged
  split <;> rfl

@[simp] theorem stopView_insertIntoBook : (e.insertIntoBook o ts).stopView = e.stopView := by
  unfold insertIntoBook
  split
  · rfl
  · dsimp only
    split <;> rfl

@[simp] theorem stopView_removeOrder : (e.removeOrder o).2.stopView = e.stopView := by
  unfold removeOrder
  dsimp only
  split <;> rfl

@[simp] theorem stopView_reportPull (req : ModifyRequest) (freed : Bool) :
    (e.reportPull o req freed).stopView = e.stopView := by
  unfold reportPull fireDepthAfterRemove fireDepthAt
  dsimp only
  split
  · rfl
  · split <;> rfl

@[simp] theorem stopView_postMatch (b a : Int) : (e.postMatch o ts b a).stopView = e.stopView := by
  rcases postMatch_cases o ts b a e with ⟨-, heq⟩ | ⟨reason, heq⟩ | ⟨-, -, heq⟩ <;> rw [heq]
  · exact stopView_fireTopOfBookIfChanged (e.release o) ts b a
  · exact stopView_fireTopOfBookIfChanged (e.dropOrder o ts reason) ts b a
  · exact stopView_insertIntoBook e o ts

end

def Engine.hasDueStops (e : Engine D) : Prop :=
  e.lastTradePrice > 0 ∧ e.hasTriggeredStops = true

theorem hasDueStops_congr (h : e₁.stopView = e.stopView) : e₁.hasDueStops ↔ e.hasDueStops := by
  obtain ⟨hs, hp⟩ := Prod.mk.inj h
  have htrig : e₁.hasTriggeredStops = e.hasTriggeredStops := by
    simp [hasTriggeredStops, triggeredLevel, hs, hp]
  rw [hasDueStops, hasDueStops, hp, htrig]

theorem not_hasDueStops_of_empty (h : ∀ s, e.stopBook s = []) : ¬e.hasDueStops := by
  rintro ⟨-, hs⟩
  simp [hasTriggeredStops, triggeredLevel, h] at hs

theorem checkAndTriggerStops_eq (h : ¬e.hasDueStops) (fuel rounds : Nat) (ts : Int) :
    e.checkAndTriggerStops X fuel ts rounds = .ok e := by
  unfold checkAndTriggerStops
  exact if_neg h

theorem Engine.Concludes.land (h : e.Concludes X e₁) (ht : ∀ p, e₁.Tells p e₂)
    (hs : e₂.stopView = e₁.stopView) : e.Concludes X e₂ := by
  have hstops : e₂.stopBook = e₁.stopBook := congrArg Prod.fst hs
  have hcontext := (ht fun _ => False).context
  obtain ⟨es, htrail, hes⟩ := (ht fun _ => False).trail
  obtain rfl : es = [] := List.eq_nil_iff_forall_not_mem.mpr hes
  obtain ⟨e', ht', hs'⟩ := h.parts
  refine ⟨⟨e', ht', hs'.trans (.quiet (by simpa using htrail) ?_ hstops)⟩,
    fun hc => (h.calm hc).trans ⟨ht _, hstops⟩⟩
  exact congrArg Context.state hcontext

theorem concludes_matchOrder (h : e.matchOrder X fuel order ts = .ok e₁) : e.Concludes X e₁ := by
  rcases matchOrder_ok h with ⟨-, rfl⟩ | ⟨alive, e', hloop, rfl⟩
  · exact (Trades.refl e).concludes.land (fun p => (tells_dropOrder p e order ts _).trans
      (tells_fireTopOfBookIfChanged p _ ts _ _)) (stopView_fireTopOfBookIfChanged _ ts _ _)
  · cases alive with
    | some o =>
      exact (concludes_matchLoop hloop).land (fun p => tells_postMatch p e' o ts _ _)
        (stopView_postMatch e' o ts _ _)
    | none =>
      exact (concludes_matchLoop hloop).land (fun p => tells_fireTopOfBookIfChanged p e' ts _ _)
        (stopView_fireTopOfBookIfChanged e' ts _ _)

theorem tells_checkAndTriggerStops {rounds : Nat} (hcalm : e.context.Calm X)
    (h : e.checkAndTriggerStops X fuel ts rounds = .ok e₁) : e.Tells (·.isTrade = true) e₁ := by
  refine (checkAndTriggerStops_ok ?_ h (.refl e)).1
  intro e' stop e'' hI _ _ hmatch
  have hremove : e.Tells (·.isTrade = true) (e'.removeStop stop) := hI.trans (.same (by simp))
  exact hremove.trans ((concludes_matchOrder hmatch).calm (hremove.context ▸ hcalm)).toTells

/-- No daily limit or volatility auction can interrupt the operation, or no stop waits that could
go on after it. -/
def Engine.uninterrupted (X : Exchange D) (e : Engine D) : Prop :=
  e.context.Calm X ∨ ∀ s, e.stopBook s = []

theorem ends_matchAndTrigger (hu : e.uninterrupted X)
    (h : e.matchAndTrigger X fuel order ts = .ok e₁) :
    ∃ e', e.Tells (·.isTrade = true) e' ∧ e'.Switches e₁ := by
  obtain ⟨e', hmatch, h⟩ := matchAndTrigger_ok h
  have hend := concludes_matchOrder hmatch
  rcases hu with hcalm | hempty
  · have htrades := (hend.calm hcalm).toTells
    exact ⟨e₁, htrades.trans (tells_checkAndTriggerStops (htrades.context ▸ hcalm) h), .refl e₁⟩
  · obtain ⟨e'', ht, hs⟩ := hend.parts
    have hstill : ¬e'.hasDueStops := not_hasDueStops_of_empty fun s => by
      rw [hs.stops, ht.stops, hempty s]
    rw [checkAndTriggerStops_eq hstill] at h
    exact Except.ok.inj h ▸ ⟨e'', ht.toTells, hs⟩

def Engine.idle (e : Engine D) (order : Order) : Prop :=
  e.clearOf order ∧ ¬e.hasDueStops

theorem tells_matchAndTrigger_idle (hidle : e.idle order)
    (h : e.matchAndTrigger X fuel order ts = .ok e₁) : e.Tells p e₁ := by
  obtain ⟨e', hm, h⟩ := matchAndTrigger_ok h
  have hmatch : e.Tells p e' ∧ e'.stopView = e.stopView := by
    rcases matchOrder_ok hm with ⟨-, rfl⟩ | ⟨alive, e₂, hr, rfl⟩
    · exact ⟨(tells_dropOrder p e order ts _).trans (tells_fireTopOfBookIfChanged p _ ts _ _),
        stopView_fireTopOfBookIfChanged _ ts _ _⟩
    · cases matchLoop_clear hidle.1 hr
      exact ⟨tells_postMatch p e order ts _ _, stopView_postMatch e order ts _ _⟩
  rw [checkAndTriggerStops_eq (mt (hasDueStops_congr hmatch.2).mp hidle.2)] at h
  exact Except.ok.inj h ▸ hmatch.1

end ExchangeSim
