import ExchangeSim.Passes

namespace ExchangeSim

open Engine List

variable {D : Type} {X : Exchange D} {w c : Prop} {e : Engine D} {ord o : Order}
  {level : PriceLevel} {deeper : List PriceLevel}

/-- No daily limit and no volatility auction can interrupt matching. -/
structure Context.Calm (X : Exchange D) (ctx : Context D) : Prop where
  high : ctx.config.dailyLimitHigh ≤ 0
  low : ctx.config.dailyLimitLow ≤ 0
  unlocked : ctx.state ≠ .lockLimit
  steady : ∀ last ref, X.shouldTriggerVolatilityAuction ctx.derived last ref = false

/-- The faults an operation can end in: the fill buffer, and a loop that goes on. -/
def Fault.expected : Fault → Prop
  | .fillBuffer => True
  | .outOfFuel => True
  | _ => False

theorem MatchRun.context {W W' : World D} (h : MatchRun X w c W W') (hc : c) :
    W'.engine.context = W.engine.context :=
  Machine.Run.invariant (I := fun V => V.engine.context = W.engine.context) h rfl
    fun _ V ht _ hp => (Move.run_context (hp.1.steady hc) V).trans ht

theorem session_run (hc : ¬c) {ts : Int} {e' : Engine D} (fl : Option Order)
    (h : SessionSteps X ts e e') : MatchRun X w c ⟨e, fl⟩ ⟨e', fl⟩ := by
  have hlegal : ∀ (m : Move D) (W : World D), m.matching = true → m.exact →
      Legal w c m W ∧ m.matching = true := fun m W hm hx =>
    Legal.of_matching hm (fun _ => hx) fun h => absurd h hc
  induction h with
  | refl => exact .refl
  | @tail e₁ _ _ hstep ih =>
    cases hstep with
    | status s =>
      exact Machine.Run.tail (M := machine X) (.session s ts) ih trivial (hlegal _ _ rfl trivial)
    | report side limit =>
      exact Machine.Run.tail (M := machine X) (.note e₁.rateTracker
        [.event (.lockLimitTriggered side limit e₁.lastTradePrice ts)]) ih
        (by simp [machine, Move.guard, JournalEntry.quiet]) (hlegal _ _ rfl trivial)
    | hook side limit =>
      exact Machine.Run.tail (M := machine X) (.hook _ _) ih trivial (hlegal _ _ rfl trivial)
    | reference price =>
      exact Machine.Run.tail (M := machine X) (.reference price) ih trivial
        (hlegal _ _ rfl trivial)

theorem interrupted_calm (hcalm : e.context.Calm X) (ts : Int) : e.interrupted X ts = (false, e) := by
  have hhigh : ¬0 < e.config.dailyLimitHigh := not_lt.mpr hcalm.high
  have hlow : ¬0 < e.config.dailyLimitLow := not_lt.mpr hcalm.low
  have hopen : e.currentState ≠ .lockLimit := hcalm.unlocked
  have hsteady : X.shouldTriggerVolatilityAuction e.derived e.lastTradePrice
      e.viReferencePrice = false := hcalm.steady _ _
  simp [interrupted, checkDailyLimitHit, checkVolatilityInterruption, atUpperLimit, atLowerLimit,
    hhigh, hlow, hopen, hsteady]

theorem interrupted_run (ts : Int) (e : Engine D) (fl : Option Order)
    (hcalm : c → e.context.Calm X) :
    MatchRun X w c ⟨e, fl⟩ ⟨(e.interrupted X ts).2, fl⟩ ∧ (c → (e.interrupted X ts).1 = false) := by
  by_cases hc : c
  · rw [interrupted_calm (hcalm hc)]
    exact ⟨.refl, fun _ => rfl⟩
  · exact ⟨session_run hc fl (interrupted_steps X ts e), fun h => absurd h hc⟩

theorem Bookable.named {strict : Prop} {left : Nat → Option Int} {rs : List FillResult}
    (h : Bookable strict left rs) : ∀ f ∈ rs, (left f.restingOrder).isSome = true := by
  induction rs generalizing left with
  | nil => simp
  | cons f rs ih =>
    obtain ⟨⟨v, hv, -⟩, -, -, hrest⟩ := h
    intro g hg
    rcases List.mem_cons.mp hg with rfl | hg
    · simp [hv]
    · have hg' := ih hrest g hg
      by_cases he : g.restingOrder = f.restingOrder
      · simp [he, hv]
      · simpa [he] using hg'

theorem setBook_eq_advance (P : MatchPolicy) {s : Side} (hbook : e.book s = level :: deeper)
    (hnodup : (idsIn (e.book s)).Nodup) (q : Int) :
    e.setBook s ({ level with orders := (P.matchLevel level q).orders } :: deeper) =
      e.advance s (P.matchLevel level q).results := by
  have hsplit : level.Distinct ∧ ∀ o ∈ ordersIn deeper, ∀ x ∈ level.orders, x.id ≠ o.id := by
    rw [hbook] at hnodup
    simp only [idsIn, ordersIn_cons, map_append] at hnodup
    obtain ⟨hl, -, hd⟩ := List.nodup_append.mp hnodup
    exact ⟨hl, fun o ho x hx => hd x.id (mem_map.mpr ⟨x, hx, rfl⟩) o.id
      (mem_map.mpr ⟨o, ho, rfl⟩)⟩
  have hdeep : deeper.map (·.mapOrders fun o =>
      o.fill (filledBy o.id (P.matchLevel level q).results)) = deeper := by
    apply map_eq_self
    intro l hl
    have hos : l.orders.map (fun o => o.fill (filledBy o.id (P.matchLevel level q).results)) =
        l.orders := by
      apply map_eq_self
      intro o ho
      rw [filledBy_eq_zero, Order.fill_zero]
      intro f hf he
      obtain ⟨v, hv⟩ := Option.isSome_iff_exists.mp ((P.bookable level q hsplit.1).named f hf)
      obtain ⟨x, hx, hxid, -⟩ := exists_of_remainingIn hv
      exact hsplit.2 o (mem_ordersIn.mpr ⟨l, hl, ho⟩) x hx (hxid.trans he)
    simp [PriceLevel.mapOrders, hos]
  unfold advance mapBook
  rw [hbook, map_cons, hdeep, P.orders_eq level q hsplit.1]
  rfl

section

variable (hs : World.Sound X w ⟨e, some ord⟩)

include hs

theorem best_level
    (hbook : e.book ord.side.opposite = level :: deeper) :
    level.Distinct ∧ level.Sound w (bookFits ord.side.opposite) := by
  have hH : e.holdings.Sound X w [ord.id] := hs.holds_some rfl
  have hn : (idsIn (level :: deeper)).Nodup := hbook ▸ hH.nodup .limit ord.side.opposite
  simp only [idsIn, ordersIn_cons, map_append] at hn
  exact ⟨(List.nodup_append.mp hn).1, (hH.shape .limit ord.side.opposite).sound level
    (by simp [holdings, shelf, hbook])⟩

theorem best_pending (hturn : e.Turn ord level deeper) :
    e.Pending w ord.side.opposite level.price
      (X.algo.matchLevel level ord.remainingQuantity).results := by
  obtain ⟨hdistinct, hlevel⟩ := best_level hs hturn.book
  refine .inr ⟨level, deeper, hturn.book, rfl, X.algo.price_eq level _, ?_⟩
  exact (X.algo.bookable level _ hdistinct).mono fun hw => ⟨hlevel.exact hw, hturn.left⟩

theorem best_amounts (hturn : e.Turn ord level deeper) (hw : w) :
    let m := X.algo.matchLevel level ord.remainingQuantity
    m.remaining = ord.remainingQuantity - fillTotal m.results ∧
      fillTotal m.results = min ord.remainingQuantity level.totalQuantity := by
  obtain ⟨hdistinct, hlevel⟩ := best_level hs hturn.book
  exact ⟨X.algo.remaining_eq level _ hdistinct (hlevel.exact hw) hturn.left,
    X.algo.total_eq level _ hdistinct (hlevel.exact hw) hturn.left⟩

omit hs in
theorem pass_eq_advance (hnodup : (idsIn (e.book ord.side.opposite)).Nodup)
    (hturn : e.Turn ord level deeper) (ts : Int) : e.pass X ts ord level deeper =
      (e.advance ord.side.opposite
        (X.algo.matchLevel level ord.remainingQuantity).results).processFills X ts
        (X.algo.matchLevel level ord.remainingQuantity).results
        { ord with remainingQuantity := (X.algo.matchLevel level ord.remainingQuantity).remaining } := by
  rw [Engine.pass, setBook_eq_advance X.algo hturn.book hnodup]

theorem pass_self {resting : Order} {f : FillResult} {rs : List FillResult} (hw : w)
    (hturn : e.Turn ord level deeper)
    (hr : (X.algo.matchLevel level ord.remainingQuantity).results = f :: rs)
    (hfind : findOrder f.restingOrder (e.book ord.side.opposite) = some resting)
    (hself : X.isSelfMatch e.derived { ord with remainingQuantity :=
        (X.algo.matchLevel level ord.remainingQuantity).remaining }
      (resting.fill (filledBy resting.id (f :: rs))) = true) (ts : Int) :
    e.pass X ts ord level deeper = .ok (e.applySmpAction X ord resting f ts) := by
  have hrem := (best_amounts hs hturn hw).1
  rw [hr] at hrem
  have hpass := processFills_self ts _ hfind (by omega) hself
  rwa [← hr, ← pass_eq_advance ((hs.holds_some rfl).nodup .limit _) hturn] at hpass

omit hs in
theorem pass_run (ts : Int) (hs : World.Sound X w ⟨e, some ord⟩) (hturn : e.Turn ord level deeper)
    (hent : ord.Entered) :
    ∃ alive e', e.pass X ts ord level deeper = .ok (alive, e') ∧
      MatchRun X w c ⟨e, some ord⟩ ⟨e', alive⟩ ∧ ∀ o ∈ alive, o.Continues ord := by
  let m := X.algo.matchLevel level ord.remainingQuantity
  let ord' : Order := { ord with remainingQuantity := m.remaining + fillTotal m.results }
  have hexact : w → m.remaining + fillTotal m.results = ord.remainingQuantity ∧ 0 ≤ m.remaining :=
    fun hw => by
      obtain ⟨hrem, htot⟩ := best_amounts hs hturn hw
      simp only [m]
      omega
  have hadjust : MatchRun X w c ⟨e, some ord⟩ ⟨e, some ord'⟩ :=
    Machine.Run.single (M := machine X)
      (m := .adjust ord (m.remaining + fillTotal m.results)) rfl
      (Legal.of_matching rfl (fun hw => (hexact hw).1) fun _ => rfl)
  have hpend : e.Pending w ord'.side.opposite level.price m.results := best_pending hs hturn
  obtain ⟨alive, e', heq, hrun, hcont⟩ := processFills_run ts
    (hadjust.sound hs) (fun hw => (hexact hw).2) rfl hturn.allowed hent hpend
  refine ⟨alive, e', ?_, Machine.Run.trans hadjust hrun, fun o ho => (hcont o ho).trans rfl⟩
  rw [pass_eq_advance ((hs.holds_some rfl).nodup .limit _) hturn]
  exact heq

theorem pass_ok {ts : Int} {alive : Option Order} {e' : Engine D} (hturn : e.Turn ord level deeper) (hent : ord.Entered)
    (h : e.pass X ts ord level deeper = .ok (alive, e')) :
    MatchRun X w c ⟨e, some ord⟩ ⟨e', alive⟩ ∧ ∀ o ∈ alive, o.Continues ord ∧ o.Entered ∧
      World.Sound X w ⟨e', some o⟩ := by
  obtain ⟨_, _, heq, hrun, hcont⟩ := pass_run ts hs hturn hent
  cases h.symm.trans heq
  refine ⟨hrun, fun o ho => ⟨hcont o ho, ?_, ?_⟩⟩
  · rw [hcont o ho]
    exact hent
  · obtain rfl := Option.mem_def.mp ho
    exact hrun.sound hs

theorem pass_ne_error {ts : Int} {err : Fault × Engine D}
    (hturn : e.Turn ord level deeper) (hent : ord.Entered) :
    e.pass X ts ord level deeper ≠ .error err := by
  obtain ⟨_, _, heq, -⟩ := pass_run (c := False) ts hs hturn hent
  simp [heq]

end

/-- What the match loop comes to: a run of moves, after which the aggressor is filled up, has
nothing left to meet, or was interrupted. -/
def LoopOutcome (X : Exchange D) (w c : Prop) (ord : Order) (e : Engine D) :
    Outcome D (Option Order × Engine D) → Prop
  | .ok (alive, e') => MatchRun X w c ⟨e, some ord⟩ ⟨e', alive⟩ ∧
    ∀ o ∈ alive, o.Continues ord ∧ (o.remainingQuantity ≤ 0 ∨ (c → e'.clearOf o))
  | .error (fault, e') => fault.expected ∧ ∃ o, MatchRun X w c ⟨e, some ord⟩ ⟨e', some o⟩

theorem LoopOutcome.after {ord' : Order} {e' : Engine D}
    (hrun : MatchRun X w c ⟨e, some ord⟩ ⟨e', some ord'⟩) (hcont : ord'.Continues ord)
    {r : Outcome D (Option Order × Engine D)} (h : LoopOutcome X w c ord' e' r) :
    LoopOutcome X w c ord e r := by
  cases r with
  | ok r =>
    exact ⟨Machine.Run.trans hrun h.1, fun o ho => ⟨(h.2 o ho).1.trans hcont, (h.2 o ho).2⟩⟩
  | error r =>
    obtain ⟨hf, o, ho⟩ := h
    exact ⟨hf, o, Machine.Run.trans hrun ho⟩

theorem matchLoop_run (ts : Int) (fuel : Nat) (hs : World.Sound X w ⟨e, some ord⟩)
    (hcalm : c → e.context.Calm X) (hent : ord.Entered) :
    LoopOutcome X w c ord e (e.matchLoop X ts fuel ord) := by
  refine matchLoop_rule X ts (P := fun _ o e r => World.Sound X w ⟨e, some o⟩ →
    (c → e.context.Calm X) → o.Entered → LoopOutcome X w c o e r) ?_ ?_ ?_ ?_ ?_ ?_ fuel ord e hs
    hcalm hent
  · exact fun o e _ _ _ => ⟨trivial, o, .refl⟩
  · intro _ o e hidle _ _ _
    refine ⟨.refl, fun x hx => ?_⟩
    obtain rfl : o = x := by simpa using hx
    exact ⟨rfl, hidle.imp_right fun hclear _ => hclear⟩
  · exact fun _ o e _ _ _ _ _ _ _ => ⟨trivial, o, .refl⟩
  · exact fun _ o e _ _ _ hturn hpass hs _ hent => absurd hpass (pass_ne_error hs hturn hent)
  · intro _ o e level deeper alive e' hturn hpass hstop hs hcalm hent
    obtain ⟨hrun, hcont⟩ := pass_ok hs hturn hent hpass
    have hcalm' : c → e'.context.Calm X := fun hc => hrun.context hc ▸ hcalm hc
    obtain ⟨hend, hno⟩ := interrupted_run ts e' alive hcalm'
    refine ⟨Machine.Run.trans hrun hend, fun x hx => ⟨(hcont x hx).1, .inr fun hc => ?_⟩⟩
    rcases hstop with hhit | rfl
    · simp [hno hc] at hhit
    · simp at hx
  · intro _ o e level deeper o' e' r hturn hpass ih hs hcalm hent
    obtain ⟨hrun, hcont⟩ := pass_ok hs hturn hent hpass
    obtain ⟨hcont, hent', hs'⟩ := hcont o' rfl
    exact .after hrun hcont (ih hs' (fun hc => hrun.context hc ▸ hcalm hc) hent')

theorem matchLoop_clear {ts : Int} {fuel : Nat} {r : Option Order × Engine D} (hclear : e.clearOf o)
    (h : e.matchLoop X ts fuel o = .ok r) : r = (some o, e) := by
  cases fuel with
  | zero => simp [matchLoop] at h
  | succ fuel =>
    rw [matchLoop_done (.inr hclear)] at h
    exact (Except.ok.inj h).symm

end ExchangeSim
