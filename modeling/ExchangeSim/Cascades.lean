import ExchangeSim.BookShape
import ExchangeSim.FillBuffer
import ExchangeSim.Progress
import ExchangeSim.Passed

/-!
The stop cascade. Every stop that is converted can trade and move the last price, so what the next
round takes is decided anew; what does not change on the way is which stops are still waiting.
-/

namespace ExchangeSim

open Engine List

variable {D : Type} {X : Exchange D} {e e' : Engine D} {stop : Order} {fuel : Nat} {ts : Int}
  {s : Side} {w : Prop} {extra : List Nat}

def Engine.waitingStops (e : Engine D) : List Order :=
  ordersIn (e.stopBook .buy) ++ ordersIn (e.stopBook .sell)

/-- The oldest stop at the first trigger price of a side, if the last trade reaches it: the lowest
of the buy stops, the highest of the sell stops. -/
def Engine.Leads (e : Engine D) (s : Side) (stop : Order) : Prop :=
  ∃ l ∈ e.stopBook s, s.reaches e.lastTradePrice l.price ∧ l.orders.head? = some stop ∧
    ∀ m ∈ e.stopBook s, s.reaches e.lastTradePrice m.price →
      match s with
      | .buy => l.price ≤ m.price
      | .sell => m.price ≤ l.price

/-- The stop whose turn it is: buy stops go first. -/
def Engine.Selects (e : Engine D) (stop : Order) : Prop :=
  0 < e.lastTradePrice ∧ (e.Leads .buy stop ∨
    (∀ m ∈ e.stopBook .buy, ¬Side.buy.reaches e.lastTradePrice m.price) ∧ e.Leads .sell stop)

/-- Rounds of the cascade with the stops they convert, until no stop that is waiting has its
trigger reached. -/
inductive Cascade (X : Exchange D) (fuel : Nat) (ts : Int) :
    Engine D → List Order → Engine D → Prop
  | done {e : Engine D} : ¬e.Missed → Cascade X fuel ts e [] e
  | convert {e e₁ e' : Engine D} {stop : Order} {stops : List Order} : e.Selects stop →
    (e.removeStop stop).matchOrder X fuel stop.triggered ts = .ok e₁ →
    Cascade X fuel ts e₁ stops e' → Cascade X fuel ts e (stop :: stops) e'

section selection

theorem triggeredLevel_leads {l : PriceLevel} (hturn : e.InTurn) (h : e.triggeredLevel s = some l)
    (hhead : l.orders.head? = some stop) : e.Leads s stop := by
  have hsome : (e.triggeredLevel s).isSome = true := by rw [h]; rfl
  obtain ⟨l', rest, hbook, hreach⟩ := (triggeredLevel_isSome s e).mp hsome
  obtain rfl : l' = l := by
    cases s <;> simp [triggeredLevel, hbook] at h <;> exact h.2
  have hsorted := hturn s
  rw [triggers, hbook, map_cons] at hsorted
  refine ⟨l', by simp [hbook], hreach, hhead, fun m hm _ => ?_⟩
  rw [hbook] at hm
  rcases List.mem_cons.mp hm with rfl | hm
  · cases s <;> exact le_rfl
  · have hlt := rel_of_pairwise_cons hsorted (mem_map_of_mem hm)
    cases s <;> simp only [stopBefore, bookBefore, Side.opposite, decide_eq_true_eq] at hlt <;>
      exact hlt.le

theorem not_reached_of_triggeredLevel_none (hturn : e.InTurn) (h : e.triggeredLevel s = none) :
    ∀ m ∈ e.stopBook s, ¬s.reaches e.lastTradePrice m.price := by
  intro m hm hreach
  cases hbook : e.stopBook s with
  | nil => simp [hbook] at hm
  | cons l rest =>
    have hsorted := hturn s
    rw [triggers, hbook, map_cons] at hsorted
    have hhead : s.reaches e.lastTradePrice l.price := by
      rw [hbook] at hm
      rcases List.mem_cons.mp hm with rfl | hm
      · exact hreach
      · exact hreach.before (rel_of_pairwise_cons hsorted (mem_map_of_mem hm))
    have hsome := (triggeredLevel_isSome s e).mpr ⟨l, rest, hbook, hhead⟩
    simp [h] at hsome

theorem nextTriggeredStop_selects (hturn : e.InTurn) (hlast : 0 < e.lastTradePrice)
    (h : e.nextTriggeredStop = some stop) : e.Selects stop := by
  refine ⟨hlast, ?_⟩
  unfold nextTriggeredStop at h
  split at h
  next l hbuy => exact .inl (triggeredLevel_leads hturn hbuy h)
  next hbuy =>
    split at h
    next l hsell =>
      exact .inr ⟨not_reached_of_triggeredLevel_none hturn hbuy,
        triggeredLevel_leads hturn hsell h⟩
    next => simp at h

end selection

section rounds

theorem removeStop_waitingStops (hH : e.holdings.Sound X w extra) (hwait : e.waits stop) :
    e.waitingStops.Perm (stop :: (e.removeStop stop).waitingStops) := by
  obtain ⟨A, l, B, Xs, Ys, hsplit, hf⟩ := exists_focus_of_mem (hH.nodup .stop stop.side) hwait
  have hcount := ((hH.shape .stop stop.side).sound l (by simp [hsplit])).count
  have hperm := hf.unlinkFrom_orders hcount
  rw [← hsplit] at hperm
  change (ordersIn (e.stopBook stop.side)).Perm
    (stop :: ordersIn (unlinkFrom stop (e.stopBook stop.side)).1) at hperm
  unfold waitingStops
  rw [removeStop_stopBook]
  cases hside : stop.side with
  | buy =>
    rw [hside] at hperm
    simpa using hperm.append_right _
  | sell =>
    rw [hside] at hperm
    simpa using (hperm.append_left (ordersIn (e.stopBook .buy))).trans perm_middle

theorem matchOrder_waitingStops {order : Order} (h : e.matchOrder X fuel order ts = .ok e') :
    e'.waitingStops = e.waitingStops := by
  obtain ⟨e₁, htrades, hswitches⟩ := (concludes_matchOrder h).parts
  simp only [waitingStops, hswitches.stops, htrades.stops]

theorem convert_sound (hs : World.Sound X True ⟨e, none⟩) (hdue : e.hasDueStops)
    (hnext : e.nextTriggeredStop = some stop)
    (hm : (e.removeStop stop).matchOrder X fuel stop.triggered ts = .ok e') :
    World.Sound X True ⟨e', none⟩ ∧ World.load ⟨e', none⟩ < World.load ⟨e, none⟩ ∧
      e.waitingStops.Perm (stop :: e'.waitingStops) := by
  obtain ⟨hs', hload⟩ := trigger_load hs hdue.1 hnext
  obtain ⟨hs'', hlt⟩ := matchOrder_load hs' stop.triggered_type hm
  refine ⟨hs'', by omega, ?_⟩
  rw [matchOrder_waitingStops hm]
  have hH := hs.holds_none rfl
  exact removeStop_waitingStops hH (nextTriggeredStop_waits hH hnext)

theorem checkAndTriggerStops_succ (hdue : e.hasDueStops) (hnext : e.nextTriggeredStop = some stop)
    (fuel rounds : Nat) (ts : Int) : e.checkAndTriggerStops X fuel ts (rounds + 1) =
      match (e.removeStop stop).matchOrder X fuel stop.triggered ts with
      | .error err => .error err
      | .ok e => e.checkAndTriggerStops X fuel ts rounds := by
  conv_lhs => unfold checkAndTriggerStops
  refine (if_pos hdue).trans ?_
  split
  next hnone => simp [hnext] at hnone
  next hr => simp at hr
  next stop' r hnext' hr =>
    obtain rfl : rounds = r := by simpa using hr
    obtain rfl : stop = stop' := Option.some.inj (hnext.symm.trans hnext')
    rfl

/-- With a round for each waiting stop the cascade comes to its end, unless a level pass has more
results than the fill buffer has room for. -/
theorem checkAndTriggerStops_rounds (hX : X.Resolves) (ts : Int) (fuel rounds : Nat)
    (hs : World.Sound X True ⟨e, none⟩) (hfuel : World.load ⟨e, none⟩ < fuel)
    (hrounds : e.waitingStops.length ≤ rounds) :
    (∃ stops e', e.checkAndTriggerStops X fuel ts rounds = .ok e' ∧
      Cascade X fuel ts e stops e' ∧ e.waitingStops.Perm (stops ++ e'.waitingStops)) ∨
    ∃ e', e.checkAndTriggerStops X fuel ts rounds = .error (.fillBuffer, e') := by
  have hdone : ∀ {e : Engine D} (r : Nat), World.Sound X True ⟨e, none⟩ → ¬e.hasDueStops →
      ∃ stops e', e.checkAndTriggerStops X fuel ts r = .ok e' ∧ Cascade X fuel ts e stops e' ∧
        e.waitingStops.Perm (stops ++ e'.waitingStops) := by
    intro e r hs hdue
    have hmissed := mt (hasDueStops_iff (inTurn_of_sound (hs.holds_none rfl))).mpr hdue
    exact ⟨[], e, checkAndTriggerStops_eq hdue fuel r ts, .done hmissed, Perm.refl _⟩
  induction rounds generalizing e with
  | zero =>
    refine .inl (hdone 0 hs fun hdue => ?_)
    -- a stop that is due is waiting
    have hH := hs.holds_none rfl
    obtain ⟨stop, hnext⟩ := Option.ne_none_iff_exists'.mp (nextTriggeredStop_isSome hH hdue)
    have hperm := removeStop_waitingStops hH (nextTriggeredStop_waits hH hnext)
    have hlen := hperm.length_eq
    simp only [List.length_cons] at hlen
    omega
  | succ rounds ih =>
    by_cases hdue : e.hasDueStops
    swap
    · exact .inl (hdone _ hs hdue)
    have hH := hs.holds_none rfl
    obtain ⟨stop, hnext⟩ := Option.ne_none_iff_exists'.mp (nextTriggeredStop_isSome hH hdue)
    obtain ⟨hs', hload⟩ := trigger_load hs hdue.1 hnext
    rw [checkAndTriggerStops_succ hdue hnext]
    cases hm : (e.removeStop stop).matchOrder X fuel stop.triggered ts with
    | error err =>
      obtain ⟨fault, e₁⟩ := err
      have hfin := matchOrder_finishes hX ts fuel hs' stop.triggered_type (by omega)
      have hexp := matchOrder_run (c := False) (fun m hm => hm) fuel ts hs' False.elim False.elim
        stop.triggered_type
      rw [hm] at hfin hexp
      refine .inr ⟨e₁, ?_⟩
      cases fault with
      | fillBuffer => rfl
      | outOfFuel => exact hfin.elim
      | dangling | foreignLevel => exact hexp.1.elim
    | ok e₁ =>
      obtain ⟨hs₁, hlt, hperm⟩ := convert_sound hs hdue hnext hm
      have hlen := hperm.length_eq
      simp only [List.length_cons] at hlen
      rcases ih hs₁ (by omega) (by omega) with ⟨stops, e', hok, hcascade, hrest⟩ | hover
      · refine .inl ⟨stop :: stops, e', hok, ?_, hperm.trans (hrest.cons stop)⟩
        exact .convert (nextTriggeredStop_selects (inTurn_of_sound hH) hdue.1 hnext) hm hcascade
      · exact .inr hover

theorem waitingStops_nodup (hH : e.holdings.Sound X w extra) :
    (e.waitingStops.map (·.id)).Nodup := by
  have hids := (List.nodup_append.mp hH.owns.nodup).2.1
  have hstops := (List.nodup_append.mp hids).2.1
  rw [waitingStops, map_append]
  exact hstops

theorem Cascade.ends {stops : List Order} (h : Cascade X fuel ts e stops e') : ¬e'.Missed := by
  induction h with
  | done hm => exact hm
  | convert _ _ _ ih => exact ih

end rounds

/-- The whole cascade. It converts at most as many stops as were waiting, none of them twice, each
in its turn, and none that is left waiting then has its trigger reached. The last part holds
wherever the levels stay within the fill buffer: no more orders belong to a price than a level pass
can write results for. -/
theorem checkAndTriggerStops_cascade (hX : ∀ d, (X.getSmpAction d).cancels = true) {p : Policy}
    (halgo : X.algo = p.algo) {e : Engine D} (hs : World.Sound X True ⟨e, none⟩) (ts : Int)
    {fuel rounds : Nat} (hfuel : World.load ⟨e, none⟩ < fuel)
    (hrounds : e.waitingStops.length ≤ rounds) :
    let Ends := ∃ stops e', e.checkAndTriggerStops X fuel ts rounds = .ok e' ∧
      Cascade X fuel ts e stops e' ∧ stops.length ≤ e.waitingStops.length ∧
      (stops.map (·.id)).Nodup ∧ stops ⊆ e.waitingStops ∧ ¬e'.Missed
    (Ends ∨ ∃ e', e.checkAndTriggerStops X fuel ts rounds = .error (.fillBuffer, e')) ∧
    ∀ k : Nat, k + p.spare ≤ kMaxFills → World.Uncrowded (D := D) k ⟨e, none⟩ → Ends := by
  intro Ends
  have hresolves : X.Resolves := fun d _ _ _ _ => hX d
  have hcases : Ends ∨
      ∃ e', e.checkAndTriggerStops X fuel ts rounds = .error (.fillBuffer, e') := by
    refine (checkAndTriggerStops_rounds hresolves ts fuel rounds hs hfuel hrounds).imp_left ?_
    rintro ⟨stops, e', hok, hcascade, hperm⟩
    have hnodup := (hperm.map (·.id)).nodup_iff.mp (waitingStops_nodup (hs.holds_none rfl))
    rw [map_append] at hnodup
    refine ⟨stops, e', hok, hcascade, ?_, (List.nodup_append.mp hnodup).1, ?_, hcascade.ends⟩
    · have hlen := hperm.length_eq
      rw [length_append] at hlen
      omega
    · exact fun o ho => hperm.mem_iff.mpr (mem_append_left _ ho)
  refine ⟨hcases, fun k hk hu => hcases.resolve_right ?_⟩
  rintro ⟨e', hover⟩
  have hwrites : X.algo.Writes p.spare := halgo ▸ p.algo_writes
  exact inBuffer_checkAndTriggerStops hwrites (by exact_mod_cast hk) ts fuel rounds hs hu e' hover

def dueStopActions : List Action :=
  tradedActions ++ [.newOrder (limitRequest .sell 108 6),
    .newOrder { limitRequest .buy 0 5 with type := .stop, stopPrice := 103 },
    .newOrder { limitRequest .buy 0 5 with type := .stop, stopPrice := 100 }]

theorem checkAndTriggerStops_cascade_sample :
    let e := runAll sampleExchange dueStopActions (sampleStart sampleExchange sampleConfig ())
    e.waitingStops.map (·.id) = [5, 4] ∧
      ∃ stops e', e.checkAndTriggerStops sampleExchange 20 9 2 = .ok e' ∧
        Cascade sampleExchange 20 9 e stops e' ∧ stops.length ≤ 2 ∧ ¬e'.Missed := by
  intro e
  have hs : World.Sound sampleExchange True ⟨e, none⟩ :=
    sampleRun_sound (by simp [dueStopActions, tradedActions, Admits]) (by decide +kernel)
  have hfuel : World.load ⟨e, none⟩ < 20 := by decide +kernel
  have hrounds : e.waitingStops.length ≤ 2 := by decide +kernel
  obtain ⟨stops, e', hok, hcascade, hlen, -, -, hends⟩ :=
    (checkAndTriggerStops_cascade (p := .fifo) (fun _ => rfl) rfl hs 9 hfuel hrounds).2 256
      (by decide) (.of_count hs (by decide +kernel))
  exact ⟨by decide +kernel, stops, e', hok, hcascade, hlen.trans (by decide +kernel), hends⟩

end ExchangeSim
