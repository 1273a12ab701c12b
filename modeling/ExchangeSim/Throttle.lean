import ExchangeSim.Stores
import ExchangeSim.Tumbling

/-! The message throttle: for each account a limiter with tumbling windows. -/

namespace ExchangeSim

open List

/-- A call of `check_and_increment` with its answer and the start of the account's window after
it. -/
structure RateAnswer where
  account : Nat
  ts : Int
  accepted : Bool
  window : Int
  deriving DecidableEq, Repr

def RateTracker.answers (maxAccounts : Nat) : List (Nat × Int) → RateTracker → List RateAnswer
  | [], _ => []
  | (account, ts) :: rest, t =>
    let r := t.checkAndIncrement maxAccounts account ts
    ⟨account, ts, r.1, r.2.windowStart account⟩ :: RateTracker.answers maxAccounts rest r.2

def RateTracker.window (t : RateTracker) (account : Nat) : Tumbling.Window :=
  ⟨t.windowStart account, t.count account⟩

def RateAnswer.entry (r : RateAnswer) : Tumbling.Entry :=
  ⟨r.ts, r.accepted, r.window⟩

def timesOf (account : Nat) (calls : List (Nat × Int)) : List Int :=
  (calls.filter fun c => decide (c.1 = account)).map (·.2)

section tracker

variable {maxAccounts account : Nat} {t t' : RateTracker}

@[simp] theorem window_start : (t.window account).start = t.windowStart account := rfl

@[simp] theorem window_count : (t.window account).count = t.count account := rfl

theorem config_checkAndIncrement (t : RateTracker) (maxAccounts account : Nat) (ts : Int) :
    (t.checkAndIncrement maxAccounts account ts).2.config = t.config := by
  unfold RateTracker.checkAndIncrement
  split_ifs <;> rfl

theorem window_checkAndIncrement_of_ne (t : RateTracker) (maxAccounts : Nat) {other : Nat}
    (hne : account ≠ other) (ts : Int) :
    (t.checkAndIncrement maxAccounts other ts).2.window account = t.window account := by
  unfold RateTracker.checkAndIncrement
  split_ifs <;> simp [RateTracker.window, hne]

theorem checkAndIncrement_eq_call (hM : 0 < t.config.maxMessagesPerInterval)
    (hD : 0 < t.config.intervalNs) (hpos : 0 < account) (hlt : account < maxAccounts) (ts : Int) :
    let r := t.checkAndIncrement maxAccounts account ts
    Tumbling.call t.config.maxMessagesPerInterval t.config.intervalNs ts (t.window account) =
      (r.1, r.2.window account) := by
  have henabled : ¬(t.config.maxMessagesPerInterval ≤ 0 ∨ t.config.intervalNs ≤ 0) := by omega
  have hzero : account ≠ 0 := by omega
  have hrange : ¬account ≥ maxAccounts := by omega
  unfold RateTracker.checkAndIncrement Tumbling.call
  by_cases hend : t.windowStart account + t.config.intervalNs ≤ ts
  · simp [henabled, hzero, hrange, hend, RateTracker.window]
  · by_cases hfull : t.config.maxMessagesPerInterval ≤ t.count account
    · simp [henabled, hzero, hrange, hend, hfull, RateTracker.window]
    · simp [henabled, hzero, hrange, hend, hfull, RateTracker.window]

theorem answers_entries (hM : 0 < t.config.maxMessagesPerInterval) (hD : 0 < t.config.intervalNs)
    (hpos : 0 < account) (hlt : account < maxAccounts) (calls : List (Nat × Int)) :
    ((t.answers maxAccounts calls).filter fun r => decide (r.account = account)).map
        RateAnswer.entry =
      Tumbling.log t.config.maxMessagesPerInterval t.config.intervalNs (timesOf account calls)
        (t.window account) := by
  induction calls generalizing t with
  | nil => rfl
  | cons c calls ih =>
    obtain ⟨other, ts⟩ := c
    have hconfig := config_checkAndIncrement t maxAccounts other ts
    have hrest := ih (by rwa [hconfig])
      (by rwa [hconfig])
    rw [hconfig] at hrest
    by_cases he : other = account
    · subst he
      have hcall := checkAndIncrement_eq_call hM hD hpos hlt ts
      simp only [RateTracker.answers, timesOf, filter_cons, decide_true, if_true, List.map_cons,
        Tumbling.log, hcall, hrest]
      rfl
    · rw [window_checkAndIncrement_of_ne t maxAccounts (Ne.symm he)] at hrest
      simpa [RateTracker.answers, timesOf, filter_cons, he] using hrest

theorem answers_filter (hM : 0 < t.config.maxMessagesPerInterval) (hD : 0 < t.config.intervalNs)
    (hpos : 0 < account) (hlt : account < maxAccounts) (hconfig : t'.config = t.config)
    (hwindow : t'.window account = t.window account) (calls : List (Nat × Int)) :
    (t.answers maxAccounts calls).filter (fun r => decide (r.account = account)) =
      t'.answers maxAccounts (calls.filter fun c => decide (c.1 = account)) := by
  induction calls generalizing t t' with
  | nil => rfl
  | cons c calls ih =>
    obtain ⟨other, ts⟩ := c
    have hkeep := config_checkAndIncrement t maxAccounts other ts
    have hkeep' := config_checkAndIncrement t' maxAccounts other ts
    by_cases he : other = account
    · subst he
      have hcall := checkAndIncrement_eq_call hM hD hpos hlt ts
      have hcall' := checkAndIncrement_eq_call (hconfig ▸ hM) (hconfig ▸ hD) hpos hlt ts
      rw [hconfig, hwindow, hcall] at hcall'
      obtain ⟨hanswer, hnext⟩ := Prod.mk.inj hcall'
      have hstart := congrArg Tumbling.Window.start hnext
      have hrest := @ih (t.checkAndIncrement maxAccounts other ts).2
        (t'.checkAndIncrement maxAccounts other ts).2 (by rwa [hkeep]) (by rwa [hkeep])
        (by rw [hkeep, hkeep', hconfig]) hnext.symm
      simp only [window_start] at hstart
      simp [RateTracker.answers, hrest, hanswer, hstart]
    · have hrest := @ih (t.checkAndIncrement maxAccounts other ts).2 t'
        (by rwa [hkeep]) (by rwa [hkeep]) (by rw [hkeep, hconfig])
        (by rw [window_checkAndIncrement_of_ne t maxAccounts (Ne.symm he), hwindow])
      simpa [RateTracker.answers, filter_cons, he] using hrest

theorem answers_times (calls : List (Nat × Int)) :
    (t.answers maxAccounts calls).map (·.ts) = calls.map (·.2) := by
  induction calls generalizing t with
  | nil => rfl
  | cons c calls ih => simp [RateTracker.answers, ih]

end tracker

/-- The answers to one account, along calls whose times do not go back: at most `M` are accepted
in a window and `2 * M` in an interval of the window's length, a call is refused only after `M`
accepted ones in the `D` time units before it, and no other account has a say. -/
theorem throttle_bounded (maxAccounts : Nat) (config : ThrottleConfig)
    (hM : 0 < config.maxMessagesPerInterval) (hD : 0 < config.intervalNs)
    (calls : List (Nat × Int)) (hsorted : (calls.map (·.2)).Pairwise (· ≤ ·))
    (hnonneg : ∀ c ∈ calls, 0 ≤ c.2) (account : Nat) (hpos : 0 < account)
    (hlt : account < maxAccounts) :
    let tracker : RateTracker := { config := config }
    let log := tracker.answers maxAccounts calls
    let own := log.filter fun r => decide (r.account = account)
    (∀ a : Int, ((own.filter fun r => r.accepted &&
      decide (a ≤ r.ts ∧ r.ts < a + config.intervalNs)).length : Int) ≤
        2 * config.maxMessagesPerInterval) ∧
    (∀ s : Int, ((own.filter fun r => r.accepted && decide (r.window = s)).length : Int) ≤
      config.maxMessagesPerInterval) ∧
    (∀ before c after, log = before ++ c :: after → c.account = account → c.accepted = false →
      config.maxMessagesPerInterval ≤ ((before.filter fun r => decide (r.account = account) &&
        (r.accepted && decide (c.ts - config.intervalNs < r.ts ∧ r.ts ≤ c.ts))).length : Int)) ∧
    own = tracker.answers maxAccounts (calls.filter fun c => decide (c.1 = account)) := by
  intro tracker log own
  have hentries : own.map RateAnswer.entry = Tumbling.log config.maxMessagesPerInterval
      config.intervalNs (timesOf account calls) ⟨0, 0⟩ := answers_entries hM hD hpos hlt calls
  have htimes : (timesOf account calls).Pairwise (· ≤ ·) :=
    hsorted.sublist (filter_sublist.map _)
  have hstart : ∀ ts ∈ timesOf account calls, 0 ≤ ts := by
    intro ts hts
    obtain ⟨c, hc, rfl⟩ := mem_map.mp hts
    exact hnonneg c (mem_of_mem_filter hc)
  refine ⟨fun a => ?_, fun s => ?_, fun before c after hsplit hacc hrej => ?_,
    answers_filter hM hD hpos hlt rfl rfl calls⟩
  · have hbound := Tumbling.admitted_interval (w := ⟨0, 0⟩) hD htimes hstart hM le_rfl hM.le a
    rw [← hentries, filter_map, length_map] at hbound
    exact hbound
  · have hbound := Tumbling.admitted_le (w := ⟨0, 0⟩) hD htimes hstart hM hM.le s
    rw [← hentries, Tumbling.admitted, countP_map, countP_eq_length_filter] at hbound
    refine le_trans hbound ?_
    split
    · exact (sub_zero _).le
    · exact le_rfl
  · -- the calls before it that fell in its window are those that filled it
    have hown : own = before.filter (fun r => decide (r.account = account)) ++ c ::
        after.filter (fun r => decide (r.account = account)) := by
      simp [own, hsplit, hacc]
    rw [hown, map_append, List.map_cons] at hentries
    have hfull := Tumbling.full_of_rejected hD htimes hstart le_rfl hentries.symm hrej
    have hwindow := Tumbling.log_window (w := ⟨0, 0⟩) (M := config.maxMessagesPerInterval) hD htimes
      hstart
    have hordered : (log.map (·.ts)).Pairwise (· ≤ ·) := by rwa [answers_times]
    rw [hsplit, map_append, List.map_cons] at hordered
    have hbefore : ∀ r ∈ before, r.ts ≤ c.ts := fun r hr =>
      (pairwise_append.mp hordered).2.2 _ (mem_map_of_mem hr) _ (by simp)
    have hc := (hwindow c.entry (by rw [← hentries]; simp)).2
    have hcount : Tumbling.admitted c.window
        ((before.filter fun r => decide (r.account = account)).map RateAnswer.entry) ≤
        (before.filter fun r => decide (r.account = account) && (r.accepted &&
          decide (c.ts - config.intervalNs < r.ts ∧ r.ts ≤ c.ts))).length := by
      rw [Tumbling.admitted, countP_map, countP_filter, ← countP_eq_length_filter]
      refine countP_mono_left fun r hr hin => ?_
      simp only [Function.comp_apply, Bool.and_eq_true, decide_eq_true_eq] at hin ⊢
      obtain ⟨⟨hok, hsame⟩, hracc⟩ := hin
      have hmem : r.entry ∈ Tumbling.log config.maxMessagesPerInterval config.intervalNs
          (timesOf account calls) ⟨0, 0⟩ := by
        rw [← hentries]
        refine mem_append_left _ (mem_map_of_mem (mem_filter.mpr ⟨hr, ?_⟩))
        simpa using hracc
      have hr' := (hwindow r.entry hmem).2
      have hle := hbefore r hr
      simp only [RateAnswer.entry] at hsame hr' hc
      exact ⟨hracc, hok, by omega, hle⟩
    have hempty : (if c.entry.window = 0 then (0 : Int) else 0) = 0 := by split <;> rfl
    simp only [hempty, zero_add] at hfull
    exact hfull.trans (by exact_mod_cast hcount)

/-- Two messages every ten: of five calls of account 1, the third is refused, and the fifth, which
starts the next window, is not. -/
theorem throttle_bounded_sample :
    let config : ThrottleConfig := { maxMessagesPerInterval := 2, intervalNs := 10 }
    let calls : List (Nat × Int) := [(1, 0), (2, 3), (1, 8), (1, 9), (1, 12)]
    let own := (({ config := config } : RateTracker).answers 4 calls).filter
      fun r => decide (r.account = 1)
    own.map (·.accepted) = [true, true, false, true] ∧
      ((own.filter fun r => r.accepted && decide (8 ≤ r.ts ∧ r.ts < 18)).length : Int) ≤ 4 :=
  ⟨by decide, (throttle_bounded 4 ⟨2, 10⟩ (by decide) (by decide)
    [(1, 0), (2, 3), (1, 8), (1, 9), (1, 12)] (by decide) (by decide) 1 (by decide)
    (by decide)).1 8⟩

end ExchangeSim
