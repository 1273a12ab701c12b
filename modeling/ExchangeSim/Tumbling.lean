import Mathlib.Tactic

/-!
A limiter with tumbling windows, for one client: `M` calls are let through in a window of length
`D`, and the first call after the end of a window starts the next one.
-/

namespace Tumbling

open List

structure Window where
  start : ℤ
  count : ℤ

def call (M D t : ℤ) (w : Window) : Bool × Window :=
  if w.start + D ≤ t then (true, ⟨t, 1⟩)
  else if M ≤ w.count then (false, w)
  else (true, ⟨w.start, w.count + 1⟩)

/-- A call that was answered, with the start of the window it fell in. -/
structure Entry where
  time : ℤ
  accepted : Bool
  window : ℤ

def log (M D : ℤ) : List ℤ → Window → List Entry
  | [], _ => []
  | t :: ts, w =>
    let r := call M D t w
    ⟨t, r.1, r.2.start⟩ :: log M D ts r.2

def admitted (s : ℤ) (es : List Entry) : ℕ :=
  es.countP fun e => e.accepted && decide (e.window = s)

variable {M D t : ℤ} {w : Window} {ts : List ℤ}

theorem call_cases (M D t : ℤ) (w : Window) :
    (w.start + D ≤ t ∧ call M D t w = (true, ⟨t, 1⟩)) ∨
    (t < w.start + D ∧ M ≤ w.count ∧ call M D t w = (false, w)) ∨
    (t < w.start + D ∧ w.count < M ∧ call M D t w = (true, ⟨w.start, w.count + 1⟩)) := by
  unfold call
  split
  next h => exact .inl ⟨h, rfl⟩
  next h =>
    split
    next hfull => exact .inr (.inl ⟨by omega, hfull, rfl⟩)
    next hroom => exact .inr (.inr ⟨by omega, by omega, rfl⟩)

/-- A call leaves the window alone or starts one at least `D` later, and falls in the window it
leaves. -/
theorem call_window (hD : 0 < D) (ht : w.start ≤ t) :
    let w' := (call M D t w).2
    (w'.start = w.start ∨ w.start + D ≤ w'.start) ∧ w'.start ≤ t ∧ t < w'.start + D := by
  rcases call_cases M D t w with ⟨h, hc⟩ | ⟨h, -, hc⟩ | ⟨h, -, hc⟩ <;> rw [hc] <;>
    simp only [true_or, true_and] <;> omega

theorem later (hD : 0 < D) (hsorted : (t :: ts).Pairwise (· ≤ ·))
    (hts : ∀ t' ∈ t :: ts, w.start ≤ t') :
    ts.Pairwise (· ≤ ·) ∧ ∀ t' ∈ ts, (call M D t w).2.start ≤ t' := by
  obtain ⟨hfirst, hsorted⟩ := pairwise_cons.mp hsorted
  obtain ⟨-, hle, -⟩ := call_window (M := M) hD (hts t (by simp))
  exact ⟨hsorted, fun t' ht' => hle.trans (hfirst t' ht')⟩

variable (hD : 0 < D) (hsorted : ts.Pairwise (· ≤ ·)) (hts : ∀ t ∈ ts, w.start ≤ t)

include hD hsorted hts

/-- The windows that come after `w`, when the times do not go back. -/
theorem log_window : ∀ e ∈ log M D ts w, (e.window = w.start ∨ w.start + D ≤ e.window) ∧
      e.window ≤ e.time ∧ e.time < e.window + D := by
  induction ts generalizing w with
  | nil => simp [log]
  | cons t ts ih =>
    obtain ⟨hstart, hle, hlt⟩ := call_window (M := M) hD (hts t (by simp))
    obtain ⟨hsorted, hlater⟩ := later (M := M) hD hsorted hts
    intro e he
    rcases List.mem_cons.mp he with rfl | he
    · exact ⟨hstart, hle, hlt⟩
    · obtain ⟨hw, htime⟩ := ih hsorted hlater e he
      refine ⟨?_, htime⟩
      omega

/-- Two windows of a log are the same or at least `D` apart. -/
theorem log_spaced : (log M D ts w).Pairwise fun e e' => e'.window = e.window ∨ e.window + D ≤ e'.window := by
  induction ts generalizing w with
  | nil => exact .nil
  | cons t ts ih =>
    obtain ⟨hsorted, hlater⟩ := later (M := M) hD hsorted hts
    refine pairwise_cons.mpr ⟨fun e he => ?_, ih hsorted hlater⟩
    exact (log_window hD hsorted hlater e he).1

theorem spaced {e e' : Entry} (he : e ∈ log M D ts w) (he' : e' ∈ log M D ts w) :
    e.window = e'.window ∨ e.window + D ≤ e'.window ∨ e'.window + D ≤ e.window := by
  have hboth : (log M D ts w).Pairwise fun e e' => e.window = e'.window ∨
      e.window + D ≤ e'.window ∨ e'.window + D ≤ e.window :=
    (log_spaced hD hsorted hts).imp fun h => by omega
  rcases mem_iff_getElem.mp he with ⟨i, hi, rfl⟩
  rcases mem_iff_getElem.mp he' with ⟨j, hj, rfl⟩
  have hpair := pairwise_iff_getElem.mp hboth
  rcases lt_trichotomy i j with hij | rfl | hij
  · exact hpair i j hi hj hij
  · exact .inl rfl
  · have := hpair j i hj hi hij
    omega

/-- Of a window, no more than `M` calls are let through; of the one that is open at the start, no
more than are missing. -/
theorem admitted_le (hM : 0 < M) (hcount : w.count ≤ M) (s : ℤ) :
    (admitted s (log M D ts w) : ℤ) ≤ if s = w.start then M - w.count else M := by
  induction ts generalizing w with
  | nil => simp only [log, admitted, countP_nil]; split <;> omega
  | cons t ts ih =>
    obtain ⟨hsorted, hlater⟩ := later (M := M) hD hsorted hts
    rcases call_cases M D t w with ⟨h, hc⟩ | ⟨h, hfull, hc⟩ | ⟨h, hroom, hc⟩
    · -- a new window: nothing more falls in the old one
      simp only [hc] at hlater
      have hnext := ih (w := ⟨t, 1⟩) hsorted hlater (by show 1 ≤ M; omega)
      have hold : s = w.start → admitted s (log M D ts ⟨t, 1⟩) = 0 := by
        rintro rfl
        refine countP_eq_zero.mpr fun e he => ?_
        have hwindow : e.window = t ∨ t + D ≤ e.window := (log_window hD hsorted hlater e he).1
        simp only [Bool.and_eq_true, decide_eq_true_eq, not_and]
        omega
      simp only [log, hc, admitted, countP_cons, Bool.true_and, decide_eq_true_eq] at hnext hold ⊢
      split_ifs at hnext ⊢ <;> omega
    · simp only [hc] at hlater
      have hnext := ih hsorted hlater hcount
      simpa only [log, hc, admitted, countP_cons, Bool.false_and, Bool.false_eq_true, if_false,
        add_zero] using hnext
    · simp only [hc] at hlater
      have hnext := ih (w := ⟨w.start, w.count + 1⟩) hsorted hlater (by show w.count + 1 ≤ M; omega)
      simp only [log, hc, admitted, countP_cons, Bool.true_and, decide_eq_true_eq] at hnext ⊢
      split_ifs at hnext ⊢ <;> omega

theorem full_of_rejected (hcount : 0 ≤ w.count) {pre post : List Entry} {c : Entry}
    (h : log M D ts w = pre ++ c :: post) (hc : c.accepted = false) :
    M ≤ (if c.window = w.start then w.count else 0) + admitted c.window pre := by
  induction ts generalizing w pre with
  | nil => simp [log] at h
  | cons t ts ih =>
    obtain ⟨hsorted, hlater⟩ := later (M := M) hD hsorted hts
    unfold log at h
    cases pre with
    | nil =>
      obtain ⟨rfl, -⟩ := cons.inj h
      rcases call_cases M D t w with ⟨-, hr⟩ | ⟨-, hfull, hr⟩ | ⟨-, -, hr⟩
      · simp [hr] at hc
      · simp only [hr, if_true, admitted, countP_nil]
        omega
      · simp [hr] at hc
    | cons x pre =>
      obtain ⟨rfl, hrest⟩ := cons.inj h
      have hmem : c ∈ log M D ts (call M D t w).2 := by simp [hrest]
      have hwindow := (log_window hD hsorted hlater c hmem).1
      rcases call_cases M D t w with ⟨hnew, hr⟩ | ⟨-, -, hr⟩ | ⟨-, -, hr⟩
      · simp only [hr] at hrest hlater hwindow
        have hfull := ih (w := ⟨t, 1⟩) hsorted hlater (by show (0 : ℤ) ≤ 1; omega) hrest
        simp only [admitted, countP_cons, hr, Bool.true_and, decide_eq_true_eq] at hfull ⊢
        split_ifs at hfull ⊢ <;> omega
      · simp only [hr] at hrest hlater
        have hfull := ih hsorted hlater hcount hrest
        simpa only [admitted, countP_cons, hr, Bool.false_and, Bool.false_eq_true, if_false,
          add_zero] using hfull
      · simp only [hr] at hrest hlater
        have hfull := ih (w := ⟨w.start, w.count + 1⟩) hsorted hlater
          (by show 0 ≤ w.count + 1; omega) hrest
        simp only [admitted, countP_cons, hr, Bool.true_and, decide_eq_true_eq] at hfull ⊢
        split_ifs at hfull ⊢ <;> omega

omit hD hsorted hts in
theorem length_le_of_window {s : ℤ} {es F : List Entry} (hsub : F.Sublist es)
    (hF : ∀ e ∈ F, e.accepted = true ∧ e.window = s) : F.length ≤ admitted s es := by
  have hall : F.countP (fun e => e.accepted && decide (e.window = s)) = F.length :=
    countP_eq_length.mpr fun e he => by simp [hF e he]
  rw [← hall]
  exact hsub.countP_le

/-- An interval of length `D` meets two windows at most. -/
theorem admitted_interval (hM : 0 < M) (hcount : 0 ≤ w.count) (hle : w.count ≤ M) (a : ℤ) :
    (((log M D ts w).filter fun e => e.accepted && decide (a ≤ e.time ∧ e.time < a + D)).length : ℤ) ≤
      2 * M := by
  have hone (F : List Entry) (hsub : F.Sublist (log M D ts w))
      (hacc : ∀ e ∈ F, e.accepted = true) (hsame : ∀ e ∈ F, ∀ e' ∈ F, e.window = e'.window) :
      (F.length : ℤ) ≤ M := by
    cases F with
    | nil => simpa using hM.le
    | cons x F =>
      have hlen := length_le_of_window hsub fun e he => ⟨hacc e he, hsame e he x (by simp)⟩
      have hbound := admitted_le hD hsorted hts hM hle x.window
      split_ifs at hbound <;> omega
  -- the calls of the interval whose window starts by `a`, and those of a later window
  let F := (log M D ts w).filter fun e => e.accepted && decide (a ≤ e.time ∧ e.time < a + D)
  have hin : ∀ e ∈ F, e ∈ log M D ts w ∧ e.accepted = true ∧ a ≤ e.time ∧ e.time < a + D := by
    intro e he
    obtain ⟨hmem, hp⟩ := mem_filter.mp he
    exact ⟨hmem, by simpa using hp⟩
  have hpart : F.length = (F.filter fun e => decide (e.window ≤ a)).length +
      (F.filter fun e => !decide (e.window ≤ a)).length := length_eq_length_filter_add _
  have hearly := hone (F.filter fun e => decide (e.window ≤ a))
    (filter_sublist.trans filter_sublist)
    (fun e he => (hin e (mem_of_mem_filter he)).2.1) fun e he e' he' => by
      obtain ⟨he, hw⟩ := mem_filter.mp he
      obtain ⟨he', hw'⟩ := mem_filter.mp he'
      obtain ⟨hl, -, hlow, -⟩ := hin e he
      obtain ⟨hl', -, hlow', -⟩ := hin e' he'
      have hend := (log_window hD hsorted hts e hl).2
      have hend' := (log_window hD hsorted hts e' hl').2
      have hspace := spaced hD hsorted hts hl hl'
      simp only [decide_eq_true_eq] at hw hw'
      omega
  have hlate := hone (F.filter fun e => !decide (e.window ≤ a))
    (filter_sublist.trans filter_sublist)
    (fun e he => (hin e (mem_of_mem_filter he)).2.1) fun e he e' he' => by
      obtain ⟨he, hw⟩ := mem_filter.mp he
      obtain ⟨he', hw'⟩ := mem_filter.mp he'
      obtain ⟨hl, -, -, hhigh⟩ := hin e he
      obtain ⟨hl', -, -, hhigh'⟩ := hin e' he'
      have hend := (log_window hD hsorted hts e hl).2
      have hend' := (log_window hD hsorted hts e' hl').2
      have hspace := spaced hD hsorted hts hl hl'
      simp only [Bool.not_eq_true', decide_eq_false_iff_not] at hw hw'
      omega
  change (F.length : ℤ) ≤ 2 * M
  omega

end Tumbling
