import Mathlib.Logic.Basic

/-!
Runs of calls that may fail, over any state, any kind of call and any choice `ι` that the
environment makes with a call.
-/

namespace Calls

variable {σ κ ι ε : Type} {run : ι → κ → σ → Except ε σ} {ok ok' : σ → κ → Prop} {s₀ s : σ}

/-- The states reached from `s₀` by calls that meet `ok` in the state they are made in. A call that
fails is no step. -/
inductive Reach (run : ι → κ → σ → Except ε σ) (ok : σ → κ → Prop) (s₀ : σ) : σ → Prop
  | start : Reach run ok s₀ s₀
  | step {s s' : σ} {c : κ} {i : ι} :
    Reach run ok s₀ s → ok s c → run i c s = .ok s' → Reach run ok s₀ s'

/-- What holds at the start and is kept by every call that meets `ok`. -/
theorem Reach.invariant {I : σ → Prop} (h : Reach run ok s₀ s) (h₀ : I s₀)
    (hstep : ∀ i c s s', I s → ok s c → run i c s = .ok s' → I s') : I s := by
  induction h with
  | start => exact h₀
  | step _ hok hrun ih => exact hstep _ _ _ _ ih hok hrun

theorem Reach.mono (h : Reach run ok s₀ s) (hle : ∀ s c, ok s c → ok' s c) :
    Reach run ok' s₀ s := by
  induction h with
  | start => exact .start
  | step _ hok hrun ih => exact .step ih (hle _ _ hok) hrun

/-- A run with its history: the calls that were made, oldest first, and the state they lead to. -/
inductive Trace (run : ι → κ → σ → Except ε σ) (s₀ : σ) : List κ → σ → Prop
  | start : Trace run s₀ [] s₀
  | step {cs : List κ} {s s' : σ} {c : κ} {i : ι} :
    Trace run s₀ cs s → run i c s = .ok s' → Trace run s₀ (cs ++ [c]) s'

theorem Trace.invariant {I : List κ → σ → Prop} {cs : List κ} (h : Trace run s₀ cs s)
    (h₀ : I [] s₀) (hstep : ∀ i cs c s s', I cs s → run i c s = .ok s' → I (cs ++ [c]) s') :
    I cs s := by
  induction h with
  | start => exact h₀
  | step _ hrun ih => exact hstep _ _ _ _ _ ih hrun

def after (f : κ → σ → Except ε σ) : List κ → σ → σ
  | [], s => s
  | c :: rest, s =>
    match f c s with
    | .error _ => s
    | .ok s' => after f rest s'

/-- Every call of the list meets `ok` in the state it is made in, and none fails. -/
def Passes (f : κ → σ → Except ε σ) (ok : σ → κ → Prop) : List κ → σ → Prop
  | [], _ => True
  | c :: rest, s => ok s c ∧
    match f c s with
    | .error _ => False
    | .ok s' => Passes f ok rest s'

instance decidablePasses (f : κ → σ → Except ε σ) (ok : σ → κ → Prop)
    [∀ s c, Decidable (ok s c)] : (cs : List κ) → (s : σ) → Decidable (Passes f ok cs s)
  | [], _ => .isTrue trivial
  | c :: rest, s =>
    have : Decidable (match f c s with
      | .error _ => False
      | .ok s' => Passes f ok rest s') :=
      match f c s with
      | .error _ => .isFalse id
      | .ok s' => decidablePasses f ok rest s'
    inferInstanceAs (Decidable (_ ∧ _))

theorem Reach.after {i : ι} {cs : List κ} (h : Reach run ok s₀ s)
    (hpass : Passes (run i) ok cs s) : Reach run ok s₀ (after (run i) cs s) := by
  induction cs generalizing s with
  | nil => exact h
  | cons c rest ih =>
    obtain ⟨hok, hrest⟩ := hpass
    unfold Calls.after
    split
    next heq => simp [heq] at hrest
    next s' heq =>
      rw [heq] at hrest
      exact ih (h.step hok heq) hrest

theorem Trace.after {i : ι} {cs : List κ} {before : List κ} (h : Trace run s₀ before s)
    (hpass : Passes (run i) (fun _ _ => True) cs s) :
    Trace run s₀ (before ++ cs) (Calls.after (run i) cs s) := by
  induction cs generalizing before s with
  | nil => simpa [Calls.after] using h
  | cons c rest ih =>
    obtain ⟨-, hrest⟩ := hpass
    unfold Calls.after
    split
    next heq => simp [heq] at hrest
    next s' heq =>
      rw [heq] at hrest
      have := ih (h.step heq) hrest
      rwa [List.append_assoc] at this

end Calls
