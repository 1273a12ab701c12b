import Mathlib.Tactic

namespace ExchangeSim

variable {σ ε : Type} {step : σ → Option (ε × σ)} {s t u : σ} {xs ys : List ε}

/-- A sequence of steps of a deterministic machine, with what it reports. -/
inductive Steps (step : σ → Option (ε × σ)) : σ → List ε → σ → Prop
  | refl {s : σ} : Steps step s [] s
  | cons {s t u : σ} {x : ε} {xs : List ε} : step s = some (x, t) → Steps step t xs u →
      Steps step s (x :: xs) u

namespace Steps

theorem trans (h : Steps step s xs t) (h' : Steps step t ys u) : Steps step s (xs ++ ys) u := by
  induction h with
  | refl => exact h'
  | cons hs _ ih => exact .cons hs (ih h')

end Steps

/-- At most `n` steps: the reports and the last state. -/
def runSteps (step : σ → Option (ε × σ)) : Nat → σ → List ε × σ
  | 0, s => ([], s)
  | n + 1, s =>
    match step s with
    | none => ([], s)
    | some (x, t) =>
      let r := runSteps step n t
      (x :: r.1, r.2)

theorem runSteps_stop (h : step s = none) (n : Nat) : runSteps step n s = ([], s) := by
  cases n with
  | zero => rfl
  | succ n => simp [runSteps, h]

theorem Steps.runSteps_eq (h : Steps step s xs t) (hstop : step t = none) {n : Nat}
    (hn : xs.length ≤ n) : runSteps step n s = (xs, t) := by
  induction h generalizing n with
  | refl => exact runSteps_stop hstop n
  | @cons s t u x xs hs _ ih =>
    cases n with
    | zero => simp at hn
    | succ n =>
      have hr := ih hstop (by simpa using hn)
      simp [runSteps, hs, hr]

end ExchangeSim
