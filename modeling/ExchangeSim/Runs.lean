import Mathlib.Tactic

namespace ExchangeSim

variable {σ μ : Type}

structure Machine (σ μ : Type) where
  run : μ → σ → σ
  guard : μ → σ → Prop

/-- The states reached from `s` by moves that meet `P` where they are made. -/
inductive Machine.Run (M : Machine σ μ) (P : μ → σ → Prop) (s : σ) : σ → Prop
  | refl : Machine.Run M P s s
  | tail {t : σ} (m : μ) : Machine.Run M P s t → M.guard m t → P m t →
      Machine.Run M P s (M.run m t)

namespace Machine.Run

variable {M : Machine σ μ} {P Q : μ → σ → Prop} {s t u : σ}

theorem single {m : μ} (hg : M.guard m s) (hp : P m s) : M.Run P s (M.run m s) :=
  .tail m .refl hg hp

theorem trans (h : M.Run P s t) (h' : M.Run P t u) : M.Run P s u := by
  induction h' with
  | refl => exact h
  | tail m _ hg hp ih => exact .tail m ih hg hp

theorem head {m : μ} (hg : M.guard m s) (hp : P m s) (h : M.Run P (M.run m s) t) :
    M.Run P s t :=
  (single hg hp).trans h

theorem invariant {I : σ → Prop} (h : M.Run P s t) (hs : I s)
    (step : ∀ m t, I t → M.guard m t → P m t → I (M.run m t)) : I t := by
  induction h with
  | refl => exact hs
  | tail m _ hg hp ih => exact step m _ ih hg hp

theorem strengthen {I : σ → Prop} (h : M.Run P s t) (hs : I s)
    (step : ∀ m t, I t → M.guard m t → P m t → I (M.run m t))
    (imp : ∀ m t, I t → M.guard m t → P m t → Q m t) : M.Run Q s t := by
  have hI : M.Run Q s t ∧ I t := by
    induction h with
    | refl => exact ⟨.refl, hs⟩
    | tail m _ hg hp ih =>
      exact ⟨.tail m ih.1 hg (imp m _ ih.2 hg hp), step m _ ih.2 hg hp⟩
  exact hI.1

theorem mono (h : M.Run P s t) (imp : ∀ m t, M.guard m t → P m t → Q m t) : M.Run Q s t :=
  h.strengthen (I := fun _ => True) trivial (fun _ _ _ _ _ => trivial)
    fun m t _ hg hp => imp m t hg hp

end Machine.Run

end ExchangeSim
