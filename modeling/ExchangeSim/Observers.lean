import ExchangeSim.Lists

namespace ExchangeSim

open List

structure Observer (ε σ : Type) where
  start : σ
  see : σ → ε → σ

namespace Observer

variable {ε σ : Type} {O : Observer ε σ}

def state (O : Observer ε σ) (h : List ε) : σ :=
  h.foldl O.see O.start

theorem state_append (h h' : List ε) : O.state (h ++ h') = h'.foldl O.see (O.state h) :=
  foldl_append

@[simp] theorem state_concat (h : List ε) (x : ε) : O.state (h ++ [x]) = O.see (O.state h) x := by
  simp [state_append]

theorem foldl_eq_self {entries : List ε} (h : ∀ x ∈ entries, ∀ s, O.see s x = s) (s : σ) :
    entries.foldl O.see s = s := by
  induction entries generalizing s with
  | nil => rfl
  | cons x rest ih =>
    rw [foldl_cons, h x (by simp)]
    exact ih (fun y hy => h y (by simp [hy])) s

/-- Entries outside `p` tell the observer nothing. -/
def Heeds (O : Observer ε σ) (p : ε → Bool) : Prop :=
  ∀ s x, p x = false → O.see s x = s

theorem Heeds.state_filter {p : ε → Bool} (hp : O.Heeds p) (h : List ε) :
    O.state (h.filter p) = O.state h := by
  induction h using reverseRecOn with
  | nil => rfl
  | append_singleton h x ih =>
    rw [filter_append, state_concat]
    by_cases hx : p x = true
    · simp [hx, ih]
    · have hx : p x = false := by simpa using hx
      simp [hx, ih, hp _ x hx]

theorem Heeds.along_filter {p : ε → Bool} (hp : O.Heeds p) (check : σ → ε → Prop)
    (hpass : ∀ s x, p x = false → check s x) (h : List ε) :
    Along (fun pre x => check (O.state pre) x) (h.filter p) ↔
      Along (fun pre x => check (O.state pre) x) h := by
  induction h using reverseRecOn with
  | nil => rfl
  | append_singleton h x ih =>
    rw [filter_append, along_concat]
    by_cases hx : p x = true
    · have hfx : [x].filter p = [x] := by simp [hx]
      rw [hfx, along_concat, ih, hp.state_filter]
    · have hx : p x = false := by simpa using hx
      have hfx : [x].filter p = [] := by simp [hx]
      rw [hfx, append_nil, ih]
      exact ⟨fun h => ⟨h, hpass _ x hx⟩, And.left⟩

def Always (O : Observer ε σ) (Q : σ → Prop) (h : List ε) : Prop :=
  ∀ pre, pre <+: h → Q (O.state pre)

variable {Q : σ → Prop}

theorem always_nil (hQ : Q O.start) : O.Always Q [] := by
  intro pre hpre
  rw [prefix_nil.mp hpre]
  exact hQ

theorem Always.concat {h : List ε} (hh : O.Always Q h) {x : ε} (hx : Q (O.see (O.state h) x)) :
    O.Always Q (h ++ [x]) := by
  intro pre hpre
  rcases prefix_concat_iff.mp hpre with rfl | hpre
  · rw [state_concat]
    exact hx
  · exact hh pre hpre

theorem Always.now {h : List ε} (hh : O.Always Q h) : Q (O.state h) :=
  hh h prefix_rfl

theorem Heeds.always {p : ε → Bool} (hp : O.Heeds p) {h : List ε}
    (hh : O.Always Q (h.filter p)) : O.Always Q h := by
  intro pre hpre
  rw [← hp.state_filter]
  exact hh _ (hpre.filter p)

end Observer

def Agree {ι α β : Type} (R : α → β → Prop) (f : ι → α) (g : ι → β) : Prop :=
  ∀ i, R (f i) (g i)

namespace Agree

variable {ι α β : Type} [DecidableEq ι] {R : α → β → Prop} {f : ι → α} {g : ι → β}

theorem update (h : Agree R f g) (i : ι) {a : α} {b : β} (hab : R a b) :
    Agree R (Function.update f i a) (Function.update g i b) := by
  intro j
  by_cases hj : j = i
  · subst hj
    simpa using hab
  · simpa [hj] using h j

theorem update_right (h : Agree R f g) (i : ι) {b : β} (hab : R (f i) b) :
    Agree R f (Function.update g i b) := by
  simpa using h.update i hab

end Agree

end ExchangeSim
