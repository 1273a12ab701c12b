import ExchangeSim.Steps

/-!
Price-time priority: an incoming quantity is traded against queues of resting quantities, best
price first and oldest first. A resting entry may have more behind what it shows.
-/

namespace ExchangeSim.PriceTime

structure Resting where
  id : Nat
  visible : Int
  hidden : Int
  display : Int
  deriving DecidableEq, Repr

abbrev Queue := Int × List Resting

structure State where
  quantity : Int
  side : List Queue
  deriving DecidableEq, Repr

structure Fill where
  id : Nat
  price : Int
  quantity : Int
  deriving DecidableEq, Repr

/-- What an entry shows after all it showed was traded. -/
def Resting.next (r : Resting) : Option Resting :=
  if 0 < r.hidden then
    some { r with
      visible := min r.display r.hidden
      hidden := r.hidden - min r.display r.hidden }
  else none

/-- A price is there as long as somebody queues at it. -/
def withQueue (p : Int) (rs : List Resting) (deeper : List Queue) : List Queue :=
  if rs.isEmpty then deeper else (p, rs) :: deeper

/-- The side after the oldest entry of the best price traded `t`. -/
def afterFill (p : Int) (r : Resting) (rs : List Resting) (deeper : List Queue) (t : Int) :
    List Queue :=
  if t = r.visible then withQueue p (rs ++ r.next.toList) deeper
  else (p, { r with visible := r.visible - t } :: rs) :: deeper

/-- The oldest entry of the best price trades, if the limit allows that price. -/
def step (allows : Int → Bool) (s : State) : Option (Fill × State) :=
  match s.side with
  | (p, r :: rs) :: deeper =>
    if 0 < s.quantity ∧ allows p = true then
      let t := min s.quantity r.visible
      some (⟨r.id, p, t⟩, ⟨s.quantity - t, afterFill p r rs deeper t⟩)
    else none
  | _ => none

variable {allows : Int → Bool} {s t : State} {fs : List Fill}

theorem step_quantity {f : Fill} (h : step allows s = some (f, t)) :
    f.quantity ≤ s.quantity ∧ t.quantity = s.quantity - f.quantity := by
  unfold step at h
  split at h
  · split at h
    · obtain ⟨rfl, rfl⟩ := Prod.mk.inj (Option.some.inj h)
      exact ⟨min_le_left _ _, rfl⟩
    · simp at h
  · simp at h

theorem length_le_of_steps (h : Steps (step allows) s fs t) (hpos : ∀ f ∈ fs, 0 < f.quantity) :
    fs.length ≤ s.quantity.toNat := by
  induction h with
  | refl => simp
  | @cons s t u x xs hs _ ih =>
    obtain ⟨hle, hq⟩ := step_quantity hs
    have hx := hpos x (by simp)
    have := ih fun f hf => hpos f (by simp [hf])
    simp only [List.length_cons]
    omega

/-- The trades of an incoming quantity and what they leave. -/
def execute (allows : Int → Bool) (quantity : Int) (side : List Queue) : List Fill × State :=
  runSteps (step allows) quantity.toNat ⟨quantity, side⟩

end ExchangeSim.PriceTime
