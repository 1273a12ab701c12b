import ExchangeSim.PriceTime

/-!
Price-time priority for a party that must not trade with itself, up to the first of its own
entries. `own` tells these.
-/

namespace ExchangeSim.PriceTime

/-- What becomes of the oldest entry of the best price. -/
inductive Touch
  | trade (fill : Fill)
  | strike (id : Nat)
  deriving DecidableEq, Repr

def Touch.fill? : Touch → Option Fill
  | .trade f => some f
  | .strike _ => none

/-- The entry whose turn it is to trade, while there is something to trade with it. -/
def turn (allows : Int → Bool) (s : State) : Option Resting :=
  match s.side with
  | (p, r :: _) :: _ => if 0 < s.quantity ∧ allows p = true then some r else none
  | _ => none

def meetsOwn (own : Nat → Bool) (allows : Int → Bool) (s : State) : Bool :=
  (turn allows s).any fun r => own r.id

def stepUpTo (own : Nat → Bool) (allows : Int → Bool) (s : State) : Option (Fill × State) :=
  if meetsOwn own allows s then none else step allows s

variable {own : Nat → Bool} {allows : Int → Bool} {s t : State} {r : Resting} {p : Int}
  {rs : List Resting} {deeper : List Queue} {x : Touch} {f : Fill}

theorem turn_eq_some : turn allows s = some r ↔
    ∃ p rs deeper, s.side = (p, r :: rs) :: deeper ∧ 0 < s.quantity ∧ allows p = true := by
  unfold turn
  split
  next p r' rs deeper hside =>
    rw [hside]
    by_cases hgo : 0 < s.quantity ∧ allows p = true
    · rw [if_pos hgo]
      constructor
      · rintro ⟨rfl⟩
        exact ⟨p, rs, deeper, rfl, hgo⟩
      · rintro ⟨_, _, _, heq, -⟩
        simp only [List.cons.injEq, Prod.mk.injEq] at heq
        rw [heq.1.2.1]
    · rw [if_neg hgo]
      refine ⟨fun h => by simp at h, ?_⟩
      rintro ⟨p', _, _, heq, hyes⟩
      simp only [List.cons.injEq, Prod.mk.injEq] at heq
      exact absurd (heq.1.1 ▸ hyes) hgo
  next hnone =>
    refine ⟨fun h => by simp at h, ?_⟩
    rintro ⟨p, rs, deeper, hside, -⟩
    exact absurd hside (hnone p r rs deeper)

theorem step_of_side (hside : s.side = (p, r :: rs) :: deeper) (hq : 0 < s.quantity)
    (hp : allows p = true) :
    step allows s = some (⟨r.id, p, min s.quantity r.visible⟩,
      ⟨s.quantity - min s.quantity r.visible,
        afterFill p r rs deeper (min s.quantity r.visible)⟩) := by
  simp only [step, hside, hq, hp, and_self, if_true]

theorem step_eq_none_iff : step allows s = none ↔ turn allows s = none := by
  constructor
  · intro h
    by_contra hturn
    obtain ⟨r, hr⟩ := Option.ne_none_iff_exists'.mp hturn
    obtain ⟨p, rs, deeper, hside, hq, hp⟩ := turn_eq_some.mp hr
    simp [step_of_side hside hq hp] at h
  · intro h
    by_contra hstep
    obtain ⟨⟨f, t⟩, ht⟩ := Option.ne_none_iff_exists'.mp hstep
    unfold step at ht
    split at ht
    next p r rs deeper hside =>
      split at ht
      next hgo =>
        have hturn : turn allows s = some r := turn_eq_some.mpr ⟨p, rs, deeper, hside, hgo⟩
        simp [h] at hturn
      next => simp at ht
    next => simp at ht

theorem meetsOwn_own (hside : s.side = (p, r :: rs) :: deeper) (hq : 0 < s.quantity)
    (hp : allows p = true) : meetsOwn own allows s = own r.id := by
  have hturn : turn allows s = some r := turn_eq_some.mpr ⟨p, rs, deeper, hside, hq, hp⟩
  simp [meetsOwn, hturn]

theorem stepUpTo_of_not_own (hside : s.side = (p, r :: rs) :: deeper) (hq : 0 < s.quantity)
    (hp : allows p = true) (hown : own r.id = false) : stepUpTo own allows s = step allows s := by
  rw [stepUpTo, meetsOwn_own hside hq hp, hown]
  rfl

theorem stepUpTo_none : stepUpTo (fun _ => false) allows = step allows := by
  funext s
  have hmeets : meetsOwn (fun _ => false) allows s = false := by
    cases h : turn allows s <;> simp [meetsOwn, h]
  simp [stepUpTo, hmeets]

end ExchangeSim.PriceTime
