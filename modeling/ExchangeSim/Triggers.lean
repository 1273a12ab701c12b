import ExchangeSim.Interruptions
import ExchangeSim.Lineage

namespace ExchangeSim

open Engine

variable {D : Type} {X : Exchange D} {w : Prop} {e e' : Engine D}

def Side.reaches (s : Side) (last trigger : Int) : Prop :=
  match s with
  | .buy => trigger ≤ last
  | .sell => last ≤ trigger

instance : (s : Side) → (last trigger : Int) → Decidable (s.reaches last trigger)
  | .buy, last, trigger => inferInstanceAs (Decidable (trigger ≤ last))
  | .sell, last, trigger => inferInstanceAs (Decidable (last ≤ trigger))

theorem Side.reaches.before {s : Side} {last a b : Int} (h : s.reaches last b)
    (hab : stopBefore s a b = true) : s.reaches last a := by
  cases s <;> simp_all [Side.reaches, stopBefore, bookBefore, Side.opposite] <;> omega

def Engine.triggers (e : Engine D) (s : Side) : List Int :=
  (e.stopBook s).map (·.price)

theorem triggers_congr (h : e'.stopView = e.stopView) : e'.triggers = e.triggers := by
  unfold triggers
  rw [show e'.stopBook = e.stopBook from congrArg Prod.fst h]

/-- A trade at `last` reaches the trigger of some waiting stop. -/
def Engine.MissedAt (e : Engine D) (last : Int) : Prop :=
  0 < last ∧ ∃ s, ∃ p ∈ e.triggers s, s.reaches last p

def Engine.Missed (e : Engine D) : Prop :=
  e.MissedAt e.lastTradePrice

theorem Engine.MissedAt.subset {last : Int} (h : e'.MissedAt last)
    (hsub : ∀ s, e'.triggers s ⊆ e.triggers s) : e.MissedAt last := by
  obtain ⟨hpos, s, p, hp, hr⟩ := h
  exact ⟨hpos, s, p, hsub s hp, hr⟩

theorem triggeredLevel_isSome (s : Side) (e : Engine D) :
    (e.triggeredLevel s).isSome = true ↔
      ∃ l rest, e.stopBook s = l :: rest ∧ s.reaches e.lastTradePrice l.price := by
  cases hs : e.stopBook s with
  | nil => cases s <;> simp [triggeredLevel, hs]
  | cons l rest =>
    cases s <;> simp [triggeredLevel, hs, Side.reaches]

/-- Stops wait in the order in which they trigger. -/
def Engine.InTurn (e : Engine D) : Prop :=
  ∀ s, (e.triggers s).Pairwise (stopBefore s · · = true)

theorem inTurn_of_sound {extra : List Nat} (hH : e.holdings.Sound X w extra) : e.InTurn :=
  fun s => List.pairwise_map.mpr (hH.shape .stop s).sorted

/-- `has_triggered_stops` looks at the first level of each side only. -/
theorem hasDueStops_iff (h : e.InTurn) : e.hasDueStops ↔ e.Missed := by
  unfold hasDueStops Missed MissedAt hasTriggeredStops
  refine and_congr_right fun _ => ?_
  rw [Bool.or_eq_true, triggeredLevel_isSome, triggeredLevel_isSome]
  constructor
  · rintro (⟨l, rest, hl, hr⟩ | ⟨l, rest, hl, hr⟩)
    · exact ⟨.buy, l.price, by simp [triggers, hl], hr⟩
    · exact ⟨.sell, l.price, by simp [triggers, hl], hr⟩
  · rintro ⟨s, p, hp, hr⟩
    have hhead : ∃ l rest, e.stopBook s = l :: rest ∧ s.reaches e.lastTradePrice l.price := by
      have hturn := h s
      unfold triggers at hp hturn
      cases hs : e.stopBook s with
      | nil => simp [hs] at hp
      | cons l rest =>
        refine ⟨l, rest, rfl, ?_⟩
        rw [hs, List.map_cons] at hp hturn
        rcases List.mem_cons.mp hp with rfl | hin
        · exact hr
        · exact hr.before (List.rel_of_pairwise_cons hturn hin)
    cases s with
    | buy => exact .inl hhead
    | sell => exact .inr hhead

theorem not_missed_of_thins (h : ¬e.Missed) (hlast : e'.lastTradePrice = e.lastTradePrice)
    (hthins : ∀ s, Thins (e.stopBook s) (e'.stopBook s)) : ¬e'.Missed := by
  intro hmissed
  rw [Missed, hlast] at hmissed
  exact h (hmissed.subset fun s => (hthins s).prices.subset)

theorem thins_removeStop (o : Order) (e : Engine D) (s : Side) :
    Thins (e.stopBook s) ((e.removeStop o).stopBook s) := by
  rw [removeStop_stopBook]
  by_cases hs : s = o.side
  · subst hs
    rw [Function.update_self]
    exact Thins.unlinkFrom o _
  · rw [Function.update_of_ne hs]
    exact .refl _

theorem lastTradePrice_removeStop (o : Order) (e : Engine D) :
    (e.removeStop o).lastTradePrice = e.lastTradePrice := by
  unfold removeStop
  dsimp only
  split <;> rfl

end ExchangeSim
