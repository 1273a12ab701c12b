import ExchangeSim.Calls
import ExchangeSim.LimitHits
import ExchangeSim.Venues

namespace ExchangeSim

variable {algo : MatchPolicy} {size : VenueSize} {k : KrxState} {c : EngineConfig} {fuel : Nat}
  {e : Engine KrxState}

inductive KrxCall
  | operate (a : Action)
  | setBandPercentage (pct : Int)
  | setViDynamicPercentage (pct : Int)
  | setStaticBandPercentage (pct : Int)
  | setPriorClosePrice (price : Int)
  | setReferencePrice (price : Int)
  | activateSidecar
  | deactivateSidecar

def KrxCall.run (X : Exchange KrxState) (fuel : Nat) (call : KrxCall) (e : Engine KrxState) :
    Outcome KrxState (Engine KrxState) :=
  match call with
  | .operate a => e.perform X fuel a
  | .setBandPercentage pct => .ok { e with derived := { e.derived with bandPct := pct } }
  | .setViDynamicPercentage pct => .ok { e with derived := { e.derived with viDynamicPct := pct } }
  | .setStaticBandPercentage pct => .ok { e with derived := { e.derived with staticBandPct := pct } }
  | .setPriorClosePrice price => .ok { e with derived := { e.derived with priorClosePrice := price } }
  | .setReferencePrice price =>
    let r := e.derived.setReferencePrice price e.config
    .ok { e with derived := r.1, config := r.2 }
  | .activateSidecar => .ok { e with derived := { e.derived with sidecarActive := true } }
  | .deactivateSidecar => .ok { e with derived := { e.derived with sidecarActive := false } }

/-- The engines reached from a new one by calls that meet `ok` in the state they are made in. Each
may take as many rounds as it needs. -/
def KrxReach (X : Exchange KrxState) (config : EngineConfig) (slots : Nat → SlotResidue)
    (ok : Engine KrxState → KrxCall → Prop) : Engine KrxState → Prop :=
  Calls.Reach (fun fuel (call : KrxCall) => call.run X fuel) ok (Engine.init X config {} slots)

structure KrxState.Limits (k : KrxState) (c : EngineConfig) : Prop where
  tier_le : k.currentLimitTier ≤ kMaxLimitTier
  tier_pos : 0 < k.currentLimitTier
  high : c.dailyLimitHigh =
    k.referencePrice + k.referencePrice * kLimitTierPct k.currentLimitTier / 100
  low : c.dailyLimitLow =
    k.referencePrice - k.referencePrice * kLimitTierPct k.currentLimitTier / 100

structure KrxState.Follows (k : KrxState) (c : EngineConfig) : Prop where
  unset : k.referencePrice ≤ 0 → k.currentLimitTier = 0
  limits : 0 < k.referencePrice → k.Limits c

theorem KrxState.Follows.congr {k' : KrxState} (h : k.Follows c)
    (href : k'.referencePrice = k.referencePrice)
    (htier : k'.currentLimitTier = k.currentLimitTier) : k'.Follows c := by
  refine ⟨fun hunset => htier.trans (h.unset (href ▸ hunset)), fun hpos => ?_⟩
  obtain ⟨hle, hone, hhigh, hlow⟩ := h.limits (href ▸ hpos)
  constructor
  · rwa [htier]
  · rwa [htier]
  · rwa [href, htier]
  · rwa [href, htier]

theorem kLimitTierPct_nonneg (tier : Nat) : 0 ≤ kLimitTierPct tier := by
  unfold kLimitTierPct
  split <;> decide

theorem applyLimitTier_limits {tier : Nat} (hpos : 0 < tier) (hle : tier ≤ kMaxLimitTier)
    (hk : 0 < k.referencePrice) :
    (k.applyLimitTier tier c).1 = { k with currentLimitTier := tier } ∧
      (k.applyLimitTier tier c).1.Limits (k.applyLimitTier tier c).2 := by
  have hband : (k.referencePrice * kLimitTierPct tier).tdiv 100 =
      k.referencePrice * kLimitTierPct tier / 100 :=
    Int.tdiv_eq_ediv_of_nonneg (Int.mul_nonneg hk.le (kLimitTierPct_nonneg tier))
  have heq : k.applyLimitTier tier c = ({ k with currentLimitTier := tier },
      { c with
        dailyLimitHigh := k.referencePrice + k.referencePrice * kLimitTierPct tier / 100
        dailyLimitLow := k.referencePrice - k.referencePrice * kLimitTierPct tier / 100 }) := by
    unfold KrxState.applyLimitTier
    rw [if_neg (by omega), if_neg (by omega), hband]
  rw [heq]
  exact ⟨rfl, ⟨hle, hpos, rfl, rfl⟩⟩

theorem setReferencePrice_follows {price : Int} (h : k.Follows c)
    (hkeep : k.currentLimitTier = 0 ∨ price = k.referencePrice) :
    (k.setReferencePrice price c).1.Follows (k.setReferencePrice price c).2 := by
  unfold KrxState.setReferencePrice
  dsimp only
  split
  next hset =>
    obtain ⟨heq, hlimits⟩ := applyLimitTier_limits (k := { k with referencePrice := price })
      Nat.one_pos (by decide : 1 ≤ kMaxLimitTier) hset.1
    refine ⟨fun hunset => ?_, fun _ => hlimits⟩
    rw [heq] at hunset
    exact absurd hset.1 (not_lt.mpr hunset)
  next hset =>
    rcases hkeep with hzero | rfl
    · exact ⟨fun _ => hzero, fun hpos => absurd ⟨hpos, hzero⟩ hset⟩
    · exact h

theorem onDailyLimitHit_follows (h : k.Follows c) :
    (k.onDailyLimitHit c).derived.Follows (k.onDailyLimitHit c).config ∧
      (k.onDailyLimitHit c).derived.referencePrice = k.referencePrice ∧
      (0 < k.referencePrice → (k.onDailyLimitHit c).derived.currentLimitTier =
        min kMaxLimitTier (k.currentLimitTier + 1)) := by
  unfold KrxState.onDailyLimitHit
  split
  next hunset => exact ⟨h, rfl, fun hpos => absurd hpos (not_lt.mpr hunset)⟩
  next hset =>
    have hpos : 0 < k.referencePrice := not_le.mp hset
    split
    next hmax =>
      have := (h.limits hpos).tier_le
      refine ⟨h, rfl, fun _ => ?_⟩
      change k.currentLimitTier = _
      omega
    next hmax =>
      obtain ⟨heq, hlimits⟩ := applyLimitTier_limits (Nat.succ_pos k.currentLimitTier)
        (by omega : k.currentLimitTier + 1 ≤ kMaxLimitTier) hpos
      dsimp only
      refine ⟨⟨fun hunset => ?_, fun _ => hlimits⟩, by rw [heq], fun _ => ?_⟩
      · rw [heq] at hunset
        exact absurd hpos (not_lt.mpr hunset)
      · rw [heq]
        change k.currentLimitTier + 1 = _
        omega

theorem Context.Shifts.follows {n : Nat} {c c' : Context KrxState}
    (h : c.Shifts (krxExchange algo size) n c') (hc : c.derived.Follows c.config) :
    c'.derived.Follows c'.config ∧ c'.derived.referencePrice = c.derived.referencePrice ∧
      (0 < c.derived.referencePrice → c'.derived.currentLimitTier =
        min kMaxLimitTier (c.derived.currentLimitTier + n)) := by
  induction h with
  | refl c =>
    refine ⟨hc, rfl, fun hpos => ?_⟩
    have := (hc.limits hpos).tier_le
    omega
  | @hit n c c' side limit ts _ _ ih =>
    obtain ⟨hstep, href, htier⟩ := onDailyLimitHit_follows hc
    obtain ⟨hend, href', htier'⟩ := ih hstep
    refine ⟨hend, href'.trans href, fun hpos => ?_⟩
    have hbetween : (c.hit (krxExchange algo size) side limit ts).derived.currentLimitTier =
        min kMaxLimitTier (c.derived.currentLimitTier + 1) := htier hpos
    rw [htier' (href.symm ▸ hpos), hbetween]
    omega
  | volatility _ _ ih => exact ih hc

/-- How often a call hits a daily limit: a session state set from outside is no hit. -/
def KrxCall.limitHits (call : KrxCall) (e e' : Engine KrxState) : Nat :=
  match call with
  | .operate a => if a.setsSession then 0 else e'.locks - e.locks
  | _ => 0

theorem context_setsSession {D : Type} {X : Exchange D} {e e' : Engine D} {a : Action}
    (ha : a.setsSession = true) (h : e.perform X fuel a = .ok e') :
    e'.config = e.config ∧ e'.derived = e.derived := by
  cases a with
  | setSessionState s ts =>
    cases h
    have hc := context_setSessionState (X := X) s ts (e.record (.setSessionState s ts))
    exact ⟨congrArg Context.config hc, congrArg Context.derived hc⟩
  | unlockLimit ts =>
    cases h
    unfold Engine.unlockLimit
    split <;> exact ⟨rfl, rfl⟩
  | _ => simp [Action.setsSession] at ha

/-- One call: the limits still follow, unless another reference price comes while a tier is in
force, and the tier moves by the hits. -/
theorem KrxCall.run_follows {e' : Engine KrxState} {call : KrxCall}
    (he : e.derived.Follows e.config) (h : call.run (krxExchange algo size) fuel e = .ok e') :
    ((∀ price, call = .setReferencePrice price →
        e.derived.currentLimitTier = 0 ∨ price = e.derived.referencePrice) →
      e'.derived.Follows e'.config) ∧
      (0 < e.derived.referencePrice → e'.derived.currentLimitTier =
        min kMaxLimitTier (e.derived.currentLimitTier + call.limitHits e e')) := by
  have hsame : 0 < e.derived.referencePrice → e.derived.currentLimitTier =
      min kMaxLimitTier (e.derived.currentLimitTier + 0) := fun hpos => by
    have := (he.limits hpos).tier_le
    omega
  cases call with
  | operate a =>
    by_cases ha : a.setsSession = true
    · obtain ⟨hconfig, hderived⟩ := context_setsSession ha h
      rw [hconfig, hderived, KrxCall.limitHits, if_pos ha]
      exact ⟨fun _ => he, hsame⟩
    · obtain ⟨n, hshift, hlocks⟩ := shifts_perform (by simpa using ha) h
      obtain ⟨hend, -, htier⟩ := hshift.follows he
      refine ⟨fun _ => hend, fun hpos => ?_⟩
      rw [KrxCall.limitHits, if_neg ha, hlocks, Nat.add_sub_cancel_left]
      exact htier hpos
  | setReferencePrice price =>
    cases h
    refine ⟨fun hkeep => setReferencePrice_follows he (hkeep price rfl), fun hpos => ?_⟩
    have htier := (he.limits hpos).tier_pos
    have hset : ¬(price > 0 ∧ e.derived.currentLimitTier = 0) := by omega
    have heq : (e.derived.setReferencePrice price e.config).1 =
        { e.derived with referencePrice := price } := by
      exact congrArg Prod.fst (if_neg hset)
    rw [heq]
    exact hsame hpos
  | _ =>
    cases h
    exact ⟨fun _ => he.congr rfl rfl, hsame⟩

def Engine.keepsReference (e : Engine KrxState) : KrxCall → Prop
  | .setReferencePrice price =>
    e.derived.currentLimitTier = 0 ∨ price = e.derived.referencePrice
  | _ => True

instance (e : Engine KrxState) (call : KrxCall) : Decidable (e.keepsReference call) :=
  match call with
  | .setReferencePrice price => inferInstanceAs (Decidable (_ ∨ price = _))
  | .operate _ | .setBandPercentage _ | .setViDynamicPercentage _ | .setStaticBandPercentage _
  | .setPriorClosePrice _ | .activateSidecar | .deactivateSidecar => .isTrue trivial

theorem krxReach_follows {config : EngineConfig} {slots : Nat → SlotResidue}
    (h : KrxReach (krxExchange algo size) config slots Engine.keepsReference e) :
    e.derived.Follows e.config := by
  refine Calls.Reach.invariant (I := fun e => e.derived.Follows e.config) h
    ⟨fun _ => rfl, fun hpos => absurd hpos (lt_irrefl 0)⟩ fun fuel call e e' ih hok hrun => ?_
  refine (KrxCall.run_follows ih hrun).1 fun price heq => ?_
  subst heq
  exact hok

/-- In every run in which no tier is in force when a new reference price is set, the daily limits
are those of the tier around the reference price, the tier is at most the last, and every call
moves it up by as many tiers as it hits limits. -/
theorem krxReach_limits (algo : MatchPolicy) (size : VenueSize) (config : EngineConfig)
    (slots : Nat → SlotResidue) {e : Engine KrxState}
    (h : KrxReach (krxExchange algo size) config slots Engine.keepsReference e)
    (hset : 0 < e.derived.referencePrice) :
    let reference := e.derived.referencePrice
    let tier := e.derived.currentLimitTier
    e.config.dailyLimitHigh = reference + reference * kLimitTierPct tier / 100 ∧
      e.config.dailyLimitLow = reference - reference * kLimitTierPct tier / 100 ∧
      1 ≤ tier ∧ tier ≤ 3 ∧
      ∀ fuel (call : KrxCall) e', call.run (krxExchange algo size) fuel e = .ok e' →
        e'.derived.currentLimitTier = min 3 (tier + call.limitHits e e') := by
  have hfollow := krxReach_follows h
  have hlimits := hfollow.limits hset
  exact ⟨hlimits.high, hlimits.low, hlimits.tier_pos, hlimits.tier_le,
    fun fuel call e' hrun => (KrxCall.run_follows hfollow hrun).2 hset⟩

/-- Calls one after the other on a new engine, each with 20 rounds. -/
def krxRunAll (X : Exchange KrxState) (calls : List KrxCall) : Engine KrxState :=
  Calls.after (fun call => call.run X 20) calls (Engine.init X sampleConfig {} fun _ => {})

def widenedCalls : List KrxCall :=
  [.setReferencePrice 1000, .operate (.newOrder (limitRequest .sell 1080 5)),
    .operate (.newOrder { limitRequest .buy 1080 5 with accountId := 2 })]

theorem krxReach_limits_widened :
    let e := krxRunAll (krxExchange fifoMatch sampleVenue) widenedCalls
    e.derived.currentLimitTier = 2 ∧ e.config.dailyLimitHigh = 1150 ∧
      e.config.dailyLimitLow = 850 := by
  intro e
  have hreach : KrxReach (krxExchange fifoMatch sampleVenue) sampleConfig (fun _ => {})
      Engine.keepsReference e :=
    Calls.Reach.after .start (by decide +kernel)
  have htier : e.derived.currentLimitTier = 2 := by decide +kernel
  have hset : e.derived.referencePrice = 1000 := by decide +kernel
  obtain ⟨hhigh, hlow, -⟩ :=
    krxReach_limits fifoMatch sampleVenue sampleConfig _ hreach (by rw [hset]; decide)
  rw [htier, hset] at hhigh hlow
  exact ⟨htier, hhigh, hlow⟩

/-- A second reference price leaves the limits where the first one put them. -/
theorem setReferencePrice_keeps_limits :
    let X := krxExchange fifoMatch sampleVenue
    let positive : Engine KrxState → KrxCall → Prop := fun _ call =>
      ∀ price, call = .setReferencePrice price → 0 < price
    ∃ e, KrxReach X sampleConfig (fun _ => {}) positive e ∧
      e.derived.referencePrice = 2000 ∧ e.derived.currentLimitTier = 1 ∧
      e.config.dailyLimitHigh = 1080 ∧ e.config.dailyLimitLow = 920 := by
  intro X positive
  have hpositive : ∀ (n : Nat) (price : Int),
      KrxCall.setReferencePrice (n + 1) = .setReferencePrice price → 0 < price := by
    intro n price heq
    have := KrxCall.setReferencePrice.inj heq
    omega
  refine ⟨krxRunAll X [.setReferencePrice 1000, .setReferencePrice 2000],
    Calls.Reach.after .start ⟨hpositive 999, hpositive 1999, trivial⟩, by decide +kernel⟩

end ExchangeSim
