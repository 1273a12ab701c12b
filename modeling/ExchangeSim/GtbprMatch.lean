import ExchangeSim.ProRata
import Mathlib.Data.Rat.Floor

/-!
ICE's gradual time-based pro-rata policy. The source weighs in double precision; here the
weights are exact rationals.
-/

namespace ExchangeSim

open List Grants

structure GtbprConfig where
  collar : Int := 50000
  cap : Int := 2000000
  timeWeightFactor : Rat := 1 / 10

def nsPerSec : Int := 1000000000

def gtbprPriority (cfg : GtbprConfig) (os : List Order) : Option Order :=
  os.find? fun o => decide (o.remainingQuantity ≥ cfg.collar)

def gtbprPriorityFill (cfg : GtbprConfig) (pool : Int) (os : List Order) : Int :=
  match gtbprPriority cfg os with
  | none => 0
  | some o => min (min cfg.cap pool) o.remainingQuantity

def gtbprFirst (cfg : GtbprConfig) (pool : Int) (os : List Order) : Grants :=
  match gtbprPriority cfg os with
  | none => []
  | some o =>
    let fill := gtbprPriorityFill cfg pool os
    if fill > 0 then [(o.id, fill)] else []

def effectiveQty (cfg : GtbprConfig) (pool : Int) (os : List Order) (o : Order) : Int :=
  if (gtbprPriority cfg os).map (·.id) = some o.id then
    o.remainingQuantity - gtbprPriorityFill cfg pool os
  else o.remainingQuantity

/-- Quantity times one plus the weighted age in seconds. -/
def timeWeight (cfg : GtbprConfig) (now : Int) (qty : Int) (o : Order) : Rat :=
  let age : Rat := max 0 (((now - o.timestamp : Int) : Rat) / nsPerSec)
  qty * (1 + cfg.timeWeightFactor * age)

/-- The proportional pass over given quantities and weights. -/
def weightedGrants (eff : Order → Int) (weight : Order → Rat) (total : Rat) (pool : Int) :
    List Order → Grants → Grants
  | [], g => g
  | o :: os, g =>
    let alloc := min ⌊weight o / total * pool⌋ (eff o)
    weightedGrants eff weight total pool os
      (if eff o > 0 ∧ alloc > 0 then g.add o.id alloc else g)

def totalWeight (eff : Order → Int) (weight : Order → Rat) (os : List Order) : Rat :=
  ((os.filter fun o => decide (eff o > 0)).map weight).sum

/-- A remainder lot for an order that can still take one. -/
def lotGive (o : Order) (g : Grants) (_ : Int) : Option Int :=
  if o.remainingQuantity - g.of o.id ≤ 0 then none else some 1

/-- The remainder in passes over the level, until a pass gives nothing. -/
def lotPasses (os : List Order) : Nat → Int → Grants → Grants
  | 0, _, g => g
  | n + 1, remainder, g =>
    if remainder > 0 then
      let pass := Grants.walk Order.id lotGive os remainder g
      if pass.2 = remainder then pass.1 else lotPasses os n pass.2 pass.1
    else g

/-- The fills of `GtbprMatch::match`. A pass that does not end the last loop gives at least one
lot, so the number of lots bounds the passes. -/
def gtbprAlloc (cfg : GtbprConfig) (now : Int) (l : PriceLevel) (q : Int) : Grants × Int :=
  let toFill := min q l.totalQuantity
  let first := gtbprFirst cfg toFill l.orders
  let pool := toFill - first.total
  if pool > 0 then
    let eff := effectiveQty cfg toFill l.orders
    let weight := fun o => timeWeight cfg now (eff o) o
    let total := totalWeight eff weight l.orders
    let shares := if total > 0 then weightedGrants eff weight total pool l.orders first else first
    let remainder := pool - (shares.total - first.total)
    (lotPasses l.orders remainder.toNat remainder shares, q - toFill)
  else (first, q - toFill)

section shares

variable {eff : Order → Int} {weight : Order → Rat} {total : Rat} {pool : Int} {os ys : List Order}
  {g : Grants}

theorem weightedGrants_on (h : Grants.On Order.id ys g) (hsub : os ⊆ ys) :
    Grants.On Order.id ys (weightedGrants eff weight total pool os g) := by
  induction os generalizing g with
  | nil => exact h
  | cons o os ih =>
    obtain ⟨ho, hsub⟩ := cons_subset.mp hsub
    unfold weightedGrants
    dsimp only
    split
    · exact ih (h.add ho) hsub
    · exact ih h hsub

theorem weightedGrants_within (h : GrantsWithin ys g) (hsub : os ⊆ ys)
    (hn : (ys.map Order.id).Nodup) (hos : (os.map Order.id).Nodup)
    (heff : ∀ o ∈ os, eff o ≤ g.room Order.id Order.remainingQuantity o) :
    GrantsWithin ys (weightedGrants eff weight total pool os g) := by
  induction os generalizing g with
  | nil => exact h
  | cons o os ih =>
    obtain ⟨ho, hsub⟩ := cons_subset.mp hsub
    obtain ⟨hnot, hos⟩ := List.nodup_cons.mp hos
    have hroom := heff o (by simp)
    have hrest : ∀ x ∈ os, eff x ≤ g.room Order.id Order.remainingQuantity x :=
      fun x hx => heff x (by simp [hx])
    unfold weightedGrants
    dsimp only
    split
    next hgive =>
      refine ih (h.add ho (.inl hgive.2) ((min_le_right _ _).trans hroom) hn) hsub hos fun x hx => ?_
      have hne : x.id ≠ o.id := fun he => hnot (he ▸ mem_map.mpr ⟨x, hx, rfl⟩)
      unfold room
      rw [of_add_of_ne hne]
      exact hrest x hx
    next => exact ih h hsub hos hrest

theorem weightedGrants_total_le (hpool : 0 ≤ pool) (htotal : 0 < total)
    (hweight : ∀ o ∈ os, 0 < eff o → 0 ≤ weight o) :
    g.total ≤ (weightedGrants eff weight total pool os g).total ∧
      ((weightedGrants eff weight total pool os g).total : Rat) ≤
        g.total + totalWeight eff weight os / total * pool := by
  induction os generalizing g with
  | nil => simp [weightedGrants, totalWeight]
  | cons o os ih =>
    have hrest : ∀ x ∈ os, 0 < eff x → 0 ≤ weight x := fun x hx => hweight x (by simp [hx])
    have hpool' : (0 : Rat) ≤ pool := by exact_mod_cast hpool
    unfold weightedGrants
    dsimp only
    by_cases hpos : eff o > 0
    · have hw := hweight o (by simp) hpos
      have hsum : totalWeight eff weight (o :: os) = weight o + totalWeight eff weight os := by
        simp [totalWeight, hpos]
      have hshare : 0 ≤ weight o / total * pool :=
        mul_nonneg (div_nonneg hw htotal.le) hpool'
      split
      next hgive =>
        obtain ⟨hlow, hhigh⟩ := ih hrest
        rw [total_add] at hlow hhigh
        refine ⟨by omega, hhigh.trans ?_⟩
        have hfloor : ((min ⌊weight o / total * pool⌋ (eff o) : Int) : Rat) ≤
            weight o / total * pool :=
          le_trans (by exact_mod_cast min_le_left _ _) (Int.floor_le _)
        rw [hsum]
        push_cast
        push_cast at hfloor
        have : (weight o + totalWeight eff weight os) / total * pool =
            weight o / total * pool + totalWeight eff weight os / total * pool := by ring
        linarith
      next =>
        obtain ⟨hlow, hhigh⟩ := ih hrest
        refine ⟨hlow, hhigh.trans ?_⟩
        rw [hsum]
        have : (weight o + totalWeight eff weight os) / total * pool =
            weight o / total * pool + totalWeight eff weight os / total * pool := by ring
        linarith
    · have hsum : totalWeight eff weight (o :: os) = totalWeight eff weight os := by
        simp [totalWeight, hpos]
      rw [hsum]
      simp only [hpos, false_and, if_false]
      exact ih hrest

end shares

section lots

variable {os : List Order} {g : Grants} {r : Int}

theorem lotGive_modest (os : List Order) :
    Grants.Modest Order.id Order.remainingQuantity os lotGive where
  bounds o ho g r q h hr hq := by
    unfold lotGive at hq
    split at hq
    next => simp at hq
    next hroom =>
      obtain rfl := Option.some.inj hq
      unfold room
      exact ⟨.inl one_pos, by omega, by omega⟩

theorem lotPasses_on (n : Nat) (h : Grants.On Order.id os g) :
    Grants.On Order.id os (lotPasses os n r g) := by
  induction n generalizing g r with
  | zero => exact h
  | succ n ih =>
    have hpass : Grants.On Order.id os (Grants.walk Order.id lotGive os r g).1 :=
      walk_on h (Subset.refl os)
    unfold lotPasses
    dsimp only
    split
    · split
      · exact hpass
      · exact ih hpass
    · exact h

theorem lotGive_progress (os : List Order) (g : Grants) (hr : 0 < r) : (Grants.walk Order.id lotGive os r g).2 ≤ r ∧
    ((Grants.walk Order.id lotGive os r g).2 = r →
      ∀ o ∈ os, g.room Order.id Order.remainingQuantity o ≤ 0) := by
  have hle : ∀ (os : List Order) (r : Int) (g : Grants),
      (Grants.walk Order.id lotGive os r g).2 ≤ r := fun os r g =>
    walk_invariant (I := fun _ r' => r' ≤ r)
      (fun o _ g r' q h _ hq => by
        unfold lotGive at hq
        split at hq
        · simp at hq
        · obtain rfl := Option.some.inj hq
          omega) le_rfl
  refine ⟨hle os r g, ?_⟩
  induction os with
  | nil => simp
  | cons o os ih =>
    unfold walk
    rw [if_pos hr]
    by_cases hroom : o.remainingQuantity - g.of o.id ≤ 0
    · simp only [lotGive, hroom, if_true]
      exact fun h => forall_mem_cons.mpr ⟨hroom, ih h⟩
    · simp only [lotGive, hroom, if_false]
      have := hle os (r - 1) (g.add o.id 1)
      omega

theorem lotPasses_within (hn : (os.map Order.id).Nodup) (n : Nat) (h : GrantsWithin os g)
    (hr : 0 ≤ r) (hfuel : r.toNat ≤ n) (hle : g.total + r ≤ sumQty os) :
    GrantsWithin os (lotPasses os n r g) ∧ (lotPasses os n r g).total = g.total + r := by
  induction n generalizing g r with
  | zero =>
    refine ⟨h, ?_⟩
    simp only [lotPasses]
    omega
  | succ n ih =>
    obtain ⟨hw, hleft⟩ := walk_within (lotGive_modest os) (Subset.refl os) hn h hr
    have htotal := Grants.walk_total Order.id lotGive os r g
    unfold lotPasses
    dsimp only
    split
    next hpos =>
      obtain ⟨hdec, hidle⟩ := lotGive_progress os g hpos
      split
      next hsame =>
        -- every order is full, but something is left of the level
        have hfull : sumQty os ≤ g.total := by
          rw [total_eq_sum h.toOn hn]
          refine sum_le_sum fun o ho => ?_
          have := hidle hsame o ho
          unfold room at this
          omega
        omega
      next hmore =>
        have hrest := ih hw hleft (by omega) (by omega)
        exact ⟨hrest.1, hrest.2.trans htotal⟩
    next hpos => exact ⟨h, by omega⟩

end lots

section priority

variable {cfg : GtbprConfig} {pool : Int} {os : List Order}

theorem gtbprFirst_on : Grants.On Order.id os (gtbprFirst cfg pool os) := by
  unfold gtbprFirst
  split
  · exact .nil os
  next o ho =>
    dsimp only
    split
    · refine ⟨by simp [Grants.keys], fun k hk => ?_⟩
      obtain rfl : k = o.id := by simpa [Grants.keys] using hk
      exact ⟨o, mem_of_find?_eq_some ho, rfl⟩
    · exact .nil os

theorem gtbprFirst_within (cfg : GtbprConfig) (hn : (os.map Order.id).Nodup) (hpos : ∀ o ∈ os, 0 < o.remainingQuantity)
    (hpool : 0 ≤ pool) : GrantsWithin os (gtbprFirst cfg pool os) ∧
      (gtbprFirst cfg pool os).total ≤ pool := by
  have hnil : GrantsWithin os [] ∧ total [] ≤ pool :=
    ⟨Within.nil fun o ho => (hpos o ho).le, hpool⟩
  unfold gtbprFirst
  split
  · exact hnil
  next o ho =>
    have hmem : o ∈ os := mem_of_find?_eq_some ho
    have hfill : gtbprPriorityFill cfg pool os = min (min cfg.cap pool) o.remainingQuantity := by
      simp [gtbprPriorityFill, ho]
    dsimp only
    split
    next hlt =>
      have hw := hnil.1.add hmem (.inl hlt)
        (by simp [room, of, hfill]) hn
      refine ⟨hw, ?_⟩
      simp only [total_cons, total_nil, hfill]
      omega
    next => exact hnil

theorem effectiveQty_eq (hpos : ∀ o ∈ os, 0 < o.remainingQuantity) (hcap : 0 ≤ cfg.cap)
    (hpool : 0 ≤ pool) (o : Order) :
    effectiveQty cfg pool os o =
      (gtbprFirst cfg pool os).room Order.id Order.remainingQuantity o := by
  unfold effectiveQty gtbprFirst room
  cases hp : gtbprPriority cfg os with
  | none => simp [of]
  | some p =>
    have hmem : p ∈ os := mem_of_find?_eq_some hp
    have hrem := hpos p hmem
    have hfill : gtbprPriorityFill cfg pool os = min (min cfg.cap pool) p.remainingQuantity := by
      simp [gtbprPriorityFill, hp]
    simp only [Option.map_some, Option.some.injEq]
    by_cases hid : p.id = o.id
    · rw [if_pos hid]
      split
      · simp [Grants.of, hid]
      · simp only [of]
        omega
    · rw [if_neg hid]
      split
      · simp [Grants.of, hid]
      · simp [of]

end priority

section policy

variable {cfg : GtbprConfig} {l : PriceLevel} {q : Int}

theorem timeWeight_nonneg (hfactor : 0 ≤ cfg.timeWeightFactor) (now : Int) {n : Int} (hn : 0 < n)
    (o : Order) : 0 ≤ timeWeight cfg now n o := by
  unfold timeWeight
  positivity

theorem gtbprAlloc_within (hcap : 0 ≤ cfg.cap) (hfactor : 0 ≤ cfg.timeWeightFactor) (now : Int)
    (hd : l.Distinct) (he : l.Exact) (hq : 0 < q) :
    GrantsWithin l.orders (gtbprAlloc cfg now l q).1 ∧
      (gtbprAlloc cfg now l q).1.total = min q l.totalQuantity := by
  obtain ⟨ht, htT⟩ := toFill_bounds he hq
  obtain ⟨hfirst, hle⟩ := gtbprFirst_within cfg hd he.positive ht
  unfold gtbprAlloc
  dsimp only
  split
  next hpool =>
    let eff := effectiveQty cfg (min q l.totalQuantity) l.orders
    let first := gtbprFirst cfg (min q l.totalQuantity) l.orders
    let weight := fun o => timeWeight cfg now (eff o) o
    let shares := if totalWeight eff weight l.orders > 0 then weightedGrants eff weight
      (totalWeight eff weight l.orders) (min q l.totalQuantity - first.total) l.orders first
      else first
    have hshares : GrantsWithin l.orders shares ∧ first.total ≤ shares.total ∧
        shares.total ≤ min q l.totalQuantity := by
      simp only [shares]
      split
      next hweight =>
        refine ⟨weightedGrants_within hfirst (Subset.refl _) hd hd fun o _ =>
          (effectiveQty_eq he.positive hcap ht o).le, ?_⟩
        have hweights : ∀ o ∈ l.orders, 0 < eff o → 0 ≤ weight o := fun o _ heff =>
          timeWeight_nonneg hfactor now heff o
        obtain ⟨hlow, hhigh⟩ := weightedGrants_total_le hpool.le hweight hweights
        rw [div_self hweight.ne', one_mul, ← Int.cast_add, Int.cast_le, add_sub_cancel] at hhigh
        exact ⟨hlow, hhigh⟩
      next => exact ⟨hfirst, le_rfl, hle⟩
    obtain ⟨hw, hlow, hhigh⟩ := hshares
    have hlots := lotPasses_within (r := min q l.totalQuantity - first.total -
      (shares.total - first.total)) hd _ hw (by omega) le_rfl (by omega)
    exact ⟨hlots.1, hlots.2.trans (by omega)⟩
  next hpool =>
    refine ⟨hfirst, ?_⟩
    dsimp only
    omega

end policy

theorem gtbprAlloc_on (cfg : GtbprConfig) (now : Int) (l : PriceLevel) (q : Int) :
    Grants.On Order.id l.orders (gtbprAlloc cfg now l q).1 := by
  unfold gtbprAlloc
  dsimp only
  split
  · refine lotPasses_on _ ?_
    split
    · exact weightedGrants_on gtbprFirst_on (Subset.refl _)
    · exact gtbprFirst_on
  · exact gtbprFirst_on

def gtbpr (cfg : GtbprConfig) (hcap : 0 ≤ cfg.cap) (hfactor : 0 ≤ cfg.timeWeightFactor)
    (now : Int) : Allocator where
  alloc := gtbprAlloc cfg now
  on l q _ := gtbprAlloc_on cfg now l q
  within _ _ hd he hq := (gtbprAlloc_within hcap hfactor now hd he hq).1
  total _ _ hd he hq := (gtbprAlloc_within hcap hfactor now hd he hq).2
  left l q _ _ _ := by
    unfold gtbprAlloc
    dsimp only
    split <;> rfl

/-- The policy as `MatchingEngine` calls it: with the default configuration and no time. -/
def gtbprMatch : MatchPolicy :=
  (gtbpr {} (by decide) (by norm_num) 0).policy

end ExchangeSim
