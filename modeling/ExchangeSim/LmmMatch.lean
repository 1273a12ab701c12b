import ExchangeSim.ProRata

namespace ExchangeSim

open List Grants

/-- A percentage of a quantity, rounded towards zero. -/
def percentOf (q : Int) (pct : Nat) : Int :=
  (q * pct).tdiv 100

theorem percentOf_bounds {q : Int} (hq : 0 ≤ q) {pct : Nat} (hpct : pct ≤ 100) :
    0 ≤ percentOf q pct ∧ percentOf q pct ≤ q := by
  have hpct' : (pct : Int) ≤ 100 := by exact_mod_cast hpct
  have hmul : 0 ≤ q * pct := mul_nonneg hq (Int.natCast_nonneg pct)
  unfold percentOf
  rw [Int.tdiv_eq_ediv_of_nonneg hmul]
  refine ⟨Int.ediv_nonneg hmul (by decide), Int.ediv_le_of_le_mul (by decide) ?_⟩
  exact mul_le_mul_of_nonneg_left hpct' hq

/-- What is left of an order while a policy that changes orders at once is at work. -/
def liveQty (g : Grants) (o : Order) : Int :=
  o.remainingQuantity - g.of o.id

/-- In time order among the orders selected that have something left. -/
def liveGive (select : Order → Bool) (o : Order) (g : Grants) (remaining : Int) : Option Int :=
  if select o && decide (liveQty g o > 0) then some (min remaining (liveQty g o)) else none

/-- The priority pass of `FifoLmmMatch`, which asks for the flag alone. -/
def lmmGive (o : Order) (g : Grants) (remaining : Int) : Option Int :=
  if o.isMarketMaker then some (min remaining (liveQty g o)) else none

theorem liveGive_modest (select : Order → Bool) (os : List Order) :
    Grants.Modest Order.id Order.remainingQuantity os (liveGive select) where
  bounds o ho g r q h hr hq := by
    unfold liveGive at hq
    split at hq
    next hlive =>
      obtain rfl := Option.some.inj hq
      have hpos : 0 < liveQty g o := by simpa using (Bool.and_eq_true_iff.mp hlive).2
      exact ⟨.inl (lt_min hr hpos), min_le_left _ _, min_le_right _ _⟩
    next => simp at hq

theorem liveGive_greedy (os : List Order) :
    Grants.Greedy Order.id Order.remainingQuantity os (liveGive fun _ => true) where
  toModest := liveGive_modest _ os
  takes o ho g r h hr hroom := by
    have hlive : liveQty g o > 0 := hroom
    simp only [liveGive, Bool.true_and, hlive, decide_true, if_true]
    rfl

theorem lmmGive_modest {os : List Order} (hpos : ∀ o ∈ os, 0 < o.remainingQuantity) :
    Grants.Modest Order.id Order.remainingQuantity os lmmGive where
  bounds o ho g r q h hr hq := by
    have hroom : 0 ≤ liveQty g o := h.room_nonneg ho
    unfold lmmGive at hq
    split at hq
    next =>
      obtain rfl := Option.some.inj hq
      refine ⟨?_, min_le_left _ _, min_le_right _ _⟩
      rcases eq_or_lt_of_le hroom with hz | hlt
      · -- an order with nothing left has been given all it had
        refine .inr ⟨by omega, ?_⟩
        by_contra hk
        have hrem := hpos o ho
        have hof := of_eq_zero hk
        unfold liveQty at hz
        omega
      · exact .inl (lt_min hr hlt)
    next => simp at hq

theorem liveGive_greedyFor (select : Order → Bool) (os : List Order) :
    Grants.GreedyFor Order.id Order.remainingQuantity os select (liveGive select) where
  toModest := liveGive_modest select os
  skips o g r h := by simp [liveGive, h]
  takes o ho g r h hr hsel hroom := by
    have hlive : liveQty g o > 0 := hroom
    simp only [liveGive, hsel, Bool.true_and, hlive, decide_true, if_true]
    rfl

theorem lmmGive_greedyFor {os : List Order} (hpos : ∀ o ∈ os, 0 < o.remainingQuantity) :
    Grants.GreedyFor Order.id Order.remainingQuantity os (·.isMarketMaker) lmmGive where
  toModest := lmmGive_modest hpos
  skips o g r h := by simp [lmmGive, h]
  takes o ho g r h hr hsel hroom := by
    simp only [lmmGive, hsel, if_true]
    rfl

/-- The last pass of both policies: what is left of the aggressor goes to all orders in time
order. -/
def fifoRest (os : List Order) (q : Int) (g : Grants) : Grants × Int :=
  Grants.walk Order.id (liveGive fun _ => true) os (q - g.total) g

section rest

variable {l : PriceLevel} {q : Int} {g : Grants}

theorem fifoRest_within (hd : l.Distinct) (h : GrantsWithin l.orders g) (hle : g.total ≤ q) :
    GrantsWithin l.orders (fifoRest l.orders q g).1 :=
  (Grants.walk_within (liveGive_modest _ _) (List.Subset.refl _) hd h (by omega)).1

theorem fifoRest_total (hd : l.Distinct) (he : l.Exact) (h : GrantsWithin l.orders g)
    (hle : g.total ≤ q) : (fifoRest l.orders q g).1.total = min q l.totalQuantity := by
  unfold fifoRest
  rw [walk_total_eq (liveGive_greedy _) hd h (by omega), he.total]
  change min (g.total + (q - g.total)) (sumQty l.orders) = _
  rw [add_sub_cancel]

theorem fifoRest_left (hd : l.Distinct) (he : l.Exact) (h : GrantsWithin l.orders g)
    (hle : g.total ≤ q) : (fifoRest l.orders q g).2 = q - min q l.totalQuantity := by
  have htotal := Grants.walk_total Order.id (liveGive fun _ => true) l.orders (q - g.total) g
  rw [← fifoRest_total hd he h hle]
  unfold fifoRest
  omega

end rest

theorem walk_total_le {os : List Order} {give : Order → Grants → Int → Option Int}
    (hgive : Grants.Modest Order.id Order.remainingQuantity os give)
    (hn : (os.map Order.id).Nodup) {g : Grants} (h : GrantsWithin os g) {r : Int} (hr : 0 ≤ r) :
    GrantsWithin os (Grants.walk Order.id give os r g).1 ∧
      (Grants.walk Order.id give os r g).1.total ≤ g.total + r := by
  obtain ⟨hw, hleft⟩ := walk_within hgive (Subset.refl os) hn h hr
  have htotal := Grants.walk_total Order.id give os r g
  exact ⟨hw, by omega⟩

def mmResting (g : Grants) (os : List Order) : Int :=
  ((os.filter (·.isMarketMaker)).map (liveQty g)).sum

theorem mmResting_nonneg {g : Grants} {os : List Order} (h : GrantsWithin os g) :
    0 ≤ mmResting g os := by
  refine sum_nonneg fun x hx => ?_
  obtain ⟨o, ho, rfl⟩ := mem_map.mp hx
  exact h.room_nonneg (mem_of_mem_filter ho)

/-- The priority fills of `FifoLmmMatch::match`. -/
def fifoLmmPriority (mmPriorityPct : Nat) (l : PriceLevel) (q : Int) : Grants :=
  let mmAlloc := min (percentOf q mmPriorityPct) (mmResting [] l.orders)
  (Grants.walk Order.id lmmGive l.orders mmAlloc []).1

def fifoLmmAlloc (mmPriorityPct : Nat) (l : PriceLevel) (q : Int) : Grants × Int :=
  fifoRest l.orders q (fifoLmmPriority mmPriorityPct l q)

theorem fifoLmmPriority_within {mmPriorityPct : Nat} (hpct : mmPriorityPct ≤ 100) {l : PriceLevel}
    (hd : l.Distinct) (he : l.Exact) {q : Int} (hq : 0 < q) :
    GrantsWithin l.orders (fifoLmmPriority mmPriorityPct l q) ∧
      (fifoLmmPriority mmPriorityPct l q).total ≤ q := by
  have hnil : GrantsWithin l.orders [] := Within.nil he.nonneg
  obtain ⟨hlow, hhigh⟩ := percentOf_bounds hq.le hpct
  have hresting := mmResting_nonneg hnil
  obtain ⟨hw, htotal⟩ := walk_total_le (lmmGive_modest he.positive) hd hnil
    (le_min hlow hresting)
  refine ⟨hw, htotal.trans ?_⟩
  simp only [total_nil]
  omega

def fifoLmm (mmPriorityPct : Nat) (hpct : mmPriorityPct ≤ 100) : Allocator where
  alloc := fifoLmmAlloc mmPriorityPct
  on _ _ _ := Grants.walk_on (Grants.walk_on (Grants.On.nil _) (List.Subset.refl _))
    (List.Subset.refl _)
  within _ _ hd he hq :=
    have h := fifoLmmPriority_within hpct hd he hq
    fifoRest_within hd h.1 h.2
  total _ _ hd he hq :=
    have h := fifoLmmPriority_within hpct hd he hq
    fifoRest_total hd he h.1 h.2
  left _ _ hd he hq :=
    have h := fifoLmmPriority_within hpct hd he hq
    fifoRest_left hd he h.1 h.2

def fifoLmmMatch (mmPriorityPct : Nat) (hpct : mmPriorityPct ≤ 100) : MatchPolicy :=
  (fifoLmm mmPriorityPct hpct).policy

/-- The first phase of `FifoTopLmmMatch`: the first order with the flag. -/
def topPriority (topPct : Nat) (l : PriceLevel) (q : Int) : Grants :=
  let topAlloc := percentOf q topPct
  if topAlloc > 0 then
    match l.orders.find? (·.isTopOrder) with
    | none => []
    | some o => [(o.id, min topAlloc o.remainingQuantity)]
  else []

/-- The second phase: the market makers, by the aggressor's original quantity. -/
def topLmmPriority (mmPriorityPct : Nat) (l : PriceLevel) (q : Int) (g : Grants) : Grants :=
  let mmAlloc := percentOf q mmPriorityPct
  let remaining := q - g.total
  if mmAlloc > 0 ∧ remaining > 0 then
    (Grants.walk Order.id (liveGive (·.isMarketMaker)) l.orders
      (min (min mmAlloc (mmResting g l.orders)) remaining) g).1
  else g

def fifoTopLmmAlloc (topPct mmPriorityPct : Nat) (l : PriceLevel) (q : Int) : Grants × Int :=
  fifoRest l.orders q (topLmmPriority mmPriorityPct l q (topPriority topPct l q))

section top

variable {topPct mmPriorityPct : Nat} {l : PriceLevel} {q : Int} {g : Grants}

theorem topPriority_on : Grants.On Order.id l.orders (topPriority topPct l q) := by
  unfold topPriority
  dsimp only
  split
  · split
    · exact .nil _
    next o ho =>
      refine ⟨by simp [Grants.keys], fun k hk => ?_⟩
      obtain rfl : k = o.id := by simpa [Grants.keys] using hk
      exact ⟨o, mem_of_find?_eq_some ho, rfl⟩
  · exact .nil _

theorem topPriority_within (hpct : topPct ≤ 100) (hd : l.Distinct) (he : l.Exact) (hq : 0 < q) :
    GrantsWithin l.orders (topPriority topPct l q) ∧ (topPriority topPct l q).total ≤ q := by
  have hnil : GrantsWithin l.orders [] ∧ total [] ≤ q :=
    ⟨Within.nil he.nonneg, hq.le⟩
  have hhigh := (percentOf_bounds hq.le hpct).2
  unfold topPriority
  dsimp only
  split
  next hpos =>
    split
    · exact hnil
    next o ho =>
      have hmem : o ∈ l.orders := mem_of_find?_eq_some ho
      have hrem := he.positive o hmem
      have hw := hnil.1.add hmem (q := min (percentOf q topPct) o.remainingQuantity)
        (.inl (lt_min hpos hrem)) (by simp [room, of]) hd
      refine ⟨hw, ?_⟩
      simp only [total_cons, total_nil]
      omega
  next => exact hnil

theorem topLmmPriority_on (h : Grants.On Order.id l.orders g) :
    Grants.On Order.id l.orders (topLmmPriority mmPriorityPct l q g) := by
  unfold topLmmPriority
  dsimp only
  split
  · exact walk_on h (Subset.refl _)
  · exact h

theorem topLmmPriority_within (hd : l.Distinct) (h : GrantsWithin l.orders g) (hle : g.total ≤ q) :
    GrantsWithin l.orders (topLmmPriority mmPriorityPct l q g) ∧
      (topLmmPriority mmPriorityPct l q g).total ≤ q := by
  unfold topLmmPriority
  dsimp only
  split
  next hpos =>
    have hresting := mmResting_nonneg h
    obtain ⟨hw, htotal⟩ := walk_total_le (liveGive_modest (·.isMarketMaker) l.orders) hd h
      (r := min (min (percentOf q mmPriorityPct) (mmResting g l.orders)) (q - g.total)) (by omega)
    exact ⟨hw, by omega⟩
  next => exact ⟨h, hle⟩

end top

def fifoTopLmm (topPct mmPriorityPct : Nat) (htop : topPct ≤ 100) : Allocator where
  alloc := fifoTopLmmAlloc topPct mmPriorityPct
  on _ _ _ := Grants.walk_on (topLmmPriority_on topPriority_on) (List.Subset.refl _)
  within l q hd he hq := by
    obtain ⟨htop, hle⟩ := topPriority_within htop hd he hq
    obtain ⟨hmm, hle⟩ := topLmmPriority_within hd htop hle
    exact fifoRest_within hd hmm hle
  total l q hd he hq := by
    obtain ⟨htop, hle⟩ := topPriority_within htop hd he hq
    obtain ⟨hmm, hle⟩ := topLmmPriority_within hd htop hle
    exact fifoRest_total hd he hmm hle
  left l q hd he hq := by
    obtain ⟨htop, hle⟩ := topPriority_within htop hd he hq
    obtain ⟨hmm, hle⟩ := topLmmPriority_within hd htop hle
    exact fifoRest_left hd he hmm hle

def fifoTopLmmMatch (topPct mmPriorityPct : Nat) (htop : topPct ≤ 100) : MatchPolicy :=
  (fifoTopLmm topPct mmPriorityPct htop).policy

end ExchangeSim
