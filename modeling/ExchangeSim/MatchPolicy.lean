import ExchangeSim.Levels

namespace ExchangeSim

/-- What a policy leaves behind: the level's orders as it changed them, the fills it
wrote, and what remains of the aggressor. -/
structure MatchOutcome where
  orders : List Order
  results : List FillResult
  remaining : Int
  deriving DecidableEq, Repr

def Order.fill (o : Order) (q : Int) : Order :=
  { o with
    filledQuantity := o.filledQuantity + q
    remainingQuantity := o.remainingQuantity - q }

def filledBy (id : Nat) : List FillResult → Int
  | [] => 0
  | f :: rs => (if f.restingOrder = id then f.quantity else 0) + filledBy id rs

def fillTotal (rs : List FillResult) : Int :=
  (rs.map (·.quantity)).sum

def remainingIn (orders : List Order) (id : Nat) : Option Int :=
  (orders.find? (·.id == id)).map (·.remainingQuantity)

/-- Fills that can be booked one after the other: each names an order that is there and tells what
it has left. With `strict`, no fill is empty and none takes more than there is. -/
def Bookable (strict : Prop) (left : Nat → Option Int) : List FillResult → Prop
  | [] => True
  | f :: rs =>
    (∃ v, left f.restingOrder = some v ∧ f.restingRemaining = v - f.quantity) ∧
    (f.restingRemaining = 0 → ∀ g ∈ rs, g.restingOrder ≠ f.restingOrder) ∧
    (strict → 0 < f.quantity ∧ 0 ≤ f.restingRemaining) ∧
    Bookable strict (Function.update left f.restingOrder (some f.restingRemaining)) rs

def PriceLevel.Distinct (l : PriceLevel) : Prop :=
  (l.orders.map (·.id)).Nodup

instance (l : PriceLevel) : Decidable l.Distinct :=
  inferInstanceAs (Decidable (List.Nodup _))

structure PriceLevel.Exact (l : PriceLevel) : Prop where
  total : l.totalQuantity = sumQty l.orders
  positive : ∀ o ∈ l.orders, 0 < o.remainingQuantity

/-- A match policy: a function of the level and the aggressor's remaining quantity, with
what every policy of the repository guarantees about its results. -/
structure MatchPolicy where
  matchLevel : PriceLevel → Int → MatchOutcome
  orders_eq : ∀ l q, l.Distinct → (matchLevel l q).orders =
    l.orders.map fun o => o.fill (filledBy o.id (matchLevel l q).results)
  price_eq : ∀ l q, ∀ f ∈ (matchLevel l q).results, f.price = l.price
  bookable : ∀ l q, l.Distinct →
    Bookable (l.Exact ∧ 0 < q) (remainingIn l.orders) (matchLevel l q).results
  remaining_eq : ∀ l q, l.Distinct → l.Exact → 0 < q →
    (matchLevel l q).remaining = q - fillTotal (matchLevel l q).results
  total_eq : ∀ l q, l.Distinct → l.Exact → 0 < q →
    fillTotal (matchLevel l q).results = min q l.totalQuantity

/-- The policy writes a result for each order of a level at most, and `spare` results besides. -/
def MatchPolicy.Writes (P : MatchPolicy) (spare : Nat) : Prop :=
  ∀ l q, l.Distinct → (P.matchLevel l q).results.length ≤ l.orders.length + spare

theorem remainingIn_of_mem {orders : List Order} (nodup : (orders.map (·.id)).Nodup) {o : Order}
    (ho : o ∈ orders) : remainingIn orders o.id = some o.remainingQuantity := by
  induction orders with
  | nil => simp at ho
  | cons x xs ih =>
    obtain ⟨hx, hxs⟩ := List.nodup_cons.mp nodup
    rcases List.mem_cons.mp ho with rfl | ho
    · simp [remainingIn]
    · have hne : x.id ≠ o.id := by
        intro he
        exact hx (List.mem_map.mpr ⟨o, ho, he.symm⟩)
      simpa [remainingIn, hne] using ih hxs ho

theorem filledBy_eq_zero {id : Nat} {rs : List FillResult}
    (h : ∀ f ∈ rs, f.restingOrder ≠ id) : filledBy id rs = 0 := by
  induction rs with
  | nil => rfl
  | cons f rs ih =>
    have hf := h f (by simp)
    simp [filledBy, hf, ih fun g hg => h g (by simp [hg])]

theorem filledBy_append (id : Nat) (rs ss : List FillResult) :
    filledBy id (rs ++ ss) = filledBy id rs + filledBy id ss := by
  induction rs with
  | nil => simp [filledBy]
  | cons f rs ih => simp only [List.cons_append, filledBy, ih, add_assoc]

@[simp] theorem fillTotal_nil : fillTotal [] = 0 := rfl

@[simp] theorem fillTotal_cons (f : FillResult) (rs : List FillResult) :
    fillTotal (f :: rs) = f.quantity + fillTotal rs := by
  simp [fillTotal]

theorem fillTotal_append (rs ss : List FillResult) :
    fillTotal (rs ++ ss) = fillTotal rs + fillTotal ss := by
  simp [fillTotal]

@[simp] theorem sumQty_nil : sumQty [] = 0 := rfl

@[simp] theorem sumQty_cons (o : Order) (os : List Order) :
    sumQty (o :: os) = o.remainingQuantity + sumQty os := by
  simp [sumQty]

@[simp] theorem sumQty_append (xs ys : List Order) : sumQty (xs ++ ys) = sumQty xs + sumQty ys := by
  simp [sumQty]

theorem bookable_of_nodup {strict : Prop} {left : Nat → Option Int}
    {rs : List FillResult} (nodup : (rs.map (·.restingOrder)).Nodup)
    (there : ∀ f ∈ rs, ∃ v, left f.restingOrder = some v ∧ f.restingRemaining = v - f.quantity)
    (bounds : strict → ∀ f ∈ rs, 0 < f.quantity ∧ 0 ≤ f.restingRemaining) :
    Bookable strict left rs := by
  induction rs generalizing left with
  | nil => trivial
  | cons f rs ih =>
    obtain ⟨hf, hrs⟩ := List.nodup_cons.mp nodup
    have hne : ∀ g ∈ rs, g.restingOrder ≠ f.restingOrder := by
      intro g hg he
      exact hf (List.mem_map.mpr ⟨g, hg, he⟩)
    refine ⟨there f (by simp), fun _ => hne, fun hs => bounds hs f (by simp), ?_⟩
    apply ih hrs
    · intro g hg
      rw [Function.update_of_ne (hne g hg)]
      exact there g (by simp [hg])
    · exact fun hs g hg => bounds hs g (by simp [hg])

end ExchangeSim
