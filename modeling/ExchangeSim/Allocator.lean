import ExchangeSim.Grants
import ExchangeSim.Passes

namespace ExchangeSim

/-- The last phase of a policy: the fills it has written are applied to the orders. -/
def applyGrants (price : Int) : Grants → List Order → List Order × List FillResult
  | [], os => (os, [])
  | (id, q) :: g, os =>
    let os := os.map fun o => if o.id = id then o.fill q else o
    let r := applyGrants price g os
    (r.1, ⟨id, price, q, (remainingIn os id).getD 0⟩ :: r.2)

theorem remainingIn_map_fill (os : List Order) (id : Nat) (q : Int) :
    remainingIn (os.map fun o => if o.id = id then o.fill q else o) =
      Function.update (remainingIn os) id ((remainingIn os id).map (· - q)) := by
  funext j
  induction os with
  | nil =>
    by_cases hj : j = id
    · subst hj
      simp [remainingIn]
    · simp [remainingIn, hj]
  | cons o os ih =>
    by_cases ho : o.id = j
    · subst ho
      by_cases hid : o.id = id
      · subst hid
        simp [remainingIn, Order.fill]
      · simp [remainingIn, hid]
    · have hskip : ∀ os : List Order, remainingIn (o :: os) j = remainingIn os j := fun os => by
        simp [remainingIn, ho]
      have hskip' : remainingIn ((if o.id = id then o.fill q else o) ::
          os.map fun o => if o.id = id then o.fill q else o) j =
            remainingIn (os.map fun o => if o.id = id then o.fill q else o) j := by
        have hid' : (if o.id = id then o.fill q else o).id ≠ j := by
          split <;> simpa using ho
        simp [remainingIn, hid']
      rw [List.map_cons, hskip', ih]
      by_cases hj : j = id
      · subst hj
        simp only [Function.update_self, hskip]
      · simp only [Function.update_of_ne hj, hskip]

section apply

variable {price : Int} {g : Grants} {os : List Order}

theorem applyGrants_price : ∀ f ∈ (applyGrants price g os).2, f.price = price := by
  induction g generalizing os with
  | nil => simp [applyGrants]
  | cons e g ih =>
    intro f hf
    rcases List.mem_cons.mp hf with rfl | hf
    · rfl
    · exact ih f hf

theorem applyGrants_total : fillTotal (applyGrants price g os).2 = g.total := by
  induction g generalizing os with
  | nil => rfl
  | cons e g ih => simp only [applyGrants, fillTotal_cons, Grants.total_cons, ih]

theorem applyGrants_length : (applyGrants price g os).2.length = g.length := by
  induction g generalizing os with
  | nil => rfl
  | cons e g ih => simp only [applyGrants, List.length_cons, ih]

theorem applyGrants_named : (applyGrants price g os).2.map (·.restingOrder) = g.keys := by
  induction g generalizing os with
  | nil => rfl
  | cons e g ih => simp only [applyGrants, List.map_cons, Grants.keys_cons, ih]

theorem applyGrants_orders : (applyGrants price g os).1 =
    os.map fun o => o.fill (filledBy o.id (applyGrants price g os).2) := by
  induction g generalizing os with
  | nil => simp [applyGrants, filledBy]
  | cons e g ih =>
    obtain ⟨id, q⟩ := e
    simp only [applyGrants, filledBy]
    rw [ih, List.map_map]
    refine List.map_congr_left fun o _ => ?_
    by_cases ho : o.id = id
    · simp only [Function.comp, ho, if_true, Order.fill_id, Order.fill_fill]
    · simp only [Function.comp, ho, if_false, Ne.symm ho, zero_add]

theorem filledBy_applyGrants (id : Nat) (h : g.keys.Nodup) :
    filledBy id (applyGrants price g os).2 = g.of id := by
  induction g generalizing os with
  | nil => rfl
  | cons e g ih =>
    obtain ⟨hk, hn⟩ := List.nodup_cons.mp h
    simp only [applyGrants, filledBy, Grants.of]
    split
    next he =>
      have hz : Grants.of id g = 0 := Grants.of_eq_zero (he ▸ hk)
      rw [ih hn, hz, add_zero]
    next => rw [ih hn, zero_add]

theorem applyGrants_bookable {strict : Prop} (hon : Grants.On Order.id os g)
    (hpos : strict → ∀ e ∈ g, 0 < e.2)
    (hcap : strict → ∀ o ∈ os, g.of o.id ≤ o.remainingQuantity) :
    Bookable strict (remainingIn os) (applyGrants price g os).2 := by
  obtain ⟨hnodup, hnamed⟩ := hon
  induction g generalizing os with
  | nil => trivial
  | cons e g ih =>
    obtain ⟨id, q⟩ := e
    obtain ⟨hk, hn⟩ := List.nodup_cons.mp hnodup
    obtain ⟨o, ho, hid⟩ := hnamed id (by simp)
    have hthere : (remainingIn os id).isSome = true := by
      simp only [remainingIn, Option.isSome_map, List.find?_isSome, beq_iff_eq]
      exact ⟨o, ho, hid⟩
    obtain ⟨v, hv⟩ := Option.isSome_iff_exists.mp hthere
    obtain ⟨x, hx, hxid, hxrem⟩ := exists_of_remainingIn hv
    let os' := os.map fun o => if o.id = id then o.fill q else o
    have hmap : remainingIn os' = Function.update (remainingIn os) id (some (v - q)) := by
      simp only [os', remainingIn_map_fill, hv, Option.map_some]
    have hrem : (remainingIn os' id).getD 0 = v - q := by
      rw [hmap, Function.update_self]
      rfl
    have hids : ∀ i : Nat, (∃ o ∈ os, o.id = i) → ∃ o ∈ os', o.id = i := by
      rintro i ⟨o, ho, rfl⟩
      refine ⟨_, List.mem_map.mpr ⟨o, ho, rfl⟩, ?_⟩
      split <;> rfl
    have hother : ∀ j ∈ Grants.keys g, j ≠ id := fun j hj he => hk (he ▸ hj)
    refine ⟨⟨v, hv, hrem⟩, fun _ f hf he => ?_, fun hs => ⟨hpos hs (id, q) (by simp), ?_⟩, ?_⟩
    · refine hother f.restingOrder ?_ he
      have hkeys : (applyGrants price g os').2.map (·.restingOrder) = Grants.keys g :=
        applyGrants_named
      exact hkeys ▸ List.mem_map.mpr ⟨f, hf, rfl⟩
    · have := hcap hs x hx
      simp only [Grants.of, hxid, if_true] at this
      change 0 ≤ (remainingIn os' id).getD 0
      omega
    · change Bookable strict (Function.update (remainingIn os) id
        (some ((remainingIn os' id).getD 0))) (applyGrants price g os').2
      rw [hrem, ← hmap]
      refine ih (fun hs e he => hpos hs e (List.mem_cons_of_mem _ he)) (fun hs y hy => ?_) hn
        fun j hj => hids j (hnamed j (List.mem_cons_of_mem _ hj))
      obtain ⟨z, hz, rfl⟩ := List.mem_map.mp hy
      have hzcap := hcap hs z hz
      split
      next hzid =>
        -- the order has its grant already, and no other
        have hzero : Grants.of (z.fill q).id g = 0 := Grants.of_eq_zero (by rw [Order.fill_id, hzid]; exact hk)
        simp only [Grants.of, hzid, if_true] at hzcap
        rw [hzero]
        simp only [Order.fill]
        omega
      next hzid =>
        simp only [Grants.of, Ne.symm hzid, if_false] at hzcap
        exact hzcap

end apply

/-- What each order of the level can be given. -/
abbrev GrantsWithin (os : List Order) (g : Grants) : Prop :=
  Grants.Within Order.id Order.remainingQuantity os g

/-- A level matched as `alloc` decides: the fills in the order in which they are written, and what
is left of the aggressor. Nothing happens without quantity or without orders. -/
def grantLevel (alloc : PriceLevel → Int → Grants × Int) (l : PriceLevel) (q : Int) : MatchOutcome :=
  if q ≤ 0 ∨ l.orders = [] then ⟨l.orders, [], q⟩
  else
    let a := alloc l q
    let r := applyGrants l.price a.1 l.orders
    ⟨r.1, r.2, a.2⟩

/-- A policy that first decides what each order gets. -/
structure Allocator where
  alloc : PriceLevel → Int → Grants × Int
  on : ∀ l q, l.Distinct → Grants.On Order.id l.orders (alloc l q).1
  within : ∀ l q, l.Distinct → l.Exact → 0 < q → GrantsWithin l.orders (alloc l q).1
  total : ∀ l q, l.Distinct → l.Exact → 0 < q → (alloc l q).1.total = min q l.totalQuantity
  left : ∀ l q, l.Distinct → l.Exact → 0 < q → (alloc l q).2 = q - min q l.totalQuantity

namespace Allocator

variable (A : Allocator)

def matchLevel (l : PriceLevel) (q : Int) : MatchOutcome :=
  grantLevel A.alloc l q

theorem matchLevel_total {l : PriceLevel} {q : Int} (hd : l.Distinct) (he : l.Exact)
    (hq : 0 < q) : fillTotal (A.matchLevel l q).results = min q l.totalQuantity := by
  unfold matchLevel grantLevel
  split
  next h =>
    have hnil : l.orders = [] := h.resolve_left (by omega)
    have htotal : l.totalQuantity = 0 := by rw [he.total, hnil, sumQty_nil]
    simp only [fillTotal_nil]
    omega
  next =>
    rw [← A.total l q hd he hq]
    exact applyGrants_total

theorem matchLevel_remaining {l : PriceLevel} {q : Int} (hd : l.Distinct) (he : l.Exact)
    (hq : 0 < q) : (A.matchLevel l q).remaining = q - fillTotal (A.matchLevel l q).results := by
  rw [A.matchLevel_total hd he hq]
  unfold matchLevel grantLevel
  split
  next h =>
    have hnil : l.orders = [] := h.resolve_left (by omega)
    have htotal : l.totalQuantity = 0 := by rw [he.total, hnil, sumQty_nil]
    simp only
    omega
  next => exact A.left l q hd he hq

def policy : MatchPolicy where
  matchLevel := A.matchLevel
  orders_eq l q _ := by
    unfold matchLevel grantLevel
    split
    · simp [filledBy]
    · exact applyGrants_orders
  price_eq l q f hf := by
    unfold matchLevel grantLevel at hf
    split at hf
    · simp at hf
    · exact applyGrants_price f hf
  bookable l q hd := by
    unfold matchLevel grantLevel
    split
    · trivial
    · exact applyGrants_bookable (A.on l q hd) (fun hs => (A.within l q hd hs.1 hs.2).positive)
        fun hs => (A.within l q hd hs.1 hs.2).capped
  remaining_eq _ _ hd he hq := A.matchLevel_remaining hd he hq
  total_eq _ _ hd he hq := A.matchLevel_total hd he hq

theorem policy_writes : A.policy.Writes 0 := by
  intro l q hd
  change (A.matchLevel l q).results.length ≤ _
  unfold matchLevel grantLevel
  split
  · exact Nat.zero_le _
  · exact applyGrants_length.trans_le (A.on l q hd).length_le

variable {l : PriceLevel} {q : Int}

theorem filledBy_policy (hd : l.Distinct) (hq : 0 < q) (hne : l.orders ≠ []) (id : Nat) :
    filledBy id (A.policy.matchLevel l q).results = (A.alloc l q).1.of id := by
  have hsome : ¬(q ≤ 0 ∨ l.orders = []) := by simp [hne, hq]
  change filledBy id (grantLevel A.alloc l q).results = _
  unfold grantLevel
  rw [if_neg hsome]
  exact filledBy_applyGrants id (A.on l q hd).nodup

theorem results_of_nonpos (hq : q ≤ 0) : (A.policy.matchLevel l q).results = [] := by
  change (grantLevel A.alloc l q).results = []
  unfold grantLevel
  rw [if_pos (.inl hq)]

end Allocator

end ExchangeSim
