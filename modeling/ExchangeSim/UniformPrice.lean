import Mathlib.Algebra.Order.BigOperators.Group.List
import Mathlib.Data.List.MinMax
import Mathlib.Tactic

/-!
Offers to buy and to sell at limit prices, and the volume that one price for all can execute.
-/

namespace ExchangeSim

open List

namespace UniformPrice

variable {α : Type*}

def quantityOf (f : α → Bool) (offers : List (α × Int)) : Int :=
  ((offers.filter fun x => f x.1).map (·.2)).sum

@[simp] theorem quantityOf_nil (f : α → Bool) : quantityOf f [] = 0 := rfl

@[simp] theorem quantityOf_cons (f : α → Bool) (x : α × Int) (xs : List (α × Int)) :
    quantityOf f (x :: xs) = (if f x.1 then x.2 else 0) + quantityOf f xs := by
  by_cases h : f x.1 <;> simp [quantityOf, h]

@[simp] theorem quantityOf_append (f : α → Bool) (xs ys : List (α × Int)) :
    quantityOf f (xs ++ ys) = quantityOf f xs + quantityOf f ys := by
  simp [quantityOf]

theorem quantityOf_congr {f g : α → Bool} {offers : List (α × Int)}
    (h : ∀ x ∈ offers, f x.1 = g x.1) : quantityOf f offers = quantityOf g offers := by
  rw [quantityOf, quantityOf, filter_congr h]

theorem quantityOf_nonneg {f : α → Bool} {offers : List (α × Int)}
    (hnn : ∀ x ∈ offers, 0 ≤ x.2) : 0 ≤ quantityOf f offers := by
  apply sum_nonneg
  intro q hq
  obtain ⟨x, hx, rfl⟩ := mem_map.mp hq
  exact hnn x (mem_of_mem_filter hx)

theorem quantityOf_map_le {β : Type*} {f : α → Bool} {k : β → α} {g h : β → Int} {xs : List β}
    (hle : ∀ x ∈ xs, g x ≤ h x) :
    quantityOf f (xs.map fun x => (k x, g x)) ≤ quantityOf f (xs.map fun x => (k x, h x)) := by
  induction xs with
  | nil => exact le_rfl
  | cons x xs ih =>
    have hx := hle x (by simp)
    have hxs := ih fun y hy => hle y (by simp [hy])
    rw [map_cons, map_cons, quantityOf_cons, quantityOf_cons]
    dsimp only
    split <;> omega

theorem quantityOf_mono {f g : α → Bool} {offers : List (α × Int)}
    (hnn : ∀ x ∈ offers, 0 ≤ x.2) (h : ∀ a, f a = true → g a = true) :
    quantityOf f offers ≤ quantityOf g offers := by
  induction offers with
  | nil => exact le_refl _
  | cons x xs ih =>
    have hx := hnn x (by simp)
    have hxs := ih fun y hy => hnn y (by simp [hy])
    rw [quantityOf_cons, quantityOf_cons]
    by_cases hf : f x.1 = true
    · rw [if_pos hf, if_pos (h x.1 hf)]
      omega
    · rw [if_neg hf]
      split <;> omega

variable [LinearOrder α]

/-- What is wanted at `p`: the offers to buy at `p` or above. -/
def demand (bids : List (α × Int)) (p : α) : Int :=
  quantityOf (fun a => decide (p ≤ a)) bids

/-- What is on offer at `p`: the offers to sell at `p` or below. -/
def supply (asks : List (α × Int)) (p : α) : Int :=
  quantityOf (fun a => decide (a ≤ p)) asks

def volume (bids asks : List (α × Int)) (p : α) : Int :=
  min (demand bids p) (supply asks p)

theorem volume_nonneg {bids asks : List (α × Int)} (hbids : ∀ x ∈ bids, 0 ≤ x.2)
    (hasks : ∀ x ∈ asks, 0 ≤ x.2) (p : α) : 0 ≤ volume bids asks p :=
  le_min (quantityOf_nonneg hbids) (quantityOf_nonneg hasks)

theorem supply_monotone {asks : List (α × Int)} (hnn : ∀ x ∈ asks, 0 ≤ x.2) :
    Monotone (supply asks) := by
  intro p q hpq
  refine quantityOf_mono hnn fun a ha => ?_
  simp only [decide_eq_true_eq] at ha ⊢
  exact ha.trans hpq

theorem exists_demand_eq {bids : List (α × Int)} {p : α} (h : demand bids p ≠ 0) :
    ∃ x ∈ bids, p ≤ x.1 ∧ demand bids x.1 = demand bids p := by
  have hne : bids.filter (fun x => decide (p ≤ x.1)) ≠ [] := by
    intro hnil
    exact h (by rw [demand, quantityOf, hnil, map_nil, sum_nil])
  obtain ⟨x, hx⟩ := Option.ne_none_iff_exists'.mp
    (mt (argmin_eq_none (f := Prod.fst)).mp hne)
  obtain ⟨hmem, hp⟩ := mem_filter.mp (argmin_mem hx)
  have hpx : p ≤ x.1 := by simpa using hp
  refine ⟨x, hmem, hpx, quantityOf_congr fun y hy => ?_⟩
  -- `x` is the lowest of the limits from `p` on
  have hiff : x.1 ≤ y.1 ↔ p ≤ y.1 := by
    refine ⟨hpx.trans, fun hpy => ?_⟩
    exact le_of_mem_argmin (f := Prod.fst) (mem_filter.mpr ⟨hy, by simpa using hpy⟩) hx
  simp only [hiff]

theorem exists_volume_le {bids asks : List (α × Int)} (hnn : ∀ x ∈ asks, 0 ≤ x.2) {p : α}
    (h : 0 < volume bids asks p) : ∃ x ∈ bids, volume bids asks p ≤ volume bids asks x.1 := by
  have hpos : 0 < demand bids p := lt_of_lt_of_le h (min_le_left _ _)
  obtain ⟨x, hx, hpx, hdemand⟩ := exists_demand_eq hpos.ne'
  refine ⟨x, hx, ?_⟩
  rw [volume, volume, hdemand]
  exact min_le_min_left _ (supply_monotone hnn hpx)

/-- The order in which prices are preferred: by volume, then by a small imbalance, then by a
small value of `far`, then by the price itself. -/
def rank (bids asks : List (α × Int)) (far : α → Int) (p : α) : Int ×ₗ (Int ×ₗ (Int ×ₗ α)) :=
  toLex (volume bids asks p, toLex (-|demand bids p - supply asks p|, toLex (-far p, p)))

theorem rank_lt_iff {bids asks : List (α × Int)} {far : α → Int} {p q : α} :
    rank bids asks far p < rank bids asks far q ↔
      volume bids asks p < volume bids asks q ∨ volume bids asks p = volume bids asks q ∧
        (|demand bids q - supply asks q| < |demand bids p - supply asks p| ∨
          |demand bids q - supply asks q| = |demand bids p - supply asks p| ∧
            (far q < far p ∨ far q = far p ∧ p < q)) := by
  simp only [rank, Prod.Lex.toLex_lt_toLex, neg_lt_neg_iff, neg_inj]
  constructor <;> rintro (h | ⟨h, h | ⟨h', h'' | h''⟩⟩) <;> simp_all

theorem volume_le_of_rank_le {bids asks : List (α × Int)} {far : α → Int} {p q : α}
    (h : rank bids asks far p ≤ rank bids asks far q) :
    volume bids asks p ≤ volume bids asks q :=
  not_lt.mp fun hlt => not_lt.mpr h (rank_lt_iff.mpr (.inl hlt))

theorem rank_injective (bids asks : List (α × Int)) (far : α → Int) :
    Function.Injective (rank bids asks far) := by
  intro p q h
  simp only [rank, toLex_inj, Prod.mk.injEq] at h
  exact h.2.2.2

end UniformPrice

end ExchangeSim
