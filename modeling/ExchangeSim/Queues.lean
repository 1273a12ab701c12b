import Mathlib.Tactic

/-!
Queues of amounts under keys: an amount is taken from the entry with a key, and an entry that
comes to nothing leaves its queue.
-/

namespace ExchangeSim.Queues

variable {κ : Type} [DecidableEq κ] {k : κ} {q : Int} {xs ys : List (κ × Int)}

def takeFrom (k : κ) (q : Int) (xs : List (κ × Int)) : List (κ × Int) :=
  xs.filterMap fun x =>
    if x.1 = k then if x.2 - q = 0 then none else some (k, x.2 - q) else some x

def without (k : κ) (xs : List (κ × Int)) : List (κ × Int) :=
  xs.filter fun x => x.1 ≠ k

theorem takeFrom_append : takeFrom k q (xs ++ ys) = takeFrom k q xs ++ takeFrom k q ys :=
  List.filterMap_append

theorem without_append : without k (xs ++ ys) = without k xs ++ without k ys :=
  List.filter_append xs ys

theorem takeFrom_absent (h : ∀ x ∈ xs, x.1 ≠ k) : takeFrom k q xs = xs := by
  induction xs with
  | nil => rfl
  | cons x xs ih =>
    have hx : x.1 ≠ k := h x (by simp)
    have hxs := ih fun y hy => h y (by simp [hy])
    simp only [takeFrom] at hxs ⊢
    simp [hx, hxs]

theorem without_absent (h : ∀ x ∈ xs, x.1 ≠ k) : without k xs = xs :=
  List.filter_eq_self.mpr (by simpa using h)

theorem takeFrom_middle (hx : ∀ x ∈ xs, x.1 ≠ k) (hy : ∀ y ∈ ys, y.1 ≠ k) (v : Int) :
    takeFrom k q (xs ++ (k, v) :: ys) =
      xs ++ ((if v - q = 0 then [] else [(k, v - q)]) ++ ys) := by
  have hone : takeFrom k q [(k, v)] = if v - q = 0 then [] else [(k, v - q)] := by
    by_cases h : v - q = 0 <;> simp [takeFrom, h]
  rw [← List.singleton_append, takeFrom_append, takeFrom_append, takeFrom_absent hx,
    takeFrom_absent hy, hone]

theorem without_middle (hx : ∀ x ∈ xs, x.1 ≠ k) (hy : ∀ y ∈ ys, y.1 ≠ k) (v : Int) :
    without k (xs ++ (k, v) :: ys) = xs ++ ys := by
  rw [← List.singleton_append, without_append, without_append, without_absent hx,
    without_absent hy]
  simp [without]

end ExchangeSim.Queues
