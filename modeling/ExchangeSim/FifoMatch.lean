import ExchangeSim.MatchPolicy

namespace ExchangeSim

/-- The walk of `FifoMatch::match` from the head of the level. -/
def fifoWalk (price : Int) : List Order → Int → MatchOutcome
  | [], remaining => ⟨[], [], remaining⟩
  | o :: os, remaining =>
    if remaining > 0 then
      let q := min remaining o.remainingQuantity
      let o' := o.fill q
      let r := fifoWalk price os (remaining - q)
      ⟨o' :: r.orders, ⟨o.id, price, q, o'.remainingQuantity⟩ :: r.results, r.remaining⟩
    else ⟨o :: os, [], remaining⟩

theorem fifoWalk_mem {price : Int} {os : List Order} {remaining : Int} {f : FillResult}
    (h : f ∈ (fifoWalk price os remaining).results) :
    f.price = price ∧ ∃ o ∈ os, f.restingOrder = o.id ∧
      f.restingRemaining = o.remainingQuantity - f.quantity := by
  induction os generalizing remaining with
  | nil => simp [fifoWalk] at h
  | cons o os ih =>
    unfold fifoWalk at h
    split at h
    next =>
      rcases List.mem_cons.mp h with rfl | h
      · exact ⟨rfl, o, by simp, rfl, rfl⟩
      · obtain ⟨hp, o', ho', he⟩ := ih h
        exact ⟨hp, o', by simp [ho'], he⟩
    next => simp at h

theorem fifoWalk_sublist (price : Int) (os : List Order) (remaining : Int) :
    ((fifoWalk price os remaining).results.map (·.restingOrder)).Sublist (os.map (·.id)) := by
  induction os generalizing remaining with
  | nil => simp [fifoWalk]
  | cons o os ih =>
    unfold fifoWalk
    split
    next => simpa using ih _
    next => simp

theorem fifoWalk_orders {price : Int} {os : List Order} {remaining : Int}
    (nodup : (os.map (·.id)).Nodup) : (fifoWalk price os remaining).orders =
      os.map fun o => o.fill (filledBy o.id (fifoWalk price os remaining).results) := by
  induction os generalizing remaining with
  | nil => simp [fifoWalk]
  | cons o os ih =>
    obtain ⟨ho, hos⟩ := List.nodup_cons.mp nodup
    unfold fifoWalk
    split
    next =>
      have hz : filledBy o.id
          (fifoWalk price os (remaining - min remaining o.remainingQuantity)).results = 0 := by
        apply filledBy_eq_zero
        intro f hf he
        exact ho ((fifoWalk_sublist price os _).subset (List.mem_map.mpr ⟨f, hf, he⟩))
      have hrest : ∀ x ∈ os, o.id ≠ x.id := by
        intro x hx he
        exact ho (List.mem_map.mpr ⟨x, hx, he.symm⟩)
      simp only [List.map_cons, filledBy, if_true, hz, add_zero, ih hos]
      congr 1
      apply List.map_congr_left
      intro x hx
      rw [if_neg (hrest x hx), zero_add]
    next => simp [filledBy, Order.fill]

theorem fifoWalk_remaining (price : Int) (os : List Order) (remaining : Int) :
    (fifoWalk price os remaining).remaining =
      remaining - fillTotal (fifoWalk price os remaining).results := by
  induction os generalizing remaining with
  | nil => simp [fifoWalk]
  | cons o os ih =>
    unfold fifoWalk
    split
    next =>
      simp only [fillTotal_cons, ih]
      omega
    next => simp

theorem fifoWalk_bounds {price : Int} {os : List Order} {remaining : Int}
    (positive : ∀ o ∈ os, 0 < o.remainingQuantity) {f : FillResult}
    (h : f ∈ (fifoWalk price os remaining).results) :
    0 < f.quantity ∧ 0 ≤ f.restingRemaining := by
  induction os generalizing remaining with
  | nil => simp [fifoWalk] at h
  | cons o os ih =>
    unfold fifoWalk at h
    split at h
    next hr =>
      rcases List.mem_cons.mp h with rfl | h
      · have ho := positive o (by simp)
        simp only [Order.fill]
        omega
      · exact ih (fun x hx => positive x (by simp [hx])) h
    next => simp at h

theorem fifoWalk_of_nonpos {price q : Int} {os : List Order} (hq : q ≤ 0) :
    fifoWalk price os q = ⟨os, [], q⟩ := by
  cases os with
  | nil => rfl
  | cons o os => exact if_neg (by omega)

theorem fifoWalk_total {price : Int} {os : List Order} {remaining : Int}
    (positive : ∀ o ∈ os, 0 < o.remainingQuantity) (hr : 0 ≤ remaining) :
    fillTotal (fifoWalk price os remaining).results = min remaining (sumQty os) := by
  induction os generalizing remaining with
  | nil => simpa [fifoWalk] using hr
  | cons o os ih =>
    have ho := positive o (by simp)
    have hos : ∀ x ∈ os, 0 < x.remainingQuantity := fun x hx => positive x (by simp [hx])
    have hsum : 0 ≤ sumQty os :=
      List.sum_nonneg (by simpa using fun x hx => (hos x hx).le)
    unfold fifoWalk
    split
    next =>
      have := ih hos (show 0 ≤ remaining - min remaining o.remainingQuantity by omega)
      simp only [fillTotal_cons, sumQty_cons, this]
      omega
    next =>
      simp only [fillTotal_nil, sumQty_cons]
      omega

/-- `FifoMatch`: time priority. -/
def fifoMatch : MatchPolicy where
  matchLevel l q := fifoWalk l.price l.orders q
  orders_eq _ _ hd := fifoWalk_orders hd
  price_eq _ _ _ hf := (fifoWalk_mem hf).1
  bookable l q hd := by
    apply bookable_of_nodup
    · exact (fifoWalk_sublist _ _ _).nodup hd
    · intro f hf
      obtain ⟨_, o, ho, hid, hrem⟩ := fifoWalk_mem hf
      exact ⟨o.remainingQuantity, hid ▸ remainingIn_of_mem hd ho, hrem⟩
    · exact fun hs f hf => fifoWalk_bounds hs.1.positive hf
  remaining_eq _ _ _ _ _ := fifoWalk_remaining _ _ _
  total_eq l q _ he hq := by
    rw [he.total]
    exact fifoWalk_total he.positive hq.le

theorem fifoMatch_writes : fifoMatch.Writes 0 := by
  intro l q _
  have hlen := (fifoWalk_sublist l.price l.orders q).length_le
  simp only [List.length_map] at hlen
  exact hlen

end ExchangeSim
