import ExchangeSim.PriceTime
import ExchangeSim.Settle

/-!
The front of a side: the oldest order of its best level, and what a fill of it is for the
reference machine.
-/

namespace ExchangeSim

open List PriceLevel Holdings

open PriceTime (Resting Queue)

/-- An order as the reference machine sees it. -/
def Order.resting (o : Order) : Resting where
  id := o.id
  visible := o.remainingQuantity
  hidden := if 0 < o.displayQty then o.totalQty - o.filledQuantity - o.remainingQuantity else 0
  display := o.displayQty

def PriceLevel.queue (l : PriceLevel) : Queue :=
  (l.price, l.orders.map Order.resting)

structure SideShaped (s : Side) (lvls : List PriceLevel) : Prop where
  sound : SideSound True (bookBefore s) (bookFits s) lvls
  nodup : (idsIn lvls).Nodup

theorem resting_fill (o : Order) (q : Int) : (o.fill q).resting =
    { o.resting with visible := o.remainingQuantity - q } := by
  by_cases hd : 0 < o.displayQty
  · simp only [Order.resting, Order.fill, hd, if_true, Resting.mk.injEq, true_and, and_true]
    omega
  · simp [Order.resting, Order.fill, hd]

/-- A used-up iceberg with its next tranche. -/
def Order.revealed (o : Order) : Order :=
  { o.fill o.remainingQuantity with
    remainingQuantity := (o.fill o.remainingQuantity).nextTranche }

theorem resting_next (o : Order) : o.resting.next =
    if (o.fill o.remainingQuantity).hasNextTranche then some o.revealed.resting else none := by
  have hiff : (o.fill o.remainingQuantity).hasNextTranche = true ↔
      0 < o.displayQty ∧ o.filledQuantity + o.remainingQuantity < o.totalQty :=
    Order.hasNextTranche_iff
  by_cases hd : 0 < o.displayQty
  · by_cases hh : o.filledQuantity + o.remainingQuantity < o.totalQty
    · rw [if_pos (hiff.mpr ⟨hd, hh⟩)]
      have hpos : 0 < o.totalQty - o.filledQuantity - o.remainingQuantity := by omega
      simp only [Resting.next, Order.resting, Order.revealed, Order.fill, Order.nextTranche, hd,
        if_true, hpos]
      congr 2 <;> omega
    · rw [if_neg fun h => hh (hiff.mp h).2]
      have hneg : ¬0 < o.totalQty - o.filledQuantity - o.remainingQuantity := by omega
      simp only [Resting.next, Order.resting, hd, if_true, hneg, if_false]
  · rw [if_neg fun h => hd (hiff.mp h).1]
    simp [Resting.next, Order.resting, hd]

variable {s : Side} {l : PriceLevel} {deeper : List PriceLevel} {o : Order} {ys : List Order}

section

variable (h : SideShaped s (l :: deeper))

include h

section

variable (hq : l.orders = o :: ys)

include hq

theorem SideShaped.focus :
    Focus o [] l deeper [] ys := by
  obtain ⟨Xs, Ys, hf⟩ := exists_focus h.nodup (A := []) rfl (o := o) (by simp [hq])
  cases Xs with
  | nil =>
    have hys : ys = Ys := by simpa [hq] using hf.queue
    exact hys ▸ hf
  | cons x Xs =>
    obtain ⟨rfl, -⟩ : o = x ∧ ys = Xs ++ o :: Ys := by simpa [hq] using hf.queue
    exact absurd rfl (hf.inside o (by simp))

theorem unlinkFrom_queue :
    (unlinkFrom o (l :: deeper)).1.map queue =
      PriceTime.withQueue l.price (ys.map Order.resting) (deeper.map queue) := by
  have hf := h.focus hq
  have hlen : l.orderCount - 1 = ys.length := by simp [(h.sound.sound l (by simp)).count, hq]
  have hunlink : (l.unlink o).orders = ys := by
    simpa [unlink] using hf.filter_queue
  rw [show unlinkFrom o (l :: deeper) = _ from hf.unlinkFrom_eq (A := []), hlen]
  cases ys with
  | nil => simp [PriceTime.withQueue]
  | cons y ys =>
    have hqueue : (l.unlink o).queue = (l.price, (y :: ys).map Order.resting) :=
      Prod.ext rfl (congrArg (map Order.resting) hunlink)
    simp [PriceTime.withQueue, hqueue]

theorem settledLevel_unlinkFrom {t : Int}
    (ht : o.remainingQuantity - t = 0) (hn : (o.fill t).hasNextTranche = false) :
    (settledLevel o t l).toList ++ deeper = (unlinkFrom o (l :: deeper)).1 := by
  rw [show unlinkFrom o (l :: deeper) = _ from (h.focus hq).unlinkFrom_eq (A := [])]
  unfold settledLevel
  rw [if_pos ht, hn]
  by_cases hone : l.orderCount - 1 = 0 <;> simp [hone]

theorem settled_queue (t : Int) :
    ((settledLevel o t l).toList ++ deeper).map queue =
      PriceTime.afterFill l.price o.resting (ys.map Order.resting) (deeper.map queue) t := by
  have hf := h.focus hq
  unfold PriceTime.afterFill
  by_cases ht : o.remainingQuantity - t = 0
  · obtain rfl : t = o.remainingQuantity := by omega
    rw [if_pos (show o.remainingQuantity = o.resting.visible from rfl), resting_next]
    cases hn : (o.fill o.remainingQuantity).hasNextTranche with
    | true =>
      have hx : (l.reveal o o.remainingQuantity).orders = ys ++ [o.revealed] := by
        have := (hf.fillOrder o.remainingQuantity).filter_queue
        simp only [reveal, requeue, this, nil_append]
        rfl
      have hqueue : (l.reveal o o.remainingQuantity).queue =
          (l.price, (ys ++ [o.revealed]).map Order.resting) :=
        Prod.ext rfl (congrArg (map Order.resting) hx)
      have hset : settledLevel o o.remainingQuantity l =
          some (l.reveal o o.remainingQuantity) := by
        simp [settledLevel, hn]
      simp only [hset, if_true, Option.toList_some, singleton_append, List.map_cons, hqueue]
      simp [PriceTime.withQueue]
    | false =>
      rw [settledLevel_unlinkFrom h hq ht hn, unlinkFrom_queue h hq]
      simp
  · have hne : ¬t = o.resting.visible := fun he => ht (by rw [he]; exact sub_self _)
    rw [settledLevel, if_neg ht, if_neg hne]
    have hqueue : (l.fillOrder o t).queue = (l.price, (o.fill t :: ys).map Order.resting) :=
      Prod.ext rfl (congrArg (map Order.resting) (hf.fillOrder_orders t))
    simp only [Option.toList_some, singleton_append, List.map_cons, hqueue, resting_fill]
    rfl

omit hq in
theorem SideShaped.tail : SideShaped s deeper := by
  have hn := h.nodup
  simp only [idsIn, ordersIn_cons, map_append] at hn
  exact ⟨h.sound.remove (A := []), (List.nodup_append.mp hn).2.1⟩

omit hq in
theorem SideShaped.replace {l' : PriceLevel}
    (hprice : l'.price = l.price) (hsound : l'.Sound True (bookFits s)) {xs : List Nat}
    (hperm : (l'.orders.map (·.id)).Perm xs) (hsub : xs.Sublist (l.orders.map (·.id))) :
    SideShaped s (l' :: deeper) := by
  refine ⟨h.sound.replace (A := []) hprice hsound, ?_⟩
  have hn : (l.orders.map (·.id) ++ idsIn deeper).Nodup := by
    simpa [idsIn] using h.nodup
  have hn' := (hsub.append_right (idsIn deeper)).nodup hn
  have := ((hperm.append_right (idsIn deeper)).nodup_iff).mpr hn'
  simpa [idsIn] using this

theorem SideShaped.unlinkFrom :
    SideShaped s (unlinkFrom o (l :: deeper)).1 := by
  have hf := h.focus hq
  have hlevel : l.Sound True (bookFits s) := h.sound.sound l (by simp)
  rw [show ExchangeSim.unlinkFrom o (l :: deeper) = _ from hf.unlinkFrom_eq (A := [])]
  split
  next => exact h.tail
  next hone =>
    have hys : ([] : List Order) ++ ys ≠ [] := by
      intro hnil
      apply hone
      simp only [nil_append] at hnil
      simp [hlevel.count, hq, hnil]
    exact h.replace rfl (hlevel.unlink hf hys) (Perm.refl _)
      ((filter_sublist (p := fun x : Order => x.id != o.id)).map _)

theorem SideShaped.settled {t : Int}
    (ht : t ≤ o.remainingQuantity) :
    SideShaped s ((settledLevel o t l).toList ++ deeper) := by
  have hf := h.focus hq
  have hlevel : l.Sound True (bookFits s) := h.sound.sound l (by simp)
  have hfits : bookFits s l.price o := hlevel.fits o (by simp [hq])
  by_cases hz : o.remainingQuantity - t = 0
  · cases hn : (o.fill t).hasNextTranche with
    | true =>
      have hset : settledLevel o t l = some (l.reveal o t) := by
        simp [settledLevel, hz, hn]
      rw [hset]
      refine h.replace rfl (hlevel.reveal hf hz hfits fun _ => Order.nextTranche_pos hn) ?_
        (Sublist.refl _)
      have := (hf.fillOrder t).filter_queue
      simp only [reveal, requeue, this, nil_append, hq, map_append,
        List.map_cons, map_nil]
      exact perm_append_singleton _ _
    | false =>
      rw [settledLevel_unlinkFrom h hq hz hn]
      exact h.unlinkFrom hq
  · rw [settledLevel, if_neg hz]
    refine h.replace rfl (hlevel.fillOrder hf hfits fun _ => by omega) ?_ (Sublist.refl _)
    rw [hf.fillOrder_orders, hq]
    exact Perm.refl _

end

end

end ExchangeSim
