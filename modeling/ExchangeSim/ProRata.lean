import ExchangeSim.Allocator

namespace ExchangeSim

open List Grants

/-- The proportional share of an order, multiplied first and divided second. -/
def Order.share (toFill total : Int) (o : Order) : Int :=
  (o.remainingQuantity * toFill).tdiv total

/-- What a signed word of 64 bits keeps of a number. -/
def word (v : Int) : Int :=
  v.bmod (2 ^ 64)

/-- The share as the policies compute it, with the product in a signed word. -/
def Order.wordShare (toFill total : Int) (o : Order) : Int :=
  (word (o.remainingQuantity * toFill)).tdiv total

/-- The proportional pass: an entry for each order whose share is kept. -/
def baseGrants (keep : Order → Int → Bool) (share : Order → Int) : List Order → Grants
  | [] => []
  | o :: os =>
    let alloc := share o
    if keep o alloc then (o.id, alloc) :: baseGrants keep share os
    else baseGrants keep share os

section base

variable {keep : Order → Int → Bool} {share : Order → Int} {os : List Order}

theorem baseGrants_sublist : (baseGrants keep share os).keys.Sublist (os.map Order.id) := by
  induction os with
  | nil => exact .slnil
  | cons o os ih =>
    unfold baseGrants
    dsimp only
    split
    · exact ih.cons_cons o.id
    · exact ih.cons o.id

theorem baseGrants_on (hn : (os.map Order.id).Nodup) :
    Grants.On Order.id os (baseGrants keep share os) := by
  refine ⟨baseGrants_sublist.nodup hn, fun k hk => ?_⟩
  obtain ⟨o, ho, rfl⟩ := mem_map.mp (baseGrants_sublist.subset hk)
  exact ⟨o, ho, rfl⟩

theorem mem_baseGrants {e : Nat × Int} (h : e ∈ baseGrants keep share os) :
    ∃ o ∈ os, e = (o.id, share o) ∧ keep o (share o) = true := by
  induction os with
  | nil => simp [baseGrants] at h
  | cons o os ih =>
    unfold baseGrants at h
    dsimp only at h
    split at h
    next hkeep =>
      rcases List.mem_cons.mp h with rfl | h
      · exact ⟨o, by simp, rfl, hkeep⟩
      · obtain ⟨x, hx, hxe⟩ := ih h
        exact ⟨x, by simp [hx], hxe⟩
    next =>
      obtain ⟨x, hx, hxe⟩ := ih h
      exact ⟨x, by simp [hx], hxe⟩

theorem baseGrants_congr {keep' : Order → Int → Bool} {share' : Order → Int}
    (h : ∀ o ∈ os, (keep o (share o) = true ↔ keep' o (share' o) = true) ∧
      (keep o (share o) = true → share o = share' o)) :
    baseGrants keep share os = baseGrants keep' share' os := by
  induction os with
  | nil => rfl
  | cons o os ih =>
    have hrest := ih fun x hx => h x (by simp [hx])
    obtain ⟨hkeep, hshare⟩ := h o (by simp)
    unfold baseGrants
    by_cases hk : keep o (share o) = true
    · simp only [if_pos hk, if_pos (hkeep.mp hk), hrest]
      rw [hshare hk]
    · simp only [if_neg hk, if_neg (mt hkeep.mpr hk), hrest]

theorem baseGrants_of (hn : (os.map Order.id).Nodup) {o : Order} (ho : o ∈ os) :
    (baseGrants keep share os).of o.id = if keep o (share o) then share o else 0 := by
  induction os with
  | nil => simp at ho
  | cons x os ih =>
    obtain ⟨hx, hn⟩ := List.nodup_cons.mp hn
    unfold baseGrants
    dsimp only
    rcases List.mem_cons.mp ho with rfl | ho
    · have hzero : (baseGrants keep share os).of o.id = 0 :=
        of_eq_zero fun hk => hx (baseGrants_sublist.subset hk)
      split
      · simp [of]
      · exact hzero
    · have hne : x.id ≠ o.id := fun he => hx (he ▸ mem_map.mpr ⟨o, ho, rfl⟩)
      split
      · simp only [of, hne, if_false]
        exact ih hn ho
      · exact ih hn ho

end base

section share

variable {os : List Order} {t : Int} {o : Order}

theorem share_eq {T : Int} (hrem : 0 ≤ o.remainingQuantity) (ht : 0 ≤ t) :
    o.share t T = o.remainingQuantity * t / T :=
  Int.tdiv_eq_ediv_of_nonneg (mul_nonneg hrem ht)

theorem share_nonneg {T : Int} (hrem : 0 ≤ o.remainingQuantity) (ht : 0 ≤ t) (hT : 0 ≤ T) :
    0 ≤ o.share t T := by
  rw [share_eq hrem ht]
  exact Int.ediv_nonneg (mul_nonneg hrem ht) hT

theorem share_le {T : Int} (hrem : 0 ≤ o.remainingQuantity) (ht : 0 ≤ t) (htT : t ≤ T) :
    o.share t T ≤ o.remainingQuantity := by
  rw [share_eq hrem ht]
  rcases eq_or_lt_of_le (ht.trans htT) with hT | hT
  · rw [← hT, Int.ediv_zero]
    exact hrem
  · exact Int.ediv_le_of_le_mul hT (mul_le_mul_of_nonneg_left htT hrem)

theorem share_lt {T : Int} (hrem : 0 < o.remainingQuantity) (ht : 0 ≤ t) (htT : t < T) :
    o.share t T < o.remainingQuantity := by
  rw [share_eq hrem.le ht]
  exact Int.ediv_lt_of_lt_mul (by omega) (mul_lt_mul_of_pos_left htT hrem)

theorem sum_share_add_mod (T : Int) (hpos : ∀ o ∈ os, 0 ≤ o.remainingQuantity) (ht : 0 ≤ t) :
    T * (os.map fun o => o.share t T).sum + (os.map fun o => o.remainingQuantity * t % T).sum =
      t * sumQty os := by
  induction os with
  | nil => simp
  | cons o os ih =>
    have hrest := ih fun x hx => hpos x (by simp [hx])
    have hdiv := Int.mul_ediv_add_emod (o.remainingQuantity * t) T
    rw [← share_eq (hpos o (by simp)) ht] at hdiv
    simp only [map_cons, sum_cons, sumQty_cons, mul_add]
    linarith

theorem sum_mod_bounds (t : Int) {T : Int} (hT : 0 < T) (os : List Order) :
    0 ≤ (os.map fun o => o.remainingQuantity * t % T).sum ∧
      (os ≠ [] → (os.map fun o => o.remainingQuantity * t % T).sum < T * os.length) := by
  induction os with
  | nil => simp
  | cons o os ih =>
    have hlow := Int.emod_nonneg (o.remainingQuantity * t) hT.ne'
    have hhigh := Int.emod_lt_of_pos (o.remainingQuantity * t) hT
    obtain ⟨hnonneg, hlt⟩ := ih
    simp only [map_cons, sum_cons, List.length_cons, Nat.cast_add, Nat.cast_one, mul_add,
      mul_one]
    refine ⟨by omega, fun _ => ?_⟩
    cases os with
    | nil => simpa using hhigh
    | cons x os =>
      have := hlt (by simp)
      omega

section

variable (hpos : ∀ o ∈ os, 0 ≤ o.remainingQuantity)

include hpos

theorem sumQty_nonneg : 0 ≤ sumQty os :=
  sum_nonneg (by simpa using hpos)

theorem remaining_le_sumQty (ho : o ∈ os) :
    o.remainingQuantity ≤ sumQty os := by
  have hall : ∀ q ∈ os.map Order.remainingQuantity, 0 ≤ q := by simpa using hpos
  exact single_le_sum hall _ (mem_map.mpr ⟨o, ho, rfl⟩)

theorem sum_share_le (ht : 0 ≤ t) :
    (os.map fun o => o.share t (sumQty os)).sum ≤ t := by
  rcases eq_or_lt_of_le (sumQty_nonneg hpos) with hT | hT
  · have hzero : (os.map fun o => o.share t (sumQty os)).sum = 0 := by
      refine sum_eq_zero fun x hx => ?_
      obtain ⟨o, -, rfl⟩ := mem_map.mp hx
      simp [Order.share, ← hT]
    omega
  · have hsum := sum_share_add_mod (sumQty os) hpos ht
    have hmod := (sum_mod_bounds t hT os).1
    refine le_of_mul_le_mul_left ?_ hT
    rw [mul_comm (sumQty os) t]
    omega

end

theorem lt_sum_share (hpos : ∀ o ∈ os, 0 < o.remainingQuantity) (ht : 0 ≤ t)
    (hT : 0 < sumQty os) : t - (os.map fun o => o.share t (sumQty os)).sum < os.length := by
  have hne : os ≠ [] := by
    rintro rfl
    simp at hT
  have hsum := sum_share_add_mod (sumQty os) (fun o ho => (hpos o ho).le) ht
  have hmod := (sum_mod_bounds t hT os).2 hne
  refine lt_of_mul_lt_mul_left ?_ hT.le
  rw [mul_sub, mul_comm (sumQty os) t]
  omega

end share

section level

variable {keep : Order → Int → Bool} {t : Int} {os : List Order}

theorem baseGrants_within (hkeep : ∀ o a, keep o a = true → 0 < a)
    (hn : (os.map Order.id).Nodup) (hpos : ∀ o ∈ os, 0 ≤ o.remainingQuantity) (ht : 0 ≤ t)
    (htT : t ≤ sumQty os) : GrantsWithin os (baseGrants keep (Order.share t (sumQty os)) os) := by
  refine ⟨baseGrants_on hn, fun e he => ?_, fun o ho => ?_⟩
  · obtain ⟨o, -, rfl, hk⟩ := mem_baseGrants he
    exact hkeep o _ hk
  · rw [baseGrants_of hn ho]
    split
    · exact share_le (hpos o ho) ht htT
    · exact hpos o ho

theorem baseGrants_total (hn : (os.map Order.id).Nodup) (T : Int) :
    (baseGrants keep (Order.share t T) os).total =
      (os.map fun o => if keep o (o.share t T) then o.share t T else 0).sum := by
  rw [total_eq_sum (baseGrants_on hn) hn]
  exact congrArg sum (map_congr_left fun o ho => baseGrants_of hn ho)

theorem baseGrants_total_le (keep : Order → Int → Bool) (hn : (os.map Order.id).Nodup)
    (hpos : ∀ o ∈ os, 0 ≤ o.remainingQuantity) (ht : 0 ≤ t) :
    (baseGrants keep (Order.share t (sumQty os)) os).total ≤ t := by
  rw [baseGrants_total hn]
  refine le_trans (sum_le_sum fun o ho => ?_) (sum_share_le hpos ht)
  split
  · exact le_rfl
  · exact share_nonneg (hpos o ho) ht (sumQty_nonneg hpos)

end level

theorem PriceLevel.Exact.nonneg {l : PriceLevel} (he : l.Exact) :
    ∀ o ∈ l.orders, 0 ≤ o.remainingQuantity :=
  fun o ho => (he.positive o ho).le

theorem toFill_bounds {l : PriceLevel} (he : l.Exact) {q : Int} (hq : 0 < q) :
    0 ≤ min q l.totalQuantity ∧ min q l.totalQuantity ≤ sumQty l.orders := by
  have hnonneg := sumQty_nonneg he.nonneg
  rw [he.total]
  exact ⟨le_min hq.le hnonneg, min_le_right _ _⟩

theorem baseGrants_level {keep : Order → Int → Bool} (hkeep : ∀ o a, keep o a = true → 0 < a)
    {l : PriceLevel} (hd : l.Distinct) (he : l.Exact) {q : Int} (hq : 0 < q) :
    let base := baseGrants keep (Order.share (min q l.totalQuantity) l.totalQuantity) l.orders
    GrantsWithin l.orders base ∧ base.total ≤ min q l.totalQuantity := by
  obtain ⟨ht, htT⟩ := toFill_bounds he hq
  have hbase : GrantsWithin l.orders (baseGrants keep (Order.share _ (sumQty l.orders)) l.orders) :=
    baseGrants_within hkeep hd he.nonneg ht htT
  have hle := baseGrants_total_le keep hd he.nonneg ht
  rw [← he.total] at hbase hle
  exact ⟨hbase, hle⟩

/-- Remainder lots: one to each order from the head on. -/
def lotsInOrder (os : List Order) (remainder : Int) (g : Grants) : Grants :=
  (Grants.walk Order.id (fun _ _ _ => some 1) os remainder g).1

def proRataKeep (_ : Order) (alloc : Int) : Bool :=
  decide (alloc > 0)

theorem proRataKeep_pos (o : Order) (a : Int) (h : proRataKeep o a = true) : 0 < a := by
  simpa [proRataKeep] using h

def proRataAlloc (share : Int → Int → Order → Int) (l : PriceLevel) (q : Int) : Grants × Int :=
  let toFill := min q l.totalQuantity
  let base := baseGrants proRataKeep (share toFill l.totalQuantity) l.orders
  (lotsInOrder l.orders (toFill - base.total) base, q - toFill)

section proRata

variable {os : List Order} {t : Int}

theorem proRata_base_total (hn : (os.map Order.id).Nodup)
    (hpos : ∀ o ∈ os, 0 < o.remainingQuantity) (ht : 0 ≤ t) :
    (baseGrants proRataKeep (Order.share t (sumQty os)) os).total =
      (os.map fun o => o.share t (sumQty os)).sum := by
  rw [baseGrants_total hn]
  refine congrArg sum (map_congr_left fun o ho => ?_)
  have hnonneg : 0 ≤ o.share t (sumQty os) :=
    share_nonneg (hpos o ho).le ht (sumQty_nonneg fun x hx => (hpos x hx).le)
  split
  · rfl
  next hkeep =>
    have : ¬o.share t (sumQty os) > 0 := by simpa [proRataKeep] using hkeep
    omega

theorem proRata_remainder (hn : (os.map Order.id).Nodup)
    (hpos : ∀ o ∈ os, 0 < o.remainingQuantity) (ht : 0 ≤ t) (htT : t ≤ sumQty os) :
    t - (baseGrants proRataKeep (Order.share t (sumQty os)) os).total ≤ os.length := by
  rcases eq_or_ne os [] with rfl | hne
  · simpa [baseGrants] using htT
  · obtain ⟨o, ho⟩ := exists_mem_of_ne_nil os hne
    have := hpos o ho
    have := remaining_le_sumQty (fun x hx => (hpos x hx).le) ho
    rw [proRata_base_total hn hpos ht]
    exact (lt_sum_share hpos ht (by omega)).le

theorem proRata_within (hn : (os.map Order.id).Nodup)
    (hpos : ∀ o ∈ os, 0 < o.remainingQuantity) (ht : 0 ≤ t) (htT : t ≤ sumQty os) :
    let base := baseGrants proRataKeep (Order.share t (sumQty os)) os
    GrantsWithin os (lotsInOrder os (t - base.total) base) := by
  intro base
  have hbase : GrantsWithin os base :=
    baseGrants_within proRataKeep_pos hn (fun x hx => (hpos x hx).le) ht htT
  refine ⟨walk_on hbase.toOn (Subset.refl os),
    walk_positive (by simp) hbase.nodup hbase.positive, fun o ho => ?_⟩
  have hrem := hpos o ho
  have hT := remaining_le_sumQty (fun x hx => (hpos x hx).le) ho
  rcases lt_or_eq_of_le htT with hlt | heq
  · have hone : (lotsInOrder os (t - base.total) base).of o.id ≤ base.of o.id + 1 :=
      walk_ones_of (fun _ _ _ => rfl) hn o.id
    have hshare := share_lt hrem ht hlt
    have hof : base.of o.id ≤ o.remainingQuantity - 1 := by
      rw [baseGrants_of hn ho]
      split <;> omega
    omega
  · -- all of the level is traded, and nothing remains
    have hall : ∀ x ∈ os, x.share t (sumQty os) = x.remainingQuantity := fun x hx => by
      rw [share_eq (hpos x hx).le ht, heq]
      exact Int.mul_ediv_cancel _ (by omega)
    have htotal : base.total = t := by
      rw [proRata_base_total hn hpos ht, map_congr_left hall]
      exact heq.symm
    rw [htotal, sub_self, lotsInOrder, walk_zero]
    exact hbase.capped o ho

end proRata

def proRata : Allocator where
  alloc := proRataAlloc Order.share
  on _ _ hd := Grants.walk_on (baseGrants_on hd) (List.Subset.refl _)
  within l q hd he hq := by
    obtain ⟨ht, htT⟩ := toFill_bounds he hq
    unfold proRataAlloc
    have := proRata_within hd he.positive ht htT
    rwa [← he.total] at this
  total l q hd he hq := by
    obtain ⟨ht, htT⟩ := toFill_bounds he hq
    unfold proRataAlloc lotsInOrder
    have hle := baseGrants_total_le proRataKeep hd he.nonneg ht
    have hlen := proRata_remainder hd he.positive ht htT
    rw [← he.total] at hle hlen
    have hsum := Grants.walk_total Order.id (fun (_ : Order) _ _ => some 1) l.orders
      (min q l.totalQuantity - (baseGrants proRataKeep (Order.share (min q l.totalQuantity) l.totalQuantity)
        l.orders).total) (baseGrants proRataKeep (Order.share (min q l.totalQuantity) l.totalQuantity) l.orders)
    rw [Grants.walk_ones (fun _ _ _ => rfl) (by omega) hlen] at hsum
    dsimp only
    omega
  left _ _ _ _ _ := rfl

def proRataMatch : MatchPolicy :=
  proRata.policy

/-- The remainder of `ThresholdProRataMatch`: in time order, up to what an order still has. -/
def thresholdGive (o : Order) (g : Grants) (remainder : Int) : Option Int :=
  let fifoFill := min remainder o.remainingQuantity
  if o.id ∈ g.keys then some (min fifoFill (o.remainingQuantity - g.of o.id))
  else if fifoFill > 0 then some fifoFill
  else none

def thresholdKeep (minThreshold : Int) (_ : Order) (alloc : Int) : Bool :=
  decide (alloc ≥ minThreshold) && decide (alloc > 0)

theorem thresholdKeep_pos (minThreshold : Int) (o : Order) (a : Int)
    (h : thresholdKeep minThreshold o a = true) : 0 < a := by
  simpa using (Bool.and_eq_true_iff.mp h).2

def thresholdAlloc (share : Int → Int → Order → Int) (minThreshold : Int) (l : PriceLevel)
    (q : Int) : Grants × Int :=
  let toFill := min q l.totalQuantity
  let base := baseGrants (thresholdKeep minThreshold) (share toFill l.totalQuantity) l.orders
  ((Grants.walk Order.id thresholdGive l.orders (toFill - base.total) base).1, q - toFill)

theorem thresholdGive_greedy {os : List Order} (hpos : ∀ o ∈ os, 0 < o.remainingQuantity) :
    Grants.Greedy Order.id Order.remainingQuantity os thresholdGive where
  bounds o ho g r q h hr hq := by
    have hrem := hpos o ho
    have hroom := h.room_nonneg ho
    unfold thresholdGive at hq
    unfold room at hroom ⊢
    dsimp only at hq
    split at hq
    next hk =>
      obtain rfl := Option.some.inj hq
      exact ⟨by by_cases hz : o.remainingQuantity - g.of o.id = 0
                · exact .inr ⟨by omega, hk⟩
                · exact .inl (by omega), by omega, by omega⟩
    next hk =>
      have hzero := of_eq_zero hk
      split at hq
      · obtain rfl := Option.some.inj hq
        exact ⟨.inl (by omega), by omega, by omega⟩
      · simp at hq
  takes o ho g r h hr hroom := by
    have hle := h.room_le o
    unfold thresholdGive
    unfold room at hroom hle ⊢
    split
    next => exact congrArg some (by omega)
    next hk =>
      have hzero := of_eq_zero hk
      rw [if_pos (by omega), hzero, sub_zero]

theorem greedy_remainder {os : List Order} {give : Order → Grants → Int → Option Int}
    (hgive : Grants.Greedy Order.id Order.remainingQuantity os give)
    (hn : (os.map Order.id).Nodup) {g : Grants} (h : GrantsWithin os g) {t : Int}
    (hle : g.total ≤ t) (htT : t ≤ sumQty os) :
    (Grants.walk Order.id give os (t - g.total) g).1.total = t := by
  rw [walk_total_eq hgive hn h (by omega)]
  change min (g.total + (t - g.total)) (sumQty os) = t
  omega

def thresholdProRata (minThreshold : Int) : Allocator where
  alloc := thresholdAlloc Order.share minThreshold
  on _ _ hd := Grants.walk_on (baseGrants_on hd) (List.Subset.refl _)
  within l q hd he hq := by
    obtain ⟨hbase, hle⟩ := baseGrants_level (thresholdKeep_pos minThreshold) hd he hq
    exact (Grants.walk_within (thresholdGive_greedy he.positive).toModest (List.Subset.refl _) hd
      hbase (by omega)).1
  total l q hd he hq := by
    obtain ⟨hbase, hle⟩ := baseGrants_level (thresholdKeep_pos minThreshold) hd he hq
    exact greedy_remainder (thresholdGive_greedy he.positive) hd hbase hle (toFill_bounds he hq).2
  left _ _ _ _ _ := rfl

def thresholdProRataMatch (minThreshold : Int) : MatchPolicy :=
  (thresholdProRata minThreshold).policy

/-- The larger of two orders, if the second can still take a lot; the first of equals. -/
def better (g : Grants) (best : Option Order) (o : Order) : Option Order :=
  let capacity := o.remainingQuantity - g.of o.id
  if capacity > 0 ∧ o.remainingQuantity > best.elim (-1) (·.remainingQuantity) then some o
  else best

/-- The order with the largest remaining quantity that can still take a lot. -/
def largest (g : Grants) (os : List Order) : Option Order :=
  os.foldl (better g) none

/-- Remainder lots: one after another to the largest order. -/
def lotsToLargest (os : List Order) : Nat → Grants → Grants
  | 0, g => g
  | n + 1, g =>
    match largest g os with
    | none => g
    | some best => lotsToLargest os n (g.add best.id 1)

def allocationAlloc (share : Int → Int → Order → Int) (l : PriceLevel) (q : Int) :
    Grants × Int :=
  let toFill := min q l.totalQuantity
  let base := baseGrants proRataKeep (share toFill l.totalQuantity) l.orders
  (lotsToLargest l.orders (toFill - base.total).toNat base, q - toFill)

section largest

variable {g : Grants} {os : List Order}

theorem largest_some {best : Order} (h : largest g os = some best) :
    best ∈ os ∧ 0 < g.room Order.id Order.remainingQuantity best := by
  suffices hall : ∀ ys ⊆ os, ∀ b : Option Order,
      (∀ x ∈ b, x ∈ os ∧ 0 < g.room Order.id Order.remainingQuantity x) →
      ∀ x ∈ ys.foldl (better g) b, x ∈ os ∧ 0 < g.room Order.id Order.remainingQuantity x from
    hall os (Subset.refl os) none (by simp) best h
  intro ys hsub
  induction ys with
  | nil => exact fun b hb => hb
  | cons y ys ih =>
    intro b hb
    obtain ⟨hy, hsub⟩ := cons_subset.mp hsub
    refine ih hsub (better g b y) fun x hx => ?_
    unfold better at hx
    dsimp only at hx
    split at hx
    next hroom =>
      obtain rfl : y = x := Option.some.inj hx
      exact ⟨hy, hroom.1⟩
    next => exact hb x hx

theorem largest_none (h : largest g os = none) (hpos : ∀ o ∈ os, 0 ≤ o.remainingQuantity) :
    ∀ o ∈ os, g.room Order.id Order.remainingQuantity o ≤ 0 := by
  suffices hall : ∀ (ys : List Order) (b : Option Order), (∀ o ∈ ys, 0 ≤ o.remainingQuantity) →
      ys.foldl (better g) b = none →
      b = none ∧ ∀ o ∈ ys, g.room Order.id Order.remainingQuantity o ≤ 0 from
    (hall os none hpos h).2
  intro ys
  induction ys with
  | nil => exact fun b _ hb => ⟨hb, by simp⟩
  | cons y ys ih =>
    intro b hys hb
    obtain ⟨hbest, hrest⟩ := ih (better g b y) (fun o ho => hys o (by simp [ho])) hb
    have hrem := hys y (by simp)
    unfold better at hbest
    dsimp only at hbest
    split at hbest
    next => simp at hbest
    next hroom =>
      subst hbest
      refine ⟨rfl, forall_mem_cons.mpr ⟨?_, hrest⟩⟩
      unfold room
      by_contra hlt
      exact hroom ⟨by omega, by simp only [Option.elim_none]; omega⟩

theorem lotsToLargest_on (n : Nat) (h : Grants.On Order.id os g) :
    Grants.On Order.id os (lotsToLargest os n g) := by
  induction n generalizing g with
  | zero => exact h
  | succ n ih =>
    unfold lotsToLargest
    split
    next => exact h
    next best heq => exact ih (h.add (largest_some heq).1)

theorem lotsToLargest_within (hn : (os.map Order.id).Nodup)
    (hpos : ∀ o ∈ os, 0 < o.remainingQuantity) (n : Nat) (h : GrantsWithin os g)
    (hle : g.total + n ≤ sumQty os) : GrantsWithin os (lotsToLargest os n g) ∧
      (lotsToLargest os n g).total = g.total + n := by
  induction n generalizing g with
  | zero => exact ⟨h, by simp [lotsToLargest]⟩
  | succ n ih =>
    unfold lotsToLargest
    split
    next heq =>
      -- every order is full, but something is left of the level
      have hfull : sumQty os ≤ g.total := by
        rw [total_eq_sum h.toOn hn]
        refine sum_le_sum fun o ho => ?_
        have := largest_none heq (fun x hx => (hpos x hx).le) o ho
        unfold room at this
        omega
      omega
    next best heq =>
      obtain ⟨hmem, hroom⟩ := largest_some heq
      have hstep := ih (h.add hmem (.inl one_pos) (by omega) hn) (by rw [total_add]; omega)
      refine ⟨hstep.1, ?_⟩
      rw [hstep.2, total_add]
      omega

end largest

def allocation : Allocator where
  alloc := allocationAlloc Order.share
  on _ _ hd := lotsToLargest_on _ (baseGrants_on hd)
  within l q hd he hq := by
    have htT := (toFill_bounds he hq).2
    obtain ⟨hbase, hle⟩ := baseGrants_level proRataKeep_pos hd he hq
    exact (lotsToLargest_within hd he.positive _ hbase (by omega)).1
  total l q hd he hq := by
    have htT := (toFill_bounds he hq).2
    obtain ⟨hbase, hle⟩ := baseGrants_level proRataKeep_pos hd he hq
    unfold allocationAlloc
    dsimp only
    rw [(lotsToLargest_within hd he.positive _ hbase (by omega)).2]
    omega
  left _ _ _ _ _ := rfl

def allocationMatch : MatchPolicy :=
  allocation.policy

end ExchangeSim
