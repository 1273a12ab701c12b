import ExchangeSim.SpecialCases

/-!
Lots under the proportional policies. A share is rounded to a unit and not to a lot, and so is what
rounding leaves over; where the shares come out in lots, so do the fills.
-/

namespace ExchangeSim

open List Grants

section shared

variable {L : Int} {price : Int} {g : Grants} {os : List Order}

theorem applyGrants_quantities :
    (applyGrants price g os).2.map (·.quantity) = g.map Prod.snd := by
  induction g generalizing os with
  | nil => rfl
  | cons e g ih => simp only [applyGrants, List.map_cons, ih]

theorem applyGrants_lots (h : Lots L g) : ∀ f ∈ (applyGrants price g os).2, L ∣ f.quantity := by
  intro f hf
  have hmem : f.quantity ∈ (applyGrants price g os).2.map (·.quantity) := mem_map_of_mem hf
  rw [applyGrants_quantities] at hmem
  obtain ⟨e, he, heq⟩ := mem_map.mp hmem
  exact heq ▸ h e he

theorem Allocator.policy_lots {A : Allocator} {l : PriceLevel} {q : Int}
    (h : 0 < q → l.orders ≠ [] → Lots L (A.alloc l q).1) :
    ∀ f ∈ (A.policy.matchLevel l q).results, L ∣ f.quantity := by
  intro f hf
  change f ∈ (grantLevel A.alloc l q).results at hf
  unfold grantLevel at hf
  split at hf
  next => simp at hf
  next hrun => exact applyGrants_lots (h (by omega) (by tauto)) f hf

theorem baseGrants_lots {keep : Order → Int → Bool} {t T : Int}
    (h : ∀ o ∈ os, keep o (o.share t T) = true → L ∣ o.share t T) :
    Lots L (baseGrants keep (Order.share t T) os) := by
  intro e he
  obtain ⟨o, ho, rfl, hkeep⟩ := mem_baseGrants he
  exact h o ho hkeep

theorem sumQty_lots (h : ∀ o ∈ os, L ∣ o.remainingQuantity) : L ∣ sumQty os :=
  dvd_sum (by simpa using h)

theorem eq_zero_of_lots {r n : Int} (hdvd : L ∣ r) (hr : 0 ≤ r) (hlt : r < n) (hn : n ≤ L) :
    r = 0 :=
  Int.eq_zero_of_dvd_of_nonneg_of_lt hr (hlt.trans_le hn) hdvd

end shared

section largest

variable {os : List Order} {g : Grants}

theorem largest_congr {g' : Grants} (h : ∀ o ∈ os,
    (0 < g.room Order.id Order.remainingQuantity o ↔
      0 < g'.room Order.id Order.remainingQuantity o)) : largest g os = largest g' os := by
  refine foldl_ext _ _ _ fun b o ho => ?_
  have hiff : o.remainingQuantity - g.of o.id > 0 ↔ o.remainingQuantity - g'.of o.id > 0 := h o ho
  simp only [better, hiff]

theorem Grants.add_add (k : Nat) (q r : Int) (g : Grants) : (g.add k q).add k r = g.add k (q + r) := by
  induction g with
  | nil => simp [add]
  | cons e g ih =>
    obtain ⟨j, s⟩ := e
    by_cases hj : j = k
    · simp [add, hj, add_assoc]
    · simp [add, hj, ih]

theorem lotsToLargest_block (hn : (os.map Order.id).Nodup) {best : Order}
    (hbest : largest g os = some best) (j n : Nat)
    (hroom : (j + 1 : Int) ≤ g.room Order.id Order.remainingQuantity best) :
    lotsToLargest os (j + 1 + n) g = lotsToLargest os n (g.add best.id (j + 1 : Int)) := by
  have hfirst : ∀ m, lotsToLargest os (m + 1) g = lotsToLargest os m (g.add best.id 1) := by
    intro m
    simp [lotsToLargest, hbest]
  induction j generalizing g with
  | zero => simpa [Nat.add_comm] using hfirst n
  | succ j ih =>
    have hmem := (largest_some hbest).1
    have hsame : largest (g.add best.id 1) os = some best := by
      rw [← hbest]
      refine (largest_congr fun o ho => ?_).symm
      unfold room at hroom ⊢
      by_cases ho' : o.id = best.id
      · obtain rfl := inj_on_of_nodup_map hn ho hmem ho'
        rw [of_add_self]
        omega
      · rw [of_add_of_ne ho']
    have hleft : (j + 1 : Int) ≤ (g.add best.id 1).room Order.id Order.remainingQuantity best := by
      unfold room at hroom ⊢
      rw [of_add_self]
      omega
    have hnext : ∀ m, lotsToLargest os (m + 1) (g.add best.id 1) =
        lotsToLargest os m ((g.add best.id 1).add best.id 1) := by
      intro m
      simp [lotsToLargest, hsame]
    rw [show j + 1 + 1 + n = (j + 1 + n) + 1 by omega, hfirst, ih hsame hleft hnext,
      add_add]
    push_cast
    rw [add_comm (1 : Int)]

theorem lotsToLargest_lots (hn : (os.map Order.id).Nodup) (L m : Nat)
    (hcap : ∀ o ∈ os, (L : Int) ∣ o.remainingQuantity) (hg : Lots L g) :
    Lots L (lotsToLargest os (L * m) g) := by
  induction m generalizing g with
  | zero => exact hg
  | succ m ih =>
    cases L with
    | zero => simpa [lotsToLargest] using hg
    | succ k =>
      cases hbest : largest g os with
      | none => simpa [Nat.mul_succ, ← Nat.add_assoc, lotsToLargest, hbest] using hg
      | some best =>
        obtain ⟨hmem, hpos⟩ := largest_some hbest
        have hdvd : ((k + 1 : Nat) : Int) ∣ g.room Order.id Order.remainingQuantity best :=
          dvd_sub (hcap best hmem) (hg.of _)
        have hle := Int.le_of_dvd hpos hdvd
        rw [show (k + 1) * (m + 1) = k + 1 + (k + 1) * m by ring,
          lotsToLargest_block hn hbest k _ (by exact_mod_cast hle)]
        exact ih (hg.add (by push_cast; exact dvd_rfl))

end largest

section level

variable {L : Int} {l : PriceLevel} {q : Int}

theorem toFill_lots (he : l.Exact) (hqty : L ∣ q) (horders : ∀ o ∈ l.orders, L ∣ o.remainingQuantity) :
    L ∣ min q l.totalQuantity :=
  dvd_min hqty (he.total ▸ sumQty_lots horders)

theorem PriceLevel.Exact.sumQty_pos (he : l.Exact) (hne : l.orders ≠ []) : 0 < sumQty l.orders := by
  obtain ⟨o, ho⟩ := exists_mem_of_ne_nil _ hne
  exact (he.positive o ho).trans_le (remaining_le_sumQty he.nonneg ho)

theorem proRata_lots (hd : l.Distinct) (he : l.Exact) (hqty : L ∣ q)
    (horders : ∀ o ∈ l.orders, L ∣ o.remainingQuantity)
    (hshares : ∀ o ∈ l.orders, L ∣ o.share (min q l.totalQuantity) l.totalQuantity)
    (hlen : l.orders.length ≤ L) (hq : 0 < q) (hne : l.orders ≠ []) :
    Lots L (proRataAlloc Order.share l q).1 := by
  obtain ⟨ht, htT⟩ := toFill_bounds he hq
  have hbase : Lots L (baseGrants proRataKeep (Order.share (min q l.totalQuantity) l.totalQuantity)
      l.orders) := baseGrants_lots fun o ho _ => hshares o ho
  have hle := baseGrants_total_le proRataKeep hd he.nonneg ht
  have htotal := proRata_base_total hd he.positive ht
  have hlt := lt_sum_share he.positive ht (he.sumQty_pos hne)
  rw [← he.total] at hle htotal hlt
  have hzero := eq_zero_of_lots (dvd_sub (toFill_lots he hqty horders) hbase.total)
    (by omega) (htotal ▸ hlt) hlen
  unfold proRataAlloc lotsInOrder
  dsimp only
  rw [hzero, walk_zero]
  exact hbase

theorem allocation_lots (hd : l.Distinct) (he : l.Exact) (hL : 0 < L) (hqty : L ∣ q)
    (horders : ∀ o ∈ l.orders, L ∣ o.remainingQuantity)
    (hshares : ∀ o ∈ l.orders, L ∣ o.share (min q l.totalQuantity) l.totalQuantity) (hq : 0 < q) :
    Lots L (allocationAlloc Order.share l q).1 := by
  have hle := (baseGrants_level proRataKeep_pos hd he hq).2
  have hbase : Lots L (baseGrants proRataKeep (Order.share (min q l.totalQuantity) l.totalQuantity)
      l.orders) := baseGrants_lots fun o ho _ => hshares o ho
  obtain ⟨m, hm⟩ := dvd_sub (toFill_lots he hqty horders) hbase.total
  lift L to Nat using hL.le
  have hm' : 0 ≤ m := nonneg_of_mul_nonneg_right (by omega) hL
  lift m to Nat using hm'
  unfold allocationAlloc
  dsimp only
  rw [hm, ← Nat.cast_mul, Int.toNat_natCast]
  exact lotsToLargest_lots hd L m horders hbase

theorem thresholdProRata_lots (hd : l.Distinct) (he : l.Exact) (hqty : L ∣ q)
    (horders : ∀ o ∈ l.orders, L ∣ o.remainingQuantity) {minThreshold : Int}
    (hshares : ∀ o ∈ l.orders, minThreshold ≤ o.share (min q l.totalQuantity) l.totalQuantity →
      L ∣ o.share (min q l.totalQuantity) l.totalQuantity) (hq : 0 < q) :
    Lots L (thresholdAlloc Order.share minThreshold l q).1 := by
  have hwithin := (baseGrants_level (thresholdKeep_pos minThreshold) hd he hq).1
  have hbase : Lots L (baseGrants (thresholdKeep minThreshold) (Order.share (min q l.totalQuantity) l.totalQuantity) l.orders) := baseGrants_lots fun o ho hkeep =>
    hshares o ho (by simpa using (Bool.and_eq_true_iff.mp hkeep).1)
  exact walk_lots (thresholdGive_greedy he.positive) hd horders hwithin hbase
    (dvd_sub (toFill_lots he hqty horders) hbase.total)

/-- The orders of a level after the time-priority part of `SplitFifoProRataMatch`. -/
def splitRest (fifoPct : Nat) (l : PriceLevel) (q : Int) : List Order :=
  (applyGrants l.price (splitFifo (percentOf (min q l.totalQuantity) fifoPct) l.orders) l.orders).1

theorem splitLevel_lots {fifoPct : Nat} (hpct : fifoPct ≤ 100) (hd : l.Distinct) (he : l.Exact)
    (hqty : L ∣ q) (horders : ∀ o ∈ l.orders, L ∣ o.remainingQuantity)
    (hfifo : L ∣ percentOf (min q l.totalQuantity) fifoPct)
    (hshares : ∀ o ∈ splitRest fifoPct l q,
      L ∣ o.share (min q l.totalQuantity - percentOf (min q l.totalQuantity) fifoPct)
        (sumQty (splitRest fifoPct l q))) :
    ∀ f ∈ (splitLevel percentOf Order.share fifoPct l q).results, L ∣ f.quantity := by
  intro f hf
  by_cases hrun : q ≤ 0 ∨ l.orders = []
  · have hnone : splitLevel percentOf Order.share fifoPct l q = ⟨l.orders, [], q⟩ := if_pos hrun
    simp [hnone] at hf
  have hq : 0 < q := by omega
  let t := min q l.totalQuantity
  let first := splitFifo (percentOf t fifoPct) l.orders
  obtain ⟨⟨hfirst, -⟩, hsecond, -⟩ := splitLevel_parts hpct hd he hq
  obtain ⟨hlow, hhigh⟩ := percentOf_bounds (toFill_bounds he hq).1 hpct
  have hlots : Lots L first := walk_lots (splitFifoGive_greedy l.orders) hd horders
    (Within.nil he.nonneg) (by simp [Lots]) hfifo
  -- the first part leaves lots behind
  have hrest : ∀ o ∈ splitRest fifoPct l q, 0 ≤ o.remainingQuantity ∧ L ∣ o.remainingQuantity := by
    intro o ho
    refine ⟨applyGrants_nonneg hfirst.toOn hfirst.capped o ho, ?_⟩
    rw [splitRest, applyGrants_orders] at ho
    obtain ⟨x, hx, rfl⟩ := mem_map.mp ho
    rw [filledBy_applyGrants x.id hfirst.nodup]
    exact dvd_sub (horders x hx) (hlots.of _)
  have hn : ((splitRest fifoPct l q).map Order.id).Nodup := by
    rw [splitRest, applyGrants_ids]
    exact hd
  have hsplit : Lots L (splitProRata Order.share (t - percentOf t fifoPct) (splitRest fifoPct l q)) := by
    have hsum : t - percentOf t fifoPct ≤ sumQty (splitRest fifoPct l q) := by
      have hle := (toFill_bounds he hq).2
      have htotal := (splitFifo_within hd he.nonneg hlow (hhigh.trans hle)).2
      rw [splitRest, sumQty_applyGrants hfirst.toOn hd, htotal]
      exact sub_le_sub_right hle _
    unfold splitProRata
    dsimp only
    split
    next hsome =>
      rw [min_eq_left hsum]
      have hbase : Lots L (baseGrants splitKeep (Order.share (t - percentOf t fifoPct) (sumQty (splitRest fifoPct l q))) (splitRest fifoPct l q)) :=
        baseGrants_lots fun o ho _ => hshares o ho
      exact walk_lots (splitGive_greedy _) hn (fun o ho => (hrest o ho).2)
        (baseGrants_within (by simp [splitKeep]) hn (fun o ho => (hrest o ho).1) hsome.1.le hsum)
        hbase (dvd_sub (dvd_sub (toFill_lots he hqty horders) hfifo) hbase.total)
    next => simp [Lots]
  have hlevel : splitLevel percentOf Order.share fifoPct l q = _ := if_neg hrun
  rw [hlevel] at hf
  rcases List.mem_append.mp hf with hf | hf
  · exact applyGrants_lots hlots f hf
  · exact applyGrants_lots hsplit f hf

end level

section weighted

variable {L : Int} {eff : Order → Int} {weight : Order → Rat} {total : Rat} {pool : Int}
  {os : List Order} {g : Grants}

theorem weightedGrants_lots (hg : Lots L g)
    (h : ∀ o ∈ os, 0 < eff o → L ∣ min ⌊weight o / total * pool⌋ (eff o)) :
    Lots L (weightedGrants eff weight total pool os g) := by
  induction os generalizing g with
  | nil => exact hg
  | cons o os ih =>
    have hrest : ∀ x ∈ os, 0 < eff x → L ∣ min ⌊weight x / total * pool⌋ (eff x) :=
      fun x hx => h x (by simp [hx])
    unfold weightedGrants
    dsimp only
    split
    next hgive => exact ih (hg.add (h o (by simp) hgive.1)) hrest
    next => exact ih hg hrest

theorem weightedGrants_total_lt
    (hfits : ∀ o ∈ os, 0 < eff o → ⌊weight o / total * pool⌋ ≤ eff o) :
    (totalWeight eff weight os / total * pool : Rat) ≤
        (weightedGrants eff weight total pool os g).total - g.total + os.length ∧
      (os ≠ [] → (totalWeight eff weight os / total * pool : Rat) <
        (weightedGrants eff weight total pool os g).total - g.total + os.length) := by
  induction os generalizing g with
  | nil => simp [weightedGrants, totalWeight]
  | cons o os ih =>
    have hrest := fun g => (ih (g := g) fun x hx => hfits x (by simp [hx])).1
    suffices hlt : (totalWeight eff weight (o :: os) / total * pool : Rat) <
        (weightedGrants eff weight total pool (o :: os) g).total - g.total + (o :: os).length from
      ⟨hlt.le, fun _ => hlt⟩
    unfold weightedGrants
    push_cast [List.length_cons]
    by_cases hpos : eff o > 0
    · have hsum : totalWeight eff weight (o :: os) / total * pool =
          weight o / total * pool + totalWeight eff weight os / total * pool := by
        simp [totalWeight, hpos]
        ring
      have hfloor := Int.lt_floor_add_one (weight o / total * pool)
      rw [hsum, min_eq_left (hfits o (by simp) hpos)]
      split
      next =>
        have hnext := hrest (g.add o.id ⌊weight o / total * pool⌋)
        rw [total_add] at hnext
        push_cast at hnext
        linarith
      next hnone =>
        have hzero : ⌊weight o / total * pool⌋ ≤ 0 := by
          by_contra hlt
          exact hnone ⟨hpos, by omega⟩
        have hzero' : (⌊weight o / total * pool⌋ : Rat) ≤ 0 := by exact_mod_cast hzero
        linarith [hrest g]
    · have hsum : totalWeight eff weight (o :: os) = totalWeight eff weight os := by
        simp [totalWeight, hpos]
      simp only [hsum, hpos, false_and, if_false]
      linarith [hrest g]

end weighted

section gtbpr

variable {L : Int} {cfg : GtbprConfig} {now : Int} {l : PriceLevel} {q : Int}

/-- What the second phase of `GtbprMatch` divides. -/
def gtbprPool (cfg : GtbprConfig) (l : PriceLevel) (q : Int) : Int :=
  min q l.totalQuantity - (gtbprFirst cfg (min q l.totalQuantity) l.orders).total

def gtbprShare (cfg : GtbprConfig) (now : Int) (l : PriceLevel) (q : Int) (o : Order) : Rat :=
  let eff := effectiveQty cfg (min q l.totalQuantity) l.orders
  let weight := fun o => timeWeight cfg now (eff o) o
  weight o / totalWeight eff weight l.orders * gtbprPool cfg l q

theorem gtbprFirst_lots (hcap : L ∣ cfg.cap) (he : l.Exact) (hqty : L ∣ q)
    (horders : ∀ o ∈ l.orders, L ∣ o.remainingQuantity) :
    Lots L (gtbprFirst cfg (min q l.totalQuantity) l.orders) := by
  have hnone : Lots L [] := by simp [Lots]
  unfold gtbprFirst
  split
  · exact hnone
  next o ho =>
    dsimp only
    split
    · intro e hmem
      obtain rfl := mem_singleton.mp hmem
      simp only [gtbprPriorityFill, ho]
      exact dvd_min (dvd_min hcap (toFill_lots he hqty horders))
        (horders o (mem_of_find?_eq_some ho))
    · exact hnone

theorem timeWeight_pos (hfactor : 0 ≤ cfg.timeWeightFactor) (now : Int) {n : Int} (hn : 0 < n)
    (o : Order) : 0 < timeWeight cfg now n o := by
  unfold timeWeight
  positivity

theorem gtbpr_totalWeight_pos (hcap : 0 ≤ cfg.cap) (hfactor : 0 ≤ cfg.timeWeightFactor)
    (hd : l.Distinct) (he : l.Exact) (hq : 0 < q) (hpool : 0 < gtbprPool cfg l q) :
    let eff := effectiveQty cfg (min q l.totalQuantity) l.orders
    0 < totalWeight eff (fun o => timeWeight cfg now (eff o) o) l.orders := by
  intro eff
  obtain ⟨ht, htT⟩ := toFill_bounds he hq
  have hfirst := (gtbprFirst_within cfg hd he.positive ht).1
  obtain ⟨o, ho, hpos⟩ : ∃ o ∈ l.orders, 0 < eff o := by
    by_contra hnone
    push Not at hnone
    have hall : sumQty l.orders ≤ (gtbprFirst cfg (min q l.totalQuantity) l.orders).total := by
      rw [total_eq_sum hfirst.toOn hd]
      refine sum_le_sum fun o ho => ?_
      have hle := hnone o ho
      rw [show eff o = _ from effectiveQty_eq he.positive hcap ht o] at hle
      unfold room at hle
      omega
    unfold gtbprPool at hpool
    omega
  refine sum_pos _ (fun w hw => ?_) fun hnil => ?_
  · obtain ⟨x, hx, rfl⟩ := mem_map.mp hw
    exact timeWeight_pos hfactor now (by simpa using (mem_filter.mp hx).2) x
  · have hmem : o ∈ l.orders.filter fun o => decide (eff o > 0) :=
      mem_filter.mpr ⟨ho, by simpa using hpos⟩
    simp [map_eq_nil_iff.mp hnil] at hmem

theorem gtbpr_lots (hcap : 0 ≤ cfg.cap) (hfactor : 0 ≤ cfg.timeWeightFactor) (hd : l.Distinct)
    (he : l.Exact) (hqty : L ∣ q) (horders : ∀ o ∈ l.orders, L ∣ o.remainingQuantity)
    (hcapL : L ∣ cfg.cap)
    (hshares : ∀ o ∈ l.orders, 0 < effectiveQty cfg (min q l.totalQuantity) l.orders o →
      L ∣ ⌊gtbprShare cfg now l q o⌋ ∧
        ⌊gtbprShare cfg now l q o⌋ ≤ effectiveQty cfg (min q l.totalQuantity) l.orders o)
    (hlen : l.orders.length ≤ L) (hq : 0 < q) (hne : l.orders ≠ []) :
    Lots L (gtbprAlloc cfg now l q).1 := by
  have hfirst := gtbprFirst_lots hcapL he hqty horders
  unfold gtbprAlloc
  dsimp only
  split
  next hpool =>
    let first := gtbprFirst cfg (min q l.totalQuantity) l.orders
    let eff := effectiveQty cfg (min q l.totalQuantity) l.orders
    let weight := fun o => timeWeight cfg now (eff o) o
    let shares := weightedGrants eff weight (totalWeight eff weight l.orders) (gtbprPool cfg l q)
      l.orders first
    have htotal : 0 < totalWeight eff weight l.orders :=
      gtbpr_totalWeight_pos hcap hfactor hd he hq hpool
    have hweights : ∀ o ∈ l.orders, 0 < eff o → 0 ≤ weight o := fun o _ hpos =>
      timeWeight_nonneg hfactor now hpos o
    have hlots : Lots L shares := weightedGrants_lots hfirst fun o ho hpos => by
      change L ∣ min ⌊gtbprShare cfg now l q o⌋ (eff o)
      rw [min_eq_left (hshares o ho hpos).2]
      exact (hshares o ho hpos).1
    have hle := (weightedGrants_total_le (g := first) hpool.le htotal hweights).2
    have hfits : ∀ o ∈ l.orders, 0 < eff o →
        ⌊weight o / totalWeight eff weight l.orders * gtbprPool cfg l q⌋ ≤ eff o :=
      fun o ho hpos => (hshares o ho hpos).2
    have hlt := (weightedGrants_total_lt (g := first) hfits).2 hne
    rw [div_self htotal.ne', one_mul] at hle hlt
    have hle' : shares.total ≤ first.total + gtbprPool cfg l q := by exact_mod_cast hle
    have hlt' : gtbprPool cfg l q < shares.total - first.total + l.orders.length := by
      exact_mod_cast hlt
    have hdvd : L ∣ gtbprPool cfg l q - (shares.total - first.total) :=
      dvd_sub (dvd_sub (toFill_lots he hqty horders) hfirst.total)
        (dvd_sub hlots.total hfirst.total)
    have hzero := eq_zero_of_lots hdvd (by omega) (by omega) hlen
    rw [if_pos htotal]
    change Lots L (lotPasses l.orders (gtbprPool cfg l q - (shares.total - first.total)).toNat
      (gtbprPool cfg l q - (shares.total - first.total)) shares)
    rw [hzero]
    exact hlots
  next => exact hfirst

end gtbpr

/-- Fills in lots under the proportional policies. All quantities of the level and the aggressor's
are lots of `L`; then so are the fills, if the shares come out in lots and the products fit. The
unit remainders of `ProRataMatch` and `GtbprMatch` stay away then from levels of no more than `L`
orders. -/
theorem proportional_fills_in_lots {L : Int} (hL : 0 < L) {l : PriceLevel} (hd : l.Distinct)
    (he : l.Exact) {q : Int} (hqty : L ∣ q) (horders : ∀ o ∈ l.orders, L ∣ o.remainingQuantity) :
    let toFill := min q l.totalQuantity
    let InLots := fun P : Policy => P.Fits l q → ∀ f ∈ (P.matchLevel l q).results, L ∣ f.quantity
    ((∀ o ∈ l.orders, L ∣ o.share toFill l.totalQuantity) →
      InLots .allocation ∧ (l.orders.length ≤ L → InLots .proRata)) ∧
    (∀ minThreshold, (∀ o ∈ l.orders, minThreshold ≤ o.share toFill l.totalQuantity →
        L ∣ o.share toFill l.totalQuantity) → InLots (.thresholdProRata minThreshold)) ∧
    (∀ fifoPct hpct, L ∣ percentOf toFill fifoPct →
      (∀ o ∈ splitRest fifoPct l q,
        L ∣ o.share (toFill - percentOf toFill fifoPct) (sumQty (splitRest fifoPct l q))) →
      InLots (.splitFifoProRata fifoPct hpct)) ∧
    (∀ cfg hcap hfactor now, L ∣ cfg.cap → l.orders.length ≤ L →
      (∀ o ∈ l.orders, 0 < effectiveQty cfg toFill l.orders o →
        L ∣ ⌊gtbprShare cfg now l q o⌋ ∧
          ⌊gtbprShare cfg now l q o⌋ ≤ effectiveQty cfg toFill l.orders o) →
      InLots (.gtbpr cfg hcap hfactor now)) := by
  intro toFill InLots
  have hwords : ∀ P : Policy, (∀ f ∈ (P.algo.matchLevel l q).results, L ∣ f.quantity) →
      InLots P := fun P h hfits => (Policy.matchLevel_eq hfits).symm ▸ h
  refine ⟨fun hshares => ⟨hwords _ ?_, fun hlen => hwords _ ?_⟩,
    fun minThreshold hshares => hwords _ ?_, fun fifoPct hpct hfifo hshares => hwords _ ?_,
    fun cfg hcap hfactor now hcapL hlen hshares => hwords _ ?_⟩
  · exact Allocator.policy_lots fun hq _ => allocation_lots hd he hL hqty horders hshares hq
  · exact Allocator.policy_lots fun hq hne =>
      proRata_lots hd he hqty horders hshares hlen hq hne
  · exact Allocator.policy_lots fun hq _ => thresholdProRata_lots hd he hqty horders hshares hq
  · exact splitLevel_lots hpct hd he hqty horders hfifo hshares
  · exact Allocator.policy_lots fun hq hne =>
      gtbpr_lots hcap hfactor hd he hqty horders hcapL hshares hlen hq hne

theorem proportional_fills_in_lots_sample :
    let l := offerLevel [restingOffer 1 60000, restingOffer 2 40000]
    (∀ o ∈ l.orders, (10000 : Int) ∣ o.share (min 50000 l.totalQuantity) l.totalQuantity) ∧
      Policy.proRata.Fits l 50000 ∧
      ∀ f ∈ (Policy.proRata.matchLevel l 50000).results, (10000 : Int) ∣ f.quantity := by
  intro l
  have hshares : ∀ o ∈ l.orders,
      (10000 : Int) ∣ o.share (min 50000 l.totalQuantity) l.totalQuantity := by decide +kernel
  have hall := proportional_fills_in_lots (L := 10000) (by decide) (l := l) (q := 50000)
    (by decide) ⟨rfl, by decide⟩ (by decide) (by decide)
  have hfits : Policy.proRata.Fits l 50000 := by decide
  exact ⟨hshares, hfits, (hall.1 hshares).2 (by decide) hfits⟩

/-- An aggressor of one contract against orders of one and of two contracts is divided into parts of
a contract by every one of the policies. -/
theorem proportional_fills_in_units :
    let l := offerLevel [restingOffer 1 10000, restingOffer 2 20000]
    let quantities := fun P : Policy => (P.matchLevel l 10000).results.map (·.quantity)
    quantities .proRata = [3334, 6666] ∧ quantities .allocation = [3333, 6667] ∧
      quantities (.thresholdProRata 0) = [3334, 6666] ∧
      quantities (.splitFifoProRata 40 (by decide)) = [4000, 1385, 4615] ∧
      quantities (.gtbpr {} (by decide) (by norm_num) 0) = [3334, 6666] := by
  decide +kernel

end ExchangeSim
