import ExchangeSim.Policies

/-!
No policy lets an order be overtaken by a later one that is like it.
-/

namespace ExchangeSim

open List Option Grants

/-- Two orders that a policy can tell apart by their place in the queue and their age only. -/
def Order.Alike (a b : Order) : Prop :=
  a.remainingQuantity = b.remainingQuantity ∧ a.isMarketMaker = b.isMarketMaker ∧
    a.isTopOrder = b.isTopOrder

def NoQueueJump (os : List Order) (rs : List FillResult) : Prop :=
  os.Pairwise fun a b => a.Alike b → filledBy b.id rs ≤ filledBy a.id rs

theorem noQueueJump_iff {os : List Order} {rs : List FillResult} : NoQueueJump os rs ↔
    ∀ a b, [a, b].Sublist os → a.Alike b → filledBy b.id rs ≤ filledBy a.id rs := by
  unfold NoQueueJump
  rw [pairwise_iff_forall_sublist]

theorem noQueueJump_nil (os : List Order) : NoQueueJump os [] :=
  noQueueJump_iff.mpr fun _ _ _ _ => le_rfl

section passes

variable {os : List Order} {g : Grants} {r : Int} {a b : Order}

section

variable (hn : (os.map Order.id).Nodup)

include hn

theorem ne_of_pair (hab : [a, b].Sublist os) : a.id ≠ b.id := by
  simpa using (hab.map Order.id).nodup hn

theorem find?_ne_later {p : Order → Bool}
    (hab : [a, b].Sublist os) (ha : p a = true) : os.find? p ≠ some b := by
  have hne : a ≠ b := fun he => ne_of_pair hn hab (he ▸ rfl)
  obtain ⟨as, bs, cs, rfl⟩ := exists_split_of_pair hab
  have hnot : b ∉ as := by
    intro hb
    have hn := List.nodup_append.mp hn.of_map
    exact hn.2.2 b hb b (by simp) rfl
  intro hfind
  rw [find?_append, find?_cons_of_pos ha] at hfind
  cases has : as.find? p with
  | none => exact hne (by simpa [has] using hfind)
  | some x =>
    obtain rfl : x = b := by simpa [has] using hfind
    exact hnot (mem_of_find?_eq_some has)

theorem lotsInOrder_ahead (hab : [a, b].Sublist os)
    (hle : g.of b.id ≤ g.of a.id) :
    (lotsInOrder os r g).of b.id ≤ (lotsInOrder os r g).of a.id := by
  have hone : ∀ x ∈ os, ∀ (g : Grants) (r q : Int), True → 0 < r → some 1 = some q →
      True ∧ 0 ≤ q := by
    intro x _ g r q _ _ hq
    obtain rfl := some.inj hq
    exact ⟨trivial, by decide⟩
  obtain ⟨g₁, r₁, g₂, r₂, ⟨-, -, hr⟩, -, ha, hb⟩ :=
    walk_pair hone trivial hn hab
  unfold lotsInOrder
  rw [ha, hb]
  simp only [gift, getD_some] at hr ⊢
  split at hr <;> split <;> omega

theorem baseGrants_alike {keep : Order → Int → Bool} {t T : Int}
    (ha : a ∈ os) (hb : b ∈ os) (hrem : a.remainingQuantity = b.remainingQuantity)
    (hkeep : ∀ x, keep a x = keep b x) :
    (baseGrants keep (Order.share t T) os).of b.id = (baseGrants keep (Order.share t T) os).of a.id := by
  have hshare : a.share t T = b.share t T := by
    unfold Order.share
    rw [hrem]
  rw [baseGrants_of hn ha, baseGrants_of hn hb, hshare, hkeep]

omit hn in
theorem size_le_better (g : Grants) (best : Option Order) (o : Order) :
    best.elim (-1) (·.remainingQuantity) ≤ (better g best o).elim (-1) (·.remainingQuantity) ∧
      (0 < g.room Order.id Order.remainingQuantity o →
        o.remainingQuantity ≤ (better g best o).elim (-1) (·.remainingQuantity)) := by
  unfold better room
  dsimp only
  split
  next h => exact ⟨h.2.le, fun _ => le_rfl⟩
  next h => exact ⟨le_rfl, fun hroom => not_lt.mp fun hlt => h ⟨hroom, hlt⟩⟩

omit hn in
theorem size_le_foldl (g : Grants) (os : List Order) (best : Option Order) :
    best.elim (-1) (·.remainingQuantity) ≤
      (os.foldl (better g) best).elim (-1) (·.remainingQuantity) := by
  induction os generalizing best with
  | nil => exact le_rfl
  | cons o os ih => exact (size_le_better g best o).1.trans (ih _)

omit hn in
theorem mem_of_foldl_better {best : Option Order} {x : Order}
    (h : os.foldl (better g) best = some x) : best = some x ∨ x ∈ os := by
  induction os generalizing best with
  | nil => exact .inl h
  | cons o os ih =>
    rcases ih h with hbest | hmem
    · unfold better at hbest
      dsimp only at hbest
      split at hbest
      · exact .inr (by simp [some.inj hbest])
      · exact .inl hbest
    · exact .inr (mem_cons_of_mem _ hmem)

theorem room_of_largest (hab : [a, b].Sublist os)
    (hrem : a.remainingQuantity = b.remainingQuantity) (h : largest g os = some b) :
    g.room Order.id Order.remainingQuantity a ≤ 0 := by
  obtain ⟨as, bs, cs, rfl⟩ := exists_split_of_pair hab
  have hnb : b ∉ as ++ a :: bs ∧ b ∉ cs := by
    have hmiddle : (as ++ a :: (bs ++ b :: cs)).Perm (b :: ((as ++ a :: bs) ++ cs)) := by
      have : ((as ++ a :: bs) ++ b :: cs).Perm (b :: ((as ++ a :: bs) ++ cs)) := perm_middle
      simpa using this
    obtain ⟨hnot, -⟩ := List.nodup_cons.mp (hmiddle.nodup_iff.mp hn.of_map)
    exact ⟨fun hmem => hnot (mem_append_left _ hmem),
      fun hmem => hnot (mem_append_right _ hmem)⟩
  let best := (as ++ a :: bs).foldl (better g) none
  have hfold : cs.foldl (better g) (better g best b) = some b := by
    rw [← h]
    simp [largest, best, foldl_append]
  have hchosen : better g best b = some b := (mem_of_foldl_better hfold).resolve_right hnb.2
  have hnew : best ≠ some b := fun hbest =>
    ((mem_of_foldl_better hbest).resolve_left (by simp)) |> hnb.1
  by_contra hroom
  have hsize : a.remainingQuantity ≤ best.elim (-1) (·.remainingQuantity) := by
    simp only [best, foldl_append, List.foldl_cons]
    exact ((size_le_better g _ a).2 (by omega)).trans (size_le_foldl g bs _)
  unfold better at hchosen
  dsimp only at hchosen
  split at hchosen
  next hlarger =>
    omega
  next => exact hnew hchosen

theorem lotsToLargest_ahead (hab : [a, b].Sublist os)
    (hrem : a.remainingQuantity = b.remainingQuantity) (n : Nat) (hle : g.of b.id ≤ g.of a.id) :
    (lotsToLargest os n g).of b.id ≤ (lotsToLargest os n g).of a.id := by
  induction n generalizing g with
  | zero => exact hle
  | succ n ih =>
    unfold lotsToLargest
    split
    next => exact hle
    next best hbest =>
      obtain ⟨hmem, hroom⟩ := largest_some hbest
      refine ih ?_
      by_cases hb : b.id = best.id
      · -- the later order gets a lot, so the earlier one is full
        obtain rfl : b = best :=
          inj_on_of_nodup_map hn (hab.subset (by simp)) hmem hb
        have hfull := room_of_largest hn hab hrem hbest
        have hne : a.id ≠ b.id := ne_of_pair hn hab
        unfold room at hroom hfull
        rw [of_add_self, of_add_of_ne hne]
        omega
      · rw [of_add_of_ne hb, of_add]
        split
        next ha =>
          rw [← ha]
          omega
        next => exact hle

omit hn in
theorem fifoWalk_filledBy_le (price q : Int) (hn : (os.map Order.id).Nodup)
    (hpos : ∀ o ∈ os, 0 < o.remainingQuantity) (hb : b ∈ os) :
    filledBy b.id (fifoWalk price os q).results ≤ b.remainingQuantity := by
  have hrem := hpos b hb
  by_cases hq : 0 < q
  · let l : PriceLevel := ⟨price, sumQty os, os.length, os⟩
    exact (fifoMatch.bookable l q hn).filledBy_le ⟨⟨rfl, hpos⟩, hq⟩ (remainingIn_of_mem hn hb)
      hrem.le
  · rw [fifoWalk_of_nonpos (by omega)]
    exact hrem.le

theorem fifoWalk_ahead {price q : Int}
    (hpos : ∀ o ∈ os, 0 < o.remainingQuantity) (hab : [a, b].Sublist os)
    (hrem : a.remainingQuantity = b.remainingQuantity) :
    filledBy b.id (fifoWalk price os q).results ≤ filledBy a.id (fifoWalk price os q).results := by
  have hne := ne_of_pair hn hab
  induction os generalizing q with
  | nil => simp at hab
  | cons o os ih =>
    obtain ⟨ho, hn'⟩ := List.nodup_cons.mp hn
    have hpos' : ∀ x ∈ os, 0 < x.remainingQuantity := fun x hx => hpos x (by simp [hx])
    have hout : ∀ x ∈ os, o.id ≠ x.id := fun x hx he => ho (he ▸ mem_map_of_mem hx)
    by_cases hq : q > 0
    · unfold fifoWalk
      simp only [hq, if_true, filledBy]
      cases hab with
      | cons _ hab =>
        rw [if_neg (hout b (hab.subset (by simp))), if_neg (hout a (hab.subset (by simp)))]
        simpa using ih hn' hpos' hab
      | cons_cons _ hb =>
        have hb : b ∈ os := singleton_sublist.mp hb
        have hzero : filledBy a.id
            (fifoWalk price os (q - min q a.remainingQuantity)).results = 0 :=
          filledBy_eq_zero fun f hf he =>
            ho ((fifoWalk_sublist price os _).subset (mem_map.mpr ⟨f, hf, he⟩))
        rw [if_neg hne, if_pos rfl, hzero]
        rcases le_total q a.remainingQuantity with hle | hle
        · rw [min_eq_left hle, sub_self, fifoWalk_of_nonpos le_rfl]
          simpa [filledBy] using hq.le
        · have := fifoWalk_filledBy_le price (q - min q a.remainingQuantity) hn' hpos' hb
          omega
    · rw [fifoWalk_of_nonpos (by omega)]
      exact le_rfl

end

end passes

section levels

variable {l : PriceLevel} {q : Int} {a b : Order}

theorem proRataAlloc_ahead (hd : l.Distinct) (hab : [a, b].Sublist l.orders) (hlike : a.Alike b) :
    (proRataAlloc Order.share l q).1.of b.id ≤ (proRataAlloc Order.share l q).1.of a.id :=
  lotsInOrder_ahead hd hab (baseGrants_alike hd (hab.subset (by simp)) (hab.subset (by simp))
    hlike.1 fun _ => rfl).le

theorem thresholdAlloc_ahead (minThreshold : Int) (hd : l.Distinct) (he : l.Exact) (hq : 0 < q)
    (hab : [a, b].Sublist l.orders) (hlike : a.Alike b) :
    (thresholdAlloc Order.share minThreshold l q).1.of b.id ≤ (thresholdAlloc Order.share minThreshold l q).1.of a.id := by
  obtain ⟨hbase, hle⟩ := baseGrants_level (thresholdKeep_pos minThreshold) hd he hq
  exact walk_ahead (thresholdGive_greedy he.positive).toFor hd hbase hab (fun _ => rfl)
    hlike.1 (by omega) (baseGrants_alike hd (hab.subset (by simp)) (hab.subset (by simp)) hlike.1
      fun _ => rfl).le

theorem allocationAlloc_ahead (hd : l.Distinct) (hab : [a, b].Sublist l.orders)
    (hlike : a.Alike b) : (allocationAlloc Order.share l q).1.of b.id ≤ (allocationAlloc Order.share l q).1.of a.id :=
  lotsToLargest_ahead hd hab hlike.1 _ (baseGrants_alike hd (hab.subset (by simp))
    (hab.subset (by simp)) hlike.1 fun _ => rfl).le

theorem fifoRest_ahead {g : Grants} (hd : l.Distinct) (h : GrantsWithin l.orders g)
    (hle : g.total ≤ q) (hab : [a, b].Sublist l.orders) (hlike : a.Alike b)
    (hahead : g.of b.id ≤ g.of a.id) :
    (fifoRest l.orders q g).1.of b.id ≤ (fifoRest l.orders q g).1.of a.id :=
  walk_ahead (liveGive_greedyFor (fun _ => true) _) hd h hab (fun _ => rfl) hlike.1
    (by omega) hahead

theorem fifoLmmAlloc_ahead {mmPriorityPct : Nat} (hpct : mmPriorityPct ≤ 100) (hd : l.Distinct)
    (he : l.Exact) (hq : 0 < q) (hab : [a, b].Sublist l.orders) (hlike : a.Alike b) :
    (fifoLmmAlloc mmPriorityPct l q).1.of b.id ≤ (fifoLmmAlloc mmPriorityPct l q).1.of a.id := by
  obtain ⟨hw, htotal⟩ := fifoLmmPriority_within hpct hd he hq
  have hnil : GrantsWithin l.orders [] := Within.nil he.nonneg
  have hlow := (percentOf_bounds hq.le hpct).1
  have hresting := mmResting_nonneg hnil
  refine fifoRest_ahead hd hw htotal hab hlike ?_
  exact walk_ahead (lmmGive_greedyFor he.positive) hd hnil hab
    (fun hb => hlike.2.1.trans hb) hlike.1 (le_min hlow hresting) le_rfl

theorem topPriority_ahead (topPct : Nat) (hd : l.Distinct) (he : l.Exact)
    (hab : [a, b].Sublist l.orders) (hlike : a.Alike b) :
    (topPriority topPct l q).of b.id ≤ (topPriority topPct l q).of a.id := by
  unfold topPriority
  dsimp only
  split
  next hpos =>
    split
    next => exact le_rfl
    next o ho =>
      have hne : o.id ≠ b.id := by
        intro hid
        obtain rfl : o = b := inj_on_of_nodup_map hd (mem_of_find?_eq_some ho)
          (hab.subset (by simp)) hid
        have htop : o.isTopOrder = true := find?_some ho
        exact find?_ne_later hd hab (hlike.2.2.trans htop) ho
      have hrem := he.positive o (mem_of_find?_eq_some ho)
      simp only [of, hne, if_false]
      split
      · exact (lt_min hpos hrem).le
      · exact le_rfl
  next => exact le_rfl

theorem fifoTopLmmAlloc_ahead {topPct mmPriorityPct : Nat} (htop : topPct ≤ 100) (hd : l.Distinct)
    (he : l.Exact) (hq : 0 < q) (hab : [a, b].Sublist l.orders) (hlike : a.Alike b) :
    (fifoTopLmmAlloc topPct mmPriorityPct l q).1.of b.id ≤
      (fifoTopLmmAlloc topPct mmPriorityPct l q).1.of a.id := by
  obtain ⟨hw, hle⟩ := topPriority_within htop hd he hq
  let g := topLmmPriority mmPriorityPct l q (topPriority topPct l q)
  obtain ⟨hw', hle'⟩ : GrantsWithin l.orders g ∧ g.total ≤ q := topLmmPriority_within hd hw hle
  have hahead := topPriority_ahead topPct (q := q) hd he hab hlike
  refine fifoRest_ahead hd hw' hle' hab hlike ?_
  unfold topLmmPriority
  dsimp only
  split
  next hpos =>
    have hresting := mmResting_nonneg hw
    exact walk_ahead (liveGive_greedyFor (·.isMarketMaker) _) hd hw hab
      (fun hb => hlike.2.1.trans hb) hlike.1 (by omega) hahead
  next => exact hahead

theorem share_le_add {o o' : Order} {t T f : Int} (ht : 0 ≤ t) (htT : t ≤ T) (hT : 0 < T)
    (hf : 0 ≤ f) (hrem : 0 ≤ o.remainingQuantity) (hrem' : 0 ≤ o'.remainingQuantity)
    (heq : o'.remainingQuantity = o.remainingQuantity + f) :
    o'.share t T ≤ f + o.share t T := by
  rw [share_eq hrem ht, share_eq hrem' ht, add_comm f, ← Int.add_mul_ediv_right _ _ hT.ne']
  refine Int.ediv_le_ediv hT ?_
  have := mul_le_mul_of_nonneg_left htT hf
  rw [heq, add_mul]
  linarith

theorem splitBase_of {os : List Order} {t T : Int} {o : Order} (hn : (os.map Order.id).Nodup)
    (ho : o ∈ os) (hrem : 0 ≤ o.remainingQuantity) (ht : 0 ≤ t) (hT : 0 ≤ T) :
    (baseGrants splitKeep (Order.share t T) os).of o.id = o.share t T := by
  have hnonneg := share_nonneg hrem ht hT
  rw [baseGrants_of hn ho]
  split
  next => rfl
  next hkeep =>
    simp only [splitKeep, Bool.and_eq_true, decide_eq_true_eq, not_and] at hkeep
    rcases eq_or_lt_of_le hrem with hz | hpos
    · simp [Order.share, ← hz]
    · omega

theorem splitProRata_ahead {os : List Order} {t f : Int} (hn : (os.map Order.id).Nodup)
    (hpos : ∀ o ∈ os, 0 ≤ o.remainingQuantity) (ht : 0 ≤ t) (hle : t ≤ sumQty os)
    (hab : [a, b].Sublist os) (hf : 0 ≤ f) (heq : b.remainingQuantity = a.remainingQuantity + f) :
    (splitProRata Order.share t os).of b.id ≤ f + (splitProRata Order.share t os).of a.id := by
  have ha : a ∈ os := hab.subset (by simp)
  have hb : b ∈ os := hab.subset (by simp)
  unfold splitProRata
  dsimp only
  split
  next hrun =>
    rw [min_eq_left hle]
    let base := baseGrants splitKeep (Order.share t (sumQty os)) os
    have hbase : GrantsWithin os base := baseGrants_within (by simp [splitKeep]) hn hpos ht hle
    have htotal : base.total ≤ t := baseGrants_total_le splitKeep hn hpos ht
    let w := (walk Order.id splitGive os (t - base.total) base).1
    have hw : GrantsWithin os w := (walk_within (splitGive_greedy os).toModest
      (Subset.refl os) hn hbase (by omega)).1
    change w.of b.id ≤ f + w.of a.id
    rcases walk_first (splitGive_greedy os).toFor hn hbase hab
      (fun _ => rfl) with hsame | hfull
    · have hsame : w.of b.id = base.of b.id := hsame
      have hmono : base.of a.id ≤ w.of a.id :=
        walk_mono (splitGive_greedy os).toModest hn hbase a.id
      have hbb : base.of b.id = b.share t (sumQty os) :=
        splitBase_of hn hb (hpos b hb) ht hrun.2.le
      have hba : base.of a.id = a.share t (sumQty os) :=
        splitBase_of hn ha (hpos a ha) ht hrun.2.le
      have := share_le_add ht hle hrun.2 hf (hpos a ha) (hpos b hb) heq
      omega
    · have hfull : a.remainingQuantity - w.of a.id = 0 := hfull
      have := hw.capped b hb
      omega
  next => simpa [of] using hf

theorem splitLevel_ahead {fifoPct : Nat} (hpct : fifoPct ≤ 100) (hd : l.Distinct) (he : l.Exact)
    (hq : 0 < q) (hab : [a, b].Sublist l.orders) (hlike : a.Alike b) :
    filledBy b.id (splitLevel percentOf Order.share fifoPct l q).results ≤
      filledBy a.id (splitLevel percentOf Order.share fifoPct l q).results := by
  unfold splitLevel
  split
  next => exact le_rfl
  next =>
    let fifoQty := percentOf (min q l.totalQuantity) fifoPct
    let g := splitFifo fifoQty l.orders
    let os := (applyGrants l.price g l.orders).1
    let g' := splitProRata Order.share (min q l.totalQuantity - fifoQty) os
    obtain ⟨⟨hw, htotal⟩, hw', htotal'⟩ : (GrantsWithin l.orders g ∧ g.total = fifoQty) ∧
        GrantsWithin os g' ∧ g'.total = min q l.totalQuantity - fifoQty :=
      splitLevel_parts hpct hd he hq
    obtain ⟨ht, htT⟩ := toFill_bounds he hq
    obtain ⟨hlow, hhigh⟩ : 0 ≤ fifoQty ∧ fifoQty ≤ min q l.totalQuantity :=
      percentOf_bounds ht hpct
    have hn : (os.map Order.id).Nodup := by
      rw [applyGrants_ids]
      exact hd
    have hos : os = l.orders.map fun o => o.fill (g.of o.id) := by
      simp [os, applyGrants_orders, filledBy_applyGrants _ hw.nodup]
    have hab' : [a.fill (g.of a.id), b.fill (g.of b.id)].Sublist os := by
      rw [hos]
      exact hab.map fun o => o.fill (g.of o.id)
    rw [filledBy_append, filledBy_append, filledBy_applyGrants _ hw.nodup,
      filledBy_applyGrants _ hw.nodup, filledBy_applyGrants _ hw'.nodup,
      filledBy_applyGrants _ hw'.nodup]
    have hcapb : g'.of b.id ≤ b.remainingQuantity - g.of b.id :=
      hw'.capped (b.fill (g.of b.id)) (hab'.subset (by simp))
    have hfirst := of_nonneg hw.positive a.id
    have hsecond := of_nonneg hw'.positive a.id
    have hrem := hlike.1
    rcases walk_first (r := fifoQty) (splitFifoGive_greedy l.orders).toFor hd
      (Within.nil he.nonneg) hab (fun _ => rfl) with hnone | hfull
    · have hnone : g.of b.id = 0 := hnone
      have hsum : min q l.totalQuantity - fifoQty ≤ sumQty os := by
        have : sumQty os = sumQty l.orders - g.total := sumQty_applyGrants hw.toOn hd
        omega
      have hprop : g'.of (b.fill (g.of b.id)).id ≤ g.of a.id + g'.of (a.fill (g.of a.id)).id :=
        splitProRata_ahead hn (applyGrants_nonneg hw.toOn hw.capped) (by omega) hsum hab' hfirst
          (by simp only [Order.fill]; omega)
      simp only [Order.fill_id] at hprop
      omega
    · have hfull : a.remainingQuantity - g.of a.id = 0 := hfull
      omega

end levels

section gtbpr

variable {cfg : GtbprConfig} {now pool : Int} {os : List Order} {g : Grants} {a b : Order}

theorem weightedGrants_of {eff : Order → Int} {weight : Order → Rat} {total : Rat}
    (hn : (os.map Order.id).Nodup) {o : Order} (ho : o ∈ os) :
    (weightedGrants eff weight total pool os g).of o.id =
      g.of o.id + max 0 (min ⌊weight o / total * pool⌋ (eff o)) := by
  induction os generalizing g with
  | nil => simp at ho
  | cons x os ih =>
    obtain ⟨hx, hn⟩ := List.nodup_cons.mp hn
    unfold weightedGrants
    rcases List.mem_cons.mp ho with rfl | ho
    · have hother : ∀ (os : List Order) (g : Grants), o.id ∉ os.map Order.id →
          (weightedGrants eff weight total pool os g).of o.id = g.of o.id := by
        intro os
        induction os with
        | nil => exact fun g _ => rfl
        | cons y os ih =>
          intro g hy
          simp only [List.map_cons, List.mem_cons, not_or] at hy
          unfold weightedGrants
          rw [ih _ hy.2]
          split
          · exact of_add_of_ne hy.1
          · rfl
      rw [hother os _ hx]
      split
      next hgive => rw [of_add_self, max_eq_right hgive.2.le]
      next hgive =>
        have := min_le_right ⌊weight o / total * pool⌋ (eff o)
        have hzero : min ⌊weight o / total * pool⌋ (eff o) ≤ 0 :=
          not_lt.mp fun hlt => hgive ⟨hlt.trans_le this, hlt⟩
        rw [max_eq_left hzero, add_zero]
    · have hne : o.id ≠ x.id := fun he => hx (he ▸ mem_map_of_mem ho)
      rw [ih hn ho]
      split
      · rw [of_add_of_ne hne]
      · rfl

def unitWeight (cfg : GtbprConfig) (now : Int) (o : Order) : Rat :=
  1 + cfg.timeWeightFactor * max 0 (((now - o.timestamp : Int) : Rat) / nsPerSec)

theorem timeWeight_eq (q : Int) (o : Order) : timeWeight cfg now q o = q * unitWeight cfg now o :=
  rfl

theorem unitWeight_mono (now : Int) (hfactor : 0 ≤ cfg.timeWeightFactor) (h : a.timestamp ≤ b.timestamp) :
    0 < unitWeight cfg now b ∧ unitWeight cfg now b ≤ unitWeight cfg now a := by
  have hns : (0 : Rat) < nsPerSec := by norm_num [nsPerSec]
  have hage : max 0 (((now - b.timestamp : Int) : Rat) / nsPerSec) ≤
      max 0 (((now - a.timestamp : Int) : Rat) / nsPerSec) := by
    refine max_le_max le_rfl (div_le_div_of_nonneg_right ?_ hns.le)
    exact_mod_cast Int.sub_le_sub_left h now
  unfold unitWeight
  refine ⟨by positivity, ?_⟩
  have := mul_le_mul_of_nonneg_left hage hfactor
  linarith

/-- Rounded shares of two orders, of which one has got `f` before: per unit it is given no less,
and no order is given more than it has. -/
theorem floor_share_ahead {f n r : Int} {x y : Rat} (hf : 0 ≤ f) (hr : 0 ≤ r) (hn : r ≤ f + n)
    (hy : 0 ≤ y) (hxy : y ≤ x) :
    max 0 (min ⌊r * y⌋ r) ≤ f + max 0 (min ⌊n * x⌋ n) := by
  rcases le_or_gt n 0 with hneg | hpos
  · omega
  have hn' : (0 : Rat) < n := by exact_mod_cast hpos
  rcases le_or_gt 1 x with hx | hx
  · -- it is given everything it has
    have hall : n ≤ ⌊(n : Rat) * x⌋ := Int.le_floor.mpr (le_mul_of_one_le_right hn'.le hx)
    omega
  · have hshare : ⌊(r : Rat) * y⌋ ≤ f + ⌊(n : Rat) * x⌋ := by
      rw [← Int.floor_intCast_add]
      refine Int.floor_le_floor ?_
      have hf' : (0 : Rat) ≤ f := by exact_mod_cast hf
      have hsum : (r : Rat) ≤ f + n := by exact_mod_cast hn
      calc (r : Rat) * y ≤ (f + n) * x := mul_le_mul hsum hxy hy (by positivity)
        _ = f * x + n * x := by ring
        _ ≤ f + n * x := by
          have := mul_le_of_le_one_right hf' hx.le
          linarith
    omega

theorem lotWalk_ahead {r : Int} (hn : (os.map Order.id).Nodup) (hab : [a, b].Sublist os)
    (hrem : a.remainingQuantity = b.remainingQuantity)
    (h : g.of b.id ≤ b.remainingQuantity ∧ g.of b.id ≤ g.of a.id) :
    let w := (walk Order.id lotGive os r g).1
    w.of b.id ≤ b.remainingQuantity ∧ w.of b.id ≤ w.of a.id := by
  intro w
  have hgive : ∀ x ∈ os, ∀ (g : Grants) (r q : Int), True → 0 < r → lotGive x g r = some q →
      True ∧ 0 ≤ q := by
    intro x _ g r q _ _ hq
    unfold lotGive at hq
    split at hq
    · simp at hq
    · obtain rfl := some.inj hq
      exact ⟨trivial, by decide⟩
  obtain ⟨g₁, r₁, g₂, r₂, ⟨-, -, hr⟩, ⟨ha₁, hb₂⟩, ha, hb⟩ :=
    walk_pair hgive trivial hn hab
  have hlot : ∀ (x : Order) (g : Grants) (r : Int), gift lotGive x g r =
      if r > 0 ∧ ¬x.remainingQuantity - g.of x.id ≤ 0 then 1 else 0 := by
    intro x g r
    unfold gift lotGive
    by_cases hr : r > 0 <;> by_cases hx : x.remainingQuantity - g.of x.id ≤ 0 <;> simp [hr, hx]
  rw [hlot] at ha hb hr
  rw [ha, hb]
  split at hr <;> split <;> omega

theorem lotPasses_ahead {r : Int} (hn : (os.map Order.id).Nodup) (hab : [a, b].Sublist os)
    (hrem : a.remainingQuantity = b.remainingQuantity) (n : Nat)
    (h : g.of b.id ≤ b.remainingQuantity ∧ g.of b.id ≤ g.of a.id) :
    (lotPasses os n r g).of b.id ≤ (lotPasses os n r g).of a.id := by
  induction n generalizing g r with
  | zero => exact h.2
  | succ n ih =>
    have hpass := lotWalk_ahead (r := r) hn hab hrem h
    unfold lotPasses
    dsimp only
    split
    · split
      · exact hpass.2
      · exact ih hpass
    · exact h.2

/-- The priority order is not the later of the two. What the earlier one gets as priority order
and what is weighed of it are together no less than it has. -/
theorem gtbprFirst_ahead (cfg : GtbprConfig) (hn : (os.map Order.id).Nodup) (hab : [a, b].Sublist os)
    (hrem : a.remainingQuantity = b.remainingQuantity) :
    let first := gtbprFirst cfg pool os
    first.of b.id = 0 ∧ effectiveQty cfg pool os b = b.remainingQuantity ∧
      0 ≤ first.of a.id ∧ a.remainingQuantity ≤ first.of a.id + effectiveQty cfg pool os a := by
  intro first
  have hne : ∀ p, gtbprPriority cfg os = some p → p.id ≠ b.id := by
    intro p hp hid
    obtain rfl : p = b := inj_on_of_nodup_map hn (mem_of_find?_eq_some hp)
      (hab.subset (by simp)) hid
    have hlarge : p.remainingQuantity ≥ cfg.collar := by
      simpa using find?_some hp
    exact find?_ne_later hn hab (decide_eq_true (hrem ▸ hlarge)) hp
  unfold effectiveQty
  simp only [first, gtbprFirst]
  cases hp : gtbprPriority cfg os with
  | none => simp [of]
  | some p =>
    have hpb := hne p hp
    simp only [map_some, some.injEq, hpb, if_false]
    by_cases hpa : p.id = a.id
    · split
      next hpos =>
        simp only [of, hpa, if_true]
        refine ⟨?_, trivial, hpos.le, by omega⟩
        rw [if_neg (ne_of_pair hn hab)]
      next hpos =>
        simp only [of]
        exact ⟨trivial, trivial, le_rfl, by omega⟩
    · split
      next => simp [of, hpa, hpb]
      next => simp [of]

theorem gtbprAlloc_ahead {l : PriceLevel} {q : Int} (hfactor : 0 ≤ cfg.timeWeightFactor)
    (hd : l.Distinct) (he : l.Exact) (hab : [a, b].Sublist l.orders)
    (hage : a.timestamp ≤ b.timestamp) (hlike : a.Alike b) :
    (gtbprAlloc cfg now l q).1.of b.id ≤ (gtbprAlloc cfg now l q).1.of a.id := by
  have ha : a ∈ l.orders := hab.subset (by simp)
  have hb : b ∈ l.orders := hab.subset (by simp)
  have hrem := he.positive b hb
  let toFill := min q l.totalQuantity
  let first := gtbprFirst cfg toFill l.orders
  let eff := effectiveQty cfg toFill l.orders
  obtain ⟨hbzero, hbeff, hanonneg, haeff⟩ : first.of b.id = 0 ∧ eff b = b.remainingQuantity ∧
      0 ≤ first.of a.id ∧ a.remainingQuantity ≤ first.of a.id + eff a :=
    gtbprFirst_ahead cfg hd hab hlike.1
  unfold gtbprAlloc
  dsimp only
  split
  next hpool =>
    refine lotPasses_ahead hd hab hlike.1 _ ?_
    split
    next htotal =>
      let total := totalWeight eff (fun o => timeWeight cfg now (eff o) o) l.orders
      let pool := toFill - first.total
      rw [weightedGrants_of hd ha, weightedGrants_of hd hb]
      change first.of b.id + max 0 (min ⌊timeWeight cfg now (eff b) b / total * pool⌋ (eff b)) ≤ _ ∧
        first.of b.id + max 0 (min ⌊timeWeight cfg now (eff b) b / total * pool⌋ (eff b)) ≤
        first.of a.id + max 0 (min ⌊timeWeight cfg now (eff a) a / total * pool⌋ (eff a))
      rw [hbzero, hbeff, zero_add]
      refine ⟨max_le hrem.le (min_le_right _ _), ?_⟩
      obtain ⟨hunit, hmono⟩ := unitWeight_mono now hfactor hage
      have hscale : (0 : Rat) ≤ pool / total := by
        have hpool' : (0 : Rat) ≤ pool := by exact_mod_cast hpool.le
        exact div_nonneg hpool' htotal.le
      have hshare : ∀ (n : Int) (o : Order), timeWeight cfg now n o / total * pool =
          n * (unitWeight cfg now o * (pool / total)) := by
        intro n o
        rw [timeWeight_eq]
        ring
      rw [hshare, hshare]
      exact floor_share_ahead hanonneg hrem.le (by have := hlike.1; omega)
        (mul_nonneg hunit.le hscale) (mul_le_mul_of_nonneg_right hmono hscale)
    next =>
      change first.of b.id ≤ _ ∧ first.of b.id ≤ first.of a.id
      omega
  next =>
    change first.of b.id ≤ first.of a.id
    omega

end gtbpr

theorem noQueueJump_grantLevel {alloc : PriceLevel → Int → Grants × Int} {l : PriceLevel} {q : Int}
    (hn : (alloc l q).1.keys.Nodup) (h : 0 < q → ∀ a b, [a, b].Sublist l.orders → a.Alike b →
      (alloc l q).1.of b.id ≤ (alloc l q).1.of a.id) :
    NoQueueJump l.orders (grantLevel alloc l q).results := by
  unfold grantLevel
  split
  next => exact noQueueJump_nil _
  next hsome =>
    refine noQueueJump_iff.mpr fun a b hab hlike => ?_
    rw [filledBy_applyGrants _ hn, filledBy_applyGrants _ hn]
    exact h (by omega) a b hab hlike

def gtbprLevel (cfg : GtbprConfig) (now : Int) : PriceLevel → Int → MatchOutcome :=
  grantLevel (gtbprAlloc cfg now)

def Policy.isTimed : Policy → Bool
  | .gtbpr .. => true
  | _ => false

/-- No order is overtaken by a later one that is like it, whatever the policy; where age counts,
the queue is to be ordered by it. -/
theorem policy_noQueueJump {l : PriceLevel} (hd : l.Distinct) (he : l.Exact) (q : Int) :
    (∀ p : Policy, p.isTimed = false → NoQueueJump l.orders (p.algo.matchLevel l q).results) ∧
    ∀ (cfg : GtbprConfig) (now : Int), 0 ≤ cfg.timeWeightFactor →
      l.orders.Pairwise (fun a b => a.timestamp ≤ b.timestamp) →
      NoQueueJump l.orders (gtbprLevel cfg now l q).results := by
  refine ⟨fun p hp => ?_, fun cfg now hfactor hages => ?_⟩
  · cases p with
    | fifo =>
      exact noQueueJump_iff.mpr fun a b hab hlike => fifoWalk_ahead hd he.positive hab hlike.1
    | proRata =>
      exact noQueueJump_grantLevel (proRata.on l q hd).nodup fun _ _ _ hab hlike =>
        proRataAlloc_ahead hd hab hlike
    | thresholdProRata minThreshold =>
      exact noQueueJump_grantLevel ((thresholdProRata minThreshold).on l q hd).nodup
        fun hq _ _ hab hlike => thresholdAlloc_ahead minThreshold hd he hq hab hlike
    | allocation =>
      exact noQueueJump_grantLevel (allocation.on l q hd).nodup fun _ _ _ hab hlike =>
        allocationAlloc_ahead hd hab hlike
    | splitFifoProRata fifoPct hpct =>
      by_cases hq : 0 < q
      · exact noQueueJump_iff.mpr fun a b hab hlike => splitLevel_ahead hpct hd he hq hab hlike
      · have hnone : (splitLevel percentOf Order.share fifoPct l q).results = [] := by
          simp [splitLevel, not_lt.mp hq]
        change NoQueueJump l.orders (splitLevel percentOf Order.share fifoPct l q).results
        rw [hnone]
        exact noQueueJump_nil _
    | fifoLmm mmPriorityPct hpct =>
      exact noQueueJump_grantLevel ((fifoLmm mmPriorityPct hpct).on l q hd).nodup
        fun hq _ _ hab hlike => fifoLmmAlloc_ahead hpct hd he hq hab hlike
    | fifoTopLmm topPct mmPriorityPct htop hpct =>
      exact noQueueJump_grantLevel ((fifoTopLmm topPct mmPriorityPct htop).on l q hd).nodup
        fun hq _ _ hab hlike => fifoTopLmmAlloc_ahead htop hd he hq hab hlike
    | gtbpr cfg hcap hfactor now => simp [Policy.isTimed] at hp
  · refine noQueueJump_grantLevel (gtbprAlloc_on cfg now l q).nodup fun _ a b hab hlike => ?_
    have hage := pairwise_iff_forall_sublist.mp hages hab
    exact gtbprAlloc_ahead hfactor hd he hab hage hlike

theorem policy_noQueueJump_sample :
    let l := offerLevel [restingOffer 1 3, restingOffer 2 4, restingOffer 3 3]
    NoQueueJump l.orders (Policy.proRata.algo.matchLevel l 5).results ∧
      NoQueueJump l.orders (gtbprLevel {} 0 l 5).results := by
  intro l
  have h := policy_noQueueJump (l := l) (by decide) ⟨rfl, by decide⟩ 5
  exact ⟨h.1 .proRata rfl, h.2 {} 0 (by norm_num) (by decide)⟩

end ExchangeSim
