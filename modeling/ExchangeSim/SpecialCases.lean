import ExchangeSim.Policies

/-!
The parameters at which a policy should be another one. The time-priority policies do become
`FifoMatch`; the proportional ones differ from `ProRataMatch` in what rounding leaves over.
-/

namespace ExchangeSim

open List Grants

section timePriority

def inTime : List Order → Int → Grants
  | [], _ => []
  | o :: os, r =>
    if r > 0 then
      let q := min r o.remainingQuantity
      (o.id, q) :: inTime os (r - q)
    else []

theorem inTime_keys (os : List Order) (r : Int) :
    (inTime os r).keys.Sublist (os.map Order.id) := by
  induction os generalizing r with
  | nil => exact .slnil
  | cons o os ih =>
    unfold inTime
    split
    · exact (ih _).cons_cons o.id
    · exact nil_sublist _

theorem applyGrants_cons {price : Int} {g : Grants} {o : Order} {os : List Order}
    (h : o.id ∉ g.keys) : applyGrants price g (o :: os) =
      (o :: (applyGrants price g os).1, (applyGrants price g os).2) := by
  induction g generalizing os with
  | nil => rfl
  | cons e g ih =>
    obtain ⟨id, q⟩ := e
    have hne : o.id ≠ id := fun he => h (he ▸ mem_cons_self)
    have hbeq : (o.id == id) = false := by simpa using hne
    simp only [applyGrants, List.map_cons, if_neg hne, remainingIn, find?_cons, hbeq]
    rw [ih fun hk => h (mem_cons_of_mem _ hk)]

theorem applyGrants_inTime {price : Int} {os : List Order} (hn : (os.map Order.id).Nodup)
    (r : Int) : applyGrants price (inTime os r) os =
      ((fifoWalk price os r).orders, (fifoWalk price os r).results) := by
  induction os generalizing r with
  | nil => rfl
  | cons o os ih =>
    obtain ⟨hnot, hn⟩ := List.nodup_cons.mp hn
    unfold inTime fifoWalk
    split
    next hr =>
      have hsame : os.map (fun x => if x.id = o.id then x.fill (min r o.remainingQuantity) else x) =
          os := by
        conv_rhs => rw [← map_id os]
        refine map_congr_left fun x hx => if_neg fun he => hnot ?_
        exact he ▸ mem_map_of_mem hx
      have hout : (o.fill (min r o.remainingQuantity)).id ∉
          (inTime os (r - min r o.remainingQuantity)).keys := fun hk =>
        hnot ((inTime_keys _ _).subset hk)
      simp only [applyGrants, List.map_cons, if_true, hsame, remainingIn, find?_cons,
        Order.fill_id, beq_self_eq_true, Option.map_some, Option.getD_some]
      rw [applyGrants_cons hout, ih hn]
    next => rfl

theorem walk_inTime {give : Order → Grants → Int → Option Int}
    (hgive : ∀ o g r, o.id ∉ Grants.keys g → 0 < r → 0 < o.remainingQuantity →
      give o g r = some (min r o.remainingQuantity))
    {os : List Order} (hn : (os.map Order.id).Nodup) (hpos : ∀ o ∈ os, 0 < o.remainingQuantity)
    {g : Grants} (hnew : ∀ o ∈ os, o.id ∉ g.keys) (r : Int) :
    (Grants.walk Order.id give os r g).1 = g ++ inTime os r := by
  induction os generalizing g r with
  | nil => simp [walk, inTime]
  | cons o os ih =>
    obtain ⟨hnot, hn⟩ := List.nodup_cons.mp hn
    unfold walk inTime
    split
    next hr =>
      have hkey : o.id ∉ g.keys := hnew o (by simp)
      rw [hgive o g r hkey hr (hpos o (by simp))]
      have hadd : g.add o.id (min r o.remainingQuantity) =
          g ++ [(o.id, min r o.remainingQuantity)] := add_of_not_mem hkey
      rw [ih hn (fun x hx => hpos x (by simp [hx])) fun x hx hk => ?_, hadd, List.append_assoc,
        singleton_append]
      rcases mem_keys_add.mp hk with he | hk
      · exact hnot (he ▸ mem_map_of_mem hx)
      · exact hnew x (by simp [hx]) hk
    next => simp

variable {l : PriceLevel} {q : Int}

theorem inTime_total (hd : l.Distinct) :
    (inTime l.orders q).total = fillTotal (fifoWalk l.price l.orders q).results := by
  have htotal : fillTotal (applyGrants l.price (inTime l.orders q) l.orders).2 =
      (inTime l.orders q).total := applyGrants_total
  rw [← htotal, applyGrants_inTime hd]

theorem grantLevel_inTime {alloc : PriceLevel → Int → Grants × Int} (hd : l.Distinct)
    (halloc : 0 < q → alloc l q = (inTime l.orders q, (fifoWalk l.price l.orders q).remaining)) :
    grantLevel alloc l q = fifoMatch.matchLevel l q := by
  change _ = fifoWalk l.price l.orders q
  by_cases hq : q ≤ 0
  · rw [fifoWalk_of_nonpos hq]
    exact if_pos (.inl hq)
  by_cases hnil : l.orders = []
  · refine (if_pos (.inr hnil)).trans ?_
    rw [hnil, fifoWalk]
  · refine (if_neg (by tauto)).trans ?_
    dsimp only
    rw [halloc (by omega), applyGrants_inTime hd]

theorem fifoRest_inTime (hd : l.Distinct) (he : l.Exact) :
    fifoRest l.orders q [] = (inTime l.orders q, (fifoWalk l.price l.orders q).remaining) := by
  have hgive : ∀ (o : Order) g r, o.id ∉ Grants.keys g → 0 < r → 0 < o.remainingQuantity →
      liveGive (fun _ => true) o g r = some (min r o.remainingQuantity) := by
    intro o g r hk _ hpos
    have hlive : liveQty g o = o.remainingQuantity := by
      rw [liveQty, of_eq_zero hk, sub_zero]
    simp [liveGive, hlive, hpos]
  have hwalk : (fifoRest l.orders q []).1 = inTime l.orders q := by
    have := walk_inTime hgive hd he.positive (g := []) (by simp [Grants.keys]) q
    simpa [fifoRest] using this
  have htotal := Grants.walk_total Order.id (liveGive fun _ => true) l.orders (q - 0) []
  change (fifoRest l.orders q []).1.total + (fifoRest l.orders q []).2 = 0 + (q - 0) at htotal
  refine Prod.ext hwalk ?_
  rw [hwalk, inTime_total hd] at htotal
  rw [fifoWalk_remaining]
  omega

theorem percentOf_zero (q : Int) : percentOf q 0 = 0 := by
  simp [percentOf]

theorem percentOf_hundred (q : Int) : percentOf q 100 = q := by
  simp [percentOf]

theorem mmResting_eq_zero (h : ∀ o ∈ l.orders, o.isMarketMaker = false) (g : Grants) :
    mmResting g l.orders = 0 := by
  have hnone : l.orders.filter (·.isMarketMaker) = [] := by simpa using h
  rw [mmResting, hnone]
  rfl

theorem fifoLmmPriority_eq_nil {mmPriorityPct : Nat}
    (h : mmPriorityPct = 0 ∨ ∀ o ∈ l.orders, o.isMarketMaker = false) :
    fifoLmmPriority mmPriorityPct l q = [] := by
  have hzero : min (percentOf q mmPriorityPct) (mmResting [] l.orders) ≤ 0 := by
    rcases h with rfl | hnone
    · rw [percentOf_zero]
      exact min_le_left _ _
    · rw [mmResting_eq_zero hnone]
      exact min_le_right _ _
  unfold fifoLmmPriority
  dsimp only
  rw [walk_of_nonpos hzero]

theorem topPriority_eq_nil (topPct : Nat) (h : ∀ o ∈ l.orders, o.isTopOrder = false) :
    topPriority topPct l q = [] := by
  have hnone : l.orders.find? (·.isTopOrder) = none := by simpa using h
  unfold topPriority
  dsimp only
  split
  · rw [hnone]
  · rfl

theorem topLmmPriority_eq_nil (mmPriorityPct : Nat)
    (h : ∀ o ∈ l.orders, o.isMarketMaker = false) : topLmmPriority mmPriorityPct l q [] = [] := by
  unfold topLmmPriority
  dsimp only
  split
  · rw [mmResting_eq_zero h, walk_of_nonpos (by omega)]
  · rfl

theorem fifoWalk_min (price : Int) {os : List Order} (hpos : ∀ o ∈ os, 0 < o.remainingQuantity)
    (hq : 0 ≤ q) :
    (fifoWalk price os (min q (sumQty os))).orders = (fifoWalk price os q).orders ∧
      (fifoWalk price os (min q (sumQty os))).results = (fifoWalk price os q).results := by
  induction os generalizing q with
  | nil => exact ⟨rfl, rfl⟩
  | cons o os ih =>
    have ho := hpos o (by simp)
    have hsum := sumQty_nonneg fun x hx => (hpos x (mem_cons_of_mem o hx)).le
    rcases eq_or_lt_of_le hq with rfl | hq
    · rw [min_eq_left (by simp only [sumQty_cons]; omega)]
      exact ⟨rfl, rfl⟩
    have htake : min (min q (sumQty (o :: os))) o.remainingQuantity = min q o.remainingQuantity := by
      simp only [sumQty_cons]
      omega
    have hleft : min q (sumQty (o :: os)) - min q o.remainingQuantity =
        min (q - min q o.remainingQuantity) (sumQty os) := by
      simp only [sumQty_cons]
      omega
    have hmore : min q (sumQty (o :: os)) > 0 := by
      omega
    obtain ⟨horders, hresults⟩ := ih (q := q - min q o.remainingQuantity)
      (fun x hx => hpos x (mem_cons_of_mem o hx)) (by omega)
    simp only [fifoWalk, hmore, hq, if_true, htake, hleft, horders, hresults, and_self]

theorem splitFifo_inTime {os : List Order} (hn : (os.map Order.id).Nodup)
    (hpos : ∀ o ∈ os, 0 < o.remainingQuantity) : splitFifo q os = inTime os q := by
  have hgive : ∀ (o : Order) g r, o.id ∉ Grants.keys g → 0 < r → 0 < o.remainingQuantity →
      splitFifoGive o g r = some (min r o.remainingQuantity) := by
    intro o g r hk hr hpos
    have hlive : liveQty g o = o.remainingQuantity := by
      rw [liveQty, of_eq_zero hk, sub_zero]
    simp [splitFifoGive, hlive, hpos, hr]
  exact walk_inTime hgive hn hpos (by simp [Grants.keys]) q

theorem splitLevel_hundred (hd : l.Distinct) (he : l.Exact) :
    splitLevel percentOf Order.share 100 l q = fifoWalk l.price l.orders q := by
  by_cases hq : q ≤ 0
  · rw [fifoWalk_of_nonpos hq]
    exact if_pos (.inl hq)
  by_cases hnil : l.orders = []
  · refine (if_pos (.inr hnil)).trans ?_
    rw [hnil, fifoWalk]
  have hnonneg : 0 ≤ q := by omega
  obtain ⟨horders, hresults⟩ := fifoWalk_min l.price he.positive hnonneg
  have htotal : fillTotal (fifoWalk l.price l.orders q).results = min q (sumQty l.orders) :=
    fifoWalk_total he.positive hnonneg
  have hleft := fifoWalk_remaining l.price l.orders q
  rw [htotal] at hleft
  have hrest (os : List Order) : splitProRata Order.share 0 os = [] := by simp [splitProRata]
  refine (if_neg (by tauto)).trans ?_
  dsimp only
  rw [percentOf_hundred, sub_self, hrest, applyGrants, append_nil, he.total,
    splitFifo_inTime hd he.positive, applyGrants_inTime hd, horders, hresults, ← hleft]

end timePriority

section proportional

variable {l : PriceLevel} {q : Int}

/-- The units that rounding the shares down leaves over. -/
def unitsLeftOver (l : PriceLevel) (q : Int) : Int :=
  let toFill := min q l.totalQuantity
  toFill - (l.orders.map fun o => o.share toFill l.totalQuantity).sum

/-- Each order but the last that would get a unit of those has just that unit beyond its share. -/
def OneBeyondShares (l : PriceLevel) (q : Int) : Prop :=
  ∀ o ∈ l.orders.take (unitsLeftOver l q - 1).toNat,
    o.remainingQuantity = o.share (min q l.totalQuantity) l.totalQuantity + 1

instance (l : PriceLevel) (q : Int) : Decidable (OneBeyondShares l q) :=
  inferInstanceAs (Decidable (∀ o ∈ _, _))

theorem remainder_eq_iff {give : Order → Grants → Int → Option Int}
    (hgive : Grants.Greedy Order.id Order.remainingQuantity l.orders give) (hd : l.Distinct)
    (he : l.Exact) (hq : 0 < q) :
    let t := min q l.totalQuantity
    let base := baseGrants proRataKeep (Order.share t l.totalQuantity) l.orders
    (∀ o ∈ l.orders, (Grants.walk Order.id give l.orders (t - base.total) base).1.of o.id =
        (lotsInOrder l.orders (t - base.total) base).of o.id) ↔ OneBeyondShares l q := by
  intro t base
  obtain ⟨ht, htT⟩ : 0 ≤ t ∧ t ≤ sumQty l.orders := toFill_bounds he hq
  have hbase := (baseGrants_level proRataKeep_pos hd he hq).1
  have hleft : t - base.total = unitsLeftOver l q := by
    have htotal := proRata_base_total hd he.positive ht
    rw [← he.total] at htotal
    change t - base.total = t - _
    rw [← htotal]
  have hroom : ∀ o ∈ l.orders, Grants.room Order.id Order.remainingQuantity base o =
      o.remainingQuantity - o.share t l.totalQuantity := by
    intro o ho
    have hnonneg : 0 ≤ o.share t l.totalQuantity :=
      share_nonneg (he.nonneg o ho) ht (he.total ▸ sumQty_nonneg he.nonneg)
    have hof : base.of o.id = _ := baseGrants_of hd ho
    unfold room
    rw [hof]
    by_cases hzero : o.share t l.totalQuantity = 0
    · simp [hzero]
    · rw [if_pos (by simp only [proRataKeep, decide_eq_true_eq]; omega)]
  rw [hleft]
  rcases lt_or_eq_of_le htT with hlt | heq
  · refine (walk_ones_eq_iff (fun _ _ _ => rfl) hgive (Subset.refl _) hd hd hbase
      fun o ho => ?_).trans (forall₂_congr fun o ho => ?_)
    · rw [hroom o ho]
      have hlt : t < l.totalQuantity := he.total ▸ hlt
      have := share_lt (he.positive o ho) ht hlt
      omega
    · rw [hroom o (mem_of_mem_take ho)]
      exact sub_eq_iff_eq_add'.trans (by rfl)
  · -- all of the level is traded, and nothing is left over
    have hnone : unitsLeftOver l q ≤ 0 := by
      have hall : ∀ o ∈ l.orders, o.share t l.totalQuantity = o.remainingQuantity := fun o ho => by
        have hpos := he.positive o ho
        have hle := remaining_le_sumQty he.nonneg ho
        have ht' : t = l.totalQuantity := heq.trans he.total.symm
        rw [share_eq hpos.le ht, ht', he.total]
        exact Int.mul_ediv_cancel _ (by omega)
      change t - _ ≤ 0
      rw [map_congr_left hall]
      exact (sub_eq_zero.mpr heq).le
    have hzero : (unitsLeftOver l q - 1).toNat = 0 := by omega
    rw [lotsInOrder, walk_of_nonpos hnone, walk_of_nonpos hnone]
    simp [OneBeyondShares, hzero]

theorem thresholdProRata_zero (l : PriceLevel) (q : Int) :
    let t := min q l.totalQuantity
    let base := baseGrants proRataKeep (Order.share t l.totalQuantity) l.orders
    ((thresholdProRata 0).alloc l q).1 =
      (Grants.walk Order.id thresholdGive l.orders (t - base.total) base).1 := by
  intro t base
  have hbase : baseGrants (thresholdKeep 0) (Order.share t l.totalQuantity) l.orders = base := by
    refine baseGrants_congr fun o _ => ⟨?_, fun _ => rfl⟩
    simp only [thresholdKeep, proRataKeep, Bool.and_eq_true, decide_eq_true_eq]
    omega
  change (Grants.walk Order.id thresholdGive l.orders (t - (baseGrants (thresholdKeep 0)
    (Order.share t l.totalQuantity) l.orders).total) (baseGrants (thresholdKeep 0)
      (Order.share t l.totalQuantity) l.orders)).1 = _
  rw [hbase]

theorem filledBy_splitLevel_zero (hd : l.Distinct) (he : l.Exact) (hq : 0 < q) {o : Order}
    (ho : o ∈ l.orders) :
    let t := min q l.totalQuantity
    let base := baseGrants proRataKeep (Order.share t l.totalQuantity) l.orders
    filledBy o.id (splitLevel percentOf Order.share 0 l q).results =
      (Grants.walk Order.id splitGive l.orders (t - base.total) base).1.of o.id := by
  intro t base
  have hrun : ¬(q ≤ 0 ∨ l.orders = []) := by
    rintro (h | h)
    · omega
    · simp [h] at ho
  have hlevel : splitLevel percentOf Order.share 0 l q = _ := if_neg hrun
  have hpos := he.positive o ho
  have hsum := remaining_le_sumQty he.nonneg ho
  have hbase : baseGrants splitKeep (Order.share t l.totalQuantity) l.orders = base := by
    refine baseGrants_congr fun o ho => ⟨?_, fun _ => rfl⟩
    simp [splitKeep, proRataKeep, he.positive o ho]
  have htotal := he.total
  have hparts : t - percentOf t 0 > 0 ∧ sumQty l.orders > 0 := by
    rw [percentOf_zero]
    omega
  have hfirst : splitFifo (percentOf t 0) l.orders = [] := by
    rw [percentOf_zero, splitFifo, walk_zero]
  have hsecond : splitProRata Order.share (t - percentOf t 0) l.orders =
      (Grants.walk Order.id splitGive l.orders (t - base.total) base).1 := by
    unfold splitProRata
    dsimp only
    rw [if_pos hparts, percentOf_zero, sub_zero, ← he.total, min_eq_left (min_le_right _ _), hbase]
  rw [hlevel]
  dsimp only
  rw [hfirst, applyGrants, hsecond, nil_append]
  exact filledBy_applyGrants o.id
    (walk_on (baseGrants_on hd) (Subset.refl l.orders)).nodup

theorem splitZero_fits (he : l.Exact) (hfits : Policy.proRata.Fits l q) :
    (Policy.splitFifoProRata 0 (by decide)).Fits l q := by
  have hmin : min (min q l.totalQuantity) (sumQty l.orders) = min q l.totalQuantity := by
    rw [he.total]
    omega
  have hfirst : splitFifo 0 l.orders = [] := by rw [splitFifo, walk_zero]
  intro v hv
  rcases List.mem_append.mp hv with hv | hv
  · refine hfits v (List.mem_append_left _ ?_)
    simp only [Policy.products] at hv ⊢
    split at hv
    next => simp at hv
    next hrun =>
      rw [if_neg hrun]
      simp only [splitProducts, percentOf_zero, hfirst, applyGrants, sub_zero, hmin] at hv
      split at hv
      · obtain ⟨o, ho, rfl⟩ := mem_map.mp hv
        exact mem_map_of_mem (mem_of_mem_filter ho)
      · simp at hv
  · simp only [Policy.percentProducts, mem_singleton] at hv
    rw [hv, Nat.cast_zero, mul_zero]
    decide

end proportional

/-- When the policies that should be `ProRataMatch` give every order what it gives, while the
products of the shares fit. -/
theorem proRata_special_cases {l : PriceLevel} (hd : l.Distinct) (he : l.Exact) (q : Int)
    (hfits : Policy.proRata.Fits l q) :
    ((∀ o ∈ l.orders,
      filledBy o.id ((Policy.splitFifoProRata 0 (by decide)).matchLevel l q).results =
        filledBy o.id (Policy.proRata.matchLevel l q).results) ↔ q ≤ 0 ∨ OneBeyondShares l q) ∧
    ((∀ o ∈ l.orders, filledBy o.id ((Policy.thresholdProRata 0).matchLevel l q).results =
      filledBy o.id (Policy.proRata.matchLevel l q).results) ↔ q ≤ 0 ∨ OneBeyondShares l q) := by
  have hthreshold : (Policy.thresholdProRata 0).Fits l q := hfits
  rw [Policy.matchLevel_eq hfits, Policy.matchLevel_eq hthreshold,
    Policy.matchLevel_eq (splitZero_fits he hfits)]
  simp only [Policy.algo, proRataMatch, thresholdProRataMatch]
  by_cases hq : q ≤ 0
  · have hsplit : splitLevel percentOf Order.share 0 l q = ⟨l.orders, [], q⟩ := if_pos (.inl hq)
    simp [hq, splitFifoProRataMatch, hsplit, Allocator.results_of_nonpos]
  have hpos : 0 < q := by omega
  simp only [hq, false_or]
  constructor
  · refine Iff.trans (forall₂_congr fun o ho => ?_)
      (remainder_eq_iff (splitGive_greedy l.orders) hd he hpos)
    rw [proRata.filledBy_policy hd hpos (ne_nil_of_mem ho)]
    change filledBy o.id (splitLevel percentOf Order.share 0 l q).results = _ ↔ _
    rw [filledBy_splitLevel_zero hd he hpos ho]
    rfl
  · refine Iff.trans (forall₂_congr fun o ho => ?_)
      (remainder_eq_iff (thresholdGive_greedy he.positive) hd he hpos)
    rw [proRata.filledBy_policy hd hpos (ne_nil_of_mem ho),
      (thresholdProRata 0).filledBy_policy hd hpos (ne_nil_of_mem ho), thresholdProRata_zero l q]
    rfl

theorem proRata_special_cases_sample :
    let l := offerLevel [restingOffer 1 33, restingOffer 2 33, restingOffer 3 34]
    OneBeyondShares l 7 ∧ ∀ o ∈ l.orders,
      filledBy o.id ((Policy.thresholdProRata 0).matchLevel l 7).results =
        filledBy o.id (Policy.proRata.matchLevel l 7).results := by
  intro l
  have h : OneBeyondShares l 7 := by decide
  exact ⟨h, (proRata_special_cases (l := l) (by decide) ⟨rfl, by decide⟩ 7 (by decide)).2.mpr
    (.inr h)⟩

/-- Of two units over three orders of two, `ProRataMatch` gives one each to the first two; the
other two policies give both to the first. -/
theorem proRata_special_cases_differ :
    let l := offerLevel [restingOffer 1 2, restingOffer 2 2, restingOffer 3 2]
    let fills := fun P : Policy =>
      (P.matchLevel l 2).results.map fun f => (f.restingOrder, f.quantity)
    fills .proRata = [(1, 1), (2, 1)] ∧ fills (.splitFifoProRata 0 (by decide)) = [(1, 2)] ∧
      fills (.thresholdProRata 0) = [(1, 2)] := by
  decide

end ExchangeSim
