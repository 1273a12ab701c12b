import ExchangeSim.Policies

/-!
What the proportional policy and the policies with priorities promise to single orders.
-/

namespace ExchangeSim

open List Grants

variable {l : PriceLevel} {q : Int}

theorem Allocator.results_nodup (A : Allocator) (hd : l.Distinct) :
    ((A.policy.matchLevel l q).results.map (·.restingOrder)).Nodup := by
  change ((grantLevel A.alloc l q).results.map (·.restingOrder)).Nodup
  unfold grantLevel
  split
  · simp
  · rw [applyGrants_named]
    exact (A.on l q hd).nodup

theorem proRataMatch_shares (hd : l.Distinct) (he : l.Exact) (hne : l.orders ≠ []) (hq : 0 ≤ q) :
    let t := min q l.totalQuantity
    let share := fun o : Order => o.remainingQuantity * t / l.totalQuantity
    let extra := t - (l.orders.map share).sum
    (0 ≤ extra ∧ extra < l.orders.length) ∧ ∀ (i : Nat) (hi : i < l.orders.length),
      let fill := filledBy l.orders[i].id (proRataMatch.matchLevel l q).results
      fill = share l.orders[i] + (if (i : Int) < extra then 1 else 0) ∧
        fill ≤ l.orders[i].remainingQuantity := by
  intro t share extra
  have hT : 0 < sumQty l.orders := by
    obtain ⟨o, ho⟩ := exists_mem_of_ne_nil _ hne
    exact (he.positive o ho).trans_le (remaining_le_sumQty he.nonneg ho)
  have ht : 0 ≤ t := le_min hq (he.total ▸ hT.le)
  have htT : t ≤ sumQty l.orders := he.total ▸ min_le_right _ _
  have hshare : ∀ o ∈ l.orders, share o = o.share t l.totalQuantity := fun o ho =>
    (share_eq (he.nonneg o ho) ht).symm
  have hsum : (l.orders.map share).sum = (l.orders.map fun o => o.share t (sumQty l.orders)).sum := by
    rw [map_congr_left hshare, he.total]
  have hlow : 0 ≤ extra := by
    have := sum_share_le he.nonneg ht
    simp only [extra, hsum]
    omega
  have hhigh : extra < l.orders.length := by
    simp only [extra, hsum]
    exact lt_sum_share he.positive ht hT
  refine ⟨⟨hlow, hhigh⟩, fun i hi => ?_⟩
  intro fill
  let o := l.orders[i]
  have ho : o ∈ l.orders := l.orders.getElem_mem hi
  rcases eq_or_lt_of_le hq with rfl | hpos
  · -- without quantity there is nothing to share
    have hzero : t = 0 := min_eq_left (he.total ▸ hT.le)
    have hnone : ∀ o, share o = 0 := fun o => by simp [share, hzero]
    have hextra : extra = 0 := by
      have hsums : (l.orders.map share).sum = 0 := by simp [map_congr_left fun o _ => hnone o]
      simp only [extra, hzero, hsums, sub_zero]
    have hfill : fill = 0 := by
      simp only [fill, proRataMatch, proRata.results_of_nonpos le_rfl]
      rfl
    rw [hnone, hextra, if_neg (by omega)]
    exact ⟨hfill, hfill.le.trans (he.nonneg o ho)⟩
  · let base := baseGrants proRataKeep (Order.share t l.totalQuantity) l.orders
    have hfill : fill = (lotsInOrder l.orders (t - base.total) base).of o.id :=
      proRata.filledBy_policy hd hpos hne o.id
    have hbase : base.of o.id = share o := by
      have hnonneg := share_nonneg (he.nonneg o ho) ht (he.total ▸ hT.le)
      rw [baseGrants_of hd ho, hshare o ho]
      split
      next => rfl
      next hkeep =>
        have : ¬o.share t l.totalQuantity > 0 := by simpa [proRataKeep] using hkeep
        omega
    have htotal : t - base.total = extra := by
      simp only [extra, base, hsum, he.total]
      rw [proRata_base_total hd he.positive ht]
    have hone : (lotsInOrder l.orders (t - base.total) base).of o.id =
        base.of o.id + if (i : Int) < t - base.total then 1 else 0 :=
      walk_ones_at (fun _ _ _ => rfl) hd i hi
    have hcapped : (proRataAlloc Order.share l q).1.of o.id ≤ o.remainingQuantity :=
      (proRata.within l q hd he hpos).capped o ho
    refine ⟨?_, hfill.trans_le hcapped⟩
    rw [hfill, hone, hbase, htotal]

/-- A product beyond the word costs an order at least two units of its share. -/
theorem wordShare_lt {o : Order} {t T : Int} (hT : 0 < T) (hbound : T ≤ 2 ^ 62)
    (hp : 2 ^ 63 ≤ o.remainingQuantity * t) : max (o.wordShare t T) 0 + 1 < o.share t T := by
  generalize hproduct : o.remainingQuantity * t = p at hp
  have hword : word p ≤ p - 2 ^ 64 := by
    unfold word
    rw [Int.bmod_def]
    omega
  have hshare : o.share t T = p / T := by
    rw [Order.share, hproduct]
    exact Int.tdiv_eq_ediv_of_nonneg (by omega)
  have htwo : 2 ≤ p / T := Int.le_ediv_of_mul_le hT (by omega)
  rw [Order.wordShare, hproduct, hshare]
  rcases le_or_gt (word p) 0 with hneg | hpos
  · have := Int.tdiv_nonneg (Int.neg_nonneg_of_nonpos hneg) hT.le
    rw [Int.neg_tdiv] at this
    omega
  · have hle : word p / T ≤ (p + -4 * T) / T := Int.ediv_le_ediv hT (by omega)
    rw [Int.add_mul_ediv_right _ _ hT.ne'] at hle
    rw [Int.tdiv_eq_ediv_of_nonneg hpos.le]
    omega

theorem fits_of_shares {t : Int} (hd : l.Distinct) (he : l.Exact) (hq : 0 < q)
    (hbound : l.totalQuantity ≤ 2 ^ 62) (ht : t = min q l.totalQuantity)
    (hfills : ∀ o ∈ l.orders, o.remainingQuantity * t / l.totalQuantity ≤
      filledBy o.id (Policy.proRata.matchLevel l q).results) : Policy.proRata.Fits l q := by
  intro v hv
  have hrun : ¬(q ≤ 0 ∨ l.orders = []) := by
    intro hrun
    simp [Policy.products, Policy.percentProducts, hrun] at hv
  simp only [Policy.products, Policy.percentProducts, if_neg hrun, append_nil] at hv
  obtain ⟨o, ho, rfl⟩ := mem_map.mp hv
  have hpos := he.positive o ho
  have hT : 0 < l.totalQuantity := by
    rw [he.total]
    exact hpos.trans_le (remaining_le_sumQty he.nonneg ho)
  have hnonneg : 0 ≤ o.remainingQuantity * t := mul_nonneg hpos.le (by omega)
  rw [← ht]
  refine ⟨by change _ ≤ o.remainingQuantity * t; omega, ?_⟩
  by_contra hover
  have hp : 2 ^ 63 ≤ o.remainingQuantity * t := by
    change ¬o.remainingQuantity * t ≤ _ at hover
    omega
  let base := baseGrants proRataKeep (Order.wordShare t l.totalQuantity) l.orders
  have hfill : filledBy o.id (Policy.proRata.matchLevel l q).results =
      (lotsInOrder l.orders (t - base.total) base).of o.id := by
    have hlevel : Policy.proRata.matchLevel l q = _ := if_neg hrun
    rw [hlevel]
    refine (filledBy_applyGrants o.id ?_).trans (by rw [proRataAlloc, ← ht])
    exact (walk_on (baseGrants_on hd) (Subset.refl _)).nodup
  have hone : (lotsInOrder l.orders (t - base.total) base).of o.id ≤ base.of o.id + 1 :=
    walk_ones_of (fun _ _ _ => rfl) hd o.id
  have hbase : base.of o.id ≤ max (o.wordShare t l.totalQuantity) 0 := by
    simp only [base]
    rw [baseGrants_of hd ho]
    split
    · exact le_max_left _ _
    · exact le_max_right _ _
  have hlt := wordShare_lt hT hbound hp
  rw [share_eq hpos.le (by omega)] at hlt
  have := hfills o ho
  omega

/-- `ProRataMatch` gives each order its share rounded down, and one more to as many of the oldest
orders as there are units left over, while its products fit; beyond, it does not. -/
theorem proRata_shares (hd : l.Distinct) (he : l.Exact) (hne : l.orders ≠ []) (hq : 0 ≤ q) :
    let t := min q l.totalQuantity
    let share := fun o : Order => o.remainingQuantity * t / l.totalQuantity
    let extra := t - (l.orders.map share).sum
    let Shares := (0 ≤ extra ∧ extra < l.orders.length) ∧ ∀ (i : Nat) (hi : i < l.orders.length),
      let fill := filledBy l.orders[i].id (Policy.proRata.matchLevel l q).results
      fill = share l.orders[i] + (if (i : Int) < extra then 1 else 0) ∧
        fill ≤ l.orders[i].remainingQuantity
    (Policy.proRata.Fits l q → Shares) ∧
      (l.totalQuantity ≤ 2 ^ 62 → Shares → Policy.proRata.Fits l q) := by
  intro t share extra Shares
  refine ⟨fun hfits => ?_, fun hbound hshares => ?_⟩
  · simp only [Shares, Policy.matchLevel_eq hfits]
    exact proRataMatch_shares hd he hne hq
  · rcases eq_or_lt_of_le hq with rfl | hpos
    · simp [Policy.Fits, Policy.products, Policy.percentProducts]
    · refine fits_of_shares hd he hpos hbound rfl fun o ho => ?_
      obtain ⟨i, hi, rfl⟩ := getElem_of_mem ho
      rw [(hshares.2 i hi).1]
      exact le_add_of_nonneg_right (by split <;> decide)

theorem proRata_shares_sample :
    let l := offerLevel [restingOffer 1 5, restingOffer 2 3, restingOffer 3 2]
    filledBy 1 (Policy.proRata.matchLevel l 4).results = 3 ∧
      filledBy 2 (Policy.proRata.matchLevel l 4).results = 1 := by
  intro l
  obtain ⟨-, h⟩ := (proRata_shares (l := l) (q := 4) (by decide) ⟨rfl, by decide⟩ (by decide)
    (by decide)).1 (by decide)
  exact ⟨(h 0 (by decide)).1.trans (by decide), (h 1 (by decide)).1.trans (by decide)⟩

/-- Of four thousand million and 3 resting, an aggressor of four thousand million gives the first
order 1 instead of 3999999997. -/
theorem proRata_share_wraps :
    let l := offerLevel [restingOffer 1 4000000000, restingOffer 2 3]
    l.Distinct ∧ l.Exact ∧ 4000000000 * 4000000000 / l.totalQuantity = 3999999997 ∧
      filledBy 1 (Policy.proRata.matchLevel l 4000000000).results = 1 := by
  intro l
  exact ⟨by decide, ⟨rfl, by decide⟩, by decide, by decide⟩

section lmm

def mmQty (os : List Order) : Int :=
  ((os.filter (·.isMarketMaker)).map (·.remainingQuantity)).sum

def mmFilled (os : List Order) (rs : List FillResult) : Int :=
  ((os.filter (·.isMarketMaker)).map fun o => filledBy o.id rs).sum

def mmGranted (os : List Order) (g : Grants) : Int :=
  ((os.filter (·.isMarketMaker)).map fun o => g.of o.id).sum

variable {g : Grants}

theorem mmResting_eq (os : List Order) (g : Grants) :
    mmResting g os = mmQty os - mmGranted os g := by
  unfold mmResting mmQty mmGranted liveQty
  induction os.filter (·.isMarketMaker) with
  | nil => rfl
  | cons o os ih =>
    simp only [map_cons, sum_cons, ih]
    omega

theorem mmGranted_nonneg {os : List Order} (h : GrantsWithin os g) : 0 ≤ mmGranted os g := by
  refine sum_nonneg fun x hx => ?_
  obtain ⟨o, -, rfl⟩ := mem_map.mp hx
  exact of_nonneg h.positive o.id

theorem mmGranted_mono {os : List Order} {g' : Grants} (h : ∀ k, g.of k ≤ g'.of k) :
    mmGranted os g ≤ mmGranted os g' :=
  sum_le_sum fun o _ => h o.id

theorem fifoRest_mono (hd : l.Distinct) (h : GrantsWithin l.orders g) (q : Int) (k : Nat) :
    g.of k ≤ (fifoRest l.orders q g).1.of k :=
  walk_mono (liveGive_modest _ _) hd h k

theorem Allocator.mmFilled_policy (A : Allocator) (hd : l.Distinct) (hq : 0 < q)
    (hne : l.orders ≠ []) :
    mmFilled l.orders (A.policy.matchLevel l q).results = mmGranted l.orders (A.alloc l q).1 :=
  congrArg sum (map_congr_left fun o _ => A.filledBy_policy hd hq hne o.id)

theorem percentOf_eq (hq : 0 ≤ q) (pct : Nat) : percentOf q pct = q * pct / 100 :=
  Int.tdiv_eq_ediv_of_nonneg (mul_nonneg hq (Int.natCast_nonneg pct))

theorem fifoLmmPriority_granted {mmPriorityPct : Nat} (hpct : mmPriorityPct ≤ 100)
    (hd : l.Distinct) (he : l.Exact) (hq : 0 < q) :
    min (percentOf q mmPriorityPct) (mmQty l.orders) ≤
      mmGranted l.orders (fifoLmmPriority mmPriorityPct l q) := by
  have hnil : GrantsWithin l.orders [] := Within.nil he.nonneg
  have hlow := (percentOf_bounds hq.le hpct).1
  have hresting := mmResting_nonneg hnil
  have hgranted := walk_selected (lmmGive_greedyFor he.positive) hd hnil
    (le_min hlow hresting)
  have hzero : mmGranted l.orders [] = 0 := by simp [mmGranted, of]
  rw [mmResting_eq, hzero, sub_zero] at hgranted
  change min (mmGranted l.orders [] + min (percentOf q mmPriorityPct) (mmQty l.orders))
    (mmQty l.orders) ≤ mmGranted l.orders _ at hgranted
  unfold fifoLmmPriority
  dsimp only
  rw [mmResting_eq, hzero, sub_zero]
  omega

theorem topLmmPriority_granted (mmPriorityPct : Nat) (hd : l.Distinct)
    (h : GrantsWithin l.orders g) :
    min (min (percentOf q mmPriorityPct) (mmQty l.orders)) (q - g.total) ≤
      mmGranted l.orders (topLmmPriority mmPriorityPct l q g) := by
  have hgranted := mmGranted_nonneg h
  have hresting := mmResting_nonneg h
  unfold topLmmPriority
  dsimp only
  split
  next hpos =>
    have hsel := walk_selected (liveGive_greedyFor (·.isMarketMaker) l.orders) hd h
      (r := min (min (percentOf q mmPriorityPct) (mmResting g l.orders)) (q - g.total)) (by omega)
    change min (mmGranted l.orders g + _) (mmQty l.orders) ≤ mmGranted l.orders _ at hsel
    have := mmResting_eq l.orders g
    omega
  next hno => omega

theorem percent_nonpos (hq : q ≤ 0) (pct : Nat) : q * pct / 100 ≤ 0 := by
  have : q * pct ≤ 0 := mul_nonpos_of_nonpos_of_nonneg hq (Int.natCast_nonneg pct)
  omega

theorem mmFilled_nil (os : List Order) : mmFilled os [] = 0 := by
  simp [mmFilled, filledBy]

theorem exact_withTotal (hpos : ∀ o ∈ l.orders, 0 < o.remainingQuantity) :
    PriceLevel.Exact { l with totalQuantity := sumQty l.orders } :=
  ⟨rfl, hpos⟩

theorem fifoLmm_priority {P : Nat} (hP : P ≤ 100) (hd : l.Distinct)
    (hpos : ∀ o ∈ l.orders, 0 < o.remainingQuantity) (q : Int) :
    min (q * P / 100) (mmQty l.orders) ≤
      mmFilled l.orders ((fifoLmmMatch P hP).matchLevel l q).results := by
  by_cases hq : 0 < q
  · by_cases hne : l.orders = []
    · simp [hne, mmQty, mmFilled]
    · let l' : PriceLevel := { l with totalQuantity := sumQty l.orders }
      have he : l'.Exact := exact_withTotal hpos
      have hw : GrantsWithin l'.orders (fifoLmmPriority P l' q) :=
        (fifoLmmPriority_within hP (l := l') hd he hq).1
      have hgranted := fifoLmmPriority_granted hP (l := l') hd he hq
      rw [percentOf_eq hq.le] at hgranted
      rw [fifoLmmMatch, (fifoLmm P hP).mmFilled_policy hd hq hne]
      exact hgranted.trans (mmGranted_mono fun k => fifoRest_mono hd hw q k)
  · rw [fifoLmmMatch, (fifoLmm P hP).results_of_nonpos (by omega), mmFilled_nil]
    exact (min_le_left _ _).trans (percent_nonpos (by omega) P)

theorem topPriority_of {T : Nat} (hq : 0 < q) {o : Order}
    (ho : l.orders.find? (·.isTopOrder) = some o) :
    min (q * T / 100) o.remainingQuantity ≤ (topPriority T l q).of o.id := by
  unfold topPriority
  dsimp only
  rw [percentOf_eq hq.le, ho]
  split
  next => simp [of]
  next hno => exact (min_le_left _ _).trans (not_lt.mp hno)

theorem fifoTopLmm_priority {T : Nat} (P : Nat) (hT : T ≤ 100) (hd : l.Distinct)
    (hpos : ∀ o ∈ l.orders, 0 < o.remainingQuantity) (q : Int) :
    let rs := ((fifoTopLmmMatch T P hT).matchLevel l q).results
    (∀ o ∈ l.orders.find? (·.isTopOrder),
      min (q * T / 100) o.remainingQuantity ≤ filledBy o.id rs) ∧
    min (min (q * P / 100) (mmQty l.orders)) (q - (topPriority T l q).total) ≤
      mmFilled l.orders rs := by
  intro rs
  by_cases hq : 0 < q
  · by_cases hne : l.orders = []
    · simp [hne, mmQty, mmFilled]
    · let l' : PriceLevel := { l with totalQuantity := sumQty l.orders }
      have he : l'.Exact := exact_withTotal hpos
      let top := topPriority T l' q
      let mm := topLmmPriority P l' q top
      obtain ⟨hw, hle⟩ : GrantsWithin l'.orders top ∧ top.total ≤ q :=
        topPriority_within hT hd he hq
      have hw' : GrantsWithin l'.orders mm := (topLmmPriority_within hd hw hle).1
      have hmm : ∀ k, top.of k ≤ mm.of k := by
        intro k
        simp only [mm, topLmmPriority]
        split
        · exact walk_mono (liveGive_modest _ _) hd hw k
        · exact le_rfl
      have hrest : ∀ k, mm.of k ≤ (fifoRest l'.orders q mm).1.of k := fifoRest_mono hd hw' q
      constructor
      · intro o ho
        have hfill : filledBy o.id rs = (fifoRest l'.orders q mm).1.of o.id :=
          (fifoTopLmm T P hT).filledBy_policy hd hq hne o.id
        have htop : _ ≤ top.of o.id := topPriority_of hq ho
        rw [hfill]
        exact htop.trans ((hmm o.id).trans (hrest o.id))
      · have hgranted := topLmmPriority_granted (q := q) P hd hw
        have hfill : mmFilled l.orders rs = mmGranted l'.orders (fifoRest l'.orders q mm).1 :=
          (fifoTopLmm T P hT).mmFilled_policy hd hq hne
        rw [percentOf_eq hq.le] at hgranted
        rw [hfill]
        exact hgranted.trans (mmGranted_mono hrest)
  · have hnone : rs = [] := (fifoTopLmm T P hT).results_of_nonpos (by omega)
    rw [hnone, mmFilled_nil]
    exact ⟨fun o _ => (min_le_left _ _).trans (percent_nonpos (by omega) T),
      (min_le_left _ _).trans ((min_le_left _ _).trans (percent_nonpos (by omega) P))⟩

def makerLevel : PriceLevel :=
  offerLevel [restingOffer 1 5, { restingOffer 2 5 with isMarketMaker := true }]

end lmm

end ExchangeSim
