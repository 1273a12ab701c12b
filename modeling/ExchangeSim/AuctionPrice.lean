import ExchangeSim.BookShape
import ExchangeSim.UniformPrice
import Mathlib.Data.List.Destutter

/-!
The price of an auction is the best of all prices.
-/

namespace ExchangeSim

open List

open UniformPrice

def Order.offer (o : Order) : Int × Int :=
  (o.price, o.remainingQuantity)

def offersOn (book : Side → List PriceLevel) (s : Side) : List (Int × Int) :=
  (ordersIn (book s)).map Order.offer

def bidsAt (book : Side → List PriceLevel) (p : Int) : Int :=
  demand (offersOn book .buy) p

def asksAt (book : Side → List PriceLevel) (p : Int) : Int :=
  supply (offersOn book .sell) p

def executable (book : Side → List PriceLevel) (p : Int) : Int :=
  min (bidsAt book p) (asksAt book p)

def imbalanceAt (book : Side → List PriceLevel) (p : Int) : Int :=
  |bidsAt book p - asksAt book p|

/-- The best price of an auction: the largest volume, then the least imbalance, then the least
distance to the reference, then the highest. -/
structure BestPrice (book : Side → List PriceLevel) (referencePrice p : Int) : Prop where
  maximal : ∀ q, executable book q ≤ executable book p
  listed : ∃ s, ∃ l ∈ book s, l.price = p
  preferred : ∀ s, ∀ l ∈ book s, executable book l.price = executable book p → l.price ≠ p →
    imbalanceAt book p < imbalanceAt book l.price ∨
      imbalanceAt book p = imbalanceAt book l.price ∧
        (|p - referencePrice| < |l.price - referencePrice| ∨
          |p - referencePrice| = |l.price - referencePrice| ∧ l.price < p)

def auctionRank (book : Side → List PriceLevel) (referencePrice p : Int) :
    Int ×ₗ (Int ×ₗ (Int ×ₗ Int)) :=
  rank (offersOn book .buy) (offersOn book .sell) (fun p => |p - referencePrice|) p

variable {book : Side → List PriceLevel} {referencePrice p : Int} {s : Side}
  {lvls : List PriceLevel}

theorem PriceLevel.Resting.quantityOf {l : PriceLevel} (h : l.Resting s) (f : Int → Bool)
    (g : Order → Int) :
    quantityOf f (l.orders.map fun o => (o.price, g o)) =
      if f l.price then (l.orders.map g).sum else 0 := by
  have hprice : ∀ o ∈ l.orders, o.price = l.price := fun o ho => (h.orders o ho).1
  clear h
  generalize l.price = price at hprice
  generalize l.orders = os at hprice ⊢
  induction os with
  | nil => simp
  | cons o os ih =>
    rw [map_cons, quantityOf_cons, ih fun x hx => hprice x (by simp [hx])]
    simp only [hprice o (by simp), map_cons, sum_cons]
    split <;> simp

theorem quantityOf_levels (h : ∀ l ∈ lvls, l.Resting s) (f : Int → Bool) (g : Order → Int) :
    quantityOf f (lvls.map fun l => (l.price, (l.orders.map g).sum)) =
      quantityOf f ((ordersIn lvls).map fun o => (o.price, g o)) := by
  induction lvls with
  | nil => rfl
  | cons l lvls ih =>
    rw [ordersIn_cons, map_append, quantityOf_append, (h l (by simp)).quantityOf,
      map_cons, quantityOf_cons, ih fun m hm => h m (by simp [hm])]

theorem sum_totalQuantity (h : ∀ l ∈ lvls, l.Resting s) (f : Int → Bool) :
    ((lvls.filter fun l => f l.price).map (·.totalQuantity)).sum =
      quantityOf f ((ordersIn lvls).map Order.offer) := by
  refine Eq.trans ?_ (quantityOf_levels h f (·.remainingQuantity))
  rw [UniformPrice.quantityOf, filter_map, map_map]
  refine congrArg sum (map_congr_left fun l hl => ?_)
  exact (h l (mem_of_mem_filter hl)).total

theorem mem_destutter_ne {α : Type} [DecidableEq α] {a : α} {xs : List α} :
    a ∈ xs.destutter (· ≠ ·) ↔ a ∈ xs := by
  have hkept : ∀ (xs : List α) (b : α), a ∈ b :: xs → a ∈ xs.destutter' (· ≠ ·) b := by
    intro xs
    induction xs with
    | nil => simp
    | cons c xs ih =>
      intro b ha
      rw [destutter'_cons]
      split
      next hne =>
        rcases List.mem_cons.mp ha with rfl | ha
        · simp
        · exact mem_cons_of_mem b (ih c ha)
      next heq =>
        obtain rfl : b = c := not_not.mp heq
        exact ih b (by simpa using ha)
  refine ⟨fun h => (destutter_sublist _ xs).subset h, fun h => ?_⟩
  cases xs with
  | nil => simp at h
  | cons b xs => exact hkept xs b h

theorem mem_candidatePrices : p ∈ candidatePrices book ↔ ∃ s, ∃ l ∈ book s, l.price = p := by
  rw [candidatePrices, mem_destutter_ne, mem_insertionSort]
  simp only [map_append, List.mem_append, mem_map]
  constructor
  · rintro (h | h)
    · exact ⟨.buy, h⟩
    · exact ⟨.sell, h⟩
  · rintro ⟨s, h⟩
    cases s with
    | buy => exact .inl h
    | sell => exact .inr h

def tradable (book : Side → List PriceLevel) : List Int :=
  (candidatePrices book).filter fun p => decide (executable book p ≠ 0)

/-- The search when `o` is the best price so far. -/
def found (book : Side → List PriceLevel) (referencePrice : Int) : Option Int → AuctionSearch
  | none => {}
  | some p =>
    { best := ⟨p, executable book p, bidsAt book p - executable book p,
        asksAt book p - executable book p, true⟩
      bestImbalance := imbalanceAt book p
      bestRefDist := |p - referencePrice| }

section Formed

variable (hbook : ∀ s, ∀ l ∈ book s, l.Resting s)

include hbook

theorem buyVolumeAt_eq (p : Int) : buyVolumeAt book p = bidsAt book p :=
  sum_totalQuantity (hbook .buy) fun a => decide (p ≤ a)

theorem sellVolumeAt_eq (p : Int) : sellVolumeAt book p = asksAt book p :=
  sum_totalQuantity (hbook .sell) fun a => decide (a ≤ p)

theorem offersOn_nonneg (s : Side) : ∀ x ∈ offersOn book s, 0 ≤ x.2 := by
  intro x hx
  obtain ⟨o, ho, rfl⟩ := mem_map.mp hx
  obtain ⟨l, hl, hol⟩ := mem_ordersIn.mp ho
  exact ((hbook s l hl).orders o hol).2.2.le

theorem offer_listed {x : Int × Int} (hx : x ∈ offersOn book s) : x.1 ∈ candidatePrices book := by
  obtain ⟨o, ho, rfl⟩ := mem_map.mp hx
  obtain ⟨l, hl, hol⟩ := mem_ordersIn.mp ho
  exact mem_candidatePrices.mpr ⟨s, l, hl, ((hbook s l hl).orders o hol).1.symm⟩

theorem considerPrice_found (o : Option Int) (p : Int) :
    considerPrice book referencePrice (found book referencePrice o) p =
      found book referencePrice (if decide (executable book p ≠ 0) = true then
        argAux (fun b c => auctionRank book referencePrice c < auctionRank book referencePrice b)
          o p else o) := by
  have hmatched : min (bidsAt book p) (asksAt book p) = executable book p := rfl
  have himbalance : |bidsAt book p - asksAt book p| = imbalanceAt book p := rfl
  simp only [considerPrice, buyVolumeAt_eq hbook, sellVolumeAt_eq hbook, Int.natCast_natAbs,
    hmatched, himbalance]
  by_cases hzero : executable book p = 0
  · simp [hzero]
  · simp only [hzero, if_false, ne_eq, not_false_eq_true, decide_true, if_true]
    cases o with
    | none => simp [AuctionSearch.improvedBy, found, argAux]
    | some c =>
      have hiff : (found book referencePrice (some c)).improvedBy (executable book p)
            (imbalanceAt book p) |p - referencePrice| p = true ↔
          auctionRank book referencePrice c < auctionRank book referencePrice p := by
        rw [auctionRank, auctionRank, rank_lt_iff]
        simp only [AuctionSearch.improvedBy, Bool.or_eq_true, Bool.and_eq_true, decide_eq_true_eq,
          gt_iff_lt]
        simp only [found, Bool.not_true, Bool.false_eq_true, false_or]
        rw [eq_comm (a := executable book p)]
        rfl
      by_cases hlt : auctionRank book referencePrice c < auctionRank book referencePrice p
      · rw [if_pos (hiff.mpr hlt)]
        simp only [argAux, hlt, if_true, found]
      · rw [if_neg (mt hiff.mp hlt)]
        simp only [argAux, hlt, if_false]

theorem calculateAuctionPrice_eq (referencePrice : Int) :
    calculateAuctionPrice book referencePrice = (found book referencePrice
      ((tradable book).argmax (auctionRank book referencePrice))).best := by
  have hfold : ∀ (ps : List Int) (o : Option Int),
      ps.foldl (considerPrice book referencePrice) (found book referencePrice o) =
        found book referencePrice ((ps.filter fun p => decide (executable book p ≠ 0)).foldl
          (argAux fun b c =>
            auctionRank book referencePrice c < auctionRank book referencePrice b) o) := by
    intro ps
    induction ps with
    | nil => simp
    | cons p ps ih =>
      intro o
      rw [foldl_cons, considerPrice_found hbook, ih, filter_cons]
      split <;> rfl
  exact congrArg AuctionSearch.best (hfold (candidatePrices book) none)

theorem executable_nonneg (p : Int) : 0 ≤ executable book p :=
  volume_nonneg (offersOn_nonneg hbook .buy) (offersOn_nonneg hbook .sell) p

theorem mem_tradable : p ∈ tradable book ↔ p ∈ candidatePrices book ∧ 0 < executable book p := by
  have hnn := executable_nonneg hbook p
  simp only [tradable, mem_filter, decide_eq_true_eq]
  exact and_congr_right fun _ => ⟨fun h => lt_of_le_of_ne hnn h.symm, ne_of_gt⟩

theorem exists_candidate (h : 0 < executable book p) :
    ∃ c ∈ candidatePrices book, executable book p ≤ executable book c := by
  obtain ⟨x, hx, hle⟩ := exists_volume_le (offersOn_nonneg hbook .sell) h
  exact ⟨x.1, offer_listed hbook hx, hle⟩

theorem bestPrice_of_mem_argmax
    (h : p ∈ (tradable book).argmax (auctionRank book referencePrice)) :
    BestPrice book referencePrice p := by
  obtain ⟨hmem, hpos⟩ := (mem_tradable hbook).mp (argmax_mem h)
  refine ⟨fun q => ?_, mem_candidatePrices.mp hmem, fun s l hl heq hother => ?_⟩
  · by_cases hq : 0 < executable book q
    · obtain ⟨c, hc, hle⟩ := exists_candidate hbook hq
      exact hle.trans (volume_le_of_rank_le
        (le_of_mem_argmax ((mem_tradable hbook).mpr ⟨hc, hq.trans_le hle⟩) h))
    · omega
  · have hl' : l.price ∈ tradable book :=
      (mem_tradable hbook).mpr ⟨mem_candidatePrices.mpr ⟨s, l, hl, rfl⟩, heq ▸ hpos⟩
    have hlt := lt_of_le_of_ne (le_of_mem_argmax hl' h) fun he =>
      hother (rank_injective _ _ _ he)
    rcases rank_lt_iff.mp hlt with hlt | ⟨_, hties⟩
    · exact absurd heq (ne_of_lt hlt)
    · exact hties

theorem calculateAuctionPrice_cases (referencePrice : Int) :
    (calculateAuctionPrice book referencePrice = {} ∧ ∀ p, executable book p = 0) ∨
    ∃ p, calculateAuctionPrice book referencePrice =
        ⟨p, executable book p, bidsAt book p - executable book p,
          asksAt book p - executable book p, true⟩ ∧
      0 < executable book p ∧ BestPrice book referencePrice p := by
  rw [calculateAuctionPrice_eq hbook]
  cases hbest : (tradable book).argmax (auctionRank book referencePrice) with
  | none =>
    refine .inl ⟨rfl, fun p => ?_⟩
    by_contra hne
    have hpos := lt_of_le_of_ne (executable_nonneg hbook p) (Ne.symm hne)
    obtain ⟨c, hc, hle⟩ := exists_candidate hbook hpos
    have hmem : c ∈ tradable book := (mem_tradable hbook).mpr ⟨hc, hpos.trans_le hle⟩
    rw [argmax_eq_none.mp hbest] at hmem
    simp at hmem
  | some p =>
    have hpos : 0 < executable book p := ((mem_tradable hbook).mp (argmax_mem hbest)).2
    exact .inr ⟨p, rfl, hpos, bestPrice_of_mem_argmax hbook hbest⟩

end Formed

/-- The auction price is the best price there is, and what is reported with it is exact. -/
theorem calculateAuctionPrice_best (hbook : ∀ s, ∀ l ∈ book s, l.Resting s)
    (referencePrice : Int) :
    let r := calculateAuctionPrice book referencePrice
    (r.hasPrice = true ↔ ∃ p, 0 < executable book p) ∧
      (r.hasPrice = true → BestPrice book referencePrice r.price ∧
        r.matchedVolume = executable book r.price ∧
        r.buySurplus = bidsAt book r.price - executable book r.price ∧
        r.sellSurplus = asksAt book r.price - executable book r.price) := by
  intro r
  rcases calculateAuctionPrice_cases hbook referencePrice with ⟨hr, hzero⟩ | ⟨p, hr, hpos, hbest⟩
  · have hnone : r.hasPrice = false := by rw [show r = {} from hr]
    refine ⟨⟨fun h => by simp [hnone] at h, ?_⟩, fun h => by simp [hnone] at h⟩
    rintro ⟨p, hp⟩
    exact absurd (hzero p) hp.ne'
  · have hr' : r = _ := hr
    rw [hr']
    exact ⟨⟨fun _ => ⟨p, hpos⟩, fun _ => rfl⟩, fun _ => ⟨hbest, rfl, rfl, rfl⟩⟩

def collectedActions : List Action :=
  [.setSessionState .preOpen 1, .newOrder (limitRequest .buy 102 5),
    .newOrder (limitRequest .buy 100 4), .newOrder (limitRequest .sell 99 6),
    .newOrder (limitRequest .sell 101 2)]

theorem calculateAuctionPrice_best_sample :
    let e := runAll sampleExchange collectedActions (sampleStart sampleExchange sampleConfig ())
    calculateAuctionPrice e.book 100 = ⟨100, 6, 3, 0, true⟩ ∧ BestPrice e.book 100 100 := by
  intro e
  have hs : World.Sound sampleExchange True ⟨e, none⟩ :=
    sampleRun_sound (by simp [collectedActions, Engine.Admits]) (by decide +kernel)
  have hr : calculateAuctionPrice e.book 100 = ⟨100, 6, 3, 0, true⟩ := by decide +kernel
  have hbest := (calculateAuctionPrice_best (wellShaped_of_sound hs.holds).levels 100).2
  rw [hr] at hbest
  exact ⟨hr, (hbest rfl).1⟩

end ExchangeSim
