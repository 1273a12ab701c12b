import ExchangeSim.GtbprMatch
import ExchangeSim.MatchRuns
import ExchangeSim.Sample
import ExchangeSim.SplitMatch

namespace ExchangeSim

/-- The match policies, with their template arguments. `MatchingEngine` calls `GtbprMatch` with
the default configuration and the time 0, as `gtbprMatch` does. -/
inductive Policy
  | fifo
  | proRata
  | thresholdProRata (minThreshold : Int)
  | allocation
  | splitFifoProRata (fifoPct : Nat) (hpct : fifoPct ≤ 100)
  | fifoLmm (mmPriorityPct : Nat) (hpct : mmPriorityPct ≤ 100)
  | fifoTopLmm (topPct mmPriorityPct : Nat) (htop : topPct ≤ 100) (hpct : mmPriorityPct ≤ 100)
  | gtbpr (cfg : GtbprConfig) (hcap : 0 ≤ cfg.cap) (hfactor : 0 ≤ cfg.timeWeightFactor) (now : Int)

def Policy.algo : Policy → MatchPolicy
  | .fifo => fifoMatch
  | .proRata => proRataMatch
  | .thresholdProRata minThreshold => thresholdProRataMatch minThreshold
  | .allocation => allocationMatch
  | .splitFifoProRata fifoPct hpct => splitFifoProRataMatch fifoPct hpct
  | .fifoLmm mmPriorityPct hpct => fifoLmmMatch mmPriorityPct hpct
  | .fifoTopLmm topPct mmPriorityPct htop _ => fifoTopLmmMatch topPct mmPriorityPct htop
  | .gtbpr cfg hcap hfactor now => (ExchangeSim.gtbpr cfg hcap hfactor now).policy

/-- The results a policy can write beyond one for each order. -/
def Policy.spare : Policy → Nat
  | .splitFifoProRata .. => 1
  | _ => 0

theorem Policy.algo_writes (p : Policy) : p.algo.Writes p.spare := by
  cases p with
  | fifo => exact fifoMatch_writes
  | splitFifoProRata fifoPct hpct => exact splitFifoProRataMatch_writes fifoPct hpct
  | _ => exact Allocator.policy_writes _

/-! The products of a policy, and the policy as it computes them. -/

def FitsInt64 (v : Int) : Prop :=
  -2 ^ 63 ≤ v ∧ v ≤ 2 ^ 63 - 1

instance decidableFitsInt64 (v : Int) : Decidable (FitsInt64 v) :=
  inferInstanceAs (Decidable (_ ∧ _))

def Order.shareProduct (toFill : Int) (o : Order) : Int :=
  o.remainingQuantity * toFill

/-- The products of the proportional part of `SplitFifoProRataMatch`, over the orders as the first
part left them. -/
def splitProducts (proRataQty : Int) (os : List Order) : List Int :=
  let levelRemaining := sumQty os
  if proRataQty > 0 ∧ levelRemaining > 0 then
    (os.filter fun o => decide (o.remainingQuantity > 0)).map
      (·.shareProduct (min proRataQty levelRemaining))
  else []

/-- The products `remaining_quantity * to_fill` a policy forms in one call. -/
def Policy.products (p : Policy) (l : PriceLevel) (q : Int) : List Int :=
  let toFill := min q l.totalQuantity
  if q ≤ 0 ∨ l.orders = [] then []
  else match p with
    | .proRata => l.orders.map (·.shareProduct toFill)
    | .thresholdProRata _ => l.orders.map (·.shareProduct toFill)
    | .allocation => l.orders.map (·.shareProduct toFill)
    | .splitFifoProRata fifoPct _ =>
      let fifoQty := percentOf toFill fifoPct
      splitProducts (toFill - fifoQty)
        (applyGrants l.price (splitFifo fifoQty l.orders) l.orders).1
    | _ => []

def Policy.percentProducts (p : Policy) (l : PriceLevel) (q : Int) : List Int :=
  match p with
  | .splitFifoProRata fifoPct _ => [min q l.totalQuantity * fifoPct]
  | .fifoLmm mmPriorityPct _ => [q * mmPriorityPct]
  | .fifoTopLmm topPct mmPriorityPct .. => [q * topPct, q * mmPriorityPct]
  | _ => []

def Policy.Fits (p : Policy) (l : PriceLevel) (q : Int) : Prop :=
  ∀ v ∈ p.products l q ++ p.percentProducts l q, FitsInt64 v

instance (p : Policy) (l : PriceLevel) (q : Int) : Decidable (p.Fits l q) :=
  inferInstanceAs (Decidable (∀ v ∈ _, FitsInt64 v))

def wordPercent (q : Int) (pct : Nat) : Int :=
  (word (q * pct)).tdiv 100

/-- The policy as the code computes it, with the products of its shares in signed words. Where they
fit, this is the policy of the engine model. -/
def Policy.matchLevel (p : Policy) (l : PriceLevel) (q : Int) : MatchOutcome :=
  match p with
  | .proRata => grantLevel (proRataAlloc Order.wordShare) l q
  | .thresholdProRata minThreshold => grantLevel (thresholdAlloc Order.wordShare minThreshold) l q
  | .allocation => grantLevel (allocationAlloc Order.wordShare) l q
  | .splitFifoProRata fifoPct _ => splitLevel wordPercent Order.wordShare fifoPct l q
  | p => p.algo.matchLevel l q

theorem word_eq {v : Int} (h : FitsInt64 v) : word v = v := by
  obtain ⟨hlow, hhigh⟩ := h
  refine Int.bmod_eq_of_le_mul_two ?_ ?_ <;> push_cast <;> omega

theorem wordShare_eq {o : Order} {t T : Int} (h : FitsInt64 (o.shareProduct t)) :
    o.wordShare t T = o.share t T := by
  have hword : word (o.remainingQuantity * t) = o.remainingQuantity * t := word_eq h
  rw [Order.wordShare, hword, Order.share]

theorem baseGrants_words {keep : Order → Int → Bool} {t T : Int} {os : List Order}
    (h : ∀ o ∈ os, FitsInt64 (o.shareProduct t)) :
    baseGrants keep (Order.wordShare t T) os = baseGrants keep (Order.share t T) os :=
  baseGrants_congr fun o ho => by simp [wordShare_eq (h o ho)]

theorem grantLevel_congr {alloc alloc' : PriceLevel → Int → Grants × Int} {l : PriceLevel}
    {q : Int} (h : ¬(q ≤ 0 ∨ l.orders = []) → alloc l q = alloc' l q) :
    grantLevel alloc l q = grantLevel alloc' l q := by
  unfold grantLevel
  split
  next => rfl
  next hrun => simp only [h hrun]

theorem splitProRata_words {q : Int} {os : List Order}
    (h : ∀ v ∈ splitProducts q os, FitsInt64 v) :
    splitProRata Order.wordShare q os = splitProRata Order.share q os := by
  unfold splitProRata
  dsimp only
  split
  next hrun =>
    have hbase : baseGrants splitKeep (Order.wordShare (min q (sumQty os)) (sumQty os)) os =
        baseGrants splitKeep (Order.share (min q (sumQty os)) (sumQty os)) os := by
      refine baseGrants_congr fun o ho => ?_
      by_cases hpos : o.remainingQuantity > 0
      · have hmem : o.shareProduct (min q (sumQty os)) ∈ splitProducts q os := by
          rw [splitProducts, if_pos hrun]
          exact List.mem_map_of_mem (List.mem_filter.mpr ⟨ho, decide_eq_true hpos⟩)
        simp [wordShare_eq (h _ hmem)]
      · simp [splitKeep, hpos]
    rw [hbase]
  next => rfl

/-- While its products fit, a policy computes what it computes on unbounded integers. -/
theorem Policy.matchLevel_eq {p : Policy} {l : PriceLevel} {q : Int} (h : p.Fits l q) :
    p.matchLevel l q = p.algo.matchLevel l q := by
  have hproducts :
      (∀ v ∈ l.orders.map (·.shareProduct (min q l.totalQuantity)), v ∈ p.products l q) →
      ∀ keep, baseGrants keep (Order.wordShare (min q l.totalQuantity) l.totalQuantity) l.orders =
        baseGrants keep (Order.share (min q l.totalQuantity) l.totalQuantity) l.orders :=
    fun hsub keep => baseGrants_words fun o ho =>
      h _ (List.mem_append_left _ (hsub _ (List.mem_map_of_mem ho)))
  cases p with
  | proRata =>
    refine grantLevel_congr fun hrun => ?_
    simp only [proRataAlloc, hproducts (by simp [products, hrun])]
    rfl
  | thresholdProRata minThreshold =>
    refine grantLevel_congr fun hrun => ?_
    simp only [thresholdAlloc, hproducts (by simp [products, hrun])]
    rfl
  | allocation =>
    refine grantLevel_congr fun hrun => ?_
    simp only [allocationAlloc, hproducts (by simp [products, hrun])]
    rfl
  | splitFifoProRata fifoPct hpct =>
    change splitLevel wordPercent Order.wordShare fifoPct l q =
      splitLevel percentOf Order.share fifoPct l q
    unfold splitLevel
    split
    next => rfl
    next hrun =>
      have hpercent : wordPercent (min q l.totalQuantity) fifoPct =
          percentOf (min q l.totalQuantity) fifoPct := by
        rw [wordPercent, word_eq (h _ (by simp [percentProducts]))]
        rfl
      have hparts : ∀ v ∈ splitProducts
          (min q l.totalQuantity - percentOf (min q l.totalQuantity) fifoPct)
          (applyGrants l.price (splitFifo (percentOf (min q l.totalQuantity) fifoPct)
            l.orders) l.orders).1, FitsInt64 v :=
        fun v hv => h v (by simp [products, hrun, hv])
      simp only [hpercent, splitProRata_words hparts]
  | _ => rfl

/-- What a policy does to a level whose totals are right, whatever the policy, while its products
fit. -/
theorem policy_conserves (p : Policy) {l : PriceLevel} (hd : l.Distinct) (he : l.Exact) {q : Int}
    (hq : 0 < q) (hfits : p.Fits l q) :
    let m := p.matchLevel l q
    (∀ f ∈ m.results, 0 < f.quantity ∧ ∃ o ∈ l.orders, o.id = f.restingOrder) ∧
    fillTotal m.results = min q l.totalQuantity ∧
    m.remaining = q - min q l.totalQuantity ∧
    m.orders = l.orders.map (fun o => o.fill (filledBy o.id m.results)) ∧
    ∀ o ∈ l.orders, filledBy o.id m.results ≤ o.remainingQuantity ∧
      ∀ f ∈ (m.results.filter (·.restingOrder == o.id)).getLast?,
        f.restingRemaining = o.remainingQuantity - filledBy o.id m.results := by
  intro m
  have hm : m = p.algo.matchLevel l q := Policy.matchLevel_eq hfits
  have hbook := p.algo.bookable l q hd
  have htotal := p.algo.total_eq l q hd he hq
  have hleft : ∀ o ∈ l.orders, remainingIn l.orders o.id = some o.remainingQuantity :=
    fun o ho => remainingIn_of_mem hd ho
  rw [hm]
  refine ⟨fun f hf => ⟨hbook.positive ⟨he, hq⟩ f hf, ?_⟩, htotal, ?_, p.algo.orders_eq l q hd,
    fun o ho => ⟨?_, ?_⟩⟩
  · obtain ⟨v, hv⟩ := Option.isSome_iff_exists.mp (hbook.named f hf)
    obtain ⟨o, ho, hid, -⟩ := exists_of_remainingIn hv
    exact ⟨o, ho, hid⟩
  · rw [p.algo.remaining_eq l q hd he hq, htotal]
  · exact hbook.filledBy_le ⟨he, hq⟩ (hleft o ho) (he.positive o ho).le
  · exact hbook.last (hleft o ho)

def restingOffer (id : Nat) (qty : Int) : Order :=
  limitOrder id .sell 100 qty

def offerLevel (os : List Order) : PriceLevel :=
  ⟨100, sumQty os, os.length, os⟩

theorem policy_conserves_sample :
    let l := offerLevel [restingOffer 1 5, restingOffer 2 3]
    let m := (Policy.splitFifoProRata 50 (by decide)).matchLevel l 6
    fillTotal m.results = 6 ∧ m.remaining = 0 := by
  intro l m
  obtain ⟨-, htotal, hleft, -⟩ := policy_conserves (.splitFifoProRata 50 (by decide)) (l := l)
    (q := 6) (by decide) ⟨rfl, by decide⟩ (by decide) (by decide)
  exact ⟨htotal.trans (by decide), hleft.trans (by decide)⟩

/-- An order of four thousand million ahead of one of 3, and an aggressor as large as the first:
its share wraps to a negative number, so that 1 and 3 are filled and nothing is left of the
aggressor. -/
theorem wrapped_share_lost :
    let l := offerLevel [restingOffer 1 4000000000, restingOffer 2 3]
    let m := Policy.proRata.matchLevel l 4000000000
    l.Distinct ∧ l.Exact ∧ m.results.map (fun f => (f.restingOrder, f.quantity)) =
      [(2, 3), (1, 1)] ∧ m.remaining = 0 ∧
      ¬fillTotal m.results = min 4000000000 l.totalQuantity := by
  intro l m
  exact ⟨by decide, ⟨rfl, by decide⟩, by decide, by decide, by decide⟩

end ExchangeSim
