import ExchangeSim.LmmMatch

namespace ExchangeSim

open List Function Option Grants

def splitFifoGive (o : Order) (g : Grants) (left : Int) : Option Int :=
  let fill := min left (liveQty g o)
  if fill > 0 then some fill else none

def splitKeep (o : Order) (alloc : Int) : Bool :=
  decide (o.remainingQuantity > 0) && decide (alloc > 0)

def splitGive (o : Order) (g : Grants) (remainder : Int) : Option Int :=
  if o.remainingQuantity > 0 then
    let add := min remainder (o.remainingQuantity - g.of o.id)
    if add > 0 then some add else none
  else none

def splitFifo (fifoQty : Int) (os : List Order) : Grants :=
  (Grants.walk Order.id splitFifoGive os fifoQty []).1

def splitProRata (share : Int → Int → Order → Int) (proRataQty : Int) (os : List Order) :
    Grants :=
  let levelRemaining := sumQty os
  if proRataQty > 0 ∧ levelRemaining > 0 then
    let toFill := min proRataQty levelRemaining
    let base := baseGrants splitKeep (share toFill levelRemaining) os
    (Grants.walk Order.id splitGive os (toFill - base.total) base).1
  else []

/-- `SplitFifoProRataMatch::match`. The second part writes entries of its own, so an order can
have two. -/
def splitLevel (percent : Int → Nat → Int) (share : Int → Int → Order → Int) (fifoPct : Nat)
    (l : PriceLevel) (q : Int) : MatchOutcome :=
  if q ≤ 0 ∨ l.orders = [] then ⟨l.orders, [], q⟩
  else
    let toFill := min q l.totalQuantity
    let fifoQty := percent toFill fifoPct
    let first := applyGrants l.price (splitFifo fifoQty l.orders) l.orders
    let second := applyGrants l.price (splitProRata share (toFill - fifoQty) first.1) first.1
    ⟨second.1, first.2 ++ second.2, q - toFill⟩

/-- What the fills of a batch leave of each order. -/
def leftAfter (left : Nat → Option Int) : List FillResult → Nat → Option Int
  | [] => left
  | f :: rs => leftAfter (Function.update left f.restingOrder (some f.restingRemaining)) rs

theorem Bookable.append {strict : Prop} {left : Nat → Option Int} {rs rs' : List FillResult}
    (h : Bookable strict left rs) (h' : Bookable strict (leftAfter left rs) rs')
    (hdone : ∀ f ∈ rs, f.restingRemaining = 0 → ∀ g ∈ rs', g.restingOrder ≠ f.restingOrder) :
    Bookable strict left (rs ++ rs') := by
  induction rs generalizing left with
  | nil => exact h'
  | cons f rs ih =>
    obtain ⟨hthere, hlast, hstrict, hrest⟩ := h
    refine ⟨hthere, fun hz g hg => ?_, hstrict,
      ih hrest h' fun g hg => hdone g (mem_cons_of_mem _ hg)⟩
    rcases List.mem_append.mp hg with hg | hg
    · exact hlast hz g hg
    · exact hdone f (by simp) hz g hg

section apply

variable {price : Int} {g : Grants} {os : List Order}

theorem leftAfter_applyGrants (h : ∀ k ∈ g.keys, ∃ o ∈ os, o.id = k) :
    leftAfter (remainingIn os) (applyGrants price g os).2 =
      remainingIn (applyGrants price g os).1 := by
  induction g generalizing os with
  | nil => rfl
  | cons e g ih =>
    obtain ⟨id, q⟩ := e
    obtain ⟨o, ho, hid⟩ := h id (by simp)
    have hthere : (remainingIn os id).isSome = true := by
      simp only [remainingIn, isSome_map, find?_isSome, beq_iff_eq]
      exact ⟨o, ho, hid⟩
    obtain ⟨v, hv⟩ := isSome_iff_exists.mp hthere
    let os' := os.map fun o => if o.id = id then o.fill q else o
    have hmap : remainingIn os' = update (remainingIn os) id (some (v - q)) := by
      simp [os', remainingIn_map_fill, hv]
    have hrem : (remainingIn os' id).getD 0 = v - q := by
      rw [hmap, Function.update_self]
      rfl
    have hrest : ∀ k ∈ Grants.keys g, ∃ o ∈ os', o.id = k := by
      intro k hk
      obtain ⟨x, hx, rfl⟩ := h k (mem_cons_of_mem _ hk)
      refine ⟨_, mem_map.mpr ⟨x, hx, rfl⟩, ?_⟩
      split <;> rfl
    change leftAfter (update (remainingIn os) id (some ((remainingIn os' id).getD 0)))
      (applyGrants price g os').2 = remainingIn (applyGrants price g os').1
    rw [hrem, ← hmap]
    exact ih hrest

theorem remaining_of_entry (hon : On Order.id os g) {f : FillResult}
    (hf : f ∈ (applyGrants price g os).2) :
    remainingIn (applyGrants price g os).1 f.restingOrder = some f.restingRemaining := by
  have hnodup : ((applyGrants price g os).2.map (·.restingOrder)).Nodup := by
    rw [applyGrants_named]
    exact hon.nodup
  rw [← leftAfter_applyGrants hon.named]
  generalize (applyGrants price g os).2 = rs at hf hnodup
  have hkeep : ∀ (rs : List FillResult) (left : Nat → Option Int) (id : Nat),
      (∀ f ∈ rs, f.restingOrder ≠ id) → leftAfter left rs id = left id := by
    intro rs
    induction rs with
    | nil => exact fun _ _ _ => rfl
    | cons x rs ih =>
      intro left id hne
      rw [leftAfter, ih _ _ fun f hf => hne f (mem_cons_of_mem _ hf)]
      exact Function.update_of_ne (hne x (by simp)).symm _ _
  generalize remainingIn os = left
  induction rs generalizing left with
  | nil => simp at hf
  | cons x rs ih =>
    obtain ⟨hx, hn⟩ := List.nodup_cons.mp hnodup
    rcases List.mem_cons.mp hf with rfl | hf
    · rw [leftAfter, hkeep rs _ _ fun y hy he => hx (mem_map.mpr ⟨y, hy, he⟩)]
      exact Function.update_self _ _ _
    · exact ih hf hn _

theorem applyGrants_ids : (applyGrants price g os).1.map Order.id = os.map Order.id := by
  rw [applyGrants_orders, List.map_map]
  rfl

theorem sumQty_applyGrants (hon : On Order.id os g) (hn : (os.map Order.id).Nodup) :
    sumQty (applyGrants price g os).1 = sumQty os - g.total := by
  rw [total_eq_sum hon hn, applyGrants_orders]
  have hmap : ∀ ys : List Order, sumQty (ys.map fun o =>
      o.fill (filledBy o.id (applyGrants price g os).2)) =
        sumQty ys - (ys.map fun o => g.of o.id).sum := by
    intro ys
    induction ys with
    | nil => simp
    | cons y ys ih =>
      simp only [List.map_cons, sumQty_cons, sum_cons, ih]
      rw [filledBy_applyGrants y.id hon.nodup]
      simp only [Order.fill]
      omega
  exact hmap os

theorem applyGrants_nonneg (hon : On Order.id os g)
    (hcap : ∀ o ∈ os, g.of o.id ≤ o.remainingQuantity) :
    ∀ o ∈ (applyGrants price g os).1, 0 ≤ o.remainingQuantity := by
  rw [applyGrants_orders]
  intro x hx
  obtain ⟨o, ho, rfl⟩ := mem_map.mp hx
  have := hcap o ho
  rw [filledBy_applyGrants o.id hon.nodup]
  simp only [Order.fill]
  omega

end apply

section parts

variable {os : List Order}

theorem splitFifoGive_greedy (os : List Order) :
    Greedy Order.id Order.remainingQuantity os splitFifoGive where
  bounds o ho g r q h hr hq := by
    unfold splitFifoGive at hq
    dsimp only at hq
    split at hq
    next hpos =>
      obtain rfl := some.inj hq
      exact ⟨.inl hpos, min_le_left _ _, min_le_right _ _⟩
    next => simp at hq
  takes o ho g r h hr hroom := by
    have hpos : min r (liveQty g o) > 0 := lt_min hr hroom
    simp only [splitFifoGive, hpos, if_true]
    rfl

theorem splitGive_greedy (os : List Order) :
    Greedy Order.id Order.remainingQuantity os splitGive where
  bounds o ho g r q h hr hq := by
    unfold splitGive at hq
    split at hq
    · dsimp only at hq
      split at hq
      next hpos =>
        obtain rfl := some.inj hq
        exact ⟨.inl hpos, min_le_left _ _, min_le_right _ _⟩
      next => simp at hq
    next => simp at hq
  takes o ho g r h hr hroom := by
    have hle := h.room_le o
    have hrem : o.remainingQuantity > 0 := by omega
    have hpos : min r (o.remainingQuantity - g.of o.id) > 0 := lt_min hr hroom
    simp only [splitGive, hrem, hpos, if_true]
    rfl

theorem splitProRata_named {q : Int} (hn : (os.map Order.id).Nodup) :
    On Order.id os (splitProRata Order.share q os) ∧
      ∀ k ∈ (splitProRata Order.share q os).keys, ∃ o ∈ os, o.id = k ∧ 0 < o.remainingQuantity := by
  unfold splitProRata
  dsimp only
  split
  next =>
    refine ⟨walk_on (baseGrants_on hn) (Subset.refl os), ?_⟩
    refine walk_invariant
      (I := fun g _ => ∀ k ∈ g.keys, ∃ o ∈ os, o.id = k ∧ 0 < o.remainingQuantity) ?_ ?_
    · intro o ho g r q hall _ hq k hk
      rcases mem_keys_add.mp hk with rfl | hk
      · refine ⟨o, ho, rfl, ?_⟩
        unfold splitGive at hq
        split at hq
        next hrem => exact hrem
        next => simp at hq
      · exact hall k hk
    · intro k hk
      obtain ⟨e, he, rfl⟩ := mem_map.mp hk
      obtain ⟨o, ho, rfl, hkeep⟩ := mem_baseGrants he
      exact ⟨o, ho, rfl, by simpa using (Bool.and_eq_true_iff.mp hkeep).1⟩
  next => exact ⟨.nil os, by simp [Grants.keys]⟩

theorem splitProRata_within {q : Int} (hn : (os.map Order.id).Nodup)
    (hpos : ∀ o ∈ os, 0 ≤ o.remainingQuantity) (hq : 0 ≤ q) (hle : q ≤ sumQty os) :
    GrantsWithin os (splitProRata Order.share q os) ∧ (splitProRata Order.share q os).total = q := by
  unfold splitProRata
  dsimp only
  split
  next hrun =>
    rw [min_eq_left hle]
    have hbase : GrantsWithin os (baseGrants splitKeep (Order.share q (sumQty os)) os) :=
      baseGrants_within (by simp [splitKeep]) hn hpos hq hle
    have htotal := baseGrants_total_le splitKeep hn hpos hq
    exact ⟨(walk_within (splitGive_greedy os).toModest (Subset.refl os) hn hbase
      (by omega)).1, greedy_remainder (splitGive_greedy os) hn hbase htotal hle⟩
  next hskip =>
    refine ⟨Within.nil hpos, ?_⟩
    simp only [total_nil]
    omega

theorem splitFifo_within {q : Int} (hn : (os.map Order.id).Nodup)
    (hpos : ∀ o ∈ os, 0 ≤ o.remainingQuantity) (hq : 0 ≤ q) (hle : q ≤ sumQty os) :
    GrantsWithin os (splitFifo q os) ∧ (splitFifo q os).total = q := by
  have hnil : GrantsWithin os [] := Within.nil hpos
  refine ⟨(walk_within (splitFifoGive_greedy os).toModest (Subset.refl os) hn hnil
    hq).1, ?_⟩
  unfold splitFifo
  rw [walk_total_eq (splitFifoGive_greedy os) hn hnil hq]
  change min (0 + q) (sumQty os) = q
  omega

theorem splitFifo_on (q : Int) (os : List Order) : On Order.id os (splitFifo q os) :=
  walk_on (.nil os) (Subset.refl os)

end parts

section policy

variable {fifoPct : Nat} {l : PriceLevel} {q : Int}

theorem splitLevel_parts (hpct : fifoPct ≤ 100) (hd : l.Distinct) (he : l.Exact) (hq : 0 < q) :
    let toFill := min q l.totalQuantity
    let fifoQty := percentOf toFill fifoPct
    let os := (applyGrants l.price (splitFifo fifoQty l.orders) l.orders).1
    (GrantsWithin l.orders (splitFifo fifoQty l.orders) ∧
      (splitFifo fifoQty l.orders).total = fifoQty) ∧
    GrantsWithin os (splitProRata Order.share (toFill - fifoQty) os) ∧
      (splitProRata Order.share (toFill - fifoQty) os).total = toFill - fifoQty := by
  intro toFill fifoQty os
  obtain ⟨ht, htT⟩ := toFill_bounds he hq
  obtain ⟨hlow, hhigh⟩ : 0 ≤ fifoQty ∧ fifoQty ≤ toFill := percentOf_bounds ht hpct
  have hfirst := splitFifo_within hd he.nonneg hlow (hhigh.trans htT)
  have hsum : sumQty os = sumQty l.orders - fifoQty := by
    rw [← hfirst.2]
    exact sumQty_applyGrants hfirst.1.toOn hd
  have hn : (os.map Order.id).Nodup := by
    rw [applyGrants_ids]
    exact hd
  refine ⟨hfirst, splitProRata_within hn (applyGrants_nonneg hfirst.1.toOn hfirst.1.capped)
    (by omega) ?_⟩
  omega

theorem splitLevel_total (hpct : fifoPct ≤ 100) (hd : l.Distinct) (he : l.Exact) (hq : 0 < q) :
    fillTotal (splitLevel percentOf Order.share fifoPct l q).results = min q l.totalQuantity := by
  unfold splitLevel
  split
  next h =>
    have hnil : l.orders = [] := h.resolve_left (by omega)
    have htotal : l.totalQuantity = 0 := by rw [he.total, hnil, sumQty_nil]
    simp only [fillTotal_nil]
    omega
  next =>
    obtain ⟨⟨-, hfirst⟩, -, hsecond⟩ := splitLevel_parts hpct hd he hq
    rw [fillTotal_append, applyGrants_total, applyGrants_total, hfirst, hsecond]
    omega

theorem splitLevel_bookable (hpct : fifoPct ≤ 100) (hd : l.Distinct) :
    Bookable (l.Exact ∧ 0 < q) (remainingIn l.orders) (splitLevel percentOf Order.share fifoPct l q).results := by
  unfold splitLevel
  split
  next => trivial
  next =>
    let g := splitFifo (percentOf (min q l.totalQuantity) fifoPct) l.orders
    have hon : On Order.id l.orders g := splitFifo_on _ _
    have hn : ((applyGrants l.price g l.orders).1.map Order.id).Nodup := by
      rw [applyGrants_ids]
      exact hd
    obtain ⟨hon', hlive⟩ := splitProRata_named
      hn
    refine Bookable.append ?_ ?_ ?_
    · exact applyGrants_bookable hon
        (fun hs => (splitLevel_parts hpct hd hs.1 hs.2).1.1.positive)
        fun hs => (splitLevel_parts hpct hd hs.1 hs.2).1.1.capped
    · rw [leftAfter_applyGrants hon.named]
      exact applyGrants_bookable hon'
        (fun hs => (splitLevel_parts hpct hd hs.1 hs.2).2.1.positive)
        fun hs => (splitLevel_parts hpct hd hs.1 hs.2).2.1.capped
    · intro f hf hzero f' hf' he
      have hkey : f'.restingOrder ∈ (splitProRata Order.share (min q l.totalQuantity -
          percentOf (min q l.totalQuantity) fifoPct) (applyGrants l.price g l.orders).1).keys := by
        rw [← applyGrants_named]
        exact mem_map.mpr ⟨f', hf', rfl⟩
      obtain ⟨o, ho, hid, hrem⟩ := hlive _ hkey
      have hleft := remaining_of_entry hon hf
      rw [← he, ← hid, remainingIn_of_mem hn ho, hzero] at hleft
      have := some.inj hleft
      omega

theorem splitFifo_partial (fifoQty : Int) (hd : l.Distinct) : ∃ k, ∀ o ∈ l.orders,
    o.id ∈ (splitFifo fifoQty l.orders).keys → o.id ≠ k →
      o.remainingQuantity - (splitFifo fifoQty l.orders).of o.id = 0 := by
  have hgive : ∀ (o : Order) g r q, splitFifoGive o g r = some q →
      0 < q ∧ q = min r (room Order.id Order.remainingQuantity g o) := by
    intro o g r q hq
    unfold splitFifoGive at hq
    dsimp only at hq
    split at hq
    next hpos =>
      obtain rfl := some.inj hq
      exact ⟨hpos, rfl⟩
    next => simp at hq
  exact walk_partial hgive hd

theorem splitLevel_length (hd : l.Distinct) (q : Int) :
    (splitLevel percentOf Order.share fifoPct l q).results.length ≤ l.orders.length + 1 := by
  unfold splitLevel
  split
  next => exact Nat.zero_le _
  next =>
    let fifoQty := percentOf (min q l.totalQuantity) fifoPct
    let g := splitFifo fifoQty l.orders
    let os := (applyGrants l.price g l.orders).1
    let g' := splitProRata Order.share (min q l.totalQuantity - fifoQty) os
    change ((applyGrants l.price g l.orders).2 ++ (applyGrants l.price g' os).2).length ≤ _
    have hon : On Order.id l.orders g := splitFifo_on _ _
    have hids : os.map Order.id = l.orders.map Order.id := applyGrants_ids
    have hn : (os.map Order.id).Nodup := hids ▸ hd
    obtain ⟨hon', hlive⟩ : On Order.id os g' ∧ _ := splitProRata_named hn
    obtain ⟨k, hk⟩ := splitFifo_partial fifoQty hd
    have hdisjoint : Disjoint (g.keys.erase k) g'.keys := by
      intro id hfirst hsecond
      obtain ⟨o', ho', rfl, hrem⟩ := hlive id hsecond
      simp only [os, applyGrants_orders, List.mem_map] at ho'
      obtain ⟨o, ho, rfl⟩ := ho'
      obtain ⟨hne, hmem⟩ := hon.nodup.mem_erase_iff.mp hfirst
      have hzero : o.remainingQuantity - g.of o.id = 0 := hk o ho hmem hne
      rw [filledBy_applyGrants o.id hon.nodup] at hrem
      simp only [Order.fill] at hrem
      omega
    have hsub : g.keys.erase k ++ g'.keys ⊆ l.orders.map Order.id := by
      intro id hid
      rcases List.mem_append.mp hid with hid | hid
      · obtain ⟨o, ho, rfl⟩ := hon.named id (mem_of_mem_erase hid)
        exact mem_map_of_mem ho
      · obtain ⟨o, ho, rfl⟩ := hon'.named id hid
        rw [← hids]
        exact mem_map_of_mem ho
    have hnodup : (g.keys.erase k ++ g'.keys).Nodup :=
      (hon.nodup.erase k).append hon'.nodup hdisjoint
    have hlen := (hnodup.subperm hsub).length_le
    have herase : g.keys.length - 1 ≤ (g.keys.erase k).length := le_length_erase
    simp only [length_append, length_map, Grants.keys, applyGrants_length] at hlen herase ⊢
    omega

end policy

def splitFifoProRataMatch (fifoPct : Nat) (hpct : fifoPct ≤ 100) : MatchPolicy where
  matchLevel := splitLevel percentOf Order.share fifoPct
  orders_eq l q hd := by
    unfold splitLevel
    split
    · simp [filledBy]
    · dsimp only
      rw [applyGrants_orders, applyGrants_orders, List.map_map]
      refine List.map_congr_left fun o _ => ?_
      simp only [Function.comp, Order.fill_id, Order.fill_fill, filledBy_append]
  price_eq l q f hf := by
    unfold splitLevel at hf
    split at hf
    · simp at hf
    · rcases List.mem_append.mp hf with hf | hf
      · exact applyGrants_price f hf
      · exact applyGrants_price f hf
  bookable _ _ hd := splitLevel_bookable hpct hd
  remaining_eq l q hd he hq := by
    rw [splitLevel_total hpct hd he hq]
    unfold splitLevel
    split
    next h =>
      have hnil : l.orders = [] := h.resolve_left (by omega)
      have htotal : l.totalQuantity = 0 := by rw [he.total, hnil, sumQty_nil]
      simp only
      omega
    next => rfl
  total_eq _ _ hd he hq := splitLevel_total hpct hd he hq

theorem splitFifoProRataMatch_writes (fifoPct : Nat) (hpct : fifoPct ≤ 100) :
    (splitFifoProRataMatch fifoPct hpct).Writes 1 :=
  fun _ q hd => splitLevel_length hd q

end ExchangeSim
