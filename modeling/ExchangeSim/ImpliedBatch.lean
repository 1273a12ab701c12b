import ExchangeSim.FifoPriority
import ExchangeSim.Passed

namespace ExchangeSim

open Engine List PriceLevel Holdings

variable {D : Type} {X : Exchange D} {e e₁ e' : Engine D} {w : Prop} {o : Order} {l : PriceLevel}
  {f : LegFill} {A B : List PriceLevel} {ts : Int} {fills : List LegFill} {Xs Ys : List Order}
  {k : Shelf}

/-- The quantities a batch takes from one order, in the order of the batch. -/
def legsOf (id : Nat) (fills : List LegFill) : List Int :=
  (fills.filter (·.orderId == id)).map (·.fillQty)

/-- What fills of these sizes leave of an order, one after the other. -/
def leftBy (o : Option Order) (qs : List Int) : Option Order :=
  qs.foldl (fun o q => o.bind (·.settled q)) o

theorem legsOf_append (id : Nat) (A B : List LegFill) :
    legsOf id (A ++ B) = legsOf id A ++ legsOf id B := by
  simp [legsOf]

theorem leftBy_append (o : Option Order) (qs rs : List Int) :
    leftBy o (qs ++ rs) = leftBy (leftBy o qs) rs :=
  foldl_append

theorem leftBy_none (qs : List Int) : leftBy none qs = none := by
  induction qs with
  | nil => rfl
  | cons q qs ih => exact ih

theorem leftBy_single (o : Option Order) (f : LegFill) :
    leftBy o (legsOf f.orderId [f]) = o.bind (·.settled f.fillQty) := by
  simp [leftBy, legsOf]

theorem leftBy_other (o : Option Order) {id : Nat} (h : id ≠ f.orderId) :
    leftBy o (legsOf id [f]) = o := by
  simp [leftBy, legsOf, Ne.symm h]

theorem leftBy_negative (ho : o.remainingQuantity < 0) (qs : List Int) (hqs : ∀ q ∈ qs, 0 < q) :
    ∃ x, leftBy (some o) qs = some x ∧ x.remainingQuantity < 0 := by
  induction qs generalizing o with
  | nil => exact ⟨o, rfl, ho⟩
  | cons q qs ih =>
    have hq : 0 < q := hqs q (by simp)
    have hfill : o.settled q = some (o.fill q) := by
      rw [Order.settled, if_neg (by omega)]
    have hless : (o.fill q).remainingQuantity < 0 := by
      simp only [Order.fill]
      omega
    obtain ⟨x, hx, hneg⟩ := ih hless fun r hr => hqs r (by simp [hr])
    refine ⟨x, ?_, hneg⟩
    rw [← hx, leftBy, List.foldl_cons, Option.bind_some, hfill]
    rfl

def Engine.stands (k : Shelf) (s : Side) (price : Int) (id : Nat) (e : Engine D) : Prop :=
  ∃ l ∈ e.shelf k s, l.price = price ∧ l.has id = true

/-- Among orders standing at stop prices as `P` has it, the order `id` can go without its level
becoming the end of the list: another order stays at the price, or there are levels on either
side. -/
def Sheltered (s : Side) (P : Int → Nat → Prop) (price : Int) (id : Nat) : Prop :=
  (∃ j, j ≠ id ∧ P price j) ∨
    (∃ p j, stopBefore s p price = true ∧ P p j) ∧ ∃ p j, stopBefore s price p = true ∧ P p j

theorem indexed_iff (hs : World.Sound X w ⟨e, none⟩) {id : Nat} :
    e.indexed id = .ok o ↔ byId e.linked id = some o := by
  have hH := hs.holds_none rfl
  constructor
  · intro h
    unfold indexed at h
    split at h
    next => simp at h
    next hfound =>
      obtain ⟨p, hp, hd⟩ := Option.bind_eq_some_iff.mp hfound
      obtain ⟨rfl, -⟩ := (hH.owns.index id p).mp hp
      rw [← Except.ok.inj h]
      exact hd
  · intro h
    have hlinked : id ∈ e.linked.map (·.id) :=
      mem_map.mpr ⟨o, mem_of_find?_eq_some h, by simpa using find?_some h⟩
    have hidx : e.orderIndex id = some id := by
      refine (hH.owns.index id id).mpr ⟨rfl, ?_⟩
      rwa [nil_append, holdings_ids]
    have hd : e.deref id = some o := h
    simp [indexed, hidx, hd]

theorem PriceLevel.has_iff_ids {id : Nat} : l.has id = true ↔ id ∈ l.orders.map (·.id) := by
  rw [has_iff, mem_map]

theorem settledLevel_has (hf : Focus o A l B Xs Ys) (hcount : l.orderCount = l.orders.length)
    (q : Int) (id : Nat) :
    (∃ m, settledLevel o q l = some m ∧ m.has id = true) ↔
      l.has id = true ∧ (id = o.id → (o.settled q).isSome = true) := by
  have hsame : ∀ m : PriceLevel, (m.orders.map (·.id)).Perm (l.orders.map (·.id)) →
      (m.has id = true ↔ l.has id = true) := by
    intro m hm
    rw [has_iff_ids, has_iff_ids, hm.mem_iff]
  unfold settledLevel Order.settled
  split
  · split
    · simp [hsame _ (hf.reveal_ids q)]
    · have hrest : l.has id = true ∧ (id = o.id → (none : Option Order).isSome = true) ↔
          ∃ x ∈ Xs ++ Ys, x.id = id := by
        rw [has_iff, hf.queue]
        constructor
        · rintro ⟨⟨x, hx, rfl⟩, hne⟩
          rcases List.mem_cons.mp (perm_middle.mem_iff.mp hx) with rfl | hx
          · simp at hne
          · exact ⟨x, hx, rfl⟩
        · rintro ⟨x, hx, rfl⟩
          refine ⟨⟨x, perm_middle.mem_iff.mpr (mem_cons_of_mem _ hx), rfl⟩, fun h => ?_⟩
          exact (hf.inside x hx h).elim
      rw [hrest]
      split
      next hfree =>
        have hnil : Xs ++ Ys = [] := by
          rw [hcount, hf.queue, length_append, List.length_cons] at hfree
          rw [← length_eq_zero_iff, length_append]
          omega
        simp [hnil]
      next => simp [has_iff, unlink, hf.filter_queue]
  · simp [hsame _ (hf.fillOrder_ids q)]

theorem settleIn_stands {H : Holdings} {extra : List Nat} (hH : H.Sound X w extra)
    (ho : o ∈ ordersIn (H.lvls k o.side)) (q : Int) (j : Shelf) (s : Side) (price : Int)
    (id : Nat) :
    (∃ l ∈ (H.settleIn k o q).lvls j s, l.price = price ∧ l.has id = true) ↔
      (∃ l ∈ H.lvls j s, l.price = price ∧ l.has id = true) ∧
        (id = o.id → (o.settled q).isSome = true) := by
  by_cases hjs : j = k ∧ s = o.side
  · obtain ⟨rfl, rfl⟩ := hjs
    obtain ⟨A, l, B, Xs, Ys, hsplit, hf⟩ := exists_focus_of_mem (hH.nodup j o.side) ho
    have hhas := settledLevel_has hf (hsplit ▸ hH.shape j o.side).level.count q id
    rw [settleIn_lvls hsplit hf, hsplit]
    constructor
    · rintro ⟨m, hm, hp, hid⟩
      rcases List.mem_append.mp hm with hm | hm
      · refine ⟨⟨m, by simp [hm], hp, hid⟩, fun h => ?_⟩
        rw [h, hf.left hm] at hid
        simp at hid
      · rcases List.mem_append.mp hm with hm | hm
        · have hset : settledLevel o q l = some m := by simpa using hm
          obtain ⟨hl, hleft⟩ := hhas.mp ⟨m, hset, hid⟩
          exact ⟨⟨l, by simp, by rw [← hp, settledLevel_price hset], hl⟩, hleft⟩
        · refine ⟨⟨m, by simp [hm], hp, hid⟩, fun h => ?_⟩
          rw [h, hf.right hm] at hid
          simp at hid
    · rintro ⟨⟨m, hm, hp, hid⟩, hleft⟩
      rcases List.mem_append.mp hm with hm | hm
      · exact ⟨m, by simp [hm], hp, hid⟩
      · rcases List.mem_cons.mp hm with rfl | hm
        · obtain ⟨m', hset, hid'⟩ := hhas.mpr ⟨hid, hleft⟩
          exact ⟨m', by simp [hset], by rw [settledLevel_price hset, hp], hid'⟩
        · exact ⟨m, by simp [hm], hp, hid⟩
  · rw [settleIn_lvls_other hjs]
    refine ⟨fun h => ⟨h, fun heq => ?_⟩, And.left⟩
    obtain ⟨l, hl, -, hid⟩ := h
    rw [heq, hH.has_eq_false k j o.side s hjs ho l hl] at hid
    simp at hid

structure Engine.LegsDone (fills : List LegFill) (e e' : Engine D) : Prop where
  orders : ∀ id, byId e'.linked id = leftBy (byId e.linked id) (legsOf id fills)
  stands : ∀ k s price id, e'.stands k s price id ↔
    e.stands k s price id ∧ (byId e'.linked id).isSome = true
  fills : e'.fills = e.fills ++ fills.map fun f => ⟨f.orderId, f.fillPrice, f.fillQty⟩

theorem Engine.stands.linked {s : Side} {price : Int} {id : Nat} (h : e.stands k s price id) :
    (byId e.linked id).isSome = true := by
  obtain ⟨l, hl, -, hhas⟩ := h
  obtain ⟨o, ho, rfl⟩ := has_iff.mp hhas
  rw [byId, find?_isSome]
  exact ⟨o, mem_linked.mpr ⟨k, s, mem_ordersIn.mpr ⟨l, hl, ho⟩⟩, by simp⟩

theorem Engine.LegsDone.refl (e : Engine D) : LegsDone [] e e where
  orders := fun _ => rfl
  stands := fun _ _ _ _ => ⟨fun h => ⟨h, h.linked⟩, And.left⟩
  fills := by simp

theorem Engine.LegsDone.trans {A B : List LegFill} (h : LegsDone A e e₁)
    (h' : LegsDone B e₁ e') : LegsDone (A ++ B) e e' where
  orders := fun id => by rw [h'.orders, h.orders, legsOf_append, leftBy_append]
  stands := fun k s price id => by
    rw [h'.stands, h.stands]
    refine ⟨fun hst => ⟨hst.1.1, hst.2⟩, fun hst => ⟨⟨hst.1, ?_⟩, hst.2⟩⟩
    by_contra hgone
    have hsome := hst.2
    rw [h'.orders, Option.not_isSome_iff_eq_none.mp hgone, leftBy_none] at hsome
    simp at hsome
  fills := by rw [h'.fills, h.fills, map_append, List.append_assoc]

theorem fills_applyImpliedFill (hindexed : e.indexed f.orderId = .ok o)
    (h : e.applyImpliedFill X ts f = .ok e') :
    e'.fills = e.fills ++ [⟨o.id, f.fillPrice, f.fillQty⟩] := by
  obtain ⟨o', ho, htape⟩ := tape_applyImpliedFill e h
  obtain rfl : o = o' := Except.ok.inj (hindexed.symm.trans ho)
  rw [fills_tape, htape, filterMap_append, ← fills_tape]
  rfl

theorem applyImpliedFill_done (hs : World.Sound X False ⟨e, none⟩)
    (h : e.applyImpliedFill X ts f = .ok e') : LegsDone [f] e e' := by
  have hH := hs.holds_none rfl
  obtain ⟨o, k, hindexed, ho, hheld⟩ := applyImpliedFill_settles hs h
  have hfound := (indexed_iff hs).mp hindexed
  have hid : o.id = f.orderId := by simpa using find?_some hfound
  have hview : byId e'.linked = Function.update (byId e.linked) o.id (o.settled f.fillQty) := by
    obtain ⟨rest, hold, hnew⟩ := hH.settleIn_orders ho f.fillQty
    refine byId_replace ?_ hold ?_ fun x hx => Order.settled_id hx
    · have := hH.owns.nodup
      rwa [nil_append, ids_eq] at this
    · have hlinked : e'.linked = (e.holdings.settleIn k o f.fillQty).orders :=
        congrArg Holdings.orders hheld
      rw [hlinked]
      exact hnew
  refine ⟨fun id => ?_, fun j s price id => ?_, ?_⟩
  · rw [hview]
    by_cases heq : id = f.orderId
    · subst heq
      rw [leftBy_single, hfound, ← hid, Function.update_self]
      rfl
    · rw [leftBy_other _ heq, Function.update_of_ne (by rwa [hid])]
  · have hlvls : ∀ j s, e'.shelf j s = (e.holdings.settleIn k o f.fillQty).lvls j s := fun j s =>
      congrArg (fun H : Holdings => H.lvls j s) hheld
    have hst := settleIn_stands hH ho f.fillQty j s price id
    rw [← hlvls j s] at hst
    refine hst.trans (and_congr_right fun hbefore => ?_)
    rw [hview]
    by_cases heq : id = o.id
    · subst heq
      simp
    · simpa [heq, Function.update_of_ne heq] using stands.linked hbefore
  · rw [fills_applyImpliedFill hindexed h, hid]
    rfl

theorem mem_by_price {before : Int → Int → Bool} (hstrict : StrictBefore before) {m : PriceLevel}
    (hsorted : (A ++ l :: B).Pairwise fun a b => before a.price b.price = true)
    (hm : m ∈ A ++ l :: B) :
    (m.price = l.price → m = l) ∧ (before m.price l.price = true → m ∈ A) ∧
      (before l.price m.price = true → m ∈ B) := by
  obtain ⟨-, hA, hB⟩ := pairwise_middle_iff.mp hsorted
  have hself : before l.price l.price = true → False := by simp [hstrict.irrefl]
  rcases List.mem_append.mp hm with hm | hm
  · have hml := hA m hm
    refine ⟨fun h => ?_, fun _ => hm, fun h => ?_⟩
    · rw [h] at hml
      exact (hself hml).elim
    · exact (hself (hstrict.trans _ _ _ h hml)).elim
  · rcases List.mem_cons.mp hm with rfl | hm
    · exact ⟨fun _ => rfl, fun h => (hself h).elim, fun h => (hself h).elim⟩
    · have hlm := hB m hm
      refine ⟨fun h => ?_, fun h => ?_, fun _ => hm⟩
      · rw [h] at hlm
        exact (hself hlm).elim
      · exact (hself (hstrict.trans _ _ _ hlm h)).elim

theorem sheltered_iff (hH : e.holdings.Sound X w [])
    (hsplit : e.holdings.lvls .stop o.side = A ++ l :: B) (hf : Focus o A l B Xs Ys) :
    Sheltered o.side (fun p j => e.stands .stop o.side p j) l.price o.id ↔
      Xs ++ Ys ≠ [] ∨ A ≠ [] ∧ B ≠ [] := by
  have hside := hsplit ▸ hH.shape .stop o.side
  have hshelf : e.shelf .stop o.side = A ++ l :: B := hsplit
  obtain ⟨-, hA, hB⟩ := pairwise_middle_iff.mp hside.sorted
  have hplace : ∀ m ∈ e.shelf .stop o.side, _ := fun m hm =>
    mem_by_price (strictBefore_stop o.side) hside.sorted (hshelf ▸ hm)
  have hfull : ∀ m ∈ A ++ l :: B, ∃ j, e.stands .stop o.side m.price j := by
    intro m hm
    obtain ⟨x, hx⟩ := exists_mem_of_ne_nil _ (hside.sound m hm).nonempty
    exact ⟨x.id, m, hshelf ▸ hm, rfl, has_iff.mpr ⟨x, hx, rfl⟩⟩
  constructor
  · rintro (⟨j, hj, m, hm, hp, hhas⟩ | ⟨⟨p, j, hp, m, hm, rfl, -⟩, ⟨p', j', hp', m', hm', rfl, -⟩⟩)
    · obtain rfl := (hplace m hm).1 hp
      obtain ⟨x, hx, rfl⟩ := has_iff.mp hhas
      rw [hf.queue] at hx
      rcases List.mem_cons.mp (perm_middle.mem_iff.mp hx) with rfl | hx
      · exact (hj rfl).elim
      · exact .inl (ne_nil_of_mem hx)
    · exact .inr ⟨ne_nil_of_mem ((hplace m hm).2.1 hp),
        ne_nil_of_mem ((hplace m' hm').2.2 hp')⟩
  · rintro (hne | ⟨hneA, hneB⟩)
    · obtain ⟨x, hx⟩ := exists_mem_of_ne_nil _ hne
      refine .inl ⟨x.id, hf.inside x hx, l, hshelf ▸ by simp, rfl, has_iff.mpr ⟨x, ?_, rfl⟩⟩
      rw [hf.queue]
      exact perm_middle.mem_iff.mpr (mem_cons_of_mem _ hx)
    · obtain ⟨a, ha⟩ := exists_mem_of_ne_nil _ hneA
      obtain ⟨b, hb⟩ := exists_mem_of_ne_nil _ hneB
      obtain ⟨i, hi⟩ := hfull a (by simp [ha])
      obtain ⟨j, hj⟩ := hfull b (by simp [hb])
      exact .inr ⟨⟨a.price, i, hA a ha, hi⟩, ⟨b.price, j, hB b hb, hj⟩⟩

theorem inner_iff (hf : Focus o A l B Xs Ys) :
    inner (A ++ l :: B) o.id = true ↔ A ≠ [] ∧ B ≠ [] := by
  have hnone : ∀ C : List PriceLevel, (∀ m ∈ C, m ∈ A ++ B) → C.any (·.has o.id) = false := by
    intro C hC
    rw [any_eq_false]
    intro m hm
    simp [hf.outside m (hC m hm)]
  unfold inner
  cases A with
  | nil =>
    simp [hnone B.dropLast fun m hm => by simpa using mem_of_mem_dropLast hm]
  | cons a A =>
    by_cases hB : B = []
    · subst hB
      simp [dropLast_append_of_ne_nil, hnone A fun m hm => by simp [hm]]
    · have hdrop : (A ++ l :: B).dropLast = A ++ l :: B.dropLast := by
        rw [dropLast_append_of_ne_nil (by simp), dropLast_cons_of_ne_nil hB]
      simp [hdrop, hf.has, hB]

/-- `book_.remove_order` ends on a waiting stop unless that is alone on the first or the last
level. -/
theorem bookRemoveOrder_waits (hsplit : e.stopBook o.side = A ++ l :: B) (hf : Focus o A l B Xs Ys)
    (hcount : l.orderCount = l.orders.length) (hnot : holds (e.book o.side) o.id = false) :
    (∃ r, e.bookRemoveOrder o = .ok r) ↔ Xs ++ Ys ≠ [] ∨ A ≠ [] ∧ B ≠ [] := by
  have hwait : holds (A ++ l :: B) o.id = true :=
    holds_of_mem (mem_ordersIn.mpr ⟨l, by simp, by simp [hf.queue]⟩)
  have hfreed : (unlinkFrom o (A ++ l :: B)).2 = true ↔ Xs ++ Ys = [] := by
    rw [hf.unlinkFrom_eq, ← length_eq_zero_iff, length_append]
    rw [hcount, hf.queue, length_append, List.length_cons]
    split
    · simp only [true_iff]
      omega
    · simp only [Bool.false_eq_true, false_iff]
      omega
  simp only [bookRemoveOrder, hnot, hsplit, hwait, Bool.false_eq_true, if_false, if_true]
  rw [← inner_iff hf, ne_eq, ← hfreed]
  cases (unlinkFrom o (A ++ l :: B)).2 <;> cases inner (A ++ l :: B) o.id <;> simp

/-- A leg ends unless it fills up a waiting stop whose level `unlink_level` would take out of the
wrong list. -/
theorem applyImpliedFill_ends (ts : Int) (hs : World.Sound X False ⟨e, none⟩)
    (ho : byId e.linked f.orderId = some o) :
    (∃ e', e.applyImpliedFill X ts f = .ok e') ↔
      (o.settled f.fillQty = none → ∀ price, e.stands .stop o.side price o.id →
        Sheltered o.side (fun p j => e.stands .stop o.side p j) price o.id) := by
  have hH := hs.holds_none rfl
  have hindexed := (indexed_iff hs).mpr ho
  obtain ⟨k, hk⟩ := shelf_of_linked hH (mem_linked_of_indexed hindexed)
  obtain ⟨hH₁, ho₁⟩ := impliedTrade_sound ts f hH hk
  simp only [applyImpliedFill, hindexed, Order.settled]
  rw [show (o.fill f.fillQty).remainingQuantity = o.remainingQuantity - f.fillQty from rfl]
  split
  next =>
    split
    next => simp
    next =>
      suffices hrem : (∃ r, (e.impliedTrade X ts f (o.fill f.fillQty)).bookRemoveOrder
          (o.fill f.fillQty) = .ok r) ↔ ∀ price, e.stands .stop o.side price o.id →
            Sheltered o.side (fun p j => e.stands .stop o.side p j) price o.id by
        rw [forall_prop_of_true rfl, ← hrem]
        rcases (e.impliedTrade X ts f (o.fill f.fillQty)).bookRemoveOrder (o.fill f.fillQty) with
          err | r <;> simp
      cases k with
      | limit =>
        have hrest : holds ((e.impliedTrade X ts f (o.fill f.fillQty)).book
            (o.fill f.fillQty).side) (o.fill f.fillQty).id = true := holds_of_mem ho₁
        refine iff_of_true ⟨_, if_pos hrest⟩ ?_
        rintro price ⟨l, hl, -, hhas⟩
        rw [hH.has_eq_false .limit .stop o.side o.side (by simp) hk l hl] at hhas
        simp at hhas
      | stop =>
        obtain ⟨A, l, B, Xs, Ys, hsplit, hf⟩ := exists_focus_of_mem (hH.nodup .stop o.side) hk
        have hside := hsplit ▸ hH.shape .stop o.side
        have hprice : ∀ price, e.stands .stop o.side price o.id ↔ price = l.price := by
          intro price
          constructor
          · rintro ⟨m, hm, rfl, hhas⟩
            by_contra hne
            have hm' : m ∈ A ++ l :: B := hsplit ▸ hm
            have hout : m ∈ A ++ B := by
              rcases List.mem_cons.mp (perm_middle.mem_iff.mp hm') with rfl | hm'
              · exact (hne rfl).elim
              · exact hm'
            rw [hf.outside m hout] at hhas
            simp at hhas
          · rintro rfl
            exact ⟨l, by rw [show e.shelf .stop o.side = A ++ l :: B from hsplit]; simp, rfl, hf.has⟩
        have hlvls := congrArg (fun H : Holdings => H.lvls .stop o.side)
          (holdings_impliedTrade ts f hH hk)
        simp only [bookedIn, hsplit, hf.onLevelOf_eq] at hlvls
        have hstop : (e.impliedTrade X ts f (o.fill f.fillQty)).stopBook o.side =
            A ++ l.fillOrder o f.fillQty :: B := hlvls.trans (set_self .stop o.side _)
        rw [bookRemoveOrder_waits (o := o.fill f.fillQty) hstop (hf.fillOrder f.fillQty) ?_
          (not_holds_other hH₁ ho₁ .limit (by simp)), ← sheltered_iff hH hsplit hf]
        · simp [hprice]
        · change l.orderCount = _
          rw [hside.level.count, hf.fillOrder_orders, hf.queue]
          simp
  next => simp

theorem applyImpliedLegs_append (ts : Int) (A B : List LegFill) (e : Engine D) :
    e.applyImpliedLegs X ts (A ++ B) =
      (e.applyImpliedLegs X ts A).bind (applyImpliedLegs X ts B) := by
  induction A generalizing e with
  | nil => rfl
  | cons f A ih =>
    simp only [cons_append, applyImpliedLegs]
    cases e.applyImpliedFill X ts f with
    | error err => rfl
    | ok e₁ => exact ih e₁

theorem applyImpliedLegs_single (ts : Int) (f : LegFill) (e : Engine D) :
    e.applyImpliedLegs X ts [f] = e.applyImpliedFill X ts f := by
  simp only [applyImpliedLegs]
  cases e.applyImpliedFill X ts f <;> rfl

theorem applyImpliedLegs_done (hs : World.Sound X False ⟨e, none⟩)
    (h : e.applyImpliedLegs X ts fills = .ok e') :
    World.Sound X False ⟨e', none⟩ ∧ LegsDone fills e e' := by
  induction fills generalizing e with
  | nil =>
    cases h
    exact ⟨hs, .refl _⟩
  | cons f fills ih =>
    unfold applyImpliedLegs at h
    split at h
    · simp at h
    next e₁ hleg =>
      obtain ⟨hs', hdone⟩ := ih (applyImpliedFill_sound hs hleg) h
      exact ⟨hs', (applyImpliedFill_done hs hleg).trans hdone⟩

/-- The order waits at this stop price and is not used up by the legs. -/
def Engine.waitsAfter (fills : List LegFill) (s : Side) (price : Int) (id : Nat)
    (e : Engine D) : Prop :=
  e.stands .stop s price id ∧ (leftBy (byId e.linked id) (legsOf id fills)).isSome = true

/-- No leg asks for more than the legs before it leave visible of its order, and none fills up a
waiting stop that is alone by then on the first or the last level of its side. -/
def Engine.Bears (fills : List LegFill) (e : Engine D) : Prop :=
  ∀ A f B, fills = A ++ f :: B → ∃ x,
    leftBy (byId e.linked f.orderId) (legsOf f.orderId A) = some x ∧
    f.fillQty ≤ x.remainingQuantity ∧
    (x.settled f.fillQty = none → ∀ price, e.waitsAfter A x.side price x.id →
      Sheltered x.side (fun p j => e.waitsAfter A x.side p j) price x.id)

theorem Engine.LegsDone.waits {A : List LegFill} (h : LegsDone A e e₁) (s : Side)
    (price : Int) (id : Nat) : e₁.stands .stop s price id ↔ e.waitsAfter A s price id := by
  rw [h.stands, h.orders]
  rfl

theorem Engine.LegsDone.waits_eq {A : List LegFill} (h : LegsDone A e e₁) (s : Side) :
    (fun p j => e₁.stands .stop s p j) = fun p j => e.waitsAfter A s p j := by
  funext p j
  exact propext (h.waits s p j)

theorem applyImpliedFill_exact (hs : World.Sound X True ⟨e, none⟩)
    (ho : byId e.linked f.orderId = some o) (hpos : 0 < f.fillQty)
    (hle : f.fillQty ≤ o.remainingQuantity) (h : e.applyImpliedFill X ts f = .ok e') :
    World.Sound X True ⟨e', none⟩ := by
  have hH := hs.holds_none rfl
  have hs₀ : World.Sound X False ⟨e, none⟩ := .land (hH.mono False.elim)
  obtain ⟨x, k, hindexed, hk, hheld⟩ := applyImpliedFill_settles hs₀ h
  obtain rfl : o = x := Option.some.inj (ho.symm.trans ((indexed_iff hs).mp hindexed))
  have hset := hH.settleIn hk fun _ => hle
  have hrec := hset.record (fun _ => hpos) X.maxOrderIds o.id o.id f.fillPrice ts o.side
    o.accountId o.accountId
  rw [settleIn_tradeRegistry] at hrec
  refine .land ?_
  rw [hheld]
  exact hrec

theorem applyImpliedLegs_ends (ts : Int) (hs : World.Sound X True ⟨e, none⟩)
    (hpos : ∀ f ∈ fills, 0 < f.fillQty) (hb : e.Bears fills) :
    ∃ e', e.applyImpliedLegs X ts fills = .ok e' ∧ World.Sound X True ⟨e', none⟩ := by
  have hs₀ : World.Sound X False ⟨e, none⟩ := .land ((hs.holds_none rfl).mono False.elim)
  -- From the end: the condition on a leg speaks of the legs before it.
  induction fills using reverseRecOn with
  | nil => exact ⟨e, rfl, hs⟩
  | append_singleton A f ih =>
    have hbA : e.Bears A := fun A' f' B' hsplit => hb A' f' (B' ++ [f]) (by simp [hsplit])
    obtain ⟨e₁, hlegs, hs₁⟩ := ih (fun g hg => hpos g (by simp [hg])) hbA
    obtain ⟨hs₁', hdone⟩ := applyImpliedLegs_done hs₀ hlegs
    obtain ⟨x, hx, hle, hshelter⟩ := hb A f [] rfl
    have hfound : byId e₁.linked f.orderId = some x := by rw [hdone.orders, hx]
    obtain ⟨e', hleg⟩ := (applyImpliedFill_ends ts hs₁' hfound).mpr fun hnone price hst => by
      rw [hdone.waits_eq]
      exact hshelter hnone price ((hdone.waits _ _ _).mp hst)
    refine ⟨e', ?_, applyImpliedFill_exact hs₁ hfound (hpos f (by simp)) hle hleg⟩
    rw [applyImpliedLegs_append, hlegs]
    exact (applyImpliedLegs_single ts f e₁).trans hleg

theorem bears_of_ends (hs : World.Sound X False ⟨e, none⟩) (hpos : ∀ f ∈ fills, 0 < f.fillQty)
    (h : e.applyImpliedLegs X ts fills = .ok e')
    (hnonneg : ∀ o ∈ e'.linked, 0 ≤ o.remainingQuantity) : e.Bears fills := by
  intro A f B hsplit
  rw [hsplit, applyImpliedLegs_append] at h
  cases hlegs : e.applyImpliedLegs X ts A with
  | error err => simp [hlegs, Except.bind] at h
  | ok e₁ =>
    rw [hlegs] at h
    change e₁.applyImpliedLegs X ts (f :: B) = .ok e' at h
    obtain ⟨hs₁, hdone⟩ := applyImpliedLegs_done hs hlegs
    unfold applyImpliedLegs at h
    split at h
    · simp at h
    next e₂ hleg =>
      obtain ⟨x, -, hindexed, -, -⟩ := applyImpliedFill_settles hs₁ hleg
      have hfound := (indexed_iff hs₁).mp hindexed
      refine ⟨x, by rw [← hdone.orders, hfound], ?_, fun hnone price hst => ?_⟩
      · by_contra hlt
        have hover : x.settled f.fillQty = some (x.fill f.fillQty) := by
          rw [Order.settled, if_neg (by omega)]
        obtain ⟨y, hy, hneg⟩ := leftBy_negative (o := x.fill f.fillQty)
          (by simp only [Order.fill]; omega) (legsOf f.orderId B) fun q hq => by
            obtain ⟨g, hg, rfl⟩ := mem_map.mp hq
            exact hpos g (by simp [hsplit, mem_of_mem_filter hg])
        have hleft : byId e'.linked f.orderId = some y := by
          have hrest := (applyImpliedLegs_done (applyImpliedFill_sound hs₁ hleg) h).2
          rw [hrest.orders, (applyImpliedFill_done hs₁ hleg).orders, leftBy_single, hfound,
            Option.bind_some, hover, hy]
        have := hnonneg y (mem_of_find?_eq_some hleft)
        omega
      · have hends := (applyImpliedFill_ends ts hs₁ hfound).mp ⟨e₂, hleg⟩ hnone price
          ((hdone.waits _ _ _).mpr hst)
        rwa [hdone.waits_eq] at hends

/-- A call of `apply_implied_fills` that refuses and changes nothing, or applies every leg and
leaves the books in order. -/
def Engine.AllOrNothing (X : Exchange D) (fills : List LegFill) (ts : Int) (e : Engine D) : Prop :=
  e.applyImpliedFills X fills ts = .ok (false, e) ∨
    ∃ e', e.applyImpliedFills X fills ts = .ok (true, e') ∧ Engine.LegsDone fills e e' ∧
      (∀ o ∈ e'.linked, 0 ≤ o.remainingQuantity) ∧ e'.WellShaped ∧ e'.Accounted X

theorem fillQty_pos (h : fills.all (e.impliedFillValid X) = true) : ∀ f ∈ fills, 0 < f.fillQty := by
  intro f hf
  have hvalid := all_eq_true.mp h f hf
  simp only [impliedFillValid, Bool.and_eq_true, decide_eq_true_eq] at hvalid
  omega

theorem allOrNothing_iff (hs : World.Sound X True ⟨e, none⟩) (fills : List LegFill) (ts : Int) :
    e.AllOrNothing X fills ts ↔ (fills.all (e.impliedFillValid X) = true → e.Bears fills) := by
  have hs₀ : World.Sound X False ⟨e, none⟩ := .land ((hs.holds_none rfl).mono False.elim)
  by_cases hvalid : fills.all (e.impliedFillValid X) = true
  · rw [forall_prop_of_true hvalid]
    have hcall : e.applyImpliedFills X fills ts =
        (e.applyImpliedLegs X ts fills).map fun e => (true, e.fireTopOfBook ts) := by
      simp only [applyImpliedFills, hvalid, if_true]
      cases e.applyImpliedLegs X ts fills <;> rfl
    constructor
    · intro h
      cases hlegs : e.applyImpliedLegs X ts fills with
      | error err => simp [AllOrNothing, hcall, hlegs, Except.map] at h
      | ok e₁ =>
        obtain hbad | ⟨e', he', -, hnonneg, -⟩ := h
        · simp [hcall, hlegs, Except.map] at hbad
        · rw [hcall, hlegs] at he'
          obtain rfl := (Prod.mk.inj (Except.ok.inj he')).2
          exact bears_of_ends hs₀ (fillQty_pos hvalid) hlegs hnonneg
    · intro hb
      obtain ⟨e₁, hlegs, hs₁⟩ := applyImpliedLegs_ends ts hs (fillQty_pos hvalid) hb
      have hdone := (applyImpliedLegs_done hs₀ hlegs).2
      have hfills : (e₁.fireTopOfBook ts).fills = e₁.fills := by
        rw [fills_tape, tape_fireTopOfBook, filterMap_append, ← fills_tape]
        simp [JournalEntry.fill?]
      have hH : (e₁.fireTopOfBook ts).holdings.Sound X True [] := hs₁.holds_none rfl
      refine .inr ⟨e₁.fireTopOfBook ts, ?_, ⟨hdone.orders, hdone.stands, ?_⟩, fun o ho => ?_,
        wellShaped_of_sound hH, accounted_of_sound hH⟩
      · rw [hcall, hlegs]
        rfl
      · rw [hfills, hdone.fills]
      · obtain ⟨k, s, hks⟩ := mem_linked.mp ho
        exact (hH.remaining_pos hks trivial).le
  · exact iff_of_true (.inl (by simp [applyImpliedFills, hvalid])) fun h => (hvalid h).elim

/-- Batches that the state bears, and the operations the analysis covers. -/
def Engine.measured (X : Exchange D) (e : Engine D) : Action → Prop
  | .applyImpliedFills fills _ => fills.all (e.impliedFillValid X) = true → e.Bears fills
  | a => e.Admits True False a

theorem perform_measured {fuel : Nat} {a : Action} (hs : World.Sound X True ⟨e, none⟩)
    (ha : e.measured X a) (h : e.perform X fuel a = .ok e') : World.Sound X True ⟨e', none⟩ := by
  have hadmits : e.Admits True False a → World.Sound X True ⟨e', none⟩ := fun hadm => by
    have hrun := perform_run fuel hs False.elim False.elim hadm
    rw [h] at hrun
    exact OpRun.sound hrun hs
  cases a with
  | applyImpliedFills fills ts =>
    have hs₁ : World.Sound X True ⟨e.record (.applyImpliedFills fills ts), none⟩ :=
      .land (hs.holds_none rfl)
    change ((e.record _).applyImpliedFills X fills ts).map (·.2) = .ok e' at h
    unfold applyImpliedFills at h
    split at h
    next hvalid =>
      have hb : (e.record (.applyImpliedFills fills ts)).Bears fills := by
        refine ha ?_
        rwa [funext (impliedFillValid_record (.applyImpliedFills fills ts) e)] at hvalid
      obtain ⟨e₁, hlegs, hs₂⟩ := applyImpliedLegs_ends ts hs₁ (fillQty_pos hvalid) hb
      rw [hlegs] at h
      obtain rfl : e₁.fireTopOfBook ts = e' := Except.ok.inj h
      exact .land (hs₂.holds_none rfl)
    next =>
      obtain rfl : e.record _ = e' := Except.ok.inj h
      exact hs₁
  | _ => exact hadmits ha

/-- Along runs whose batches fit the state they meet, a further batch is applied as a whole or
refused exactly when it fits as well. -/
theorem reach_allOrNothing_iff (X : Exchange D) (config : EngineConfig) (derived : D)
    (slots : Nat → SlotResidue) {e : Engine D}
    (h : Reach X (Engine.measured X) (Engine.init X config derived slots) e)
    (fills : List LegFill) (ts : Int) :
    (e.WellShaped ∧ e.Accounted X) ∧
      (e.AllOrNothing X fills ts ↔
        (fills.all (e.impliedFillValid X) = true → e.Bears fills)) := by
  have hs : World.Sound X True ⟨e, none⟩ := by
    induction h with
    | start => exact init_sound X True config derived slots
    | step _ hok hperf ih => exact perform_measured ih hok hperf
  have hH := hs.holds_none rfl
  exact ⟨⟨wellShaped_of_sound hH, accounted_of_sound hH⟩, allOrNothing_iff hs fills ts⟩

theorem bears_of_distinct (hs : World.Sound X w ⟨e, none⟩)
    (hvalid : fills.all (e.impliedFillValid X) = true) (hdistinct : (fills.map (·.orderId)).Nodup)
    (hstops : ∀ f ∈ fills, ∀ s, ∀ o ∈ ordersIn (e.stopBook s), o.id ≠ f.orderId) :
    e.Bears fills := by
  rintro A f B rfl
  have hf := all_eq_true.mp hvalid f (by simp)
  simp only [impliedFillValid, Bool.and_eq_true, decide_eq_true_eq] at hf
  cases hindexed : e.indexed f.orderId with
  | error err => simp [hindexed] at hf
  | ok o =>
    have hnone : legsOf f.orderId A = [] := by
      rw [map_append, List.map_cons] at hdistinct
      rw [legsOf, map_eq_nil_iff, filter_eq_nil_iff]
      intro g hg hid
      have hout := (List.nodup_cons.mp (nodup_middle.mp hdistinct)).1
      exact hout (mem_append_left _ (mem_map.mpr ⟨g, hg, by simpa using hid⟩))
    refine ⟨o, ?_, by simpa [hindexed] using hf.2, fun _ price hst => ?_⟩
    · rw [hnone]
      exact (indexed_iff hs).mp hindexed
    · obtain ⟨⟨l, hl, -, hhas⟩, -⟩ := hst
      obtain ⟨x, hx, hid⟩ := has_iff.mp hhas
      have ho : o.id = f.orderId := by
        simpa using find?_some ((indexed_iff hs).mp hindexed)
      exact (hstops f (by simp) o.side x (mem_ordersIn.mpr ⟨l, hl, hx⟩) (hid.trans ho)).elim

def twoOffers : Engine Unit :=
  runAll sampleExchange [.newOrder (limitRequest .sell 100 10), .newOrder (limitRequest .sell 101 8)]
    (sampleStart sampleExchange sampleConfig ())

theorem twoOffers_reach : Reach sampleExchange (measured sampleExchange)
    (sampleStart sampleExchange sampleConfig ()) twoOffers :=
  reach_runAll (by simp [measured, Admits]) (by decide +kernel)

/-- Each of two legs of 6 fits an offer of 10; together they take it to minus 2. -/
theorem overfilled_not_allOrNothing :
    Reach sampleExchange (Engine.measured sampleExchange)
      (sampleStart sampleExchange sampleConfig ()) twoOffers ∧
    (∃ e', twoOffers.applyImpliedFills sampleExchange [⟨1, 100, 6⟩, ⟨1, 100, 6⟩] 2 = .ok (true, e') ∧
      e'.linked.map (fun o => (o.id, o.remainingQuantity)) = [(1, -2), (2, 8)]) ∧
    ¬twoOffers.AllOrNothing sampleExchange [⟨1, 100, 6⟩, ⟨1, 100, 6⟩] 2 := by
  have hcall : ∃ e', twoOffers.applyImpliedFills sampleExchange [⟨1, 100, 6⟩, ⟨1, 100, 6⟩] 2 =
      .ok (true, e') ∧ e'.linked.map (fun o => (o.id, o.remainingQuantity)) = [(1, -2), (2, 8)] := by
    have heval : (match twoOffers.applyImpliedFills sampleExchange [⟨1, 100, 6⟩, ⟨1, 100, 6⟩] 2 with
        | .error _ => false
        | .ok r => r.1 && r.2.linked.map (fun o => (o.id, o.remainingQuantity)) ==
            [(1, -2), (2, 8)]) = true := by decide +kernel
    rcases hr : twoOffers.applyImpliedFills sampleExchange [⟨1, 100, 6⟩, ⟨1, 100, 6⟩] 2 with
      err | ⟨flag, e'⟩
    · simp [hr] at heval
    · simp only [hr, Bool.and_eq_true, beq_iff_eq] at heval
      exact ⟨e', by rw [heval.1], heval.2⟩
  refine ⟨twoOffers_reach, hcall, fun hall => ?_⟩
  obtain ⟨e', hret, hleft⟩ := hcall
  obtain hfalse | ⟨e₁, htrue, -, hnonneg, -⟩ := hall
  · rw [hret] at hfalse
    simp at hfalse
  · obtain rfl : e' = e₁ := (Prod.mk.inj (Except.ok.inj (hret.symm.trans htrue))).2
    have hmem : ((1, -2) : Nat × Int) ∈ e'.linked.map fun o => (o.id, o.remainingQuantity) := by
      simp [hleft]
    obtain ⟨o, ho, heq⟩ := mem_map.mp hmem
    have hrem : o.remainingQuantity = -2 := (Prod.mk.inj heq).2
    have := hnonneg o ho
    omega

/-- One leg on each offer. -/
theorem reach_allOrNothing_sample :
    Reach sampleExchange (Engine.measured sampleExchange)
      (sampleStart sampleExchange sampleConfig ()) twoOffers ∧
    twoOffers.AllOrNothing sampleExchange [⟨1, 100, 10⟩, ⟨2, 101, 3⟩] 2 := by
  have hreach : Reach sampleExchange (measured sampleExchange)
      (sampleStart sampleExchange sampleConfig ()) twoOffers := twoOffers_reach
  refine ⟨hreach, ((reach_allOrNothing_iff sampleExchange sampleConfig () (fun _ => {}) hreach
    [⟨1, 100, 10⟩, ⟨2, 101, 3⟩] 2).2).mpr fun hvalid => ?_⟩
  have hs : World.Sound sampleExchange True ⟨twoOffers, none⟩ :=
    sampleRun_sound (by simp [Admits]) (by decide +kernel)
  have hstops : ∀ s, ordersIn (twoOffers.stopBook s) = [] := by
    intro s
    cases s <;> decide +kernel
  exact bears_of_distinct hs hvalid (by decide) fun f _ s => by simp [hstops s]

end ExchangeSim
