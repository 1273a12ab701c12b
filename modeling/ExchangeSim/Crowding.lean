import ExchangeSim.MoveOrders
import ExchangeSim.Reachable
import Mathlib.Data.Set.Card

/-!
How many orders can stand at one price. An order that is not at its price yet may come to it:
the one in flight, and a stop-limit order that waits for its trigger.
-/

namespace ExchangeSim

open Engine List Function Option JournalEntry Move

variable {D : Type} {X : Exchange D} {w c : Prop} {W : World D} {k : ℕ∞} {e : Engine D} {m : Move D}
  {a : Action} {P : Order → Prop} {s : Side} {req : OrderRequest} {l : PriceLevel} {W' : World D}
  {n : Nat}

/-- The order comes to rest at its own price, if it does. -/
def Order.priced (o : Order) : Bool :=
  decide (o.type = .limit) || decide (o.type = .stopLimit)

def Order.Claims (s : Side) (price : Int) (o : Order) : Prop :=
  o.priced = true ∧ o.side = s ∧ o.price = price

instance (s : Side) (price : Int) : DecidablePred (Order.Claims s price) :=
  fun _ => inferInstanceAs (Decidable (_ ∧ _ ∧ _))

def claimants (v : Nat → Option Order) (P : Order → Prop) : Set Nat :=
  { id | ∃ o, v id = some o ∧ P o }

def World.Uncrowded (k : ℕ∞) (W : World D) : Prop :=
  ∀ s price, (claimants W.view (Order.Claims s price)).encard ≤ k

section table

variable {v : Nat → Option Order} {P : Order → Prop}

theorem claimants_update {o' : Option Order} {id : Nat}
    (h : ∀ x ∈ o', P x → ∃ o, v id = some o ∧ P o) :
    claimants (update v id o') P ⊆ claimants v P := by
  rintro j ⟨x, hx, hclaims⟩
  by_cases hj : j = id
  · subst hj
    rw [Function.update_self] at hx
    exact h x hx hclaims
  · rw [Function.update_of_ne hj] at hx
    exact ⟨x, hx, hclaims⟩

theorem claimants_erase (id : Nat) :
    claimants (update v id none) P ⊆ claimants v P :=
  claimants_update (by simp)

theorem claimants_insert (id : Nat) (o' : Option Order) :
    claimants (update v id o') P ⊆ insert id (claimants v P) := by
  rintro j ⟨x, hx, hclaims⟩
  by_cases hj : j = id
  · exact .inl hj
  · rw [Function.update_of_ne hj] at hx
    exact .inr ⟨x, hx, hclaims⟩

end table

def OfStanding (P : Order → Prop) : Prop :=
  ∀ {o o' : Order}, P o' → o'.type = o.type → o'.side = o.side → o'.price = o.price → P o

theorem OfStanding.of_settled (hP : OfStanding P) {o x : Order} {q : Int}
    (hx : o.settled q = some x) (h : P x) : P o := by
  unfold Order.settled at hx
  split at hx
  · split at hx
    · obtain rfl := some.inj hx
      exact hP h rfl rfl rfl
    · simp at hx
  · obtain rfl := some.inj hx
    exact hP h rfl rfl rfl

theorem Order.Claims.ofStanding (s : Side) (price : Int) : OfStanding (Order.Claims s price) := by
  rintro o o' ⟨hp, hs, hq⟩ htype hside hprice
  exact ⟨by simpa [Order.priced, htype] using hp, hside ▸ hs, hprice ▸ hq⟩

theorem Order.Claims.of_triggered {price : Int} {stop : Order} (hstop : stop.type.isStop = true)
    (h : stop.triggered.Claims s price) : stop.Claims s price := by
  unfold Order.triggered at h
  split at h
  · simp [Order.Claims, Order.priced] at h
  next hne =>
    refine ⟨?_, h.2.1, h.2.2⟩
    cases htype : stop.type <;> simp [htype, OrderType.isStop, Order.priced] at hstop hne ⊢

def Move.settled : Move D → Bool
  | .accept .. => false
  | .pull .. => false
  | _ => true

theorem claimants_run (hP : OfStanding P)
    (htrig : ∀ stop : Order, stop.type.isStop = true → P stop.triggered → P stop) (h : W.Sound X w)
    (hg : m.guard X W) (hm : m.settled = true) :
    claimants (m.run X W).view P ⊆ claimants W.view P := by
  rw [h.view_run hg]
  cases m with
  | accept | pull => simp [settled] at hm
  | adjust order remaining =>
    refine claimants_update fun x hx hclaims => ⟨order, h.view_flight hg, ?_⟩
    obtain rfl := some.inj hx
    exact hP hclaims rfl rfl rfl
  | fill ts order resting f left reported =>
    obtain ⟨hfl, hmeets⟩ := hg
    have hrest := (h.rests_of_meets hmeets).1
    have hside := (h.rests_of_meets hmeets).2.1
    have hne : order.id ≠ resting.id := World.id_ne (h.view_flight hfl) (h.view_rests hrest)
      (by rw [hside]; exact order.side.opposite_ne.symm)
    refine (claimants_update fun x hx hclaims => ⟨order, ?_, ?_⟩).trans
      (claimants_update fun x hx hclaims =>
        ⟨resting, h.view_rests hrest, hP.of_settled hx hclaims⟩)
    · rw [Function.update_of_ne hne]
      exact h.view_flight hfl
    · obtain rfl := some.inj hx
      exact hP hclaims rfl rfl rfl
  | cancelResting | drop | finish | cancel | cancelStop => exact claimants_erase _
  | rest | park =>
    simp only [write]
    split
    · exact claimants_erase _
    · exact subset_rfl
  | trigger stop =>
    obtain ⟨hfl, -, hnext⟩ := hg
    have hwait := nextTriggeredStop_waits (h.holds_none hfl) hnext
    refine claimants_update fun x hx hclaims => ⟨stop, h.view_waits hwait, ?_⟩
    obtain rfl := some.inj hx
    exact htrig stop (type_of_waits (h.holds_none hfl) hwait) hclaims
  | amend order req =>
    refine claimants_update fun x hx hclaims => ⟨order, h.view_rests hg.2.1, ?_⟩
    obtain rfl := some.inj hx
    exact hP hclaims rfl rfl rfl
  | cross price ts bid ask q =>
    obtain ⟨-, hbid, hbuy, -, hask, hsell, -⟩ := hg
    have hne : ask.id ≠ bid.id :=
      World.id_ne (h.view_rests hask) (h.view_rests hbid) (by simp [hbuy, hsell])
    refine (claimants_update fun x hx hclaims => ⟨ask, ?_, hP.of_settled hx hclaims⟩).trans
      (claimants_update fun x hx hclaims => ⟨bid, h.view_rests hbid, hP.of_settled hx hclaims⟩)
    rw [Function.update_of_ne hne]
    exact h.view_rests hask
  | unfill order q =>
    have hview : W.view order.id = some order := hg.2.elim h.view_rests h.view_waits
    refine claimants_update fun x hx hclaims => ⟨order, hview, ?_⟩
    obtain rfl := some.inj hx
    exact hP hclaims rfl rfl rfl
  | note | markBusted | bust | topOfBook | session | reference | hook => exact subset_rfl

theorem encard_claimants (hs : W.Sound X w) (P : Order → Prop) [DecidablePred P] :
    (claimants W.view P).encard =
      ((W.flight.toList ++ W.engine.holdings.orders).filter P).length := by
  let os := (W.flight.toList ++ W.engine.holdings.orders).filter P
  have hnodup : (os.map (·.id)).Nodup := (filter_sublist.map _).nodup hs.nodup
  have heq : claimants W.view P = ((os.map (·.id)).toFinset : Set Nat) := by
    ext id
    simp only [claimants, World.view, byId_eq_some hs.nodup, Set.mem_ofPred_eq, coe_toFinset,
      List.mem_map, os, List.mem_filter, decide_eq_true_eq]
    constructor
    · rintro ⟨o, ⟨ho, hid⟩, hP⟩
      exact ⟨o, ⟨ho, hP⟩, hid⟩
    · rintro ⟨o, ⟨ho, hP⟩, hid⟩
      exact ⟨o, ⟨ho, hid⟩, hP⟩
  rw [heq, Set.encard_coe_eq_coe_finsetCard, toFinset_card_of_nodup hnodup, length_map]

theorem length_le_claimants (hs : W.Sound X w) (hl : l ∈ W.engine.book s)
    (hP : ∀ o ∈ l.orders, o.type = .limit ∧ o.side = s ∧ o.price = l.price → P o) :
    (l.orders.length : ℕ∞) ≤ (claimants W.view P).encard := by
  have hfits := ((hs.holds.shape .limit s).sound l hl).fits
  have hnodup : (l.orders.map (·.id)).Nodup := by
    have hside := hs.holds.nodup .limit s
    obtain ⟨A, B, hsplit⟩ := append_of_mem hl
    rw [show W.engine.holdings.lvls .limit s = A ++ l :: B from hsplit] at hside
    simp only [idsIn, ordersIn_append, ordersIn_cons, map_append] at hside
    exact (List.nodup_append.mp (List.nodup_append.mp hside).2.1).1
  have hsub : ((l.orders.map (·.id)).toFinset : Set Nat) ⊆ claimants W.view P := by
    intro id hid
    obtain ⟨o, ho, rfl⟩ := mem_map.mp (mem_toFinset.mp hid)
    obtain ⟨hside, htype, hprice⟩ := hfits o ho
    have hrest : W.engine.rests o := by
      rw [rests, hside]
      exact mem_ordersIn.mpr ⟨l, hl, ho⟩
    exact ⟨o, hs.view_rests hrest, hP o ho ⟨htype, hside, hprice⟩⟩
  have hcard := Set.encard_le_encard hsub
  rwa [Set.encard_coe_eq_coe_finsetCard, toFinset_card_of_nodup hnodup,
    length_map] at hcard

namespace World.Uncrowded

theorem of_subset (h : W.Uncrowded k)
    (hsub : ∀ s price, claimants W'.view (Order.Claims s price) ⊆
      claimants W.view (Order.Claims s price)) : W'.Uncrowded k :=
  fun s price => (Set.encard_le_encard (hsub s price)).trans (h s price)

theorem run (h : W.Uncrowded k) (hs : W.Sound X w) (hg : m.guard X W) (hm : m.settled = true) :
    (m.run X W).Uncrowded k :=
  h.of_subset fun s price => claimants_run (Order.Claims.ofStanding s price)
    (fun _ => Order.Claims.of_triggered) hs hg hm

theorem along {P : Move D → Bool} (hP : ∀ m : Move D, P m = true → m.settled = true)
    (h : W.Uncrowded k) (hs : W.Sound X w) (hrun : OpRun X w c P W W') : W'.Uncrowded k :=
  hrun.invariant hs h fun m _ hV hI hg _ hp => hI.run hV hg (hP m hp)

theorem top (W : World D) : W.Uncrowded ⊤ := fun _ _ => le_top

theorem of_count (hs : W.Sound X w) (h : ∀ o ∈ W.flight.toList ++ W.engine.holdings.orders,
      ((W.flight.toList ++ W.engine.holdings.orders).filter (Order.Claims o.side o.price)).length ≤ n) :
    W.Uncrowded n := by
  intro s price
  rw [encard_claimants hs]
  norm_cast
  rcases hos : (W.flight.toList ++ W.engine.holdings.orders).filter (Order.Claims s price) with
    _ | ⟨o, os⟩
  · simp [hos]
  · have ho := mem_filter.mp (hos ▸ mem_cons_self : o ∈ filter _ _)
    obtain ⟨-, rfl, rfl⟩ : o.Claims s price := by simpa using ho.2
    exact hos ▸ h o ho.1

theorem level_length (h : W.Uncrowded k) (hs : W.Sound X w) (hl : l ∈ W.engine.book s) :
    (l.orders.length : ℕ∞) ≤ k := by
  refine (length_le_claimants hs hl fun o _ ho => ?_).trans (h s l.price)
  obtain ⟨htype, hside, hprice⟩ := ho
  exact ⟨by simp [Order.priced, htype], hside, hprice⟩

end World.Uncrowded

theorem Move.settled_of_routed (hm : m.routed = true) : m.settled = true := by
  cases m <;> simp [routed, landing, matching] at hm <;> rfl

theorem pass_uncrowded {ts : Int} {o o' : Order} {level : PriceLevel} {deeper : List PriceLevel}
    (h : World.Uncrowded k ⟨e, some o⟩) (hs : World.Sound X w ⟨e, some o⟩)
    (hturn : e.Turn o level deeper) (hent : o.Entered)
    (hpass : e.pass X ts o level deeper = .ok (some o', e')) : World.Uncrowded k ⟨e', some o'⟩ :=
  h.along (fun _ hm => Move.settled_of_routed (Move.routed_of_landing hm)) hs
    ((pass_ok (c := False) hs hturn hent hpass).1.toOpRun fun _ => id)

theorem results_length_le {o : Order} {level : PriceLevel} {deeper : List PriceLevel}
    (h : World.Uncrowded k ⟨e, some o⟩) (hX : X.algo.Writes n) (hs : World.Sound X w ⟨e, some o⟩)
    (hturn : e.Turn o level deeper) :
    ((X.algo.matchLevel level o.remainingQuantity).results.length : ℕ∞) ≤ k + n := by
  have hlen := h.level_length hs (s := o.side.opposite) (l := level) (by simp [hturn.book])
  have hwrites := hX level o.remainingQuantity (best_level hs hturn.book).1
  calc _ ≤ ((level.orders.length + n : Nat) : ℕ∞) := by exact_mod_cast hwrites
    _ ≤ k + n := by
      exact add_le_add_left hlen _

theorem Move.settled_of_partOf (ha : a.entering = false) (hm : m.partOf a = true) :
    m.settled = true := by
  cases a <;> simp [Action.entering] at ha <;> cases m <;> first
    | rfl
    | simp [partOf] at hm

/-- There is room for one more order at the price of an order that comes in, and an order that is
modified rests in the limit book and is left no less than is filled. -/
def Engine.roomy (k : ℕ∞) (e : Engine D) : Action → Prop
  | .newOrder req => req.type = .limit ∨ req.type = .stopLimit →
    (insert e.nextOrderId (claimants (World.view ⟨e, none⟩) (Order.Claims req.side req.price))).encard ≤ k
  | .modifyOrder req => ∀ order ∈ e.linked, order.id = req.orderId →
    (e.rests order ∧ order.filledQuantity ≤ req.newQuantity) ∧
      (insert order.id (claimants (World.view ⟨e, none⟩)
        (Order.Claims order.side req.newPrice))).encard ≤ k
  | a => e.Admits True False a

theorem Engine.roomy.admits (h : e.roomy k a) : e.Admits True False a := by
  cases a with
  | newOrder req => trivial
  | modifyOrder req => exact fun order ho hid => ⟨(h order ho hid).1.1, fun _ => (h order ho hid).1.2⟩
  | _ => exact h

theorem Engine.Admits.roomy_top (h : e.Admits True False a) : e.roomy ⊤ a := by
  cases a with
  | newOrder req => exact fun _ => le_top
  | modifyOrder req =>
    exact fun order ho hid => ⟨⟨(h order ho hid).1, (h order ho hid).2 trivial⟩, le_top⟩
  | _ => exact h

theorem roomy_of_count (hs : World.Sound X w ⟨e, none⟩)
    (h : (e.holdings.orders.filter (Order.Claims req.side req.price)).length + 1 ≤ n) :
    e.roomy n (.newOrder req) := by
  intro _
  refine (Set.encard_insert_le _ _).trans ?_
  rw [encard_claimants hs]
  exact_mod_cast h

def Move.unmatched : Move D → Bool
  | .fill .. => false
  | .cross .. => false
  | _ => true

def Engine.Opens (X : Exchange D) (e : Engine D) (order : Order) : Action → Prop
  | .newOrder req => ∃ slot, order = e.buildOrder X req slot
  | .modifyOrder req => ∃ o ∈ e.linked, o.id = req.orderId ∧ order = o.replaced req
  | _ => False

structure Engine.Brings (X : Exchange D) (k : ℕ∞) (a : Action) (e e₁ : Engine D) (order : Order) :
    Prop where
  run : OpRun X True False Move.unmatched ⟨e, none⟩ ⟨e₁, some order⟩
  uncrowded : World.Uncrowded k ⟨e₁, some order⟩
  entered : order.Entered
  opens : e.Opens X order a
  stops : e₁.stopBook = e.stopBook

/-- What an operation comes to before an order is matched in it, if it comes to that. -/
def Engine.Admitted (X : Exchange D) (k : ℕ∞) (a : Action) (fuel : Nat) (e : Engine D)
    (r : Outcome D (Engine D)) : Prop :=
  (∃ e', r = .ok e' ∧ OpRun X True False Move.unmatched ⟨e, none⟩ ⟨e', none⟩ ∧
    World.Uncrowded k ⟨e', none⟩) ∨
  ∃ e₁ order ts, r = e₁.matchAndTrigger X fuel order ts ∧ e.Brings X k a e₁ order

theorem note_unmatched (t : RateTracker) (entries : List JournalEntry)
    (hq : ∀ x ∈ entries, x.quiet = true) (e : Engine D) (fl : Option Order) :
    OpRun X True False unmatched ⟨e, fl⟩
      ⟨{ e with rateTracker := t, journal := e.journal ++ entries }, fl⟩ :=
  note_run (fun _ _ => rfl) e fl t entries hq

theorem record_unmatched (a : Action) (e : Engine D) (t : RateTracker) (es : List JournalEntry)
    (hes : ∀ x ∈ es, x.quiet = true) : OpRun X True False unmatched ⟨e, none⟩
      ⟨{ e.record a with rateTracker := t, journal := (e.record a).journal ++ es }, none⟩ := by
  have hnote := note_unmatched (X := X) e.rateTracker [.action a] (by simp [quiet]) e none
  exact Machine.Run.trans hnote (note_unmatched t es hes (e.record a) none)

theorem routeOrder_admitted (fuel : Nat) {order : Order} (hs : World.Sound X True ⟨e, some order⟩)
    (hu : World.Uncrowded k ⟨e, some order⟩) (htype : order.type = req.type)
    (hprice : order.type = .stop → order.price = req.stopPrice)
    (hpos : order.remainingQuantity ≠ 0) :
    (∃ e', e.routeOrder X fuel req order = .ok e' ∧
      OpRun X True False unmatched ⟨e, some order⟩ ⟨e', none⟩ ∧
      World.Uncrowded k ⟨e', none⟩) ∨
    (e.routeOrder X fuel req order = e.matchAndTrigger X fuel order req.timestamp ∧
      order.Entered) := by
  have hlands : ∀ {m : Move D} {e' : Engine D}, m.guard X ⟨e, some order⟩ → m.settled = true →
      m.run X ⟨e, some order⟩ = ⟨e', none⟩ → World.Uncrowded k ⟨e', none⟩ := by
    intro m e' hg hm hrun
    rw [← hrun]
    exact hu.run hs hg hm
  unfold routeOrder
  split
  next hstop =>
    have hguard : guard X (.park order req.stopPrice) ⟨e, some order⟩ :=
      ⟨rfl, by rw [htype]; exact hstop, hprice, hpos⟩
    have hrun : OpRun X True False unmatched ⟨e, some order⟩
        ⟨e.insertIntoStopBook order req.stopPrice, none⟩ :=
      OpRun.step (.park order req.stopPrice) hguard (fun _ => trivial) (fun _ => rfl) trivial rfl
    exact .inl ⟨e.insertIntoStopBook order req.stopPrice, rfl, hrun, hlands hguard rfl rfl⟩
  next hstop =>
    split
    next hphase =>
      split
      next hlimit =>
        have hguard : guard X (.rest order req.timestamp) ⟨e, some order⟩ :=
          ⟨rfl, htype.trans hlimit, hpos⟩
        have hrun : OpRun X True False unmatched ⟨e, some order⟩
            ⟨e.insertIntoBook order req.timestamp, none⟩ :=
          OpRun.step (.rest order req.timestamp) hguard (fun _ => trivial) (fun _ => rfl)
            (.inl hphase) rfl
        have hroom : World.Uncrowded k ⟨e.insertIntoBook order req.timestamp, none⟩ :=
          hlands hguard rfl rfl
        have htop : OpRun X True False unmatched ⟨e.insertIntoBook order req.timestamp, none⟩
            ⟨(e.insertIntoBook order req.timestamp).fireTopOfBook req.timestamp, none⟩ :=
          OpRun.step (.topOfBook req.timestamp) trivial (fun _ => trivial) (fun _ => rfl) trivial rfl
        exact .inl ⟨_, rfl, Machine.Run.trans hrun htop, hroom⟩
      next =>
        have hguard : guard X (.drop order req.timestamp .iocRemainder) ⟨e, some order⟩ := rfl
        have hrun : OpRun X True False unmatched ⟨e, some order⟩
            ⟨e.dropOrder order req.timestamp .iocRemainder, none⟩ :=
          OpRun.step (.drop order req.timestamp .iocRemainder) hguard (fun _ => trivial)
            (fun _ => rfl) trivial rfl
        exact .inl ⟨e.dropOrder order req.timestamp .iocRemainder, rfl, hrun,
          hlands hguard rfl rfl⟩
    next =>
      cases ht : req.type <;> simp [Order.Entered, htype, ht, OrderType.isStop] at hstop ⊢

theorem newOrder_admitted (fuel : Nat) (hs : World.Sound X True ⟨e, none⟩)
    (hu : World.Uncrowded k ⟨e, none⟩) (hok : e.roomy k (.newOrder req)) :
    e.Admitted X k (.newOrder req) fuel (e.perform X fuel (.newOrder req)) := by
  let a : Action := .newOrder req
  change e.Admitted X k a fuel ((e.record a).newOrder X fuel req)
  have hrec := record_unmatched (X := X) a e
  rcases newOrder_cases fuel req (e.record a) with
    ⟨t, reason, heq⟩ | ⟨t, slot, pool, hpool, hchecks, heq⟩
  · have hrun := hrec t [.event (.orderRejected req.clientOrderId req.timestamp reason)]
      (by simp [quiet])
    exact .inl ⟨_, heq, hrun, hu⟩
  · let e₀ : Engine D := { e.record a with rateTracker := t }
    let order := e.buildOrder X req slot
    let e₁ : Engine D := e₀.acceptOrder order pool req.timestamp
    have hrate : OpRun X True False unmatched ⟨e, none⟩ ⟨e₀, none⟩ := by
      simpa using hrec t [] (by simp)
    have hguard : guard X (.accept req slot pool) ⟨e₀, none⟩ :=
      ⟨rfl, hpool, hchecks, currentAction_record a e⟩
    have haccept : OpRun X True False unmatched ⟨e, none⟩ ⟨e₁, some order⟩ :=
      Machine.Run.trans hrate (OpRun.step (.accept req slot pool) hguard (fun _ => trivial)
        (fun _ => rfl) trivial rfl)
    have hroom : World.Uncrowded k ⟨e₁, some order⟩ := by
      intro s price
      rw [show World.view ⟨e₁, some order⟩ = update (World.view ⟨e, none⟩) e.nextOrderId
        (some order) from (OpRun.sound hrate hs).view_run hguard]
      by_cases hclaims : order.Claims s price
      · obtain ⟨hpriced, rfl, rfl⟩ := hclaims
        have htype : req.type = .limit ∨ req.type = .stopLimit := by
          simpa [order, buildOrder, Order.priced] using hpriced
        have hprice : order.price = req.price := by
          rcases htype with ht | ht <;> simp [order, buildOrder, ht]
        rw [hprice]
        exact (Set.encard_le_encard (claimants_insert _ _)).trans (hok htype)
      · refine (Set.encard_le_encard (claimants_update fun x hx hx' => ?_)).trans (hu s price)
        exact (hclaims (some.inj hx ▸ hx')).elim
    have hs₁ := OpRun.sound haccept hs
    have hpos : order.remainingQuantity ≠ 0 := (buildOrder_remaining_pos slot hchecks).ne'
    rw [heq]
    rcases routeOrder_admitted fuel hs₁ hroom rfl (buildOrder_price_of_stop slot) hpos with
      ⟨e', hroute, hrun, hroom'⟩ | ⟨hroute, hentered⟩
    · exact .inl ⟨e', hroute, Machine.Run.trans haccept hrun, hroom'⟩
    · exact .inr ⟨e₁, order, req.timestamp, hroute, haccept, hroom, hentered, ⟨slot, rfl⟩, rfl⟩

theorem modifyOrder_admitted (fuel : Nat) {req : ModifyRequest} (hs : World.Sound X True ⟨e, none⟩)
    (hu : World.Uncrowded k ⟨e, none⟩) (hok : e.roomy k (.modifyOrder req)) :
    e.Admitted X k (.modifyOrder req) fuel (e.perform X fuel (.modifyOrder req)) := by
  let a : Action := .modifyOrder req
  change e.Admitted X k a fuel ((e.record a).modifyOrder X fuel req)
  have hrec := record_unmatched (X := X) a e
  have hH : (e.record a).holdings.Sound X True [] := hs.holds_none rfl
  rcases modifyOrder_cases fuel req hH with
    ⟨t, reason, heq⟩ | ⟨t, order, hmem, hid, ⟨hamend, heq⟩ | ⟨-, heq⟩⟩
  · have hrun := hrec t
      [.event (.orderModifyRejected req.orderId req.clientOrderId req.timestamp reason)]
      (by simp [quiet])
    exact .inl ⟨_, heq, hrun, hu⟩
  · obtain ⟨⟨hrest, -⟩, -⟩ := hok order hmem hid
    have hrate : OpRun X True False unmatched ⟨e, none⟩
        ⟨{ e.record a with rateTracker := t }, none⟩ := by
      simpa using hrec t [] (by simp)
    have hguard := guard_amend hamend hrest t
    have hroom : World.Uncrowded k ⟨{ e.record a with rateTracker := t }, none⟩ := hu
    have hrun : OpRun X True False unmatched ⟨{ e.record a with rateTracker := t }, none⟩
        ⟨({ e.record a with rateTracker := t } : Engine D).amendOrder order req, none⟩ :=
      OpRun.step (.amend order req) hguard (fun _ => trivial) (fun _ => rfl) trivial rfl
    have hroom' : World.Uncrowded k
        ⟨({ e.record a with rateTracker := t } : Engine D).amendOrder order req, none⟩ :=
      hroom.run (m := .amend order req) (OpRun.sound hrate hs) hguard rfl
    exact .inl ⟨_, heq, Machine.Run.trans hrate hrun, hroom'⟩
  · obtain ⟨⟨hrest, hfilled⟩, hroomy⟩ := hok order hmem hid
    let e₀ : Engine D := { e.record a with rateTracker := t }
    have hrate : OpRun X True False unmatched ⟨e, none⟩ ⟨e₀, none⟩ := by
      simpa using hrec t [] (by simp)
    have hrest₀ : e₀.rests order := hrest
    have hguard : guard X (.pull order req) ⟨e₀, none⟩ := ⟨rfl, hrest₀⟩
    let e₁ : Engine D := (e₀.removeOrder order).2.reportPull order req (e₀.removeOrder order).1
    have hpull : OpRun X True False unmatched ⟨e, none⟩ ⟨e₁, some (order.replaced req)⟩ :=
      Machine.Run.trans hrate (OpRun.step (.pull order req) hguard (fun _ => hfilled)
        (fun _ => rfl) trivial rfl)
    have hroom : World.Uncrowded k ⟨e₁, some (order.replaced req)⟩ := by
      intro s price
      rw [show World.view ⟨e₁, some (order.replaced req)⟩ = update
        (World.view ⟨e, none⟩) order.id (some (order.replaced req)) from
        (OpRun.sound hrate hs).view_run hguard]
      by_cases hclaims : (order.replaced req).Claims s price
      · obtain ⟨-, rfl, rfl⟩ := hclaims
        exact (Set.encard_le_encard (claimants_insert _ _)).trans hroomy
      · refine (Set.encard_le_encard (claimants_update fun x hx hx' => ?_)).trans (hu s price)
        exact (hclaims (some.inj hx ▸ hx')).elim
    rw [heq, replaceOrder_eq fuel hrest₀]
    have hheld : e₁.holdings = e₀.holdings.takeOut .limit order := by
      rw [holdings_reportPull, holdings_removeOrder]
    have hstop : e₁.holdings.lvls .stop = e₀.holdings.lvls .stop := by
      rw [hheld]
      simp [Holdings.takeOut, Holdings.set]
    have htype : order.type = .limit := type_of_rests hH hrest
    exact .inr ⟨e₁, order.replaced req, req.timestamp, rfl, hpull, hroom, .inl htype,
      ⟨order, hmem, hid, rfl⟩, hstop⟩

theorem entering_admitted (fuel : Nat) (ha : a.entering = true) (hs : World.Sound X True ⟨e, none⟩)
    (hu : World.Uncrowded k ⟨e, none⟩) (hok : e.roomy k a) :
    e.Admitted X k a fuel (e.perform X fuel a) := by
  cases a with
  | newOrder req => exact newOrder_admitted fuel hs hu hok
  | modifyOrder req => exact modifyOrder_admitted fuel hs hu hok
  | _ => simp [Action.entering] at ha

theorem perform_uncrowded (fuel : Nat) (hs : World.Sound X True ⟨e, none⟩)
    (hu : World.Uncrowded k ⟨e, none⟩) (hok : e.roomy k a) :
    Outcome.Keeps (fun W => W.Sound X True ∧ W.Uncrowded k) (e.perform X fuel a) := by
  by_cases ha : a.entering = true
  · rcases entering_admitted fuel ha hs hu hok with
      ⟨e', heq, hrun, hu'⟩ | ⟨e₁, order, ts, heq, hbrings⟩
    · rw [heq]
      exact ⟨hrun.sound hs, hu'⟩
    · have hs₁ := hbrings.run.sound hs
      rw [heq]
      exact (matchAndTrigger_run (fun _ => id) fuel ts hs₁
        False.elim False.elim hbrings.entered).keeps hs₁ hbrings.uncrowded
        fun m V hV hI hg _ hm => hI.run hV hg (settled_of_routed (routed_of_landing hm))
  · exact (perform_run fuel hs False.elim False.elim hok.admits).keeps hs hu
      fun m V hV hI hg _ hm => hI.run hV hg (settled_of_partOf (by simpa using ha) hm)

theorem init_uncrowded (X : Exchange D) (k : ℕ∞) (config : EngineConfig) (derived : D)
    (slots : Nat → SlotResidue) : World.Uncrowded k ⟨init X config derived slots, none⟩ := by
  intro s price
  have hempty : claimants (World.view ⟨init X config derived slots, none⟩)
      (Order.Claims s price) = ∅ := by
    refine Set.eq_empty_iff_forall_notMem.mpr ?_
    rintro id ⟨o, ho, -⟩
    simp [World.view, byId, Holdings.orders, holdings, shelf, init,
      ordersIn] at ho
  rw [hempty, Set.encard_empty]
  exact zero_le

theorem reach_uncrowded {config : EngineConfig} {derived : D} {slots : Nat → SlotResidue}
    (h : Reach X (roomy k) (init X config derived slots) e) :
    World.Sound X True ⟨e, none⟩ ∧ World.Uncrowded k ⟨e, none⟩ :=
  (reach_keeps
    ⟨init_sound X True config derived slots, init_uncrowded X k config derived slots⟩
    (fun _ _ fuel ha hI => perform_uncrowded fuel hI.1 hI.2 ha) h).1

end ExchangeSim
