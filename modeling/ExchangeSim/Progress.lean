import ExchangeSim.OperationRuns

/-!
Why matching ends. What the order in flight and the waiting stops have left, together with the
number of orders there are, never grows in the course of matching, and every level pass that goes
on takes something from it.
-/

namespace ExchangeSim

open Engine List Holdings Move

variable {D : Type} {X : Exchange D} {w c : Prop} {e e' : Engine D} {resting ord o order : Order}
  {f : FillResult} {rs : List FillResult} {ts : Int} {W W' : World D}

/-! What a policy leaves of a level. -/

theorem sum_filledBy {orders : List Order} (hn : (orders.map (·.id)).Nodup)
    (hnamed : ∀ f ∈ rs, f.restingOrder ∈ orders.map (·.id)) :
    (orders.map fun o => filledBy o.id rs).sum = fillTotal rs := by
  induction rs with
  | nil => simp [filledBy]
  | cons f rs ih =>
    have hone : (orders.map fun o => if f.restingOrder = o.id then f.quantity else 0).sum =
        f.quantity := by
      have hmem := hnamed f (by simp)
      clear ih hnamed
      induction orders with
      | nil => simp at hmem
      | cons o orders ih =>
        obtain ⟨ho, hn⟩ := List.nodup_cons.mp hn
        rcases List.mem_cons.mp hmem with he | hmem
        · have hzero : orders.map (fun x => if f.restingOrder = x.id then f.quantity else 0) =
              orders.map fun _ => 0 := by
            refine map_congr_left fun x hx => if_neg ?_
            exact fun hxe => ho (mem_map.mpr ⟨x, hx, (he.symm.trans hxe).symm⟩)
          rw [map_cons, sum_cons, if_pos he, hzero]
          simp
        · have hne : f.restingOrder ≠ o.id := by
            intro he
            rw [he] at hmem
            exact ho hmem
          rw [map_cons, sum_cons, if_neg hne, ih hn hmem, zero_add]
    have hsum := ih fun g hg => hnamed g (by simp [hg])
    simp [filledBy, hone, hsum]

theorem sum_remaining (orders : List Order) (g : Order → Int) :
    (orders.map fun o => o.remainingQuantity - g o).sum = sumQty orders - (orders.map g).sum := by
  induction orders with
  | nil => simp
  | cons o orders ih =>
    simp only [map_cons, sum_cons, sumQty_cons, ih]
    omega

theorem eq_zero_of_sum_eq_zero {xs : List Int} (hnn : ∀ x ∈ xs, 0 ≤ x) (hsum : xs.sum = 0) :
    ∀ x ∈ xs, x = 0 := by
  induction xs with
  | nil => simp
  | cons y xs ih =>
    have hy := hnn y (by simp)
    have hrest : 0 ≤ xs.sum := sum_nonneg fun x hx => hnn x (by simp [hx])
    simp only [sum_cons] at hsum
    have hall := ih (fun x hx => hnn x (by simp [hx])) (by omega)
    intro x hx
    rcases List.mem_cons.mp hx with rfl | hx
    · omega
    · exact hall x hx

theorem matchLevel_used (P : MatchPolicy) {l : PriceLevel} (hd : l.Distinct) (hx : l.Exact)
    {q : Int} (hq : 0 < q) (ho : o ∈ l.orders) :
    let m := P.matchLevel l q
    0 ≤ m.remaining ∧ filledBy o.id m.results ≤ o.remainingQuantity ∧
      (m.remaining = 0 ∨ filledBy o.id m.results = o.remainingQuantity) := by
  intro m
  have hbook := P.bookable l q hd
  have hle : ∀ x ∈ l.orders, filledBy x.id m.results ≤ x.remainingQuantity := fun x hxm =>
    hbook.filledBy_le ⟨hx, hq⟩ (remainingIn_of_mem hd hxm) (hx.positive x hxm).le
  have hrem : m.remaining = q - fillTotal m.results := P.remaining_eq l q hd hx hq
  have htot : fillTotal m.results = min q l.totalQuantity := P.total_eq l q hd hx hq
  refine ⟨by omega, hle o ho, ?_⟩
  by_cases hdone : q ≤ l.totalQuantity
  · omega
  · rw [min_eq_right (by omega), hx.total] at htot
    have hnamed : ∀ f ∈ m.results, f.restingOrder ∈ l.orders.map (·.id) := by
      intro f hf
      obtain ⟨v, hv⟩ := Option.isSome_iff_exists.mp (hbook.named f hf)
      obtain ⟨x, hx, hid, -⟩ := exists_of_remainingIn hv
      exact List.mem_map.mpr ⟨x, hx, hid⟩
    have hsum : (l.orders.map fun x => x.remainingQuantity - filledBy x.id m.results).sum = 0 := by
      rw [sum_remaining, sum_filledBy hd hnamed, htot]
      omega
    have hzero := eq_zero_of_sum_eq_zero (fun v hv => ?_) hsum _
      (List.mem_map.mpr ⟨o, ho, rfl⟩)
    · omega
    · obtain ⟨x, hx, rfl⟩ := List.mem_map.mp hv
      have := hle x hx
      omega

/-! The load of an engine. -/

def volumeIn (lvls : List PriceLevel) : Nat :=
  ((ordersIn lvls).map fun o => o.remainingQuantity.toNat).sum

/-- What the waiting stops have left, and the number of orders. -/
def Holdings.load (H : Holdings) : Nat :=
  volumeIn (H.lvls .stop .buy) + volumeIn (H.lvls .stop .sell) + H.orderPool.allocated

def World.load (W : World D) : Nat :=
  (W.flight.elim 0 fun o => o.remainingQuantity.toNat) + W.engine.holdings.load

namespace Holdings

variable {H : Holdings} {extra : List Nat} {o : Order}

@[simp] theorem load_set_limit (H : Holdings) (s : Side) (lvls : List PriceLevel) :
    (H.set .limit s lvls).load = H.load := by
  simp [load, set]

@[simp] theorem load_takeOut_limit (H : Holdings) (o : Order) :
    (H.takeOut .limit o).load = H.load :=
  load_set_limit H o.side (unlinkFrom o (H.lvls .limit o.side)).1

theorem load_release (H : Holdings) (o : Order) : (H.release o).load ≤ H.load := by
  simp only [load, release, ObjectPool.deallocate]
  omega

theorem load_release_lt (hlive : 0 < H.orderPool.allocated) (o : Order) :
    (H.release o).load < H.load := by
  simp only [load, release, ObjectPool.deallocate]
  omega

theorem load_settle (H : Holdings) (o : Order) (q : Int) : (H.settle o q).load ≤ H.load := by
  unfold settle booked
  split
  · split
    · rw [load_set_limit]
    · exact (load_release _ _).trans_eq (load_takeOut_limit H o)
  · rw [load_set_limit]

theorem load_enter_limit (H : Holdings) (o : Order) (price : Int) :
    (H.enter .limit o price).load ≤ H.load := by
  unfold enter
  split
  · exact load_release H o
  · exact (load_set_limit H o.side
      (insertAt (bookBefore o.side) price o (H.lvls .limit o.side)).1).le

theorem Sound.load_takeOut_stop (h : H.Sound X w extra) (ho : o ∈ ordersIn (H.lvls .stop o.side)) :
    (H.takeOut .stop o).load + o.remainingQuantity.toNat = H.load := by
  obtain ⟨A, l, B, Xs, Ys, hsplit, hf⟩ := exists_focus_of_mem (h.nodup .stop o.side) ho
  have hcount := ((h.shape .stop o.side).sound l (by simp [hsplit])).count
  have hperm := hf.unlinkFrom_orders hcount
  rw [← hsplit] at hperm
  have hvol : volumeIn (H.lvls .stop o.side) =
      o.remainingQuantity.toNat + volumeIn (unlinkFrom o (H.lvls .stop o.side)).1 := by
    have hsum := (hperm.map fun x => x.remainingQuantity.toNat).sum_eq
    simpa [volumeIn] using hsum
  have hpool : (H.takeOut .stop o).orderPool = H.orderPool := rfl
  have hhere : (H.takeOut .stop o).lvls .stop o.side = (unlinkFrom o (H.lvls .stop o.side)).1 :=
    set_self .stop o.side _
  have hne : ¬(Shelf.stop = Shelf.stop ∧ o.side.opposite = o.side) :=
    fun he => o.side.opposite_ne he.2
  have hthere : (H.takeOut .stop o).lvls .stop o.side.opposite = H.lvls .stop o.side.opposite :=
    set_other hne (unlinkFrom o (H.lvls .stop o.side)).1
  unfold load
  rw [hpool]
  cases hside : o.side <;>
  · rw [hside] at hvol hhere hthere
    simp only [Side.opposite] at hthere
    rw [hhere, hthere]
    omega

theorem Sound.live (h : H.Sound X w (o.id :: extra)) : 0 < H.orderPool.allocated := by
  rw [h.owns.live]
  simp

end Holdings

namespace World.Sound

variable {W : World D}

theorem load_fill (h : W.Sound X True) {left reported : Int}
    (hg : Move.guard X (.fill ts order resting f left reported) W)
    (hx : Move.exact (D := D) (.fill ts order resting f left reported)) :
    (Move.run X (.fill ts order resting f left reported) W).load < W.load := by
  obtain ⟨hfl, hm⟩ := hg
  have hH := h.holds_some hfl
  obtain ⟨level, deeper, hbook, hmem, -⟩ := hm.best
  have hin : resting ∈ ordersIn (W.engine.holdings.lvls .limit order.side.opposite) :=
    mem_ordersIn.mpr ⟨level, by simp [Engine.holdings, Engine.shelf, hbook], hmem⟩
  have hside : resting.side = order.side.opposite := hH.side_eq hin
  obtain ⟨Xs, Ys, hf⟩ := exists_focus (hH.nodup .limit order.side.opposite) (A := []) hbook hmem
  rw [← hside] at hbook
  have hload : (W.engine.bookFill X ts order resting f reported).holdings.load ≤
      W.engine.holdings.load := by
    rw [holdings_bookFill X ts reported hside hbook hf hm.remaining]
    exact Holdings.load_settle _ resting f.quantity
  obtain ⟨hpos, -, hle, hleft⟩ := hx
  simp only [World.load, Move.run, hfl, Option.elim_some, hleft]
  omega

theorem load_cancelResting (h : W.Sound X True) (ts : Int) (notify : Bool)
    (hg : Move.guard X (.cancelResting ts order resting f notify) W) :
    (Move.run X (.cancelResting ts order resting f notify) W).load < W.load := by
  obtain ⟨hfl, hrest, -, -⟩ := hg
  have hheld := (h.holds_some hfl).takeOut (k := .limit) hrest
  have hlt := Holdings.load_release_lt hheld.live resting
  simp only [World.load, Move.run, hfl, Option.elim_some]
  cases notify <;> simpa using hlt

theorem load_leave (h : W.Sound X True) (hfl : W.flight = some order) :
    (W.engine.holdings.release order).load < W.load := by
  have hlt := load_release_lt (h.holds_some hfl).live order
  simp only [World.load, hfl, Option.elim_some]
  omega

theorem load_run (h : W.Sound X True) {m : Move D} (hg : m.guard X W) (hx : m.exact)
    (hm : m.landing = true) : (m.run X W).load ≤ W.load ∧
      (W.flight ≠ none → (m.run X W).flight = none → (m.run X W).load < W.load) := by
  cases m with
  | note | topOfBook | session | reference | hook =>
    exact ⟨le_rfl, fun hfl hnone => absurd hnone hfl⟩
  | adjust order remaining =>
    have hfl : W.flight = some order := hg
    have hsame : remaining = order.remainingQuantity := hx
    simp [World.load, Move.run, hfl, hsame]
  | fill ts order resting f left reported =>
    exact ⟨(h.load_fill hg hx).le, fun _ hnone => by simp [Move.run] at hnone⟩
  | cancelResting ts order resting f notify =>
    exact ⟨(h.load_cancelResting _ _ hg).le, fun _ hnone => by simp [Move.run] at hnone⟩
  | drop order ts reason =>
    have hlt := h.load_leave hg
    have hrun : (Move.run X (.drop order ts reason) W).load =
        (W.engine.holdings.release order).load := by simp [World.load, Move.run]
    exact ⟨by omega, fun _ _ => by omega⟩
  | finish order =>
    have hlt := h.load_leave hg.1
    have hrun : (Move.run X (.finish order) W).load =
        (W.engine.holdings.release order).load := by simp [World.load, Move.run]
    exact ⟨by omega, fun _ _ => by omega⟩
  | rest order ts =>
    obtain ⟨hfl, -, hne⟩ := hg
    have hpos := h.flight order hfl trivial
    have hle := Holdings.load_enter_limit W.engine.holdings order order.price
    have hlt : (Move.run X (.rest order ts) W).load < W.load := by
      simp only [World.load, Move.run, hfl, Option.elim_some, Option.elim_none,
        holdings_insertIntoBook]
      omega
    exact ⟨hlt.le, fun _ _ => hlt⟩
  | trigger stop =>
    obtain ⟨hfl, -, hnext⟩ := hg
    have hH := h.holds_none hfl
    have hload := hH.load_takeOut_stop (nextTriggeredStop_waits hH hnext)
    have hrem : stop.triggered.remainingQuantity = stop.remainingQuantity := by
      unfold Order.triggered
      split <;> rfl
    refine ⟨?_, fun hsome => absurd hfl hsome⟩
    simp only [World.load, Move.run, hfl, Option.elim_some, Option.elim_none,
      holdings_removeStop, hrem]
    omega
  | _ => simp [Move.landing, Move.matching] at hm

end World.Sound

theorem MatchRun.load (h : MatchRun X True c W W') (hs : W.Sound X True) : W'.load ≤ W.load := by
  have hboth : W'.Sound X True ∧ W'.load ≤ W.load :=
    Machine.Run.invariant (I := fun V => V.Sound X True ∧ V.load ≤ W.load) h ⟨hs, le_rfl⟩
      fun m V hV hg hp => ⟨hV.1.run hg hp.1.exact,
        (hV.1.load_run hg (hp.1.exact trivial) (landing_of_matching hp.2)).1.trans hV.2⟩
  exact hboth.2

theorem OpRun.load_lt (h : OpRun X True c landing W W') (hs : W.Sound X True)
    (hfl : W.flight ≠ none) (hend : W'.flight = none) : W'.load < W.load := by
  have hall := OpRun.invariant
    (I := fun V => V.load ≤ W.load ∧ (V.flight = none → V.load < W.load)) h hs
    ⟨le_rfl, fun hnone => absurd hnone hfl⟩ fun m V hV hI hg hlegal hm => by
      obtain ⟨hle, hlt⟩ := hV.load_run hg (hlegal.exact trivial) hm
      refine ⟨hle.trans hI.1, fun hnone => ?_⟩
      by_cases hflV : V.flight = none
      · exact hle.trans_lt (hI.2 hflV)
      · exact (hlt hflV hnone).trans_le hI.1
  exact hall.2 hend

/-! Matching and the cascade. -/

def Outcome.Finishes {α : Type} : Outcome D α → Prop
  | .error (.outOfFuel, _) => False
  | _ => True

theorem Outcome.Finishes.error {α β : Type} {err : Fault × Engine D}
    (h : Outcome.Finishes (.error err : Outcome D α)) :
    Outcome.Finishes (.error err : Outcome D β) := by
  obtain ⟨fault, e⟩ := err
  cases fault <;> exact h

def SmpAction.cancels : SmpAction → Bool
  | .cancelNewest => true
  | .cancelOldest => true
  | .cancelBoth => true
  | .decrement => false
  | .none => false

theorem applySmpAction_eq (h : (X.getSmpAction e.derived).cancels = false) (order resting : Order)
    (f : FillResult) (ts : Int) : e.applySmpAction X order resting f ts = (some order, e) := by
  unfold applySmpAction
  cases ha : X.getSmpAction e.derived <;> simp [ha, SmpAction.cancels] at h ⊢

/-- An aggressor and a resting order as a level pass compares them: the policy has already
used up what one of them had left. -/
structure Order.Faces (a r : Order) : Prop where
  entered : a.Entered
  limit : r.type = .limit
  side : r.side = a.side.opposite
  allows : a.allows r.price = true
  ids : 0 < a.id ∧ 0 < r.id ∧ a.id ≠ r.id
  left : 0 ≤ a.remainingQuantity ∧ 0 ≤ r.remainingQuantity
  used : a.remainingQuantity = 0 ∨ r.remainingQuantity = 0

def Exchange.Resolves (X : Exchange D) : Prop :=
  ∀ d a r, a.Faces r → X.isSelfMatch d a r = true → (X.getSmpAction d).cancels = true

section pass

variable {ord : Order} {e : Engine D} {level : PriceLevel} {deeper : List PriceLevel}

theorem best_fills (hs : World.Sound X True ⟨e, some ord⟩) (hturn : e.Turn ord level deeper) :
    ∃ f rs, (X.algo.matchLevel level ord.remainingQuantity).results = f :: rs := by
  obtain ⟨-, hlevel⟩ := best_level hs hturn.book
  have hexact := hlevel.exact trivial
  have hpos := hturn.left
  have htot := (best_amounts hs hturn trivial).2
  have hsum : 0 < level.totalQuantity := by
    rw [hexact.total]
    obtain ⟨o, os, hos⟩ := exists_cons_of_ne_nil hlevel.nonempty
    rw [hos, sumQty_cons]
    have ho := hexact.positive o (by simp [hos])
    have hrest : 0 ≤ sumQty os := sum_nonneg fun x hx => by
      obtain ⟨y, hy, rfl⟩ := mem_map.mp hx
      exact (hexact.positive y (by simp [hos, hy])).le
    omega
  cases hr : (X.algo.matchLevel level ord.remainingQuantity).results with
  | nil =>
    rw [hr, fillTotal_nil] at htot
    omega
  | cons f rs => exact ⟨f, rs, rfl⟩

theorem Engine.Heads.faces (hs : World.Sound X True ⟨e, some ord⟩)
    (hturn : e.Turn ord level deeper) (hr : (X.algo.matchLevel level ord.remainingQuantity).results = f :: rs)
    (h : e.Heads True ord resting f rs) : Order.Faces { ord with remainingQuantity :=
        (X.algo.matchLevel level ord.remainingQuantity).remaining }
      (resting.fill (filledBy resting.id (f :: rs))) := by
  obtain ⟨hdistinct, hlevel⟩ := best_level hs hturn.book
  obtain ⟨l, deeper', hbook', hmem, -⟩ := h.meets.best
  obtain ⟨rfl, rfl⟩ := cons.inj (hturn.book.symm.trans hbook')
  obtain ⟨hrem, hle, hused⟩ := matchLevel_used X.algo hdistinct (hlevel.exact trivial) hturn.left
    hmem
  rw [hr] at hle hused
  obtain ⟨-, htype, hprice⟩ := hlevel.fits resting hmem
  have hH : e.holdings.Sound X True [ord.id] := hs.holds_some rfl
  have hin : resting.id ∈ e.holdings.ids :=
    mem_ids.mpr ⟨.limit, resting.side, mem_idsIn.mpr ⟨resting, h.rests, rfl⟩⟩
  have hne : ord.id ≠ resting.id := by
    intro he
    have hn := hH.owns.nodup
    rw [singleton_append, List.nodup_cons, he] at hn
    exact hn.1 hin
  refine ⟨h.meets.entered, htype, h.side, ?_, ⟨?_, ?_, hne⟩, ⟨hrem, ?_⟩, ?_⟩
  · have hallow := h.meets.allowed
    rw [h.price] at hallow
    exact hallow
  · exact (hH.owns.assigned ord.id (by simp)).1
  · exact (hH.owns.assigned resting.id (by simp [hin])).1
  · simp only [Order.fill]
    omega
  · simp only [Order.fill]
    omega

theorem applySmpAction_progress (ts : Int) (hs : World.Sound X True ⟨e, some ord⟩)
    (hrest : e.rests resting) (hside : resting.side = ord.side.opposite)
    (hprice : f.price = resting.price) (hc : (X.getSmpAction e.derived).cancels = true)
    (h : e.applySmpAction X ord resting f ts = (some o, e')) :
    World.load ⟨e', some o⟩ < World.load ⟨e, some ord⟩ := by
  unfold applySmpAction at h
  cases hact : X.getSmpAction e.derived with
  | cancelNewest | cancelBoth => simp [hact] at h
  | cancelOldest =>
    rw [hact] at h
    obtain ⟨ho, he⟩ := Prod.mk.inj h
    obtain rfl := Option.some.inj ho
    rw [← he]
    exact World.Sound.load_cancelResting hs ts true
      ⟨rfl, hrest, hside, hprice⟩
  | decrement | none => simp [hact, SmpAction.cancels] at hc

theorem pass_progress (hX : X.Resolves) (ts : Int) (hs : World.Sound X True ⟨e, some ord⟩)
    (hturn : e.Turn ord level deeper) (hent : ord.Entered)
    (h : e.pass X ts ord level deeper = .ok (some o, e')) :
    World.load ⟨e', some o⟩ < World.load ⟨e, some ord⟩ := by
  rw [pass_eq_advance ((hs.holds_some rfl).nodup .limit _) hturn] at h
  obtain ⟨f, rs, hr⟩ := best_fills hs hturn
  have hpend := best_pending hs hturn
  obtain ⟨hrem, htot⟩ := best_amounts hs hturn trivial
  have hfaces := fun resting (hh : e.Heads True ord resting f rs) => hh.faces hs hturn hr
  rw [hr] at h hpend hrem htot
  generalize (X.algo.matchLevel level ord.remainingQuantity).remaining = R at h hrem hfaces
  have hsplit : ord.remainingQuantity = R + fillTotal (f :: rs) := by omega
  have hR : True → 0 ≤ R := fun _ => by omega
  obtain ⟨resting, hh, hnext⟩ := hpend.heads hs hturn.allowed hent
  by_cases hself : X.isSelfMatch e.derived { ord with remainingQuantity := R }
      (resting.fill (filledBy resting.id (f :: rs))) = true
  · rw [processFills_self ts R hh.found hsplit hself] at h
    exact applySmpAction_progress ts hs hh.rests hh.side hh.price
      (hX _ _ _ (hfaces resting hh) hself) (Except.ok.inj h)
  · have hmove : guard X (.fill ts ord resting f (R + fillTotal rs) R) ⟨e, some ord⟩ :=
      ⟨rfl, hh.meets⟩
    have hexact := hh.exact ts hR hsplit
    let ord' : Order := { ord with
      filledQuantity := ord.filledQuantity + f.quantity
      remainingQuantity := R + fillTotal rs }
    have hs' : World.Sound X True ⟨e.bookFill X ts ord resting f R, some ord'⟩ :=
      World.Sound.fill hs hmove hexact
    rw [processFills_fill ts R hh.found hh.side hh.meets.named hh.done
      (Bool.eq_false_iff.mpr hself)] at h
    obtain ⟨alive, e₁, heq, hrun, -⟩ := processFills_run (c := False) ts hs' hR rfl
      hturn.allowed hent (hnext ts R)
    obtain ⟨rfl, rfl⟩ := Prod.mk.inj (Except.ok.inj (heq.symm.trans h))
    exact (MatchRun.load hrun hs').trans_lt (hs.load_fill hmove (hexact trivial))

end pass

theorem matchLoop_finishes (hX : X.Resolves) (ts : Int) (fuel : Nat)
    (hs : World.Sound X True ⟨e, some ord⟩) (hent : ord.Entered)
    (hfuel : World.load ⟨e, some ord⟩ < fuel) : (e.matchLoop X ts fuel ord).Finishes := by
  refine matchLoop_rule X ts (P := fun fuel o e r => World.Sound X True ⟨e, some o⟩ →
    o.Entered → World.load ⟨e, some o⟩ < fuel → r.Finishes) ?_ ?_ ?_ ?_ ?_ ?_ fuel ord e hs hent
    hfuel
  · omega
  · exact fun _ _ _ _ _ _ _ => trivial
  · exact fun _ _ _ _ _ _ _ _ _ _ => trivial
  · exact fun _ _ _ _ _ _ hturn hpass hs hent _ => absurd hpass (pass_ne_error hs hturn hent)
  · exact fun _ _ _ _ _ _ _ _ _ _ _ _ _ => trivial
  · intro n o e level deeper o' e' r hturn hpass ih hs hent hfuel
    obtain ⟨-, hcont⟩ := pass_ok (c := False) hs hturn hent hpass
    obtain ⟨-, hent', hs'⟩ := hcont o' rfl
    have hlt := pass_progress hX ts hs hturn hent hpass
    exact ih hs' hent' (by omega)

theorem matchOrder_finishes (hX : X.Resolves) (ts : Int) (fuel : Nat)
    (hs : World.Sound X True ⟨e, some ord⟩) (hent : ord.Entered)
    (hfuel : World.load ⟨e, some ord⟩ < fuel) : (e.matchOrder X fuel ord ts).Finishes := by
  have hloop := matchLoop_finishes hX ts fuel hs hent hfuel
  unfold matchOrder
  split
  · trivial
  · split
    next err herr =>
      rw [herr] at hloop
      exact hloop.error
    · trivial
    · trivial

theorem matchOrder_load {fuel : Nat} (hs : World.Sound X True ⟨e, some ord⟩) (hent : ord.Entered)
    (h : e.matchOrder X fuel ord ts = .ok e') :
    World.Sound X True ⟨e', none⟩ ∧ World.load ⟨e', none⟩ < World.load ⟨e, some ord⟩ := by
  have hrun := matchOrder_run (fun m hm => hm) fuel ts hs False.elim False.elim hent
  rw [h] at hrun
  exact ⟨OpRun.sound hrun hs, OpRun.load_lt hrun hs (by simp) rfl⟩

theorem trigger_load (hs : World.Sound X True ⟨e, none⟩) (hdue : e.lastTradePrice > 0)
    (hnext : e.nextTriggeredStop = some stop) :
    World.Sound X True ⟨e.removeStop stop, some stop.triggered⟩ ∧
      World.load ⟨e.removeStop stop, some stop.triggered⟩ ≤ World.load ⟨e, none⟩ := by
  have hguard : guard X (.trigger stop) ⟨e, none⟩ := ⟨rfl, hdue, hnext⟩
  exact ⟨World.Sound.run hs hguard fun _ => trivial, (World.Sound.load_run hs hguard trivial rfl).1⟩

theorem checkAndTriggerStops_finishes (hX : X.Resolves) (ts : Int) (fuel rounds : Nat)
    (hs : World.Sound X True ⟨e, none⟩) (hfuel : World.load ⟨e, none⟩ < fuel)
    (hrounds : World.load ⟨e, none⟩ < rounds) :
    (e.checkAndTriggerStops X fuel ts rounds).Finishes := by
  induction rounds generalizing e with
  | zero => omega
  | succ rounds ih =>
    unfold checkAndTriggerStops
    split
    next htrig =>
      split
      · trivial
      next heq => simp at heq
      next stop r hnext hr =>
        obtain rfl : rounds = r := by simpa using hr
        obtain ⟨hs', hload⟩ := trigger_load hs htrig.1 hnext
        have hfin := matchOrder_finishes hX ts fuel hs' stop.triggered_type (by omega)
        cases hm : (e.removeStop stop).matchOrder X fuel stop.triggered ts with
        | error err =>
          rw [hm] at hfin
          exact hfin
        | ok e' =>
          obtain ⟨hs'', hlt⟩ := matchOrder_load hs' stop.triggered_type hm
          exact ih hs'' (by omega) (by omega)
    · trivial

theorem matchAndTrigger_finishes (hX : X.Resolves) (ts : Int) (fuel : Nat)
    (hs : World.Sound X True ⟨e, some ord⟩) (hent : ord.Entered)
    (hfuel : World.load ⟨e, some ord⟩ < fuel) : (e.matchAndTrigger X fuel ord ts).Finishes := by
  have hfin := matchOrder_finishes hX ts fuel hs hent hfuel
  unfold matchAndTrigger
  cases hm : e.matchOrder X fuel ord ts with
  | error err =>
    rw [hm] at hfin
    exact hfin
  | ok e' =>
    obtain ⟨hs', hlt⟩ := matchOrder_load hs hent hm
    exact checkAndTriggerStops_finishes hX ts fuel fuel hs' (by omega) (by omega)

end ExchangeSim
