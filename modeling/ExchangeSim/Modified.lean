import ExchangeSim.Ledger
import ExchangeSim.Progress
import ExchangeSim.Reachable
import ExchangeSim.Sessions

namespace ExchangeSim

open Engine List JournalEntry Move

variable {D : Type} {X : Exchange D} {w : Prop} {W : World D} {e e' e₀ : Engine D} {order o : Order}
  {q : Int} {entries : List JournalEntry} {m : Move D} {a : Action} {req : ModifyRequest}

def JournalEntry.tradeOf (id : Nat) : JournalEntry → Int
  | .event (.trade t) => if t.aggressorId = id ∨ t.restingId = id then t.quantity else 0
  | _ => 0

def tradedIn (id : Nat) (entries : List JournalEntry) : Int :=
  (entries.map (·.tradeOf id)).sum

def cancelledIn (id : Nat) (entries : List JournalEntry) : Prop :=
  ∃ ts reason, JournalEntry.event (.orderCancelled id ts reason) ∈ entries

@[simp] theorem tradedIn_append (id : Nat) (xs ys : List JournalEntry) :
    tradedIn id (xs ++ ys) = tradedIn id xs + tradedIn id ys := by
  simp [tradedIn]

theorem tradedIn_quiet (id : Nat) (h : ∀ x ∈ entries, x.quiet = true) :
    tradedIn id entries = 0 := by
  refine sum_eq_zero fun v hv => ?_
  obtain ⟨x, hx, rfl⟩ := mem_map.mp hv
  have hq := h x hx
  cases x with
  | action a => rfl
  | event ev => cases ev <;> first | rfl | simp [quiet] at hq

/-- An order that had `filled` filled and was asked for `q`, after `entries`: as long as it is
there, its trades are filled and it can still come to `q`; once it is gone, it has come to `q` or
was cancelled. -/
def Fate (id : Nat) (filled q : Int) (entries : List JournalEntry) : Option Order → Prop
  | some o => o.type = .limit ∧ o.filledQuantity = filled + tradedIn id entries ∧
    q ≤ o.filledQuantity + o.remainingQuantity
  | none => cancelledIn id entries ∨ q ≤ filled + tradedIn id entries

namespace Fate

variable {id : Nat} {filled q : Int} {entries es : List JournalEntry} {v : Option Order} {o : Order}

theorem more (h : Fate id filled q entries v) (hes : tradedIn id es = 0) :
    Fate id filled q (entries ++ es) v := by
  cases v with
  | some o => simpa [Fate, hes] using h
  | none =>
    refine h.imp (fun hc => ?_) fun ht => by simpa [hes] using ht
    obtain ⟨ts, reason, hmem⟩ := hc
    exact ⟨ts, reason, mem_append_left _ hmem⟩

theorem cancel (ts : Int) (reason : CancelReason) :
    Fate id filled q (entries ++ [.event (.orderCancelled id ts reason)]) none :=
  .inl ⟨ts, reason, by simp⟩

theorem settled (h : Fate id filled q entries (some o)) {n : Int} (hes : tradedIn id es = n) :
    Fate id filled q (entries ++ es) (o.settled n) := by
  obtain ⟨htype, hfilled, hopen⟩ := h
  unfold Order.settled
  split
  next hzero =>
    split
    next hnext =>
      have hpos := Order.nextTranche_pos hnext
      refine ⟨htype, ?_, ?_⟩
      · simp [Order.fill, hfilled, hes, add_assoc]
      · simp only [Order.fill]
        simp only [Order.fill] at hpos
        omega
    next =>
      refine .inr ?_
      rw [tradedIn_append, hes]
      omega
  next =>
    refine ⟨htype, ?_, ?_⟩
    · simp [Order.fill, hfilled, hes, add_assoc]
    · simp only [Order.fill]
      omega

end Fate

def World.Follows (id : Nat) (filled q : Int) (base : List JournalEntry) (W : World D) : Prop :=
  ∃ entries, W.engine.tape = base ++ entries ∧ Fate id filled q entries (W.view id)

namespace World.Follows

variable {id : Nat} {filled q : Int} {base : List JournalEntry}

theorem step (h : W.Follows id filled q base) (hs : W.Sound X True) (hg : m.guard X W)
    (hfate : ∀ entries, Fate id filled q entries (W.view id) →
      Fate id filled q (entries ++ m.tells W) (m.write X W W.view id)) :
    (m.run X W).Follows id filled q base := by
  obtain ⟨entries, htape, hf⟩ := h
  refine ⟨entries ++ m.tells W, ?_, ?_⟩
  · rw [run_tape, htape, List.append_assoc]
  · rw [hs.view_run hg]
    exact hfate entries hf

theorem run (h : W.Follows id filled q base) (hs : W.Sound X True) (hg : m.guard X W) (hx : m.exact)
    (hm : m.landing = true) : (m.run X W).Follows id filled q base := by
  refine h.step hs hg fun entries hf => ?_
  -- an order the move takes out with a cancellation
  have hgone : ∀ (o : Order) ts reason, Fate id filled q
      (entries ++ [.event (.orderCancelled o.id ts reason)])
      (Function.update W.view o.id none id) := by
    intro o ts reason
    by_cases hid : id = o.id
    · subst hid
      rw [Function.update_self]
      exact .cancel ts reason
    · rw [Function.update_of_ne hid]
      exact hf.more rfl
  cases m with
  | note tracker es =>
    exact hf.more (tradedIn_quiet id fun x hx => hg x (mem_of_mem_filter hx))
  | adjust order remaining =>
    have hfl : W.flight = some order := hg
    have hsame : remaining = order.remainingQuantity := hx
    simp only [write, tells, append_nil, hsame]
    by_cases hid : id = order.id
    · subst hid
      rw [Function.update_self]
      rwa [hs.view_flight hfl] at hf
    · rwa [Function.update_of_ne hid]
  | fill ts order resting f left reported =>
    obtain ⟨hfl, hmeet⟩ := hg
    obtain ⟨-, -, -, hleft⟩ := hx
    obtain ⟨hrest, -, -, -⟩ := hs.rests_of_meets hmeet
    have hvo := hs.view_flight hfl
    have hvr := hs.view_rests hrest
    simp only [write, tells]
    by_cases hid : id = order.id
    · subst hid
      rw [Function.update_self]
      rw [hvo] at hf
      obtain ⟨htype, hfilled, hopen⟩ := hf
      refine ⟨htype, ?_, ?_⟩
      · simp [tradedIn, tradeOf, hfilled]
        omega
      · simp only [hleft]
        omega
    · rw [Function.update_of_ne hid]
      by_cases hid' : id = resting.id
      · subst hid'
        rw [Function.update_self]
        rw [hvr] at hf
        exact hf.settled (by simp [tradedIn, tradeOf])
      · rw [Function.update_of_ne hid']
        exact hf.more (by simp [tradedIn, tradeOf, Ne.symm hid, Ne.symm hid'])
  | cancelResting ts order resting f notify => exact hgone resting ts _
  | drop order ts reason => exact hgone order ts reason
  | finish order =>
    obtain ⟨hfl, hzero⟩ := hg
    simp only [write, tells, append_nil]
    by_cases hid : id = order.id
    · subst hid
      rw [Function.update_self]
      rw [hs.view_flight hfl] at hf
      obtain ⟨-, hfilled, hopen⟩ := hf
      exact .inr (by omega)
    · rwa [Function.update_of_ne hid]
  | rest order ts =>
    simp only [write, tells, refusal]
    split
    · exact hgone order ts _
    · rwa [append_nil]
  | trigger stop =>
    obtain ⟨hfl, -, hnext⟩ := hg
    have hwait := nextTriggeredStop_waits (hs.holds_none hfl) hnext
    have hid : id ≠ stop.id := by
      rintro rfl
      rw [hs.view_waits hwait] at hf
      have hstop := hs.isStop_of_waits hwait
      simp [hf.1, OrderType.isStop] at hstop
    simp only [write, tells, append_nil]
    rwa [Function.update_of_ne hid]
  | topOfBook | session | reference | hook => exact hf.more rfl
  | _ => simp [landing, matching] at hm

end World.Follows

/-- How `modify_order` should end for an order it was asked to bring to `q`: it rests with
something left, or it is gone and the operation has told of its cancellation or of trades that
bring it to `q`. -/
def Engine.ModifyEnds (e e' : Engine D) (order : Order) (q : Int) : Prop :=
  (∃ o, e'.rests o ∧ o.id = order.id ∧ 0 < o.remainingQuantity) ∨
    ((∀ o ∈ e'.linked, o.id ≠ order.id) ∧ ∃ entries, e'.tape = e.tape ++ entries ∧
      (cancelledIn order.id entries ∨
        (0 < tradedIn order.id entries ∧ q ≤ order.filledQuantity + tradedIn order.id entries)))

theorem mem_linked_iff_view (hs : World.Sound X w ⟨e, none⟩) :
    o ∈ e.linked ↔ World.view ⟨e, none⟩ o.id = some o := by
  constructor
  · intro ho
    obtain ⟨k, s, hks⟩ := mem_linked.mp ho
    have hside : o.side = s := (hs.holds_none rfl).side_eq hks
    subst hside
    cases k with
    | limit => exact hs.view_rests hks
    | stop => exact hs.view_waits hks
  · intro hv
    obtain ⟨hmem, -⟩ := (byId_eq_some hs.nodup).mp hv
    have hmem' : o ∈ e.holdings.orders := by simpa using hmem
    simp only [Holdings.orders, List.mem_append] at hmem'
    refine mem_linked.mpr ?_
    rcases hmem' with (h | h) | (h | h)
    exacts [⟨.limit, .buy, h⟩, ⟨.limit, .sell, h⟩, ⟨.stop, .buy, h⟩, ⟨.stop, .sell, h⟩]

theorem World.Follows.ends {before : List JournalEntry} (hs : World.Sound X True ⟨e, none⟩)
    (h : World.Follows order.id order.filledQuantity q (e₀.tape ++ before) ⟨e, none⟩)
    (hbefore : tradedIn order.id before = 0) (hq : order.filledQuantity < q) :
    e₀.ModifyEnds e order q := by
  obtain ⟨entries, htape, hf⟩ := h
  cases hv : World.view ⟨e, none⟩ order.id with
  | some o =>
    rw [hv] at hf
    have hid : o.id = order.id := ((byId_eq_some hs.nodup).mp hv).2
    have hlinked : o ∈ e.linked := (mem_linked_iff_view hs).mpr (hid ▸ hv)
    have hH := hs.holds_none rfl
    rcases linked_cases hH hlinked with ⟨hrest, -⟩ | ⟨-, hstop⟩
    · exact .inl ⟨o, hrest, hid, hH.remaining_pos (k := .limit) hrest trivial⟩
    · simp [hf.1, OrderType.isStop] at hstop
  | none =>
    rw [hv] at hf
    refine .inr ⟨fun o ho hid => ?_, before ++ entries, ?_, ?_⟩
    · have := (mem_linked_iff_view hs).mp ho
      rw [hid, hv] at this
      simp at this
    · rw [htape, List.append_assoc]
    · rw [tradedIn_append, hbefore, zero_add]
      refine hf.imp (fun hc => ?_) fun ht => ⟨by omega, ht⟩
      obtain ⟨ts, reason, hmem⟩ := hc
      exact ⟨ts, reason, mem_append_right _ hmem⟩

theorem replaceOrder_ends (hX : X.Resolves) (hbase : e.tape = e₀.tape ++ [.action a])
    (hs : World.Sound X True ⟨e, none⟩) (hrest : e.rests order)
    (hq : order.filledQuantity < req.newQuantity) :
    ∃ rounds, ∀ fuel, rounds ≤ fuel →
      (∃ e', e.replaceOrder X fuel order req = .ok e' ∧
        e₀.ModifyEnds e' order req.newQuantity) ∨
      ∃ e', e.replaceOrder X fuel order req = .error (.fillBuffer, e') := by
  let e₁ := (e.removeOrder order).2.reportPull order req (e.removeOrder order).1
  have hguard : guard X (.pull order req) ⟨e, none⟩ := ⟨rfl, hrest⟩
  have hs₁ : World.Sound X True ⟨e₁, some (order.replaced req)⟩ := hs.run hguard fun _ => hq.le
  have htape : e₁.tape = e.tape ++ [.event (.orderModified order.id req.clientOrderId req.newPrice
      req.newQuantity req.timestamp)] := run_tape X (.pull order req) ⟨e, none⟩
  have htype : order.type = .limit := type_of_rests (hs.holds_none rfl) hrest
  have hfollow : World.Follows order.id order.filledQuantity req.newQuantity e₁.tape
      ⟨e₁, some (order.replaced req)⟩ := by
    refine ⟨[], (append_nil _).symm, ?_⟩
    have hview := hs₁.view_flight rfl
    rw [show order.id = (order.replaced req).id from rfl, hview]
    refine ⟨htype, by simp [Order.replaced, tradedIn], ?_⟩
    simp only [Order.replaced]
    omega
  refine ⟨World.load ⟨e₁, some (order.replaced req)⟩ + 1, fun fuel hfuel => ?_⟩
  rw [replaceOrder_eq fuel hrest]
  have hfin := matchAndTrigger_finishes hX req.timestamp fuel hs₁ (.inl htype) (by omega)
  have hout := matchAndTrigger_run (fun _ hm => hm) fuel
    req.timestamp hs₁ False.elim False.elim (.inl htype)
  cases hr : e₁.matchAndTrigger X fuel (order.replaced req) req.timestamp with
  | ok e' =>
    rw [hr] at hout
    have hrun : OpRun X True False landing ⟨e₁, some (order.replaced req)⟩ ⟨e', none⟩ := hout
    have hend := hrun.invariant hs₁ hfollow fun m V hV hI hg hl hm =>
      hI.run hV hg (hl.exact trivial) hm
    rw [htape, hbase, List.append_assoc] at hend
    exact .inl ⟨e', rfl, hend.ends (hrun.sound hs₁) rfl hq⟩
  | error err =>
    obtain ⟨fault, e'⟩ := err
    rw [hr] at hfin hout
    obtain ⟨hexp, -⟩ := hout
    cases fault with
    | fillBuffer => exact .inr ⟨e', rfl⟩
    | outOfFuel => exact hfin.elim
    | dangling | foreignLevel => exact hexp.elim

/-! An order that is asked for no more than it has filled. -/

theorem modifyEnds_iff (h : e'.tape = e.tape ++ entries) : e.ModifyEnds e' order q ↔
      (∃ o, e'.rests o ∧ o.id = order.id ∧ 0 < o.remainingQuantity) ∨
        ((∀ o ∈ e'.linked, o.id ≠ order.id) ∧ (cancelledIn order.id entries ∨
          (0 < tradedIn order.id entries ∧
            q ≤ order.filledQuantity + tradedIn order.id entries))) := by
  refine or_congr_right (and_congr_right fun _ => ⟨?_, fun hend => ⟨entries, h, hend⟩⟩)
  rintro ⟨es, hes, hend⟩
  obtain rfl := append_cancel_left (hes.symm.trans h)
  exact hend

theorem modifyEnds_topOfBook (h : e'.tape = e.tape ++ entries) (ts : Int) :
    e.ModifyEnds (e'.fireTopOfBook ts) order q ↔ e.ModifyEnds e' order q := by
  have hcancel : ∀ tob, cancelledIn order.id (entries ++ [event (.topOfBook tob)]) ↔
      cancelledIn order.id entries := fun tob => by simp [cancelledIn]
  have htape := tape_fireTopOfBook e' ts
  rw [h, List.append_assoc] at htape
  rw [modifyEnds_iff h, modifyEnds_iff htape, hcancel]
  simp only [tradedIn_append]
  have hzero : ∀ tob, tradedIn order.id [event (.topOfBook tob)] = 0 := fun _ => rfl
  rw [hzero, add_zero]
  rfl

theorem modifyEnds_topOfBookIfChanged (h : e'.tape = e.tape ++ entries) (ts b a : Int) :
    e.ModifyEnds (e'.fireTopOfBookIfChanged ts b a) order q ↔ e.ModifyEnds e' order q := by
  unfold fireTopOfBookIfChanged
  split
  · exact modifyEnds_topOfBook h ts
  · rfl

theorem computeMatchableQty_nonneg {book : Side → List PriceLevel}
    (h : ∀ l ∈ book o.side.opposite, 0 ≤ l.totalQuantity) : 0 ≤ computeMatchableQty book o := by
  refine sum_nonneg fun x hx => ?_
  obtain ⟨l, hl, rfl⟩ := mem_map.mp hx
  exact h l (takeWhile_subset _ hl)

theorem matchAndTrigger_spent (hrem : o.remainingQuantity ≤ 0)
    (hbook : ∀ l ∈ e.book o.side.opposite, 0 ≤ l.totalQuantity) (hdue : ¬e.hasDueStops) (fuel : Nat)
    (ts : Int) : e.matchAndTrigger X (fuel + 1) o ts =
      .ok (e.postMatch o ts (e.bestPrice .buy) (e.bestPrice .sell)) := by
  have hfok : ¬(o.tif = .fok ∧ computeMatchableQty e.book o < o.remainingQuantity) := by
    have := computeMatchableQty_nonneg hbook
    omega
  have hloop : e.matchLoop X ts (fuel + 1) o = .ok (some o, e) := by
    exact if_pos hrem
  have hstill : ¬(e.postMatch o ts (e.bestPrice .buy) (e.bestPrice .sell)).hasDueStops :=
    mt (hasDueStops_congr (stopView_postMatch e o ts _ _)).mp hdue
  simp only [matchAndTrigger, matchOrder, if_neg hfok, hloop]
  exact checkAndTriggerStops_eq hstill _ _ ts

def Engine.noLevelFor (e : Engine D) (order : Order) : Prop :=
  e.levelPool.free = [] ∧
    ∃ o, e.rests o ∧ o.id ≠ order.id ∧ o.side = order.side ∧ o.price = order.price

theorem removeOrder_noLevel {extra : List Nat} (hH : e.holdings.Sound X w extra)
    (hrest : e.rests order) :
    (e.removeOrder order).2.levelPool.allocate.isNone = true ↔ e.noLevelFor order := by
  have hnodup := hH.nodup .limit order.side
  have hside := hH.shape .limit order.side
  obtain ⟨A, l, B, Xs, Ys, hsplit, hf⟩ := exists_focus_of_mem hnodup hrest
  have hsplit' : e.book order.side = A ++ l :: B := hsplit
  have hlevel := hside.sound l (by rw [hsplit]; simp)
  have hlen : l.orderCount = (Xs ++ Ys).length + 1 := by
    rw [hlevel.count, hf.queue]
    simp
    omega
  have hprice : l.price = order.price := ((hlevel.fits order (by simp [hf.queue])).2.2).symm
  have hfreed : (unlinkFrom order (e.book order.side)).2 = true ↔ Xs ++ Ys = [] := by
    rw [hsplit', hf.unlinkFrom_eq, hlen, Nat.add_sub_cancel, ← length_eq_zero_iff]
    split <;> simp_all
  -- company on the level is company at the price
  have hcompany : Xs ++ Ys ≠ [] ↔
      ∃ o, e.rests o ∧ o.id ≠ order.id ∧ o.side = order.side ∧ o.price = order.price := by
    constructor
    · intro hne
      obtain ⟨o, ho⟩ := exists_mem_of_ne_nil _ hne
      have hmem : o ∈ l.orders := by
        rw [hf.queue]
        simp only [List.mem_append, List.mem_cons] at ho ⊢
        tauto
      obtain ⟨hos, -, hop⟩ := hlevel.fits o hmem
      have hin : o ∈ ordersIn (e.book order.side) :=
        mem_ordersIn.mpr ⟨l, by rw [hsplit']; simp, hmem⟩
      exact ⟨o, by rw [rests, hos]; exact hin, hf.inside o ho, hos, hop.trans hprice⟩
    · rintro ⟨o, ho, hid, hos, hop⟩ hnil
      rw [rests, hos] at ho
      obtain ⟨l', hl', ho'⟩ := mem_ordersIn.mp ho
      have hp' : l'.price = l.price :=
        ((hside.sound l' hl').fits o ho').2.2.symm.trans (hop.trans hprice.symm)
      have hsame : l' = l := inj_on_of_nodup_map
        (hside.prices_nodup (strictBefore_book order.side)) hl' (by rw [hsplit]; simp) hp'
      subst hsame
      have hxy := append_eq_nil_iff.mp hnil
      simp only [hf.queue, hxy.1, hxy.2, nil_append, mem_singleton] at ho'
      exact hid (by rw [ho'])
  unfold noLevelFor
  rw [← hcompany, allocate_isNone_iff, removeOrder]
  by_cases hnil : Xs ++ Ys = []
  · rw [if_pos (hfreed.mpr hnil)]
    simp [hnil, ObjectPool.deallocate]
  · rw [if_neg (mt hfreed.mp hnil)]
    simp [hnil, setBook]

theorem modifyEnds_gone (hs : World.Sound X w ⟨e', none⟩)
    (hv : World.view ⟨e', none⟩ order.id = none) (h : e'.tape = e.tape ++ entries) :
    e.ModifyEnds e' order q ↔
      cancelledIn order.id entries ∨
        (0 < tradedIn order.id entries ∧ q ≤ order.filledQuantity + tradedIn order.id entries) := by
  have hgone : ∀ o ∈ e'.linked, o.id ≠ order.id := by
    intro o ho hid
    have hsome := (mem_linked_iff_view hs).mp ho
    rw [hid, hv] at hsome
    simp at hsome
  rw [modifyEnds_iff h]
  refine ⟨?_, fun hend => .inr ⟨hgone, hend⟩⟩
  rintro (⟨o, hrest, hid, -⟩ | ⟨-, hend⟩)
  · exact absurd hid (hgone o (mem_linked.mpr ⟨.limit, _, hrest⟩))
  · exact hend

theorem not_modifyEnds_held (hs : World.Sound X w ⟨e', none⟩)
    (hv : World.view ⟨e', none⟩ order.id = some o) (hrem : o.remainingQuantity ≤ 0) :
    ¬e.ModifyEnds e' order q := by
  have hid : o.id = order.id := ((byId_eq_some hs.nodup).mp hv).2
  rintro (⟨o', hrest, hid', hpos⟩ | ⟨hgone, -⟩)
  · have hv' := (mem_linked_iff_view hs).mp (mem_linked.mpr ⟨.limit, _, hrest⟩)
    rw [hid', hv, Option.some.injEq] at hv'
    subst hv'
    omega
  · exact hgone o ((mem_linked_iff_view hs).mpr (hid ▸ hv)) hid

theorem postMatch_ends_iff {e₁ : Engine D} (order : Order) (hs : World.Sound X False ⟨e₁, some o⟩)
    (hid : o.id = order.id) (htype : o.type = .limit) (hrem : o.remainingQuantity ≤ 0)
    (htape : e₁.tape = e.tape ++ entries) (htraded : tradedIn order.id entries = 0)
    (hkept : ¬cancelledIn order.id entries) (ts b a : Int) :
    e.ModifyEnds (e₁.postMatch o ts b a) order q ↔ o.remainingQuantity < 0 ∧
      (o.tif = .ioc ∨ o.tif = .fok ∨ e₁.levelPool.allocate.isNone = true) := by
  have hdrop : ∀ reason, e.ModifyEnds ((e₁.dropOrder o ts reason).fireTopOfBookIfChanged ts b a)
      order q := by
    intro reason
    have hg : guard X (.drop o ts reason) ⟨e₁, some o⟩ := rfl
    have ht := run_tape X (.drop o ts reason) ⟨e₁, some o⟩
    change (e₁.dropOrder o ts reason).tape = _ at ht
    rw [htape, List.append_assoc] at ht
    rw [modifyEnds_topOfBookIfChanged ht, modifyEnds_gone (hs.run hg False.elim) ?_ ht]
    · exact .inl ⟨ts, reason, by simp [tells, hid]⟩
    · have hv := congrFun (hs.view_run hg) order.id
      rwa [write, hid, Function.update_self] at hv
  unfold postMatch
  split
  next hzero =>
    have hg : guard X (.finish o) ⟨e₁, some o⟩ := ⟨rfl, hzero⟩
    have ht := run_tape X (.finish o) ⟨e₁, some o⟩
    change (e₁.release o).tape = e₁.tape ++ [] at ht
    rw [append_nil, htape] at ht
    have hv := congrFun (hs.view_run hg) order.id
    rw [write, hid, Function.update_self] at hv
    rw [modifyEnds_topOfBookIfChanged ht, modifyEnds_gone (hs.run hg False.elim) hv ht, htraded]
    simp [hkept, hzero]
  next hzero =>
    have hneg : o.remainingQuantity < 0 := by omega
    simp only [htype, reduceCtorEq, if_false, hneg, true_and]
    split
    next htif => simp only [hdrop, htif, true_or]
    next htif =>
      split
      next htif' => simp only [hdrop, htif', true_or, or_true]
      next htif' =>
        have hg : guard X (.rest o ts) ⟨e₁, some o⟩ := ⟨rfl, htype, hzero⟩
        have ht := run_tape X (.rest o ts) ⟨e₁, some o⟩
        change (e₁.insertIntoBook o ts).tape = e₁.tape ++ e₁.refusal o ts at ht
        rw [htape, List.append_assoc] at ht
        have hv := congrFun (hs.view_run hg) order.id
        simp only [write] at hv
        simp only [htif, htif', false_or]
        rw [modifyEnds_topOfBook ht]
        by_cases hfull : e₁.levelPool.allocate.isNone = true
        · rw [if_pos hfull, hid, Function.update_self] at hv
          rw [modifyEnds_gone (hs.run hg False.elim) hv ht]
          refine iff_of_true (.inl ⟨ts, .levelPoolExhausted, ?_⟩) hfull
          simp [refusal, hfull, hid]
        · rw [if_neg hfull, ← hid, hs.view_flight rfl] at hv
          exact iff_of_false
            (not_modifyEnds_held (hs.run hg False.elim) (hid ▸ hv) hrem) hfull

theorem replaceOrder_short (req : ModifyRequest) (hbase : e.tape = e₀.tape ++ [.action a])
    (hs : World.Sound X True ⟨e, none⟩) (hrest : e.rests order)
    (hq : req.newQuantity ≤ order.filledQuantity) (hdue : ¬e.hasDueStops) (fuel : Nat) :
    ∃ e', e.replaceOrder X (fuel + 1) order req = .ok e' ∧
      (e₀.ModifyEnds e' order req.newQuantity ↔ req.newQuantity < order.filledQuantity ∧
        (order.tif = .ioc ∨ order.tif = .fok ∨ e.noLevelFor order)) := by
  let e₁ := (e.removeOrder order).2.reportPull order req (e.removeOrder order).1
  have hpull : e.pullOrder order req = .ok e₁ := by
    simp [pullOrder, bookRemoveOrder, holds_of_mem hrest, e₁]
  obtain ⟨hstops, hbook⟩ := pullOrder_eq (holds_of_mem hrest) hpull
  have hH := hs.holds_none rfl
  have hloose : World.Sound X False ⟨e, none⟩ := .land (hH.mono False.elim)
  have hs₁ : World.Sound X False ⟨e₁, some (order.replaced req)⟩ :=
    hloose.run (m := .pull order req) ⟨rfl, hrest⟩ False.elim
  have htape : e₁.tape = e.tape ++ [.event (.orderModified order.id req.clientOrderId req.newPrice
      req.newQuantity req.timestamp)] := run_tape X (.pull order req) ⟨e, none⟩
  have hlevels : ∀ l ∈ e₁.book (order.replaced req).side.opposite, 0 ≤ l.totalQuantity := by
    intro l hl
    rw [show (order.replaced req).side = order.side from rfl, hbook] at hl
    have hexact := ((hH.shape .limit order.side.opposite).sound l hl).exact trivial
    rw [hexact.total]
    refine sum_nonneg fun x hx => ?_
    obtain ⟨o, ho, rfl⟩ := mem_map.mp hx
    exact (hexact.positive o ho).le
  have hpool : e₁.levelPool = (e.removeOrder order).2.levelPool :=
    congrArg Holdings.levelPool (holdings_reportPull _ order req _)
  have hrem : (order.replaced req).remainingQuantity ≤ 0 := by
    simp only [Order.replaced]
    omega
  have htype : order.type = .limit := type_of_rests hH hrest
  rw [hbase, List.append_assoc] at htape
  refine ⟨e₁.postMatch (order.replaced req) req.timestamp (e₁.bestPrice .buy)
    (e₁.bestPrice .sell), ?_, ?_⟩
  · rw [replaceOrder_eq _ hrest]
    exact matchAndTrigger_spent hrem hlevels (mt (hasDueStops_congr hstops).mp hdue) fuel
      req.timestamp
  · rw [postMatch_ends_iff order hs₁ rfl htype hrem htape rfl (by simp [cancelledIn]), hpool,
      removeOrder_noLevel hH hrest]
    simp [Order.replaced]

theorem amendOrder_ends (hs : World.Sound X True ⟨e, none⟩) (hrest : e.rests order)
    (ha : e.amends X order req = true) :
    e₀.ModifyEnds (e.amendOrder order req) order req.newQuantity := by
  have hg : guard X (.amend order req) ⟨e, none⟩ := guard_amend ha hrest e.rateTracker
  have hmore := hg.2.2.1
  have hs' : World.Sound X True ⟨e.amendOrder order req, none⟩ := hs.run hg fun _ => trivial
  let o : Order := { order with
    quantity := req.newQuantity
    remainingQuantity := req.newQuantity - order.filledQuantity }
  have hv : World.view ⟨e.amendOrder order req, none⟩ o.id = some o :=
    (congrFun (hs.view_run hg) order.id).trans (Function.update_self ..)
  rcases linked_cases (hs'.holds_none rfl) ((mem_linked_iff_view hs').mpr hv) with
    ⟨hrests, -⟩ | ⟨-, hstop⟩
  · exact .inl ⟨o, hrests, rfl, by simp only [o]; omega⟩
  · simp [o, type_of_rests (hs.holds_none rfl) hrest, OrderType.isStop] at hstop

/-- What a modification ends in, at quantities that the products of every policy have room for. -/
theorem reach_modify_ends (hX : X.Resolves) {config : EngineConfig} {derived : D}
    {slots : Nat → SlotResidue} {e : Engine D}
    (h : Reach X (fun e a => e.Admits True False a ∧ e.sized shareCap a)
      (Engine.init X config derived slots) e)
    {req : ModifyRequest} {order : Order} (hrest : e.rests order)
    (htakes : e.TakesModify X req order ∧ req.newQuantity ≤ shareCap)
    (hstops : req.newQuantity ≤ order.filledQuantity → ¬e.hasDueStops) :
    ∃ rounds, ∀ fuel, rounds ≤ fuel →
      (∃ e', e.perform X fuel (.modifyOrder req) = .ok e' ∧
        (e.ModifyEnds e' order req.newQuantity ↔ order.filledQuantity < req.newQuantity ∨
          (req.newQuantity < order.filledQuantity ∧
            (order.tif = .ioc ∨ order.tif = .fok ∨ e.noLevelFor order)))) ∨
      ∃ e', e.perform X fuel (.modifyOrder req) = .error (.fillBuffer, e') := by
  have hs : World.Sound X True ⟨e, none⟩ :=
    reach_sound (init_sound X True config derived slots) (fun _ _ ha => ha.1) h
  obtain ⟨t, heq⟩ := perform_taken (hs.holds_none rfl) (mem_linked.mpr ⟨.limit, _, hrest⟩) htakes.1
  let e₁ : Engine D := { e.record (.modifyOrder req) with rateTracker := t }
  have hs₂ : World.Sound X True ⟨e₁, none⟩ := .land (hs.holds_none rfl)
  have hbase : e₁.tape = e.tape ++ [.action (.modifyOrder req)] := by
    simp [e₁, tape, record, told]
  have hrest₁ : e₁.rests order := hrest
  by_cases hq : order.filledQuantity < req.newQuantity
  · obtain ⟨rounds, hends⟩ := replaceOrder_ends hX hbase hs₂ hrest₁ hq
    refine ⟨rounds, fun fuel hfuel => ?_⟩
    rw [heq fuel]
    dsimp only
    split
    next hamends =>
      exact .inl ⟨_, rfl, iff_of_true (amendOrder_ends hs₂ hrest₁ hamends) (.inl hq)⟩
    next =>
      refine (hends fuel hfuel).imp_left ?_
      rintro ⟨e', hok, hend⟩
      exact ⟨e', hok, iff_of_true hend (.inl hq)⟩
  · refine ⟨1, fun fuel hfuel => .inl ?_⟩
    obtain ⟨n, rfl⟩ := Nat.exists_eq_add_of_le' hfuel
    have hamends : e.amends X order req = false := by simp [amends, hq]
    obtain ⟨e', hok, hend⟩ := replaceOrder_short (X := X) req hbase hs₂ hrest₁
      (by omega) (hstops (by omega)) n
    refine ⟨e', ?_, ?_⟩
    · rw [heq, hamends]
      exact hok
    · simp only [hq, false_or]
      exact hend

def soldEngine : Engine Unit := runAll sampleExchange
  [.newOrder (limitRequest .sell 100 10), .newOrder (limitRequest .buy 100 6)]
  (sampleStart sampleExchange sampleConfig ())

theorem soldEngine_reach : Reach sampleExchange
    (fun e a => e.Admits True False a ∧ e.sized shareCap a)
    (sampleStart sampleExchange sampleConfig ()) soldEngine :=
  reach_runAll (by simp [Admits, sized, shareCap, limitRequest]) (by decide +kernel)

theorem soldEngine_rests : ∃ order, soldEngine.rests order ∧ order.filledQuantity = 6 ∧
    order.id = 1 := by
  have hfound : ∃ o ∈ ordersIn (soldEngine.book .sell), o.side = .sell ∧ o.filledQuantity = 6 ∧
      o.id = 1 := by decide +kernel
  obtain ⟨o, ho, hside, hfilled, hid⟩ := hfound
  exact ⟨o, by rwa [rests, hside], hfilled, hid⟩

theorem soldEngine_takes (hid : order.id = 1) (hq : 0 < q) :
    soldEngine.TakesModify sampleExchange ⟨1, 0, 101, q, 2⟩ order where
  opened := by decide +kernel
  named := hid
  known := by
    change soldEngine.unknown sampleExchange 1 = false
    decide +kernel
  paced := rfl
  checked := by
    have hconf : soldEngine.config = sampleConfig := by decide +kernel
    have hpolicy : sampleExchange.getModifyPolicy soldEngine.derived ≠ .rejectModify := by
      decide +kernel
    simp only [modifyChecks, hconf, hpolicy]
    simp [firstFailure, sampleConfig, hq]

/-- The offer is brought to 12: it rests at 101. -/
theorem reach_modify_ends_sample : ∃ order, soldEngine.rests order ∧ order.filledQuantity = 6 ∧
    ∃ rounds, ∀ fuel, rounds ≤ fuel →
      (∃ e', soldEngine.perform sampleExchange fuel (.modifyOrder ⟨1, 0, 101, 12, 2⟩) = .ok e' ∧
        (soldEngine.ModifyEnds e' order 12 ↔ order.filledQuantity < 12 ∨ (12 < order.filledQuantity ∧
          (order.tif = .ioc ∨ order.tif = .fok ∨ soldEngine.noLevelFor order)))) ∨
      ∃ e', soldEngine.perform sampleExchange fuel (.modifyOrder ⟨1, 0, 101, 12, 2⟩) =
        .error (.fillBuffer, e') := by
  obtain ⟨order, hrest, hfilled, hid⟩ := soldEngine_rests
  have hX : sampleExchange.Resolves := fun _ _ _ _ h => absurd h (by simp [sampleExchange])
  refine ⟨order, hrest, hfilled, ?_⟩
  exact reach_modify_ends hX soldEngine_reach hrest ⟨soldEngine_takes hid (by decide), by decide⟩
    fun hq => absurd hq (by simp [hfilled])

/-- The offer is asked for 4 when 6 are sold: it rests with 2 less than nothing. -/
theorem modified_below_filled : ¬∀ e : Engine Unit,
    Reach sampleExchange (fun e a => e.Admits True False a ∧ e.sized shareCap a)
      (sampleStart sampleExchange sampleConfig ()) e →
    ∀ req order, e.rests order → e.TakesModify sampleExchange req order →
      ∃ e', e.perform sampleExchange 20 (.modifyOrder req) = .ok e' ∧
        e.ModifyEnds e' order req.newQuantity := by
  intro h
  obtain ⟨order, hrest, -, hid⟩ := soldEngine_rests
  obtain ⟨e', hok, hend⟩ := h soldEngine soldEngine_reach _ order hrest
    (soldEngine_takes (q := 4) hid (by decide))
  have hisOk : (soldEngine.perform sampleExchange 20 (.modifyOrder ⟨1, 0, 101, 4, 2⟩)).isOk =
      true := by decide +kernel
  obtain rfl := Except.ok.inj ((Outcome.eq_ok hisOk).symm.trans hok)
  rcases hend with ⟨o, ho, hid', hpos⟩ | ⟨hgone, -⟩
  · have hneg : ∀ s ∈ [Side.buy, Side.sell], ∀ o ∈ ordersIn ((Outcome.engine (soldEngine.perform
        sampleExchange 20 (.modifyOrder ⟨1, 0, 101, 4, 2⟩))).book s),
        o.id = 1 → o.remainingQuantity = -2 := by decide +kernel
    have := hneg o.side (by cases o.side <;> simp) o ho (hid'.trans hid)
    omega
  · have hthere : ∃ o ∈ (Outcome.engine (soldEngine.perform sampleExchange 20
        (.modifyOrder ⟨1, 0, 101, 4, 2⟩))).linked, o.id = 1 := by decide +kernel
    obtain ⟨o, ho, hid'⟩ := hthere
    exact hgone o ho (hid'.trans hid.symm)

end ExchangeSim
