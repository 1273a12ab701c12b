import ExchangeSim.BookShape

/-!
`mass_cancel`, `mass_cancel_all` and `trigger_expiry` scan the index and cancel the selected orders
one after the other. Together that is a filter of every queue of both books.
-/

namespace ExchangeSim

open Engine List JournalEntry PriceLevel

variable {D : Type} {X : Exchange D} {w : Prop} {p q : Order → Bool} {e : Engine D} {o : Order}
  {l : PriceLevel} {lvls : List PriceLevel}

def PriceLevel.prune (p : Order → Bool) (l : PriceLevel) : PriceLevel :=
  { l with
    orders := l.orders.filter fun o => !p o
    totalQuantity := l.totalQuantity - sumQty (l.orders.filter p)
    orderCount := l.orderCount - (l.orders.filter p).length }

def prune (p : Order → Bool) (lvls : List PriceLevel) : List PriceLevel :=
  (lvls.map (·.prune p)).filter fun l => !l.orders.isEmpty

theorem PriceLevel.prune_congr (h : ∀ o ∈ l.orders, p o = q o) : l.prune p = l.prune q := by
  have hkeep : l.orders.filter (fun o => !p o) = l.orders.filter fun o => !q o :=
    filter_congr fun o ho => by rw [h o ho]
  simp [prune, filter_congr h, hkeep]

theorem prune_congr (h : ∀ o ∈ ordersIn lvls, p o = q o) : prune p lvls = prune q lvls := by
  have hmap : lvls.map (·.prune p) = lvls.map (·.prune q) :=
    map_congr_left fun l hl =>
      PriceLevel.prune_congr fun o ho => h o (mem_ordersIn.mpr ⟨l, hl, ho⟩)
  rw [prune, hmap, prune]

theorem PriceLevel.prune_none (h : ∀ o ∈ l.orders, p o = false) : l.prune p = l := by
  have hkeep : l.orders.filter (fun o => !p o) = l.orders :=
    filter_eq_self.mpr fun o ho => by simp [h o ho]
  have hgone : l.orders.filter p = [] := filter_eq_nil_iff.mpr fun o ho => by simp [h o ho]
  simp [prune, hkeep, hgone]

theorem prune_none (hne : ∀ l ∈ lvls, l.orders ≠ []) (h : ∀ o ∈ ordersIn lvls, p o = false) :
    prune p lvls = lvls := by
  have hmap : lvls.map (·.prune p) = lvls := map_eq_self fun l hl =>
    PriceLevel.prune_none fun o ho => h o (mem_ordersIn.mpr ⟨l, hl, ho⟩)
  rw [prune, hmap]
  exact filter_eq_self.mpr fun l hl => by simpa using hne l hl

theorem filter_parts (os : List Order) :
    sumQty (os.filter fun o => p o || q o) =
        sumQty (os.filter p) + sumQty ((os.filter fun o => !p o).filter q) ∧
      (os.filter fun o => p o || q o).length =
        (os.filter p).length + ((os.filter fun o => !p o).filter q).length := by
  induction os with
  | nil => simp [sumQty]
  | cons o os ih =>
    obtain ⟨hsum, hlen⟩ := ih
    cases hp : p o <;> cases hq : q o <;> simp [hp, hq, hsum, hlen] <;> omega

theorem PriceLevel.prune_prune (l : PriceLevel) :
    (l.prune p).prune q = l.prune fun o => p o || q o := by
  obtain ⟨hsum, hlen⟩ := filter_parts (p := p) (q := q) l.orders
  have hkeep : (l.orders.filter fun o => !p o).filter (fun o => !q o) =
      l.orders.filter fun o => !(p o || q o) := by
    rw [filter_filter]
    exact filter_congr fun o _ => by rw [Bool.not_or, Bool.and_comm]
  simp only [prune, hkeep, hsum, hlen, mk.injEq, true_and, and_true]
  omega

theorem prune_prune (lvls : List PriceLevel) :
    prune q (prune p lvls) = prune (fun o => p o || q o) lvls := by
  induction lvls with
  | nil => rfl
  | cons l lvls ih =>
    simp only [prune, List.map_cons] at ih ⊢
    by_cases hempty : (l.prune p).orders = []
    · have hall : (l.prune fun o => p o || q o).orders = [] := by
        rw [← PriceLevel.prune_prune]
        simp [PriceLevel.prune, show l.orders.filter (fun o => !p o) = [] from hempty]
      simp only [List.filter_cons, hempty, hall, List.isEmpty_nil, Bool.not_true,
        Bool.false_eq_true, if_false]
      exact ih
    · have hstay : (!(l.prune p).orders.isEmpty) = true := by simpa using hempty
      simp [List.filter_cons, hstay, PriceLevel.prune_prune, ih]

theorem ordersIn_prune (lvls : List PriceLevel) :
    ordersIn (prune p lvls) = (ordersIn lvls).filter fun o => !p o := by
  induction lvls with
  | nil => rfl
  | cons l lvls ih =>
    simp only [prune, map_cons] at ih ⊢
    by_cases hempty : (l.prune p).orders = []
    · have hgone : l.orders.filter (fun o => !p o) = [] := hempty
      simp [hempty, ih, hgone]
    · have hstay : (!(l.prune p).orders.isEmpty) = true := by simpa using hempty
      simp only [filter_cons, hstay, if_true, ordersIn_cons, ih, filter_append]
      rfl

theorem prune_append (A B : List PriceLevel) : prune p (A ++ B) = prune p A ++ prune p B := by
  simp [prune]

/-- `remove_order` and `remove_stop` cancel one order and nothing else. -/
theorem Focus.unlinkFrom_prune {A B : List PriceLevel} {Xs Ys : List Order}
    (hf : Focus o A l B Xs Ys) (hne : ∀ m ∈ A ++ l :: B, m.orders ≠ [])
    (hcount : l.orderCount = l.orders.length) :
    (unlinkFrom o (A ++ l :: B)).1 = prune (fun x => x.id == o.id) (A ++ l :: B) := by
  have hclear : ∀ C, (∀ m ∈ C, m ∈ A ++ B) → prune (fun x => x.id == o.id) C = C := by
    intro C hC
    refine prune_none (fun m hm => hne m ?_) fun x hx => ?_
    · have := hC m hm
      simp only [List.mem_append, List.mem_cons] at this ⊢
      tauto
    · obtain ⟨m, hm, hx⟩ := mem_ordersIn.mp hx
      simpa using PriceLevel.has_eq_false.mp (hf.outside m (hC m hm)) x hx
  have hgone : l.orders.filter (fun x => x.id == o.id) = [o] := by
    have hnone : ∀ os : List Order, (∀ x ∈ os, x ∈ Xs ++ Ys) →
        os.filter (fun x => x.id == o.id) = [] := fun os hos =>
      List.filter_eq_nil_iff.mpr fun x hx => by simpa using hf.inside x (hos x hx)
    rw [hf.queue, List.filter_append, hnone Xs (by simp +contextual),
      List.filter_cons_of_pos (by simp), hnone Ys (by simp +contextual), List.nil_append]
  have hlevel : l.prune (fun x => x.id == o.id) = l.unlink o := by
    simp only [PriceLevel.prune, PriceLevel.unlink, hgone, List.length_singleton, sumQty_cons]
    simp [sumQty, bne]
  have hlen : l.orders.length = (Xs ++ Ys).length + 1 := by simp [hf.queue]; omega
  rw [hf.unlinkFrom_eq, prune_append, hclear A (by simp +contextual),
    show l :: B = [l] ++ B from rfl, prune_append, hclear B (by simp +contextual)]
  have hsingle : prune (fun x => x.id == o.id) [l] =
      if (l.unlink o).orders = [] then [] else [l.unlink o] := by
    simp only [prune, List.map_cons, List.map_nil, hlevel, List.filter_cons, List.filter_nil]
    by_cases hempty : (l.unlink o).orders = [] <;> simp [hempty]
  have hrest : (l.unlink o).orders = Xs ++ Ys := hf.filter_queue
  rw [hsingle, hrest]
  by_cases hlast : l.orderCount - 1 = 0
  · have hnil : Xs ++ Ys = [] := List.length_eq_zero_iff.mp (by omega)
    rw [if_pos hlast, if_pos hnil, List.nil_append]
  · have hnil : Xs ++ Ys ≠ [] := fun h => hlast (by simp [h] at hlen; omega)
    rw [if_neg hlast, if_neg hnil]
    rfl

def JournalEntry.cancelled : JournalEntry → Option (Nat × Int × CancelReason)
  | .event (.orderCancelled id ts reason) => some (id, ts, reason)
  | _ => none

def Engine.cancellations (e : Engine D) : List (Nat × Int × CancelReason) :=
  e.journal.filterMap JournalEntry.cancelled

@[simp] theorem cancellations_emit (ev : Event) (e : Engine D) : (e.emit ev).cancellations =
    e.cancellations ++ (cancelled (.event ev)).toList := by
  cases ev <;> simp [cancellations, emit, cancelled]

@[simp] theorem cancellations_sheet (e : Engine D) : e.sheet.cancellations = e.cancellations :=
  filterMap_logged (fun _ => rfl) e.journal

theorem Holdings.Sound.takeOut_lvls {H : Holdings} {extra : List Nat} (h : H.Sound X w extra)
    {k : Shelf} (ho : o ∈ ordersIn (H.lvls k o.side)) (k' : Shelf) (s : Side) :
    (H.takeOut k o).lvls k' s = prune (fun x => x.id == o.id) (H.lvls k' s) := by
  have hne : ∀ k s, ∀ l ∈ H.lvls k s, l.orders ≠ [] := fun k s l hl =>
    ((h.shape k s).sound l hl).nonempty
  by_cases hks : k' = k ∧ s = o.side
  · obtain ⟨rfl, rfl⟩ := hks
    obtain ⟨A, l, B, Xs, Ys, hsplit, hf⟩ := exists_focus_of_mem (h.nodup k' o.side) ho
    have hcount := (hsplit ▸ h.shape k' o.side).level.count
    simp only [Holdings.takeOut, Holdings.set_self]
    rw [hsplit]
    exact hf.unlinkFrom_prune (fun m hm => hne k' o.side m (hsplit ▸ hm)) hcount
  · simp only [Holdings.takeOut, Holdings.set_other hks]
    refine (prune_none (hne k' s) fun x hx => ?_).symm
    obtain ⟨l, hl, hx⟩ := mem_ordersIn.mp hx
    have hnot := h.has_eq_false k k' o.side s hks ho l hl
    simpa using PriceLevel.has_eq_false.mp hnot x hx

@[simp] theorem cancellations_fireTopOfBookIfChanged (ts bid ask : Int) (e : Engine D) :
    (e.fireTopOfBookIfChanged ts bid ask).cancellations = e.cancellations := by
  unfold fireTopOfBookIfChanged
  split
  · simp [fireTopOfBook, cancelled]
  · rfl

theorem cancelActiveOrder_eq (hH : e.holdings.Sound X w []) (ho : o ∈ e.linked) (ts : Int)
    (reason : CancelReason) :
    ∃ k e', o ∈ ordersIn (e.shelf k o.side) ∧ e.cancelActiveOrder o ts reason = .ok e' ∧
      e'.holdings = (e.holdings.takeOut k o).release o ∧
      e'.cancellations = e.cancellations ++ [(o.id, ts, reason)] := by
  rcases cancelActiveOrder_cases hH ho ts reason with ⟨hrest, heq⟩ | ⟨hwait, heq⟩
  · refine ⟨.limit, _, hrest, heq, by simp, ?_⟩
    rw [cancellations_fireTopOfBookIfChanged, ← cancellations_sheet]
    simp [cancelled]
  · refine ⟨.stop, _, hwait, heq, by simp, ?_⟩
    rw [← cancellations_sheet]
    simp [cancelled]

theorem cancelActiveOrder_prunes (hH : e.holdings.Sound X w []) (ho : o ∈ e.linked) (ts : Int)
    (reason : CancelReason) :
    ∃ e', e.cancelActiveOrder o ts reason = .ok e' ∧ e'.holdings.Sound X w [] ∧
      (∀ k s, e'.shelf k s = prune (fun x => x.id == o.id) (e.shelf k s)) ∧
      e'.cancellations = e.cancellations ++ [(o.id, ts, reason)] := by
  obtain ⟨k, e', hk, hcancel, hhold, htold⟩ := cancelActiveOrder_eq hH ho ts reason
  refine ⟨e', hcancel, ?_, ?_, htold⟩
  · rw [hhold]
    exact (hH.takeOut hk).release
  · intro k' s
    have hlvls := congrArg (fun H => H.lvls k' s) hhold
    exact hlvls.trans (hH.takeOut_lvls hk k' s)

def Engine.selectedIds (select : Order → Bool) (ids : List Nat) (e : Engine D) : List Nat :=
  ids.filter fun id => e.linked.any fun o => o.id == id && select o

theorem linked_prune {e' : Engine D} (h : ∀ k s, e'.shelf k s = prune p (e.shelf k s)) :
    e'.linked = e.linked.filter fun o => !p o := by
  have hbook : ∀ s, e'.book s = prune p (e.book s) := h .limit
  have hstop : ∀ s, e'.stopBook s = prune p (e.stopBook s) := h .stop
  simp [linked, hbook, hstop, ordersIn_prune]

theorem linked_unique (hH : e.holdings.Sound X w []) {x : Order} (ho : o ∈ e.linked)
    (hx : x ∈ e.linked) (hid : x.id = o.id) : x = o := by
  have hnodup := hH.owns.nodup
  rw [nil_append, holdings_ids] at hnodup
  exact inj_on_of_nodup_map hnodup hx ho hid

/-- The scan of the index takes the selected orders with an id in `ids` out of every queue. -/
theorem cancelWhere_prunes (select : Order → Bool) (ts : Int) (reason : CancelReason)
    {ids : List Nat} (hids : ids.Nodup) (count : Nat) (hH : e.holdings.Sound X w []) :
    ∃ e', e.cancelWhere select ts reason ids count =
        .ok (count + (e.selectedIds select ids).length, e') ∧
      (∀ k s, e'.shelf k s = prune (fun o => select o && ids.contains o.id) (e.shelf k s)) ∧
      e'.cancellations = e.cancellations ++ (e.selectedIds select ids).map (·, ts, reason) := by
  induction ids generalizing count e with
  | nil =>
    refine ⟨e, rfl, fun k s => (prune_none (fun l hl => ?_) (by simp)).symm, by simp [selectedIds]⟩
    exact ((hH.shape k s).sound l hl).nonempty
  | cons id ids ih =>
    obtain ⟨hnot, hids⟩ := List.nodup_cons.mp hids
    -- an id without a selected order changes nothing
    have hskip : (∀ o ∈ e.linked, o.id = id → select o = false) →
        e.selectedIds select (id :: ids) = e.selectedIds select ids ∧
          ∀ k s, prune (fun o => select o && (id :: ids).contains o.id) (e.shelf k s) =
            prune (fun o => select o && ids.contains o.id) (e.shelf k s) := by
      intro hnone
      refine ⟨?_, fun k s => prune_congr fun o ho => ?_⟩
      · rw [selectedIds, filter_cons_of_neg, selectedIds]
        simp only [any_eq_true, Bool.and_eq_true, beq_iff_eq, not_exists, not_and]
        exact fun o ho hid => by simp [hnone o ho hid]
      · by_cases hid : o.id = id
        · simp [hnone o (mem_linked.mpr ⟨k, s, ho⟩) hid]
        · simp [hid]
    unfold cancelWhere
    split
    next hnone =>
      have hfree : ∀ o ∈ e.linked, o.id = id → select o = false := by
        intro o ho hid
        have hidx := (hH.owns.index o.id o.id).mpr ⟨rfl, by
          rw [nil_append, holdings_ids]
          exact mem_map.mpr ⟨o, ho, rfl⟩⟩
        have hentry : e.orderIndex o.id = some o.id := hidx
        simp [← hid, hentry] at hnone
      obtain ⟨hsel, hprune⟩ := hskip hfree
      simpa only [hsel, hprune] using ih hids count hH
    next hset =>
      obtain ⟨o, hord, hid, ho⟩ := indexed_eq hH (Bool.eq_false_iff.mpr hset)
      simp only [hord]
      split
      next hsel =>
        obtain ⟨e₁, hcancel, hH₁, hshelf₁, htold₁⟩ := cancelActiveOrder_prunes hH ho ts reason
        obtain ⟨e₂, hrest, hshelf₂, htold₂⟩ := ih hids (count + 1) hH₁
        have hlinked := linked_prune hshelf₁
        have hsame : e₁.selectedIds select ids = e.selectedIds select ids := by
          refine filter_congr fun j hj => ?_
          have hne : j ≠ o.id := fun h => hnot (hid ▸ h ▸ hj)
          rw [hlinked, any_filter]
          congr 1
          funext x
          by_cases hx : x.id = j
          · simp [hx, hne]
          · simp [hx]
        have hfirst : e.selectedIds select (id :: ids) = id :: e.selectedIds select ids := by
          rw [selectedIds, filter_cons_of_pos, selectedIds]
          exact any_eq_true.mpr ⟨o, ho, by simp [hid, hsel]⟩
        simp only [hcancel]
        refine ⟨e₂, ?_, fun k s => ?_, ?_⟩
        · rw [hrest, hsame, hfirst, List.length_cons]
          congr 2
          omega
        · rw [hshelf₂, hshelf₁, prune_prune]
          refine prune_congr fun x hx => ?_
          by_cases hxid : x.id = o.id
          · rw [linked_unique hH ho (mem_linked.mpr ⟨k, s, hx⟩) hxid]
            simp [hsel, hid]
          · simp [hxid, ← hid]
        · rw [htold₂, htold₁, hsame, hfirst, hid]
          simp
      next hsel =>
        have hfree : ∀ x ∈ e.linked, x.id = id → select x = false := by
          intro x hx hxid
          rw [linked_unique hH ho hx (hxid.trans hid.symm)]
          simpa using hsel
        obtain ⟨hsame, hprune⟩ := hskip hfree
        simpa only [hsame, hprune] using ih hids count hH

/-- The live orders in `select` are cancelled, each with one report, and nothing else is: every
queue keeps its other orders as they are and in their order. -/
structure Engine.Cancels (select : Order → Bool) (ts : Int) (reason : CancelReason) (n : Nat)
    (e e' : Engine D) : Prop where
  queues : ∀ k s, e'.shelf k s = prune select (e.shelf k s)
  told : ∃ ids : List Nat, e'.cancellations = e.cancellations ++ ids.map (·, ts, reason) ∧ ids.Nodup ∧
    ids.Perm ((e.linked.filter select).map (·.id))
  count : n = (e.linked.filter select).length

theorem mem_assignedIds (hH : e.holdings.Sound X w []) (ho : o ∈ e.linked) :
    o.id ∈ e.assignedIds := by
  have hassigned : 0 < o.id ∧ o.id < e.nextOrderId := hH.owns.assigned o.id (by
    rw [nil_append, holdings_ids]
    exact mem_map.mpr ⟨o, ho, rfl⟩)
  rw [assignedIds, mem_range'_1]
  omega

theorem cancelWhere_cancels (select : Order → Bool) (ts : Int) (reason : CancelReason)
    (hH : e.holdings.Sound X w []) :
    ∃ n e', e.cancelWhere select ts reason e.assignedIds 0 = .ok (n, e') ∧
      e.Cancels select ts reason n e' := by
  have hids : e.assignedIds.Nodup := nodup_range'
  obtain ⟨e', hcancel, hshelf, htold⟩ := cancelWhere_prunes select ts reason hids 0 hH
  have hlinked : (e.linked.map (·.id)).Nodup := by
    have := hH.owns.nodup
    rwa [nil_append, holdings_ids] at this
  have hperm : (e.selectedIds select e.assignedIds).Perm ((e.linked.filter select).map (·.id)) := by
    refine (perm_ext_iff_of_nodup (hids.filter _)
      (hlinked.sublist (filter_sublist.map _))).mpr fun id => ?_
    simp only [mem_filter, any_eq_true, Bool.and_eq_true, beq_iff_eq, mem_map]
    constructor
    · rintro ⟨-, o, ho, hid, hsel⟩
      exact ⟨o, ⟨ho, hsel⟩, hid⟩
    · rintro ⟨o, ⟨ho, hsel⟩, rfl⟩
      exact ⟨mem_assignedIds hH ho, o, ho, rfl, hsel⟩
  refine ⟨_, e', hcancel, ⟨fun k s => ?_, ⟨_, htold, hids.filter _, hperm⟩, ?_⟩⟩
  · rw [hshelf]
    refine prune_congr fun o ho => ?_
    simp [mem_assignedIds hH (mem_linked.mpr ⟨k, s, ho⟩)]
  · rw [Nat.zero_add, hperm.length_eq, length_map]

/-- Mass cancel and expiry cancel exactly the live orders they are for, in either book. -/
theorem reach_massCancel (X : Exchange D) (config : EngineConfig) (derived : D)
    (slots : Nat → SlotResidue) {e : Engine D}
    (h : Reach X Engine.ordinary (Engine.init X config derived slots) e) (account : Nat)
    (ts now : Int) (tif : TimeInForce) :
    (∃ n e', e.massCancel account ts = .ok (n, e') ∧
      e.Cancels (fun o => decide (o.accountId = account)) ts .massCancelled n e') ∧
    (∃ n e', e.massCancelAll ts = .ok (n, e') ∧
      e.Cancels (fun _ => true) ts .massCancelled n e') ∧
    (∃ n e', e.triggerExpiry now tif = .ok (n, e') ∧
      e.Cancels (fun o => decide (o.tif = tif ∧ (tif = .day ∨ tif = .gtd ∧ o.gtdExpiry ≤ now)))
        now .expired n e') := by
  have hsound : World.Sound X False ⟨e, none⟩ :=
    reach_sound (init_sound X False config derived slots) (fun _ _ ha => ha.admits False) h
  have hH := hsound.holds_none rfl
  have hexpire : (fun o : Order => decide (o.tif = tif ∧
      (tif = .day ∨ tif = .gtd ∧ o.gtdExpiry ≤ now))) = Order.shouldExpire now tif := by
    funext o
    cases tif <;> simp [Order.shouldExpire]
  refine ⟨cancelWhere_cancels _ ts _ hH, cancelWhere_cancels _ ts _ hH, ?_⟩
  rw [hexpire]
  exact cancelWhere_cancels _ now _ hH

def crowdedStart : Engine Unit :=
  runAll sampleExchange
    [.newOrder (limitRequest .sell 100 5), .newOrder { limitRequest .sell 100 3 with accountId := 2 },
      .newOrder { limitRequest .buy 0 2 with type := .stop, stopPrice := 110, tif := .day }]
    (sampleStart sampleExchange sampleConfig ())

/-- The first offer and the stop go with account 1, the stop with the day. -/
theorem reach_massCancel_sample :
    Reach sampleExchange Engine.ordinary (sampleStart sampleExchange sampleConfig ()) crowdedStart ∧
    (∃ n e', crowdedStart.massCancel 1 5 = .ok (n, e') ∧
      crowdedStart.Cancels (fun o => decide (o.accountId = 1)) 5 .massCancelled n e') ∧
    (∃ n e', crowdedStart.massCancelAll 5 = .ok (n, e') ∧
      crowdedStart.Cancels (fun _ => true) 5 .massCancelled n e') ∧
    (∃ n e', crowdedStart.triggerExpiry 7 .day = .ok (n, e') ∧
      crowdedStart.Cancels (fun o => decide (o.tif = .day ∧
        (TimeInForce.day = .day ∨ TimeInForce.day = .gtd ∧ o.gtdExpiry ≤ 7))) 7 .expired n e') :=
  have hreach : Reach sampleExchange ordinary (sampleStart sampleExchange sampleConfig ())
      crowdedStart :=
    reach_runAll (by simp [ordinary]) (by decide +kernel)
  ⟨hreach, reach_massCancel sampleExchange sampleConfig () (fun _ => {}) hreach 1 5 7 .day⟩

example : (crowdedStart.linked.filter fun o => decide (o.accountId = 1)).map (·.id) = [1, 3] := by
  decide +kernel

end ExchangeSim
