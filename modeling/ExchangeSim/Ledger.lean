import ExchangeSim.Records

namespace ExchangeSim

open Option

variable {D : Type} {X : Exchange D} {w : Prop} {W : World D} {o o' : Order}
  {r : Option OrderRecord} {q : Int} {e : Engine D} {req : OrderRequest} {m : Move D}

def Register.Bounded (g : Register) : Prop :=
  ∀ id, ∀ r ∈ g.record id, r.traded ≤ r.quantity

structure Order.Whole (o : Order) : Prop where
  shown : o.filledQuantity + o.remainingQuantity = o.quantity
  total : o.displayQty ≤ 0 ∨ o.totalQty ≤ o.quantity

/-- An iceberg that may have a hidden part. -/
structure Order.Part (o : Order) : Prop where
  shown : o.filledQuantity + o.remainingQuantity ≤ o.quantity
  display : 0 < o.displayQty
  total : o.totalQty = o.quantity
  enters : o.type.isStop = false

/-- How the five quantities of an order hang together. -/
structure Order.Lawful (o : Order) : Prop where
  remaining : 0 ≤ o.remainingQuantity
  split : o.Whole ∨ o.Part

def Ledger (r : Option OrderRecord) : Option Order → Prop
  | some o => o.Lawful ∧ ∃ x ∈ r, x.traded = o.filledQuantity ∧ x.quantity = o.quantity
  | none => ∀ x ∈ r, x.traded ≤ x.quantity ∧ (x.traded = x.quantity ∨ x.cancelled = true)

theorem Order.Lawful.filled_le (h : o.Lawful) : o.filledQuantity ≤ o.quantity := by
  have hrem := h.remaining
  rcases h.split with hw | hp
  · have := hw.shown
    omega
  · have := hp.shown
    omega

theorem Ledger.bounded {o : Option Order} (h : Ledger r o) : ∀ x ∈ r, x.traded ≤ x.quantity := by
  intro x hx
  cases o with
  | none => exact (h x hx).1
  | some o =>
    obtain ⟨hlaw, y, hy, ht, hq⟩ := h
    obtain rfl : x = y := mem_unique hx hy
    rw [ht, hq]
    exact hlaw.filled_le

theorem Ledger.cancel (h : Ledger r (some o)) : Ledger (r.map (·.cancel)) none := by
  intro x hx
  obtain ⟨y, hy, rfl⟩ := mem_map.mp hx
  exact ⟨h.bounded y hy, .inr rfl⟩

theorem Ledger.rewrite (h : Ledger r (some o)) (hlaw : o'.Lawful)
    (hf : o'.filledQuantity = o.filledQuantity) (hq : o'.quantity = o.quantity) :
    Ledger r (some o') := by
  obtain ⟨-, x, hx, ht, hqty⟩ := h
  exact ⟨hlaw, x, hx, by rw [hf, ht], by rw [hq, hqty]⟩

theorem Ledger.trade (h : Ledger r (some o)) (hlaw : o'.Lawful)
    (hf : o'.filledQuantity = o.filledQuantity + q) (hq : o'.quantity = o.quantity) :
    Ledger (r.map (·.trade q)) (some o') := by
  obtain ⟨-, x, hx, ht, hqty⟩ := h
  refine ⟨hlaw, x.trade q, mem_map.mpr ⟨x, hx, rfl⟩, ?_, ?_⟩
  · simp [OrderRecord.trade, ht, hf]
  · simp [OrderRecord.trade, hqty, hq]

theorem Ledger.settled (h : Ledger r (some o)) (hq : q ≤ o.remainingQuantity) :
    Ledger (r.map (·.trade q)) (o.settled q) := by
  have hlaw := h.1
  unfold Order.settled
  split
  next hzero =>
    split
    next hnext =>
      have hn : 0 < o.displayQty ∧ o.filledQuantity + q < o.totalQty :=
        Order.hasNextTranche_iff.mp hnext
      have hpart : o.Part := by
        refine hlaw.split.resolve_left fun hw => ?_
        have := hw.shown
        have := hw.total
        omega
      have hpos := Order.nextTranche_pos hnext
      refine h.trade ⟨hpos.le, .inr ⟨?_, hpart.display, hpart.total, hpart.enters⟩⟩ rfl rfl
      have hle : (o.fill q).nextTranche ≤ o.totalQty - (o.filledQuantity + q) := min_le_right _ _
      have := hpart.total
      simp only [Order.fill] at hle ⊢
      omega
    next hnext =>
      have hend : ¬(0 < o.displayQty ∧ o.filledQuantity + q < o.totalQty) := fun hn =>
        hnext (Order.hasNextTranche_iff.mpr hn)
      obtain ⟨-, x, hx, ht, hqty⟩ := h
      intro y hy
      obtain ⟨z, hz, rfl⟩ := mem_map.mp hy
      obtain rfl : x = z := mem_unique hx hz
      have hall : o.filledQuantity + q = o.quantity := by
        rcases hlaw.split with hw | hp
        · have := hw.shown
          omega
        · have := hp.shown
          have := hp.total
          have := hp.display
          omega
      simp only [OrderRecord.trade, ht, hqty]
      exact ⟨hall.le, .inl hall⟩
  next hzero =>
    refine h.trade ⟨by simp only [Order.fill]; omega, hlaw.split.imp (fun hw => ?_) fun hp => ?_⟩
      rfl rfl
    · have := hw.shown
      exact ⟨by simp only [Order.fill]; omega, hw.total⟩
    · have := hp.shown
      exact ⟨by simp only [Order.fill]; omega, hp.display, hp.total, hp.enters⟩

theorem Ledger.modify (h : Ledger r (some o)) (price quantity : Int) (hlaw : o'.Lawful)
    (hf : o'.filledQuantity = o.filledQuantity) (hq : o'.quantity = quantity) :
    Ledger (r.map (·.modify price quantity)) (some o') := by
  obtain ⟨-, x, hx, ht, -⟩ := h
  exact ⟨hlaw, x.modify price quantity, mem_map.mpr ⟨x, hx, rfl⟩, by rw [hf]; exact ht,
    hq.symm⟩

def OrderRequest.shown (req : OrderRequest) : Prop :=
  req.displayQty ≤ 0 ∨ req.displayQty = req.quantity

theorem buildOrder_lawful (slot : SlotResidue) (h : firstFailure (e.newOrderChecks X req) = none)
    (hstop : req.type.isStop = true → req.shown) : (e.buildOrder X req slot).Lawful := by
  have hpos := buildOrder_remaining_pos slot h
  have hdisplay := displayQty_le_of_checks h
  refine ⟨hpos.le, ?_⟩
  by_cases hshown : req.shown
  · refine .inl ⟨?_, .inr (le_refl req.quantity)⟩
    simp only [Engine.buildOrder]
    rcases hshown with hs | hs
    · simp [not_lt.mpr hs]
    · split <;> omega
  · have hd : 0 < req.displayQty := not_le.mp fun hle => hshown (.inl hle)
    refine .inr ⟨?_, hd, rfl, ?_⟩
    · simp only [Engine.buildOrder, hd, if_true]
      omega
    · cases ht : req.type.isStop with
      | false => exact ht
      | true => exact absurd (hstop ht) hshown

theorem buildOrder_whole (slot : SlotResidue) (h : req.shown) :
    (e.buildOrder X req slot).Whole := by
  refine ⟨?_, .inr (le_refl req.quantity)⟩
  simp only [Engine.buildOrder]
  rcases h with hs | hs
  · simp [not_lt.mpr hs]
  · split <;> omega

theorem Order.Whole.lawful (h : o.Whole) (hpos : 0 ≤ o.remainingQuantity) : o.Lawful :=
  ⟨hpos, .inl h⟩

/-- What the ledger asks of a move: no stop order hides a part, an order ends with nothing
hidden, and a modified iceberg is not left with a larger total. -/
def Move.careful : Move D → Prop
  | .accept req _ _ => req.type.isStop = true → req.shown
  | .finish order => order.Whole
  | .pull order req => order.displayQty ≤ 0 ∨ order.totalQty ≤ req.newQuantity
  | .amend order req => order.displayQty ≤ 0 ∨ order.totalQty ≤ req.newQuantity
  | .unfill .. => False
  | _ => True

theorem Ledger.triggered (h : Ledger r (some o)) (hstop : o.type.isStop = true) :
    Ledger r (some o.triggered) ∧ o.triggered.Whole := by
  have hwhole : o.Whole := h.1.split.resolve_right fun hp => by simp [hp.enters] at hstop
  have htr : o.triggered.Whole ∧ o.triggered.remainingQuantity = o.remainingQuantity ∧
      o.triggered.filledQuantity = o.filledQuantity ∧ o.triggered.quantity = o.quantity := by
    unfold Order.triggered
    split
    · exact ⟨⟨hwhole.shown, hwhole.total⟩, rfl, rfl, rfl⟩
    · exact ⟨⟨hwhole.shown, hwhole.total⟩, rfl, rfl, rfl⟩
  obtain ⟨hw, hr, hf, hq⟩ := htr
  exact ⟨h.rewrite (hw.lawful (by rw [hr]; exact h.1.remaining)) hf hq, hw⟩

theorem World.Sound.isStop_of_waits (h : W.Sound X w) (ho : W.engine.waits o) :
    o.type.isStop = true := by
  obtain ⟨l, hl, hmem⟩ := mem_ordersIn.mp ho
  exact (((h.holds.shape .stop o.side).sound l hl).fits o hmem).2.1

theorem World.Sound.keeps_ledger (h : W.Sound X w) (hg : m.guard X W) (hx : m.exact)
    (hc : m.careful) : m.keeps X Ledger W := by
  cases m with
  | accept req slot pool =>
    obtain ⟨-, -, hchecks, -⟩ := hg
    exact ⟨buildOrder_lawful slot hchecks hc, _, rfl, rfl, rfl⟩
  | adjust order remaining =>
    have hsame : remaining = order.remainingQuantity := hx
    intro r hr
    rw [hsame]
    exact hr
  | fill ts order resting f left reported =>
    obtain ⟨hpos, hrr, hle, hleft⟩ := hx
    have hrem := hg.2.remaining
    refine ⟨fun r hr => hr.settled (by omega), fun r hr => ?_⟩
    refine hr.trade ⟨by simp only [hleft]; omega, hr.1.split.imp (fun hw => ?_) fun hp => ?_⟩ rfl rfl
    · have := hw.shown
      exact ⟨by simp only [hleft]; omega, hw.total⟩
    · have := hp.shown
      exact ⟨by simp only [hleft]; omega, hp.display, hp.total, hp.enters⟩
  | finish order =>
    obtain ⟨-, hzero⟩ := hg
    intro r hr x hx'
    have hshown := (show order.Whole from hc).shown
    obtain ⟨-, y, hy, ht, hq⟩ := hr
    obtain rfl : x = y := mem_unique hx' hy
    have hall : x.traded = x.quantity := by omega
    exact ⟨hall.le, .inl hall⟩
  | trigger stop =>
    obtain ⟨hfl, -, hnext⟩ := hg
    have hwait := nextTriggeredStop_waits (h.holds_none hfl) hnext
    exact fun r hr => (hr.triggered (h.isStop_of_waits hwait)).1
  | pull order req =>
    intro r hr
    refine hr.modify _ _ (Order.Whole.lawful ⟨?_, hc⟩ ?_) rfl rfl
    · simp only [Order.replaced]
      omega
    · have : order.filledQuantity ≤ req.newQuantity := hx
      simp only [Order.replaced]
      omega
  | amend order req =>
    obtain ⟨-, -, hlt, -, -⟩ := hg
    intro r hr
    refine hr.modify _ _ (Order.Whole.lawful ⟨?_, hc⟩ ?_) rfl rfl
    · simp only
      omega
    · simp only
      omega
  | cross price ts bid ask q =>
    obtain ⟨-, hbid, hask⟩ := hx
    exact ⟨fun r hr => hr.settled hbid, fun r hr => hr.settled hask⟩
  | unfill order q => exact hc.elim
  | cancelResting | drop | rest | park | cancel | cancelStop => exact fun r hr => hr.cancel
  | _ => trivial

/-- The records and the orders agree, and did not exceed the accepted quantities so far. -/
structure World.Balanced (W : World D) : Prop where
  bounded : register.Always Register.Bounded W.engine.tape
  agree : Agree Ledger W.engine.records W.view

theorem bounded_of_agree {g : Register} {v : Nat → Option Order} (h : Agree Ledger g.record v) :
    g.Bounded :=
  fun id => (h id).bounded

theorem always_quiet {entries : List JournalEntry} (hq : ∀ x ∈ entries, x.quiet = true)
    {tape : List JournalEntry} (h : register.Always Register.Bounded tape) :
    register.Always Register.Bounded (tape ++ entries) := by
  induction entries using List.reverseRecOn with
  | nil => simpa using h
  | append_singleton es x ih =>
    have hes := ih fun y hy => hq y (by simp [hy])
    rw [← List.append_assoc]
    refine hes.concat ?_
    have hx : ∀ y ∈ [x], y.quiet = true := fun y hy => hq y (by simp_all)
    have hrec := quiet_records hx (register.state (tape ++ es))
    intro id r hr
    rw [show (register.see (register.state (tape ++ es)) x).record = _ from hrec] at hr
    exact hes.now id r hr

theorem World.Balanced.run (h : W.Balanced) (hs : W.Sound X w) (hg : m.guard X W) (hx : m.exact)
    (hc : m.careful) : (m.run X W).Balanced := by
  have hagree := hs.agree_run h.agree hg (hs.keeps_ledger hg hx hc)
  refine ⟨?_, hagree⟩
  rw [Move.run_tape]
  have hnow : ∀ x, m.tells W = [x] →
      register.Always Register.Bounded (W.engine.tape ++ m.tells W) := by
    intro x hm
    rw [hm]
    refine h.bounded.concat ?_
    have hrec := bounded_of_agree (g := register.state (m.run X W).engine.tape) hagree
    rw [Move.run_tape, hm, Observer.state_concat] at hrec
    exact hrec
  have hsilent : m.tells W = [] →
      register.Always Register.Bounded (W.engine.tape ++ m.tells W) := by
    intro hm
    rw [hm, List.append_nil]
    exact h.bounded
  cases m with
  | note tracker entries => exact always_quiet (fun x hx => hg x (List.mem_of_mem_filter hx)) h.bounded
  | rest order ts => exact (refusal_cases W.engine order ts).elim hsilent (hnow _)
  | park order stopPrice =>
    exact (refusal_cases W.engine order order.timestamp).elim hsilent (hnow _)
  | _ => first | exact hnow _ rfl | exact hsilent rfl

end ExchangeSim
