import ExchangeSim.BookShape
import ExchangeSim.Fronts
import ExchangeSim.Prices
import ExchangeSim.Sieve
import ExchangeSim.Trail

namespace ExchangeSim

open Engine List JournalEntry PriceLevel Holdings

open PriceTime (Resting Queue Fill Touch)

variable {D : Type} {X : Exchange D}

/-- A well-formed side, with no more orders on a level than the fill buffer has room for. -/
structure SideFormed (s : Side) (lvls : List PriceLevel) : Prop where
  sound : SideSound True (bookBefore s) (bookFits s) lvls
  nodup : (idsIn lvls).Nodup
  small : ∀ l ∈ lvls, l.orders.length ≤ kMaxFills

variable {s : Side} {l : PriceLevel} {deeper : List PriceLevel} {o : Order} {ys : List Order}

theorem SideFormed.shaped {lvls : List PriceLevel} (h : SideFormed s lvls) : SideShaped s lvls :=
  ⟨h.sound, h.nodup⟩

theorem SideFormed.focus (h : SideFormed s (l :: deeper)) (hq : l.orders = o :: ys) :
    Focus o [] l deeper [] ys :=
  h.shaped.focus hq

theorem SideFormed.shrink (h : SideFormed s (l :: deeper)) {F : List PriceLevel}
    (hshape : SideShaped s (F ++ deeper))
    (hfront : ∀ m ∈ F, m.orders.length ≤ l.orders.length) : SideFormed s (F ++ deeper) := by
  refine ⟨hshape.sound, hshape.nodup, fun m hm => ?_⟩
  rcases List.mem_append.mp hm with hm | hm
  · exact (hfront m hm).trans (h.small l (by simp))
  · exact h.small m (by simp [hm])

theorem SideFormed.settled (h : SideFormed s (l :: deeper)) (hq : l.orders = o :: ys) {t : Int}
    (ht : t ≤ o.remainingQuantity) :
    SideFormed s ((settledLevel o t l).toList ++ deeper) := by
  have hf := h.focus hq
  refine h.shrink (h.shaped.settled hq ht) fun m hm => ?_
  have hm' : settledLevel o t l = some m := Option.mem_toList.mp hm
  unfold settledLevel at hm'
  split_ifs at hm'
  · cases hm'
    have hx := (hf.fillOrder t).filter_queue
    simp only [reveal, requeue, hx, hq]
    simp
  · cases hm'
    exact length_filter_le _ _
  · cases hm'
    simp [fillOrder]

/-- A trade as the reference machine reports it. -/
def JournalEntry.fill? : JournalEntry → Option Fill
  | .event (.trade t) => some ⟨t.restingId, t.price, t.quantity⟩
  | _ => none

def Engine.fills (e : Engine D) : List Fill :=
  e.journal.filterMap JournalEntry.fill?

theorem fills_tape (e : Engine D) : e.fills = e.tape.filterMap fill? := by
  rw [fills, tape, filterMap_filter]
  refine filterMap_congr fun x _ => ?_
  cases x with
  | action a => rfl
  | event ev => cases ev <;> rfl

theorem fills_trail (e : Engine D) : e.fills = e.trail.filterMap fill? := by
  rw [trail_journal, fills, filterMap_filter]
  refine filterMap_congr fun x _ => ?_
  cases x with
  | action a => rfl
  | event ev => cases ev <;> rfl

def JournalEntry.touch? : JournalEntry → Option Touch
  | .event (.trade t) => some (.trade ⟨t.restingId, t.price, t.quantity⟩)
  | .event (.orderCancelled id _ .selfMatchPrevention) => some (.strike id)
  | _ => none

/-- The trades of a journal and the orders that self-match prevention cancelled. -/
def Engine.touches (e : Engine D) : List Touch :=
  e.tape.filterMap JournalEntry.touch?

theorem fills_touches (e : Engine D) : e.fills = e.touches.filterMap Touch.fill? := by
  rw [fills_tape, touches, filterMap_filterMap]
  refine filterMap_congr fun x _ => ?_
  cases x with
  | action a => rfl
  | event ev =>
    cases ev with
    | orderCancelled id ts reason => cases reason <;> rfl
    | _ => rfl

/-- What the reference machine starts from when an order comes in. -/
def Engine.facing (e : Engine D) (ord : Order) : PriceTime.State :=
  ⟨ord.remainingQuantity, (e.book ord.side.opposite).map PriceLevel.queue⟩

structure Mirrors (ord : Order) (e : Engine D) (ord' : Order) (e' : Engine D) : Prop where
  steps : ∃ fs, Steps (PriceTime.step ord.allows) (e.facing ord) fs (e'.facing ord') ∧
    e'.fills = e.fills ++ fs ∧ ∀ f ∈ fs, 0 < f.quantity
  continues : ord'.Continues ord
  formed : SideFormed ord.side.opposite (e'.book ord.side.opposite)
  context : e'.context = e.context

namespace Mirrors

variable {ord ord₁ ord₂ : Order} {e e₁ e₂ : Engine D}

theorem side (h : Mirrors ord e ord₁ e₁) : ord₁.side = ord.side := by
  rw [h.continues]

end Mirrors

/-- From `e` to `e'` the aggressor does what a machine does; `g` is how the machine's reports are
journalled. -/
structure Tracks {ε : Type} (step : PriceTime.State → Option (ε × PriceTime.State)) (g : ε → Touch)
    (ord : Order) (e : Engine D) (ord' : Order) (e' : Engine D) : Prop where
  steps : ∃ xs, Steps step (e.facing ord) xs (e'.facing ord') ∧
    e'.touches = e.touches ++ xs.map g ∧ ∀ x ∈ xs, ∀ f, g x = .trade f → 0 < f.quantity
  continues : ord'.Continues ord
  formed : SideFormed ord.side.opposite (e'.book ord.side.opposite)
  context : e'.context = e.context
  known : ∀ o ∈ ordersIn (e'.book ord.side.opposite),
    ∃ z ∈ ordersIn (e.book ord.side.opposite), o.Continues z

namespace Tracks

variable {ε : Type} {step : PriceTime.State → Option (ε × PriceTime.State)} {g : ε → Touch}
  {ord ord₁ ord₂ : Order} {e e₁ e₂ : Engine D}

theorem refl (h : SideFormed ord.side.opposite (e.book ord.side.opposite)) :
    Tracks step g ord e ord e :=
  ⟨⟨[], .refl, by simp, by simp⟩, .refl ord, h, rfl, fun o ho => ⟨o, ho, .refl o⟩⟩

theorem side (h : Tracks step g ord e ord₁ e₁) : ord₁.side = ord.side := by
  rw [h.continues]

theorem allows (h : Tracks step g ord e ord₁ e₁) : ord₁.allows = ord.allows :=
  funext fun p => Order.allows_continues h.continues p

theorem trans (h : Tracks step g ord e ord₁ e₁) (h' : Tracks step g ord₁ e₁ ord₂ e₂) :
    Tracks step g ord e ord₂ e₂ := by
  obtain ⟨xs, hsteps, htouches, hpos⟩ := h.steps
  obtain ⟨ys, hsteps', htouches', hpos'⟩ := h'.steps
  have hformed := h'.formed
  have hknown := h'.known
  rw [h.side] at hformed hknown
  refine ⟨⟨xs ++ ys, hsteps.trans hsteps', ?_, ?_⟩, h'.continues.trans h.continues, hformed,
    h'.context.trans h.context, fun o ho => ?_⟩
  · rw [htouches', htouches, map_append, List.append_assoc]
  · intro x hx
    rcases List.mem_append.mp hx with hx | hx
    · exact hpos x hx
    · exact hpos' x hx
  · obtain ⟨z, hz, hoz⟩ := hknown o ho
    obtain ⟨y, hy, hzy⟩ := h.known z hz
    exact ⟨y, hy, hoz.trans hzy⟩

end Tracks

theorem Tracks.mirrors {ord ord' : Order} {e e' : Engine D}
    (h : Tracks (PriceTime.stepUpTo (fun _ => false) ord.allows) .trade ord e ord' e') :
    Mirrors ord e ord' e' := by
  obtain ⟨fs, hsteps, htouches, hpos⟩ := h.steps
  rw [PriceTime.stepUpTo_none] at hsteps
  refine ⟨⟨fs, hsteps, ?_, fun f hf => hpos f hf f rfl⟩, h.continues, h.formed, h.context⟩
  rw [fills_touches, htouches, filterMap_append, ← fills_touches, filterMap_map]
  congr 1
  exact filterMap_some

variable {ord : Order} {e : Engine D} {own : Nat → Bool}

/-- `own` tells which of the orders an aggressor faces are a self-match for it, whatever they and
it have filled. -/
def Engine.TellsOwn (X : Exchange D) (own : Nat → Bool) (ord : Order) (e : Engine D) : Prop :=
  ∀ o ∈ ordersIn (e.book ord.side.opposite), ∀ ord' o' : Order, ord'.Continues ord →
    o'.Continues o → X.isSelfMatch e.derived ord' o' = own o.id

theorem Engine.TellsOwn.tracks {ε : Type} {step : PriceTime.State → Option (ε × PriceTime.State)}
    {g : ε → Touch} {ord' : Order} {e' : Engine D} (h : e.TellsOwn X own ord)
    (ht : Tracks step g ord e ord' e') : e'.TellsOwn X own ord' := by
  intro o ho ord'' o' hord ho'
  rw [ht.side] at ho
  obtain ⟨z, hz, hoz⟩ := ht.known o ho
  have hd : e'.derived = e.derived := congrArg Context.derived ht.context
  rw [hd, h z hz ord'' o' (hord.trans ht.continues) (ho'.trans hoz), hoz]

def Order.headFill (o : Order) (price q : Int) : FillResult :=
  ⟨o.id, price, min q o.remainingQuantity, (o.fill (min q o.remainingQuantity)).remainingQuantity⟩

theorem bookFill_tracks (ts R : Int)
    (h : SideFormed ord.side.opposite (e.book ord.side.opposite))
    (hbook : e.book ord.side.opposite = l :: deeper) (hq : l.orders = o :: ys)
    (hpos : 0 < ord.remainingQuantity) (hallow : ord.allows l.price = true)
    (hown : own o.id = false) :
    let f := o.headFill l.price ord.remainingQuantity
    Tracks (PriceTime.stepUpTo own ord.allows) .trade ord e
      { ord with
        filledQuantity := ord.filledQuantity + f.quantity
        remainingQuantity := ord.remainingQuantity - f.quantity }
      (e.bookFill X ts ord o f R) := by
  intro f
  rw [hbook] at h
  have hlevel : l.Sound True (bookFits ord.side.opposite) := h.sound.sound l (by simp)
  have ho : o ∈ l.orders := by simp [hq]
  have hside : o.side = ord.side.opposite := (hlevel.fits o ho).1
  have hbook' := bookFill_book (X := X) ts R hside hbook (h.focus hq) (f := f) rfl
  have hqueue : (e.facing ord).side =
      (l.price, o.resting :: ys.map Order.resting) :: deeper.map queue := by
    simp [facing, hbook, queue, hq]
  have hstep : PriceTime.stepUpTo own ord.allows (e.facing ord) =
      some (⟨o.id, l.price, f.quantity⟩, ⟨ord.remainingQuantity - f.quantity,
        PriceTime.afterFill l.price o.resting (ys.map Order.resting)
          (deeper.map queue) f.quantity⟩) := by
    rw [PriceTime.stepUpTo_of_not_own hqueue hpos hallow hown,
      PriceTime.step_of_side hqueue hpos hallow]
    rfl
  refine ⟨⟨[⟨o.id, l.price, f.quantity⟩], .cons hstep ?_, ?_, ?_⟩, rfl, ?_,
    context_bookFill _ X ts ord o f R, ?_⟩
  · rw [← settled_queue h.shaped hq]
    simp only [facing, hbook']
    exact .refl
  · rw [touches, tape_bookFill, filterMap_append]
    rfl
  · have := (hlevel.exact trivial).positive o ho
    have hf : f.quantity = min ord.remainingQuantity o.remainingQuantity := rfl
    simp only [mem_singleton, forall_eq, Touch.trade.injEq, forall_eq']
    omega
  · simp only [hbook']
    exact h.settled hq (min_le_right _ _)
  · intro x hx
    simp only [hbook', ordersIn_append, List.mem_append] at hx
    rw [hbook]
    simp only [ordersIn_cons, List.mem_append]
    rcases hx with hx | hx
    · obtain ⟨l', hl', hx⟩ := mem_ordersIn.mp hx
      obtain ⟨z, hz, hxz⟩ := settledLevel_continues (h.focus hq) (Option.mem_toList.mp hl') hx
      exact ⟨z, .inl hz, hxz⟩
    · exact ⟨x, .inr hx, .refl x⟩

/-- The aggressor stands before an own order, which a policy result names. -/
structure Engine.AtOwn (own : Nat → Bool) (ord o : Order) (f : FillResult) (e : Engine D) :
    Prop where
  front : ∃ l deeper ys, e.book ord.side.opposite = l :: deeper ∧ l.orders = o :: ys ∧
    ord.allows l.price = true
  own : own o.id = true
  positive : 0 < ord.remainingQuantity

theorem fifoWalk_done (price : Int) (os : List Order) {q : Int} (h : os = [] ∨ q ≤ 0) :
    (fifoWalk price os q).results = [] ∧ (fifoWalk price os q).remaining = q := by
  cases os with
  | nil => exact ⟨rfl, rfl⟩
  | cons o os =>
    have hq : ¬q > 0 := by simpa using h
    simp [fifoWalk, hq]

theorem settledLevel_orders (h : SideFormed s (l :: deeper)) (hq : l.orders = o :: ys)
    (hys : ys ≠ []) : ∃ l' back, settledLevel o o.remainingQuantity l = some l' ∧
      l'.orders = ys ++ back := by
  have hf := h.focus hq
  have hcount := (h.sound.sound l (by simp)).count
  unfold settledLevel
  rw [if_pos (sub_self _)]
  split
  next =>
    have := (hf.fillOrder o.remainingQuantity).filter_queue
    exact ⟨_, _, rfl, by simp only [reveal, requeue, this]; rfl⟩
  next =>
    have hlen : ¬l.orderCount - 1 = 0 := by simpa [hcount, hq] using hys
    rw [if_neg hlen]
    exact ⟨_, [], rfl, by simpa [unlink] using hf.filter_queue⟩

/-- The batch of a level pass: the fills of the oldest orders of the best level are as many steps
of the reference machine, up to the first own order. From there on the batch is undone. -/
theorem processFills_tracks (ts : Int) (os : List Order) {price : Int}
    (h : SideFormed ord.side.opposite (e.book ord.side.opposite)) (hself : e.TellsOwn X own ord)
    (hallow : ord.allows price = true)
    (hfront : (os = [] ∨ ord.remainingQuantity ≤ 0) ∨ ∃ l deeper back,
      e.book ord.side.opposite = l :: deeper ∧ l.price = price ∧ l.orders = os ++ back) :
    let m := fifoWalk price os ord.remainingQuantity
    let r := (e.advance ord.side.opposite m.results).processFills X ts m.results
      { ord with remainingQuantity := m.remaining }
    ∃ ord' e', Tracks (PriceTime.stepUpTo own ord.allows) .trade ord e ord' e' ∧
      ((r = .ok (some ord', e') ∧ ord'.remainingQuantity = m.remaining) ∨
        ∃ o f, e'.AtOwn own ord' o f ∧ r = .ok (e'.applySmpAction X ord' o f ts)) := by
  intro m r
  -- the fills still to be booked are those of the front of the best level
  induction os generalizing ord e with
  | nil =>
    exact ⟨ord, e, .refl h, .inl ⟨by simp [r, m, fifoWalk, advance_nil, processFills], rfl⟩⟩
  | cons o os ih =>
    by_cases hpos : ord.remainingQuantity ≤ 0
    · obtain ⟨hres, hrem⟩ := fifoWalk_done price (o :: os) (.inr hpos)
      exact ⟨ord, e, .refl h, .inl ⟨by simp [r, m, hres, hrem, advance_nil, processFills],
        hrem.symm⟩⟩
    · obtain ⟨l, deeper, back, hbook, rfl, horders⟩ := hfront.resolve_left (by simpa using hpos)
      have hpos : 0 < ord.remainingQuantity := by omega
      have hq : l.orders = o :: (os ++ back) := horders
      have hform : SideFormed ord.side.opposite (l :: deeper) := hbook ▸ h
      have hf := hform.focus hq
      have hin : o ∈ ordersIn (e.book ord.side.opposite) := by simp [hbook, hq]
      have hfind : findOrder o.id (e.book ord.side.opposite) = some o := by
        rw [hbook]
        exact hf.findOrder_eq
      let f := o.headFill l.price ord.remainingQuantity
      let t := fifoWalk l.price os (ord.remainingQuantity - f.quantity)
      have hm : m.results = f :: t.results ∧ m.remaining = t.remaining := by
        simp only [m, fifoWalk, hpos, if_true]
        exact ⟨rfl, rfl⟩
      have hr : r = (e.advance ord.side.opposite (f :: t.results)).processFills X ts
          (f :: t.results) { ord with remainingQuantity := t.remaining } := by
        simp [r, hm.1, hm.2]
      have hsame : X.isSelfMatch e.derived { ord with remainingQuantity := t.remaining }
          (o.fill (filledBy o.id (f :: t.results))) = own o.id :=
        hself o hin _ _ rfl (.fill o _)
      cases hown : own o.id with
      | true =>
        have hrem : ord.remainingQuantity = t.remaining + fillTotal (f :: t.results) := by
          have := fifoWalk_remaining l.price (o :: os) ord.remainingQuantity
          rw [show (fifoWalk l.price (o :: os) ord.remainingQuantity).results = f :: t.results
            from hm.1] at this
          have hleft : (fifoWalk l.price (o :: os) ord.remainingQuantity).remaining = t.remaining :=
            hm.2
          omega
        exact ⟨ord, e, .refl h, .inr ⟨o, f, ⟨⟨l, deeper, _, hbook, hq, hallow⟩, hown, hpos⟩,
          hr.trans (processFills_self ts t.remaining hfind hrem (hsame.trans hown))⟩⟩
      | false =>
        have hside : o.side = ord.side.opposite :=
          ((hform.sound.sound l (by simp)).fits o (by simp [hq])).1
        have hdone : f.restingRemaining = 0 →
            ∀ x ∈ t.results, x.restingOrder ≠ f.restingOrder := by
          intro _ x hx he
          obtain ⟨-, y, hy, hxy, -⟩ := fifoWalk_mem hx
          exact hf.inside y (by simp [hy]) (hxy.symm.trans he)
        let ord₁ : Order := { ord with
          filledQuantity := ord.filledQuantity + f.quantity
          remainingQuantity := ord.remainingQuantity - f.quantity }
        let e₁ := e.bookFill X ts ord o f t.remaining
        have htrack : Tracks (PriceTime.stepUpTo own ord.allows) .trade ord e ord₁ e₁ :=
          bookFill_tracks ts t.remaining h hbook hq hpos hallow hown
        have hbook' := bookFill_book (X := X) ts t.remaining hside hbook hf (f := f) rfl
        have hnext : (os = [] ∨ ord₁.remainingQuantity ≤ 0) ∨ ∃ l' deeper back,
            e₁.book ord₁.side.opposite = l' :: deeper ∧ l'.price = l.price ∧
              l'.orders = os ++ back := by
          by_cases hleft : os = [] ∨ ord₁.remainingQuantity ≤ 0
          · exact .inl hleft
          · -- the order was used up, so the others stand in front of their level
            obtain ⟨hos, hleft⟩ := not_or.mp hleft
            have hfq : f.quantity = o.remainingQuantity := by
              have hmin : f.quantity = min ord.remainingQuantity o.remainingQuantity := rfl
              have hleft : ¬ord.remainingQuantity - f.quantity ≤ 0 := hleft
              omega
            obtain ⟨l', tail, hl', horders'⟩ := settledLevel_orders hform hq (by simp [hos])
            rw [hfq, hl'] at hbook'
            exact .inr ⟨l', deeper, back ++ tail, hbook', settledLevel_price hl',
              by simpa using horders'⟩
        obtain ⟨ord', e', htrack', hend⟩ :=
          @ih ord₁ e₁ htrack.formed (hself.tracks htrack) hallow hnext
        refine ⟨ord', e', htrack.trans htrack', ?_⟩
        have hgo := processFills_fill ts t.remaining hfind hside rfl hdone
          (hsame.trans hown)
        rw [hr, hm.2, hgo]
        exact hend

theorem pass_tracks (own : Nat → Bool) (hfifo : X.algo = fifoMatch) (ts : Int)
    (h : SideFormed ord.side.opposite (e.book ord.side.opposite)) (hself : e.TellsOwn X own ord)
    (hturn : e.Turn ord l deeper) :
    let r := e.pass X ts ord l deeper
    (X.algo.matchLevel l ord.remainingQuantity).results.length ≤ kMaxFills ∧ ∃ ord' e',
      Tracks (PriceTime.stepUpTo own ord.allows) .trade ord e ord' e' ∧
      ((r = .ok (some ord', e') ∧ ord'.remainingQuantity < ord.remainingQuantity) ∨
        ∃ o f, e'.AtOwn own ord' o f ∧ r = .ok (e'.applySmpAction X ord' o f ts)) := by
  let m := X.algo.matchLevel l ord.remainingQuantity
  have hm : m = fifoWalk l.price l.orders ord.remainingQuantity := by
    simp only [m, hfifo]
    rfl
  have hform : SideFormed ord.side.opposite (l :: deeper) := hturn.book ▸ h
  have hlevel : l.Sound True (bookFits ord.side.opposite) := hform.sound.sound l (by simp)
  have hexact := hlevel.exact trivial
  constructor
  · have hlen := (fifoWalk_sublist l.price l.orders ord.remainingQuantity).length_le
    simp only [← hm, length_map] at hlen
    exact hlen.trans (hform.small l (by simp))
  · have hr := pass_eq_advance (X := X) h.nodup hturn ts
    obtain ⟨ord', e', htrack, hend⟩ := processFills_tracks ts l.orders h hself
      hturn.allowed (.inr ⟨l, deeper, [], hturn.book, rfl, by simp⟩)
    rw [← hm, ← hr] at hend
    refine ⟨ord', e', htrack, hend.imp_left fun hdone => ⟨hdone.1, ?_⟩⟩
    -- a level that is there trades something
    obtain ⟨o, ys, hq⟩ := exists_cons_of_ne_nil hlevel.nonempty
    have htotal : 0 < sumQty l.orders := by
      have ho := hexact.positive o (by simp [hq])
      have hys : 0 ≤ sumQty ys :=
        sum_nonneg (by simpa using fun y hy => (hexact.positive y (by simp [hq, hy])).le)
      simp only [hq, sumQty_cons]
      omega
    have hleft := fifoWalk_remaining l.price l.orders ord.remainingQuantity
    rw [fifoWalk_total hexact.positive hturn.left.le, ← hm] at hleft
    have hpos := hturn.left
    omega

theorem matchLoop_pass (ts : Int) (fuel : Nat) {alive : Option Order} {e₁ : Engine D}
    (hcalm : e₁.context.Calm X) (hturn : e.Turn ord l deeper)
    (hlen : (X.algo.matchLevel l ord.remainingQuantity).results.length ≤ kMaxFills)
    (hpass : e.pass X ts ord l deeper = .ok (alive, e₁)) :
    e.matchLoop X ts (fuel + 1) ord =
      alive.elim (.ok (none, e₁)) fun ord₁ => e₁.matchLoop X ts fuel ord₁ := by
  simp only [matchLoop_turn hturn hlen, hpass, interrupted_calm hcalm, Bool.false_eq_true, if_false]
  cases alive <;> rfl

theorem matchLoop_idle (ts : Int) {fuel : Nat}
    (h : SideFormed ord.side.opposite (e.book ord.side.opposite))
    (hnone : PriceTime.turn ord.allows (e.facing ord) = none) :
    e.matchLoop X ts (fuel + 1) ord = .ok (some ord, e) := by
  rcases idle_or_turn ord e with hidle | ⟨level, deeper, hturn⟩
  · exact matchLoop_done hidle
  · obtain ⟨o, ys, hq⟩ := exists_cons_of_ne_nil
      (h.sound.sound level (by simp [hturn.book])).nonempty
    have hsome : PriceTime.turn ord.allows (e.facing ord) = some o.resting :=
      PriceTime.turn_eq_some.mpr ⟨level.price, ys.map Order.resting, deeper.map queue,
        by simp [facing, hturn.book, queue, hq], hturn.left, hturn.allowed⟩
    simp [hnone] at hsome

theorem exists_level_of_turn {r : Resting}
    (hsome : PriceTime.turn ord.allows (e.facing ord) = some r) :
    ∃ l deeper, e.Turn ord l deeper := by
  obtain ⟨p, rs, deeper, hside, hpos, hallow⟩ := PriceTime.turn_eq_some.mp hsome
  obtain ⟨l, lvls, hbook, hl, -⟩ := map_eq_cons_iff.mp hside
  have hprice : l.price = p := congrArg Prod.fst hl
  exact ⟨l, lvls, hpos, hbook, hprice ▸ hallow⟩

theorem matchLoop_tracks (own : Nat → Bool) (hfifo : X.algo = fifoMatch) (ts : Int) {fuel : Nat}
    (hcalm : e.context.Calm X) (h : SideFormed ord.side.opposite (e.book ord.side.opposite))
    (hself : e.TellsOwn X own ord)
    (hend : ∀ ord' o f (e' : Engine D), e'.context = e.context → e'.AtOwn own ord' o f →
      (e'.applySmpAction X ord' o f ts).1 = none)
    (hfuel : ord.remainingQuantity.toNat < fuel) :
    ∃ ord' e', Tracks (PriceTime.stepUpTo own ord.allows) .trade ord e ord' e' ∧
      ((e.matchLoop X ts fuel ord = .ok (some ord', e') ∧
          PriceTime.turn ord.allows (e'.facing ord') = none) ∨
        ∃ o f, e'.AtOwn own ord' o f ∧
          e.matchLoop X ts fuel ord = .ok (none, (e'.applySmpAction X ord' o f ts).2)) := by
  -- every pass takes something of the aggressor
  induction fuel generalizing ord e with
  | zero => omega
  | succ fuel ih =>
    cases hnext : PriceTime.turn ord.allows (e.facing ord) with
    | none => exact ⟨ord, e, .refl h, .inl ⟨matchLoop_idle ts h hnext, hnext⟩⟩
    | some r =>
      obtain ⟨l, deeper, hturn⟩ := exists_level_of_turn hnext
      obtain ⟨hlen, ord₁, e₁, htrack, ⟨hpass, hless⟩ | ⟨o, f, hat, hpass⟩⟩ :=
        pass_tracks own hfifo ts h hself hturn
      · have hpos := hturn.left
        have hcalm₁ : e₁.context.Calm X := htrack.context ▸ hcalm
        have hloop := matchLoop_pass ts fuel hcalm₁ hturn hlen hpass
        obtain ⟨ord', e', htrack', hrest⟩ := ih hcalm₁ (htrack.side ▸ htrack.formed)
          (hself.tracks htrack) (fun ord' o f e' hctx => hend ord' o f e' (hctx.trans htrack.context))
          (by omega)
        rw [htrack.allows] at htrack' hrest
        exact ⟨ord', e', htrack.trans htrack', by rwa [hloop]⟩
      · have hgone : (e₁.applySmpAction X ord₁ o f ts).1 = none :=
          hend ord₁ o f e₁ htrack.context hat
        have hctx : (e₁.applySmpAction X ord₁ o f ts).2.context = e.context :=
          (context_applySmpAction e₁ X ord₁ o f ts).trans htrack.context
        have heq : e₁.applySmpAction X ord₁ o f ts = (none, (e₁.applySmpAction X ord₁ o f ts).2) :=
          Prod.ext hgone rfl
        rw [heq] at hpass
        exact ⟨ord₁, e₁, htrack, .inr ⟨o, f, hat,
          matchLoop_pass ts fuel (hctx ▸ hcalm) hturn hlen hpass⟩⟩

theorem matchLoop_mirrors (hfifo : X.algo = fifoMatch)
    (hself : ∀ d a b, X.isSelfMatch d a b = false) (ts : Int) {fuel : Nat}
    (hcalm : e.context.Calm X) (h : SideFormed ord.side.opposite (e.book ord.side.opposite))
    (hfuel : ord.remainingQuantity.toNat < fuel) :
    ∃ ord' e', e.matchLoop X ts fuel ord = .ok (some ord', e') ∧ Mirrors ord e ord' e' ∧
      PriceTime.step ord.allows (e'.facing ord') = none := by
  obtain ⟨ord', e', htrack, ⟨heq, hturn⟩ | ⟨o, f, hat, -⟩⟩ :=
    matchLoop_tracks (fun _ => false) hfifo ts hcalm h (fun _ _ _ _ _ _ => hself _ _ _)
      (fun _ _ _ _ _ hat => absurd hat.own (by simp)) hfuel
  · exact ⟨ord', e', heq, htrack.mirrors, PriceTime.step_eq_none_iff.mpr hturn⟩
  · exact absurd hat.own (by simp)

theorem postMatch_book (o : Order) (ts b a : Int) (e : Engine D) :
    (e.postMatch o ts b a).book o.side.opposite = e.book o.side.opposite := by
  have hfire : ∀ e : Engine D, (e.fireTopOfBookIfChanged ts b a).book = e.book := fun e => by
    unfold fireTopOfBookIfChanged
    split <;> rfl
  have hne : o.side.opposite ≠ o.side := by cases o.side <;> simp [Side.opposite]
  rcases postMatch_cases o ts b a e with ⟨-, heq⟩ | ⟨reason, heq⟩ | ⟨-, -, heq⟩ <;> rw [heq]
  · rw [hfire]; rfl
  · rw [hfire]; rfl
  · unfold insertIntoBook
    split
    · rfl
    · dsimp only
      split
      · exact Function.update_of_ne hne _ _
      · exact Function.update_of_ne hne _ _

/-- Price-time priority: with `FifoMatch`, and nothing that interrupts matching, an order trades
as the reference machine does, and leaves the opposite side as the machine leaves it. -/
theorem matchOrder_priceTime (hfifo : X.algo = fifoMatch)
    (hself : ∀ d a b, X.isSelfMatch d a b = false) {order : Order} {e : Engine D}
    (hcalm : e.context.Calm X)
    (h : SideFormed order.side.opposite (e.book order.side.opposite)) (htif : order.tif ≠ .fok)
    (ts : Int) {fuel : Nat} (hfuel : order.remainingQuantity.toNat < fuel) :
    let r := PriceTime.execute order.allows order.remainingQuantity
      ((e.book order.side.opposite).map queue)
    PriceTime.step order.allows r.2 = none ∧ ∃ e', e.matchOrder X fuel order ts = .ok e' ∧
      e'.fills = e.fills ++ r.1 ∧
      (e'.book order.side.opposite).map queue = r.2.side ∧
      SideFormed order.side.opposite (e'.book order.side.opposite) := by
  intro r
  obtain ⟨ord', e₁, heq, hmir, hstop⟩ := matchLoop_mirrors hfifo hself ts hcalm h hfuel
  obtain ⟨fs, hsteps, hfills, hpos⟩ := hmir.steps
  have hr : r = (fs, e₁.facing ord') :=
    hsteps.runSteps_eq hstop (PriceTime.length_le_of_steps hsteps hpos)
  have hbook : (e₁.postMatch ord' ts (e.bestPrice .buy) (e.bestPrice .sell)).book
      order.side.opposite = e₁.book order.side.opposite := by
    rw [← hmir.side]
    exact postMatch_book ord' ts _ _ e₁
  refine ⟨by rw [hr]; exact hstop,
    e₁.postMatch ord' ts (e.bestPrice .buy) (e.bestPrice .sell), ?_, ?_, ?_, ?_⟩
  · simp only [matchOrder, htif, false_and, if_false, heq]
  · obtain ⟨es, htrail, hnone⟩ := (tells_postMatch (fun _ => False) e₁ ord' ts
      (e.bestPrice .buy) (e.bestPrice .sell)).trail
    have hes : es = [] := eq_nil_iff_forall_not_mem.mpr hnone
    rw [fills_trail, htrail, hes, append_nil, ← fills_trail, hfills, hr]
  · rw [hbook, hr, ← hmir.side]
    rfl
  · rw [hbook]
    exact hmir.formed

theorem sideFormed_of_sound {w : Prop} (hw : w) {fl : Option Order}
    (hs : World.Sound X w ⟨e, fl⟩) {s : Side}
    (hsmall : ∀ l ∈ e.book s, l.orders.length ≤ kMaxFills) : SideFormed s (e.book s) := by
  have hside : SideSound w (bookBefore s) (bookFits s) (e.book s) := hs.holds.shape .limit s
  refine ⟨⟨hside.sorted, fun l hl => ?_⟩, hs.holds.nodup .limit s, hsmall⟩
  have hl := hside.sound l hl
  exact ⟨hl.nonempty, hl.count, hl.fits, fun _ => hl.exact hw⟩

def hiddenOfferActions : List Action :=
  [.newOrder { limitRequest .sell 100 6 with displayQty := 2 },
    .newOrder (limitRequest .sell 100 3), .newOrder (limitRequest .sell 101 4)]

def sweepOrder : Order :=
  { limitOrder 4 .buy 101 12 with accountId := 2, timestamp := 2, totalQty := 0 }

theorem matchOrder_priceTime_sample :
    let e := runAll sampleExchange hiddenOfferActions (sampleStart sampleExchange sampleConfig ())
    ∃ e', e.matchOrder sampleExchange 20 sweepOrder 2 = .ok e' ∧ e'.fills =
      [⟨1, 100, 2⟩, ⟨2, 100, 3⟩, ⟨1, 100, 2⟩, ⟨1, 100, 2⟩, ⟨3, 101, 3⟩] := by
  intro e
  have hs : World.Sound sampleExchange True ⟨e, none⟩ :=
    sampleRun_sound (by simp [hiddenOfferActions, Admits]) (by decide +kernel)
  have hcalm : e.context.Calm sampleExchange :=
    ⟨by decide +kernel, by decide +kernel, by decide +kernel, fun _ _ => rfl⟩
  obtain ⟨-, e', he, hfills, -⟩ := matchOrder_priceTime rfl
    (fun _ _ _ => rfl) hcalm (sideFormed_of_sound trivial hs (by decide +kernel)) (by decide) 2
    (show sweepOrder.remainingQuantity.toNat < 20 by decide)
  refine ⟨e', he, hfills.trans ?_⟩
  decide +kernel

end ExchangeSim
