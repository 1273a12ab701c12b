import ExchangeSim.Context
import ExchangeSim.Holdings
import ExchangeSim.Tape

/-!
Where the orders of the two books come from. Nothing here asks for a well shaped book: an order
may be of any type, in either book.
-/

namespace ExchangeSim

open Engine List JournalEntry PriceLevel

variable {D : Type} {o o' : Order} {lvls : List PriceLevel} {s : Side} {ev : Event}

/-- What of an order no fill changes. -/
def Order.core (o : Order) : Order :=
  { o with filledQuantity := 0, remainingQuantity := 0 }

@[simp] theorem Order.core_fill (o : Order) (q : Int) : (o.fill q).core = o.core := rfl

theorem Order.id_of_core (h : o.core = o'.core) : o.id = o'.id := by
  have hid : o.core.id = o'.core.id := by rw [h]
  exact hid

theorem Order.side_of_core (h : o.core = o'.core) : o.side = o'.side := by
  have hside : o.core.side = o'.core.side := by rw [h]
  exact hside

def coresIn (lvls : List PriceLevel) : List Order :=
  (ordersIn lvls).map Order.core

@[simp] theorem coresIn_nil : coresIn [] = [] := rfl

@[simp] theorem coresIn_cons (l : PriceLevel) (lvls : List PriceLevel) :
    coresIn (l :: lvls) = l.orders.map Order.core ++ coresIn lvls := by
  simp [coresIn, ordersIn]

theorem mem_coresIn {c : Order} : c ∈ coresIn lvls ↔ ∃ o ∈ ordersIn lvls, o.core = c :=
  mem_map

/-- The levels after fills and removals: no order is new, and no level is. -/
structure Thins (lvls lvls' : List PriceLevel) : Prop where
  cores : (coresIn lvls').Subperm (coresIn lvls)
  prices : (lvls'.map (·.price)).Sublist (lvls.map (·.price))

namespace Thins

variable {lvls lvls₁ lvls₂ : List PriceLevel}

theorem refl (lvls : List PriceLevel) : Thins lvls lvls :=
  ⟨.refl _, .refl _⟩

theorem trans (h : Thins lvls lvls₁) (h' : Thins lvls₁ lvls₂) : Thins lvls lvls₂ :=
  ⟨h'.cores.trans h.cores, h'.prices.trans h.prices⟩

theorem exists_core (h : Thins lvls lvls₁) (ho : o ∈ ordersIn lvls₁) :
    ∃ o₀ ∈ ordersIn lvls, o₀.core = o.core :=
  mem_coresIn.mp (h.cores.subset (mem_coresIn.mpr ⟨o, ho, rfl⟩))

theorem map {g : PriceLevel → PriceLevel} (h : ∀ l ∈ lvls, (g l).price = l.price ∧
    ((g l).orders.map Order.core).Subperm (l.orders.map Order.core)) :
    Thins lvls (lvls.map g) := by
  induction lvls with
  | nil => exact refl _
  | cons l lvls ih =>
    obtain ⟨hprice, hcores⟩ := h l (by simp)
    have ih := ih fun m hm => h m (by simp [hm])
    constructor
    · rw [List.map_cons, coresIn_cons, coresIn_cons]
      exact hcores.append ih.cores
    · rw [List.map_cons, List.map_cons, List.map_cons, hprice]
      exact ih.prices.cons_cons _

theorem onLevelOf {id : Nat} {f : PriceLevel → PriceLevel} (h : ∀ l ∈ lvls, l.has id = true →
    (f l).price = l.price ∧ ((f l).orders.map Order.core).Subperm (l.orders.map Order.core)) :
    Thins lvls (onLevelOf id f lvls) := by
  refine map fun l hl => ?_
  split
  next hid => exact h l hl hid
  next => exact ⟨rfl, .refl _⟩

theorem retotal (id : Nat) (f : PriceLevel → Int) (lvls : List PriceLevel) :
    Thins lvls (ExchangeSim.onLevelOf id (fun l => { l with totalQuantity := f l }) lvls) :=
  onLevelOf fun _ _ _ => ⟨rfl, .refl _⟩

theorem filter (p : PriceLevel → Bool) (lvls : List PriceLevel) : Thins lvls (lvls.filter p) where
  cores := by
    have hsub : (ordersIn (lvls.filter p)).Sublist (ordersIn lvls) :=
      filter_sublist.flatMap _
    exact (hsub.map Order.core).subperm
  prices := filter_sublist.map _

theorem mapOrders {f : Order → Order} (hf : ∀ o, (f o).core = o.core) (lvls : List PriceLevel) :
    Thins lvls (lvls.map (·.mapOrders f)) := by
  refine map fun l _ => ⟨rfl, ?_⟩
  have hcores : (l.orders.map f).map Order.core = l.orders.map Order.core := by simp [hf]
  exact hcores ▸ .refl _

theorem unlinkFrom (o : Order) (lvls : List PriceLevel) :
    Thins lvls (unlinkFrom o lvls).1 := by
  unfold ExchangeSim.unlinkFrom
  split
  · exact refl lvls
  · split
    · exact filter _ lvls
    · exact onLevelOf fun l _ _ => ⟨rfl, (filter_sublist.map _).subperm⟩

end Thins

theorem unlinkFrom_absent (o : Order) (lvls : List PriceLevel) :
    ∀ x ∈ ordersIn (unlinkFrom o lvls).1, x.id ≠ o.id := by
  intro x hx he
  unfold unlinkFrom at hx
  split at hx
  next hnone =>
    obtain ⟨l, hl, hxl⟩ := mem_ordersIn.mp hx
    have hhas := find?_eq_none.mp hnone l hl
    exact hhas (has_iff.mpr ⟨x, hxl, he⟩)
  · split at hx
    · obtain ⟨l, hl, hxl⟩ := mem_ordersIn.mp hx
      have hhas := (mem_filter.mp hl).2
      simp [has_iff.mpr ⟨x, hxl, he⟩] at hhas
    · obtain ⟨l, hl, hxl⟩ := mem_ordersIn.mp hx
      obtain ⟨m, hm, rfl⟩ := mem_map.mp hl
      split at hxl
      · simp [unlink, he] at hxl
      next hhas => exact hhas (has_iff.mpr ⟨x, hxl, he⟩)

theorem mem_of_mem_unlinkFrom {x : Order} (hx : x ∈ ordersIn (unlinkFrom o lvls).1) :
    x ∈ ordersIn lvls := by
  unfold unlinkFrom at hx
  split at hx
  · exact hx
  · split at hx
    · obtain ⟨l, hl, hxl⟩ := mem_ordersIn.mp hx
      exact mem_ordersIn.mpr ⟨l, mem_of_mem_filter hl, hxl⟩
    · obtain ⟨l, hl, hxl⟩ := mem_ordersIn.mp hx
      obtain ⟨m, hm, rfl⟩ := mem_map.mp hl
      refine mem_ordersIn.mpr ⟨m, hm, ?_⟩
      split at hxl
      · exact mem_of_mem_filter hxl
      · exact hxl

/-- The order with its fills as they may be. -/
def Agrees (o : Order) (lvls : List PriceLevel) : Prop :=
  ∀ x ∈ ordersIn lvls, x.id = o.id → x.core = o.core

theorem Agrees.thins {lvls' : List PriceLevel} (h : Agrees o lvls) (ht : Thins lvls lvls') :
    Agrees o lvls' := by
  intro x hx hid
  obtain ⟨y, hy, hcore⟩ := ht.exists_core hx
  exact hcore.symm.trans (h y hy ((Order.id_of_core hcore).trans hid))

theorem Agrees.congr (h : Agrees o lvls) (hc : o.core = o'.core) : Agrees o' lvls := fun x hx hid =>
  (h x hx (hid.trans (Order.id_of_core hc).symm)).trans hc

theorem agrees_of_mem (hn : (idsIn lvls).Nodup) (ho : o ∈ ordersIn lvls) : Agrees o lvls := by
  intro x hx hid
  rw [inj_on_of_nodup_map hn hx ho hid]

theorem thins_requeue (h : Agrees o lvls) (next : Int) :
    Thins lvls (onLevelOf o.id (·.requeue o next) lvls) := by
  refine Thins.onLevelOf fun l hl hhas => ⟨rfl, ?_⟩
  obtain ⟨x, hx, hid⟩ := has_iff.mp hhas
  have hcore : x.core = o.core := h x (mem_ordersIn.mpr ⟨l, hl, hx⟩) hid
  obtain ⟨A, B, hsplit⟩ := append_of_mem hx
  have hdrop : (l.orders.filter (·.id != o.id)).Sublist (A ++ B) := by
    rw [hsplit, filter_append, filter_cons, if_neg (by simp [hid])]
    exact filter_sublist.append filter_sublist
  have hlast : (requeue l o next).orders.map Order.core =
      (l.orders.filter (·.id != o.id)).map Order.core ++ [x.core] := by
    rw [hcore, requeue, map_append]
    rfl
  rw [hlast]
  refine ((hdrop.map Order.core).append_right [x.core]).subperm.trans ?_
  rw [hsplit, map_append, map_append, List.map_cons]
  exact ((perm_append_singleton _ _).trans perm_middle.symm).subperm

theorem thins_matchLevel (p : MatchPolicy) {l : PriceLevel} (hd : l.Distinct) (q : Int)
    (deeper : List PriceLevel) :
    Thins (l :: deeper) ({ l with orders := (p.matchLevel l q).orders } :: deeper) := by
  constructor
  · have hcores : (p.matchLevel l q).orders.map Order.core = l.orders.map Order.core := by
      simp [p.orders_eq l q hd]
    rw [coresIn_cons, coresIn_cons, hcores]
  · simp

/-- Entries about operations, acceptances, trades and busts. -/
def JournalEntry.posted : JournalEntry → Bool
  | .action _ => true
  | .event (.orderAccepted ..) => true
  | .event (.trade _) => true
  | .event (.tradeBusted ..) => true
  | _ => false

/-- What acceptances, trades and busts write. -/
structure Standing where
  positions : Positions
  trades : TradeRegistry
  nextOrderId : Nat
  posted : List JournalEntry

def Engine.standing (e : Engine D) : Standing :=
  ⟨e.positions, e.tradeRegistry, e.nextOrderId, e.journal.filter JournalEntry.posted⟩

section

variable (e : Engine D)

theorem standing_emit (h : (event ev).posted = false) :
    (e.emit ev).standing = e.standing := by
  simp [standing, emit, h]

theorem standing_emit_ite (ev : Event) : (e.emit ev).standing =
    if (event ev).posted then
      { e.standing with posted := e.standing.posted ++ [.event ev] }
    else e.standing := by
  split <;> simp_all [standing, emit]

theorem standing_sheet : e.sheet.standing = e.standing := by
  simp [standing, sheet, filter_logged (p := posted) fun _ => rfl]

variable {e} in
theorem standing_congr {e' : Engine D} (h : e'.sheet = e.sheet) : e'.standing = e.standing := by
  rw [← standing_sheet, h, standing_sheet]

theorem standing_reveals (o : Order) (ts : Int) : (e.reveals o ts).standing = e.standing := by
  unfold reveals
  split
  · exact standing_emit e rfl
  · rfl

end

def Move.posts : Move D → Bool
  | .note .. => true
  | .accept .. => true
  | .fill .. => true
  | .cross .. => true
  | .markBusted _ => true
  | .bust .. => true
  | _ => false

theorem Move.run_standing {X : Exchange D} {m : Move D} (h : m.posts = false) (W : World D) :
    (m.run X W).engine.standing = W.engine.standing := by
  rw [← standing_sheet]
  cases m with
  | cancelResting ts order resting f notify =>
    cases notify <;> simp [run, standing_emit_ite, standing_sheet, JournalEntry.posted]
  | rest order ts =>
    simp only [run, sheet_insertIntoBook]
    split <;> simp [standing_emit_ite, standing_sheet, JournalEntry.posted]
  | park order stopPrice =>
    simp only [run, sheet_insertIntoStopBook]
    split <;> simp [standing_emit_ite, standing_sheet, JournalEntry.posted]
  | session state ts =>
    rw [standing_sheet]
    exact standing_emit { W.engine with currentState := state } rfl
  | reference | hook =>
    rw [standing_sheet]
    rfl
  | note action | accept action result | markBusted tradeId | bust action | fill | cross =>
    simp [posts] at h
  | _ => simp [run, standing_emit_ite, standing_sheet, JournalEntry.posted]

def Exchange.KeepsConfig (X : Exchange D) : Prop :=
  ∀ d c s p ts, (X.onDailyLimitHit d c s p ts).config = c

/-- From `e` to `e'` orders are filled and removed at most, and nothing is posted. -/
structure Engine.Still (X : Exchange D) (e e' : Engine D) : Prop where
  shelf : ∀ k s, Thins (e.shelf k s) (e'.shelf k s)
  standing : e'.standing = e.standing
  config : X.KeepsConfig → e'.config = e.config

namespace Engine.Still

variable {X : Exchange D} {e e₁ e₂ : Engine D}

theorem refl (e : Engine D) : e.Still X e :=
  ⟨fun _ _ => .refl _, rfl, fun _ => rfl⟩

theorem trans (h : e.Still X e₁) (h' : e₁.Still X e₂) : e.Still X e₂ where
  shelf k s := (h.shelf k s).trans (h'.shelf k s)
  standing := h'.standing.trans h.standing
  config hX := (h'.config hX).trans (h.config hX)

theorem same (hb : e₁.book = e.book) (hs : e₁.stopBook = e.stopBook)
    (hst : e₁.standing = e.standing) (hc : e₁.config = e.config) : e.Still X e₁ where
  shelf k s := by
    cases k <;> simp only [Engine.shelf, hb, hs] <;> exact .refl _
  standing := hst
  config _ := hc

theorem side (ht : Thins (e.book s) lvls) (hb : e₁.book = Function.update e.book s lvls)
    (hs : e₁.stopBook = e.stopBook) (hst : e₁.standing = e.standing) (hc : e₁.config = e.config) :
    e.Still X e₁ where
  shelf k t := by
    cases k with
    | limit =>
      simp only [Engine.shelf, hb]
      by_cases hts : t = s
      · subst hts
        simpa using ht
      · simpa [hts] using Thins.refl _
    | stop =>
      simp only [Engine.shelf, hs]
      exact .refl _
  standing := hst
  config _ := hc

theorem stopSide (ht : Thins (e.stopBook s) lvls) (hb : e₁.book = e.book)
    (hs : e₁.stopBook = Function.update e.stopBook s lvls) (hst : e₁.standing = e.standing)
    (hc : e₁.config = e.config) : e.Still X e₁ where
  shelf k t := by
    cases k with
    | limit =>
      simp only [Engine.shelf, hb]
      exact .refl _
    | stop =>
      simp only [Engine.shelf, hs]
      by_cases hts : t = s
      · subst hts
        simpa using ht
      · simpa [hts] using Thins.refl _
  standing := hst
  config _ := hc

theorem setBook (ht : Thins (e.book s) lvls) : e.Still X (e.setBook s lvls) :=
  side ht rfl rfl rfl rfl

theorem emit (h : (event ev).posted = false) : e.Still X (e.emit ev) :=
  same rfl rfl (standing_emit e h) rfl

theorem status (s : SessionState) (ts : Int) :
    e.Still X ({ e with currentState := s }.emit (.marketStatus s ts)) :=
  same rfl rfl (standing_emit { e with currentState := s } rfl) rfl

theorem agrees (h : e.Still X e₁) (ho : Agrees o (e.book s)) : Agrees o (e₁.book s) :=
  ho.thins (h.shelf .limit s)

end Engine.Still

section

variable {X : Exchange D} (e : Engine D)

theorem still_fireTopOfBook (ts : Int) : e.Still X (e.fireTopOfBook ts) :=
  .emit rfl

theorem still_fireTopOfBookIfChanged (ts b a : Int) :
    e.Still X (e.fireTopOfBookIfChanged ts b a) := by
  unfold fireTopOfBookIfChanged
  split
  · exact still_fireTopOfBook e ts
  · exact .refl e

theorem still_fireDepthOf (o : Order) (ts : Int) : e.Still X (e.fireDepthOf o ts) := by
  unfold fireDepthOf
  split
  · exact .refl e
  · exact .emit rfl

theorem still_fireDepthAfterRemove (freed : Bool) (s : Side) (price ts : Int) :
    e.Still X (e.fireDepthAfterRemove freed s price ts) := by
  unfold fireDepthAfterRemove fireDepthAt
  split
  · exact .emit rfl
  · split
    · exact .refl e
    · exact .emit rfl

theorem still_release (o : Order) : e.Still X (e.release o) :=
  .same rfl rfl rfl rfl

theorem still_dropOrder (o : Order) (ts : Int) (r : CancelReason) :
    e.Still X (e.dropOrder o ts r) :=
  (still_release e o).trans (.emit rfl)

theorem still_removeOrder (o : Order) : e.Still X (e.removeOrder o).2 := by
  refine .side (Thins.unlinkFrom o (e.book o.side)) ?_ ?_ (standing_congr (sheet_removeOrder e o)) ?_ <;>
    (unfold removeOrder; dsimp only; split <;> rfl)

theorem still_removeStop (o : Order) : e.Still X (e.removeStop o) := by
  refine .stopSide (Thins.unlinkFrom o (e.stopBook o.side)) ?_ ?_ (standing_congr (sheet_removeStop e o)) ?_ <;>
    (unfold removeStop; dsimp only; split <;> rfl)

theorem still_revealTranche (ho : Agrees o (e.book o.side)) (ts : Int) :
    e.Still X (e.revealTranche o ts) := by
  exact ((Still.setBook (thins_requeue ho _)).trans (.emit rfl)).trans
    (still_fireDepthOf _ o ts)

theorem still_closeResting {resting : Order} (h : Agrees resting (e.book resting.side)) (ts : Int)
    (f : FillResult) : e.Still X (e.closeResting ts f resting) := by
  unfold closeResting
  split
  · split
    · exact still_revealTranche e h ts
    · exact ((still_removeOrder e resting).trans (.emit rfl)).trans (still_release _ resting)
  · exact still_fireDepthOf e resting ts

theorem still_fillResting (s : Side) (id : Nat) (q : Int) : e.Still X (e.fillResting s id q) :=
  .setBook (Thins.mapOrders (fun o => by split <;> rfl) _)

theorem still_undoFills (s : Side) (rs : List FillResult) (order : Order) :
    e.Still X (e.undoFills s rs order).2 ∧ (e.undoFills s rs order).1.core = order.core := by
  induction rs generalizing e order with
  | nil => exact ⟨.refl e, rfl⟩
  | cons f rs ih =>
    obtain ⟨hstill, hcore⟩ := ih (e.fillResting s f.restingOrder (-f.quantity))
      { order with remainingQuantity := order.remainingQuantity + f.quantity }
    exact ⟨(still_fillResting e s f.restingOrder (-f.quantity)).trans hstill, hcore⟩

theorem still_cancelResting (ts : Int) (f : FillResult) (resting : Order) :
    e.Still X (e.cancelResting ts f resting).2 := by
  unfold cancelResting
  dsimp only
  have hout : e.Still X (((e.removeOrder resting).2.dropOrder resting ts
      .selfMatchPrevention).emit (.orderBookAction
        ⟨resting.id, resting.side, f.price, resting.remainingQuantity, .cancel, ts⟩)) :=
    ((still_removeOrder e resting).trans
      (still_dropOrder _ resting ts .selfMatchPrevention)).trans (.emit rfl)
  split
  · exact hout.trans (.emit rfl)
  · exact hout

theorem still_notifyCancelled (ts : Int) (f : FillResult) (resting : Order) (r : Bool × Engine D) :
    r.2.Still X (e.notifyCancelled ts f resting r) := by
  unfold notifyCancelled
  split
  · exact .emit rfl
  · exact .refl _

end

theorem Engine.Still.session {ts : Int} (h : SessionSteps X ts e e₁) :
    e.Still X e₁ := by
  induction h with
  | refl => exact .refl e
  | tail _ hstep ih =>
    refine ih.trans ?_
    cases hstep with
    | status s => exact .status s ts
    | report => exact .emit rfl
    | hook => exact ⟨fun _ _ => .refl _, rfl, fun hX => hX _ _ _ _ _⟩
    | reference => exact .same rfl rfl rfl rfl

end ExchangeSim
