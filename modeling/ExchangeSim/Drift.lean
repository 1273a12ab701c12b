import ExchangeSim.Lineage
import ExchangeSim.MoveOrders

namespace ExchangeSim

open List Holdings

variable {D : Type} {X : Exchange D} {e e' e₀ : Engine D} {a : Action} {o : Order} {W W' : World D}
  {req : OrderRequest} {S : Standing}

structure Order.Lasts (o : Order) : Prop where
  market : o.type ≠ .market
  ioc : o.tif ≠ .ioc
  fok : o.tif ≠ .fok

namespace Standing

/-- A trade is posted: both positions move and it is recorded. -/
def trade (X : Exchange D) (a r : Order) (price q ts : Int) (S : Standing) : Standing where
  positions := updateFill X.maxAccounts r.accountId r.side q
    (updateFill X.maxAccounts a.accountId a.side q S.positions)
  trades := S.trades.record X.maxOrderIds a.id r.id price q ts a.side a.accountId r.accountId
  nextOrderId := S.nextOrderId
  posted := S.posted ++ [.event (.trade ⟨price, q, a.id, r.id, a.side, ts⟩)]

def accept (o : Order) (ts : Int) (S : Standing) : Standing :=
  { S with
    nextOrderId := max S.nextOrderId (o.id + 1)
    posted := S.posted ++ [.event (.orderAccepted o.id o.clientOrderId ts)] }

/-- A trade is busted: it is marked and both positions move back. -/
def bust (X : Exchange D) (id : Nat) (t : TradeRecord) (reason : BustReason) (ts : Int)
    (S : Standing) : Standing :=
  { S with
    positions := reverseFill X.maxAccounts t.restingAccountId t.aggressorSide.opposite t.quantity
      (reverseFill X.maxAccounts t.aggressorAccountId t.aggressorSide t.quantity S.positions)
    trades := S.trades.markBusted id
    posted := S.posted ++ [.event (.tradeBusted id t.aggressorId t.restingId t.price t.quantity
      reason ts)] }

def note (a : Action) (S : Standing) : Standing :=
  { S with posted := S.posted ++ [.action a] }

end Standing

structure Engine.Links (k : Shelf) (o : Order) (e e' : Engine D) : Prop where
  here : (coresIn (e'.shelf k o.side)).Perm (o.core :: coresIn (e.shelf k o.side))
  prices : ((e'.shelf k o.side).map (·.price)).Nodup
  there : ∀ k' s, ¬(k' = k ∧ s = o.side) → e'.shelf k' s = e.shelf k' s
  config : e'.config = e.config

/-- From `e` to `e'` orders are filled and removed at most, and `S` is posted. -/
structure Engine.Posts (X : Exchange D) (S : Standing) (e e' : Engine D) : Prop where
  shelf : ∀ k s, Thins (e.shelf k s) (e'.shelf k s)
  standing : e'.standing = S
  config : X.KeepsConfig → e'.config = e.config

structure Engine.Accepts (X : Exchange D) (e₀ : Engine D) (a : Action) (req : OrderRequest)
    (o : Order) : Prop where
  called : a = .newOrder req
  checked : firstFailure (e₀.newOrderChecks X req) = none
  built : ∃ slot, o = e₀.buildOrder X req slot

/-- In the course of operation `a` called in `e₀`, before an order is accepted. -/
structure Engine.Calls (e₀ : Engine D) (a : Action) (e : Engine D) : Prop where
  next : e.nextOrderId = e₀.nextOrderId
  current : currentAction e.journal = some a

structure Engine.Modifies (X : Exchange D) (e₀ : Engine D) (a : Action) (req : ModifyRequest)
    (o : Order) : Prop where
  called : a = .modifyOrder req
  checked : firstFailure (e₀.modifyChecks X req) = none
  linked : o ∈ e₀.linked

/-- A step of operation `a` called in `e₀`, for books of any shape. -/
inductive Drift (X : Exchange D) (e₀ : Engine D) (a : Action) : World D → World D → Prop
  /-- fills, removals and reports, up to what an order in flight has left -/
  | still {e e' : Engine D} {fl fl' : Option Order} :
    e.Still X e' → fl'.map Order.core = fl.map Order.core → Drift X e₀ a ⟨e, fl⟩ ⟨e', fl'⟩
  /-- the order in flight leaves the engine -/
  | leave {e e' : Engine D} {o : Order} :
    e.Still X e' → Drift X e₀ a ⟨e, some o⟩ ⟨e', none⟩
  | trade {e e' : Engine D} {o r : Order} {price q ts : Int} :
    r ∈ ordersIn (e.book o.side.opposite) →
    e.Posts X (e.standing.trade X o r price q ts) e' → Drift X e₀ a ⟨e, some o⟩ ⟨e', some o⟩
  | cross {e e' : Engine D} {b k : Order} {price q ts : Int} :
    b ∈ ordersIn (e.book .buy) → k ∈ ordersIn (e.book .sell) →
    e.Posts X (e.standing.trade X b k price q ts) e' → Drift X e₀ a ⟨e, none⟩ ⟨e', none⟩
  /-- the order in flight comes to rest after matching -/
  | rest {e e' : Engine D} {o : Order} :
    o.Lasts → e.Links .limit o e' → e'.standing = e.standing →
    Drift X e₀ a ⟨e, some o⟩ ⟨e', none⟩
  | trigger {e e' : Engine D} {stop : Order} :
    stop ∈ ordersIn (e.stopBook stop.side) → e.Still X e' →
    (∀ x ∈ ordersIn (e'.stopBook stop.side), x.id ≠ stop.id) →
    Drift X e₀ a ⟨e, none⟩ ⟨e', some stop.triggered⟩
  /-- an accepted order is matched -/
  | enter {e e' : Engine D} {req : OrderRequest} {o : Order} :
    e₀.Accepts X a req o → req.type.isStop = false → e₀.Calls a e →
    e.Posts X (e.standing.accept o req.timestamp) e' → Drift X e₀ a ⟨e, none⟩ ⟨e', some o⟩
  /-- an accepted order is collected for an auction -/
  | collect {e e' : Engine D} {req : OrderRequest} {o : Order} :
    e₀.Accepts X a req o → e₀.currentState.isCollectionPhase = true → req.type = .limit →
    e₀.Calls a e →
    e.Links .limit o e' → e'.standing = e.standing.accept o req.timestamp →
    Drift X e₀ a ⟨e, none⟩ ⟨e', none⟩
  /-- an accepted stop waits -/
  | park {e e' : Engine D} {req : OrderRequest} {o : Order} :
    e₀.Accepts X a req o → req.type.isStop = true → e₀.Calls a e →
    e.Links .stop o e' → e'.standing = e.standing.accept o req.timestamp →
    Drift X e₀ a ⟨e, none⟩ ⟨e', none⟩
  /-- an accepted order is dropped at once -/
  | refuse {e e' : Engine D} {req : OrderRequest} {o : Order} :
    e₀.Accepts X a req o → e₀.Calls a e →
    e.Posts X (e.standing.accept o req.timestamp) e' → Drift X e₀ a ⟨e, none⟩ ⟨e', none⟩
  /-- cancel-replace takes an order out of either book -/
  | pull {e e' : Engine D} {req : ModifyRequest} {o : Order} {k : Shelf} :
    e₀.Modifies X a req o → o ∈ ordersIn (e.shelf k o.side) → e.Still X e' →
    (∀ x ∈ ordersIn (e'.shelf k o.side), x.id ≠ o.id) →
    Drift X e₀ a ⟨e, none⟩ ⟨e', some (o.replaced req)⟩
  | amend {e e' : Engine D} {req : ModifyRequest} {o : Order} :
    e₀.Modifies X a req o → o ∈ e.linked → e₀.amends X o req = true →
    (∀ k, coresIn (e'.shelf k o.side) = (coresIn (e.shelf k o.side)).map fun c =>
      if c.id = o.id then { c with quantity := req.newQuantity } else c) →
    (∀ k s, s ≠ o.side → e'.shelf k s = e.shelf k s) →
    (∀ k s, (e'.shelf k s).map (·.price) = (e.shelf k s).map (·.price)) →
    e'.standing = e.standing → e'.config = e.config → Drift X e₀ a ⟨e, none⟩ ⟨e', none⟩
  | bust {e e' : Engine D} {id : Nat} {t : TradeRecord} {reason : BustReason} {ts : Int} :
    e.tradeRegistry.lookup id = some t → t.busted = false →
    e.Posts X (e.standing.bust X id t reason ts) e' → Drift X e₀ a ⟨e, none⟩ ⟨e', none⟩
  /-- a leg of an implied fill -/
  | leg {e e' : Engine D} {fills : List LegFill} {ts : Int} :
    a = .applyImpliedFills fills ts → (∀ k s, Thins (e.shelf k s) (e'.shelf k s)) →
    e'.nextOrderId = e.nextOrderId → e'.config = e.config → Drift X e₀ a ⟨e, none⟩ ⟨e', none⟩
  | note {e : Engine D} : Drift X e₀ a ⟨e, none⟩ ⟨e.record a, none⟩

abbrev Drifts (X : Exchange D) (e₀ : Engine D) (a : Action) : World D → World D → Prop :=
  Relation.ReflTransGen (Drift X e₀ a)

theorem idsIn_eq (lvls : List PriceLevel) : idsIn lvls = (coresIn lvls).map (·.id) := by
  simp only [idsIn, coresIn, map_map]
  rfl

theorem Thins.ids {lvls lvls' : List PriceLevel} (h : Thins lvls lvls') :
    (idsIn lvls').Subperm (idsIn lvls) := by
  rw [idsIn_eq, idsIn_eq]
  exact subperm_map h.cores _

def World.ids (W : World D) : List Nat :=
  W.flight.toList.map (·.id) ++ W.engine.holdings.ids

/-- No order and no level is there twice, and every order is on its side. -/
structure World.Tidy (W : World D) : Prop where
  ids : W.ids.Nodup
  assigned : ∀ id ∈ W.ids, id < W.engine.nextOrderId
  prices : ∀ k s, ((W.engine.shelf k s).map (·.price)).Nodup
  sides : ∀ k s, ∀ o ∈ ordersIn (W.engine.shelf k s), o.side = s

namespace World.Tidy

variable {X : Exchange D} {e e' : Engine D} {fl fl' : Option Order} {k : Shelf} {o : Order}

section

variable (h : World.Tidy ⟨e, fl⟩)

include h

theorem linked : e.holdings.ids.Nodup :=
  (List.nodup_append.mp h.ids).2.1

theorem ids_shelf (k : Shelf) (s : Side) : (idsIn (e.shelf k s)).Nodup := by
  have hn := h.linked
  simp only [Holdings.ids, List.nodup_append] at hn
  obtain ⟨⟨hlb, hls, -⟩, ⟨hsb, hss, -⟩, -⟩ := hn
  cases k <;> cases s <;> assumption

theorem agrees (k : Shelf) {s : Side} (ho : o ∈ ordersIn (e.shelf k s)) :
    Agrees o (e.shelf k s) :=
  agrees_of_mem (h.ids_shelf k s) ho

theorem sides_thin (hshelf : ∀ k s, Thins (e.shelf k s) (e'.shelf k s)) :
    ∀ k s, ∀ o ∈ ordersIn (e'.shelf k s), o.side = s := by
  intro k s o ho
  obtain ⟨o₀, ho₀, hcore⟩ := (hshelf k s).exists_core ho
  exact (Order.side_of_core hcore).symm.trans (h.sides k s o₀ ho₀)

theorem thin (hshelf : ∀ k s, Thins (e.shelf k s) (e'.shelf k s))
    (hids : (World.ids ⟨e', fl'⟩).Subperm (World.ids ⟨e, fl⟩))
    (hnext : e.nextOrderId ≤ e'.nextOrderId) : World.Tidy ⟨e', fl'⟩ where
  ids := subperm_nodup hids h.ids
  assigned id hid := (h.assigned id (hids.subset hid)).trans_le hnext
  prices k s := (hshelf k s).prices.nodup (h.prices k s)
  sides := h.sides_thin hshelf

end

end World.Tidy

theorem subperm_ids (hshelf : ∀ k s, Thins (e.shelf k s) (e'.shelf k s)) :
    e'.holdings.ids.Subperm e.holdings.ids :=
  ((hshelf .limit .buy).ids.append (hshelf .limit .sell).ids).append
    ((hshelf .stop .buy).ids.append (hshelf .stop .sell).ids)

theorem Engine.Links.ids {k : Shelf} (h : e.Links k o e') :
    e'.holdings.ids.Perm (o.id :: e.holdings.ids) := by
  have hhere : (idsIn (e'.shelf k o.side)).Perm (o.id :: idsIn (e.shelf k o.side)) := by
    rw [idsIn_eq, idsIn_eq]
    exact h.here.map _
  have hset : e'.holdings.lvls = (e.holdings.set k o.side (e'.shelf k o.side)).lvls := by
    funext k' s
    by_cases hks : k' = k ∧ s = o.side
    · obtain ⟨rfl, rfl⟩ := hks
      simp [Engine.holdings]
    · rw [set_other hks]
      exact h.there k' s hks
  have hids : e'.holdings.ids = (e.holdings.set k o.side (e'.shelf k o.side)).ids := by
    unfold Holdings.ids
    rw [hset]
  rw [hids]
  have hperm : ([o.id] ++ idsIn (e.holdings.lvls k o.side)).Perm
      ([] ++ idsIn (e'.shelf k o.side)) := hhere.symm
  exact (ids_set hperm).symm

namespace World.Tidy

variable {X : Exchange D} {e e' : Engine D} {fl fl' : Option Order} {k : Shelf} {o : Order}

theorem takeOff (h : World.Tidy ⟨e, none⟩) (ho : o ∈ ordersIn (e.shelf k o.side))
    (hshelf : ∀ k s, Thins (e.shelf k s) (e'.shelf k s))
    (habsent : ∀ x ∈ ordersIn (e'.shelf k o.side), x.id ≠ o.id)
    (hnext : e.nextOrderId ≤ e'.nextOrderId) {o' : Order} (hid : o'.id = o.id) :
    World.Tidy ⟨e', some o'⟩ := by
  refine h.thin hshelf ?_ hnext
  have hin : o.id ∈ idsIn (e.holdings.lvls k o.side) := mem_idsIn.mpr ⟨o, ho, rfl⟩
  have hout : o.id ∉ e'.holdings.ids := by
    intro hmem
    obtain ⟨k', s, hks⟩ := mem_ids.mp hmem
    by_cases hsame : k' = k ∧ s = o.side
    · obtain ⟨rfl, rfl⟩ := hsame
      obtain ⟨x, hx, hxid⟩ := mem_idsIn.mp hks
      exact habsent x hx hxid
    · exact ids_disjoint h.linked hsame hin ((hshelf k' s).ids.subset hks)
  have hsub := cons_subperm_of_not_mem_of_mem hout (mem_ids.mpr ⟨k, o.side, hin⟩)
    (subperm_ids hshelf)
  simpa [World.ids, hid] using hsub

theorem link (h : World.Tidy ⟨e, fl⟩) (hl : e.Links k o e')
    (hids : (o.id :: e.holdings.ids).Nodup) (hassigned : o.id < e'.nextOrderId)
    (hnext : e.nextOrderId ≤ e'.nextOrderId) : World.Tidy ⟨e', none⟩ where
  ids := by
    simpa [World.ids] using hl.ids.nodup_iff.mpr hids
  assigned := by
    intro id hid
    rcases List.mem_cons.mp (hl.ids.mem_iff.mp hid) with rfl | hid
    · exact hassigned
    · exact (h.assigned id (by simp [World.ids, hid])).trans_le hnext
  prices := by
    intro k' s
    by_cases hks : k' = k ∧ s = o.side
    · obtain ⟨rfl, rfl⟩ := hks
      exact hl.prices
    · rw [hl.there k' s hks]
      exact h.prices k' s
  sides := by
    intro k' s x hx
    by_cases hks : k' = k ∧ s = o.side
    · obtain ⟨rfl, rfl⟩ := hks
      have hcore := hl.here.mem_iff.mp (mem_coresIn.mpr ⟨x, hx, rfl⟩)
      rcases List.mem_cons.mp hcore with hxo | hold
      · exact Order.side_of_core hxo
      · obtain ⟨y, hy, hyx⟩ := mem_coresIn.mp hold
        exact (Order.side_of_core hyx).symm.trans (h.sides k' o.side y hy)
    · rw [hl.there k' s hks] at hx
      exact h.sides k' s x hx

theorem fresh (h : World.Tidy ⟨e, none⟩) : (e.nextOrderId :: e.holdings.ids).Nodup := by
  refine List.nodup_cons.mpr ⟨fun hid => ?_, h.linked⟩
  exact absurd (h.assigned e.nextOrderId (by simpa [World.ids] using hid)) (lt_irrefl _)

end World.Tidy

theorem Engine.Accepts.id (h : e₀.Accepts X a req o) : o.id = e₀.nextOrderId := by
  obtain ⟨slot, rfl⟩ := h.built
  rfl

theorem toList_ids {fl fl' : Option Order} (h : fl'.map Order.core = fl.map Order.core) :
    fl'.toList.map (·.id) = fl.toList.map (·.id) := by
  cases fl with
  | none => simp [Option.map_eq_none_iff.mp (h.trans rfl)]
  | some o =>
    obtain ⟨o', rfl, hcore⟩ := Option.map_eq_some_iff.mp h
    simp [Order.id_of_core hcore]

theorem Engine.Posts.ids (h : e.Posts X S e') (fl : Option Order) :
    (World.ids ⟨e', fl⟩).Subperm (World.ids ⟨e, fl⟩) :=
  (Subperm.refl _).append (subperm_ids h.shelf)

theorem Engine.Posts.next (h : e.Posts X S e') : e'.nextOrderId = S.nextOrderId :=
  congrArg Standing.nextOrderId h.standing

theorem Engine.Still.next (h : e.Still X e') : e.nextOrderId ≤ e'.nextOrderId :=
  (congrArg Standing.nextOrderId h.standing).ge

theorem World.Tidy.accepted {ts : Int} (h : World.Tidy ⟨e, none⟩) (ha : e₀.Accepts X a req o)
    (hcall : e₀.Calls a e) (hst : e'.standing = e.standing.accept o ts) :
    (o.id :: e.holdings.ids).Nodup ∧ o.id < e'.nextOrderId ∧ e.nextOrderId ≤ e'.nextOrderId := by
  have hnext' : e'.nextOrderId = max e.nextOrderId (o.id + 1) :=
    congrArg Standing.nextOrderId hst
  refine ⟨?_, by omega, by omega⟩
  rw [ha.id, ← hcall.next]
  exact h.fresh

theorem World.Tidy.drift (h : W.Tidy) (hd : Drift X e₀ a W W') : W'.Tidy := by
  cases hd with
  | still hs hfl =>
    refine h.thin hs.shelf ?_ hs.next
    rw [World.ids, World.ids, toList_ids hfl]
    exact (List.Subperm.refl _).append (subperm_ids hs.shelf)
  | leave hs =>
    exact h.thin hs.shelf ((subperm_ids hs.shelf).cons_right _) hs.next
  | trade hr hp => exact h.thin hp.shelf (hp.ids _) hp.next.ge
  | cross hb hk hp => exact h.thin hp.shelf (hp.ids _) hp.next.ge
  | rest hlast hl hst =>
    have hnext := congrArg Standing.nextOrderId hst
    exact h.link hl h.ids ((h.assigned _ (by simp [World.ids])).trans_eq hnext.symm) hnext.ge
  | trigger hstop hs habsent =>
    exact h.takeOff (k := .stop) hstop hs.shelf habsent hs.next (Order.triggered_id _)
  | @enter e e' req o hacc hstop hcall hp =>
    obtain ⟨hnodup, hlt, hle⟩ := h.accepted hacc hcall hp.standing
    have hids : (World.ids ⟨e', some o⟩).Subperm (o.id :: e.holdings.ids) :=
      (List.subperm_cons _).mpr (subperm_ids hp.shelf)
    refine ⟨subperm_nodup hids hnodup, fun id hid => ?_,
      fun k s => (hp.shelf k s).prices.nodup (h.prices k s), h.sides_thin hp.shelf⟩
    rcases List.mem_cons.mp (hids.subset hid) with rfl | hid
    · exact hlt
    · exact (h.assigned id (by simpa [World.ids] using hid)).trans_le hle
  | collect hacc hphase htype hcall hl hst =>
    obtain ⟨hnodup, hlt, hle⟩ := h.accepted hacc hcall hst
    exact h.link hl hnodup hlt hle
  | park hacc hstop hcall hl hst =>
    obtain ⟨hnodup, hlt, hle⟩ := h.accepted hacc hcall hst
    exact h.link hl hnodup hlt hle
  | refuse hacc hcall hp =>
    exact h.thin hp.shelf (hp.ids none) (h.accepted hacc hcall hp.standing).2.2
  | pull hmod hmem hs habsent => exact h.takeOff hmem hs.shelf habsent hs.next rfl
  | @amend e e' req o hmod hmem ham hcores hother hprices hst hc =>
    have hnext := congrArg Standing.nextOrderId hst
    have hidsIn : ∀ k s, idsIn (e'.shelf k s) = idsIn (e.shelf k s) := by
      intro k s
      by_cases hs : s = o.side
      · subst hs
        rw [idsIn_eq, idsIn_eq, hcores, List.map_map]
        refine List.map_congr_left fun c _ => ?_
        simp only [Function.comp_apply]
        split <;> rfl
      · rw [hother k s hs]
    have hids : World.ids ⟨e', none⟩ = World.ids ⟨e, none⟩ := by
      have hl := hidsIn .limit
      have hs := hidsIn .stop
      simp [World.ids, Holdings.ids, Engine.holdings, hl, hs]
    refine ⟨hids ▸ h.ids, fun id hid => (h.assigned id (hids ▸ hid)).trans_eq hnext.symm,
      fun k s => hprices k s ▸ h.prices k s, fun k s x hx => ?_⟩
    by_cases hs : s = o.side
    · subst hs
      have hcore := mem_coresIn.mpr ⟨x, hx, rfl⟩
      rw [hcores] at hcore
      obtain ⟨c, hc, hcx⟩ := List.mem_map.mp hcore
      obtain ⟨y, hy, rfl⟩ := mem_coresIn.mp hc
      have hside : x.side = y.side := by
        have hxside : x.core.side = y.core.side := by
          rw [← hcx]
          split <;> rfl
        exact hxside
      exact hside.trans (h.sides k o.side y hy)
    · rw [hother k s hs] at hx
      exact h.sides k s x hx
  | bust hlook hb hp => exact h.thin hp.shelf (hp.ids _) hp.next.ge
  | leg ha hs hnext hc => exact h.thin hs (subperm_ids hs) hnext.ge
  | note => exact ⟨h.ids, h.assigned, h.prices, h.sides⟩

theorem World.Tidy.drifts (h : W.Tidy) (hd : Drifts X e₀ a W W') : W'.Tidy := by
  induction hd with
  | refl => exact h
  | tail _ hstep ih => exact ih.drift hstep

theorem Drift.config (hd : Drift X e₀ a W W') (hX : X.KeepsConfig) :
    W'.engine.config = W.engine.config := by
  cases hd with
  | still hs _ => exact hs.config hX
  | leave hs => exact hs.config hX
  | trade _ hp => exact hp.config hX
  | cross _ _ hp => exact hp.config hX
  | rest _ hl _ => exact hl.config
  | trigger _ hs _ => exact hs.config hX
  | enter _ _ _ hp => exact hp.config hX
  | collect _ _ _ _ hl _ => exact hl.config
  | park _ _ _ hl _ => exact hl.config
  | refuse _ _ hp => exact hp.config hX
  | pull _ _ hs _ => exact hs.config hX
  | amend _ _ _ _ _ _ _ hc => exact hc
  | bust _ _ hp => exact hp.config hX
  | leg _ _ _ hc => exact hc
  | note => rfl

end ExchangeSim
