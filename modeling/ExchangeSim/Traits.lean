import ExchangeSim.DriftRuns

namespace ExchangeSim

variable {D : Type} {X : Exchange D} {P Q : Order → Prop}

/-- Orders are entered by `new_order` only, and no operation takes an order that waits in the stop
book for one of the limit book. -/
def Engine.limitTargets (e : Engine D) : Action → Prop
  | .restoreOrder .. => False
  | .modifyOrder req => ∀ order ∈ e.linked, order.id = req.orderId → e.rests order
  | .applyImpliedFills fills _ => ∀ fill ∈ fills, ∀ order ∈ e.linked, order.id = fill.orderId →
    e.rests order
  | _ => True

/-- Fills do not change whether an order has the trait. -/
def Trait (P : Order → Prop) : Prop :=
  ∀ o o' : Order, o.core = o'.core → P o → P o'

/-- Orders of the limit book have trait `P` and waiting stops trait `Q`. The order in flight
has `P` if it can come to rest. -/
structure World.Carries (P Q : Order → Prop) (W : World D) : Prop where
  resting : ∀ s, ∀ o ∈ ordersIn (W.engine.book s), P o
  waiting : ∀ s, ∀ o ∈ ordersIn (W.engine.stopBook s), Q o
  flying : ∀ o ∈ W.flight, o.Lasts → P o

/-- What operation `a` called in `e₀` must see to for the traits to last. -/
structure Upholds (X : Exchange D) (P Q : Order → Prop) (e₀ : Engine D) (a : Action) : Prop where
  resting : Trait P
  waiting : Trait Q
  entered : ∀ req o, e₀.Accepts X a req o → req.type.isStop = false → o.Lasts → P o
  collected : ∀ req o, e₀.Accepts X a req o → e₀.currentState.isCollectionPhase = true →
    req.type = .limit → P o
  parked : ∀ req o, e₀.Accepts X a req o → req.type.isStop = true → Q o
  triggered : ∀ o, Q o → o.triggered.Lasts → P o.triggered
  replaced : ∀ req o, e₀.Modifies X a req o → (o.replaced req).Lasts → P (o.replaced req)
  amended : ∀ req o, e₀.Modifies X a req o → e₀.amends X o req = true →
    (P o → P { o with quantity := req.newQuantity }) ∧
      (Q o → Q { o with quantity := req.newQuantity })

theorem Order.Lasts.congr {o o' : Order} (h : o.Lasts) (hc : o.core = o'.core) : o'.Lasts := by
  have htype : o.core.type = o'.core.type := by rw [hc]
  have htif : o.core.tif = o'.core.tif := by rw [hc]
  exact ⟨fun he => h.market (htype.trans he), fun he => h.ioc (htif.trans he),
    fun he => h.fok (htif.trans he)⟩

namespace World.Carries

variable {e e' e₀ : Engine D} {fl fl' : Option Order} {o : Order} {a : Action}

theorem thin (h : World.Carries P Q ⟨e, fl⟩) (hP : Trait P) (hQ : Trait Q)
    (hshelf : ∀ k s, Thins (e.shelf k s) (e'.shelf k s)) (hfl : ∀ o ∈ fl', o.Lasts → P o) :
    World.Carries P Q ⟨e', fl'⟩ where
  resting s o ho := by
    obtain ⟨o₀, ho₀, hcore⟩ := (hshelf .limit s).exists_core ho
    exact hP o₀ o hcore (h.resting s o₀ ho₀)
  waiting s o ho := by
    obtain ⟨o₀, ho₀, hcore⟩ := (hshelf .stop s).exists_core ho
    exact hQ o₀ o hcore (h.waiting s o₀ ho₀)
  flying := hfl

theorem mem_links {k : Shelf} (hl : e.Links k o e') (k' : Shelf) {s : Side} {x : Order}
    (hx : x ∈ ordersIn (e'.shelf k' s)) :
    (k' = k ∧ x.core = o.core) ∨ ∃ y ∈ ordersIn (e.shelf k' s), y.core = x.core := by
  by_cases hks : k' = k ∧ s = o.side
  · obtain ⟨rfl, rfl⟩ := hks
    rcases List.mem_cons.mp (hl.here.mem_iff.mp (mem_coresIn.mpr ⟨x, hx, rfl⟩)) with heq | hold
    · exact .inl ⟨rfl, heq⟩
    · exact .inr (mem_coresIn.mp hold)
  · rw [hl.there k' s hks] at hx
    exact .inr ⟨x, hx, rfl⟩

theorem link_limit (h : World.Carries P Q ⟨e, fl⟩) (hP : Trait P) (hQ : Trait Q)
    (hl : e.Links .limit o e') (ho : P o) : World.Carries P Q ⟨e', none⟩ where
  resting s x hx := by
    rcases mem_links hl .limit hx with ⟨-, hcore⟩ | ⟨y, hy, hcore⟩
    · exact hP o x hcore.symm ho
    · exact hP y x hcore (h.resting s y hy)
  waiting s x hx := by
    rcases mem_links hl .stop hx with ⟨hk, -⟩ | ⟨y, hy, hcore⟩
    · simp at hk
    · exact hQ y x hcore (h.waiting s y hy)
  flying := by simp

theorem link_stop (h : World.Carries P Q ⟨e, fl⟩) (hP : Trait P) (hQ : Trait Q)
    (hl : e.Links .stop o e') (ho : Q o) : World.Carries P Q ⟨e', none⟩ where
  resting s x hx := by
    rcases mem_links hl .limit hx with ⟨hk, -⟩ | ⟨y, hy, hcore⟩
    · simp at hk
    · exact hP y x hcore (h.resting s y hy)
  waiting s x hx := by
    rcases mem_links hl .stop hx with ⟨-, hcore⟩ | ⟨y, hy, hcore⟩
    · exact hQ o x hcore.symm ho
    · exact hQ y x hcore (h.waiting s y hy)
  flying := by simp

theorem mem_amended (ht : World.Tidy ⟨e, none⟩) {q : Int} (hmem : o ∈ e.linked)
    (hcores : ∀ k, coresIn (e'.shelf k o.side) = (coresIn (e.shelf k o.side)).map fun c =>
      if c.id = o.id then { c with quantity := q } else c)
    (hother : ∀ k s, s ≠ o.side → e'.shelf k s = e.shelf k s) {k : Shelf} {s : Side} {x : Order}
    (hx : x ∈ ordersIn (e'.shelf k s)) :
    (∃ y ∈ ordersIn (e.shelf k s), y.core = x.core) ∨
      (o ∈ ordersIn (e.shelf k s) ∧ ({ o with quantity := q } : Order).core = x.core) := by
  by_cases hs : s = o.side
  · subst hs
    have hcore := mem_coresIn.mpr ⟨x, hx, rfl⟩
    rw [hcores] at hcore
    obtain ⟨c, hc, hcx⟩ := List.mem_map.mp hcore
    obtain ⟨y, hy, rfl⟩ := mem_coresIn.mp hc
    by_cases hid : y.core.id = o.id
    · rw [if_pos hid] at hcx
      have hn : (e.linked.map (·.id)).Nodup := holdings_ids e ▸ ht.linked
      obtain rfl := List.inj_on_of_nodup_map hn (mem_linked.mpr ⟨k, o.side, hy⟩) hmem hid
      exact .inr ⟨hy, hcx⟩
    · rw [if_neg hid] at hcx
      exact .inl ⟨y, hy, hcx⟩
  · rw [hother k s hs] at hx
    exact .inl ⟨x, hx, rfl⟩

theorem drift {W W' : World D} (h : W.Carries P Q) (ht : W.Tidy) (hup : Upholds X P Q e₀ a)
    (hd : Drift X e₀ a W W') : W'.Carries P Q := by
  have hP := hup.resting
  have hQ := hup.waiting
  cases hd with
  | @still e e' fl fl' hs hfl =>
    refine h.thin hP hQ hs.shelf fun o' ho' hlast => ?_
    obtain rfl := Option.mem_def.mp ho'
    obtain ⟨o, rfl, hcore⟩ := Option.map_eq_some_iff.mp (hfl.symm.trans rfl)
    exact hP o o' hcore (h.flying o rfl (hlast.congr hcore.symm))
  | leave hs => exact h.thin hP hQ hs.shelf (by simp)
  | trade hr hp => exact h.thin hP hQ hp.shelf h.flying
  | cross hb hk hp => exact h.thin hP hQ hp.shelf (by simp)
  | rest hlast hl hst => exact h.link_limit hP hQ hl (h.flying _ rfl hlast)
  | @trigger e e' stop hmem hs habsent =>
    refine h.thin hP hQ hs.shelf fun o ho hlast => ?_
    obtain rfl := Option.some.inj ho
    exact hup.triggered stop (h.waiting _ stop hmem) hlast
  | @enter e e' req o hacc hstop hcall hp =>
    refine h.thin hP hQ hp.shelf fun x hx hlast => ?_
    obtain rfl := Option.some.inj hx
    exact hup.entered req _ hacc hstop hlast
  | collect hacc hphase htype hcall hl hst =>
    exact h.link_limit hP hQ hl (hup.collected _ _ hacc hphase htype)
  | park hacc hstop hcall hl hst => exact h.link_stop hP hQ hl (hup.parked _ _ hacc hstop)
  | refuse hacc hcall hp => exact h.thin hP hQ hp.shelf (by simp)
  | pull hmod hmem hs habsent =>
    refine h.thin hP hQ hs.shelf fun x hx hlast => ?_
    obtain rfl := Option.some.inj hx
    exact hup.replaced _ _ hmod hlast
  | @amend e e' req o hmod hmem ham hcores hother hprices hst hc =>
    obtain ⟨hPq, hQq⟩ := hup.amended req o hmod ham
    refine ⟨fun s x hx => ?_, fun s x hx => ?_, by simp⟩
    · rcases mem_amended ht hmem hcores hother (k := .limit) hx with ⟨y, hy, hcore⟩ | ⟨ho, hcore⟩
      · exact hP y x hcore (h.resting s y hy)
      · exact hP _ x hcore (hPq (h.resting s o ho))
    · rcases mem_amended ht hmem hcores hother (k := .stop) hx with ⟨y, hy, hcore⟩ | ⟨ho, hcore⟩
      · exact hQ y x hcore (h.waiting s y hy)
      · exact hQ _ x hcore (hQq (h.waiting s o ho))
  | bust hlook hb hp => exact h.thin hP hQ hp.shelf (by simp)
  | leg ha hs hnext hc => exact h.thin hP hQ hs (by simp)
  | note => exact ⟨h.resting, h.waiting, h.flying⟩

end World.Carries

theorem init_carries (X : Exchange D) (P Q : Order → Prop) (config : EngineConfig) (derived : D)
    (slots : Nat → SlotResidue) :
    World.Carries P Q ⟨Engine.init X config derived slots, none⟩ :=
  ⟨by simp [Engine.init], by simp [Engine.init], by simp⟩

theorem reach_carries {ok : Engine D → Action → Prop} {config : EngineConfig} {derived : D}
    {slots : Nat → SlotResidue} {e : Engine D}
    (hok : ∀ e a, ok e a → ∀ s ts, a ≠ .restoreOrder s ts)
    (hup : ∀ e a, ok e a → (X.KeepsConfig → e.config = config) → Upholds X P Q e a)
    (h : Reach X ok (Engine.init X config derived slots) e) : World.Carries P Q ⟨e, none⟩ := by
  have hall := reach_drifts (X := X)
    (I := fun W => W.Carries P Q ∧ (X.KeepsConfig → W.engine.config = config))
    (init_tidy X config derived slots) ⟨init_carries X P Q config derived slots, fun _ => rfl⟩ hok
    (fun e a ha _ hI W W' ht hW hd =>
      ⟨hW.1.drift ht (hup e a ha hI.2) hd, fun hX => (hd.config hX).trans (hW.2 hX)⟩) h
  exact hall.2.1

end ExchangeSim
