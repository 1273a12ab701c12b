import ExchangeSim.MoveSound

namespace ExchangeSim

open List Function

variable {D : Type} {X : Exchange D} {w : Prop} {o : Order} {os os' R : List Order} {k : Shelf}
  {o' : Option Order} {s : Side}

def byId (os : List Order) (id : Nat) : Option Order :=
  os.find? (·.id == id)

theorem byId_cons (o : Order) (os : List Order) :
    byId (o :: os) = update (byId os) o.id (some o) := by
  funext id
  by_cases h : id = o.id
  · simp [byId, h]
  · simp [byId, h, find?_cons_of_neg, Ne.symm h]

theorem byId_eq_some (nodup : (os.map (·.id)).Nodup) {id : Nat} :
    byId os id = some o ↔ o ∈ os ∧ o.id = id := by
  constructor
  · intro h
    exact ⟨mem_of_find?_eq_some h, by simpa using find?_some h⟩
  · rintro ⟨hmem, rfl⟩
    have hfind : (byId os o.id).isSome = true := by
      rw [byId, find?_isSome]
      exact ⟨o, hmem, by simp⟩
    obtain ⟨x, hx⟩ := Option.isSome_iff_exists.mp hfind
    have hxid : x.id = o.id := by simpa using find?_some hx
    rw [hx, inj_on_of_nodup_map nodup (mem_of_find?_eq_some hx) hmem hxid]

theorem byId_perm (nodup : (os.map (·.id)).Nodup) (h : os.Perm os') : byId os = byId os' := by
  funext id
  refine Option.ext fun o => ?_
  rw [byId_eq_some nodup, byId_eq_some ((h.map _).nodup_iff.mp nodup), h.mem_iff]

theorem byId_eq_none {id : Nat} (h : id ∉ os.map (·.id)) : byId os id = none := by
  rw [byId, find?_eq_none]
  intro o ho he
  exact h (mem_map.mpr ⟨o, ho, by simpa using he⟩)

theorem byId_replace (nodup : (os.map (·.id)).Nodup) (hos : os.Perm (o :: R))
    (hos' : os'.Perm (o'.toList ++ R)) (hid : ∀ x ∈ o', x.id = o.id) :
    byId os' = update (byId os) o.id o' := by
  have hn : ((o :: R).map (·.id)).Nodup := (hos.map _).nodup_iff.mp nodup
  have hout : o.id ∉ R.map (·.id) := (List.nodup_cons.mp hn).1
  have hR : byId R = update (byId os) o.id none := by
    rw [byId_perm nodup hos, byId_cons, update_idem]
    rw [← byId_eq_none hout, update_eq_self]
  cases o' with
  | none =>
    have hp : R.Perm os' := hos'.symm
    rw [← byId_perm (List.nodup_cons.mp hn).2 hp, hR]
  | some x =>
    have hx : x.id = o.id := hid x rfl
    have hp : (x :: R).Perm os' := hos'.symm
    have hnx : ((x :: R).map (·.id)).Nodup := by simpa [hx] using hn
    rw [← byId_perm hnx hp, byId_cons, hR, hx, update_idem]

theorem nodup_replace (nodup : (os.map (·.id)).Nodup) (hos : os.Perm (o :: R))
    (hos' : os'.Perm (o'.toList ++ R)) (hid : ∀ x ∈ o', x.id = o.id) : (os'.map (·.id)).Nodup := by
  have hn : ((o :: R).map (·.id)).Nodup := (hos.map _).nodup_iff.mp nodup
  rw [(hos'.map _).nodup_iff]
  cases o' with
  | none => exact (List.nodup_cons.mp hn).2
  | some x => simpa [hid x rfl] using hn

/-- What a fill leaves of an order of the limit book. -/
def Order.settled (o : Order) (q : Int) : Option Order :=
  if o.remainingQuantity - q = 0 then
    if (o.fill q).hasNextTranche then
      some { o.fill q with remainingQuantity := (o.fill q).nextTranche }
    else none
  else some (o.fill q)

theorem Order.settled_id {x : Order} {q : Int} (h : o.settled q = some x) : x.id = o.id := by
  unfold Order.settled at h
  split at h
  · split at h
    · exact Option.some.inj h ▸ rfl
    · simp at h
  · exact Option.some.inj h ▸ rfl

namespace Holdings

variable {H : Holdings} {extra : List Nat}

def orders (H : Holdings) : List Order :=
  ordersIn (H.lvls .limit .buy) ++ ordersIn (H.lvls .limit .sell) ++
    (ordersIn (H.lvls .stop .buy) ++ ordersIn (H.lvls .stop .sell))

theorem ids_eq (H : Holdings) : H.ids = H.orders.map (·.id) := by
  simp [ids, orders, idsIn]

theorem orders_set (xs ys : List Order) {lvls : List PriceLevel}
    (h : (xs ++ ordersIn (H.lvls k s)).Perm (ys ++ ordersIn lvls)) :
    (xs ++ H.orders).Perm (ys ++ (H.set k s lvls).orders) := by
  rw [List.perm_iff_count] at h ⊢
  intro a
  have ha := h a
  cases k <;> cases s <;> simp only [orders, set, count_append, Function.update_self, ne_eq,
    reduceCtorEq, not_false_eq_true, Function.update_of_ne] at ha ⊢ <;> omega

theorem Sound.takeOut_orders (h : H.Sound X w extra) (ho : o ∈ ordersIn (H.lvls k o.side)) :
    H.orders.Perm (o :: (H.takeOut k o).orders) := by
  obtain ⟨A, l, B, Xs, Ys, hsplit, hf⟩ := exists_focus_of_mem (h.nodup k o.side) ho
  have hp := hf.unlinkFrom_orders (hsplit ▸ h.shape k o.side).level.count
  rw [← hsplit] at hp
  exact orders_set [] [o] hp

theorem Sound.putIn_orders (h : H.Sound X w extra) (k : Shelf) (o : Order) (price : Int)
    (pool : ObjectPool Unit) : (H.putIn k o price pool).orders.Perm (o :: H.orders) := by
  have hp := insertAt_orders (k.strictBefore o.side) (h.shape k o.side) price o
  exact (orders_set [o] [] hp.symm).symm

theorem orders_update {A B : List PriceLevel} {l l' : PriceLevel} {o' : Order}
    (hsplit : H.lvls k s = A ++ l :: B) (hold : l.orders.Perm (o :: R))
    (hnew : l'.orders.Perm (o' :: R)) :
    ∃ rest, H.orders.Perm (o :: rest) ∧ (H.set k s (A ++ l' :: B)).orders.Perm (o' :: rest) := by
  have hmid : ∀ (m : PriceLevel) (x : Order), m.orders.Perm (x :: R) →
      (ordersIn (A ++ m :: B)).Perm (x :: (ordersIn A ++ (R ++ ordersIn B))) := by
    intro m x hm
    rw [ordersIn_append, ordersIn_cons]
    exact ((hm.append_right _).append_left _).trans perm_middle
  have hout : H.orders.Perm (o :: (H.set k s (A ++ { l with orders := R } :: B)).orders) := by
    refine orders_set [] [o] ?_
    rw [hsplit]
    simpa using hmid l o hold
  refine ⟨_, hout, ?_⟩
  have hswap : (o' :: ordersIn (H.lvls k s)).Perm (o :: ordersIn (A ++ l' :: B)) := by
    rw [hsplit]
    exact ((hmid l o hold).cons o').trans ((Perm.swap _ _ _).trans
      ((hmid l' o' hnew).symm.cons o))
  have hin := orders_set [o'] [o] hswap
  have hcancel := (hout.cons o').symm.trans hin
  exact (perm_cons o).mp ((Perm.swap _ _ _).trans hcancel) |>.symm

theorem Sound.mono {w' : Prop} (h : H.Sound X w extra) (hw : w' → w) : H.Sound X w' extra where
  shape := fun k s => ⟨(h.shape k s).sorted, fun l hl =>
    { (h.shape k s).sound l hl with exact := fun h' => ((h.shape k s).sound l hl).exact (hw h') }⟩
  owns := h.owns
  levelsLive := h.levelsLive
  levelsBalanced := h.levelsBalanced
  trades := fun h' => h.trades (hw h')

theorem Sound.settleIn_orders (h : H.Sound X w extra) (ho : o ∈ ordersIn (H.lvls k o.side))
    (q : Int) :
    ∃ rest, H.orders.Perm (o :: rest) ∧
      (H.settleIn k o q).orders.Perm ((o.settled q).toList ++ rest) := by
  obtain ⟨A, l, B, Xs, Ys, hsplit, hf⟩ := exists_focus_of_mem (h.nodup k o.side) ho
  have hold : l.orders.Perm (o :: (Xs ++ Ys)) := by
    rw [hf.queue]
    exact perm_middle
  unfold Holdings.settleIn Order.settled
  split
  next =>
    split
    next =>
      rw [hsplit, hf.onLevelOf_eq]
      refine orders_update hsplit hold ?_
      simp only [PriceLevel.reveal, PriceLevel.requeue, (hf.fillOrder q).filter_queue]
      exact perm_append_singleton _ _
    next => exact ⟨_, h.takeOut_orders ho, Perm.refl _⟩
  next =>
    rw [bookedIn, hsplit, hf.onLevelOf_eq]
    refine orders_update hsplit hold ?_
    rw [hf.fillOrder_orders]
    exact perm_middle

theorem Sound.settle_orders (h : H.Sound X w extra) (ho : o ∈ ordersIn (H.lvls .limit o.side))
    (q : Int) :
    ∃ rest, H.orders.Perm (o :: rest) ∧
      (H.settle o q).orders.Perm ((o.settled q).toList ++ rest) :=
  h.settleIn_orders (k := .limit) ho q

theorem Sound.adjustOrder_orders {e : Engine D} (h : e.holdings.Sound X w extra)
    (ho : o ∈ ordersIn (e.shelf k o.side)) (f : Order → Order) (delta : Int) :
    ∃ rest, e.holdings.orders.Perm (o :: rest) ∧
      (e.adjustOrder o f delta).holdings.orders.Perm (f o :: rest) := by
  obtain ⟨A, l, B, Xs, Ys, hsplit, hf, heq⟩ := h.adjustOrder_holdings ho f delta
  rw [heq]
  refine orders_update hsplit (R := Xs ++ Ys) ?_ ?_
  · rw [hf.queue]
    exact perm_middle
  · rw [hf.adjust_orders]
    exact perm_middle

end Holdings

end ExchangeSim
