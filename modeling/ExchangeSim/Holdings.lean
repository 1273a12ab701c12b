import ExchangeSim.Ownership
import ExchangeSim.Moves

namespace ExchangeSim

inductive Shelf
  | limit
  | stop
  deriving DecidableEq, Repr

variable {D : Type} {k k' : Shelf} {s s' : Side} {order o : Order} {slot : SlotResidue}
  {pool : ObjectPool SlotResidue} {price : Int} {lvls : List PriceLevel} {capacity n : Nat}

def Shelf.before : Shelf → Side → Int → Int → Bool
  | .limit => bookBefore
  | .stop => stopBefore

def Shelf.fits : Shelf → Side → Int → Order → Prop
  | .limit => bookFits
  | .stop => stopFits

theorem Shelf.strictBefore (k : Shelf) (s : Side) : StrictBefore (k.before s) := by
  cases k with
  | limit => exact strictBefore_book s
  | stop => exact strictBefore_stop s

theorem Shelf.fits_side (h : k.fits s price o) : o.side = s := by
  cases k <;> exact h.1

theorem Shelf.fits_congr {o' : Order} (h : k.fits s price o) (hside : o'.side = o.side)
    (htype : o'.type = o.type) (hprice : o'.price = o.price) : k.fits s price o' := by
  cases k <;> simpa [Shelf.fits, bookFits, stopFits, hside, htype, hprice] using h

/-- What an engine holds: the books, the pools, the index and the recorded trades. -/
structure Holdings where
  lvls : Shelf → Side → List PriceLevel
  orderPool : ObjectPool SlotResidue
  levelPool : ObjectPool Unit
  orderIndex : Nat → Option Nat
  nextOrderId : Nat
  tradeRegistry : TradeRegistry

def Engine.shelf (e : Engine D) : Shelf → Side → List PriceLevel
  | .limit => e.book
  | .stop => e.stopBook

def Engine.holdings (e : Engine D) : Holdings where
  lvls := e.shelf
  orderPool := e.orderPool
  levelPool := e.levelPool
  orderIndex := e.orderIndex
  nextOrderId := e.nextOrderId
  tradeRegistry := e.tradeRegistry

def Holdings.ids (H : Holdings) : List Nat :=
  idsIn (H.lvls .limit .buy) ++ idsIn (H.lvls .limit .sell) ++
    (idsIn (H.lvls .stop .buy) ++ idsIn (H.lvls .stop .sell))

def Holdings.levelCount (H : Holdings) : Nat :=
  (H.lvls .limit .buy).length + (H.lvls .limit .sell).length +
    ((H.lvls .stop .buy).length + (H.lvls .stop .sell).length)

/-- Each of `ids` is indexed under itself and has a slot of its own; nothing else is. -/
structure Holdings.Owns (X : Exchange D) (ids : List Nat) (H : Holdings) : Prop where
  nodup : ids.Nodup
  index : ∀ id p, H.orderIndex id = some p ↔ p = id ∧ id ∈ ids
  live : H.orderPool.allocated = ids.length
  balanced : H.orderPool.Balanced X.maxOrders
  assigned : ∀ id ∈ ids, 0 < id ∧ id < H.nextOrderId
  next : 0 < H.nextOrderId

/-- The books are in shape, every linked order and every order of `extra` is owned, and
every linked level has a slot of its own. -/
structure Holdings.Sound (X : Exchange D) (w : Prop) (extra : List Nat) (H : Holdings) :
    Prop where
  shape : ∀ k s, SideSound w (Shelf.before k s) (Shelf.fits k s) (H.lvls k s)
  owns : H.Owns X (extra ++ H.ids)
  levelsLive : H.levelPool.allocated = H.levelCount
  levelsBalanced : H.levelPool.Balanced X.maxPriceLevels
  trades : w → ∀ id t, H.tradeRegistry.trades id = some t → 0 < t.quantity

def Holdings.set (k : Shelf) (s : Side) (lvls : List PriceLevel) (H : Holdings) : Holdings :=
  { H with lvls := Function.update H.lvls k (Function.update (H.lvls k) s lvls) }

namespace Holdings

variable {X : Exchange D} {w : Prop} {extra ids ids' : List Nat} {H : Holdings}

@[simp] theorem set_self (k : Shelf) (s : Side) (lvls : List PriceLevel) :
    (H.set k s lvls).lvls k s = lvls := by
  simp [set]

theorem set_other (h : ¬(k' = k ∧ s' = s)) (lvls : List PriceLevel) :
    (H.set k s lvls).lvls k' s' = H.lvls k' s' := by
  by_cases hk : k' = k
  · subst hk
    have hs : s' ≠ s := fun he => h ⟨rfl, he⟩
    simp [set, hs]
  · simp [set, hk]

theorem ids_set {xs ys : List Nat} (h : (xs ++ idsIn (H.lvls k s)).Perm (ys ++ idsIn lvls)) :
    (xs ++ H.ids).Perm (ys ++ (H.set k s lvls).ids) := by
  rw [List.perm_iff_count] at h ⊢
  intro a
  have ha := h a
  cases k <;> cases s <;> simp only [ids, set, List.count_append, Function.update_self, ne_eq,
    reduceCtorEq, not_false_eq_true, Function.update_of_ne] at ha ⊢ <;> omega

theorem ids_disjoint (hn : H.ids.Nodup) (hne : ¬(k' = k ∧ s' = s)) {id : Nat}
    (hid : id ∈ idsIn (H.lvls k s)) : id ∉ idsIn (H.lvls k' s') := by
  simp only [ids, List.nodup_append, List.mem_append] at hn
  cases k <;> cases s <;> cases k' <;> cases s' <;> grind

theorem levelCount_set (H : Holdings) (k : Shelf) (s : Side) (lvls : List PriceLevel) :
    (H.set k s lvls).levelCount + (H.lvls k s).length = H.levelCount + lvls.length := by
  cases k <;> cases s <;> simp [levelCount, set] <;> omega

theorem mem_ids {id : Nat} : id ∈ H.ids ↔ ∃ k s, id ∈ idsIn (H.lvls k s) := by
  constructor
  · intro h
    simp only [ids, List.mem_append] at h
    rcases h with (h | h) | (h | h)
    · exact ⟨_, _, h⟩
    · exact ⟨_, _, h⟩
    · exact ⟨_, _, h⟩
    · exact ⟨_, _, h⟩
  · rintro ⟨k, s, h⟩
    cases k <;> cases s <;> simp [ids, h]

theorem Owns.perm (h : H.Owns X ids) (hp : ids.Perm ids') : H.Owns X ids' where
  nodup := hp.nodup_iff.mp h.nodup
  index := fun id p => by rw [h.index, hp.mem_iff]
  live := by rw [h.live, hp.length_eq]
  balanced := h.balanced
  assigned := fun id hid => h.assigned id (hp.mem_iff.mpr hid)
  next := h.next

def release (order : Order) (H : Holdings) : Holdings :=
  { H with
    orderIndex := Function.update H.orderIndex order.id none
    orderPool := H.orderPool.deallocate ⟨order.isMarketMaker, order.isTopOrder⟩ }

theorem Owns.release (h : H.Owns X (order.id :: ids)) :
    (H.release order).Owns X ids where
  nodup := (List.nodup_cons.mp h.nodup).2
  index := by
    have hnot := (List.nodup_cons.mp h.nodup).1
    intro id p
    by_cases he : id = order.id
    · subst he
      simp [Holdings.release, hnot]
    · simp [Holdings.release, he, h.index]
  live := by
    have := h.live
    simp only [Holdings.release, ObjectPool.deallocate, List.length_cons] at this ⊢
    omega
  balanced := h.balanced.deallocate (by rw [h.live]; simp) _
  assigned := fun id hid => h.assigned id (by simp [hid])
  next := h.next

/-- A new order takes a slot, its index entry and the next id. -/
def accept (order : Order) (pool : ObjectPool SlotResidue) (H : Holdings) : Holdings :=
  { H with
    orderPool := pool
    orderIndex := Function.update H.orderIndex order.id (some order.id)
    nextOrderId := max H.nextOrderId (order.id + 1) }

theorem Owns.admit (h : H.Owns X ids) (hnew : order.id ∉ ids) (hpos : 0 < order.id)
    (hpool : H.orderPool.allocate = some (slot, pool)) :
    (H.accept order pool).Owns X (order.id :: ids) where
  nodup := List.nodup_cons.mpr ⟨hnew, h.nodup⟩
  index := by
    intro id p
    by_cases he : id = order.id
    · subst he
      simp [Holdings.accept, eq_comm]
    · simp [Holdings.accept, he, h.index]
  live := by
    have := (ObjectPool.allocate_some hpool).2
    simp [Holdings.accept, this, h.live]
  balanced := h.balanced.allocate hpool
  assigned := by
    intro id hmem
    rcases List.mem_cons.mp hmem with rfl | hmem
    · exact ⟨hpos, lt_max_of_lt_right (Nat.lt_succ_self _)⟩
    · have hid := h.assigned id hmem
      exact ⟨hid.1, lt_max_of_lt_left hid.2⟩
  next := lt_max_of_lt_left h.next

theorem Owns.accept (h : H.Owns X ids) (hid : order.id = H.nextOrderId)
    (hpool : H.orderPool.allocate = some (slot, pool)) :
    (H.accept order pool).Owns X (order.id :: ids) := by
  refine h.admit (fun hmem => ?_) (hid ▸ h.next) hpool
  have := (h.assigned _ hmem).2
  omega

def takeOut (k : Shelf) (order : Order) (H : Holdings) : Holdings :=
  let r := unlinkFrom order (H.lvls k order.side)
  { H.set k order.side r.1 with
    levelPool := if r.2 then H.levelPool.deallocate () else H.levelPool }

/-- An order enters a book at a price; `pool` is the level pool with a level taken from it. -/
def putIn (k : Shelf) (order : Order) (price : Int) (pool : ObjectPool Unit) (H : Holdings) :
    Holdings :=
  let r := insertAt (k.before order.side) price order (H.lvls k order.side)
  { H.set k order.side r.1 with levelPool := if r.2 then pool else pool.deallocate () }

theorem balance_freed {pool : ObjectPool Unit} (m : Nat) (freed : Bool) (hlive : pool.allocated = n)
    (hbal : pool.Balanced capacity) (hcount : m + freed.toNat = n) :
    (if freed then pool.deallocate () else pool).allocated = m ∧
      (if freed then pool.deallocate () else pool).Balanced capacity := by
  cases freed with
  | false =>
    refine ⟨?_, hbal⟩
    simp at hcount ⊢
    omega
  | true =>
    simp only [Bool.toNat_true] at hcount
    refine ⟨?_, hbal.deallocate (by omega) _⟩
    simp only [if_true, ObjectPool.deallocate]
    omega

theorem balance_linked {pool pool' : ObjectPool Unit} (m : Nat) (new : Bool)
    (hlive : pool.allocated = n) (hbal : pool.Balanced capacity) {slot : Unit}
    (halloc : pool.allocate = some (slot, pool')) (hcount : m = n + new.toNat) :
    (if new then pool' else pool'.deallocate ()).allocated = m ∧
      (if new then pool' else pool'.deallocate ()).Balanced capacity := by
  have hall := (ObjectPool.allocate_some halloc).2
  have hbal' := hbal.allocate halloc
  cases new with
  | true =>
    simp only [Bool.toNat_true] at hcount
    exact ⟨by simp only [if_true]; omega, hbal'⟩
  | false =>
    simp only [Bool.toNat_false] at hcount
    refine ⟨?_, hbal'.deallocate (by omega) _⟩
    simp only [Bool.false_eq_true, if_false, ObjectPool.deallocate]
    omega

theorem Sound.nodup (h : H.Sound X w extra) (k : Shelf) (s : Side) :
    (idsIn (H.lvls k s)).Nodup := by
  have hn := (List.nodup_append.mp h.owns.nodup).2.1
  obtain ⟨hb, ht, -⟩ := List.nodup_append.mp hn
  cases k <;> cases s
  · exact (List.nodup_append.mp hb).1
  · exact (List.nodup_append.mp hb).2.1
  · exact (List.nodup_append.mp ht).1
  · exact (List.nodup_append.mp ht).2.1

/-- One side of one book changes: the ids `xs` enter it and the ids `ys` leave it. -/
theorem Sound.change (xs ys : List Nat) (h : H.Sound X w (xs ++ extra))
    (hside : SideSound w (k.before s) (k.fits s) lvls)
    (hids : (xs ++ idsIn (H.lvls k s)).Perm (ys ++ idsIn lvls)) {pool : ObjectPool Unit}
    (hlive : pool.allocated = (H.set k s lvls).levelCount) (hbal : pool.Balanced X.maxPriceLevels) :
    Sound X w (ys ++ extra) { H.set k s lvls with levelPool := pool } where
  shape := by
    intro k' s'
    by_cases he : k' = k ∧ s' = s
    · obtain ⟨rfl, rfl⟩ := he
      simpa using hside
    · simpa [set_other he] using h.shape k' s'
  owns := by
    have hmid : ∀ (zs : List Nat) (is : List Nat),
        (zs ++ extra ++ is).Perm (extra ++ (zs ++ is)) := by
      intro zs is
      rw [← List.append_assoc]
      exact List.perm_append_comm.append_right is
    have howns := h.owns.perm ((hmid xs _).trans ((ids_set hids).append_left extra))
    have howns' := howns.perm (hmid ys _).symm
    exact { howns' with }
  levelsLive := hlive
  levelsBalanced := hbal
  trades := h.trades

theorem Sound.takeOut (h : H.Sound X w extra) (ho : o ∈ ordersIn (H.lvls k o.side)) :
    (H.takeOut k o).Sound X w (o.id :: extra) := by
  obtain ⟨A, l, B, Xs, Ys, hsplit, hf⟩ := exists_focus_of_mem (h.nodup k o.side) ho
  have hside := h.shape k o.side
  have hbook := hf.unlinkFrom_sound (hsplit ▸ hside)
  have hids := hf.unlinkFrom_ids (hsplit ▸ hside).level.count
  have hlen := hf.unlinkFrom_length
  rw [← hsplit] at hbook hids hlen
  have hcount := levelCount_set H k o.side (unlinkFrom o (H.lvls k o.side)).1
  obtain ⟨hlive, hbal⟩ := balance_freed
    (H.set k o.side (unlinkFrom o (H.lvls k o.side)).1).levelCount
    (unlinkFrom o (H.lvls k o.side)).2 h.levelsLive h.levelsBalanced (by omega)
  exact Sound.change [] [o.id] h hbook hids hlive hbal

theorem Sound.putIn (h : H.Sound X w (o.id :: extra)) {slot : Unit} {pool : ObjectPool Unit}
    (halloc : H.levelPool.allocate = some (slot, pool)) (hfits : k.fits o.side price o)
    (hpos : w → 0 < o.remainingQuantity) : (H.putIn k o price pool).Sound X w extra := by
  have hside := h.shape k o.side
  have hs := k.strictBefore o.side
  have hids := insertAt_ids hs hside price o
  have hlen := insertAt_length hs hside price o
  have hcount := levelCount_set H k o.side
    (insertAt (k.before o.side) price o (H.lvls k o.side)).1
  obtain ⟨hlive, hbal⟩ := balance_linked
    (H.set k o.side (insertAt (k.before o.side) price o (H.lvls k o.side)).1).levelCount
    (insertAt (k.before o.side) price o (H.lvls k o.side)).2 h.levelsLive h.levelsBalanced halloc
    (by omega)
  exact Sound.change [o.id] [] h (insertAt_sound hs hside hfits hpos) hids.symm hlive hbal

theorem Sound.updateLevel (h : H.Sound X w extra) {A B : List PriceLevel} {l l' : PriceLevel}
    (hsplit : H.lvls k s = A ++ l :: B) (hprice : l'.price = l.price)
    (hsound : l'.Sound w (k.fits s)) (hids : (l'.orders.map (·.id)).Perm (l.orders.map (·.id))) :
    (H.set k s (A ++ l' :: B)).Sound X w extra := by
  have hside := h.shape k s
  rw [hsplit] at hside
  have hcount := levelCount_set H k s (A ++ l' :: B)
  have hlen : (H.lvls k s).length = (A ++ l' :: B).length := by simp [hsplit]
  refine Sound.change [] [] h (hside.replace hprice hsound) ?_ ?_ h.levelsBalanced
  · rw [hsplit]
    exact (idsIn_replace hids).symm
  · have := h.levelsLive
    omega

theorem Sound.release (h : H.Sound X w (order.id :: extra)) : (H.release order).Sound X w extra :=
  { h with owns := h.owns.release }

theorem Sound.accept (h : H.Sound X w extra) (hid : order.id = H.nextOrderId)
    (hpool : H.orderPool.allocate = some (slot, pool)) :
    (H.accept order pool).Sound X w (order.id :: extra) :=
  { h with owns := h.owns.accept hid hpool }

theorem Sound.admit (h : H.Sound X w extra) (hnew : H.orderIndex order.id = none)
    (hpos : 0 < order.id) (hpool : H.orderPool.allocate = some (slot, pool)) :
    (H.accept order pool).Sound X w (order.id :: extra) := by
  have hout : order.id ∉ extra ++ H.ids := fun hmem => by
    have hindex := (h.owns.index order.id order.id).mpr ⟨rfl, hmem⟩
    simp [hnew] at hindex
  exact { h with owns := h.owns.admit hout hpos hpool }

end Holdings

end ExchangeSim
