import ExchangeSim.Lists
import ExchangeSim.MatchPolicy

namespace ExchangeSim

open List PriceLevel

theorem PriceLevel.has_iff {l : PriceLevel} {id : Nat} :
    l.has id = true ↔ ∃ o ∈ l.orders, o.id = id := by
  simp [has]

theorem PriceLevel.has_eq_false {l : PriceLevel} {id : Nat} :
    l.has id = false ↔ ∀ o ∈ l.orders, o.id ≠ id := by
  simp [has]

def idsIn (lvls : List PriceLevel) : List Nat :=
  (ordersIn lvls).map (·.id)

@[simp] theorem ordersIn_nil : ordersIn [] = [] := rfl

@[simp] theorem ordersIn_cons (l : PriceLevel) (ls : List PriceLevel) :
    ordersIn (l :: ls) = l.orders ++ ordersIn ls := rfl

@[simp] theorem ordersIn_append (xs ys : List PriceLevel) :
    ordersIn (xs ++ ys) = ordersIn xs ++ ordersIn ys := by
  simp [ordersIn]

theorem mem_ordersIn {lvls : List PriceLevel} {o : Order} :
    o ∈ ordersIn lvls ↔ ∃ l ∈ lvls, o ∈ l.orders := by
  simp [ordersIn]

theorem mem_idsIn {lvls : List PriceLevel} {id : Nat} :
    id ∈ idsIn lvls ↔ ∃ o ∈ ordersIn lvls, o.id = id := by
  simp [idsIn]

structure Focus (o : Order) (A : List PriceLevel) (l : PriceLevel) (B : List PriceLevel)
    (X Y : List Order) : Prop where
  queue : l.orders = X ++ o :: Y
  outside : ∀ m ∈ A ++ B, m.has o.id = false
  inside : ∀ x ∈ X ++ Y, x.id ≠ o.id

theorem exists_focus {lvls : List PriceLevel} (nodup : (idsIn lvls).Nodup) {o : Order}
    {l : PriceLevel} {A B : List PriceLevel} (hl : lvls = A ++ l :: B) (ho : o ∈ l.orders) :
    ∃ X Y, Focus o A l B X Y := by
  obtain ⟨X, Y, hq⟩ := append_of_mem ho
  subst hl
  simp only [idsIn, ordersIn_append, ordersIn_cons, hq, map_append, map_cons] at nodup
  refine ⟨X, Y, hq, ?_, ?_⟩
  · intro m hm
    rw [has_eq_false]
    intro x hx he
    rcases mem_append.mp hm with hm | hm
    · have hmem : x.id ∈ (ordersIn A).map (·.id) :=
        mem_map.mpr ⟨x, mem_ordersIn.mpr ⟨m, hm, hx⟩, rfl⟩
      exact (nodup_append.mp nodup).2.2 x.id hmem o.id (by simp) he
    · have hmem : x.id ∈ (ordersIn B).map (·.id) :=
        mem_map.mpr ⟨x, mem_ordersIn.mpr ⟨m, hm, hx⟩, rfl⟩
      have hrest := (nodup_append.mp nodup).2.1
      exact (nodup_append.mp hrest).2.2 o.id (by simp) x.id hmem he.symm
  · intro x hx he
    have hrest := (nodup_append.mp nodup).2.1
    have hlevel := (nodup_append.mp hrest).1
    rw [nodup_append, nodup_cons] at hlevel
    obtain ⟨_, ⟨hy, _⟩, hxy⟩ := hlevel
    rcases mem_append.mp hx with hx | hx
    · exact hxy x.id (mem_map.mpr ⟨x, hx, rfl⟩) o.id (by simp) he
    · exact hy (mem_map.mpr ⟨x, hx, he⟩)

theorem exists_focus_of_mem {lvls : List PriceLevel} (nodup : (idsIn lvls).Nodup) {o : Order}
    (ho : o ∈ ordersIn lvls) :
    ∃ A l B X Y, lvls = A ++ l :: B ∧ Focus o A l B X Y := by
  obtain ⟨l, hl, ho⟩ := mem_ordersIn.mp ho
  obtain ⟨A, B, hsplit⟩ := append_of_mem hl
  obtain ⟨X, Y, hf⟩ := exists_focus nodup hsplit ho
  exact ⟨A, l, B, X, Y, hsplit, hf⟩

namespace Focus

variable {o : Order} {A B : List PriceLevel} {l : PriceLevel} {X Y : List Order}

section

variable (h : Focus o A l B X Y)

include h

theorem has : l.has o.id = true := by
  simp [PriceLevel.has, h.queue]

theorem left {m : PriceLevel} (hm : m ∈ A) : m.has o.id = false :=
  h.outside m (mem_append_left _ hm)

theorem right {m : PriceLevel} (hm : m ∈ B) : m.has o.id = false :=
  h.outside m (mem_append_right _ hm)

theorem levelOf_eq : levelOf o.id (A ++ l :: B) = some l := by
  have hA : A.find? (fun m => m.has o.id) = none := by
    simpa using fun m hm => h.left hm
  simp [levelOf, find?_append, hA, h.has]

theorem onLevelOf_eq (f : PriceLevel → PriceLevel) :
    onLevelOf o.id f (A ++ l :: B) = A ++ f l :: B := by
  have keep : ∀ (C : List PriceLevel), (∀ m ∈ C, m.has o.id = false) →
      C.map (fun m => if m.has o.id then f m else m) = C := by
    intro C hC
    apply map_eq_self
    intro m hm
    simp [hC m hm]
  simp [onLevelOf, keep A fun m hm => h.left hm, keep B fun m hm => h.right hm, h.has]

theorem filter_queue :
    l.orders.filter (·.id != o.id) = X ++ Y := by
  have hX : X.filter (·.id != o.id) = X :=
    filter_eq_self.mpr fun x hx => by simpa using h.inside x (by simp [hx])
  have hY : Y.filter (·.id != o.id) = Y :=
    filter_eq_self.mpr fun y hy => by simpa using h.inside y (by simp [hy])
  simp [h.queue, hX, hY]

theorem findOrder_eq : findOrder o.id (A ++ l :: B) = some o := by
  have hA : (ordersIn A).find? (fun x => x.id == o.id) = none := by
    simp only [find?_eq_none, beq_iff_eq]
    intro x hx
    obtain ⟨m, hm, hx⟩ := mem_ordersIn.mp hx
    exact has_eq_false.mp (h.left hm) x hx
  have hX : X.find? (fun x => x.id == o.id) = none := by
    simp only [find?_eq_none, beq_iff_eq]
    exact fun x hx => h.inside x (by simp [hx])
  simp [findOrder, find?_append, hA, h.queue, hX]

theorem unlinkFrom_eq : unlinkFrom o (A ++ l :: B) =
    if l.orderCount - 1 = 0 then (A ++ B, true) else (A ++ l.unlink o :: B, false) := by
  have keep : ∀ (C : List PriceLevel), (∀ m ∈ C, m.has o.id = false) →
      C.filter (fun m => !m.has o.id) = C := by
    intro C hC
    exact filter_eq_self.mpr fun m hm => by simp [hC m hm]
  simp only [unlinkFrom, h.levelOf_eq, h.onLevelOf_eq, filter_append, filter_cons,
    keep A fun m hm => h.left hm, keep B fun m hm => h.right hm, h.has, Bool.not_true,
    Bool.false_eq_true, if_false]

theorem map_orders (f : Order → Order) :
    (A ++ l :: B).map (·.mapOrders fun x => if x.id = o.id then f x else x) =
      A ++ { l with orders := X ++ f o :: Y } :: B := by
  have keep : ∀ (os : List Order), (∀ x ∈ os, x.id ≠ o.id) →
      os.map (fun x => if x.id = o.id then f x else x) = os := by
    intro os hos
    apply map_eq_self
    intro x hx
    simp [hos x hx]
  have keepAll : ∀ (C : List PriceLevel), (∀ m ∈ C, m.has o.id = false) →
      C.map (·.mapOrders fun x => if x.id = o.id then f x else x) = C := by
    intro C hC
    apply map_eq_self
    intro m hm
    simp [mapOrders, keep m.orders (has_eq_false.mp (hC m hm))]
  have hX := keep X fun x hx => h.inside x (by simp [hx])
  have hY := keep Y fun y hy => h.inside y (by simp [hy])
  rw [map_append, map_cons, keepAll A fun m hm => h.left hm,
    keepAll B fun m hm => h.right hm]
  simp [mapOrders, h.queue, hX, hY]

theorem replace {o' : Order} (hid : o'.id = o.id) {l' : PriceLevel}
    (hq : l'.orders = X ++ o' :: Y) : Focus o' A l' B X Y where
  queue := hq
  outside := by simpa [hid] using h.outside
  inside := by simpa [hid] using h.inside

end

end Focus

end ExchangeSim
