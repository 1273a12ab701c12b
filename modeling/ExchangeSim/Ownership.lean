import ExchangeSim.Shape
import ExchangeSim.Engine

namespace ExchangeSim

open List PriceLevel

variable {D : Type} {w : Prop} {before : Int → Int → Bool} {fits : Int → Order → Prop}
  {A B lvls : List PriceLevel} {l l' : PriceLevel} {o : Order} {X Y : List Order}

theorem idsIn_middle : idsIn (A ++ l :: B) = idsIn A ++ (l.orders.map (·.id) ++ idsIn B) := by
  simp [idsIn]

theorem idsIn_replace (h : (l'.orders.map (·.id)).Perm (l.orders.map (·.id))) :
    (idsIn (A ++ l' :: B)).Perm (idsIn (A ++ l :: B)) := by
  rw [idsIn_middle, idsIn_middle]
  exact (h.append_right _).append_left _

theorem Focus.unlinkFrom_orders (hf : Focus o A l B X Y) (hcount : l.orderCount = l.orders.length) :
    (ordersIn (A ++ l :: B)).Perm (o :: ordersIn (unlinkFrom o (A ++ l :: B)).1) := by
  have hq : l.orders.Perm (o :: (X ++ Y)) := by
    rw [hf.queue]
    exact perm_middle
  have hmid : (ordersIn (A ++ l :: B)).Perm (o :: (ordersIn A ++ ((X ++ Y) ++ ordersIn B))) := by
    rw [ordersIn_append, ordersIn_cons]
    refine ((hq.append_right _).append_left _).trans ?_
    exact perm_middle
  have hlen : l.orderCount = (X ++ Y).length + 1 := by simp [hcount, hf.queue]; omega
  rw [hf.unlinkFrom_eq]
  split
  next hzero =>
    have hnil : X ++ Y = [] := length_eq_zero_iff.mp (by omega)
    simpa [hnil] using hmid
  next =>
    refine hmid.trans (Perm.of_eq ?_)
    rw [ordersIn_append, ordersIn_cons, unlink, hf.filter_queue]

theorem Focus.unlinkFrom_ids (hf : Focus o A l B X Y) (hcount : l.orderCount = l.orders.length) :
    (idsIn (A ++ l :: B)).Perm (o.id :: idsIn (unlinkFrom o (A ++ l :: B)).1) :=
  (hf.unlinkFrom_orders hcount).map _

theorem Focus.unlinkFrom_length (hf : Focus o A l B X Y) :
    (unlinkFrom o (A ++ l :: B)).1.length + (unlinkFrom o (A ++ l :: B)).2.toNat =
      (A ++ l :: B).length := by
  rw [hf.unlinkFrom_eq]
  split <;> simp
  omega

theorem Focus.unlinkFrom_sound (hf : Focus o A l B X Y)
    (h : SideSound w before fits (A ++ l :: B)) :
    SideSound w before fits (unlinkFrom o (A ++ l :: B)).1 := by
  rw [hf.unlinkFrom_eq]
  split
  next => exact h.remove
  next hne =>
    refine h.replace (by simp [unlink]) (h.level.unlink hf ?_)
    intro hnil
    have hq := h.level.count
    simp [hf.queue, append_eq_nil_iff.mp hnil] at hq
    omega

theorem insertAt_sound (hs : StrictBefore before) (h : SideSound w before fits lvls) {key : Int}
    (ho : fits key o) (hpos : w → 0 < o.remainingQuantity) :
    SideSound w before fits (insertAt before key o lvls).1 := by
  rcases insertAt_split (h.prices_nodup hs) before key o with
    ⟨A, l, B, rfl, rfl, heq⟩ | ⟨A, B, rfl, hnone, heq⟩
  · rw [heq]
    exact h.replace rfl (h.level.append ho hpos)
  · have hsorted := pairwise_orderedInsert
      (r := fun a b : PriceLevel => before a.price b.price = true)
      (fun a b c => hs.trans a.price b.price c.price) h.sorted
      (x := append ⟨key, 0, 0, []⟩ o) ?_
    · refine ⟨?_, ?_⟩
      · simpa only [insertAt, hnone, linkLevel] using hsorted
      · rw [heq]
        intro m hm
        simp only [mem_append, mem_cons] at hm
        rcases hm with hm | rfl | hm
        · exact h.sound m (by simp [hm])
        · exact Sound.fresh ho hpos
        · exact h.sound m (by simp [hm])
    · intro m hm
      have hne : m.price ≠ key := by
        simp only [findLevel, find?_eq_none, beq_iff_eq] at hnone
        exact hnone m hm
      exact hs.total key m.price hne.symm

theorem insertAt_perm (hn : (lvls.map (·.price)).Nodup) (before : Int → Int → Bool) (key : Int)
    (o : Order) : (ordersIn (insertAt before key o lvls).1).Perm (o :: ordersIn lvls) := by
  rcases insertAt_split hn before key o with ⟨A, l, B, rfl, -, heq⟩ | ⟨A, B, rfl, -, heq⟩
  · rw [heq, ordersIn_append, ordersIn_append, ordersIn_cons, ordersIn_cons, append]
    refine Perm.trans ?_ perm_middle
    refine Perm.append_left _ ?_
    rw [append_assoc]
    exact perm_middle
  · rw [heq]
    simp [append]

theorem insertAt_orders (hs : StrictBefore before) (h : SideSound w before fits lvls) (key : Int)
    (o : Order) : (ordersIn (insertAt before key o lvls).1).Perm (o :: ordersIn lvls) :=
  insertAt_perm (h.prices_nodup hs) before key o

theorem insertAt_prices (hn : (lvls.map (·.price)).Nodup) (before : Int → Int → Bool) (key : Int)
    (o : Order) : ((insertAt before key o lvls).1.map (·.price)).Nodup := by
  rcases insertAt_split hn before key o with ⟨A, l, B, rfl, -, heq⟩ | ⟨A, B, rfl, hnone, heq⟩
  · simpa [heq, append] using hn
  · rw [heq, map_append, map_cons, nodup_middle]
    rw [map_append] at hn
    refine nodup_cons.mpr ⟨?_, hn⟩
    simp only [findLevel, find?_eq_none, beq_iff_eq] at hnone
    rw [← map_append]
    intro hmem
    obtain ⟨m, hm, hprice⟩ := mem_map.mp hmem
    exact hnone m hm hprice

theorem insertAt_ids (hs : StrictBefore before) (h : SideSound w before fits lvls) (key : Int)
    (o : Order) : (idsIn (insertAt before key o lvls).1).Perm (o.id :: idsIn lvls) :=
  (insertAt_orders hs h key o).map _

theorem insertAt_length (hs : StrictBefore before) (h : SideSound w before fits lvls) (key : Int)
    (o : Order) : (insertAt before key o lvls).1.length =
      lvls.length + (insertAt before key o lvls).2.toNat := by
  rcases insertAt_split (h.prices_nodup hs) before key o with
    ⟨A, l, B, rfl, -, heq⟩ | ⟨A, B, rfl, -, heq⟩
  · simp [heq]
  · simp [heq]
    omega

end ExchangeSim
