import ExchangeSim.Focus

namespace ExchangeSim

open List PriceLevel

/-- A level as its book keeps it. The quantities are part of it only under `w`. -/
structure PriceLevel.Sound (w : Prop) (fits : Int → Order → Prop) (l : PriceLevel) : Prop where
  nonempty : l.orders ≠ []
  count : l.orderCount = l.orders.length
  fits : ∀ o ∈ l.orders, fits l.price o
  exact : w → l.Exact

structure SideSound (w : Prop) (before : Int → Int → Bool) (fits : Int → Order → Prop)
    (lvls : List PriceLevel) : Prop where
  sorted : lvls.Pairwise fun a b => before a.price b.price = true
  sound : ∀ l ∈ lvls, l.Sound w fits

/-- What the order of levels must satisfy for the book to stay sorted. -/
structure StrictBefore (before : Int → Int → Bool) : Prop where
  irrefl : ∀ a, before a a = false
  trans : ∀ a b c, before a b = true → before b c = true → before a c = true
  total : ∀ a b, a ≠ b → before a b = true ∨ before b a = true

theorem strictBefore_book (s : Side) : StrictBefore (bookBefore s) := by
  cases s <;> constructor <;> simp only [bookBefore, decide_eq_true_eq, decide_eq_false_iff_not] <;>
    intros <;> omega

theorem strictBefore_stop (s : Side) : StrictBefore (stopBefore s) :=
  strictBefore_book s.opposite

def bookFits (s : Side) (price : Int) (o : Order) : Prop :=
  o.side = s ∧ o.type = .limit ∧ o.price = price

def stopFits (s : Side) (price : Int) (o : Order) : Prop :=
  o.side = s ∧ o.type.isStop = true ∧ (o.type = .stop → o.price = price)

theorem sideSound_nil (w : Prop) (before : Int → Int → Bool) (fits : Int → Order → Prop) :
    SideSound w before fits [] :=
  ⟨by simp, by simp⟩

variable {w : Prop} {before : Int → Int → Bool} {fits : Int → Order → Prop}
  {A B lvls : List PriceLevel} {l l' : PriceLevel} {o o' : Order} {X Y : List Order}

namespace SideSound

theorem replace (h : SideSound w before fits (A ++ l :: B)) (hprice : l'.price = l.price)
    (hsound : l'.Sound w fits) : SideSound w before fits (A ++ l' :: B) := by
  obtain ⟨hAB, hA, hB⟩ := pairwise_middle_iff.mp h.sorted
  refine ⟨pairwise_middle_iff.mpr ⟨hAB, ?_, ?_⟩, ?_⟩
  · simpa [hprice] using hA
  · simpa [hprice] using hB
  · intro m hm
    rcases mem_append.mp hm with hm | hm
    · exact h.sound m (by simp [hm])
    · rcases mem_cons.mp hm with rfl | hm
      · exact hsound
      · exact h.sound m (by simp [hm])

theorem remove (h : SideSound w before fits (A ++ l :: B)) :
    SideSound w before fits (A ++ B) := by
  refine ⟨(pairwise_middle_iff.mp h.sorted).1, fun m hm => h.sound m ?_⟩
  rcases mem_append.mp hm with hm | hm <;> simp [hm]

theorem level (h : SideSound w before fits (A ++ l :: B)) : l.Sound w fits :=
  h.sound l (by simp)

theorem price_ne (hs : StrictBefore before) (h : SideSound w before fits (A ++ l :: B))
    {m : PriceLevel} (hm : m ∈ A ++ B) : m.price ≠ l.price := by
  obtain ⟨-, hA, hB⟩ := pairwise_middle_iff.mp h.sorted
  intro he
  have hirr := hs.irrefl l.price
  rcases mem_append.mp hm with hm | hm
  · have := hA m hm
    simp [he, hirr] at this
  · have := hB m hm
    simp [he, hirr] at this

theorem head_before (h : SideSound w before fits (l :: B)) {m : PriceLevel} (hm : m ∈ B) :
    before l.price m.price = true :=
  (pairwise_cons.mp h.sorted).1 m hm

end SideSound

theorem insertAt_split (hn : (lvls.map (·.price)).Nodup) (before : Int → Int → Bool) (key : Int)
    (o : Order) :
    (∃ A l B, lvls = A ++ l :: B ∧ l.price = key ∧
      insertAt before key o lvls = (A ++ l.append o :: B, false)) ∨
    (∃ A B, lvls = A ++ B ∧ findLevel key lvls = none ∧
      insertAt before key o lvls = (A ++ append ⟨key, 0, 0, []⟩ o :: B, true)) := by
  unfold insertAt
  split
  next l hl =>
    have hmem := mem_of_find?_eq_some hl
    have hkey : l.price = key := by simpa using find?_some hl
    obtain ⟨A, B, rfl⟩ := append_of_mem hmem
    refine .inl ⟨A, l, B, rfl, hkey, ?_⟩
    have hne : l.price ∉ (A ++ B).map (·.price) := by
      rw [map_append, map_cons] at hn
      rw [map_append]
      exact (nodup_middle.mp hn).notMem
    have keep : ∀ (C : List PriceLevel), (∀ m ∈ C, m ∈ A ++ B) →
        C.map (fun m => if m.price == key then m.append o else m) = C := by
      intro C hC
      apply map_eq_self
      intro m hm
      have hmk : ¬m.price = key := fun he =>
        hne (hkey ▸ he ▸ mem_map.mpr ⟨m, hC m hm, rfl⟩)
      simp [hmk]
    rw [map_append, map_cons, keep A (by simp +contextual),
      keep B (by simp +contextual)]
    simp [hkey]
  next hnone =>
    obtain ⟨A, B, hsplit, hins⟩ := exists_orderedInsert_split
      (fun a b : PriceLevel => before a.price b.price)
      (append ⟨key, 0, 0, []⟩ o) lvls
    exact .inr ⟨A, B, hsplit, hnone, by simp [linkLevel, hins]⟩

theorem SideSound.prices_nodup (hs : StrictBefore before) (h : SideSound w before fits lvls) :
    (lvls.map (·.price)).Nodup := by
  refine pairwise_map.mpr (h.sorted.imp fun {a b} hab he => ?_)
  rw [he, hs.irrefl] at hab
  simp at hab

namespace PriceLevel.Sound

theorem append (h : l.Sound w fits) (ho : fits l.price o) (hpos : w → 0 < o.remainingQuantity) :
    (l.append o).Sound w fits where
  nonempty := by simp [PriceLevel.append]
  count := by simp [PriceLevel.append, h.count]
  fits := by
    intro x hx
    rcases mem_append.mp hx with hx | hx
    · exact h.fits x hx
    · obtain rfl : x = o := by simpa using hx
      exact ho
  exact := by
    intro hw
    have he := h.exact hw
    refine ⟨by simp [PriceLevel.append, he.total], ?_⟩
    intro x hx
    rcases mem_append.mp hx with hx | hx
    · exact he.positive x hx
    · obtain rfl : x = o := by simpa using hx
      exact hpos hw

theorem fresh {key : Int} (ho : fits key o) (hpos : w → 0 < o.remainingQuantity) :
    (PriceLevel.append ⟨key, 0, 0, []⟩ o).Sound w fits where
  nonempty := by simp [PriceLevel.append]
  count := by simp [PriceLevel.append]
  fits := by simpa [PriceLevel.append] using ho
  exact := fun hw => ⟨by simp [PriceLevel.append], by simpa [PriceLevel.append] using hpos hw⟩

theorem unlink (h : l.Sound w fits) (hf : Focus o A l B X Y) (hrest : X ++ Y ≠ []) :
    (l.unlink o).Sound w fits where
  nonempty := by simpa [PriceLevel.unlink, hf.filter_queue] using hrest
  count := by
    have hq : l.orders.length = (X ++ Y).length + 1 := by simp [hf.queue]; omega
    simp only [PriceLevel.unlink, hf.filter_queue, h.count, hq]
    omega
  fits := by
    intro x hx
    have : x ∈ l.orders := mem_of_mem_filter hx
    exact h.fits x this
  exact := by
    intro hw
    have he := h.exact hw
    refine ⟨?_, fun x hx => he.positive x (mem_of_mem_filter hx)⟩
    have ht := he.total
    simp only [hf.queue, sumQty_append, sumQty_cons] at ht
    simp only [PriceLevel.unlink, hf.filter_queue, sumQty_append, ht]
    omega

theorem update (h : l.Sound w fits) (hf : Focus o A l B X Y) (ho : fits l.price o')
    (hpos : w → 0 < o'.remainingQuantity) :
    Sound w fits { l with
      orders := X ++ o' :: Y
      totalQuantity := l.totalQuantity + (o'.remainingQuantity - o.remainingQuantity) } where
  nonempty := by simp
  count := by simp [h.count, hf.queue]
  fits := by
    intro x hx
    simp only [mem_append, mem_cons] at hx
    rcases hx with hx | rfl | hx
    · exact h.fits x (by simp [hf.queue, hx])
    · exact ho
    · exact h.fits x (by simp [hf.queue, hx])
  exact := by
    intro hw
    have he := h.exact hw
    have ht := he.total
    simp only [hf.queue, sumQty_append, sumQty_cons] at ht
    refine ⟨by simp only [sumQty_append, sumQty_cons, ht]; omega, ?_⟩
    intro x hx
    simp only [mem_append, mem_cons] at hx
    rcases hx with hx | rfl | hx
    · exact he.positive x (by simp [hf.queue, hx])
    · exact hpos hw
    · exact he.positive x (by simp [hf.queue, hx])

theorem reorder (h : l.Sound w fits) {os : List Order} (hp : os.Perm l.orders) :
    Sound w fits { l with orders := os } where
  nonempty := by
    intro hnil
    have : ([] : List Order).Perm l.orders := by simpa [show os = [] from hnil] using hp
    exact h.nonempty (nil_perm.mp this)
  count := by simpa [hp.length_eq] using h.count
  fits := fun x hx => h.fits x (hp.mem_iff.mp hx)
  exact := by
    intro hw
    have he := h.exact hw
    refine ⟨?_, fun x hx => he.positive x (hp.mem_iff.mp hx)⟩
    rw [he.total]
    exact ((hp.map _).sum_eq).symm

end PriceLevel.Sound

end ExchangeSim
