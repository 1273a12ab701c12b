import ExchangeSim.MoveOrders

namespace ExchangeSim

open List PriceLevel Holdings

variable {D : Type} {X : Exchange D} {w : Prop} {W : World D} {o : Order} {extra : List Nat}
  {e : Engine D} {k : Shelf} {s : Side}

def PricesWithin (lvls lvls' : List PriceLevel) : Prop :=
  ∀ l ∈ lvls, ∃ l' ∈ lvls', l'.price = l.price

namespace PricesWithin

theorem refl (lvls : List PriceLevel) : PricesWithin lvls lvls :=
  fun l hl => ⟨l, hl, rfl⟩

theorem trans {lvls₁ lvls₂ lvls₃ : List PriceLevel} (h : PricesWithin lvls₁ lvls₂)
    (h' : PricesWithin lvls₂ lvls₃) : PricesWithin lvls₁ lvls₃ := by
  intro l hl
  obtain ⟨m, hm, hml⟩ := h l hl
  obtain ⟨n, hn, hnm⟩ := h' m hm
  exact ⟨n, hn, hnm.trans hml⟩

theorem onLevelOf (id : Nat) (f : PriceLevel → PriceLevel) (lvls : List PriceLevel)
    (hf : ∀ l, (f l).price = l.price) : PricesWithin (ExchangeSim.onLevelOf id f lvls) lvls := by
  intro x hx
  obtain ⟨l, hl, rfl⟩ := mem_map.mp hx
  refine ⟨l, hl, ?_⟩
  split
  · exact (hf l).symm
  · rfl

theorem unlinkFrom (o : Order) (lvls : List PriceLevel) :
    PricesWithin (ExchangeSim.unlinkFrom o lvls).1 lvls := by
  unfold ExchangeSim.unlinkFrom
  split
  · exact refl lvls
  · split
    · exact fun l hl => ⟨l, mem_of_mem_filter hl, rfl⟩
    · exact onLevelOf o.id (·.unlink o) lvls fun _ => rfl

end PricesWithin

namespace Holdings

variable {H : Holdings}

def Shrinks (H H' : Holdings) : Prop :=
  ∀ s, PricesWithin (H'.lvls .limit s) (H.lvls .limit s)

theorem Shrinks.trans {H₁ H₂ H₃ : Holdings} (h : H₁.Shrinks H₂) (h' : H₂.Shrinks H₃) :
    H₁.Shrinks H₃ :=
  fun s => (h' s).trans (h s)

theorem Shrinks.of_eq {H' : Holdings} (h : ∀ s, H'.lvls .limit s = H.lvls .limit s) :
    H.Shrinks H' :=
  fun s => h s ▸ PricesWithin.refl _

theorem Shrinks.set {lvls : List PriceLevel} (h : PricesWithin lvls (H.lvls k s)) :
    H.Shrinks (H.set k s lvls) := by
  intro s'
  by_cases he : Shelf.limit = k ∧ s' = s
  · obtain ⟨rfl, rfl⟩ := he
    simpa using h
  · rw [set_other he]
    exact PricesWithin.refl _

theorem takeOut_shrinks (k : Shelf) (o : Order) (H : Holdings) : H.Shrinks (H.takeOut k o) :=
  Shrinks.set (PricesWithin.unlinkFrom o (H.lvls k o.side))

theorem settle_shrinks (o : Order) (q : Int) (H : Holdings) : H.Shrinks (H.settle o q) := by
  unfold settle
  split
  · split
    · exact Shrinks.set (PricesWithin.onLevelOf _ (reveal o q) _ fun _ => rfl)
    · exact takeOut_shrinks .limit o H
  · exact Shrinks.set (PricesWithin.onLevelOf _ (fillOrder o q) _ fun _ => rfl)

theorem adjustOrder_shrinks (e : Engine D) (o : Order) (f : Order → Order) (delta : Int) :
    e.holdings.Shrinks (e.adjustOrder o f delta).holdings := by
  have hkeep : ∀ lvls, PricesWithin (onLevelOf o.id (adjust o f delta) lvls) lvls :=
    fun lvls => PricesWithin.onLevelOf _ _ lvls fun _ => rfl
  rw [holdings_adjustOrder]
  have hlimit : e.holdings.Shrinks (e.holdings.set .limit o.side
      (onLevelOf o.id (adjust o f delta) (e.holdings.lvls .limit o.side))) :=
    Shrinks.set (hkeep _)
  refine hlimit.trans (Shrinks.set ?_)
  rw [set_other (by simp)]
  exact hkeep _

theorem putIn_other {k' : Shelf} (h : ¬(k' = k ∧ s = o.side)) (price : Int)
    (pool : ObjectPool Unit) : (H.putIn k o price pool).lvls k' s = H.lvls k' s :=
  set_other h _

theorem enter_within (h : H.Sound X w extra) (k : Shelf) (o : Order) (price : Int) :
    ∀ s, ∀ l ∈ (H.enter k o price).lvls k s,
      (s = o.side ∧ l.price = price) ∨ ∃ l' ∈ H.lvls k s, l'.price = l.price := by
  intro s l hl
  rcases halloc : H.levelPool.allocate with _ | ⟨slot, pool⟩
  · rw [enter_none halloc] at hl
    exact .inr ⟨l, hl, rfl⟩
  · rw [enter_some halloc] at hl
    by_cases hs : s = o.side
    · subst hs
      simp only [putIn, set_self] at hl
      rcases insertAt_split ((h.shape k o.side).prices_nodup (k.strictBefore o.side)) _ price o with
        ⟨A, m, B, hsplit, -, heq⟩ | ⟨A, B, hsplit, -, heq⟩
      · rw [heq] at hl
        rcases List.mem_append.mp hl with hl | hl
        · exact .inr ⟨l, by simp [hsplit, hl], rfl⟩
        · rcases List.mem_cons.mp hl with rfl | hl
          · exact .inr ⟨m, by simp [hsplit], rfl⟩
          · exact .inr ⟨l, by simp [hsplit, hl], rfl⟩
      · rw [heq] at hl
        rcases List.mem_append.mp hl with hl | hl
        · exact .inr ⟨l, by simp [hsplit, hl], rfl⟩
        · rcases List.mem_cons.mp hl with rfl | hl
          · exact .inl ⟨rfl, rfl⟩
          · exact .inr ⟨l, by simp [hsplit, hl], rfl⟩
    · rw [putIn_other (by simp [hs])] at hl
      exact .inr ⟨l, hl, rfl⟩

end Holdings

def Move.isRest : Move D → Bool
  | .rest .. => true
  | _ => false

theorem World.Sound.shrinks (h : W.Sound X w) {m : Move D} (hg : m.guard X W)
    (hm : m.isRest = false) : W.engine.holdings.Shrinks (m.run X W).engine.holdings := by
  have hsame : ∀ {e : Engine D}, e.book = W.engine.book →
      W.engine.holdings.Shrinks e.holdings := fun he =>
    Shrinks.of_eq fun s => congrFun he s
  cases m with
  | rest order ts => simp [Move.isRest] at hm
  | fill ts order resting f left reported =>
    obtain ⟨hfl, hmeet⟩ := hg
    obtain ⟨hrest, hside, -, -⟩ := h.rests_of_meets hmeet
    obtain ⟨A, l, B, Xs, Ys, hsplit, hf⟩ :=
      exists_focus_of_mem (h.holds.nodup .limit resting.side) hrest
    simp only [Move.run]
    rw [holdings_bookFill X ts reported hside hsplit hf hmeet.remaining]
    exact settle_shrinks resting f.quantity _
  | cancelResting ts order resting f notify =>
    have hout := takeOut_shrinks .limit resting W.engine.holdings
    have hgone : W.engine.holdings.Shrinks
        ((W.engine.holdings.takeOut .limit resting).release resting) := hout
    cases notify <;> simpa [Move.run] using hgone
  | trigger stop =>
    simp only [Move.run, holdings_removeStop]
    exact takeOut_shrinks .stop stop _
  | park order stopPrice =>
    simp only [Move.run, holdings_insertIntoStopBook]
    refine Shrinks.of_eq fun s => ?_
    unfold enter
    split
    · rfl
    · exact putIn_other (by simp) _ _
  | pull order req =>
    simp only [Move.run, holdings_reportPull, holdings_removeOrder]
    exact takeOut_shrinks .limit order _
  | cancel order ts reason =>
    simp only [Move.run, holdings_reportCancel, holdings_removeOrder]
    exact takeOut_shrinks .limit order _
  | cancelStop order ts reason =>
    simp only [Move.run, holdings_dropOrder, holdings_removeStop]
    exact takeOut_shrinks .stop order _
  | amend order req =>
    have hadj := fun f delta => adjustOrder_shrinks W.engine order f delta
    simp only [Move.run, Engine.amendOrder]
    split
    · simpa using hadj _ _
    · simpa using hadj _ _
  | cross price ts bid ask q =>
    obtain ⟨hfl, hbid, hbuy, -, hask, hsell, -⟩ := hg
    obtain ⟨A, l, B, Xs, Ys, hsplit, hf⟩ :=
      exists_focus_of_mem (h.holds.nodup .limit bid.side) hbid
    obtain ⟨A', l', B', Xs', Ys', hsplit', hf'⟩ :=
      exists_focus_of_mem (h.holds.nodup .limit ask.side) hask
    simp only [Move.run]
    rw [holdings_bookCross X price ts q hbuy hsell (hbuy ▸ hsplit) hf (hsell ▸ hsplit') hf']
    exact (settle_shrinks bid q _).trans (settle_shrinks ask q _)
  | unfill order q => exact adjustOrder_shrinks W.engine order _ q
  | _ => exact hsame rfl

theorem Order.allows_before {a b : Int} (h : bookBefore o.side.opposite a b = true)
    (hb : o.allows b = true) : o.allows a = true := by
  unfold Order.allows at *
  cases ht : o.type <;> cases hs : o.side <;>
    simp only [ht, hs, Side.opposite, bookBefore, decide_eq_true_eq] at h hb ⊢ <;> omega

def Holdings.Beyond (H : Holdings) (o : Order) : Prop :=
  ∀ l ∈ H.lvls .limit o.side.opposite, o.allows l.price = false

theorem Holdings.Sound.beyond {H : Holdings} (hH : H.Sound X w extra)
    (h : ∀ l ∈ (H.lvls .limit o.side.opposite).head?, o.allows l.price = false) : H.Beyond o := by
  intro l hl
  obtain ⟨best, deeper, hbook⟩ := exists_cons_of_ne_nil (ne_nil_of_mem hl)
  have hno : o.allows best.price = false := h best (by simp [hbook])
  have hside := hH.shape .limit o.side.opposite
  rw [hbook] at hl hside
  rcases List.mem_cons.mp hl with rfl | hdeep
  · exact hno
  · have hbefore := hside.head_before hdeep
    by_contra hyes
    have := Order.allows_before hbefore (by simpa using hyes)
    simp [hno] at this

def Engine.Beyond (e : Engine D) (o : Order) : Prop :=
  ∀ l ∈ e.book o.side.opposite, o.allows l.price = false

theorem Engine.Beyond.shrink {e' : Engine D} (h : e.Beyond o)
    (hs : e.holdings.Shrinks e'.holdings) : e'.Beyond o := by
  intro l hl
  obtain ⟨l', hl', hp⟩ := hs o.side.opposite l hl
  rw [← hp]
  exact h l' hl'

theorem Engine.clearOf.beyond (hH : e.holdings.Sound X w extra) (h : e.clearOf o) : e.Beyond o :=
  hH.beyond h

theorem Engine.Beyond.not_meets {order resting : Order} {f : FillResult} (h : e.Beyond order) :
    ¬e.Meets order resting f := by
  intro hm
  obtain ⟨level, deeper, hbook, -, hprice⟩ := hm.best
  have hno := h level (by simp [hbook])
  have hyes := hm.allowed
  rw [hprice, hno] at hyes
  simp at hyes

end ExchangeSim
