import ExchangeSim.Prices

/-!
Books whose sides do not reach one another: they stay so while no price comes up, and when an
order comes to rest that nothing on the other side is within the limit of.
-/

namespace ExchangeSim.Holdings

variable {D : Type} {X : Exchange D} {w : Prop} {extra : List Nat} {H H' : Holdings} {o : Order}

def Apart (H : Holdings) : Prop :=
  ∀ b ∈ H.lvls .limit .buy, ∀ a ∈ H.lvls .limit .sell, b.price < a.price

theorem Apart.shrink (h : H.Apart) (hs : H.Shrinks H') : H'.Apart := by
  intro b hb a ha
  obtain ⟨b', hb', hbp⟩ := hs .buy b hb
  obtain ⟨a', ha', hap⟩ := hs .sell a ha
  have := h b' hb' a' ha'
  omega

theorem Beyond.far (h : H.Beyond o) (htype : o.type = .limit) :
    ∀ l ∈ H.lvls .limit o.side.opposite, match o.side with
      | .buy => o.price < l.price
      | .sell => l.price < o.price := by
  intro l hl
  have hno := h l hl
  unfold Order.allows at hno
  rw [htype] at hno
  cases hs : o.side <;> simpa [hs] using hno

theorem Apart.enter (h : H.Apart) (hH : H.Sound X w extra) (htype : o.type = .limit)
    (hbeyond : H.Beyond o) : (H.enter .limit o o.price).Apart := by
  have hfar := hbeyond.far htype
  have hin := enter_within hH .limit o o.price
  intro b hb a ha
  rcases hin .buy b hb with ⟨hbuy, hbp⟩ | ⟨b', hb', hbp⟩
  · rcases hin .sell a ha with ⟨hsell, -⟩ | ⟨a', ha', hap⟩
    · exact absurd (hbuy.trans hsell.symm) (by simp)
    · rw [← hbuy] at hfar
      have := hfar a' ha'
      omega
  · rcases hin .sell a ha with ⟨hsell, hap⟩ | ⟨a', ha', hap⟩
    · rw [← hsell] at hfar
      have := hfar b' hb'
      omega
    · have := h b' hb' a' ha'
      omega

end ExchangeSim.Holdings
