import ExchangeSim.Clearing
import ExchangeSim.GridOperations

/-!
Whole lots. Only what is asked for is checked against the lot size; with time priority a fill is the
smaller of two quantities, so nothing leaves the multiples of the lot.
-/

namespace ExchangeSim

variable {D : Type} {G : AddSubgroup ℤ} {X : Exchange D} {e : Engine D}

theorem fifoWalk_grid {price q : Int} {os : List Order} (hos : ∀ o ∈ os, o.OnGrid G)
    (hq : q ∈ G) : (∀ o ∈ (fifoWalk price os q).orders, o.OnGrid G) ∧
      (∀ f ∈ (fifoWalk price os q).results, f.quantity ∈ G) ∧
      (fifoWalk price os q).remaining ∈ G := by
  induction os generalizing q with
  | nil => exact ⟨by simp [fifoWalk], by simp [fifoWalk], hq⟩
  | cons o os ih =>
    have ho := hos o (by simp)
    have hrest : ∀ x ∈ os, x.OnGrid G := fun x hx => hos x (by simp [hx])
    have hfill := min_mem_grid hq ho.remaining
    unfold fifoWalk
    split
    · obtain ⟨horders, hresults, hleft⟩ := ih hrest (sub_mem hq hfill)
      refine ⟨fun x hx => ?_, fun f hf => ?_, hleft⟩
      · rcases List.mem_cons.mp hx with rfl | hx
        · exact ho.fill hfill
        · exact horders x hx
      · rcases List.mem_cons.mp hf with rfl | hf
        · exact hfill
        · exact hresults f hf
    · exact ⟨hos, by simp, hq⟩

theorem fifoMatch_aligns (G : AddSubgroup ℤ) : fifoMatch.Aligns G :=
  fun _ _ hl hq => fifoWalk_grid hl.orders hq

theorem journal_of_mem_trades {t : Trade} (ht : t ∈ e.trades) :
    JournalEntry.event (.trade t) ∈ e.journal := by
  refine mem_of_mem_filterMap (g := fun t => JournalEntry.event (.trade t)) (fun x b hx => ?_) ht
  cases x with
  | action a => simp [JournalEntry.trade?] at hx
  | event ev => cases ev <;> simp_all [JournalEntry.trade?]

def Event.InLots (L : Int) : Event → Prop
  | .trade t => L ∣ t.quantity
  | _ => True

theorem inLots_law (L : Int) : EventLaw (AddSubgroup.zmultiples L) (Event.InLots L) where
  plain ev hev := by
    cases ev with
    | trade t => simp [Event.plain] at hev
    | _ => trivial
  trade _ ht := Int.mem_zmultiples_iff.mp ht

theorem aligns_of_lotSize {L : Int} (hL : 0 < L) {c : EngineConfig} (hc : c.lotSize = L) :
    c.Aligns (AddSubgroup.zmultiples L) := by
  intro q hq
  have hmod : q % L = 0 := by
    by_contra hne
    exact hq ⟨hc ▸ hL, hc ▸ hne⟩
  exact Int.mem_zmultiples_iff.mpr (Int.dvd_of_emod_eq_zero hmod)

/-- The engine has the lot size, and orders are entered, cancelled and modified, matched in an
auction, and trades are busted. -/
def Engine.dealsInLots (L : Int) (e : Engine D) (a : Action) : Prop :=
  e.config.lotSize = L ∧
    match a with
    | .newOrder _ => True
    | .cancelOrder .. => True
    | .modifyOrder _ => True
    | .executeAuction .. => True
    | .bustTrade .. => True
    | _ => False

theorem Engine.dealsInLots.lotted {L : Int} (hL : 0 < L) {a : Action} (h : e.dealsInLots L a) :
    e.lotted (AddSubgroup.zmultiples L) (Event.InLots L) a := by
  obtain ⟨hlot, hkind⟩ := h
  cases a with
  | newOrder | modifyOrder => exact aligns_of_lotSize hL hlot
  | bustTrade id reason ts => exact fun _ _ _ _ => trivial
  | cancelOrder | executeAuction => trivial
  | _ => exact hkind.elim

/-- With time priority and a lot size, every trade, every order and every level is of whole
lots. -/
theorem reach_inLots (hX : X.algo = fifoMatch) {L : Int} (hL : 0 < L) {config : EngineConfig}
    {derived : D} {slots : Nat → SlotResidue}
    (h : Reach X (Engine.dealsInLots L) (Engine.init X config derived slots) e) :
    (∀ t ∈ e.trades, L ∣ t.quantity) ∧
      (∀ o ∈ e.linked, L ∣ o.remainingQuantity ∧ L ∣ o.filledQuantity) ∧
      ∀ s, ∀ l ∈ e.book s ++ e.stopBook s, L ∣ l.totalQuantity := by
  have hlimits : config.Quiet (Event.InLots L) := .inl fun _ _ _ _ => trivial
  have haligned := reach_aligned (inLots_law L) (hX ▸ fifoMatch_aligns _)
    (fun _ _ ha => ha.lotted hL) hlimits h
  refine ⟨fun t ht => ?_, fun o ho => ?_, fun s l hl => ?_⟩
  · exact haligned.journal (.trade t) (journal_of_mem_trades ht)
  · have hgrid : o.OnGrid (AddSubgroup.zmultiples L) := haligned.linked ho
    exact ⟨Int.mem_zmultiples_iff.mp hgrid.remaining, Int.mem_zmultiples_iff.mp hgrid.filled⟩
  · rcases List.mem_append.mp hl with hl | hl
    · exact Int.mem_zmultiples_iff.mp (haligned.books s l hl).total
    · exact Int.mem_zmultiples_iff.mp (haligned.stops s l hl).total

def lotActions : List Action :=
  [.newOrder { limitRequest .sell 100 15 with displayQty := 5 },
    .newOrder (limitRequest .buy 100 10), .bustTrade 1 .erroneousTrade 3]

theorem reach_inLots_sample :
    let e := runAll sampleExchange lotActions
      (sampleStart sampleExchange { sampleConfig with lotSize := 5 } ())
    e.trades.map (·.quantity) = [5, 5] ∧ e.linked.map (·.filledQuantity) = [5] ∧
      ∀ t ∈ e.trades, 5 ∣ t.quantity := by
  intro e
  have hreach : Reach sampleExchange (Engine.dealsInLots 5)
      (sampleStart sampleExchange { sampleConfig with lotSize := 5 } ()) e :=
    reach_passes ⟨⟨rfl, trivial⟩, ⟨by decide +kernel, trivial⟩, ⟨by decide +kernel, trivial⟩,
      trivial⟩ (by decide +kernel)
  exact ⟨by decide +kernel, by decide +kernel, (reach_inLots rfl (by decide) hreach).1⟩

end ExchangeSim
