import ExchangeSim.Blotter

namespace ExchangeSim

variable {D : Type} {X : Exchange D} {e e₀ : Engine D} {a : Action} {W W' : World D} {S S' : Standing}

/-- What one step of an operation posts. -/
inductive Posting (X : Exchange D) (S : Standing) : Standing → Prop
  | nothing : Posting X S S
  | trade (o r : Order) (price q ts : Int) : Posting X S (S.trade X o r price q ts)
  | accept {o : Order} (ts : Int) : o.id = S.nextOrderId → Posting X S (S.accept o ts)
  | bust {id : Nat} {t : TradeRecord} (reason : BustReason) (ts : Int) :
    S.trades.lookup id = some t → t.busted = false → Posting X S (S.bust X id t reason ts)
  | note (a : Action) : Posting X S (S.note a)

theorem Drift.posting (hd : Drift X e₀ a W W') (ha : a.booked) :
    Posting X W.engine.standing W'.engine.standing := by
  cases hd with
  | still hs | leave hs | trigger _ hs | pull _ _ hs => exact hs.standing ▸ .nothing
  | rest _ _ hst | amend _ _ _ _ _ _ hst => exact hst ▸ .nothing
  | trade _ hp | cross _ _ hp => exact hp.standing ▸ .trade _ _ _ _ _
  | enter hacc _ hcall hp | refuse hacc hcall hp =>
    exact hp.standing ▸ .accept _ (hacc.id.trans hcall.next.symm)
  | collect hacc _ _ hcall _ hst | park hacc _ hcall _ hst =>
    exact hst ▸ .accept _ (hacc.id.trans hcall.next.symm)
  | bust hlook hb hp => exact hp.standing ▸ .bust _ _ hlook hb
  | leg hleg => exact (hleg ▸ ha).elim
  | @note e =>
    have hst : (e.record a).standing = e.standing.note a := by
      simp [Engine.standing, Engine.record, Standing.note, JournalEntry.posted]
    exact hst ▸ .note a

theorem reach_posts {I : Standing → Prop} {config : EngineConfig} {derived : D}
    {slots : Nat → SlotResidue} (hI : I (Engine.init X config derived slots).standing)
    (hstep : ∀ {S S'}, S.Balanced X → Posting X S S' → I S → I S')
    (h : Reach X (fun _ a => a.booked) (Engine.init X config derived slots) e) :
    e.standing.Balanced X ∧ I e.standing := by
  obtain ⟨-, hb, hI⟩ := reach_drifts (I := fun W => W.Booked X ∧ I W.engine.standing)
    (init_tidy X config derived slots) ⟨init_booked X config derived slots, hI⟩
    (fun e a ha s ts he => by subst he; exact ha)
    (fun e a ha _ _ W W' ht hW hd =>
      ⟨hW.1.drift ht (fun fills ts he => by subst he; exact ha) hd,
        hstep hW.1.balanced (hd.posting ha) hW.2⟩) h
  exact ⟨hb.balanced, hI⟩

def JournalEntry.acceptedId : JournalEntry → Option Nat
  | .event (.orderAccepted id ..) => some id
  | _ => none

def acceptedIds (journal : List JournalEntry) : List Nat :=
  journal.filterMap JournalEntry.acceptedId

theorem acceptedIds_posted (e : Engine D) :
    acceptedIds e.standing.posted = acceptedIds e.journal := by
  rw [acceptedIds, Engine.standing, List.filterMap_filter]
  refine List.filterMap_congr fun x _ => ?_
  cases x with
  | action a => rfl
  | event ev => cases ev <;> rfl

def Standing.Numbered (S : Standing) : Prop :=
  ∃ n, S.nextOrderId = n + 1 ∧ acceptedIds S.posted = List.range' 1 n

theorem Standing.Numbered.quiet (h : S.Numbered) {x : JournalEntry} (hx : x.acceptedId = none)
    (hnext : S'.nextOrderId = S.nextOrderId) (hposted : S'.posted = S.posted ++ [x]) :
    S'.Numbered := by
  have hids : acceptedIds S'.posted = acceptedIds S.posted := by simp [acceptedIds, hposted, hx]
  rw [Standing.Numbered, hids, hnext]
  exact h

theorem Posting.numbered (hp : Posting X S S') (h : S.Numbered) : S'.Numbered := by
  cases hp with
  | nothing => exact h
  | trade | bust | note => exact h.quiet rfl rfl rfl
  | @accept o ts hid =>
    obtain ⟨n, hnext, hrange⟩ := h
    have hids : acceptedIds (S.accept o ts).posted = acceptedIds S.posted ++ [o.id] := by
      simp [acceptedIds, Standing.accept, JournalEntry.acceptedId]
    refine ⟨n + 1, ?_, ?_⟩
    · show max S.nextOrderId (o.id + 1) = _
      omega
    · rw [hids, List.range'_concat, hrange, hid, hnext, Nat.one_mul, Nat.add_comm]

/-- A record is marked only if its bust was reported, and no bust was reported twice. -/
structure Standing.BustsOnce (S : Standing) : Prop where
  once : S.blotter.busted.Nodup
  marked : ∀ n r, S.trades.lookup n = some r → r.busted = true → n ∈ S.blotter.busted

theorem Standing.BustsOnce.quiet (h : S.BustsOnce) (hb : S'.blotter.busted = S.blotter.busted)
    (hlook : ∀ n r, S'.trades.lookup n = some r → S.trades.lookup n = some r ∨ r.busted = false) :
    S'.BustsOnce := by
  refine ⟨hb ▸ h.once, fun n r hr hmark => hb ▸ ?_⟩
  rcases hlook n r hr with hold | hlive
  · exact h.marked n r hold hmark
  · simp [hlive] at hmark

theorem Posting.bustsOnce (hp : Posting X S S') (hS : S.Balanced X) (h : S.BustsOnce) :
    S'.BustsOnce := by
  cases hp with
  | nothing => exact h
  | trade o r price q ts =>
    refine h.quiet (by rw [Standing.blotter_trade]) fun n t ht => ?_
    rcases TradeRegistry.lookup_record ht with hold | ⟨-, -, rfl⟩
    · exact .inl hold
    · exact .inr rfl
  | @accept o ts =>
    refine h.quiet ?_ fun n r hr => .inl hr
    have hsee : (S.accept o ts).blotter = S.blotter.accept o.id := by
      simp [Standing.blotter, Standing.accept]
      rfl
    rw [hsee, Blotter.accept]
    split <;> rfl
  | @bust id t reason ts hlook hlive =>
    have hnew := (hS.recorded id t hlook).2 hlive
    refine ⟨?_, fun n r hr hmark => ?_⟩ <;> rw [Standing.blotter_bust]
    · exact List.nodup_cons.mpr ⟨hnew, h.once⟩
    · by_cases hn : n = id
      · exact List.mem_cons.mpr (.inl hn)
      · refine List.mem_cons_of_mem _ (h.marked n r ?_ hmark)
        simpa [Standing.bust, TradeRegistry.markBusted, TradeRegistry.lookup, hn] using hr
  | note a => exact h.quiet (by rw [Standing.blotter_note]) fun n r hr => .inl hr

theorem Blotter.sum_share (b : Blotter) (accounts : Finset Nat) (t : Trade)
    (h : b.account t.buyerId ∈ accounts ↔ b.account t.sellerId ∈ accounts) :
    ∑ account ∈ accounts, b.share account t = 0 := by
  simp only [Blotter.share, Finset.sum_sub_distrib, Finset.sum_ite_eq, h, sub_self]

section

variable (config : EngineConfig) (derived : D) (slots : Nat → SlotResidue) (e : Engine D)
  (h : Reach X (fun _ a => a.booked) (Engine.init X config derived slots) e)

include h

/-- Accepted orders are numbered 1, 2, 3 and so on without a gap, whatever is rejected, cancelled,
modified or busted in between. -/
theorem reach_numbered : acceptedIds e.journal = List.range' 1 (e.nextOrderId - 1) := by
  obtain ⟨-, n, hnext, hrange⟩ := reach_posts (I := Standing.Numbered) ⟨0, rfl, rfl⟩
    (fun _ hp hI => hp.numbered hI) h
  have hlast : e.nextOrderId - 1 = n := Nat.sub_eq_of_eq_add hnext
  rw [← acceptedIds_posted, hrange, hlast]

/-- No trade is busted twice, and record `n` of the registry matches the `n`-th reported trade and
is marked exactly if its bust was reported. -/
theorem reach_bustsOnce : e.blotter.busted.Nodup ∧ ∀ n r, e.tradeRegistry.lookup n = some r →
      (∃ t, e.blotter.trades[n - 1]? = some t ∧ r.Matches e.blotter t) ∧
        (r.busted = true ↔ n ∈ e.blotter.busted) := by
  have hstart : (Engine.init X config derived slots).standing.BustsOnce := by
    refine ⟨List.nodup_nil, fun n r hr _ => ?_⟩
    obtain ⟨hpos, hlt⟩ := TradeRegistry.lookup_lt hr
    exact absurd (show n < 1 from hlt) (by omega)
  obtain ⟨hb, honce⟩ := reach_posts (I := Standing.BustsOnce) hstart
    (fun hS hp hI => hp.bustsOnce hS hI) h
  rw [← blotter_standing]
  refine ⟨honce.once, fun n r hr => ?_⟩
  obtain ⟨hmatch, hlive⟩ := hb.recorded n r hr
  refine ⟨hmatch, honce.marked n r hr, fun hmem => ?_⟩
  by_contra hf
  exact hlive (by simpa using hf) hmem

end

theorem Reach.imp {ok ok' : Engine D → Action → Prop} {e₀ e : Engine D} (h : Reach X ok e₀ e)
    (hle : ∀ e a, ok e a → ok' e a) : Reach X ok' e₀ e := by
  induction h with
  | start => exact .start
  | step _ ha hperf ih => exact ih.step (hle _ _ ha) hperf

/-- Where tracked accounts trade only with each other and orders of the limit book are modified
only, their positions sum to zero. -/
theorem reach_zeroSum (config : EngineConfig) (derived : D) (slots : Nat → SlotResidue)
    (e : Engine D) (h : Reach X (fun e a => a.booked ∧ e.limitTargets a)
      (Engine.init X config derived slots) e)
    (hpairs : ∀ t ∈ e.blotter.trades,
      e.blotter.account t.buyerId ∈ Finset.Ico 1 X.maxAccounts ↔
        e.blotter.account t.sellerId ∈ Finset.Ico 1 X.maxAccounts) :
    ∑ account ∈ Finset.Ico 1 X.maxAccounts, e.positions account = 0 := by
  obtain ⟨hb, -⟩ := reach_posts (I := fun _ => True) trivial (fun _ _ _ => trivial)
    (h.imp fun _ _ ha => ha.1)
  have hnet : ∀ account ∈ Finset.Ico 1 X.maxAccounts, e.positions account = e.blotter.net account := by
    intro account ha
    obtain ⟨hpos, hlt⟩ := Finset.mem_Ico.mp ha
    exact blotter_standing e ▸ hb.net account hpos hlt
  rw [Finset.sum_congr rfl hnet]
  unfold Blotter.net
  rw [sum_liveSum]
  exact liveSum_eq_zero (fun t ht => Blotter.sum_share _ _ t (hpairs t ht)) 1

def bustedEngine : Engine Unit :=
  runAll sampleExchange bustActions (sampleStart sampleExchange sampleConfig ())

theorem reach_bustedEngine : Reach sampleExchange (fun e a => a.booked ∧ e.limitTargets a)
    (sampleStart sampleExchange sampleConfig ()) bustedEngine :=
  reach_runAll (by simp [bustActions, Action.booked, Engine.limitTargets]) (by decide +kernel)

theorem reach_numbered_sample :
    acceptedIds bustedEngine.journal = List.range' 1 (bustedEngine.nextOrderId - 1) :=
  reach_numbered sampleConfig () (fun _ => {}) _ (reach_bustedEngine.imp fun _ _ ha => ha.1)

theorem reach_bustsOnce_sample : bustedEngine.blotter.busted = [1] ∧
    bustedEngine.blotter.busted.Nodup ∧ ∀ n r, bustedEngine.tradeRegistry.lookup n = some r →
      (∃ t, bustedEngine.blotter.trades[n - 1]? = some t ∧ r.Matches bustedEngine.blotter t) ∧
        (r.busted = true ↔ n ∈ bustedEngine.blotter.busted) :=
  ⟨by decide +kernel, reach_bustsOnce sampleConfig () (fun _ => {}) _
    (reach_bustedEngine.imp fun _ _ ha => ha.1)⟩

theorem reach_zeroSum_sample :
    ∑ account ∈ Finset.Ico 1 sampleExchange.maxAccounts, bustedEngine.positions account = 0 :=
  reach_zeroSum sampleConfig () (fun _ => {}) _ reach_bustedEngine (by decide +kernel)

end ExchangeSim
