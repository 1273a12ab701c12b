import ExchangeSim.Observers
import ExchangeSim.Sample
import ExchangeSim.Traits

namespace ExchangeSim

variable {D : Type} {X : Exchange D} {req : OrderRequest} {g : TradeRegistry} {n m : Nat}
  {t : TradeRecord} {o a r x : Order} {price q ts : Int} {W : World D} {S : Standing}

def Trade.buyerId (t : Trade) : Nat :=
  match t.aggressorSide with
  | .buy => t.aggressorId
  | .sell => t.restingId

def Trade.sellerId (t : Trade) : Nat :=
  match t.aggressorSide with
  | .buy => t.restingId
  | .sell => t.aggressorId

/-- What a journal tells of accounts and trades: the account each order was sent for, the trades
in the order they were reported, and the numbers of those that were busted. Trades are numbered
from one. -/
structure Blotter where
  current : Option Action := none
  account : Nat → Nat := fun _ => 0
  trades : List Trade := []
  busted : List Nat := []

namespace Blotter

def accept (id : Nat) (b : Blotter) : Blotter :=
  match b.current with
  | some (.newOrder req) => { b with account := Function.update b.account id req.accountId }
  | _ => b

def see (b : Blotter) : JournalEntry → Blotter
  | .action a => { b with current := some a }
  | .event (.orderAccepted id _ _) => b.accept id
  | .event (.trade t) => { b with trades := b.trades ++ [t] }
  | .event (.tradeBusted id ..) => { b with busted := id :: b.busted }
  | _ => b

def share (b : Blotter) (account : Nat) (t : Trade) : Int :=
  (if b.account t.buyerId = account then t.quantity else 0) -
    if b.account t.sellerId = account then t.quantity else 0

def net (b : Blotter) (account : Nat) : Int :=
  liveSum b.busted (b.share account) b.trades 1

end Blotter

def blotter : Observer JournalEntry Blotter where
  start := {}
  see := Blotter.see

def Engine.blotter (e : Engine D) : Blotter :=
  ExchangeSim.blotter.state e.journal

def Standing.blotter (S : Standing) : Blotter :=
  ExchangeSim.blotter.state S.posted

theorem Blotter.accept_current (b : Blotter) (id : Nat) : (b.accept id).current = b.current := by
  unfold Blotter.accept
  split <;> rfl

theorem blotter_heeds : blotter.Heeds JournalEntry.posted := by
  intro b x hx
  cases x with
  | action a => simp [JournalEntry.posted] at hx
  | event ev => cases ev <;> first | rfl | simp [JournalEntry.posted] at hx

theorem blotter_standing (e : Engine D) : e.standing.blotter = e.blotter :=
  blotter_heeds.state_filter e.journal

theorem blotter_current (h : List JournalEntry) :
    (blotter.state h).current = currentAction h := by
  refine (List.foldl_hom Blotter.current fun b x => ?_).symm
  cases x with
  | action a => rfl
  | event ev =>
    cases ev with
    | orderAccepted id client ts => exact (b.accept_current id).symm
    | _ => rfl

/-! Positions as sums. -/

def Side.signed (s : Side) (q : Int) : Int :=
  match s with
  | .buy => q
  | .sell => -q

theorem updateFill_apply {account : Nat} (h₀ : 0 < account) (hm : account < m) (owner : Nat)
    (s : Side) (q : Int) (p : Positions) : updateFill m owner s q p account =
      p account + if owner = account then s.signed q else 0 := by
  unfold updateFill
  by_cases ho : owner = account
  · subst ho
    have hin : ¬(owner = 0 ∨ owner ≥ m) := by omega
    cases s <;> simp [hin, Side.signed, sub_eq_add_neg]
  · split
    · simp
    · cases s <;> simp [Ne.symm ho]

theorem reverseFill_eq (m owner : Nat) (s : Side) (q : Int) :
    reverseFill m owner s q = updateFill m owner s (-q) := by
  unfold reverseFill updateFill
  cases s <;> simp [sub_eq_add_neg]

theorem Side.signed_neg (s : Side) (q : Int) : s.signed (-q) = -s.signed q := by
  cases s <;> rfl

theorem Blotter.share_eq (b : Blotter) (account : Nat) (t : Trade) : b.share account t =
    (if b.account t.aggressorId = account then t.aggressorSide.signed t.quantity else 0) +
      if b.account t.restingId = account then t.aggressorSide.opposite.signed t.quantity
        else 0 := by
  unfold Blotter.share Trade.buyerId Trade.sellerId
  cases t.aggressorSide <;> simp only [Side.signed, Side.opposite] <;> split <;> split <;> omega

theorem Blotter.share_congr {b b' : Blotter} {t : Trade}
    (ha : b.account t.aggressorId = b'.account t.aggressorId)
    (hr : b.account t.restingId = b'.account t.restingId) (account : Nat) :
    b.share account t = b'.share account t := by
  rw [Blotter.share_eq, Blotter.share_eq, ha, hr]

structure TradeRecord.Matches (r : TradeRecord) (b : Blotter) (t : Trade) : Prop where
  side : r.aggressorSide = t.aggressorSide
  quantity : r.quantity = t.quantity
  aggressor : r.aggressorAccountId = b.account t.aggressorId
  resting : r.restingAccountId = b.account t.restingId

/-- The registry numbers trades as they are reported, up to its capacity. -/
structure Standing.Balanced (X : Exchange D) (S : Standing) : Prop where
  net : ∀ account, 0 < account → account < X.maxAccounts →
    S.positions account = S.blotter.net account
  recorded : ∀ n r, S.trades.lookup n = some r →
    (∃ t, S.blotter.trades[n - 1]? = some t ∧ r.Matches S.blotter t) ∧
      (r.busted = false → n ∉ S.blotter.busted)
  counted : S.trades.nextTradeId ≤ S.blotter.trades.length + 1
  room : S.trades.nextTradeId < X.maxOrderIds →
    S.trades.nextTradeId = S.blotter.trades.length + 1
  known : ∀ t ∈ S.blotter.trades, t.aggressorId < S.nextOrderId ∧ t.restingId < S.nextOrderId
  struck : ∀ n ∈ S.blotter.busted, n < S.trades.nextTradeId

namespace Standing

variable {S : Standing}

theorem blotter_trade (S : Standing) (a r : Order) (price q ts : Int) :
    (S.trade X a r price q ts).blotter =
      { S.blotter with trades := S.blotter.trades ++ [⟨price, q, a.id, r.id, a.side, ts⟩] } := by
  simp [blotter, trade]
  rfl

theorem blotter_bust (S : Standing) (id : Nat) (t : TradeRecord) (reason : BustReason) (ts : Int) :
    (S.bust X id t reason ts).blotter = { S.blotter with busted := id :: S.blotter.busted } := by
  simp [blotter, bust]
  rfl

theorem blotter_note (S : Standing) (a : Action) :
    (S.note a).blotter = { S.blotter with current := some a } := by
  simp [blotter, note]
  rfl

theorem blotter_accept (h : S.blotter.current = some (.newOrder req)) (o : Order) (ts : Int) :
    (S.accept o ts).blotter =
      { S.blotter with account := Function.update S.blotter.account o.id req.accountId } := by
  have hsee : (S.accept o ts).blotter = S.blotter.accept o.id := by
    simp [blotter, accept]
    rfl
  rw [hsee, Blotter.accept]
  split
  next req' hreq =>
    obtain rfl : req' = req := by simpa using hreq.symm.trans h
    rfl
  next hnone => exact absurd h (hnone req)

end Standing

theorem TradeRegistry.lookup_record {a r : Nat} {s : Side} {aa ra : Nat}
    (h : (g.record m a r price q ts s aa ra).lookup n = some t) :
    g.lookup n = some t ∨ (g.nextTradeId < m ∧ n = g.nextTradeId ∧
      t = ⟨n, a, r, price, q, ts, s, aa, ra, false⟩) := by
  unfold TradeRegistry.record at h
  split at h
  · exact .inl h
  next hroom =>
    unfold TradeRegistry.lookup at h ⊢
    dsimp only at h
    split at h
    · simp at h
    next hn =>
      by_cases hlast : n = g.nextTradeId
      · subst hlast
        exact .inr ⟨by omega, rfl, by simpa using h.symm⟩
      · rw [Function.update_of_ne hlast] at h
        exact .inl (by rw [if_neg (by omega), h])

theorem TradeRegistry.lookup_markBusted {id : Nat} (h : (g.markBusted id).lookup n = some t) :
    (n ≠ id ∧ g.lookup n = some t) ∨
      ∃ r, g.lookup n = some r ∧ t = { r with busted := true } := by
  unfold TradeRegistry.markBusted TradeRegistry.lookup at *
  dsimp only at h
  split at h
  · simp at h
  next hn =>
    rw [if_neg hn]
    by_cases hid : n = id
    · subst hid
      rw [Function.update_self] at h
      obtain ⟨r, hr, rfl⟩ := Option.map_eq_some_iff.mp h
      exact .inr ⟨r, hr, rfl⟩
    · rw [Function.update_of_ne hid] at h
      exact .inl ⟨hid, h⟩

theorem TradeRegistry.record_next (g : TradeRegistry) (m a r : Nat) (price q ts : Int) (s : Side)
    (aa ra : Nat) : (g.record m a r price q ts s aa ra).nextTradeId =
      if g.nextTradeId < m then g.nextTradeId + 1 else g.nextTradeId := by
  unfold TradeRegistry.record
  split <;> split <;> first | rfl | omega

theorem TradeRegistry.lookup_lt (h : g.lookup n = some t) : 0 < n ∧ n < g.nextTradeId := by
  unfold TradeRegistry.lookup at h
  split at h
  · simp at h
  · omega

namespace Standing.Balanced

variable {S : Standing}

theorem trade (h : S.Balanced X) (ha : S.blotter.account a.id = a.accountId)
    (hr : S.blotter.account r.id = r.accountId) (hside : r.side = a.side.opposite)
    (hida : a.id < S.nextOrderId) (hidr : r.id < S.nextOrderId) (price q ts : Int) :
    (S.trade X a r price q ts).Balanced X := by
  have hnext := TradeRegistry.record_next S.trades X.maxOrderIds a.id r.id price q ts a.side
  have hb := S.blotter_trade (X := X) a r price q ts
  have hcount := h.counted
  -- no trade was busted under the number this one gets
  have hfresh : 1 + S.blotter.trades.length ∉ S.blotter.busted := by
    intro hmem
    have := h.struck _ hmem
    omega
  constructor
  · intro account h₀ hm
    rw [hb, Blotter.net]
    rw [liveSum_concat, if_neg hfresh]
    have hshare := Blotter.share_eq { S.blotter with trades := S.blotter.trades ++
      [⟨price, q, a.id, r.id, a.side, ts⟩] } account ⟨price, q, a.id, r.id, a.side, ts⟩
    simp only [ha, hr] at hshare
    rw [hshare, Standing.trade]
    dsimp only
    rw [updateFill_apply h₀ hm, updateFill_apply h₀ hm, hside, h.net account h₀ hm, add_assoc]
    rfl
  · intro n rec hrec
    rw [hb]
    rcases TradeRegistry.lookup_record hrec with hold | ⟨hroom, hn, rfl⟩
    · obtain ⟨⟨t, ht, hmatch⟩, hlive⟩ := h.recorded n rec hold
      refine ⟨⟨t, ?_, ⟨hmatch.side, hmatch.quantity, hmatch.aggressor, hmatch.resting⟩⟩, hlive⟩
      exact List.getElem?_append_left (List.getElem?_eq_some_iff.mp ht).1 ▸ ht
    · have hlen := h.room hroom
      refine ⟨⟨⟨price, q, a.id, r.id, a.side, ts⟩, ?_, rfl, rfl, ha.symm, hr.symm⟩, fun _ hmem => ?_⟩
      · have hidx : n - 1 = S.blotter.trades.length := by omega
        simp [hidx]
      · have := h.struck n hmem
        omega
  · change (S.trades.record _ _ _ _ _ _ _ _ _).nextTradeId ≤ _
    rw [hnext, hb]
    simp only [List.length_append, List.length_singleton]
    split <;> omega
  · intro hroom
    change (S.trades.record _ _ _ _ _ _ _ _ _).nextTradeId < _ at hroom
    change (S.trades.record _ _ _ _ _ _ _ _ _).nextTradeId = _
    rw [hnext] at hroom ⊢
    rw [hb]
    simp only [List.length_append, List.length_singleton]
    split at hroom
    next hlt =>
      rw [if_pos hlt, h.room hlt]
    next hge => omega
  · intro t ht
    rw [hb] at ht
    rcases List.mem_append.mp ht with hold | hnew
    · exact h.known t hold
    · obtain rfl := List.mem_singleton.mp hnew
      exact ⟨hida, hidr⟩
  · intro n hn
    rw [hb] at hn
    change _ < (S.trades.record _ _ _ _ _ _ _ _ _).nextTradeId
    rw [hnext]
    have := h.struck n hn
    split <;> omega

theorem accept (h : S.Balanced X) (hcur : S.blotter.current = some (.newOrder req))
    (hid : S.nextOrderId ≤ o.id) (ts : Int) : (S.accept o ts).Balanced X := by
  have hb := S.blotter_accept hcur o ts
  have hold : ∀ t ∈ S.blotter.trades,
      (S.accept o ts).blotter.account t.aggressorId = S.blotter.account t.aggressorId ∧
        (S.accept o ts).blotter.account t.restingId = S.blotter.account t.restingId := by
    intro t ht
    have hknown := h.known t ht
    rw [hb]
    exact ⟨Function.update_of_ne (by omega) _ _, Function.update_of_ne (by omega) _ _⟩
  have htrades : (S.accept o ts).blotter.trades = S.blotter.trades := by rw [hb]
  have hbusted : (S.accept o ts).blotter.busted = S.blotter.busted := by rw [hb]
  refine ⟨fun account h₀ hm => ?_, fun n r hr => ?_, ?_, ?_, fun t ht => ?_, ?_⟩
  · rw [Blotter.net, htrades, hbusted, liveSum_congr fun t ht =>
      Blotter.share_congr (hold t ht).1 (hold t ht).2 account]
    exact h.net account h₀ hm
  · obtain ⟨⟨t, ht, hmatch⟩, hlive⟩ := h.recorded n r hr
    obtain ⟨hagg, hrest⟩ := hold t (List.mem_of_getElem? ht)
    rw [htrades, hbusted]
    exact ⟨⟨t, ht, hmatch.side, hmatch.quantity, hmatch.aggressor.trans hagg.symm,
      hmatch.resting.trans hrest.symm⟩, hlive⟩
  · rw [htrades]
    exact h.counted
  · rw [htrades]
    exact h.room
  · rw [htrades] at ht
    obtain ⟨hagg, hrest⟩ := h.known t ht
    exact ⟨hagg.trans_le (le_max_left _ _), hrest.trans_le (le_max_left _ _)⟩
  · rw [hbusted]
    exact h.struck

theorem bust (h : S.Balanced X) {id : Nat} {r : TradeRecord} (hlook : S.trades.lookup id = some r)
    (hlive : r.busted = false) (reason : BustReason) (ts : Int) :
    (S.bust X id r reason ts).Balanced X := by
  have hb := S.blotter_bust (X := X) id r reason ts
  obtain ⟨⟨t, ht, hmatch⟩, hnot⟩ := h.recorded id r hlook
  obtain ⟨hpos, hlt⟩ := TradeRegistry.lookup_lt hlook
  have hidx : 1 + (id - 1) = id := by omega
  have hstrike : ∀ account, liveSum (id :: S.blotter.busted) (S.blotter.share account)
      S.blotter.trades 1 = S.blotter.net account - S.blotter.share account t := by
    intro account
    have hs := liveSum_strike (f := S.blotter.share account) ht
      (hidx.symm ▸ hnot hlive)
    rwa [hidx] at hs
  refine ⟨fun account h₀ hm => ?_, fun n r' hr' => ?_, ?_, ?_, ?_, fun n hn => ?_⟩
  · rw [hb, Blotter.net]
    change _ = liveSum (id :: S.blotter.busted) (S.blotter.share account) S.blotter.trades 1
    rw [hstrike account, Blotter.share_eq, Standing.bust]
    dsimp only
    rw [reverseFill_eq, reverseFill_eq, updateFill_apply h₀ hm, updateFill_apply h₀ hm,
      h.net account h₀ hm, hmatch.side, hmatch.quantity, hmatch.aggressor, hmatch.resting,
      Side.signed_neg, Side.signed_neg]
    split <;> split <;> ring
  · rw [hb]
    rcases TradeRegistry.lookup_markBusted hr' with ⟨hne, hold⟩ | ⟨r₀, hold, rfl⟩
    · obtain ⟨⟨t', ht', hm'⟩, hl'⟩ := h.recorded n r' hold
      exact ⟨⟨t', ht', hm'.side, hm'.quantity, hm'.aggressor, hm'.resting⟩,
        fun hf hmem => (List.mem_cons.mp hmem).elim hne (hl' hf)⟩
    · obtain ⟨⟨t', ht', hm'⟩, -⟩ := h.recorded n r₀ hold
      exact ⟨⟨t', ht', hm'.side, hm'.quantity, hm'.aggressor, hm'.resting⟩, by simp⟩
  · rw [hb]
    exact h.counted
  · rw [hb]
    exact h.room
  · rw [hb]
    exact h.known
  · rw [hb] at hn
    rcases List.mem_cons.mp hn with rfl | hn
    · exact hlt
    · exact h.struck n hn

theorem note (h : S.Balanced X) (a : Action) : (S.note a).Balanced X := by
  have hb := S.blotter_note a
  refine ⟨?_, ?_, ?_, ?_, ?_, ?_⟩ <;> rw [hb]
  exacts [h.net, fun n r hr => let ⟨⟨t, ht, hm⟩, hl⟩ := h.recorded n r hr
    ⟨⟨t, ht, hm.side, hm.quantity, hm.aggressor, hm.resting⟩, hl⟩, h.counted, h.room, h.known,
    h.struck]

end Standing.Balanced

def World.Has (W : World D) (o : Order) : Prop :=
  o ∈ W.flight ∨ o ∈ W.engine.linked

theorem World.Tidy.lt_next (h : W.Tidy) (ho : W.Has o) : o.id < W.engine.nextOrderId := by
  refine h.assigned o.id ?_
  rw [World.ids, holdings_ids]
  rcases ho with hfl | hlinked
  · exact List.mem_append_left _ (List.mem_map.mpr ⟨o, Option.mem_toList.mpr hfl, rfl⟩)
  · exact List.mem_append_right _ (List.mem_map.mpr ⟨o, hlinked, rfl⟩)

/-- Positions and registry are those of the journal, which knows the account of every order. -/
structure World.Booked (X : Exchange D) (W : World D) : Prop where
  balanced : W.engine.standing.Balanced X
  accounts : ∀ o, W.Has o → W.engine.standing.blotter.account o.id = o.accountId

theorem Order.account_of_core {o' : Order} (h : o.core = o'.core) : o.accountId = o'.accountId := by
  have haccount : o.core.accountId = o'.core.accountId := by rw [h]
  exact haccount

theorem Order.triggered_account (o : Order) : o.triggered.accountId = o.accountId := by
  unfold Order.triggered
  split <;> rfl

namespace World.Booked

variable {e e' e₀ : Engine D} {fl fl' : Option Order} {o : Order} {a : Action}

theorem of_standing (hst : e'.standing = S) (hb : S.Balanced X)
    (hacc : ∀ x, World.Has ⟨e', fl'⟩ x → S.blotter.account x.id = x.accountId) :
    World.Booked X ⟨e', fl'⟩ := by
  subst hst
  exact ⟨hb, hacc⟩

theorem has_thin (hshelf : ∀ k s, Thins (e.shelf k s) (e'.shelf k s)) (hx : x ∈ e'.linked) :
    ∃ y ∈ e.linked, y.core = x.core := by
  obtain ⟨k, s, hx⟩ := mem_linked.mp hx
  obtain ⟨y, hy, hcore⟩ := (hshelf k s).exists_core hx
  exact ⟨y, mem_linked.mpr ⟨k, s, hy⟩, hcore⟩

theorem thin (h : World.Booked X ⟨e, fl⟩) (hshelf : ∀ k s, Thins (e.shelf k s) (e'.shelf k s))
    (hst : e'.standing = S) (hb : S.Balanced X)
    (hkeep : S.blotter.account = e.standing.blotter.account)
    (hfl : ∀ x ∈ fl', ∃ y, World.Has ⟨e, fl⟩ y ∧ y.id = x.id ∧ y.accountId = x.accountId) :
    World.Booked X ⟨e', fl'⟩ := by
  refine of_standing hst hb ?_
  rintro x (hx | hx)
  · obtain ⟨y, hy, hid, haccount⟩ := hfl x hx
    rw [hkeep, ← hid, ← haccount]
    exact h.accounts y hy
  · obtain ⟨y, hy, hcore⟩ := has_thin hshelf hx
    rw [hkeep, ← Order.id_of_core hcore, ← Order.account_of_core hcore]
    exact h.accounts y (.inr hy)

theorem still (h : World.Booked X ⟨e, fl⟩) (hs : e.Still X e')
    (hfl : ∀ x ∈ fl', ∃ y, World.Has ⟨e, fl⟩ y ∧ y.id = x.id ∧ y.accountId = x.accountId) :
    World.Booked X ⟨e', fl'⟩ :=
  h.thin hs.shelf hs.standing h.balanced rfl hfl

theorem trade (h : World.Booked X ⟨e, fl⟩) (ht : World.Tidy ⟨e, fl⟩) {a : Order}
    (ha : World.Has ⟨e, fl⟩ a) (hr : World.Has ⟨e, fl⟩ r) (hside : r.side = a.side.opposite)
    (hp : e.Posts X (e.standing.trade X a r price q ts) e') : World.Booked X ⟨e', fl⟩ :=
  h.thin hp.shelf hp.standing
    (h.balanced.trade (h.accounts a ha) (h.accounts r hr) hside (ht.lt_next ha) (ht.lt_next hr)
      price q ts)
    (by rw [Standing.blotter_trade]) fun x hx => ⟨x, .inl hx, rfl, rfl⟩

theorem accept (h : World.Booked X ⟨e, none⟩) (ht : World.Tidy ⟨e, none⟩)
    (hacc : e₀.Accepts X a req o) (hcall : e₀.Calls a e)
    (hst : e'.standing = e.standing.accept o req.timestamp)
    (hhas : ∀ x, World.Has ⟨e', fl'⟩ x → x.core = o.core ∨ ∃ y ∈ e.linked, y.core = x.core) :
    World.Booked X ⟨e', fl'⟩ := by
  have hcur : e.standing.blotter.current = some (.newOrder req) := by
    rw [blotter_standing, Engine.blotter, blotter_current, hcall.current, hacc.called]
  have hid : e.standing.nextOrderId = o.id := hcall.next.trans hacc.id.symm
  have hblotter := Standing.blotter_accept hcur o req.timestamp
  refine of_standing hst (h.balanced.accept hcur hid.le _) fun x hx => ?_
  rw [hblotter]
  rcases hhas x hx with hcore | ⟨y, hy, hcore⟩
  · rw [Order.id_of_core hcore, Order.account_of_core hcore]
    obtain ⟨slot, rfl⟩ := hacc.built
    exact Function.update_self ..
  · have hlt : y.id < o.id := (ht.lt_next (.inr hy)).trans_eq hid
    rw [← Order.id_of_core hcore, ← Order.account_of_core hcore]
    exact (Function.update_of_ne hlt.ne _ _).trans (h.accounts y (.inr hy))

theorem has_links {k : Shelf} (hl : e.Links k o e') (hx : x ∈ e'.linked) :
    x.core = o.core ∨ ∃ y ∈ e.linked, y.core = x.core := by
  obtain ⟨k', s, hx⟩ := mem_linked.mp hx
  rcases World.Carries.mem_links hl k' hx with ⟨-, hcore⟩ | ⟨y, hy, hcore⟩
  · exact .inl hcore
  · exact .inr ⟨y, mem_linked.mpr ⟨k', s, hy⟩, hcore⟩

theorem drift {W' : World D} (h : W.Booked X) (ht : W.Tidy)
    (ha : ∀ fills ts, a ≠ .applyImpliedFills fills ts) (hd : Drift X e₀ a W W') : W'.Booked X := by
  cases hd with
  | @still e e' fl fl' hs hfl =>
    refine h.still hs fun x hx => ?_
    obtain rfl := Option.mem_def.mp hx
    obtain ⟨y, rfl, hcore⟩ := Option.map_eq_some_iff.mp (hfl.symm.trans rfl)
    exact ⟨y, .inl rfl, Order.id_of_core hcore, Order.account_of_core hcore⟩
  | leave hs => exact h.still hs (by simp)
  | @trade e e' o r price q ts hr hp =>
    exact h.trade ht (.inl rfl) (.inr (mem_linked.mpr ⟨.limit, _, hr⟩)) (ht.sides .limit _ r hr) hp
  | @cross e e' b k price q ts hb hk hp =>
    have hbuy : b.side = .buy := ht.sides .limit _ b hb
    have hsell : k.side = .sell := ht.sides .limit _ k hk
    exact h.trade ht (.inr (mem_linked.mpr ⟨.limit, _, hb⟩)) (.inr (mem_linked.mpr ⟨.limit, _, hk⟩))
      (by rw [hbuy, hsell]; rfl) hp
  | @rest e e' o hlast hl hst =>
    refine of_standing hst h.balanced ?_
    rintro x (hx | hx)
    · simp at hx
    · rcases has_links hl hx with hcore | ⟨y, hy, hcore⟩
      · rw [Order.id_of_core hcore, Order.account_of_core hcore]
        exact h.accounts o (.inl rfl)
      · rw [← Order.id_of_core hcore, ← Order.account_of_core hcore]
        exact h.accounts y (.inr hy)
  | @trigger e e' stop hmem hs habsent =>
    refine h.still hs fun x hx => ?_
    obtain rfl := Option.some.inj hx
    exact ⟨stop, .inr (mem_linked.mpr ⟨.stop, _, hmem⟩), (Order.triggered_id stop).symm,
      (Order.triggered_account stop).symm⟩
  | @enter e e' req o hacc hstop hcall hp =>
    refine h.accept ht hacc hcall hp.standing ?_
    rintro x (hx | hx)
    · exact .inl (by rw [Option.some.inj hx])
    · exact .inr (has_thin hp.shelf hx)
  | collect hacc hphase htype hcall hl hst =>
    exact h.accept ht hacc hcall hst fun x hx => has_links hl (by simpa [World.Has] using hx)
  | park hacc hstop hcall hl hst =>
    exact h.accept ht hacc hcall hst fun x hx => has_links hl (by simpa [World.Has] using hx)
  | refuse hacc hcall hp =>
    exact h.accept ht hacc hcall hp.standing fun x hx =>
      .inr (has_thin hp.shelf (by simpa [World.Has] using hx))
  | @pull e e' req o k hmod hmem hs habsent =>
    refine h.still hs fun x hx => ?_
    obtain rfl := Option.some.inj hx
    exact ⟨o, .inr (mem_linked.mpr ⟨k, _, hmem⟩), rfl, rfl⟩
  | @amend e e' req o hmod hmem ham hcores hother hprices hst hc =>
    refine of_standing hst h.balanced ?_
    rintro x (hx | hx)
    · simp at hx
    · obtain ⟨k, s, hx⟩ := mem_linked.mp hx
      rcases World.Carries.mem_amended ht hmem hcores hother hx with ⟨y, hy, hcore⟩ | ⟨-, hcore⟩
      · rw [← Order.id_of_core hcore, ← Order.account_of_core hcore]
        exact h.accounts y (.inr (mem_linked.mpr ⟨k, s, hy⟩))
      · rw [← Order.id_of_core hcore, ← Order.account_of_core hcore]
        exact h.accounts o (.inr hmem)
  | @bust e e' id t reason ts hlook hb hp =>
    exact h.thin hp.shelf hp.standing (h.balanced.bust hlook hb reason ts)
      (by rw [Standing.blotter_bust]) (by simp)
  | leg hleg hs hnext hc => exact absurd hleg (ha _ _)
  | @note e =>
    have hst : (e.record a).standing = e.standing.note a := by
      simp [Engine.standing, Engine.record, Standing.note, JournalEntry.posted]
    exact of_standing hst (h.balanced.note a) fun x hx => by
      rw [Standing.blotter_note]
      exact h.accounts x hx

end World.Booked

theorem init_booked (X : Exchange D) (config : EngineConfig) (derived : D)
    (slots : Nat → SlotResidue) : World.Booked X ⟨Engine.init X config derived slots, none⟩ where
  balanced := by
    refine ⟨fun _ _ _ => rfl, fun n r hr => ?_, le_rfl, fun _ => rfl, ?_, ?_⟩
    · have hlook : (TradeRegistry.lookup {} n) = none := by
        unfold TradeRegistry.lookup
        split <;> rfl
      exact absurd (hlook.symm.trans hr) (by simp)
    · intro t ht
      exact absurd ht (List.not_mem_nil)
    · intro n hn
      exact absurd hn (List.not_mem_nil)
  accounts := by
    rintro o (ho | ho)
    · simp at ho
    · obtain ⟨k, s, ho⟩ := mem_linked.mp ho
      cases k <;> simp [Engine.init, Engine.shelf] at ho

/-- Orders are entered by `new_order` only, and filled by trades only. -/
def Action.booked : Action → Prop
  | .restoreOrder .. => False
  | .applyImpliedFills .. => False
  | _ => True

/-- The position of every tracked account is what its trades come to, those that were busted
left out. Every order that is modified is one of the limit book. -/
theorem reach_positions (config : EngineConfig) (derived : D) (slots : Nat → SlotResidue)
    (e : Engine D) (h : Reach X (fun e a => a.booked ∧ e.limitTargets a)
      (Engine.init X config derived slots) e) (account : Nat) (h₀ : 0 < account) (hm : account < X.maxAccounts) :
    e.positions account = e.blotter.net account := by
  have hall := reach_drifts (X := X) (I := World.Booked X) (init_tidy X config derived slots)
    (init_booked X config derived slots)
    (fun e a ha s ts he => by subst he; exact ha.1)
    (fun e a ha _ _ W W' ht hW hd => hW.drift ht (fun fills ts he => by subst he; exact ha.1) hd) h
  rw [← blotter_standing]
  exact hall.2.balanced.net account h₀ hm

def bustActions : List Action :=
  [.newOrder (limitRequest .sell 105 10),
    .newOrder { limitRequest .buy 105 4 with accountId := 2 },
    .newOrder { limitRequest .buy 105 3 with accountId := 2 },
    .bustTrade 1 .erroneousTrade 4]

theorem reach_positions_sample :
    (runAll sampleExchange bustActions (sampleStart sampleExchange sampleConfig ())).positions 2 =
      (runAll sampleExchange bustActions
        (sampleStart sampleExchange sampleConfig ())).blotter.net 2 := by
  have hreach : Reach sampleExchange (fun e a => a.booked ∧ e.limitTargets a)
      (sampleStart sampleExchange sampleConfig ())
      (runAll sampleExchange bustActions (sampleStart sampleExchange sampleConfig ())) :=
    reach_runAll (by simp [bustActions, Action.booked, Engine.limitTargets]) (by decide +kernel)
  exact reach_positions sampleConfig () (fun _ => {}) _ hreach 2 (by decide) (by decide)

end ExchangeSim
