import ExchangeSim.Uncrossed
import ExchangeSim.Uncrossing

/-!
What an auction comes to: the matched volume is traded at the auction price, by price and time,
and the book is left uncrossed, unless hidden quantity gets in the way.
-/

namespace ExchangeSim

open Engine List

open UniformPrice

variable {D : Type} {X : Exchange D} {e e' : Engine D} {referencePrice ts : Int} {U V v : Int}
  {price : Int} {trades : List Trade} {s : Side} {o : Order}

def wholeOn (book : Side → List PriceLevel) (s : Side) : List (Int × Int) :=
  (ordersIn (book s)).map fun o => (o.price, o.exposure)

/-- What `p` would execute if hidden quantities counted. -/
def executableWhole (book : Side → List PriceLevel) (p : Int) : Int :=
  volume (wholeOn book .buy) (wholeOn book .sell) p

def Engine.HidesNothing (e : Engine D) : Prop :=
  ∀ s, ∀ o ∈ ordersIn (e.book s), o.exposure = o.remainingQuantity

theorem Engine.HidesNothing.executableWhole_eq (h : e.HidesNothing) (p : Int) :
    executableWhole e.book p = executable e.book p := by
  have hoffers : ∀ s, wholeOn e.book s = offersOn e.book s := fun s =>
    map_congr_left fun o ho => Prod.ext rfl (h s o ho)
  rw [executableWhole, hoffers, hoffers]
  rfl

section Sound

variable (hs : World.Sound X True ⟨e, none⟩)

include hs

theorem World.Sound.resting : ∀ s, ∀ l ∈ e.book s, l.Resting s :=
  (wellShaped_of_sound hs.holds).levels

theorem quantityOf_depth (s : Side) (f : Int → Bool) :
    quantityOf f (depthOf (e.book s)) = quantityOf f (wholeOn e.book s) :=
  quantityOf_levels (hs.resting s) f Order.exposure

theorem demand_depth (p : Int) :
    quantityOf (reaches .buy p) (depthOf (e.book .buy)) = demand (wholeOn e.book .buy) p := by
  rw [quantityOf_depth hs, funext (reaches_buy p)]
  rfl

theorem supply_depth (p : Int) :
    quantityOf (reaches .sell p) (depthOf (e.book .sell)) = supply (wholeOn e.book .sell) p := by
  rw [quantityOf_depth hs, funext (reaches_sell p)]
  rfl

theorem executable_le_depth (p : Int) (s : Side) :
    executable e.book p ≤ quantityOf (reaches s p) (depthOf (e.book s)) := by
  have hle : ∀ f, quantityOf f (offersOn e.book s) ≤ quantityOf f (wholeOn e.book s) := fun f =>
    quantityOf_map_le fun o _ => o.remaining_le_exposure
  cases s with
  | buy =>
    rw [demand_depth hs]
    exact (min_le_left _ _).trans (hle _)
  | sell =>
    rw [supply_depth hs]
    exact (min_le_right _ _).trans (hle _)

theorem executeAuction_clears (ts : Int) (hturn : 0 < U → ∀ s, ∀ T ∈ turns 0 (e.book s), U ≤ T)
    {fuel : Nat}
    (hfuel : (calculateAuctionPrice e.book referencePrice).matchedVolume.toNat ≤ fuel) :
    ∃ trades e₁ e', e.executeAuction X fuel referencePrice ts = .ok e' ∧
      Clearing X U (calculateAuctionPrice e.book referencePrice).matchedVolume
        (calculateAuctionPrice e.book referencePrice).price ts 0 e trades e₁ ∧
      volumeOf trades = (calculateAuctionPrice e.book referencePrice).matchedVolume ∧
      e'.book = e₁.book ∧ e'.trades = e₁.trades := by
  rcases calculateAuctionPrice_cases hs.resting referencePrice with
    ⟨hr, -⟩ | ⟨p, hr, hpos, -⟩
  · refine ⟨[], e, e, ?_, .done hs, by rw [hr]; rfl, rfl, rfl⟩
    simp [executeAuction, hr]
  · rw [hr] at hfuel ⊢
    obtain ⟨trades, e₁, hloop, hclear, hvol⟩ := auctionLoop_clears ts fuel hs hturn
      hpos.le hfuel hfuel (executable_le_depth hs p)
    rw [zero_add] at hclear
    refine ⟨trades, e₁, { e₁.fireTopOfBook ts with viReferencePrice := p }, ?_, hclear, hvol, rfl,
      ?_⟩
    · unfold executeAuction
      rw [hr]
      simp [hpos.ne', hloop]
    · simp [Engine.trades, Engine.fireTopOfBook, Engine.emit, JournalEntry.trade?]

theorem executable_le_matched (p : Int) :
    executable e.book p ≤ (calculateAuctionPrice e.book referencePrice).matchedVolume := by
  rcases calculateAuctionPrice_cases hs.resting referencePrice with
    ⟨hr, hzero⟩ | ⟨p', hr, -, hbest⟩
  · rw [hr, hzero p]
  · rw [hr]
    exact hbest.maximal p

theorem exists_executable_eq (referencePrice : Int) :
    ∃ p, executable e.book p = (calculateAuctionPrice e.book referencePrice).matchedVolume := by
  rcases calculateAuctionPrice_cases hs.resting referencePrice with
    ⟨hr, hzero⟩ | ⟨p', hr, -, -⟩
  · exact ⟨0, by rw [hr, hzero 0]⟩
  · exact ⟨p', by rw [hr]⟩

theorem Clearing.uncrossed_iff (h : Clearing X U V price ts v e trades e') :
    e'.Uncrossed ↔ ∀ p, executableWhole e.book p ≤ volumeOf trades := by
  have hhead : ∀ s p, volumeOf trades < quantityOf (reaches s p) (depthOf (e.book s)) ↔
      ∃ l ∈ (e'.book s).head?, reaches s p l.price = true := by
    intro s p
    rw [lt_quantityOf_iff (hs.filled_depth s) (first_reaches hs s p) h.volume_nonneg, ← h.depth s]
    cases e'.book s <;> simp [depthOf]
  constructor
  · intro hun p
    by_contra hlt
    obtain ⟨hb, ha⟩ := lt_min_iff.mp (not_le.mp hlt)
    rw [← demand_depth hs] at hb
    rw [← supply_depth hs] at ha
    obtain ⟨b, hb, hpb⟩ := (hhead .buy p).mp hb
    obtain ⟨a, ha, hpa⟩ := (hhead .sell p).mp ha
    have := hun b hb a ha
    simp only [reaches_buy, reaches_sell, decide_eq_true_eq] at hpb hpa
    omega
  · intro hle b hb a ha
    by_contra hge
    have hbid := (hhead .buy b.price).mpr ⟨b, hb, by simp [reaches_buy]⟩
    have hask := (hhead .sell b.price).mpr ⟨a, ha, by simp [reaches_sell]; omega⟩
    rw [demand_depth hs] at hbid
    rw [supply_depth hs] at hask
    exact absurd (lt_min hbid hask) (not_lt.mpr (hle b.price))

end Sound

/-- The orders that trade come first by price and time, and all but the last of them trade in
full. -/
def ExecutedFirst (s : Side) (trades : List Trade) (orders : List Order) : Prop :=
  ∃ done rest, orders = done ++ rest ∧
    (∀ o ∈ done, tradedBy s o.id trades = o.remainingQuantity) ∧
    ((∀ o ∈ rest, tradedBy s o.id trades = 0) ∨
      ∃ o behind, rest = o :: behind ∧ 0 < tradedBy s o.id trades ∧
        tradedBy s o.id trades < o.remainingQuantity ∧ ∀ x ∈ behind, tradedBy s x.id trades = 0)

theorem nodup_queue {w : Prop} (hs : World.Sound X w ⟨e, none⟩) (s : Side) :
    ((queueOf (e.book s)).map Prod.fst).Nodup := by
  have hn : (idsIn (e.book s)).Nodup := (hs.holds_none rfl).nodup .limit s
  simpa [queueOf, idsIn, Function.comp_def] using hn

theorem Clearing.executedFirst (h : Clearing X U V price ts 0 e trades e')
    (hlt : volumeOf trades < U) (hopen : e.HidesNothing) :
    ExecutedFirst s trades (ordersIn (e.book s)) := by
  have hgiven : ∀ id, tradedBy s id trades =
      given (volumeOf trades) (queueOf (e.book s)) id := by
    obtain ⟨e₁, -, hqueue, htraded⟩ := Clearing.queue (s := s) (h.trans (.done h.sound_end))
      (by simp [turns_of_open (hopen s)]) (by omega)
    intro id
    rw [htraded id, hqueue]
    rfl
  obtain ⟨done, rest, hsplit, hdone, hrest⟩ := exists_given_split (h.sound.filled_queue s)
    (nodup_queue h.sound s) h.volume_nonneg
  simp only [← hgiven] at hdone hrest
  obtain ⟨xs, ys, horders, rfl, rfl⟩ := map_eq_append_iff.mp hsplit
  refine ⟨xs, ys, horders, fun o ho => ?_, ?_⟩
  · rw [hdone _ (mem_map_of_mem ho)]
    exact hopen s o (by rw [horders]; simp [ho])
  · rcases hrest with hrest | ⟨x, behind, hys, hpos, hlt, hbehind⟩
    · exact .inl fun o ho => hrest _ (mem_map_of_mem ho)
    · obtain ⟨o, zs, rfl, rfl, rfl⟩ := map_eq_cons_iff.mp hys
      refine .inr ⟨o, zs, rfl, hpos, ?_, fun x hx => hbehind _ (mem_map_of_mem hx)⟩
      rw [← hopen s o (by rw [horders]; simp)]
      exact hlt

/-- An auction on a book that hides nothing trades the matched volume at one price, by price and
time, and leaves the book uncrossed. -/
theorem executeAuction_clears_market (hs : World.Sound X True ⟨e, none⟩) (hopen : e.HidesNothing)
    (referencePrice ts : Int) (fuel : Nat)
    (hfuel : (calculateAuctionPrice e.book referencePrice).matchedVolume.toNat ≤ fuel) :
    let r := calculateAuctionPrice e.book referencePrice
    ∃ trades e', e.executeAuction X fuel referencePrice ts = .ok e' ∧
      e'.trades = e.trades ++ trades ∧ volumeOf trades = r.matchedVolume ∧
      (∀ t ∈ trades, t.price = r.price) ∧
      (∀ s, ExecutedFirst s trades (ordersIn (e.book s))) ∧ e'.Uncrossed := by
  intro r
  obtain ⟨trades, e₁, e', hr, hclear, hvol, hbook, htrades⟩ :=
    executeAuction_clears hs ts (U := r.matchedVolume + 1)
      (fun _ s => by simp [turns_of_open (hopen s)]) hfuel
  refine ⟨trades, e', hr, htrades.trans hclear.trades_eq, hvol, hclear.at_price,
    fun s => hclear.executedFirst (hvol ▸ lt_add_one _) hopen, ?_⟩
  have hun : e₁.Uncrossed := by
    rw [hclear.uncrossed_iff hs, hvol]
    intro p
    rw [hopen.executableWhole_eq]
    exact executable_le_matched hs p
  simpa [Uncrossed, hbook] using hun

theorem executeAuction_clears_market_sample :
    let e := runAll sampleExchange collectedActions (sampleStart sampleExchange sampleConfig ())
    ∃ trades e', e.executeAuction sampleExchange 10 100 5 = .ok e' ∧ volumeOf trades = 6 ∧
      ExecutedFirst .buy trades (ordersIn (e.book .buy)) ∧ e'.Uncrossed := by
  intro e
  have hs : World.Sound sampleExchange True ⟨e, none⟩ :=
    sampleRun_sound (by simp [collectedActions, Admits]) (by decide +kernel)
  have hopen : e.HidesNothing := by
    intro s
    cases s <;> decide +kernel
  have hr : (calculateAuctionPrice e.book 100).matchedVolume = 6 := by decide +kernel
  obtain ⟨trades, e', hok, -, hvol, -, hfirst, hun⟩ :=
    executeAuction_clears_market hs hopen 100 5 10 (by rw [hr]; decide)
  exact ⟨trades, e', hok, hvol.trans hr, hfirst .buy, hun⟩

theorem book_session (h : SessionSteps X ts e e') : e'.book = e.book := by
  induction h with
  | refl => rfl
  | tail _ hstep ih => exact Eq.trans (by cases hstep <;> rfl) ih

/-- An auction leaves the book uncrossed, and so does the transition that follows, if and only if
no price would execute more with the hidden quantities than some price does without. -/
theorem executeAuction_uncrossed_iff (hs : World.Sound X True ⟨e, none⟩)
    (referencePrice ts : Int) (fuel : Nat)
    (hfuel : (calculateAuctionPrice e.book referencePrice).matchedVolume.toNat ≤ fuel) :
    ∃ e', e.executeAuction X fuel referencePrice ts = .ok e' ∧
      (e'.Uncrossed ↔ ∀ p, ∃ p', executableWhole e.book p ≤ executable e.book p') ∧
      ∀ ts', (e'.setSessionState X .continuous ts').Uncrossed ↔ e'.Uncrossed := by
  obtain ⟨trades, e₁, e', hr, hclear, hvol, hbook, -⟩ :=
    executeAuction_clears hs ts (U := 0) (fun h => absurd h (lt_irrefl _)) hfuel
  refine ⟨e', hr, ?_, fun ts' => by simp only [Uncrossed, book_session (setSessionState_steps X ts' _ _)]⟩
  have hun : e'.Uncrossed ↔ e₁.Uncrossed := by simp only [Uncrossed, hbook]
  rw [hun, hclear.uncrossed_iff hs, hvol]
  refine forall_congr' fun p => ⟨fun hle => ?_, fun ⟨p', hle⟩ => ?_⟩
  · obtain ⟨p', hp'⟩ := exists_executable_eq hs referencePrice
    exact ⟨p', hp' ▸ hle⟩
  · exact hle.trans (executable_le_matched hs p')

def shownIcebergActions : List Action :=
  [.setSessionState .preOpen 1, .newOrder { limitRequest .buy 100 30 with displayQty := 10 },
    .newOrder (limitRequest .sell 100 20)]

theorem executeAuction_uncrossed_iff_sample :
    let e := runAll sampleExchange shownIcebergActions (sampleStart sampleExchange sampleConfig ())
    ∃ e', e.executeAuction sampleExchange 10 100 5 = .ok e' ∧
      (e'.Uncrossed ↔ ∀ p, ∃ p', executableWhole e.book p ≤ executable e.book p') ∧
      executable e.book 100 = 10 ∧ executableWhole e.book 100 = 20 := by
  intro e
  have hs : World.Sound sampleExchange True ⟨e, none⟩ :=
    sampleRun_sound (by simp [shownIcebergActions, Admits]) (by decide +kernel)
  have hr : (calculateAuctionPrice e.book 100).matchedVolume = 10 := by decide +kernel
  obtain ⟨e', hok, hiff, -⟩ := executeAuction_uncrossed_iff hs 100 5 10 (by rw [hr]; decide)
  exact ⟨e', hok, hiff, by decide +kernel, by decide +kernel⟩

/-- The offer meets 10 of the bid, the bid shows its next 10, and both are left at 100. -/
theorem auctioned_iceberg_crossed : ¬∀ e e' : Engine Unit,
    Reach sampleExchange Engine.ordinary (sampleStart sampleExchange sampleConfig ()) e →
      e.executeAuction sampleExchange 20 100 5 = .ok e' → e'.Uncrossed := by
  intro h
  let e := runAll sampleExchange shownIcebergActions (sampleStart sampleExchange sampleConfig ())
  have hreach : Reach sampleExchange ordinary
      (sampleStart sampleExchange sampleConfig ()) e :=
    reach_runAll (by simp [shownIcebergActions, ordinary]) (by decide +kernel)
  have hok : e.executeAuction sampleExchange 20 100 5 =
      .ok (Outcome.engine (e.executeAuction sampleExchange 20 100 5)) :=
    Outcome.eq_ok (by decide +kernel)
  have hbid : ((Outcome.engine (e.executeAuction sampleExchange 20 100 5)).book .buy).head?.map
      (·.price) = some 100 := by decide +kernel
  have hask : ((Outcome.engine (e.executeAuction sampleExchange 20 100 5)).book .sell).head?.map
      (·.price) = some 100 := by decide +kernel
  obtain ⟨b, hb, hbp⟩ := Option.map_eq_some_iff.mp hbid
  obtain ⟨a, ha, hap⟩ := Option.map_eq_some_iff.mp hask
  have := h e _ hreach hok b hb a ha
  omega

/-- A revealed tranche waits for the others: when an order trades that has already traded all it
showed when the auction began, every other order of its level has been filled before. -/
def QueuesBehind (book : Side → List PriceLevel) (trades : List Trade) : Prop :=
  ∀ s, ∀ l ∈ book s, ∀ o ∈ l.orders, ∀ before t after, trades = before ++ t :: after →
    t.party s = o.id → o.remainingQuantity ≤ tradedBy s o.id before →
    ∀ x ∈ l.orders, x.id ≠ o.id → tradedBy s x.id before = x.exposure

/-- When an order trades before the next turn, the orders ahead of it have traded all they had. -/
theorem Clearing.turn {before after : List Trade} {t : Trade} {ahead behind : List Order}
    (h : Clearing X U V price ts 0 e (before ++ t :: after) e')
    (hturn : ∀ T ∈ turns 0 (e.book s), U ≤ T) (hlt : volumeOf before < U)
    (horders : ordersIn (e.book s) = ahead ++ o :: behind) (hparty : t.party s = o.id) :
    (∀ x ∈ ahead, tradedBy s x.id before = x.exposure) ∧ tradedBy s o.id before < o.exposure ∧
      volumeOf before = (ahead.map Order.exposure).sum + tradedBy s o.id before := by
  obtain ⟨e₁, hrun, hqueue, htraded⟩ := h.queue hturn (by omega)
  have hold : e₁.Oldest s o.id := by
    rw [← hparty]
    cases hrun with
    | fill pair q _ _ oldest => exact party_pair price q ts pair s ▸ oldest (by omega) s
  have hn := nodup_queue h.sound s
  have hsplit : queueOf (e.book s) = (ahead.map fun o => (o.id, o.exposure)) ++
      (o.id, o.exposure) :: behind.map fun o => (o.id, o.exposure) := by
    simp [queueOf, horders]
  have hpos : 0 < o.exposure := h.sound.filled_queue s (o.id, o.exposure) (by simp [hsplit])
  rw [Oldest, hqueue, hsplit] at hold
  rw [hsplit] at hn
  obtain ⟨c, hc, hvol, hdrain⟩ := drain_of_head
    (volumeOf_nonneg fun u hu => h.quantity_pos u (by simp [hu])) hpos hn hold
  rw [← hsplit, ← hqueue] at hdrain
  have hkey : ∀ x ∈ ahead ++ [o], quantityOf (fun k => k == x.id) (queueOf (e.book s)) =
      x.exposure := by
    intro x hx
    refine quantityOf_key (nodup_queue h.sound s) (mem_map.mpr ⟨x, ?_, rfl⟩)
    rw [horders]
    simp at hx ⊢
    tauto
  have htradedo : tradedBy s o.id before = c := by
    rw [htraded, hkey o (by simp), hdrain, quantityOf_key (n := o.exposure - c) ?_ (by simp)]
    · omega
    · rw [map_append, List.map_cons] at hn
      simpa using (nodup_append.mp hn).2.1
  refine ⟨fun x hx => ?_, by omega, ?_⟩
  · rw [htraded, hkey x (by simp [hx]), hdrain, quantityOf_key_eq_zero, sub_zero]
    rw [map_append, List.map_cons] at hn
    exact fun hmem => (nodup_append.mp hn).2.2 x.id (by simpa using ⟨x, hx, rfl⟩) x.id
      (by simpa using hmem) rfl
  · rw [hvol, htradedo]
    simp [Function.comp_def]

/-- Where the volume does not go beyond a turn, a revealed tranche waits for the others. -/
theorem Clearing.queuesBehind (h : Clearing X V V price ts 0 e trades e') (hvol : volumeOf trades = V)
    (hturn : ∀ s, ∀ T ∈ turns 0 (e.book s), V ≤ T) : QueuesBehind e.book trades := by
  rintro s l hl o ho before t after rfl hparty hshown x hx hne
  obtain ⟨A, B, hsplit⟩ := append_of_mem hl
  obtain ⟨os, ys, hq⟩ := append_of_mem ho
  have hlt : volumeOf before < V := by
    have ht := h.quantity_pos t (by simp)
    have : 0 ≤ volumeOf after := volumeOf_nonneg fun u hu => h.quantity_pos u (by simp [hu])
    rw [volumeOf_append, volumeOf_cons] at hvol
    omega
  have horders : ordersIn (e.book s) = (ordersIn A ++ os) ++ o :: (ys ++ ordersIn B) := by
    simp [hsplit, hq]
  obtain ⟨hahead, hrest, hsum⟩ := h.turn (hturn s) hlt horders hparty
  cases ys with
  | nil =>
    refine hahead x (mem_append_right _ ?_)
    rw [hq] at hx
    rcases List.mem_append.mp hx with hx | hx
    · exact hx
    · exact absurd (congrArg Order.id (mem_singleton.mp hx)) hne
  | cons y ys =>
    -- the turn of the order is over, but it comes after all that is traded
    have := hturn s _ (hsplit ▸ mem_turns (A := A) (B := B) hq (by omega) 0)
    omega

/-- An order trades after it has given all it showed, before the order behind it. -/
def Overtakes (s : Side) (lvls : List PriceLevel) (trades : List Trade) : Prop :=
  ∃ l ∈ lvls, ∃ os o x xs before t after, l.orders = os ++ o :: x :: xs ∧
    trades = before ++ t :: after ∧ t.party s = o.id ∧
    tradedBy s o.id before = o.remainingQuantity ∧ tradedBy s x.id before = 0

theorem Overtakes.not_queuesBehind (hs : World.Sound X True ⟨e, none⟩)
    (h : Overtakes s (e.book s) trades) : ¬QueuesBehind e.book trades := by
  intro hlaw
  obtain ⟨l, hl, os, o, x, xs, before, t, after, hq, htrades, ht, ho, hx⟩ := h
  have hx' : x ∈ l.orders := by simp [hq]
  have hne : x.id ≠ o.id := by
    obtain ⟨A, B, hsplit⟩ := append_of_mem hl
    have hn := (hs.holds_none rfl).nodup .limit s
    change (idsIn (e.book s)).Nodup at hn
    simp only [idsIn, hsplit, ordersIn_append, ordersIn_cons, hq, List.append_assoc, cons_append,
      map_append, List.map_cons, nodup_append, List.nodup_cons] at hn
    exact fun he => hn.2.1.2.1.1 (by simp [he])
  have hfilled := hlaw s l hl o (by simp [hq]) before t after htrades ht ho.ge x hx' hne
  have := ((hs.level hl).exact trivial).positive x hx'
  have := x.remaining_le_exposure
  omega

theorem tradedBy_cons (s : Side) (id : Nat) (t : Trade) (trades : List Trade) :
    tradedBy s id (t :: trades) =
      (if t.party s = id then t.quantity else 0) + tradedBy s id trades := by
  simp [tradedBy]

theorem Overtakes.settled {l : PriceLevel} {rest : List PriceLevel} {ys : List Order} {t₀ : Trade}
    (hf : Focus o [] l rest [] ys) (hcount : l.orderCount = l.orders.length)
    (hturn : ∀ T ∈ turns v (l :: rest), v + t₀.quantity < T) (hparty : t₀.party s = o.id)
    (h : Overtakes s ((Holdings.settledLevel o t₀.quantity l).toList ++ rest) trades) :
    Overtakes s (l :: rest) (t₀ :: trades) := by
  have horders : l.orders = o :: ys := by simpa using hf.queue
  have hfront := settledLevel_front hf hcount hturn
  obtain ⟨m, hm, os, a, x, xs, before, t, after, hq, rfl, ht, ha, hx⟩ := h
  -- orders other than the one filled have traded what they had traded
  have hother : ∀ y : Order, y.id ≠ o.id → tradedBy s y.id (t₀ :: before) = tradedBy s y.id before := by
    intro y hy
    rw [tradedBy_cons, hparty, if_neg (Ne.symm hy), zero_add]
  have hback : ∀ l' ∈ l :: rest, ∀ os', l'.orders = os' ++ a :: x :: xs → a.id ≠ o.id →
      x.id ≠ o.id → Overtakes s (l :: rest) (t₀ :: (before ++ t :: after)) :=
    fun l' hl' os' hq' hna hnx => ⟨l', hl', os', a, x, xs, t₀ :: before, t, after, hq', rfl, ht,
      (hother a hna).trans ha, (hother x hnx).trans hx⟩
  rcases List.mem_append.mp hm with hm | hm
  · rw [Option.mem_toList.mp hm, Option.elim_some, hq] at hfront
    have hin : ∀ y ∈ ys, y.id ≠ o.id := fun y hy => hf.inside y (by simpa using hy)
    have hlater : ∀ os', ys = os' ++ a :: x :: xs →
        Overtakes s (l :: rest) (t₀ :: (before ++ t :: after)) := by
      rintro os' rfl
      exact hback l (by simp) (o :: os') horders (hin a (by simp)) (hin x (by simp))
    cases ho : o.settled t₀.quantity with
    | none => exact hlater os (by simpa [ho] using hfront.symm)
    | some b =>
      rw [ho, Option.toList_some, List.singleton_append] at hfront
      rcases append_eq_cons_iff.mp hfront with ⟨rfl, hcons⟩ | ⟨os', rfl, hys⟩
      · obtain ⟨rfl, rfl⟩ := cons.inj hcons
        have hfill : a = o.fill t₀.quantity := by
          unfold Order.settled at ho
          split at ho
          next hzero =>
            split at ho
            next hnext => simpa using alone_of_reveals hf hturn hzero hnext
            next => simp at ho
          next => simpa using ho.symm
        subst hfill
        refine ⟨l, by simp, [], o, x, xs, t₀ :: before, t, after, horders, rfl, ht, ?_,
          (hother x (hin x (by simp))).trans hx⟩
        rw [tradedBy_cons, if_pos hparty]
        simp only [Order.fill] at ha
        omega
      · exact hlater os' hys
  · have hout : ∀ y ∈ m.orders, y.id ≠ o.id := fun y hy he => by
      have := hf.outside m (by simp [hm])
      simp [PriceLevel.has] at this
      exact this y hy he
    exact hback m (by simp [hm]) os hq (hout a (by simp [hq])) (hout x (by simp [hq]))

/-- At its turn an order goes on ahead of the one behind it, unless a level of the other side ends
there. -/
theorem Clearing.overtakes (h : Clearing X U V price ts v e trades e')
    (hturn : ∀ s, ∀ T ∈ turns v (e.book s), U ≤ T) (hU : U ∈ turns v (e.book s))
    (hend : ¬EndsAt (U - v) (depthOf (e.book s.opposite))) (hUV : U < V)
    (hvol : v + volumeOf trades = V) : Overtakes s (e.book s) trades := by
  induction h with
  | done hs =>
    have := turns_gt (fun l hl => hs.level hl) hU
    simp only [volumeOf, map_nil, sum_nil] at hvol
    omega
  | @fill v e e' trades pair q hs best oldest pos fits goes next ih =>
    have hlt := turns_gt (fun l hl => hs.level hl) hU
    have hold := oldest hlt
    have hfocus : ∀ s, ∃ l rest ys, e.book s = l :: rest ∧ Focus (pair s) [] l rest [] ys := by
      intro s
      obtain ⟨l, rest, hbook, ho⟩ := best s
      obtain ⟨ys, hf⟩ := (hold s).focus hs hbook ho
      exact ⟨l, rest, ys, hbook, hf⟩
    obtain ⟨l, rest, ys, hbook, hf⟩ := hfocus s
    have horders : l.orders = pair s :: ys := by simpa using hf.queue
    have hlevel := hs.level (s := s) (l := l) (by simp [hbook])
    by_cases hq : v + q < U
    · have hstep := fun s => (queueOf_bookCross hs best pos price ts fits s
        (fun T hT => hq.trans_le (hturn s T hT)) (hold s)).1
      rw [volumeOf_cons, ← add_assoc] at hvol
      have hlater := ih (fun s => hstep s ▸ hturn s) (hstep s ▸ hU) (fun he => hend ?_) hvol
      · rw [bookCross_book hs best price ts q s hbook] at hlater
        rw [hbook]
        refine Overtakes.settled hf hlevel.count (v := v) (fun T hT => ?_)
          (party_pair price q ts pair s) hlater
        exact hq.trans_le (hturn s T (hbook ▸ hT))
      · rw [depthOf_bookCross hs best pos next.sound, ← sub_sub] at he
        exact endsAt_of_drain (hs.filled_depth _) pos.le (by omega) he
    · have hpos := (hlevel.exact trivial).positive
      have hexp := (pair s).remaining_le_exposure
      have hle := fits s
      -- the turn is the one of the order at the front
      obtain ⟨x, xs, rfl, hides, rfl⟩ : ∃ x xs, ys = x :: xs ∧
          (pair s).exposure ≠ (pair s).remainingQuantity ∧ U = v + (pair s).remainingQuantity := by
        rw [hbook] at hU
        rcases List.mem_append.mp hU with hU | hU
        · rw [horders] at hpos hU
          cases ys with
          | nil => simp [turnsIn] at hU
          | cons x xs =>
            rw [turnsIn_cons (by simp)] at hU
            rcases List.mem_append.mp hU with hU | hU
            · split at hU
              next => simp at hU
              next hides => exact ⟨x, xs, rfl, hides, mem_singleton.mp hU⟩
            · have := turnsIn_gt (fun y hy => hpos y (by simp [hy])) hU
              omega
        · have := PriceLevel.exposure_le_whole hpos (o := pair s) (by simp [horders])
          have := turns_gt (fun m hm => hs.level (s := s) (l := m) (by simp [hbook, hm])) hU
          omega
      obtain rfl : q = (pair s).remainingQuantity := by omega
      have hself : (pair s).goesOn (pair s).remainingQuantity (e.book s) = some (pair s).id := by
        rw [Order.goesOn, if_pos (.inr (Order.hides_iff.mpr hides))]
      have hsome : ∀ s', ((pair s').goesOn (pair s).remainingQuantity (e.book s')).isSome = true := by
        intro s'
        obtain rfl | rfl : s' = s ∨ s' = s.opposite := by
          cases s <;> cases s' <;> simp [Side.opposite]
        · simp [hself]
        · obtain ⟨m, rest', zs, hbook', hf'⟩ := hfocus s.opposite
          have horders' : m.orders = pair s.opposite :: zs := by simpa using hf'.queue
          rw [hbook', Order.goesOn]
          split
          · rfl
          next hgone =>
            push Not at hgone
            rw [show successor _ (m :: rest') = zs.head?.map (·.id) from hf'.successor_eq]
            cases zs with
            | cons z zs => rfl
            | nil =>
              -- its level would end here
              have he := Order.exposure_of_done hgone.1 (by simpa using hgone.2)
              refine absurd ?_ hend
              rw [hbook']
              refine .inl ?_
              simp only [PriceLevel.whole, horders', List.map_cons, map_nil, sum_cons, sum_nil, he]
              omega
      have hhead := goes hUV hsome s
      rw [hself] at hhead
      obtain ⟨t, ht, hparty⟩ := Option.map_eq_some_iff.mp hhead
      obtain ⟨after, rfl⟩ := head?_eq_some_iff.mp ht
      have hne : (pair s).id ≠ x.id := fun he => hf.inside x (by simp) he.symm
      refine ⟨l, by simp [hbook], [], pair s, x, xs, [_], t, after, horders, rfl, hparty, ?_, ?_⟩
      · simp [party_pair, tradedBy]
      · simp [party_pair, tradedBy, hne]

/-- A revealed tranche waits for the others in an auction that trades no more than up to any turn:
the volume at which an order that hides something has given all it shows, with another order of its
level behind it. Where no level of the other side ends at a turn, it waits only then. -/
theorem executeAuction_queuesBehind (hs : World.Sound X True ⟨e, none⟩) (referencePrice ts : Int)
    (fuel : Nat)
    (hfuel : (calculateAuctionPrice e.book referencePrice).matchedVolume.toNat ≤ fuel) :
    let V := (calculateAuctionPrice e.book referencePrice).matchedVolume
    ∃ trades e', e.executeAuction X fuel referencePrice ts = .ok e' ∧
      e'.trades = e.trades ++ trades ∧
      ((∀ s, ∀ T ∈ turns 0 (e.book s), V ≤ T) → QueuesBehind e.book trades) ∧
      ((∀ s, ∀ T ∈ turns 0 (e.book s), ¬EndsAt T (depthOf (e.book s.opposite))) →
        QueuesBehind e.book trades → ∀ s, ∀ T ∈ turns 0 (e.book s), V ≤ T) := by
  intro V
  by_cases hall : ∀ s, ∀ T ∈ turns 0 (e.book s), V ≤ T
  · obtain ⟨trades, e₁, e', hr, hclear, hvol, -, htrades⟩ :=
      executeAuction_clears hs ts (fun _ => hall) hfuel
    exact ⟨trades, e', hr, htrades.trans hclear.trades_eq,
      fun _ => hclear.queuesBehind hvol hall, fun _ _ => hall⟩
  · push Not at hall
    obtain ⟨s₁, T₁, hT₁, hlt₁⟩ := hall
    -- the first turn of all
    obtain ⟨U, hU, hleast⟩ := (turns 0 (e.book .buy) ++ turns 0 (e.book .sell)).toFinset.exists_min_image
      id ⟨T₁, by cases s₁ <;> simp [hT₁]⟩
    have hturn : ∀ s, ∀ T ∈ turns 0 (e.book s), U ≤ T := fun s T hT =>
      hleast T (by cases s <;> simp [hT])
    obtain ⟨s, hU⟩ : ∃ s, U ∈ turns 0 (e.book s) := by
      rcases List.mem_append.mp (mem_toFinset.mp hU) with h | h
      · exact ⟨_, h⟩
      · exact ⟨_, h⟩
    have hUV : U < V := (hturn s₁ T₁ hT₁).trans_lt hlt₁
    obtain ⟨trades, e₁, e', hr, hclear, hvol, -, htrades⟩ :=
      executeAuction_clears hs ts (fun _ => hturn) hfuel
    refine ⟨trades, e', hr, htrades.trans hclear.trades_eq, fun h => ?_, fun hend hlaw => ?_⟩
    · exact absurd (h s U hU) (not_le.mpr hUV)
    · have hover := hclear.overtakes hturn hU (by simpa using hend s U hU) hUV (by omega)
      exact absurd hlaw (hover.not_queuesBehind hs)

def backIcebergActions : List Action :=
  [.setSessionState .preOpen 1, .newOrder { limitRequest .buy 90 10 with displayQty := 2 },
    .newOrder (limitRequest .buy 90 5), .newOrder (limitRequest .buy 100 5),
    .newOrder (limitRequest .sell 100 5)]

theorem executeAuction_queuesBehind_sample :
    let e := runAll sampleExchange backIcebergActions (sampleStart sampleExchange sampleConfig ())
    ∃ trades e', e.executeAuction sampleExchange 10 100 5 = .ok e' ∧
      e'.trades = e.trades ++ trades ∧ QueuesBehind e.book trades := by
  intro e
  have hs : World.Sound sampleExchange True ⟨e, none⟩ :=
    sampleRun_sound (by simp [backIcebergActions, Admits]) (by decide +kernel)
  obtain ⟨trades, e', hok, htrades, hlaw, -⟩ :=
    executeAuction_queuesBehind hs 100 5 10 (by decide +kernel)
  refine ⟨trades, e', hok, htrades, hlaw fun s => ?_⟩
  cases s <;> decide +kernel

def frontIcebergActions : List Action :=
  [.setSessionState .preOpen 1, .newOrder { limitRequest .buy 100 10 with displayQty := 2 },
    .newOrder (limitRequest .buy 100 5), .newOrder (limitRequest .sell 100 7)]

/-- The first bid trades all 7, tranche after tranche, while the second waits. -/
theorem revealed_tranche_ahead : ¬∀ (e e' : Engine Unit) (trades : List Trade),
    Reach sampleExchange Engine.ordinary (sampleStart sampleExchange sampleConfig ()) e →
      e.executeAuction sampleExchange 20 100 5 = .ok e' → e'.trades = e.trades ++ trades →
      QueuesBehind e.book trades := by
  intro h
  let e := runAll sampleExchange frontIcebergActions (sampleStart sampleExchange sampleConfig ())
  have hreach : Reach sampleExchange ordinary
      (sampleStart sampleExchange sampleConfig ()) e :=
    reach_runAll (by simp [frontIcebergActions, ordinary]) (by decide +kernel)
  have hok : e.executeAuction sampleExchange 20 100 5 =
      .ok (Outcome.engine (e.executeAuction sampleExchange 20 100 5)) :=
    Outcome.eq_ok (by decide +kernel)
  have htrades : (Outcome.engine (e.executeAuction sampleExchange 20 100 5)).trades = e.trades ++
      ([⟨100, 2, 1, 3, .buy, 5⟩] ++ ⟨100, 2, 1, 3, .buy, 5⟩ ::
        [⟨100, 2, 1, 3, .buy, 5⟩, ⟨100, 1, 1, 3, .buy, 5⟩]) := by decide +kernel
  have hbook : (e.book .buy).map (fun l => l.orders.map fun o =>
      (o.id, o.remainingQuantity, o.exposure)) = [[(1, 2, 10), (2, 5, 5)]] := by decide +kernel
  obtain ⟨l, hl, hqueue⟩ := map_eq_singleton_iff.mp hbook
  obtain ⟨o, os, horders, ho, hrest⟩ := map_eq_cons_iff.mp hqueue
  obtain ⟨x, rfl, hx⟩ := map_eq_singleton_iff.mp hrest
  simp only [Prod.mk.injEq] at ho hx
  have hfilled := h e _ _ hreach hok htrades .buy l (by simp [hl]) o (by simp [horders]) _ _ _ rfl
    (by rw [ho.1]; rfl) (by rw [ho.1, ho.2.1]; decide) x (by simp [horders])
    (by rw [ho.1, hx.1]; decide)
  rw [hx.1, hx.2.2] at hfilled
  revert hfilled
  decide

end ExchangeSim
