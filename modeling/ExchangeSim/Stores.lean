import ExchangeSim.Events

namespace ExchangeSim

/-- A fixed-capacity pool. `free` holds what the free slots still contain, in the order
`allocate` hands them out. -/
structure ObjectPool (α : Type) where
  free : List α
  allocated : Nat := 0

def ObjectPool.allocate {α : Type} (p : ObjectPool α) : Option (α × ObjectPool α) :=
  match p.free with
  | [] => none
  | slot :: rest => some (slot, ⟨rest, p.allocated + 1⟩)

def ObjectPool.deallocate {α : Type} (p : ObjectPool α) (slot : α) : ObjectPool α :=
  ⟨slot :: p.free, p.allocated - 1⟩

def ObjectPool.available {α : Type} (p : ObjectPool α) (capacity : Nat) : Nat :=
  capacity - p.allocated

def ObjectPool.Balanced {α : Type} (p : ObjectPool α) (capacity : Nat) : Prop :=
  p.free.length + p.allocated = capacity

theorem ObjectPool.allocate_some {α : Type} {p q : ObjectPool α} {slot : α}
    (h : p.allocate = some (slot, q)) :
    p.free = slot :: q.free ∧ q.allocated = p.allocated + 1 := by
  unfold ObjectPool.allocate at h
  split at h
  next => simp at h
  next s rest he =>
    obtain ⟨rfl, rfl⟩ := Prod.mk.inj (Option.some.inj h)
    exact ⟨he, rfl⟩

theorem ObjectPool.allocate_deallocate {α : Type} {p q : ObjectPool α} {slot : α}
    (h : p.allocate = some (slot, q)) : q.deallocate slot = p := by
  obtain ⟨hf, ha⟩ := ObjectPool.allocate_some h
  obtain ⟨free, allocated⟩ := p
  simp only at hf ha
  simp [ObjectPool.deallocate, hf, ha]

theorem allocate_isNone_iff {α : Type} {p : ObjectPool α} :
    p.allocate.isNone = true ↔ p.free = [] := by
  unfold ObjectPool.allocate
  split <;> simp_all

theorem ObjectPool.Balanced.allocate {α : Type} {p q : ObjectPool α} {slot : α} {capacity : Nat}
    (hb : p.Balanced capacity) (h : p.allocate = some (slot, q)) : q.Balanced capacity := by
  obtain ⟨hf, ha⟩ := ObjectPool.allocate_some h
  unfold ObjectPool.Balanced at *
  rw [hf, List.length_cons] at hb
  omega

theorem ObjectPool.Balanced.deallocate {α : Type} {p : ObjectPool α} {capacity : Nat}
    (hb : p.Balanced capacity) (hpos : 0 < p.allocated) (slot : α) :
    (p.deallocate slot).Balanced capacity := by
  unfold ObjectPool.Balanced ObjectPool.deallocate at *
  simp only [List.length_cons]
  omega

/-- What a recycled order slot keeps: `new_order` assigns every field but
`is_top_order`, `restore_order` every field but the two flags. -/
structure SlotResidue where
  isMarketMaker : Bool := false
  isTopOrder : Bool := false
  deriving DecidableEq, Repr

/-- Message counts per account in tumbling windows. -/
structure RateTracker where
  config : ThrottleConfig := {}
  windowStart : Nat → Int := fun _ => 0
  count : Nat → Int := fun _ => 0

def RateTracker.checkAndIncrement (t : RateTracker) (maxAccounts : Nat) (account : Nat)
    (ts : Int) : Bool × RateTracker :=
  if t.config.maxMessagesPerInterval ≤ 0 ∨ t.config.intervalNs ≤ 0 then (true, t)
  else if account = 0 then (true, t)
  else if account ≥ maxAccounts then (false, t)
  else if ts ≥ t.windowStart account + t.config.intervalNs then
    (true, { t with
      windowStart := Function.update t.windowStart account ts
      count := Function.update t.count account 1 })
  else if t.count account ≥ t.config.maxMessagesPerInterval then (false, t)
  else (true, { t with count := Function.update t.count account (t.count account + 1) })

abbrev Positions := Nat → Int

def updateFill (maxAccounts : Nat) (account : Nat) (side : Side) (qty : Int)
    (p : Positions) : Positions :=
  if account = 0 ∨ account ≥ maxAccounts then p
  else match side with
    | .buy => Function.update p account (p account + qty)
    | .sell => Function.update p account (p account - qty)

def reverseFill (maxAccounts : Nat) (account : Nat) (side : Side) (qty : Int)
    (p : Positions) : Positions :=
  if account = 0 ∨ account ≥ maxAccounts then p
  else match side with
    | .buy => Function.update p account (p account - qty)
    | .sell => Function.update p account (p account + qty)

def wouldExceedLimit (maxAccounts : Nat) (p : Positions) (account : Nat) (side : Side)
    (qty limit : Int) : Bool :=
  if limit ≤ 0 then false
  else if account = 0 ∨ account ≥ maxAccounts then false
  else match side with
    | .buy => decide (p account + qty > limit)
    | .sell => decide (p account - qty < -limit)

structure TradeRegistry where
  nextTradeId : Nat := 1
  trades : Nat → Option TradeRecord := fun _ => none

def TradeRegistry.record (r : TradeRegistry) (maxTrades : Nat) (aggressorId restingId : Nat)
    (price : Int) (quantity : Int) (ts : Int) (aggressorSide : Side)
    (aggressorAccountId restingAccountId : Nat) : TradeRegistry :=
  if r.nextTradeId ≥ maxTrades then r
  else
    { nextTradeId := r.nextTradeId + 1
      trades := Function.update r.trades r.nextTradeId (some
        { tradeId := r.nextTradeId, aggressorId, restingId, price, quantity, ts, aggressorSide,
          aggressorAccountId, restingAccountId, busted := false }) }

def TradeRegistry.lookup (r : TradeRegistry) (id : Nat) : Option TradeRecord :=
  if id = 0 ∨ id ≥ r.nextTradeId then none else r.trades id

def TradeRegistry.markBusted (r : TradeRegistry) (id : Nat) : TradeRegistry :=
  let busted := (r.trades id).map fun t => { t with busted := true }
  { r with trades := Function.update r.trades id busted }

end ExchangeSim
