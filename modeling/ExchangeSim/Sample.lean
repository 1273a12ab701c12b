import ExchangeSim.FifoMatch
import ExchangeSim.Session

namespace ExchangeSim

def sampleExchange : Exchange Unit where
  maxOrders := 8
  maxPriceLevels := 8
  maxOrderIds := 32
  maxAccounts := 4
  algo := fifoMatch

def sampleConfig : EngineConfig where
  tickSize := 1
  lotSize := 1

def limitRequest (side : Side) (price quantity : Int) : OrderRequest where
  clientOrderId := 0
  accountId := 1
  side := side
  type := .limit
  tif := .gtc
  price := price
  quantity := quantity
  stopPrice := 0
  timestamp := 1
  gtdExpiry := 0

def limitOrder (id : Nat) (side : Side) (price quantity : Int) : Order where
  id := id
  clientOrderId := 0
  accountId := 1
  price := price
  quantity := quantity
  filledQuantity := 0
  remainingQuantity := quantity
  side := side
  type := .limit
  tif := .gtc
  timestamp := 1
  gtdExpiry := 0
  displayQty := 0
  totalQty := quantity
  isMarketMaker := false
  isTopOrder := false

def sampleStart {D : Type} (X : Exchange D) (config : EngineConfig) (derived : D) : Engine D :=
  Engine.init X config derived fun _ => {}

/-- The engine after the actions, whether or not the last one ended in a fault. -/
def Outcome.engine {D : Type} : Outcome D (Engine D) → Engine D
  | .ok e => e
  | .error (_, e) => e

def runAll {D : Type} (X : Exchange D) (actions : List Action) (e : Engine D) : Engine D :=
  Outcome.engine (e.performAll X 20 actions)

/-- Each action meets `ok` in the state it is called in. -/
def Passes {D : Type} (X : Exchange D) (ok : Engine D → Action → Prop) :
    List Action → Engine D → Prop
  | [], _ => True
  | a :: rest, e => ok e a ∧ Passes X ok rest (Outcome.engine (e.perform X 20 a))

instance decidablePasses {D : Type} (X : Exchange D) (ok : Engine D → Action → Prop)
    [∀ e a, Decidable (ok e a)] :
    (actions : List Action) → (e : Engine D) → Decidable (Passes X ok actions e)
  | [], _ => .isTrue trivial
  | a :: rest, e =>
    have := decidablePasses X ok rest (Outcome.engine (e.perform X 20 a))
    inferInstanceAs (Decidable (ok e a ∧ Passes X ok rest (Outcome.engine (e.perform X 20 a))))

theorem reach_performAll {D : Type} {X : Exchange D} {ok : Engine D → Action → Prop}
    {actions : List Action} {e₀ e₁ e : Engine D} (h₀ : Reach X ok e₀ e₁)
    (hok : Passes X ok actions e₁) (h : e₁.performAll X 20 actions = .ok e) : Reach X ok e₀ e := by
  induction actions generalizing e₁ with
  | nil =>
    obtain rfl : e₁ = e := by simpa [Engine.performAll] using h
    exact h₀
  | cons a rest ih =>
    unfold Engine.performAll at h
    split at h
    next => simp at h
    next e₂ hperf =>
      refine ih (h₀.step hok.1 hperf) ?_ h
      have hrest := hok.2
      rwa [hperf] at hrest

theorem Outcome.eq_ok {D : Type} {r : Outcome D (Engine D)} (h : r.isOk = true) :
    r = .ok r.engine := by
  cases r with
  | error err => simp [Except.isOk, Except.toBool] at h
  | ok e => rfl

theorem reach_passes {D : Type} {X : Exchange D} {ok : Engine D → Action → Prop}
    {actions : List Action} {e₀ : Engine D} (hok : Passes X ok actions e₀)
    (h : (e₀.performAll X 20 actions).isOk = true) : Reach X ok e₀ (runAll X actions e₀) :=
  reach_performAll .start hok (Outcome.eq_ok h)

theorem reach_runAll {D : Type} {X : Exchange D} {ok : Engine D → Action → Prop}
    {actions : List Action} {e₀ : Engine D} (hok : ∀ a ∈ actions, ∀ e, ok e a)
    (h : (e₀.performAll X 20 actions).isOk = true) : Reach X ok e₀ (runAll X actions e₀) := by
  have hall : ∀ e, Passes X ok actions e := by
    clear h
    induction actions with
    | nil => exact fun _ => trivial
    | cons a rest ih =>
      exact fun e => ⟨hok a (by simp) e, ih (fun b hb => hok b (by simp [hb])) _⟩
  exact reach_passes (hall e₀) h

def liftRequest : ModifyRequest where
  orderId := 2
  clientOrderId := 0
  newPrice := 105
  newQuantity := 5
  timestamp := 2

end ExchangeSim
