import ExchangeSim.Observers
import ExchangeSim.MoveOrders
import ExchangeSim.Tape

namespace ExchangeSim

open Function JournalEntry Move

/-- What a journal tells about an order since it was accepted: the request it came with, its
price and quantity after the latest modification, the sum of its trades, and whether it was
cancelled. -/
structure OrderRecord where
  request : OrderRequest
  price : Int
  quantity : Int
  traded : Int := 0
  cancelled : Bool := false
  deriving DecidableEq, Repr

variable {D : Type} {X : Exchange D} {w : Prop} {W : World D} {v : Nat → Option Order} {o : Order}
  {o' : Option Order} {R : Option OrderRecord → Option Order → Prop}

namespace OrderRecord

def accepted (req : OrderRequest) : OrderRecord where
  request := req
  price := req.price
  quantity := req.quantity

def modify (price quantity : Int) (r : OrderRecord) : OrderRecord :=
  { r with price := price, quantity := quantity }

def trade (q : Int) (r : OrderRecord) : OrderRecord :=
  { r with traded := r.traded + q }

def cancel (r : OrderRecord) : OrderRecord :=
  { r with cancelled := true }

end OrderRecord

structure Register where
  current : Option Action := none
  record : Nat → Option OrderRecord := fun _ => none

def Register.change (id : Nat) (f : OrderRecord → OrderRecord) (r : Register) : Register :=
  { r with record := Function.update r.record id ((r.record id).map f) }

/-- An order is accepted in the course of the `new_order` that asks for it. -/
def Register.accept (id : Nat) (r : Register) : Register :=
  match r.current with
  | some (.newOrder req) =>
    { r with record := Function.update r.record id (some (.accepted req)) }
  | _ => r

theorem Register.accept_current (id : Nat) (r : Register) : (r.accept id).current = r.current := by
  unfold Register.accept
  split <;> rfl

theorem Register.accept_record {r : Register} {req : OrderRequest}
    (h : r.current = some (.newOrder req)) (id : Nat) :
    (r.accept id).record = update r.record id (some (.accepted req)) := by
  simp [Register.accept, h]

def Register.see (r : Register) : JournalEntry → Register
  | .action a => { r with current := some a }
  | .event (.orderAccepted id _ _) => r.accept id
  | .event (.orderModified id _ price quantity _) => r.change id (·.modify price quantity)
  | .event (.orderCancelled id _ _) => r.change id (·.cancel)
  | .event (.trade t) =>
    (r.change t.restingId (·.trade t.quantity)).change t.aggressorId (·.trade t.quantity)
  | _ => r

def register : Observer JournalEntry Register where
  start := {}
  see := Register.see

theorem register_heeds : register.Heeds told := by
  intro s x hx
  cases x with
  | action a => simp [told] at hx
  | event ev => cases ev <;> first | rfl | simp [told] at hx

theorem register_current (h : List JournalEntry) :
    (register.state h).current = currentAction h := by
  refine (List.foldl_hom Register.current fun r x => ?_).symm
  cases x with
  | action a => rfl
  | event ev =>
    cases ev with
    | orderAccepted id client ts => exact (r.accept_current id).symm
    | _ => rfl

def Engine.records (e : Engine D) : Nat → Option OrderRecord :=
  (register.state e.tape).record

/-- What a move asks of a relation between records and orders: each order it touches must
stay related to its record as the move writes both. -/
def Move.keeps (X : Exchange D) (R : Option OrderRecord → Option Order → Prop) :
    Move D → World D → Prop
  | .accept req slot _, W => R (some (.accepted req)) (some (W.engine.buildOrder X req slot))
  | .adjust order remaining, _ => ∀ r, R r (some order) →
    R r (some { order with remainingQuantity := remaining })
  | .fill _ order resting f left _, _ =>
    (∀ r, R r (some resting) → R (r.map (·.trade f.quantity)) (resting.settled f.quantity)) ∧
    ∀ r, R r (some order) → R (r.map (·.trade f.quantity)) (some { order with
      filledQuantity := order.filledQuantity + f.quantity
      remainingQuantity := left })
  | .cancelResting _ _ resting _ _, _ => ∀ r, R r (some resting) → R (r.map (·.cancel)) none
  | .drop order _ _, _ => ∀ r, R r (some order) → R (r.map (·.cancel)) none
  | .finish order, _ => ∀ r, R r (some order) → R r none
  | .rest order _, _ => ∀ r, R r (some order) → R (r.map (·.cancel)) none
  | .park order _, _ => ∀ r, R r (some order) → R (r.map (·.cancel)) none
  | .trigger stop, _ => ∀ r, R r (some stop) → R r (some stop.triggered)
  | .pull order req, _ => ∀ r, R r (some order) →
    R (r.map (·.modify req.newPrice req.newQuantity)) (some (order.replaced req))
  | .cancel order _ _, _ => ∀ r, R r (some order) → R (r.map (·.cancel)) none
  | .cancelStop order _ _, _ => ∀ r, R r (some order) → R (r.map (·.cancel)) none
  | .amend order req, _ => ∀ r, R r (some order) →
    R (r.map (·.modify req.newPrice req.newQuantity)) (some { order with
      quantity := req.newQuantity
      remainingQuantity := req.newQuantity - order.filledQuantity })
  | .cross _ _ bid ask q, _ =>
    (∀ r, R r (some bid) → R (r.map (·.trade q)) (bid.settled q)) ∧
    ∀ r, R r (some ask) → R (r.map (·.trade q)) (ask.settled q)
  | .unfill order q, _ => ∀ r, R r (some order) → R r (some (order.fill (-q)))
  | _, _ => True

theorem records_run (m : Move D) (W : World D) : (m.run X W).engine.records =
    ((m.tells W).foldl register.see (register.state W.engine.tape)).record := by
  rw [Engine.records, run_tape, Observer.state_append]

namespace Agree

variable {R : Option OrderRecord → Option Order → Prop}

theorem change {g : Register} (h : Agree R g.record v) (ho : v o.id = some o)
    {f : OrderRecord → OrderRecord} (hf : ∀ r, R r (some o) → R (r.map f) o') :
    Agree R (g.change o.id f).record (Function.update v o.id o') :=
  h.update o.id (hf _ (ho ▸ h o.id))

theorem rewrite {f : Nat → Option OrderRecord} (h : Agree R f v) (ho : v o.id = some o)
    (hf : ∀ r, R r (some o) → R r o') : Agree R f (Function.update v o.id o') :=
  h.update_right o.id (hf _ (ho ▸ h o.id))

end Agree

theorem quiet_records {entries : List JournalEntry} (h : ∀ x ∈ entries, x.quiet = true)
    (g : Register) : (entries.foldl register.see g).record = g.record := by
  induction entries generalizing g with
  | nil => rfl
  | cons x rest ih =>
    have hx : (g.see x).record = g.record := by
      have hq := h x (by simp)
      cases x with
      | action a => rfl
      | event ev => cases ev <;> first | rfl | simp [quiet] at hq
    rw [List.foldl_cons, ih fun y hy => h y (by simp [hy])]
    exact hx

theorem records_current (e : Engine D) :
    (register.state e.tape).current = currentAction e.journal := by
  rw [Engine.tape, register_heeds.state_filter, register_current]

theorem World.agree_trade (hR : Agree R W.engine.records W.view) {a b : Order}
    (ha : W.view a.id = some a) (hb : W.view b.id = some b) (hne : a.id ≠ b.id) {q : Int}
    {a' b' : Option Order} (hb' : ∀ r, R r (some b) → R (r.map (·.trade q)) b')
    (ha' : ∀ r, R r (some a) → R (r.map (·.trade q)) a') (price ts : Int) (side : Side) :
    Agree R ((register.state W.engine.tape).see
      (.event (.trade ⟨price, q, a.id, b.id, side, ts⟩))).record
      (Function.update (Function.update W.view b.id b') a.id a') := by
  have hb1 := Agree.change hR hb hb'
  refine Agree.change hb1 ?_ ha'
  rw [Function.update_of_ne hne, ha]

theorem World.Sound.agree_run (h : W.Sound X w) (hR : Agree R W.engine.records W.view) {m : Move D}
    (hg : m.guard X W) (hk : m.keeps X R W) :
    Agree R (m.run X W).engine.records (m.run X W).view := by
  rw [records_run, h.view_run hg]
  cases m with
  | note tracker entries =>
    rw [tells, quiet_records fun x hx => hg x (List.mem_of_mem_filter hx)]
    exact hR
  | accept req slot pool =>
    obtain ⟨hfl, -, -, hcur⟩ := hg
    have hreg : (register.state W.engine.tape).current = some (.newOrder req) := by
      rw [records_current, hcur]
    have hrec := Register.accept_record hreg W.engine.nextOrderId
    simp only [tells, List.foldl_cons, List.foldl_nil]
    change Agree R (Register.accept _ _).record _
    rw [hrec]
    exact hR.update _ hk
  | adjust order remaining => exact Agree.rewrite hR (h.view_flight hg) hk
  | fill ts order resting f left reported =>
    obtain ⟨hfl, hm⟩ := hg
    obtain ⟨hrest, hside, -, -⟩ := h.rests_of_meets hm
    have ho := h.view_flight hfl
    have hr := h.view_rests hrest
    have hne : order.id ≠ resting.id :=
      World.id_ne ho hr (by rw [hside]; exact order.side.opposite_ne.symm)
    exact World.agree_trade hR ho hr hne hk.1 hk.2 _ _ _
  | cancelResting ts order resting f notify =>
    obtain ⟨-, hrest, -, -⟩ := hg
    exact Agree.change hR (h.view_rests hrest) hk
  | drop order ts reason => exact Agree.change hR (h.view_flight hg) hk
  | finish order => exact Agree.rewrite hR (h.view_flight hg.1) hk
  | rest | park =>
    simp only [tells, write, Engine.refusal]
    split
    · exact Agree.change hR (h.view_flight hg.1) hk
    · exact hR
  | trigger stop =>
    obtain ⟨hfl, -, hnext⟩ := hg
    have hwait := nextTriggeredStop_waits (h.holds_none hfl) hnext
    exact Agree.rewrite hR (h.view_waits hwait) hk
  | pull | cancel => exact Agree.change hR (h.view_rests hg.2) hk
  | cancelStop order ts reason => exact Agree.change hR (h.view_waits hg.2) hk
  | amend order req => exact Agree.change hR (h.view_rests hg.2.1) hk
  | cross price ts bid ask q =>
    obtain ⟨-, hbid, hbuy, -, hask, hsell, -⟩ := hg
    have hb := h.view_rests hbid
    have ha := h.view_rests hask
    have hne : bid.id ≠ ask.id := World.id_ne hb ha (by simp [hbuy, hsell])
    simp only [write]
    rw [update_comm hne]
    exact World.agree_trade hR hb ha hne hk.2 hk.1 _ _ _
  | unfill order q =>
    obtain ⟨-, hlinked⟩ := hg
    have ho : W.view order.id = some order := hlinked.elim h.view_rests h.view_waits
    exact Agree.rewrite hR ho hk
  | markBusted | bust | topOfBook | session | reference | hook => exact hR

end ExchangeSim
