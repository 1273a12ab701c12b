import Mathlib.Data.Int.ModEq
import Mathlib.Data.List.Infix
import Mathlib.Logic.Relation

/-!
The ring buffer between one producer and one consumer. A step is one atomic load or store, or one
access to the buffer, together with what its thread computes from it before the next one.
-/

namespace ExchangeSim.SpscRing

open List Relation

/-- Where the producer is in `try_push`. -/
inductive Producer (α : Type)
  | idle
  /-- `wp` is loaded. -/
  | pushing (item : α) (wp : BitVec 64)
  /-- There was room. -/
  | writing (item : α) (wp : BitVec 64)
  /-- The slot is written. -/
  | storing (item : α) (wp : BitVec 64)

/-- Where the consumer is in `try_pop`. -/
inductive Consumer (α : Type)
  | idle
  /-- `rp` is loaded. -/
  | popping (rp : BitVec 64)
  /-- There was an item. -/
  | reading (rp : BitVec 64)
  /-- The slot is read. -/
  | storing (rp : BitVec 64) (item : α)

/-- `pushed` and `popped` are the items of the calls that returned true. A thread has seen
`writeSeen` of the stores to `write_pos_`, or `readSeen` of those to `read_pos_`; a load may be
stale, but not older than that. -/
structure State (α : Type) where
  writePos : BitVec 64
  readPos : BitVec 64
  buffer : Nat → α
  producer : Producer α := .idle
  consumer : Consumer α := .idle
  pushed : List α := []
  popped : List α := []
  writeSeen : Nat := 0
  readSeen : Nat := 0

variable {α : Type}

section steps

variable (k : Nat) (start : BitVec 64)

def capacity : BitVec 64 :=
  .ofNat 64 (2 ^ k)

def slot (pos : BitVec 64) : Nat :=
  (pos &&& (capacity k - 1)).toNat

def position (n : Nat) : BitVec 64 :=
  start + .ofNat 64 n

/-- A thread calls `size` between two calls of its own, so that its own position is the same at
both loads. -/
inductive Sizes : BitVec 64 → State α → State α → Prop
  | byProducer {s : State α} {n : Nat} (h : s.producer = .idle)
    (hn : s.readSeen ≤ n ∧ n ≤ s.popped.length) :
    Sizes (s.writePos - position start n) s { s with readSeen := n }
  | byConsumer {s : State α} {n : Nat} (h : s.consumer = .idle)
    (hn : s.writeSeen ≤ n ∧ n ≤ s.pushed.length) :
    Sizes (position start n - s.readPos) s { s with writeSeen := n }

inductive Step : State α → State α → Prop
  | pushLoad {s : State α} (item : α) (h : s.producer = .idle) :
    Step s { s with producer := .pushing item s.writePos }
  | pushFull {s : State α} {item : α} {wp : BitVec 64} {n : Nat} (h : s.producer = .pushing item wp)
    (hn : s.readSeen ≤ n ∧ n ≤ s.popped.length) (hfull : wp - position start n ≥ capacity k) :
    Step s { s with producer := .idle, readSeen := n }
  | pushRoom {s : State α} {item : α} {wp : BitVec 64} {n : Nat} (h : s.producer = .pushing item wp)
    (hn : s.readSeen ≤ n ∧ n ≤ s.popped.length) (hroom : ¬wp - position start n ≥ capacity k) :
    Step s { s with producer := .writing item wp, readSeen := n }
  | pushWrite {s : State α} {item : α} {wp : BitVec 64} (h : s.producer = .writing item wp) :
    Step s { s with
      producer := .storing item wp
      buffer := Function.update s.buffer (slot k wp) item }
  | pushStore {s : State α} {item : α} {wp : BitVec 64} (h : s.producer = .storing item wp) :
    Step s { s with
      producer := .idle
      writePos := wp + 1
      pushed := s.pushed ++ [item] }
  | popLoad {s : State α} (h : s.consumer = .idle) :
    Step s { s with consumer := .popping s.readPos }
  | popEmpty {s : State α} {rp : BitVec 64} {n : Nat} (h : s.consumer = .popping rp)
    (hn : s.writeSeen ≤ n ∧ n ≤ s.pushed.length) (hempty : rp = position start n) :
    Step s { s with consumer := .idle, writeSeen := n }
  | popItem {s : State α} {rp : BitVec 64} {n : Nat} (h : s.consumer = .popping rp)
    (hn : s.writeSeen ≤ n ∧ n ≤ s.pushed.length) (hitem : rp ≠ position start n) :
    Step s { s with consumer := .reading rp, writeSeen := n }
  | popRead {s : State α} {rp : BitVec 64} (h : s.consumer = .reading rp) :
    Step s { s with consumer := .storing rp (s.buffer (slot k rp)) }
  | popStore {s : State α} {rp : BitVec 64} {item : α} (h : s.consumer = .storing rp item) :
    Step s { s with
      consumer := .idle
      readPos := rp + 1
      popped := s.popped ++ [item] }
  | size {s s' : State α} {result : BitVec 64} : Sizes start result s s' → Step s s'

def initial (buffer : Nat → α) : State α where
  writePos := start
  readPos := start
  buffer := buffer

def Reachable (buffer : Nat → α) (s : State α) : Prop :=
  ReflTransGen (Step k start) (initial start buffer) s

end steps

/-! Positions are counted modulo `2 ^ 64`, slots modulo the capacity. -/

section positions

variable {k : Nat} {start : BitVec 64} {m n : Nat}

theorem position_sub (hle : n ≤ m) (hlt : m - n < 2 ^ 64) :
    (position start m - position start n).toNat = m - n := by
  simp only [position, BitVec.toNat_sub, BitVec.toNat_add, BitVec.toNat_ofNat]
  have := start.isLt
  omega

theorem position_succ (n : Nat) : position start n + 1#64 = position start (n + 1) := by
  simp only [position, BitVec.ofNat_add, BitVec.add_assoc]

variable (hk : k < 64)

include hk

theorem two_pow_le : 2 ^ k ≤ 2 ^ 63 :=
  Nat.pow_le_pow_right (by decide) (by omega)

theorem toNat_capacity : (capacity k).toNat = 2 ^ k := by
  have := two_pow_le hk
  rw [capacity, BitVec.toNat_ofNat, Nat.mod_eq_of_lt (by omega)]

theorem slot_position (n : Nat) : slot k (position start n) = (start.toNat + n) % 2 ^ k := by
  have hpos := Nat.two_pow_pos k
  have hle := two_pow_le hk
  have hmask : (capacity k - 1).toNat = 2 ^ k - 1 := by
    rw [BitVec.toNat_sub, toNat_capacity hk, show (1 : BitVec 64).toNat = 1 from rfl]
    omega
  rw [slot, BitVec.toNat_and, hmask, Nat.and_two_pow_sub_one_eq_mod, position, BitVec.toNat_add,
    BitVec.toNat_ofNat, Nat.add_mod_mod, Nat.mod_mod_of_dvd _ (Nat.pow_dvd_pow 2 hk.le)]

theorem slot_ne (hle : n < m) (hlt : m < n + 2 ^ k) :
    slot k (position start n) ≠ slot k (position start m) := by
  rw [slot_position hk, slot_position hk]
  intro h
  have hdvd := (Nat.modEq_iff_dvd' (Nat.add_le_add_left hle.le start.toNat)).mp h
  rw [Nat.add_sub_add_left] at hdvd
  have := Nat.le_of_dvd (by omega) hdvd
  omega

end positions

/-- What the producer knows in its state: `wp` is the true position, and the slot it writes is one
that no item is left in. -/
def Producer.Knows (k : Nat) (s : State α) : Producer α → Prop
  | .idle => True
  | .pushing _ wp => wp = s.writePos
  | .writing _ wp => wp = s.writePos ∧ s.pushed.length < s.readSeen + 2 ^ k
  | .storing item wp => wp = s.writePos ∧ s.pushed.length < s.readSeen + 2 ^ k ∧
    s.buffer (slot k wp) = item

def Consumer.Knows (s : State α) : Consumer α → Prop
  | .idle => True
  | .popping rp => rp = s.readPos
  | .reading rp => rp = s.readPos ∧ s.popped.length < s.writeSeen
  | .storing rp item => rp = s.readPos ∧ s.popped.length < s.writeSeen ∧
    s.pushed[s.popped.length]? = some item

structure Inv (k : Nat) (start : BitVec 64) (s : State α) : Prop where
  writePos : s.writePos = position start s.pushed.length
  readPos : s.readPos = position start s.popped.length
  order : s.popped <+: s.pushed
  readSeen : s.readSeen ≤ s.popped.length
  writeSeen : s.writeSeen ≤ s.pushed.length
  /-- What the producer has seen leaves room for all it has pushed. -/
  room : s.pushed.length ≤ s.readSeen + 2 ^ k
  /-- The consumer has popped only what it has seen. -/
  known : s.popped.length ≤ s.writeSeen
  items : ∀ i, s.popped.length ≤ i → i < s.pushed.length →
    s.pushed[i]? = some (s.buffer (slot k (position start i)))
  producer : s.producer.Knows k s
  consumer : s.consumer.Knows s

section runs

variable {k : Nat} {start : BitVec 64} {s s' : State α} (hk : k < 64)

include hk

theorem Inv.step (h : Inv k start s) (hstep : Step k start s s') : Inv k start s' := by
  obtain ⟨hwp, hrp, horder, hrs, hws, hroom, hknown, hitems, hprod, hcons⟩ := h
  have hlen := horder.length_le
  cases hstep with
  | pushLoad item _ => exact ⟨hwp, hrp, horder, hrs, hws, hroom, hknown, hitems, rfl, hcons⟩
  | pushFull _ hn _ =>
    exact ⟨hwp, hrp, horder, hn.2, hws, by simp; omega, hknown, hitems, trivial, hcons⟩
  | @pushRoom item wp n hpc hn hspace =>
    rw [hpc] at hprod
    refine ⟨hwp, hrp, horder, hn.2, hws, by simp; omega, hknown, hitems, ⟨hprod, ?_⟩, hcons⟩
    have hle := two_pow_le hk
    have hsub : (position start s.pushed.length - position start n).toNat = s.pushed.length - n :=
      position_sub (by omega) (by omega)
    rw [show wp = position start s.pushed.length from Eq.trans hprod hwp] at hspace
    simp only [ge_iff_le, BitVec.le_def, toNat_capacity hk, hsub] at hspace
    simp only
    omega
  | @pushWrite item wp hpc =>
    rw [hpc] at hprod
    obtain ⟨rfl, hspace⟩ := hprod
    refine ⟨hwp, hrp, horder, hrs, hws, hroom, hknown, ?_, ⟨rfl, hspace, by simp⟩, ?_⟩
    · intro i hlow hhigh
      simp only at hlow hhigh
      have hne : slot k (position start i) ≠ slot k (position start s.pushed.length) :=
        slot_ne hk hhigh (by omega)
      rw [hwp]
      simpa [hne] using hitems i hlow hhigh
    · exact hcons
  | @pushStore item wp hpc =>
    rw [hpc] at hprod
    obtain ⟨rfl, hspace, hslot⟩ := hprod
    refine ⟨?_, hrp, horder.trans (prefix_append _ _), hrs, ?_, ?_, hknown, ?_, trivial, ?_⟩
    · simp [hwp, position_succ]
    · simp only [length_append]
      omega
    · simp only [length_append, length_singleton]
      omega
    · intro i hlow hhigh
      simp only [length_append, length_singleton] at hhigh
      rcases Nat.lt_succ_iff_lt_or_eq.mp hhigh with hlt | rfl
      · rw [getElem?_append_left hlt]
        exact hitems i hlow hlt
      · rw [hwp] at hslot
        simp [hslot]
    · cases hc : s.consumer with
      | storing rp item =>
        rw [hc] at hcons
        obtain ⟨hpos, hless, hget⟩ := hcons
        have hmore : s.popped.length < s.pushed.length := by omega
        exact ⟨hpos, hless, by rwa [getElem?_append_left hmore]⟩
      | _ =>
        rw [hc] at hcons
        exact hcons
  | popLoad _ => exact ⟨hwp, hrp, horder, hrs, hws, hroom, hknown, hitems, hprod, rfl⟩
  | popEmpty _ hn _ =>
    exact ⟨hwp, hrp, horder, hrs, hn.2, hroom, by simp; omega, hitems, hprod, trivial⟩
  | @popItem rp n hpc hn hitem =>
    rw [hpc] at hcons
    refine ⟨hwp, hrp, horder, hrs, hn.2, hroom, by simp; omega, hitems, hprod, ⟨hcons, ?_⟩⟩
    have hne : s.popped.length ≠ n := by
      rintro rfl
      exact hitem (Eq.trans hcons hrp)
    simp only
    omega
  | @popRead rp hpc =>
    rw [hpc] at hcons
    obtain ⟨rfl, hless⟩ := hcons
    refine ⟨hwp, hrp, horder, hrs, hws, hroom, hknown, hitems, hprod, ⟨rfl, hless, ?_⟩⟩
    have hmore : s.popped.length < s.pushed.length := by omega
    rw [hrp]
    exact hitems _ le_rfl hmore
  | @popStore rp item hpc =>
    rw [hpc] at hcons
    obtain ⟨rfl, hless, hget⟩ := hcons
    refine ⟨hwp, ?_, ?_, ?_, hws, hroom, ?_, fun i hlow hhigh => hitems i ?_ hhigh, ?_, trivial⟩
    · simp [hrp, position_succ]
    · rw [prefix_iff_eq_take] at horder ⊢
      rw [length_append, length_singleton, take_add_one, ← horder, hget]
      rfl
    · simp only [length_append]
      omega
    · simp only [length_append, length_singleton]
      omega
    · simp only [length_append] at hlow
      omega
    · cases hp : s.producer with
      | _ =>
        rw [hp] at hprod
        exact hprod
  | size hsize =>
    cases hsize with
    | byProducer hidle hn =>
      refine ⟨hwp, hrp, horder, hn.2, hws, by simp; omega, hknown, hitems, ?_, hcons⟩
      simp only [hidle, Producer.Knows]
    | byConsumer hidle hn =>
      refine ⟨hwp, hrp, horder, hrs, hn.2, hroom, by simp; omega, hitems, hprod, ?_⟩
      simp only [hidle, Consumer.Knows]

theorem Inv.reachable {buffer : Nat → α} (h : Reachable k start buffer s) : Inv k start s := by
  induction h with
  | refl =>
    refine ⟨?_, ?_, prefix_rfl, le_rfl, le_rfl, Nat.zero_le _, le_rfl, ?_, trivial, trivial⟩
    · simp [initial, position]
    · simp [initial, position]
    · simp [initial]
  | tail _ hstep ih => exact ih.step hk hstep

theorem Inv.size_le (h : Inv k start s) {result : BitVec 64}
    (hsize : Sizes start result s s') : result.toNat ≤ 2 ^ k := by
  have hle := two_pow_le hk
  have hlen := h.order.length_le
  have hroom := h.room
  have hknown := h.known
  have hseen := h.readSeen
  cases hsize with
  | byProducer hidle hn =>
    rw [h.writePos, position_sub (by omega) (by omega)]
    omega
  | byConsumer hidle hn =>
    rw [h.readPos, position_sub (by omega) (by omega)]
    omega

/-- The queue between the two threads, whatever the order of their steps. -/
theorem reachable_queue {buffer : Nat → α} (h : Reachable k start buffer s) :
    s.popped <+: s.pushed ∧ s.pushed.length ≤ s.popped.length + 2 ^ k ∧
    (∀ item wp, s.producer = .writing item wp → ∀ i, s.popped.length ≤ i → i < s.pushed.length →
      slot k (position start i) ≠ slot k wp) ∧
    ∀ result s', Sizes start result s s' → result.toNat ≤ 2 ^ k := by
  have hinv := Inv.reachable hk h
  have hroom := hinv.room
  have hseen := hinv.readSeen
  refine ⟨hinv.order, by omega, ?_, fun result s' hsize => hinv.size_le hk hsize⟩
  intro item wp hpc i hlow hhigh
  have hprod := hinv.producer
  rw [hpc] at hprod
  obtain ⟨rfl, hspace⟩ := hprod
  rw [hinv.writePos]
  exact slot_ne hk hhigh (by omega)

end runs

/-- The ring of two slots starts at the last position before zero. 7 has been pushed and popped,
8 has been pushed, and 9 is about to be written. -/
theorem reachable_queue_pushing :
    let s : State Nat :=
      { writePos := -1 + 1 + 1
        readPos := -1 + 1
        buffer := Function.update (Function.update (fun _ => 0) (slot 1 (-1)) 7) (slot 1 (-1 + 1)) 8
        producer := .writing 9 (-1 + 1 + 1)
        pushed := [7, 8]
        popped := [7]
        writeSeen := 1
        readSeen := 1 }
    Reachable 1 (-1) (fun _ => 0) s ∧ s.popped <+: s.pushed ∧
      s.pushed.length ≤ s.popped.length + 2 ∧ slot 1 (position (-1) 1) ≠ slot 1 (-1 + 1 + 1) ∧
      ∀ result s', Sizes (-1) result s s' → result.toNat ≤ 2 := by
  intro s
  have hpush : Reachable 1 (-1) (fun _ => 0) _ :=
    ((((ReflTransGen.refl.tail (.pushLoad 7 rfl)).tail
      (.pushRoom (n := 0) rfl (by decide) (by decide))).tail (.pushWrite rfl)).tail (.pushStore rfl))
  have hpop : Reachable 1 (-1) (fun _ => 0) _ :=
    ((((hpush.tail (.popLoad rfl)).tail (.popItem (n := 1) rfl (by decide) (by decide))).tail
      (.popRead rfl)).tail (.popStore rfl))
  have h : Reachable 1 (-1) (fun _ => 0) s :=
    ((((((hpop.tail (.pushLoad 8 rfl)).tail
      (.pushRoom (n := 1) rfl (by decide) (by decide))).tail (.pushWrite rfl)).tail
      (.pushStore rfl)).tail (.pushLoad 9 rfl)).tail
      (.pushRoom (n := 1) rfl (by decide) (by decide)))
  obtain ⟨horder, hroom, hslot, hsize⟩ := reachable_queue (by decide) h
  exact ⟨h, horder, hroom, hslot 9 _ rfl 1 (by decide) (by decide), hsize⟩

end ExchangeSim.SpscRing
