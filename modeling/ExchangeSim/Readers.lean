import Mathlib.Tactic

/-!
Readers that take values off the front of a byte string, and writers that put byte strings into a
buffer as long as there is room.
-/

namespace ExchangeSim

abbrev Bytes := List UInt8

/-- What a reader returns depends on the bytes that it takes, and on nothing behind them. -/
structure Reader (α : Type) where
  read : Bytes → Option (α × Bytes)
  front : ∀ {input a rest}, read input = some (a, rest) →
    ∃ used, input = used ++ rest ∧ ∀ more, read (used ++ more) = some (a, more)

namespace Reader

variable {α β : Type}

def fail : Reader α :=
  ⟨fun _ => none, fun h => by simp at h⟩

def byte : Reader UInt8 where
  read
    | [] => none
    | b :: rest => some (b, rest)
  front {input a rest} h := by
    cases input with
    | nil => simp at h
    | cons b input =>
      cases h
      exact ⟨[_], rfl, fun _ => rfl⟩

instance : Monad Reader where
  pure a := ⟨fun input => some (a, input), fun h => by
    cases h
    exact ⟨[], rfl, fun _ => rfl⟩⟩
  bind x f := ⟨fun input => (x.read input).bind fun p => (f p.1).read p.2, fun {input c rest} h => by
    obtain ⟨⟨a, mid⟩, hx, hf⟩ := Option.bind_eq_some_iff.mp h
    obtain ⟨first, rfl, hfirst⟩ := x.front hx
    obtain ⟨second, rfl, hsecond⟩ := (f a).front hf
    refine ⟨first ++ second, (List.append_assoc ..).symm, fun more => ?_⟩
    rw [List.append_assoc, hfirst]
    exact hsecond more⟩

theorem bind_read (x : Reader α) (f : α → Reader β) (input : Bytes) :
    (x >>= f).read input = (x.read input).bind fun p => (f p.1).read p.2 := rfl

/-- These bytes are read as `a`, whatever follows. -/
def Reads (x : Reader α) (bytes : Bytes) (a : α) : Prop :=
  ∀ rest, x.read (bytes ++ rest) = some (a, rest)

theorem reads_pure (a : α) : (pure a : Reader α).Reads [] a := fun _ => rfl

theorem reads_byte (b : UInt8) : byte.Reads [b] b := fun _ => rfl

namespace Reads

variable {x : Reader α} {f : α → Reader β} {bytes more : Bytes} {a : α} {c : β}

theorem bind (h : x.Reads bytes a) (hf : (f a).Reads more c) :
    (x >>= f).Reads (bytes ++ more) c := by
  intro rest
  rw [bind_read, List.append_assoc, h]
  exact hf rest

theorem map (h : x.Reads bytes a) (g : α → β) : (g <$> x).Reads bytes (g a) := by
  intro rest
  change (x.read (bytes ++ rest)).bind _ = _
  rw [h]
  rfl

theorem cut (h : x.Reads bytes a) {n : Nat} (hn : n < bytes.length) :
    x.read (bytes.take n) = none := by
  cases hr : x.read (bytes.take n) with
  | none => rfl
  | some p =>
    obtain ⟨used, hused, hall⟩ := x.front hr
    have hwhole : bytes = used ++ (p.2 ++ bytes.drop n) := by
      rw [← List.append_assoc, ← hused, List.take_append_drop]
    have hread := hall (p.2 ++ bytes.drop n)
    rw [← hwhole, ← bytes.append_nil, h []] at hread
    have hrest := congrArg List.length (Prod.mk.inj (Option.some.inj hread)).2
    simp only [List.length_nil, List.length_append, List.length_drop, List.append_nil] at hrest
    omega

end Reads

def times (x : Reader α) : Nat → Reader (List α)
  | 0 => pure []
  | n + 1 => do return (← x) :: (← x.times n)

theorem reads_times {x : Reader α} {enc : α → Bytes} : ∀ {l : List α},
    (∀ a ∈ l, x.Reads (enc a) a) → (x.times l.length).Reads (l.flatMap enc) l
  | [], _ => reads_pure []
  | a :: as, h => by
    have hrest := (reads_times fun b hb => h b (List.mem_cons_of_mem a hb)).bind
      (f := fun as => pure (a :: as)) (reads_pure _)
    rw [List.append_nil] at hrest
    exact (h a (by simp)).bind hrest

/-- Reads one value after the other, and returns them with the number of bytes read. -/
def readAll (x : Reader α) : Nat → Bytes → List α × Nat
  | 0, _ => ([], 0)
  | fuel + 1, input =>
    match x.read input with
    | none => ([], 0)
    | some (a, rest) =>
      let (as, n) := x.readAll fuel rest
      (a :: as, (input.length - rest.length) + n)

theorem readAll_stream {x : Reader β} {enc : α → Bytes} {g : α → β} {tail : Bytes}
    (htail : x.read tail = none) : ∀ {as : List α} {n : Nat},
    (∀ a ∈ as, x.Reads (enc a) (g a) ∧ enc a ≠ []) → (as.flatMap enc ++ tail).length ≤ n →
    x.readAll n (as.flatMap enc ++ tail) = (as.map g, (as.flatMap enc).length)
  | [], fuel, _, _ => by
    cases fuel with
    | zero => rfl
    | succ fuel => simp [readAll, htail]
  | a :: as, fuel, h, hfuel => by
    obtain ⟨⟨hread, hne⟩, has⟩ := List.forall_mem_cons.mp h
    have hpos := List.length_pos_of_ne_nil hne
    simp only [List.flatMap_cons, List.append_assoc, List.length_append] at hfuel
    cases fuel with
    | zero => omega
    | succ fuel =>
      have hrest := readAll_stream (n := fuel) htail has (by
        simp only [List.length_append]
        omega)
      simp only [List.flatMap_cons, List.append_assoc, readAll, hread _, hrest, List.map_cons,
        List.length_append, Nat.add_sub_cancel]

end Reader

def put (bytes : Bytes) (room : Nat) : Option Bytes :=
  if bytes.length ≤ room then some bytes else none

def writeAll : List (Nat → Option Bytes) → Nat → Option Bytes
  | [], _ => some []
  | w :: ws, room => do
    let bytes ← w room
    let more ← writeAll ws (room - bytes.length)
    return bytes ++ more

theorem writeAll_put (parts : List Bytes) (room : Nat) :
    writeAll (parts.map put) room = put parts.flatten room := by
  induction parts generalizing room with
  | nil => simp [writeAll, put]
  | cons p parts ih =>
    simp only [List.map_cons, writeAll, ih, List.flatten_cons]
    by_cases hp : p.length ≤ room
    · simp only [put, if_pos hp, List.length_append, Option.bind_eq_bind, Option.bind_some]
      by_cases hall : p.length + parts.flatten.length ≤ room
      · rw [if_pos (by omega), if_pos hall]
        rfl
      · rw [if_neg (by omega), if_neg hall]
        rfl
    · simp only [put, if_neg hp, List.length_append]
      rw [if_neg (by omega)]
      rfl

end ExchangeSim
