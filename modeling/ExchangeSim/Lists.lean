import Mathlib.Tactic
import Mathlib.Data.List.Sort

namespace ExchangeSim

open List Function

variable {α β ε : Type}

theorem map_eq_self {f : α → α} {xs : List α} (h : ∀ x ∈ xs, f x = x) : xs.map f = xs := by
  calc xs.map f = xs.map id := map_congr_left h
    _ = xs := map_id xs

theorem pairwise_middle_iff {r : α → α → Prop} {A B : List α} {x : α} :
    (A ++ x :: B).Pairwise r ↔
      (A ++ B).Pairwise r ∧ (∀ a ∈ A, r a x) ∧ ∀ b ∈ B, r x b := by
  simp only [pairwise_append, pairwise_cons, mem_cons]
  constructor
  · rintro ⟨hA, ⟨hx, hB⟩, hAB⟩
    exact ⟨⟨hA, hB, fun a ha b hb => hAB a ha b (Or.inr hb)⟩,
      fun a ha => hAB a ha x (Or.inl rfl), hx⟩
  · rintro ⟨⟨hA, hB, hAB⟩, hax, hxb⟩
    refine ⟨hA, ⟨hxb, hB⟩, ?_⟩
    rintro a ha b (rfl | hb)
    · exact hax a ha
    · exact hAB a ha b hb

theorem pairwise_orderedInsert {r : α → α → Prop} [DecidableRel r]
    (trans : ∀ a b c, r a b → r b c → r a c) {x : α} {xs : List α} (sorted : xs.Pairwise r)
    (comparable : ∀ y ∈ xs, r x y ∨ r y x) : (xs.orderedInsert r x).Pairwise r := by
  induction xs with
  | nil => simp
  | cons y ys ih =>
    obtain ⟨hy, hys⟩ := pairwise_cons.mp sorted
    by_cases hxy : r x y
    · rw [orderedInsert_cons_of_le _ ys hxy]
      refine pairwise_cons.mpr ⟨?_, sorted⟩
      intro z hz
      rcases mem_cons.mp hz with rfl | hz
      · exact hxy
      · exact trans x y z hxy (hy z hz)
    · have hyx : r y x := (comparable y (by simp)).resolve_left hxy
      rw [orderedInsert_of_not_le r ys hxy]
      refine pairwise_cons.mpr ⟨?_, ih hys fun z hz => comparable z (by simp [hz])⟩
      intro z hz
      rcases mem_orderedInsert r |>.mp hz with rfl | hz
      · exact hyx
      · exact hy z hz

theorem exists_orderedInsert_split (r : α → α → Prop) [DecidableRel r] (x : α) (xs : List α) :
    ∃ A B, xs = A ++ B ∧ xs.orderedInsert r x = A ++ x :: B :=
  ⟨_, _, (takeWhile_append_dropWhile (p := fun y => decide ¬r x y) (l := xs)).symm,
    orderedInsert_eq_take_drop r x xs⟩

theorem subperm_nodup {xs ys : List α} (h : xs.Subperm ys) (hn : ys.Nodup) : xs.Nodup := by
  obtain ⟨zs, hperm, hsub⟩ := h
  exact hperm.nodup_iff.mp (hsub.nodup hn)

theorem subperm_map {xs ys : List α} (h : xs.Subperm ys) (f : α → β) :
    (xs.map f).Subperm (ys.map f) := by
  obtain ⟨zs, hperm, hsub⟩ := h
  exact ⟨zs.map f, hperm.map f, hsub.map f⟩

/-- A property of every entry of a history and of the history before it. -/
def Along (P : List ε → ε → Prop) (h : List ε) : Prop :=
  ∀ pre x post, h = pre ++ x :: post → P pre x

theorem along_nil (P : List ε → ε → Prop) : Along P [] := by
  intro pre x post h
  simp at h

theorem along_concat {P : List ε → ε → Prop} {h : List ε} {x : ε} :
    Along P (h ++ [x]) ↔ Along P h ∧ P h x := by
  constructor
  · intro hall
    refine ⟨fun pre y post he => hall pre y (post ++ [x]) (by simp [he]), hall h x [] rfl⟩
  · rintro ⟨hall, hx⟩ pre y post he
    rcases eq_nil_or_concat post with rfl | ⟨post, z, rfl⟩
    · obtain ⟨rfl, hy⟩ := append_inj' he rfl
      obtain rfl : x = y := by simpa using hy
      exact hx
    · have he' : h ++ [x] = (pre ++ y :: post) ++ [z] := by simpa using he
      obtain ⟨hh, -⟩ := append_inj' he' rfl
      exact hall pre y post hh

/-- The sum over the entries of a list, numbered from `n`, whose numbers are not struck out. -/
def liveSum (struck : List Nat) (f : α → Int) : List α → Nat → Int
  | [], _ => 0
  | x :: xs, n => (if n ∈ struck then 0 else f x) + liveSum struck f xs (n + 1)

section liveSum

variable {struck : List Nat} {f g : α → Int}

theorem liveSum_concat (xs : List α) (x : α) (n : Nat) : liveSum struck f (xs ++ [x]) n =
    liveSum struck f xs n + if n + xs.length ∈ struck then 0 else f x := by
  induction xs generalizing n with
  | nil => simp [liveSum]
  | cons y xs ih =>
    have hlen : n + 1 + xs.length = n + (y :: xs).length := by simp; omega
    rw [cons_append, liveSum, ih, liveSum, hlen, add_assoc]

theorem liveSum_congr {xs : List α} (h : ∀ x ∈ xs, f x = g x) (n : Nat) :
    liveSum struck f xs n = liveSum struck g xs n := by
  induction xs generalizing n with
  | nil => rfl
  | cons x xs ih =>
    rw [liveSum, liveSum, h x (by simp), ih fun y hy => h y (by simp [hy])]

theorem liveSum_strike_before {k n : Nat} (h : k < n) (xs : List α) :
    liveSum (k :: struck) f xs n = liveSum struck f xs n := by
  induction xs generalizing n with
  | nil => rfl
  | cons x xs ih =>
    have hne : n ≠ k := by omega
    rw [liveSum, liveSum, ih (by omega)]
    simp [hne]

theorem liveSum_strike {xs : List α} {i n : Nat} {x : α} (hx : xs[i]? = some x)
    (h : n + i ∉ struck) : liveSum ((n + i) :: struck) f xs n = liveSum struck f xs n - f x := by
  induction xs generalizing i n with
  | nil => simp at hx
  | cons y xs ih =>
    cases i with
    | zero =>
      obtain rfl : y = x := by simpa using hx
      rw [liveSum, liveSum, liveSum_strike_before (by omega)]
      simp only [add_zero] at h
      simp [h]
    | succ i =>
      have hstep : n + (i + 1) = n + 1 + i := by omega
      have hne : n ≠ n + 1 + i := by omega
      rw [hstep] at h ⊢
      rw [liveSum, liveSum, ih (by simpa using hx) h]
      simp [hne, add_sub_assoc]

theorem liveSum_eq_zero {xs : List α} (h : ∀ x ∈ xs, f x = 0) (n : Nat) :
    liveSum struck f xs n = 0 := by
  induction xs generalizing n with
  | nil => rfl
  | cons x xs ih =>
    rw [liveSum, h x (by simp), ite_self, zero_add]
    exact ih (fun y hy => h y (by simp [hy])) _

theorem sum_liveSum {ι : Type} (s : Finset ι) (f : ι → α → Int) (xs : List α) (n : Nat) :
    ∑ i ∈ s, liveSum struck (f i) xs n = liveSum struck (fun x => ∑ i ∈ s, f i x) xs n := by
  induction xs generalizing n with
  | nil => simp [liveSum]
  | cons x xs ih =>
    simp only [liveSum, Finset.sum_add_distrib, ih]
    split <;> simp

end liveSum

/-- The sum over the entries of a table up to a number. -/
def tally (f : α → Int) (v : Nat → Option α) (n : Nat) : Int :=
  ∑ i ∈ Finset.range n, (v i).elim 0 f

section tally

variable {f : α → Int} {v : Nat → Option α} {i n : Nat}

theorem tally_update (hi : i < n) (y : Option α) :
    tally f (update v i y) n = tally f v n - (v i).elim 0 f + y.elim 0 f := by
  have hin : i ∈ Finset.range n := Finset.mem_range.mpr hi
  have hnew := Finset.add_sum_erase _ (fun j => (update v i y j).elim 0 f) hin
  have hold := Finset.add_sum_erase _ (fun j => (v j).elim 0 f) hin
  have hrest : ∑ j ∈ (Finset.range n).erase i, (update v i y j).elim 0 f =
      ∑ j ∈ (Finset.range n).erase i, (v j).elim 0 f :=
    Finset.sum_congr rfl fun j hj => by rw [update_of_ne (Finset.ne_of_mem_erase hj)]
  simp only [update_self] at hnew
  simp only [tally]
  omega

theorem tally_push (y : Option α) :
    tally f (update v n y) (n + 1) = tally f v n + y.elim 0 f := by
  have hrest : ∑ j ∈ Finset.range n, (update v n y j).elim 0 f =
      ∑ j ∈ Finset.range n, (v j).elim 0 f :=
    Finset.sum_congr rfl fun j hj => by
      rw [update_of_ne (Finset.mem_range.mp hj).ne]
  rw [tally, Finset.sum_range_succ, hrest, update_self, tally]

theorem tally_none : tally f (fun _ => none) n = 0 := by
  simp [tally]

theorem tally_nonneg (h : ∀ i x, v i = some x → 0 ≤ f x) : 0 ≤ tally f v n := by
  refine Finset.sum_nonneg fun i _ => ?_
  cases hv : v i with
  | none => exact le_rfl
  | some x => exact h i x hv

end tally

end ExchangeSim
