import Mathlib.Algebra.Order.BigOperators.Group.List
import Mathlib.Tactic

/-!
Lists of grants: what each key has been given so far, in the order in which the keys first came
up. A walk goes once over a list of items and gives to some of them what is still to be given.
-/

namespace ExchangeSim

open List

abbrev Grants := List (Nat × Int)

namespace Grants

/-- The entry of the key grows, or there is a new entry at the end. -/
def add (k : Nat) (q : Int) : Grants → Grants
  | [] => [(k, q)]
  | (j, r) :: g => if j = k then (j, r + q) :: g else (j, r) :: add k q g

def of (k : Nat) : Grants → Int
  | [] => 0
  | (j, r) :: g => if j = k then r else of k g

def keys (g : Grants) : List Nat :=
  g.map Prod.fst

def total (g : Grants) : Int :=
  (g.map Prod.snd).sum

variable {g : Grants} {k j : Nat} {q : Int}

@[simp] theorem total_nil : total [] = 0 := rfl

@[simp] theorem total_cons (e : Nat × Int) (g : Grants) : total (e :: g) = e.2 + total g := by
  simp [total]

@[simp] theorem keys_cons (e : Nat × Int) (g : Grants) : keys (e :: g) = e.1 :: keys g := rfl

theorem add_of_not_mem (h : k ∉ g.keys) : g.add k q = g ++ [(k, q)] := by
  induction g with
  | nil => rfl
  | cons e g ih =>
    obtain ⟨j, r⟩ := e
    have hne : j ≠ k := fun he => h (he ▸ mem_cons_self)
    simp only [add, if_neg hne, cons_append]
    rw [ih fun hk => h (mem_cons_of_mem _ hk)]

@[simp] theorem total_add (k : Nat) (q : Int) (g : Grants) : (g.add k q).total = g.total + q := by
  induction g with
  | nil => simp [add]
  | cons e g ih =>
    unfold add
    split
    · simp only [total_cons]
      omega
    · simp only [total_cons, ih]
      omega

theorem of_add (k : Nat) (q : Int) (g : Grants) (j : Nat) :
    (g.add k q).of j = if j = k then g.of k + q else g.of j := by
  induction g with
  | nil =>
    by_cases hj : j = k
    · simp [add, of, hj]
    · simp [add, of, hj, Ne.symm hj]
  | cons e g ih =>
    obtain ⟨i, r⟩ := e
    by_cases hi : i = k
    · subst hi
      by_cases hj : j = i
      · simp [add, of, hj]
      · simp [add, of, hj, Ne.symm hj]
    · by_cases hij : i = j
      · subst hij
        simp [add, of, hi]
      · simp [add, hi, of, hij, ih]

@[simp] theorem of_add_self (k : Nat) (q : Int) (g : Grants) : (g.add k q).of k = g.of k + q := by
  simp [of_add]

theorem of_add_of_ne (h : j ≠ k) : (g.add k q).of j = g.of j := by
  simp [of_add, h]

theorem of_eq_zero (h : k ∉ g.keys) : g.of k = 0 := by
  induction g with
  | nil => rfl
  | cons e g ih =>
    simp only [keys_cons, List.mem_cons, not_or] at h
    simp only [of, Ne.symm h.1, if_false]
    exact ih h.2

theorem of_eq_of_mem (hn : g.keys.Nodup) (h : (k, q) ∈ g) : g.of k = q := by
  induction g with
  | nil => simp at h
  | cons e g ih =>
    obtain ⟨hk, hn⟩ := List.nodup_cons.mp hn
    rcases List.mem_cons.mp h with rfl | h
    · simp [of]
    · have hne : e.1 ≠ k := fun he => hk (he ▸ mem_map.mpr ⟨_, h, rfl⟩)
      simp only [of, hne, if_false]
      exact ih hn h

theorem mem_keys_add : j ∈ (g.add k q).keys ↔ j = k ∨ j ∈ g.keys := by
  induction g with
  | nil => simp [add, keys]
  | cons e g ih =>
    unfold add
    split
    next he => simp [he]
    next => simp only [keys_cons, List.mem_cons, ih, or_left_comm]

theorem nodup_add (h : g.keys.Nodup) : (g.add k q).keys.Nodup := by
  induction g with
  | nil => simp [add, keys]
  | cons e g ih =>
    obtain ⟨hk, hn⟩ := List.nodup_cons.mp h
    unfold add
    split
    · exact h
    next he =>
      refine List.nodup_cons.mpr ⟨fun hm => ?_, ih hn⟩
      rcases mem_keys_add.mp hm with hm | hm
      · exact he hm
      · exact hk hm

theorem mem_add {e : Nat × Int} (hn : g.keys.Nodup) (h : e ∈ g.add k q) :
    e ∈ g ∨ e = (k, g.of k + q) := by
  have hq := of_eq_of_mem (nodup_add hn) (show (e.1, e.2) ∈ g.add k q from h)
  by_cases hk : e.1 = k
  · right
    rw [hk, of_add_self] at hq
    exact Prod.ext hk hq.symm
  · left
    clear hq hn
    induction g with
    | nil =>
      obtain rfl : e = (k, q) := by simpa [add] using h
      exact absurd rfl hk
    | cons d g ih =>
      unfold add at h
      split at h
      next hd =>
        rcases List.mem_cons.mp h with rfl | h
        · exact absurd hd hk
        · exact mem_cons_of_mem _ h
      next =>
        rcases List.mem_cons.mp h with rfl | h
        · exact mem_cons_self
        · exact mem_cons_of_mem _ (ih h)

theorem exists_split_of_pair {α : Type} {a b : α} {xs : List α} (h : [a, b].Sublist xs) :
    ∃ as bs cs, xs = as ++ a :: (bs ++ b :: cs) := by
  obtain ⟨ys, zs, rfl, ha, hb⟩ := cons_sublist_iff.mp h
  obtain ⟨as, bs, rfl⟩ := append_of_mem ha
  obtain ⟨bs', cs, rfl⟩ := append_of_mem (singleton_sublist.mp hb)
  exact ⟨as, bs ++ bs', cs, by simp⟩

section items

variable {α : Type} (key : α → Nat) (cap : α → Int)

structure On (xs : List α) (g : Grants) : Prop where
  nodup : g.keys.Nodup
  named : ∀ k ∈ g.keys, ∃ x ∈ xs, key x = k

/-- No entry is empty, and no item is given more than it can take. -/
structure Within (xs : List α) (g : Grants) : Prop extends On key xs g where
  positive : ∀ e ∈ g, 0 < e.2
  capped : ∀ x ∈ xs, g.of (key x) ≤ cap x

def room (g : Grants) (x : α) : Int :=
  cap x - g.of (key x)

variable {key cap} {xs : List α} {x : α}

theorem On.nil (xs : List α) : On key xs [] :=
  ⟨by simp [keys], by simp [keys]⟩

theorem Within.nil (h : ∀ x ∈ xs, 0 ≤ cap x) : Within key cap xs [] :=
  ⟨On.nil xs, by simp, h⟩

theorem On.add (h : On key xs g) (hx : x ∈ xs) : On key xs (g.add (key x) q) := by
  refine ⟨nodup_add h.nodup, fun k hk => ?_⟩
  rcases mem_keys_add.mp hk with rfl | hk
  · exact ⟨x, hx, rfl⟩
  · exact h.named k hk

theorem On.length_le (h : On key xs g) : g.length ≤ xs.length := by
  have hsub : g.keys ⊆ xs.map key := fun k hk => by
    obtain ⟨x, hx, rfl⟩ := h.named k hk
    exact mem_map.mpr ⟨x, hx, rfl⟩
  simpa [keys] using (h.nodup.subperm hsub).length_le

theorem of_nonneg (h : ∀ e ∈ g, 0 < e.2) (k : Nat) : 0 ≤ g.of k := by
  induction g with
  | nil => exact le_rfl
  | cons e g ih =>
    unfold of
    split
    · exact (h e (by simp)).le
    · exact ih fun e he => h e (by simp [he])

theorem of_pos_of_mem (hn : g.keys.Nodup) (h : ∀ e ∈ g, 0 < e.2) (hk : k ∈ g.keys) :
    0 < g.of k := by
  obtain ⟨e, he, rfl⟩ := mem_map.mp hk
  rw [of_eq_of_mem hn (show (e.1, e.2) ∈ g from he)]
  exact h e he

theorem Within.room_nonneg (h : Within key cap xs g) (hx : x ∈ xs) : 0 ≤ g.room key cap x := by
  have := h.capped x hx
  unfold room
  omega

theorem Within.room_le (h : Within key cap xs g) (x : α) : g.room key cap x ≤ cap x := by
  have := of_nonneg h.positive (key x)
  unfold room
  omega

theorem Within.add (h : Within key cap xs g) (hx : x ∈ xs)
    (hpos : 0 < q ∨ q = 0 ∧ key x ∈ g.keys) (hq : q ≤ g.room key cap x)
    (hn : (xs.map key).Nodup) : Within key cap xs (g.add (key x) q) := by
  refine ⟨h.toOn.add hx, fun e he => ?_, fun y hy => ?_⟩
  · rcases mem_add h.nodup he with he | rfl
    · exact h.positive e he
    · rcases hpos with hpos | ⟨rfl, hk⟩
      · have := of_nonneg h.positive (key x)
        omega
      · simpa using of_pos_of_mem h.nodup h.positive hk
  · by_cases hk : key y = key x
    · obtain rfl := inj_on_of_nodup_map hn hy hx hk
      unfold room at hq
      rw [of_add_self]
      omega
    · rw [of_add_of_ne hk]
      exact h.capped y hy

theorem total_eq_sum (h : On key xs g) (hn : (xs.map key).Nodup) :
    g.total = (xs.map fun x => g.of (key x)).sum := by
  induction g generalizing xs with
  | nil => simp [of, total]
  | cons e g ih =>
    obtain ⟨k, q⟩ := e
    obtain ⟨hk, hnodup⟩ := List.nodup_cons.mp h.nodup
    obtain ⟨x, hx, rfl⟩ := h.named k (by simp)
    obtain ⟨as, bs, rfl⟩ := append_of_mem hx
    have hout : ∀ y ∈ as ++ bs, key y ≠ key x := by
      have hperm : ((as ++ x :: bs).map key).Perm (key x :: (as ++ bs).map key) := by
        simp [perm_middle]
      obtain ⟨hnot, -⟩ := List.nodup_cons.mp (hperm.nodup_iff.mp hn)
      exact fun y hy he => hnot (he ▸ mem_map.mpr ⟨y, hy, rfl⟩)
    have hrest : On key (as ++ bs) g := by
      refine ⟨hnodup, fun j hj => ?_⟩
      obtain ⟨y, hy, rfl⟩ := h.named j (mem_cons_of_mem _ hj)
      refine ⟨y, ?_, rfl⟩
      rcases List.mem_append.mp hy with hy | hy
      · exact mem_append_left _ hy
      · rcases List.mem_cons.mp hy with rfl | hy
        · exact absurd hj hk
        · exact mem_append_right _ hy
    have hn' : ((as ++ bs).map key).Nodup := by
      refine Nodup.sublist ?_ hn
      exact ((sublist_cons_self x bs).append_left as).map key
    have hsame : ∀ ys : List α, (∀ y ∈ ys, key y ≠ key x) →
        ys.map (fun y => of (key y) ((key x, q) :: g)) = ys.map fun y => of (key y) g :=
      fun ys hys => map_congr_left fun y hy => by
        simp [of, Ne.symm (hys y hy)]
    rw [total_cons, ih hrest hn']
    simp only [map_append, map_cons, sum_append, sum_cons,
      hsame as fun y hy => hout y (by simp [hy]), hsame bs fun y hy => hout y (by simp [hy])]
    simp only [of, if_true]
    omega

/-- One walk over the items: while there is something to give, an item is passed over or is
given some of it. -/
def walk (key : α → Nat) (give : α → Grants → Int → Option Int) :
    List α → Int → Grants → Grants × Int
  | [], r, g => (g, r)
  | x :: xs, r, g =>
    if r > 0 then
      match give x g r with
      | none => walk key give xs r g
      | some q => walk key give xs (r - q) (g.add (key x) q)
    else (g, r)

variable {give : α → Grants → Int → Option Int} {r : Int}

theorem walk_invariant {I : Grants → Int → Prop}
    (step : ∀ x ∈ xs, ∀ g r q, I g r → 0 < r → give x g r = some q → I (g.add (key x) q) (r - q))
    (h : I g r) : I (walk key give xs r g).1 (walk key give xs r g).2 := by
  induction xs generalizing g r with
  | nil => exact h
  | cons x xs ih =>
    have hstep := fun y hy => step y (mem_cons_of_mem _ hy)
    unfold walk
    split
    next hr =>
      split
      next => exact ih hstep h
      next q hq => exact ih hstep (step x (by simp) g r q h hr hq)
    next => exact h

theorem walk_total (key : α → Nat) (give : α → Grants → Int → Option Int) (xs : List α) (r : Int)
    (g : Grants) : (walk key give xs r g).1.total + (walk key give xs r g).2 = g.total + r := by
  refine walk_invariant (I := fun g' r' => g'.total + r' = g.total + r) ?_ rfl
  intro x _ g' r' q h _ _
  rw [total_add]
  omega

theorem walk_on {ys : List α} (h : On key ys g) (hsub : xs ⊆ ys) :
    On key ys (walk key give xs r g).1 :=
  walk_invariant (I := fun g _ => On key ys g) (fun _ hx _ _ _ h _ _ => h.add (hsub hx)) h

theorem walk_positive (hgive : ∀ x g r q, give x g r = some q → 0 < q) (hn : g.keys.Nodup)
    (h : ∀ e ∈ g, 0 < e.2) : ∀ e ∈ (walk key give xs r g).1, 0 < e.2 := by
  let I : Grants → Int → Prop := fun g _ => g.keys.Nodup ∧ ∀ e ∈ g, 0 < e.2
  have hall : I (walk key give xs r g).1 (walk key give xs r g).2 := walk_invariant
    (fun x _ g r q ⟨hn, hp⟩ _ hq => by
      refine ⟨nodup_add hn, fun e he => ?_⟩
      rcases mem_add hn he with he | rfl
      · exact hp e he
      · have := hgive x g r q hq
        have := of_nonneg hp (key x)
        omega) ⟨hn, h⟩
  exact hall.2

/-- A walk over items of `ys` that gives no more than it has and an item can take. -/
structure Modest (key : α → Nat) (cap : α → Int) (ys : List α)
    (give : α → Grants → Int → Option Int) : Prop where
  bounds : ∀ x ∈ ys, ∀ g r q, Within key cap ys g → 0 < r → give x g r = some q →
    (0 < q ∨ q = 0 ∧ key x ∈ g.keys) ∧ q ≤ r ∧ q ≤ room key cap g x

theorem walk_within {ys : List α} (hgive : Modest key cap ys give) (hsub : xs ⊆ ys)
    (hn : (ys.map key).Nodup) (h : Within key cap ys g) (hr : 0 ≤ r) :
    Within key cap ys (walk key give xs r g).1 ∧ 0 ≤ (walk key give xs r g).2 :=
  walk_invariant (I := fun g r => Within key cap ys g ∧ 0 ≤ r)
    (fun x hx g r q ⟨h, _⟩ hr hq => by
      obtain ⟨hpos, hle, hroom⟩ := hgive.bounds x (hsub hx) g r q h hr hq
      exact ⟨h.add (hsub hx) hpos hroom hn, by omega⟩)
    ⟨h, hr⟩

theorem walk_of_other (hk : ∀ x ∈ xs, key x ≠ k) : (walk key give xs r g).1.of k = g.of k :=
  walk_invariant (I := fun g' _ => g'.of k = g.of k)
    (fun x hx g' _ q h _ _ => by rw [of_add_of_ne (hk x hx).symm]; exact h) rfl

/-- It passes over an item only if the item can take nothing, and else gives what it can. -/
structure Greedy (key : α → Nat) (cap : α → Int) (ys : List α)
    (give : α → Grants → Int → Option Int) : Prop extends Modest key cap ys give where
  takes : ∀ x ∈ ys, ∀ g r, Within key cap ys g → 0 < r → 0 < room key cap g x →
    give x g r = some (min r (room key cap g x))

/-- A walk that passes over the items that are not selected, and else gives what it can. -/
structure GreedyFor (key : α → Nat) (cap : α → Int) (ys : List α) (select : α → Bool)
    (give : α → Grants → Int → Option Int) : Prop extends Modest key cap ys give where
  skips : ∀ x g r, select x = false → give x g r = none
  takes : ∀ x ∈ ys, ∀ g r, Within key cap ys g → 0 < r → select x = true →
    0 < room key cap g x → give x g r = some (min r (room key cap g x))

theorem Greedy.toFor {ys : List α} (h : Greedy key cap ys give) :
    GreedyFor key cap ys (fun _ => true) give :=
  ⟨h.toModest, by simp, fun x hx g r hw hr _ => h.takes x hx g r hw hr⟩

theorem walk_zero : walk key give xs 0 g = (g, 0) := by
  cases xs <;> simp [walk]

/-- Such a walk ends with nothing left to give, or every item it met that is selected has all it
can take. -/
theorem walk_full {ys : List α} {select : α → Bool} (hgive : GreedyFor key cap ys select give)
    (hsub : xs ⊆ ys) (hn : (ys.map key).Nodup) (hx : (xs.map key).Nodup)
    (h : Within key cap ys g) (hr : 0 ≤ r) :
    (walk key give xs r g).2 = 0 ∨
      ∀ x ∈ xs, select x = true → room key cap (walk key give xs r g).1 x = 0 := by
  induction xs generalizing g r with
  | nil => exact .inr (by simp)
  | cons x xs ih =>
    obtain ⟨hnot, hx⟩ := List.nodup_cons.mp hx
    obtain ⟨hmem, hsub⟩ := cons_subset.mp hsub
    have hkeep : ∀ (g' : Grants) (r' : Int), room key cap (walk key give xs r' g').1 x =
        room key cap g' x := fun g' r' => by
      have hother : ∀ y ∈ xs, key y ≠ key x := fun y hy he =>
        hnot (he ▸ mem_map.mpr ⟨y, hy, rfl⟩)
      rw [room, walk_of_other hother, room]
    have hnonneg := h.room_nonneg hmem
    unfold walk
    split
    next hr' =>
      cases hq : give x g r with
      | none =>
        refine (ih hsub hx h hr).imp_right fun hall => forall_mem_cons.mpr ⟨fun hsel => ?_, hall⟩
        have hroom : ¬0 < room key cap g x := fun hpos => by
          simp [hgive.takes x hmem g r h hr' hsel hpos] at hq
        rw [hkeep]
        omega
      | some q =>
        dsimp only
        obtain ⟨hpos, hle, hcap⟩ := hgive.bounds x hmem g r q h hr' hq
        by_cases hall : q = r
        · left
          rw [hall, sub_self, walk_zero]
        · refine (ih hsub hx (h.add hmem hpos hcap hn) (by omega)).imp_right fun hrest =>
            forall_mem_cons.mpr ⟨fun hsel => ?_, hrest⟩
          rw [hkeep]
          by_cases hroom : 0 < room key cap g x
          · have hmin : q = min r (room key cap g x) :=
              Option.some.inj (hq.symm.trans (hgive.takes x hmem g r h hr' hsel hroom))
            unfold room at hmin ⊢
            rw [of_add_self]
            omega
          · unfold room at hroom hnonneg hcap ⊢
            rw [of_add_self]
            omega
    next hr' => exact .inl (by simp only; omega)

theorem walk_total_eq (hgive : Greedy key cap xs give) (hn : (xs.map key).Nodup)
    (h : Within key cap xs g) (hr : 0 ≤ r) :
    (walk key give xs r g).1.total = min (g.total + r) (xs.map cap).sum := by
  obtain ⟨hw, hleft⟩ := walk_within hgive.toModest (Subset.refl xs) hn h hr
  have htotal := walk_total key give xs r g
  have hle : (walk key give xs r g).1.total ≤ (xs.map cap).sum := by
    rw [total_eq_sum hw.toOn hn]
    exact sum_le_sum fun x hx => hw.capped x hx
  rcases walk_full hgive.toFor (Subset.refl xs) hn hn h hr with hzero | hfull
  · omega
  · have heq : (walk key give xs r g).1.total = (xs.map cap).sum := by
      rw [total_eq_sum hw.toOn hn]
      refine congrArg sum (map_congr_left fun x hx => ?_)
      have := hfull x hx rfl
      unfold room at this
      omega
    omega

/-- A walk that gives an item all it can take, unless that is more than there is left, stops
within one item at most. -/
theorem walk_partial (hgive : ∀ x g r q, give x g r = some q → 0 < q ∧ q = min r (room key cap g x))
    (hn : (xs.map key).Nodup) : ∃ k, ∀ x ∈ xs, key x ∈ (walk key give xs r []).1.keys →
      key x ≠ k → room key cap (walk key give xs r []).1 x = 0 := by
  let full : Grants → Nat → Prop := fun g k =>
    ∀ x ∈ xs, key x ∈ g.keys → key x ≠ k → room key cap g x = 0
  let I : Grants → Int → Prop := fun g r => (∃ k, full g k) ∧ (0 < r → ∀ k, full g k)
  have hstart : I [] r := ⟨⟨0, by simp [full, keys]⟩, by simp [full, keys]⟩
  suffices hstep : ∀ x ∈ xs, ∀ g r q, I g r → 0 < r → give x g r = some q →
      I (g.add (key x) q) (r - q) from (walk_invariant hstep hstart).1
  -- what was there before the gift is full, so that only the item of the gift can have room
  intro x hx g r q hall hr hq
  obtain ⟨hpos, hmin⟩ := hgive x g r q hq
  have hother : ∀ y ∈ xs, key y ∈ (g.add (key x) q).keys → key y ≠ key x →
      room key cap (g.add (key x) q) y = 0 := by
    intro y hy hk hne
    have hk : key y ∈ g.keys := (mem_keys_add.mp hk).resolve_left hne
    rw [room, of_add_of_ne hne]
    exact hall.2 hr (key x) y hy hk hne
  refine ⟨⟨key x, hother⟩, fun hleft k y hy hk _ => ?_⟩
  by_cases hne : key y = key x
  · obtain rfl := inj_on_of_nodup_map hn hy hx hne
    unfold room at hmin ⊢
    rw [of_add_self]
    omega
  · exact hother y hy hk hne

/-- What a walk gives an item when it comes to it. -/
def gift (give : α → Grants → Int → Option Int) (x : α) (g : Grants) (r : Int) : Int :=
  if r > 0 then (give x g r).getD 0 else 0

def meet (key : α → Nat) (give : α → Grants → Int → Option Int) (x : α) (g : Grants) (r : Int) :
    Grants :=
  if r > 0 then (give x g r).elim g fun q => g.add (key x) q else g

theorem walk_of_nonpos (h : r ≤ 0) : walk key give xs r g = (g, r) := by
  cases xs <;> simp [walk, h]

theorem walk_cons (x : α) (xs : List α) : walk key give (x :: xs) r g =
    walk key give xs (r - gift give x g r) (meet key give x g r) := by
  by_cases hr : r > 0
  · simp only [walk, gift, meet, hr, if_true]
    cases give x g r <;> simp
  · rw [walk_of_nonpos (by omega)]
    simp only [gift, meet, hr, if_false, sub_zero]
    rw [walk_of_nonpos (by omega)]

theorem walk_append (xs ys : List α) : walk key give (xs ++ ys) r g =
    walk key give ys (walk key give xs r g).2 (walk key give xs r g).1 := by
  induction xs generalizing r g with
  | nil => rfl
  | cons x xs ih => rw [cons_append, walk_cons, walk_cons, ih]

theorem of_meet_self (x : α) :
    (meet key give x g r).of (key x) = g.of (key x) + gift give x g r := by
  unfold meet gift
  split
  · cases give x g r <;> simp
  · simp

theorem of_meet_of_ne (h : k ≠ key x) : (meet key give x g r).of k = g.of k := by
  unfold meet
  split
  · cases give x g r with
    | none => rfl
    | some q => exact of_add_of_ne h
  · rfl

theorem walk_keeps {I : Grants → Int → Prop}
    (step : ∀ x ∈ xs, ∀ g r q, I g r → 0 < r → give x g r = some q →
      I (g.add (key x) q) (r - q) ∧ 0 ≤ q) (h : I g r) :
    I (walk key give xs r g).1 (walk key give xs r g).2 ∧ (walk key give xs r g).2 ≤ r := by
  refine walk_invariant (I := fun g' r' => I g' r' ∧ r' ≤ r) ?_ ⟨h, le_rfl⟩
  intro x hx g' r' q ⟨h', hle⟩ hr hq
  obtain ⟨hI, hpos⟩ := step x hx g' r' q h' hr hq
  exact ⟨hI, by omega⟩

theorem meet_keeps {I : Grants → Int → Prop}
    (step : ∀ q, I g r → 0 < r → give x g r = some q → I (g.add (key x) q) (r - q)) (h : I g r) :
    I (meet key give x g r) (r - gift give x g r) := by
  unfold meet gift
  split
  next hr =>
    cases hq : give x g r with
    | none => simpa using h
    | some q => exact step q h hr hq
  next => simpa using h

theorem walk_pair {I : Grants → Int → Prop} {a b : α}
    (step : ∀ x ∈ xs, ∀ g r q, I g r → 0 < r → give x g r = some q →
      I (g.add (key x) q) (r - q) ∧ 0 ≤ q)
    (h : I g r) (hn : (xs.map key).Nodup) (hab : [a, b].Sublist xs) :
    ∃ g₁ r₁ g₂ r₂, (I g₁ r₁ ∧ I g₂ r₂ ∧ r₂ ≤ r₁ - gift give a g₁ r₁) ∧
      (g₁.of (key a) = g.of (key a) ∧ g₂.of (key b) = g.of (key b)) ∧
      (walk key give xs r g).1.of (key a) = g.of (key a) + gift give a g₁ r₁ ∧
      (walk key give xs r g).1.of (key b) = g.of (key b) + gift give b g₂ r₂ := by
  obtain ⟨as, bs, cs, rfl⟩ := exists_split_of_pair hab
  obtain ⟨hab, hother⟩ : key a ≠ key b ∧
      ∀ x ∈ as ++ bs ++ cs, key x ≠ key a ∧ key x ≠ key b := by
    have hmiddle : (as ++ bs ++ b :: cs).Perm (b :: (as ++ bs ++ cs)) := perm_middle
    have hperm : (as ++ a :: (bs ++ b :: cs)).Perm (a :: b :: (as ++ bs ++ cs)) := by
      refine perm_middle.trans (Perm.cons a ?_)
      rwa [List.append_assoc] at hmiddle
    have hn := (hperm.map key).nodup_iff.mp hn
    simp only [map_cons, List.nodup_cons, List.mem_cons, not_or] at hn
    refine ⟨hn.1.1, fun x hx => ?_⟩
    have hmem := mem_map_of_mem (f := key) hx
    exact ⟨fun he => hn.1.2 (he ▸ hmem), fun he => hn.2.1 (he ▸ hmem)⟩
  simp only [List.mem_append, or_imp, forall_and] at hother
  obtain ⟨⟨⟨hasa, hbsa⟩, hcsa⟩, ⟨hasb, hbsb⟩, hcsb⟩ := hother
  -- first the items before `a`, then `a`, then the items up to `b`, then `b`
  let w₁ := walk key give as r g
  let w₂ := walk key give bs (w₁.2 - gift give a w₁.1 w₁.2) (meet key give a w₁.1 w₁.2)
  have hI₁ : I w₁.1 w₁.2 := (walk_keeps (fun x hx => step x (by simp [hx])) h).1
  have hIa : I (meet key give a w₁.1 w₁.2) (w₁.2 - gift give a w₁.1 w₁.2) :=
    meet_keeps (fun q hI hr hq => (step a (by simp) _ _ q hI hr hq).1) hI₁
  have hI₂ : I w₂.1 w₂.2 ∧ w₂.2 ≤ w₁.2 - gift give a w₁.1 w₁.2 :=
    walk_keeps (fun x hx => step x (by simp [hx])) hIa
  refine ⟨w₁.1, w₁.2, w₂.1, w₂.2, ⟨hI₁, hI₂.1, hI₂.2⟩, ⟨walk_of_other hasa, ?_⟩, ?_, ?_⟩
  · rw [walk_of_other hbsb, of_meet_of_ne (Ne.symm hab), walk_of_other hasb]
  · rw [walk_append, walk_cons, walk_append, walk_cons, walk_of_other hcsa, of_meet_of_ne hab,
      walk_of_other hbsa, of_meet_self, walk_of_other hasa]
  · rw [walk_append, walk_cons, walk_append, walk_cons, walk_of_other hcsb, of_meet_self,
      walk_of_other hbsb, of_meet_of_ne (Ne.symm hab), walk_of_other hasb]

theorem walk_mono (hgive : Modest key cap xs give) (hn : (xs.map key).Nodup)
    (h : Within key cap xs g) (k : Nat) : g.of k ≤ (walk key give xs r g).1.of k := by
  let I : Grants → Int → Prop := fun g' _ => Within key cap xs g' ∧ g.of k ≤ g'.of k
  refine (walk_invariant (I := I) ?_ ⟨h, le_rfl⟩).2
  intro x hx g' r' q ⟨hw, hle⟩ hr hq
  obtain ⟨hpos, -, hroom⟩ := hgive.bounds x hx g' r' q hw hr hq
  refine ⟨hw.add hx hpos hroom hn, ?_⟩
  rw [of_add]
  split
  next he =>
    subst he
    omega
  next => exact hle

theorem Modest.gift_bounds {ys : List α} (hgive : Modest key cap ys give) (hx : x ∈ ys)
    (h : Within key cap ys g) (r : Int) :
    0 ≤ gift give x g r ∧ gift give x g r ≤ room key cap g x := by
  have hroom := h.room_nonneg hx
  unfold gift
  split
  next hr =>
    cases hq : give x g r with
    | none => exact ⟨le_rfl, hroom⟩
    | some q =>
      obtain ⟨hpos, -, hle⟩ := hgive.bounds x hx g r q h hr hq
      exact ⟨by simp only [Option.getD_some]; omega, hle⟩
  next => exact ⟨le_rfl, hroom⟩

theorem walk_first {select : α → Bool} {a b : α} (hgive : GreedyFor key cap xs select give)
    (hn : (xs.map key).Nodup) (h : Within key cap xs g) (hab : [a, b].Sublist xs)
    (hselect : select b = true → select a = true) :
    (walk key give xs r g).1.of (key b) = g.of (key b) ∨
      room key cap (walk key give xs r g).1 a = 0 := by
  have ha : a ∈ xs := hab.subset (by simp)
  have hstep : ∀ x ∈ xs, ∀ g r q, Within key cap xs g → 0 < r → give x g r = some q →
      Within key cap xs (g.add (key x) q) ∧ 0 ≤ q := by
    intro x hx g r q hw hr hq
    obtain ⟨hpos, -, hroom⟩ := hgive.bounds x hx g r q hw hr hq
    exact ⟨hw.add hx hpos hroom hn, by omega⟩
  obtain ⟨g₁, r₁, g₂, r₂, ⟨hw₁, hw₂, hle⟩, ⟨ha₁, hb₂⟩, haw, hbw⟩ :=
    walk_pair (r := r) hstep h hn hab
  by_cases hgift : gift give b g₂ r₂ = 0
  · exact .inl (by omega)
  · have hr₂ : 0 < r₂ := by
      by_contra hno
      exact hgift (by simp [gift, hno])
    have hsel : select b = true := by
      by_contra hno
      exact hgift (by simp [gift, hgive.skips b g₂ r₂ (by simpa using hno)])
    obtain ⟨hlow, hhigh⟩ := hgive.gift_bounds ha hw₁ r₁
    have hafter : room key cap (walk key give xs r g).1 a =
        room key cap g₁ a - gift give a g₁ r₁ := by
      unfold room
      omega
    rcases eq_or_lt_of_le (hw₁.room_nonneg ha) with hfull | hpos
    · omega
    · have hr₁ : r₁ > 0 := by omega
      have htakes : gift give a g₁ r₁ = min r₁ (room key cap g₁ a) := by
        simp [gift, hr₁, hgive.takes a ha g₁ r₁ hw₁ hr₁ (hselect hsel) hpos]
      omega

theorem walk_ahead {select : α → Bool} {a b : α} (hgive : GreedyFor key cap xs select give)
    (hn : (xs.map key).Nodup) (h : Within key cap xs g) (hab : [a, b].Sublist xs)
    (hselect : select b = true → select a = true) (hcap : cap a = cap b) (hr : 0 ≤ r)
    (hle : g.of (key b) ≤ g.of (key a)) :
    (walk key give xs r g).1.of (key b) ≤ (walk key give xs r g).1.of (key a) := by
  rcases walk_first (r := r) hgive hn h hab hselect with hsame | hfull
  · have := walk_mono (r := r) hgive.toModest hn h (key a)
    omega
  · have hw := (walk_within hgive.toModest (Subset.refl xs) hn h hr).1
    have := hw.capped b (hab.subset (by simp))
    unfold room at hfull
    omega

theorem sum_of_add (hn : (xs.map key).Nodup) (hx : x ∈ xs) (q : Int) :
    (xs.map fun y => (g.add (key x) q).of (key y)).sum = (xs.map fun y => g.of (key y)).sum + q := by
  obtain ⟨as, bs, rfl⟩ := append_of_mem hx
  have hperm : ((as ++ x :: bs).map key).Perm (key x :: (as ++ bs).map key) := by
    simp [perm_middle]
  obtain ⟨hnot, -⟩ := List.nodup_cons.mp (hperm.nodup_iff.mp hn)
  have hsame : ∀ y ∈ as ++ bs, (g.add (key x) q).of (key y) = g.of (key y) := fun y hy =>
    of_add_of_ne fun he => hnot (he ▸ mem_map_of_mem hy)
  have has := map_congr_left fun y (hy : y ∈ as) => hsame y (mem_append_left _ hy)
  have hbs := map_congr_left fun y (hy : y ∈ bs) => hsame y (mem_append_right _ hy)
  simp only [map_append, map_cons, sum_append, sum_cons, of_add_self, has, hbs]
  omega

theorem walk_selected {select : α → Bool} (hgive : GreedyFor key cap xs select give)
    (hn : (xs.map key).Nodup) (h : Within key cap xs g) (hr : 0 ≤ r) :
    min (((xs.filter select).map fun x => g.of (key x)).sum + r) ((xs.filter select).map cap).sum ≤
      ((xs.filter select).map fun x => (walk key give xs r g).1.of (key x)).sum := by
  have hns : ((xs.filter select).map key).Nodup := (filter_sublist.map key).nodup hn
  let given : Grants → Int := fun g => ((xs.filter select).map fun x => g.of (key x)).sum
  have hgiven : given (walk key give xs r g).1 + (walk key give xs r g).2 = given g + r := by
    refine walk_invariant (I := fun g' r' => given g' + r' = given g + r) ?_ rfl
    intro x hx g' r' q h' _ hq
    have hsel : select x = true := by
      by_contra hno
      simp [hgive.skips x g' r' (by simpa using hno)] at hq
    have hadd : given (g'.add (key x) q) = given g' + q :=
      sum_of_add hns (mem_filter.mpr ⟨hx, hsel⟩) q
    omega
  change min (given g + r) _ ≤ given _
  rcases walk_full hgive (Subset.refl xs) hn hn h hr with hzero | hfull
  · omega
  · refine (min_le_right _ _).trans (le_of_eq ?_)
    refine congrArg sum (map_congr_left fun x hx => ?_)
    obtain ⟨hx, hsel⟩ := mem_filter.mp hx
    have := hfull x hx hsel
    unfold room at this
    omega

theorem walk_ones (hgive : ∀ x g r, give x g r = some 1) (hr : 0 ≤ r) (hlen : r ≤ xs.length) :
    (walk key give xs r g).2 = 0 := by
  induction xs generalizing g r with
  | nil =>
    simp only [length_nil, Nat.cast_zero] at hlen
    simp only [walk]
    omega
  | cons x xs ih =>
    simp only [List.length_cons, Nat.cast_add, Nat.cast_one] at hlen
    unfold walk
    split
    next hpos =>
      rw [hgive]
      exact ih (by omega) (by omega)
    next hpos =>
      omega

theorem walk_ones_at (hgive : ∀ x g r, give x g r = some 1) (hn : (xs.map key).Nodup) (i : Nat)
    (hi : i < xs.length) : (walk key give xs r g).1.of (key xs[i]) =
      g.of (key xs[i]) + if (i : Int) < r then 1 else 0 := by
  induction xs generalizing g r i with
  | nil => simp at hi
  | cons x xs ih =>
    obtain ⟨hnot, hn⟩ := List.nodup_cons.mp hn
    by_cases hr : r > 0
    · have hwalk : walk key give (x :: xs) r g = walk key give xs (r - 1) (g.add (key x) 1) := by
        simp [walk, hr, hgive]
      rw [hwalk]
      cases i with
      | zero =>
        have hother : ∀ y ∈ xs, key y ≠ key x := fun y hy he =>
          hnot (he ▸ mem_map_of_mem hy)
        simp only [getElem_cons_zero]
        rw [walk_of_other hother, of_add_self, if_pos (by exact_mod_cast hr)]
      | succ i =>
        have hlen : i < xs.length := by simpa using hi
        have hne : key xs[i] ≠ key x := fun he => hnot (he ▸ mem_map_of_mem (xs.getElem_mem hlen))
        simp only [getElem_cons_succ]
        rw [ih hn i hlen, of_add_of_ne hne]
        split <;> split <;> omega
    · rw [walk_of_nonpos (by omega), if_neg (by omega), add_zero]

theorem walk_ones_of (hgive : ∀ x g r, give x g r = some 1) (hn : (xs.map key).Nodup) (k : Nat) :
    (walk key give xs r g).1.of k ≤ g.of k + 1 := by
  induction xs generalizing g r with
  | nil => simp [walk]
  | cons x xs ih =>
    obtain ⟨hnot, hn⟩ := List.nodup_cons.mp hn
    unfold walk
    split
    next =>
      rw [hgive]
      by_cases hk : key x = k
      · have hother : ∀ y ∈ xs, key y ≠ k := fun y hy he =>
          hnot (hk ▸ he ▸ mem_map.mpr ⟨y, hy, rfl⟩)
        rw [walk_of_other hother, ← hk, of_add_self]
      · have := ih hn (g := g.add (key x) 1) (r := r - 1)
        rwa [of_add_of_ne (Ne.symm hk)] at this
    next =>
      simp only
      omega

/-- It gives what a greedy walk gives exactly where every item but the last that it comes to can
take one only. -/
theorem walk_ones_eq_iff {ones : α → Grants → Int → Option Int} {ys : List α}
    (hones : ∀ x g r, ones x g r = some 1) (hgive : Greedy key cap ys give) (hsub : xs ⊆ ys)
    (hn : (ys.map key).Nodup) (hx : (xs.map key).Nodup) (h : Within key cap ys g)
    (hroom : ∀ x ∈ xs, 0 < room key cap g x) :
    (∀ x ∈ xs, (walk key give xs r g).1.of (key x) = (walk key ones xs r g).1.of (key x)) ↔
      ∀ x ∈ xs.take (r - 1).toNat, room key cap g x = 1 := by
  induction xs generalizing g r with
  | nil => simp
  | cons x xs ih =>
    obtain ⟨hnot, hx⟩ := List.nodup_cons.mp hx
    have hmem : x ∈ ys := hsub (by simp)
    have hother : ∀ y ∈ xs, key y ≠ key x := fun y hy he => hnot (he ▸ mem_map_of_mem hy)
    by_cases hr : r > 0
    swap
    · have hnone : (r - 1).toNat = 0 := by omega
      simp [walk_of_nonpos (le_of_not_gt hr), hnone]
    have hpos := hroom x (by simp)
    have htakes := hgive.takes x hmem g r h hr hpos
    have hgreedy : walk key give (x :: xs) r g =
        walk key give xs (r - min r (room key cap g x))
          (g.add (key x) (min r (room key cap g x))) := by
      simp [walk, hr, htakes]
    have hwalk : walk key ones (x :: xs) r g = walk key ones xs (r - 1) (g.add (key x) 1) := by
      simp [walk, hr, hones]
    have hhead : (walk key give (x :: xs) r g).1.of (key x) =
        (walk key ones (x :: xs) r g).1.of (key x) ↔ min r (room key cap g x) = 1 := by
      rw [hgreedy, hwalk, walk_of_other hother, walk_of_other hother, of_add_self, of_add_self]
      omega
    -- where the first item gets one from both, the two walks go on alike
    have htail : min r (room key cap g x) = 1 →
        ((∀ y ∈ xs, (walk key give (x :: xs) r g).1.of (key y) =
          (walk key ones (x :: xs) r g).1.of (key y)) ↔
            ∀ y ∈ xs.take (r - 1 - 1).toNat, room key cap g y = 1) := by
      intro hone
      have hsame : ∀ y ∈ xs, room key cap (g.add (key x) 1) y = room key cap g y := fun y hy => by
        unfold room
        rw [of_add_of_ne (hother y hy)]
      have hnext := ih (r := r - 1) (fun y hy => hsub (by simp [hy])) hx
        (h.add hmem (.inl one_pos) (by omega) hn) fun y hy => by
          rw [hsame y hy]
          exact hroom y (by simp [hy])
      rw [hgreedy, hwalk, hone, hnext]
      refine forall₂_congr fun y hy => ?_
      rw [hsame y (mem_of_mem_take hy)]
    rw [forall_mem_cons, hhead]
    by_cases hlast : r = 1
    · have hone : min r (room key cap g x) = 1 := by omega
      have hnone : (r - 1 - 1).toNat = 0 := by omega
      have hnone' : (r - 1).toNat = 0 := by omega
      simp [htail hone, hone, hnone, hnone']
    · have hsucc : (r - 1).toNat = (r - 1 - 1).toNat + 1 := by omega
      rw [hsucc, take_succ_cons, forall_mem_cons]
      constructor
      · rintro ⟨hone, hrest⟩
        exact ⟨by omega, (htail hone).mp hrest⟩
      · rintro ⟨hone, hrest⟩
        have hmin : min r (room key cap g x) = 1 := by omega
        exact ⟨hmin, (htail hmin).mpr hrest⟩

theorem Greedy.gift_eq {ys : List α} (hgive : Greedy key cap ys give) (hx : x ∈ ys)
    (h : Within key cap ys g) (hr : 0 < r) (hq : give x g r = some q) :
    q = min r (room key cap g x) := by
  rcases lt_or_ge 0 (room key cap g x) with hroom | hroom
  · rw [hgive.takes x hx g r h hr hroom] at hq
    exact (Option.some.inj hq).symm
  · obtain ⟨hpos, -, hle⟩ := hgive.bounds x hx g r q h hr hq
    omega

def Lots (L : Int) (g : Grants) : Prop :=
  ∀ e ∈ g, L ∣ e.2

variable {L : Int}

theorem Lots.of (h : Lots L g) (k : Nat) : L ∣ g.of k := by
  induction g with
  | nil => exact dvd_zero L
  | cons e g ih =>
    obtain ⟨j, q⟩ := e
    unfold Grants.of
    split
    · exact h (j, q) (by simp)
    · exact ih fun e he => h e (by simp [he])

theorem Lots.total (h : Lots L g) : L ∣ g.total :=
  dvd_sum fun q hq => by
    obtain ⟨e, he, rfl⟩ := mem_map.mp hq
    exact h e he

theorem Lots.add (h : Lots L g) (hq : L ∣ q) : Lots L (g.add k q) := by
  induction g with
  | nil => simpa [Lots, Grants.add] using hq
  | cons e g ih =>
    obtain ⟨hr, hg⟩ := forall_mem_cons.mp h
    unfold Grants.add
    split
    · exact forall_mem_cons.mpr ⟨dvd_add hr hq, hg⟩
    · exact forall_mem_cons.mpr ⟨hr, ih hg⟩

theorem dvd_min {a b : Int} (ha : L ∣ a) (hb : L ∣ b) : L ∣ min a b := by
  rcases min_choice a b with h | h <;> rw [h] <;> assumption

theorem walk_lots (hgive : Greedy key cap xs give) (hn : (xs.map key).Nodup)
    (hcap : ∀ x ∈ xs, L ∣ cap x) (h : Within key cap xs g) (hg : Lots L g) (hr : L ∣ r) :
    Lots L (walk key give xs r g).1 := by
  let I : Grants → Int → Prop := fun g r => Within key cap xs g ∧ Lots L g ∧ L ∣ r
  have hall : I (walk key give xs r g).1 (walk key give xs r g).2 := walk_invariant
    (fun x hx g r q ⟨h, hg, hr⟩ hpos hq => by
      obtain ⟨hsome, -, hroom⟩ := hgive.bounds x hx g r q h hpos hq
      have hlots : L ∣ q := by
        rw [hgive.gift_eq hx h hpos hq]
        exact dvd_min hr (dvd_sub (hcap x hx) (hg.of _))
      exact ⟨h.add hx hsome hroom hn, hg.add hlots, dvd_sub hr hlots⟩) ⟨h, hg, hr⟩
  exact hall.2.1

end items

end Grants

end ExchangeSim
