import ExchangeSim.UniformPrice

/-!
Queues of quantities under keys, and what is left of them when a quantity is taken from the front.
-/

namespace ExchangeSim

open List Option

namespace UniformPrice

variable {κ : Type*} {xs : List (κ × Int)} {v : Int}

def Filled (xs : List (κ × Int)) : Prop :=
  ∀ x ∈ xs, 0 < x.2

theorem Filled.nonneg (h : Filled xs) : ∀ x ∈ xs, 0 ≤ x.2 :=
  fun x hx => (h x hx).le

theorem Filled.tail {x : κ × Int} (h : Filled (x :: xs)) : Filled xs :=
  fun y hy => h y (by simp [hy])

/-- The queue without the first `v`. -/
def drain : Int → List (κ × Int) → List (κ × Int)
  | _, [] => []
  | v, (k, n) :: xs =>
    if v ≤ 0 then (k, n) :: xs else if v < n then (k, n - v) :: xs else drain (v - n) xs

theorem drain_of_nonpos (hv : v ≤ 0) (xs : List (κ × Int)) : drain v xs = xs := by
  cases xs with
  | nil => rfl
  | cons x xs => rw [drain, if_pos hv]

theorem drain_of_lt {k : κ} {n : Int} (hv : 0 < v) (hn : v < n) :
    drain v ((k, n) :: xs) = (k, n - v) :: xs := by
  rw [drain, if_neg (by omega), if_pos hn]

theorem drain_of_le {k : κ} {n : Int} (hn : 0 < n) (hv : n ≤ v) :
    drain v ((k, n) :: xs) = drain (v - n) xs := by
  rw [drain, if_neg (by omega), if_neg (by omega)]

theorem drain_add (hf : Filled xs) {a b : Int} (ha : 0 ≤ a) (hb : 0 ≤ b) :
    drain (a + b) xs = drain b (drain a xs) := by
  induction xs generalizing a with
  | nil => rfl
  | cons x xs ih =>
    obtain ⟨k, n⟩ := x
    have hn : 0 < n := hf (k, n) (by simp)
    rcases ha.eq_or_lt with rfl | ha
    · rw [drain_of_nonpos le_rfl, zero_add]
    · by_cases han : a < n
      · rw [drain_of_lt ha han]
        rcases hb.eq_or_lt with rfl | hb
        · rw [drain_of_nonpos le_rfl, add_zero, drain_of_lt ha han]
        · by_cases hbn : b < n - a
          · rw [drain_of_lt hb hbn, drain_of_lt (by omega) (by omega), sub_sub]
          · rw [drain_of_le hn (by omega), drain_of_le (by omega) (by omega)]
            congr 1
            omega
      · rw [drain_of_le hn (by omega), drain_of_le hn (by omega), ← ih hf.tail (by omega)]
        congr 1
        omega

theorem quantityOf_drain_first (xs : List (κ × Int)) {k : κ} {n : Int} (hv : 0 < v) (hn : v ≤ n) (f : κ → Bool) :
    quantityOf f (drain v ((k, n) :: xs)) =
      quantityOf f ((k, n) :: xs) - if f k then v else 0 := by
  rcases hn.eq_or_lt with rfl | hn
  · rw [drain_of_le hv le_rfl, sub_self, drain_of_nonpos le_rfl, quantityOf_cons]
    split <;> simp
  · rw [drain_of_lt hv hn, quantityOf_cons, quantityOf_cons]
    dsimp only
    split <;> omega

def First (f : κ → Bool) (xs : List (κ × Int)) : Prop :=
  xs.Pairwise fun x y => f y.1 = true → f x.1 = true

theorem quantityOf_eq_zero {f : κ → Bool} (h : ∀ x ∈ xs, f x.1 = false) : quantityOf f xs = 0 := by
  have hnil : xs.filter (fun x => f x.1) = [] :=
    filter_eq_nil_iff.mpr fun x hx => by simp [h x hx]
  rw [quantityOf, hnil, map_nil, sum_nil]

/-- If the keys that meet `f` come first and have more than `v`, then one of them is at the front
when `v` has been taken, and only then. -/
theorem lt_quantityOf_iff {f : κ → Bool} (hf : Filled xs) (hfirst : First f xs) (hv : 0 ≤ v) :
    v < quantityOf f xs ↔ ∃ x ∈ (drain v xs).head?, f x.1 = true := by
  induction xs generalizing v with
  | nil => simpa [drain] using hv
  | cons x xs ih =>
    obtain ⟨k, n⟩ := x
    have hn : 0 < n := hf (k, n) (by simp)
    obtain ⟨hk, hxs⟩ := pairwise_cons.mp hfirst
    have hrest : 0 ≤ quantityOf f xs := quantityOf_nonneg hf.tail.nonneg
    have hnone : f k = false → quantityOf f xs = 0 := by
      intro hfalse
      refine quantityOf_eq_zero fun y hy => ?_
      by_contra hne
      have hy' : f y.1 = true := by simpa using hne
      simp [hk y hy hy'] at hfalse
    rw [quantityOf_cons]
    by_cases hvn : v < n
    · have hhead : ((drain v ((k, n) :: xs)).head?).map Prod.fst = some k := by
        rcases hv.eq_or_lt with rfl | hv
        · rw [drain_of_nonpos le_rfl]
          rfl
        · rw [drain_of_lt hv hvn]
          rfl
      obtain ⟨y, hy, rfl⟩ := map_eq_some_iff.mp hhead
      rw [hy]
      by_cases hfk : f y.1 = true
      · simp only [hfk, if_true, mem_def, some.injEq, exists_eq_left', iff_true]
        omega
      · have := hnone (by simpa using hfk)
        simp only [hfk, Bool.false_eq_true, if_false, mem_def, some.injEq,
          exists_eq_left', iff_false]
        omega
    · rw [drain_of_le hn (by omega), ← ih hf.tail hxs (by omega)]
      by_cases hfk : f k = true
      · rw [if_pos hfk]
        omega
      · have := hnone (by simpa using hfk)
        rw [if_neg hfk]
        omega

theorem quantityOf_drain {f : κ → Bool} (hf : Filled xs) (hfirst : First f xs) (hv : 0 ≤ v)
    (hle : v ≤ quantityOf f xs) : quantityOf f (drain v xs) = quantityOf f xs - v := by
  induction xs generalizing v with
  | nil =>
    simp only [quantityOf_nil] at hle
    rw [drain, quantityOf_nil]
    omega
  | cons x xs ih =>
    obtain ⟨k, n⟩ := x
    rcases hv.eq_or_lt with rfl | hv
    · rw [drain_of_nonpos le_rfl, sub_zero]
    · have hk : f k = true := by
        obtain ⟨y, hy, hfy⟩ := (lt_quantityOf_iff hf hfirst le_rfl).mp (by omega : (0 : Int) < _)
        rw [drain_of_nonpos le_rfl, head?_cons, mem_some_iff] at hy
        subst hy
        exact hfy
      by_cases hvn : v ≤ n
      · rw [quantityOf_drain_first _ hv hvn, if_pos hk]
      · have hn : 0 < n := hf (k, n) (by simp)
        rw [quantityOf_cons, if_pos hk] at hle ⊢
        rw [drain_of_le hn (by omega),
          ih hf.tail (pairwise_cons.mp hfirst).2 (by omega) (by dsimp only at hle; omega)]
        dsimp only
        omega

/-! Queues in which every key stands once. -/

theorem quantityOf_key [DecidableEq κ] (hn : (xs.map Prod.fst).Nodup) {k : κ} {n : Int}
    (hx : (k, n) ∈ xs) : quantityOf (fun j => j == k) xs = n := by
  induction xs with
  | nil => simp at hx
  | cons y xs ih =>
    obtain ⟨hy, hn⟩ := List.nodup_cons.mp hn
    rw [quantityOf_cons]
    rcases List.mem_cons.mp hx with rfl | hx
    · rw [quantityOf_eq_zero fun x hx => ?_]
      · simp
      · exact beq_false_of_ne fun he => hy (mem_map.mpr ⟨x, hx, he⟩)
    · have hne : y.1 ≠ k := fun he => hy (mem_map.mpr ⟨(k, n), hx, he.symm⟩)
      rw [ih hn hx, if_neg (by simpa using hne), zero_add]

theorem quantityOf_key_eq_zero [DecidableEq κ] {k : κ} (h : k ∉ xs.map Prod.fst) :
    quantityOf (fun j => j == k) xs = 0 :=
  quantityOf_eq_zero fun x hx => beq_false_of_ne fun he => h (mem_map.mpr ⟨x, hx, he⟩)

theorem keys_drain_sublist (v : Int) (xs : List (κ × Int)) :
    ((drain v xs).map Prod.fst).Sublist (xs.map Prod.fst) := by
  induction xs generalizing v with
  | nil => exact Sublist.refl _
  | cons x xs ih =>
    rw [drain]
    split
    · exact Sublist.refl _
    · split
      · exact Sublist.refl _
      · exact (ih _).cons _

theorem drain_of_head {ps qs : List (κ × Int)} {k : κ} {n : Int} (hv : 0 ≤ v) (hpos : 0 < n)
    (hn : ((ps ++ (k, n) :: qs).map Prod.fst).Nodup)
    (hhead : (drain v (ps ++ (k, n) :: qs)).head?.map Prod.fst = some k) :
    ∃ c, c < n ∧ v = (ps.map Prod.snd).sum + c ∧
      drain v (ps ++ (k, n) :: qs) = (k, n - c) :: qs := by
  induction ps generalizing v with
  | nil =>
    rw [nil_append, map_cons, List.nodup_cons] at hn
    rw [nil_append] at hhead ⊢
    rcases hv.eq_or_lt with rfl | hv
    · exact ⟨0, hpos, by simp, by rw [drain_of_nonpos le_rfl, sub_zero]⟩
    · by_cases hvn : v < n
      · exact ⟨v, hvn, by simp, drain_of_lt hv hvn⟩
      · rw [drain_of_le hpos (by omega)] at hhead
        obtain ⟨x, hx, rfl⟩ := map_eq_some_iff.mp hhead
        exact absurd ((keys_drain_sublist _ _).subset (mem_map_of_mem (mem_of_mem_head? hx))) hn.1
  | cons y ps ih =>
    rw [cons_append, map_cons, List.nodup_cons] at hn
    obtain ⟨hy, hn⟩ := hn
    have hne : y.1 ≠ k := fun he => hy (mem_map.mpr ⟨(k, n), by simp, he.symm⟩)
    rw [cons_append, drain] at hhead ⊢
    split at hhead
    next => exact absurd (by simpa using hhead) hne
    next hpos' =>
      rw [if_neg hpos']
      split at hhead
      next => exact absurd (by simpa using hhead) hne
      next hlt =>
        rw [if_neg hlt]
        obtain ⟨c, hc, hsum, hdrain⟩ := ih (by omega) hn hhead
        exact ⟨c, hc, by rw [map_cons, sum_cons]; omega, hdrain⟩

/-- Some keys at the front have `v` together. -/
def EndsAt : Int → List (κ × Int) → Prop
  | _, [] => False
  | v, x :: xs => x.2 = v ∨ EndsAt (v - x.2) xs

theorem endsAt_of_drain (hf : Filled xs) {q : Int} (hq : 0 ≤ q) (hlt : q < v)
    (h : EndsAt (v - q) (drain q xs)) : EndsAt v xs := by
  induction xs generalizing v q with
  | nil => exact h
  | cons x xs ih =>
    obtain ⟨k, n⟩ := x
    have hn : 0 < n := hf (k, n) (by simp)
    rcases hq.eq_or_lt with rfl | hq
    · rwa [drain_of_nonpos le_rfl, sub_zero] at h
    · by_cases hqn : q < n
      · rw [drain_of_lt hq hqn] at h
        refine h.imp (fun h => ?_) fun h => ?_
        · dsimp only at h ⊢
          omega
        · rwa [show v - q - (n - q) = v - n by omega] at h
      · rw [drain_of_le hn (by omega)] at h
        rw [show v - q = v - n - (q - n) by omega] at h
        exact .inr (ih hf.tail (by omega) (by omega) h)

/-- What the key has given when `v` has been taken. -/
def given [DecidableEq κ] (v : Int) (xs : List (κ × Int)) (k : κ) : Int :=
  quantityOf (fun j => j == k) xs - quantityOf (fun j => j == k) (drain v xs)

/-- What is taken comes from the front: the keys before have given all they had, one key may have
given a part, and the keys behind have given nothing. -/
theorem exists_given_split [DecidableEq κ] (hf : Filled xs) (hn : (xs.map Prod.fst).Nodup)
    (hv : 0 ≤ v) :
    ∃ done rest, xs = done ++ rest ∧ (∀ x ∈ done, given v xs x.1 = x.2) ∧
      ((∀ x ∈ rest, given v xs x.1 = 0) ∨
        ∃ x behind, rest = x :: behind ∧ 0 < given v xs x.1 ∧ given v xs x.1 < x.2 ∧
          ∀ y ∈ behind, given v xs y.1 = 0) := by
  induction xs generalizing v with
  | nil => exact ⟨[], [], rfl, by simp, .inl (by simp)⟩
  | cons x xs ih =>
    obtain ⟨k, n⟩ := x
    have hn' := hn
    rw [map_cons, List.nodup_cons] at hn
    obtain ⟨hk, hn⟩ := hn
    have hpos : 0 < n := hf (k, n) (by simp)
    have hself : quantityOf (fun j => j == k) ((k, n) :: xs) = n :=
      quantityOf_key hn' (by simp)
    have hother : ∀ y ∈ xs, ∀ m, quantityOf (fun j => j == y.1) ((k, m) :: xs) =
        quantityOf (fun j => j == y.1) xs := by
      intro y hy m
      have hne : k ≠ y.1 := fun he => hk (mem_map.mpr ⟨y, hy, he.symm⟩)
      rw [quantityOf_cons, if_neg (by simpa using hne), zero_add]
    rcases hv.eq_or_lt with rfl | hv
    · refine ⟨[], (k, n) :: xs, rfl, by simp, .inl fun x _ => ?_⟩
      rw [given, drain_of_nonpos le_rfl, sub_self]
    · by_cases hvn : v < n
      · -- the first key gives a part
        have hgiven : given v ((k, n) :: xs) k = v := by
          rw [given, drain_of_lt hv hvn, hself, quantityOf_key (k := k) (n := n - v)
            (by simpa using hn') (by simp)]
          omega
        refine ⟨[], (k, n) :: xs, rfl, by simp, .inr ⟨(k, n), xs, rfl, ?_, ?_, fun y hy => ?_⟩⟩
        · rw [hgiven]
          exact hv
        · rw [hgiven]
          exact hvn
        · rw [given, drain_of_lt hv hvn, hother y hy, hother y hy, sub_self]
      · -- the first key gives all it has, the others as in the rest of the queue
        have hdrain : drain v ((k, n) :: xs) = drain (v - n) xs := drain_of_le hpos (by omega)
        have hsame : ∀ y ∈ xs, given v ((k, n) :: xs) y.1 = given (v - n) xs y.1 := by
          intro y hy
          rw [given, given, hdrain, hother y hy]
        have hgone : k ∉ (drain (v - n) xs).map Prod.fst :=
          fun hmem => hk ((keys_drain_sublist _ _).subset hmem)
        have hall : given v ((k, n) :: xs) k = n := by
          rw [given, hself, hdrain, quantityOf_key_eq_zero hgone, sub_zero]
        obtain ⟨done, rest, hsplit, hdone, hrest⟩ := ih hf.tail hn (v := v - n) (by omega)
        have hin : ∀ y ∈ rest, y ∈ xs := fun y hy => by rw [hsplit]; simp [hy]
        refine ⟨(k, n) :: done, rest, by rw [hsplit, cons_append], fun x hx => ?_, ?_⟩
        · rcases List.mem_cons.mp hx with rfl | hx
          · exact hall
          · rw [hsame x (by rw [hsplit]; simp [hx])]
            exact hdone x hx
        · rcases hrest with hrest | ⟨x, behind, rfl, hgt, hlt, hbehind⟩
          · exact .inl fun x hx => (hsame x (hin x hx)).trans (hrest x hx)
          · refine .inr ⟨x, behind, rfl, ?_, ?_, fun y hy => ?_⟩
            · rw [hsame x (hin x (by simp))]
              exact hgt
            · rw [hsame x (hin x (by simp))]
              exact hlt
            · exact (hsame y (hin y (by simp [hy]))).trans (hbehind y hy)

end UniformPrice

end ExchangeSim
