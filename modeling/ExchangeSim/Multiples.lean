import Mathlib.Tactic
import Mathlib.Data.Int.GCD

/-!
Multiples of integers: rounding toward zero, the sums that a list of weights attains, and the
common multiples of a list.
-/

namespace Multiples

section truncTo

variable {t x y : Int}

/-- The nearest multiple of `t` on the way to zero. -/
def truncTo (t x : Int) : Int :=
  x.tdiv t * t

theorem truncTo_neg (t x : Int) : truncTo t (-x) = -truncTo t x := by
  simp only [truncTo, Int.neg_tdiv, neg_mul]

theorem truncTo_neg_left (t x : Int) : truncTo (-t) x = truncTo t x := by
  simp only [truncTo, Int.tdiv_neg, neg_mul_neg]

theorem truncTo_mono (ht : 0 < t) (h : x ≤ y) : truncTo t x ≤ truncTo t y :=
  mul_le_mul_of_nonneg_right (Int.tdiv_le_tdiv ht h) ht.le

theorem dvd_truncTo (t x : Int) : t ∣ truncTo t x :=
  Dvd.intro_left _ rfl

theorem truncTo_eq_iff : truncTo t x = x ↔ t ∣ x := by
  constructor
  · intro h
    rw [← h]
    exact dvd_truncTo t x
  · exact Int.tdiv_mul_cancel

theorem truncTo_of_nonneg (hx : 0 ≤ x) : 0 ≤ truncTo t x ∧ truncTo t x ≤ x := by
  have hdiv : truncTo t x = t * (x / t) := by
    rw [truncTo, Int.tdiv_eq_ediv_of_nonneg hx, mul_comm]
  rw [hdiv]
  by_cases ht : t = 0
  · simp [ht, hx]
  · have hmod := Int.emod_add_mul_ediv x t
    have hnonneg := Int.emod_nonneg x ht
    refine ⟨?_, by omega⟩
    rcases lt_or_gt_of_ne ht with hneg | hpos
    · exact mul_nonneg_of_nonpos_of_nonpos hneg.le (Int.ediv_nonpos_of_nonneg_of_nonpos hx hneg.le)
    · exact mul_nonneg hpos.le (Int.ediv_nonneg hx hpos.le)

theorem truncTo_of_nonpos (hx : x ≤ 0) : x ≤ truncTo t x ∧ truncTo t x ≤ 0 := by
  obtain ⟨hlow, hhigh⟩ := truncTo_of_nonneg (t := t) (x := -x) (by omega)
  rw [truncTo_neg] at hlow hhigh
  omega

theorem truncTo_le_iff : truncTo t x ≤ x ↔ 0 ≤ x ∨ t ∣ x := by
  rw [← truncTo_eq_iff]
  rcases le_or_gt 0 x with hx | hx
  · have := (truncTo_of_nonneg (t := t) hx).2
    omega
  · have := (truncTo_of_nonpos (t := t) hx.le).1
    omega

theorem le_truncTo_iff : x ≤ truncTo t x ↔ x ≤ 0 ∨ t ∣ x := by
  rw [← truncTo_eq_iff]
  rcases le_or_gt 0 x with hx | hx
  · have := truncTo_of_nonneg (t := t) hx
    omega
  · have := (truncTo_of_nonpos (t := t) hx.le).1
    omega

theorem tdiv_tdiv (x d t : Int) : (x.tdiv d).tdiv t = x.tdiv (d * t) := by
  obtain ⟨n, rfl | rfl⟩ := Int.eq_nat_or_neg x <;> obtain ⟨m, rfl | rfl⟩ := Int.eq_nat_or_neg d <;>
    obtain ⟨k, rfl | rfl⟩ := Int.eq_nat_or_neg t <;>
    simp only [Int.neg_tdiv, Int.tdiv_neg, neg_mul, mul_neg, neg_neg, ← Int.ofNat_tdiv,
      ← Int.natCast_mul, Nat.div_div_eq_div_mul]

theorem mul_truncTo_tdiv (d t x : Int) : d * truncTo t (x.tdiv d) = truncTo (d * t) x := by
  simp only [truncTo, tdiv_tdiv]
  ring

end truncTo

section weighted

variable {g n : Int} {ws xs : List Int}

def weighted (ws xs : List Int) : Int :=
  (List.zipWith (· * ·) ws xs).sum

@[simp] theorem weighted_nil : weighted [] xs = 0 := rfl

@[simp] theorem weighted_cons (w x : Int) :
    weighted (w :: ws) (x :: xs) = w * x + weighted ws xs := by
  simp [weighted]

theorem weighted_eraseIdx (ws xs : List Int) (i : Nat) :
    weighted (ws.eraseIdx i) (xs.eraseIdx i) = weighted ws (xs.set i 0) := by
  induction ws generalizing xs i with
  | nil => simp
  | cons w ws ih =>
    cases xs with
    | nil => simp [weighted]
    | cons x xs =>
      cases i with
      | zero => simp
      | succ i => simp [ih]

theorem weighted_set {w : Int} {i : Nat} (hi : ws[i]? = some w) (hlen : xs.length = ws.length)
    (x : Int) : weighted ws (xs.set i x) = weighted ws (xs.set i 0) + w * x := by
  induction ws generalizing xs i with
  | nil => simp at hi
  | cons v ws ih =>
    obtain ⟨y, xs, rfl⟩ := List.exists_cons_of_length_eq_add_one hlen
    cases i with
    | zero =>
      obtain rfl : v = w := by simpa using hi
      simp only [List.set_cons_zero, weighted_cons]
      ring
    | succ i =>
      simp only [List.set_cons_succ, weighted_cons, ih (by simpa using hi) (by simpa using hlen)]
      ring

def gcdFrom (g : Int) (ws : List Int) : Int :=
  ws.foldl (fun g w => (Int.gcd g w : Int)) g

/-- The sums that weights attain, with any multiple of `g` besides: the multiples of the greatest
common divisor. -/
theorem gcdFrom_dvd_iff : gcdFrom g ws ∣ n ↔
    ∃ k xs, xs.length = ws.length ∧ n = g * k + weighted ws xs := by
  induction ws generalizing g with
  | nil =>
    constructor
    · rintro ⟨k, hk⟩
      exact ⟨k, [], rfl, by simpa [gcdFrom] using hk⟩
    · rintro ⟨k, xs, -, hk⟩
      exact ⟨k, by simpa [gcdFrom] using hk⟩
  | cons w ws ih =>
    have hstep : gcdFrom g (w :: ws) ∣ n ↔ ∃ k xs, xs.length = ws.length ∧
        n = (Int.gcd g w : Int) * k + weighted ws xs := ih
    rw [hstep]
    constructor
    · rintro ⟨k, xs, hlen, hk⟩
      refine ⟨Int.gcdA g w * k, Int.gcdB g w * k :: xs, by simp [hlen], ?_⟩
      rw [hk, weighted_cons, Int.gcd_eq_gcd_ab]
      ring
    · rintro ⟨k, xs, hlen, hk⟩
      obtain ⟨x, xs, rfl⟩ := List.exists_cons_of_length_eq_add_one hlen
      obtain ⟨c, hc⟩ := Int.gcd_dvd_left g w
      obtain ⟨d, hd⟩ := Int.gcd_dvd_right g w
      refine ⟨c * k + d * x, xs, by simpa using hlen, ?_⟩
      calc n = g * k + (w * x + weighted ws xs) := by rw [hk, weighted_cons]
        _ = (Int.gcd g w : Int) * c * k + ((Int.gcd g w : Int) * d * x + weighted ws xs) := by
          rw [← hc, ← hd]
        _ = _ := by ring

theorem dvd_gcdFrom_iff {d : Int} : d ∣ gcdFrom g ws ↔ d ∣ g ∧ ∀ w ∈ ws, d ∣ w := by
  induction ws generalizing g with
  | nil => simp [gcdFrom]
  | cons w ws ih =>
    have hstep : d ∣ gcdFrom g (w :: ws) ↔ d ∣ (Int.gcd g w : Int) ∧ ∀ w ∈ ws, d ∣ w := ih
    rw [hstep, Int.dvd_coe_gcd_iff, List.forall_mem_cons, and_assoc]

theorem gcdFrom_pos (hg : 0 ≤ g) (hws : ∃ w ∈ ws, w ≠ 0) : 0 < gcdFrom g ws := by
  have hnonneg : 0 ≤ gcdFrom g ws := by
    clear hws
    induction ws generalizing g with
    | nil => exact hg
    | cons w ws ih => exact ih (Int.natCast_nonneg _)
  refine lt_of_le_of_ne hnonneg fun hzero => ?_
  obtain ⟨w, hw, hne⟩ := hws
  have hdvd := (dvd_gcdFrom_iff.mp (dvd_refl (gcdFrom g ws))).2 w hw
  rw [← hzero] at hdvd
  exact hne (zero_dvd_iff.mp hdvd)

end weighted

section lcm

variable {r q : Int} {fs : List Int}

def lcmFrom (r : Int) (fs : List Int) : Int :=
  fs.foldl (fun r f => (Int.lcm r f : Int)) r

theorem lcmFrom_dvd_iff : lcmFrom r fs ∣ q ↔ r ∣ q ∧ ∀ f ∈ fs, f ∣ q := by
  induction fs generalizing r with
  | nil => simp [lcmFrom]
  | cons f fs ih =>
    have hstep : lcmFrom r (f :: fs) ∣ q ↔ (Int.lcm r f : Int) ∣ q ∧ ∀ f ∈ fs, f ∣ q := ih
    rw [hstep, Int.coe_lcm_dvd_iff, List.forall_mem_cons, and_assoc]

theorem lcmFrom_pos (hr : 0 < r) (hfs : ∀ f ∈ fs, 0 < f) : 0 < lcmFrom r fs := by
  induction fs generalizing r with
  | nil => exact hr
  | cons f fs ih =>
    have hf := hfs f (by simp)
    refine ih ?_ fun x hx => hfs x (by simp [hx])
    exact Int.natCast_pos.mpr (Int.lcm_pos (by omega) (by omega))

theorem dvd_mul_iff_div_gcd_dvd {a b : Int} (hb : 0 < b) (q : Int) :
    b ∣ q * a ↔ b.tdiv (Int.gcd b a) ∣ q := by
  have hg : 0 < (Int.gcd b a : Int) := Int.natCast_pos.mpr (Int.gcd_pos_of_ne_zero_left a hb.ne')
  have hfactor : b.tdiv (Int.gcd b a) * (Int.gcd b a : Int) = b :=
    Int.tdiv_mul_cancel (Int.gcd_dvd_left b a)
  rw [← Int.dvd_mul_gcd_iff_dvd_mul]
  nth_rewrite 1 [← hfactor]
  exact Int.mul_dvd_mul_iff_right hg.ne'

end lcm

end Multiples
