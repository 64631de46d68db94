import Mathlib.Algebra.Order.Ring.Nat
import Mathlib.Data.Nat.Dist
import Mathlib.Data.Nat.Log
import Mathlib.Tactic.Ring
import Lox.Number.Basic

/-!
# Rounding to doubles

The magnitudes of the patterns grow with the patterns (`Number.magnitude_strictMono`), and `nearest`
takes a fraction of units to a pattern whose magnitude is nearest to it, of two such patterns to the
even one (`Number.nearest_spec`). So rounding keeps the order (`Number.nearest_mono`), and a
magnitude is its own nearest double, in whatever units it is written (`Number.nearest_magnitude`).
-/

namespace Lox

namespace Number

/-! ## Quotients -/

section
variable {den : Nat} (hd : 0 < den)
include hd

theorem roundDiv_mul (q : Nat) : roundDiv (q * den) den = q := by
  unfold roundDiv
  rw [Nat.mul_div_cancel _ hd, Nat.mul_mod_left]
  exact if_neg (by omega)

/-- A quotient is rounded to a nearest whole number, and a half to the even one. -/
theorem roundDiv_spec (num k : Nat) :
    Nat.dist num (roundDiv num den * den) ≤ Nat.dist num (k * den) ∧
      (k ≠ roundDiv num den → Nat.dist num (roundDiv num den * den) = Nat.dist num (k * den) →
        roundDiv num den % 2 = 0) := by
  have hsplit := Nat.div_add_mod num den
  have hrem := Nat.mod_lt num hd
  rw [Nat.mul_comm] at hsplit
  have hup : (num / den + 1) * den = num / den * den + den := Nat.succ_mul ..
  rcases Nat.lt_or_ge (num / den) k with hk | hk
  · have hside : (num / den + 1) * den ≤ k * den := Nat.mul_le_mul_right den hk
    have heq : k * den = (num / den + 1) * den → k = num / den + 1 := Nat.eq_of_mul_eq_mul_right hd
    rw [hup] at hside heq
    simp only [Nat.dist, roundDiv]
    split
    · rw [hup]
      omega
    · omega
  · have hside : k * den ≤ num / den * den := Nat.mul_le_mul_right den hk
    have heq : k * den = num / den * den → k = num / den := Nat.eq_of_mul_eq_mul_right hd
    simp only [Nat.dist, roundDiv]
    split
    · rw [hup]
      omega
    · omega

end

/-- Floors of fractions are ordered as the fractions. -/
theorem div_le_div_of_mul_le {a b c d : Nat} (hb : 0 < b) (hd : 0 < d) (h : a * d ≤ c * b) :
    a / b ≤ c / d := by
  refine (Nat.le_div_iff_mul_le hd).2 (Nat.le_of_mul_le_mul_right ?_ hb)
  calc a / b * d * b = a / b * b * d := by ring
    _ ≤ a * d := Nat.mul_le_mul_right d (Nat.div_mul_le_self a b)
    _ ≤ c * b := h

/-- Rounding a quotient keeps the order of fractions. -/
theorem roundDiv_mono {a b c d : Nat} (hb : 0 < b) (hd : 0 < d) (h : a * d ≤ c * b) :
    roundDiv a b ≤ roundDiv c d := by
  have hfloor := div_le_div_of_mul_le hb hd h
  rcases Nat.lt_or_eq_of_le hfloor with hlt | heq
  · simp only [roundDiv]
    split <;> split <;> omega
  -- with one floor the remainders are compared, as parts of their denominators
  have hrem : a % b * d ≤ c % d * b := by
    have ha := Nat.div_add_mod a b
    have hc := Nat.div_add_mod c d
    rw [← ha, ← hc, heq] at h
    have hcommon : d * (c / d) * b = b * (c / d) * d := by ring
    rw [Nat.add_mul, Nat.add_mul, hcommon] at h
    exact Nat.le_of_add_le_add_left h
  have hdouble : 2 * (a % b) * d ≤ 2 * (c % d) * b := by
    rw [Nat.mul_assoc, Nat.mul_assoc]
    exact Nat.mul_le_mul_left 2 hrem
  have hover : b < 2 * (a % b) → d < 2 * (c % d) := by
    intro hlt
    have hscaled := Nat.mul_lt_mul_of_pos_right hlt hd
    exact Nat.lt_of_mul_lt_mul_right (by rw [Nat.mul_comm d b]; exact hscaled.trans_le hdouble)
  have hhalf : 2 * (a % b) = b → d ≤ 2 * (c % d) := by
    intro heq
    rw [heq, Nat.mul_comm b d] at hdouble
    exact Nat.le_of_mul_le_mul_right hdouble hb
  simp only [roundDiv, heq]
  split <;> split <;> omega

/-! ## Magnitudes -/

theorem magnitude_of_lt {p : Nat} (h : p < 2 ^ 52) : magnitude p = p := if_pos h

theorem magnitude_of_le {p : Nat} (h : 2 ^ 52 ≤ p) :
    magnitude p = (2 ^ 52 + p % 2 ^ 52) * 2 ^ (p / 2 ^ 52 - 1) := if_neg (by simpa using h)

/-- The magnitudes of a binade, the first one of the next included, are multiples of its unit. -/
theorem magnitude_scaled {e m : Nat} (hm : m ≤ 2 ^ 53) (he : 0 < e → 2 ^ 52 ≤ m) :
    magnitude (e * 2 ^ 52 + m) = m * 2 ^ e := by
  rcases Nat.eq_zero_or_pos e with rfl | hpos
  · rw [Nat.zero_mul, Nat.zero_add, Nat.pow_zero, Nat.mul_one]
    rcases Nat.lt_or_ge m (2 ^ 52) with h | h
    · exact magnitude_of_lt h
    rcases Nat.lt_or_eq_of_le hm with hlt | rfl
    · have hdiv : m / 2 ^ 52 = 1 := by omega
      have hmod : 2 ^ 52 + m % 2 ^ 52 = m := by omega
      rw [magnitude_of_le h, hdiv, hmod, Nat.sub_self, Nat.pow_zero, Nat.mul_one]
    · rfl
  · have hlow := he hpos
    rcases Nat.lt_or_eq_of_le hm with hlt | rfl
    · have hdiv : (e * 2 ^ 52 + m) / 2 ^ 52 - 1 = e := by omega
      have hmod : 2 ^ 52 + (e * 2 ^ 52 + m) % 2 ^ 52 = m := by omega
      rw [magnitude_of_le (by omega), hdiv, hmod]
    · have hdiv : (e * 2 ^ 52 + 2 ^ 53) / 2 ^ 52 - 1 = e + 1 := by omega
      have hmod : 2 ^ 52 + (e * 2 ^ 52 + 2 ^ 53) % 2 ^ 52 = 2 ^ 52 := by omega
      rw [magnitude_of_le (by omega), hdiv, hmod, Nat.pow_succ 2 e]
      ring

/-- A pattern has a binade, and its place in it. -/
theorem exists_scaled (p : Nat) :
    ∃ e m, p = e * 2 ^ 52 + m ∧ m < 2 ^ 53 ∧ (0 < e → 2 ^ 52 ≤ m) ∧ magnitude p = m * 2 ^ e := by
  rcases Nat.lt_or_ge p (2 ^ 52) with h | h
  · exact ⟨0, p, by omega, by omega, by omega, by rw [magnitude_of_lt h]; omega⟩
  · refine ⟨p / 2 ^ 52 - 1, 2 ^ 52 + p % 2 ^ 52, by omega, by omega, by omega, magnitude_of_le h⟩

/-- The step from a magnitude to the next one is the unit of its binade. -/
theorem magnitude_succ {e m : Nat} (hm : m < 2 ^ 53) (he : 0 < e → 2 ^ 52 ≤ m) :
    magnitude (e * 2 ^ 52 + m + 1) = magnitude (e * 2 ^ 52 + m) + 2 ^ e := by
  rw [Nat.add_assoc, magnitude_scaled hm (fun h => Nat.le_succ_of_le (he h)),
    magnitude_scaled hm.le he, Nat.succ_mul]

/-- **Patterns are ordered as their magnitudes.** -/
theorem magnitude_strictMono : StrictMono magnitude := by
  refine strictMono_nat_of_lt_succ fun p => ?_
  obtain ⟨e, m, rfl, hm, he, -⟩ := exists_scaled p
  rw [magnitude_succ hm he]
  exact Nat.lt_add_of_pos_right (Nat.two_pow_pos e)

/-! ## The nearest double -/

/-- The binade of a fraction of units. -/
def binade (num den : Nat) : Nat := (num / den).log2 - 52

/-- The nearest pattern, were there a double for every pattern. -/
def unbounded (num den : Nat) : Nat :=
  binade num den * 2 ^ 52 + roundDiv num (den * 2 ^ binade num den)

theorem nearest_eq (num den : Nat) : nearest num den = min (unbounded num den) infinitePattern := by
  simp only [nearest, unbounded, binade, Nat.pow_eq]

theorem nearest_le (num den : Nat) : nearest num den ≤ infinitePattern := by
  rw [nearest_eq]
  exact Nat.min_le_right _ _

section
variable (num : Nat) {den : Nat} (hd : 0 < den)
include hd

/-- A fraction lies below the end of its binade. -/
theorem lt_binade : num < 2 ^ 53 * (den * 2 ^ binade num den) := by
  have hlog : num / den < 2 ^ ((num / den).log2 + 1) := Nat.lt_log2_self
  have hle : (num / den).log2 + 1 ≤ 53 + binade num den := by
    unfold binade
    omega
  have hfloor : num / den < 2 ^ (53 + binade num den) :=
    hlog.trans_le (Nat.pow_le_pow_right (by decide) hle)
  have hnum := (Nat.div_lt_iff_lt_mul hd).1 hfloor
  rwa [Nat.pow_add, Nat.mul_assoc, Nat.mul_comm (2 ^ binade num den)] at hnum

/-- Except in the first binade, it does not lie below its beginning. -/
theorem binade_le (he : 0 < binade num den) : 2 ^ 52 * (den * 2 ^ binade num den) ≤ num := by
  have hlog : (num / den).log2 = 52 + binade num den := by
    unfold binade at he ⊢
    omega
  have hne : num / den ≠ 0 := by
    intro hzero
    rw [hzero, Nat.log2_zero] at hlog
    omega
  have hfloor : 2 ^ (52 + binade num den) ≤ num / den := hlog ▸ Nat.log2_self_le hne
  have hnum := (Nat.le_div_iff_mul_le hd).1 hfloor
  rwa [Nat.pow_add, Nat.mul_assoc, Nat.mul_comm (2 ^ binade num den)] at hnum

theorem roundDiv_binade_le : roundDiv num (den * 2 ^ binade num den) ≤ 2 ^ 53 := by
  have hunit : 0 < den * 2 ^ binade num den := Nat.mul_pos hd (Nat.two_pow_pos _)
  have hmono := roundDiv_mono hunit hunit (Nat.mul_le_mul_right _ (lt_binade num hd).le)
  rwa [roundDiv_mul hunit] at hmono

theorem le_roundDiv_binade (he : 0 < binade num den) :
    2 ^ 52 ≤ roundDiv num (den * 2 ^ binade num den) := by
  have hunit : 0 < den * 2 ^ binade num den := Nat.mul_pos hd (Nat.two_pow_pos _)
  have hmono := roundDiv_mono hunit hunit (Nat.mul_le_mul_right _ (binade_le num hd he))
  rwa [roundDiv_mul hunit] at hmono

end

section
variable {a b c d : Nat} (hb : 0 < b) (hd : 0 < d) (h : a * d ≤ c * b)
include hb hd h

theorem unbounded_mono : unbounded a b ≤ unbounded c d := by
  have hbinade : binade a b ≤ binade c d := by
    have hlog := Nat.log_mono_right (b := 2) (div_le_div_of_mul_le hb hd h)
    rw [← Nat.log2_eq_log_two, ← Nat.log2_eq_log_two] at hlog
    exact Nat.sub_le_sub_right hlog 52
  unfold unbounded
  rcases Nat.lt_or_eq_of_le hbinade with hlt | heq
  · have hup := roundDiv_binade_le a hb
    have hlow := le_roundDiv_binade c hd (Nat.zero_lt_of_lt hlt)
    omega
  · rw [heq]
    refine Nat.add_le_add_left (roundDiv_mono (Nat.mul_pos hb (Nat.two_pow_pos _))
      (Nat.mul_pos hd (Nat.two_pow_pos _)) ?_) _
    rw [← Nat.mul_assoc, ← Nat.mul_assoc]
    exact Nat.mul_le_mul_right _ h

/-- **Rounding keeps the order.** -/
theorem nearest_mono : nearest a b ≤ nearest c d := by
  rw [nearest_eq, nearest_eq]
  exact min_le_min_right _ (unbounded_mono hb hd h)

end

theorem binade_scaled {e m den : Nat} (hd : 0 < den) (hm : m < 2 ^ 53) (he : 0 < e → 2 ^ 52 ≤ m) :
    binade (m * 2 ^ e * den) den = e := by
  unfold binade
  rw [Nat.mul_div_cancel _ hd]
  rcases Nat.eq_zero_or_pos e with rfl | hpos
  · rw [Nat.pow_zero, Nat.mul_one]
    rcases Nat.eq_zero_or_pos m with rfl | hpos
    · rfl
    · have hlog := (Nat.log2_lt hpos.ne').2 hm
      omega
  · have hlow := he hpos
    have hlog : (m * 2 ^ e).log2 = 52 + e := by
      rw [Nat.log2_eq_iff (Nat.mul_pos (by omega) (Nat.two_pow_pos e)).ne', Nat.pow_add,
        Nat.add_right_comm, Nat.pow_add]
      exact ⟨Nat.mul_le_mul_right _ hlow, Nat.mul_lt_mul_of_pos_right hm (Nat.two_pow_pos e)⟩
    rw [hlog, Nat.add_sub_cancel_left]

theorem unbounded_magnitude (p : Nat) {den : Nat} (hd : 0 < den) :
    unbounded (magnitude p * den) den = p := by
  obtain ⟨e, m, rfl, hm, he, hp⟩ := exists_scaled p
  have hmul : m * 2 ^ e * den = m * (den * 2 ^ e) := by ring
  rw [hp, unbounded, binade_scaled hd hm he, hmul,
    roundDiv_mul (Nat.mul_pos hd (Nat.two_pow_pos e))]

/-- **A magnitude is its own nearest double.** -/
theorem nearest_magnitude {p den : Nat} (hp : p ≤ infinitePattern) (hd : 0 < den) :
    nearest (magnitude p * den) den = p := by
  rw [nearest_eq, unbounded_magnitude p hd]
  exact Nat.min_eq_left hp

/-- The magnitudes below a binade are not in it, and all the others are multiples of its unit. -/
theorem magnitude_lt_or_dvd (q e : Nat) :
    (0 < e ∧ magnitude q < 2 ^ 52 * 2 ^ e) ∨ 2 ^ e ∣ magnitude q := by
  obtain ⟨e', m, -, hm, -, hq⟩ := exists_scaled q
  rw [hq]
  rcases Nat.lt_or_ge e' e with h | h
  · refine .inl ⟨Nat.zero_lt_of_lt h, ?_⟩
    calc m * 2 ^ e' < 2 ^ 53 * 2 ^ e' := Nat.mul_lt_mul_of_pos_right hm (Nat.two_pow_pos e')
      _ = 2 ^ 52 * 2 ^ (e' + 1) := by ring
      _ ≤ 2 ^ 52 * 2 ^ e := Nat.mul_le_mul_left _ (Nat.pow_le_pow_right (by decide) h)
  · exact .inr (Dvd.dvd.mul_left (Nat.pow_dvd_pow 2 h) m)

/-- **Rounding is to the nearest**: no pattern has a magnitude nearer to the fraction, and one that
is as near is left for the even one. The infinite pattern counts as the double that would be
next. -/
theorem nearest_spec {num den q : Nat} (hd : 0 < den) (hq : q ≤ infinitePattern) :
    Nat.dist num (magnitude (nearest num den) * den) ≤ Nat.dist num (magnitude q * den) ∧
      (q ≠ nearest num den →
        Nat.dist num (magnitude (nearest num den) * den) = Nat.dist num (magnitude q * den) →
        nearest num den % 2 = 0) := by
  rcases Nat.lt_or_ge infinitePattern (unbounded num den) with hover | hle
  · -- what is rounded down to the infinite pattern lies beyond it
    have hbeyond : magnitude infinitePattern * den ≤ num := by
      by_contra hlt
      have hmono := unbounded_mono hd hd (Nat.mul_le_mul_right den (Nat.lt_of_not_le hlt).le)
      rw [unbounded_magnitude infinitePattern hd] at hmono
      exact Nat.not_lt.2 hmono hover
    have hmagnitude : magnitude q * den ≤ magnitude infinitePattern * den :=
      Nat.mul_le_mul_right den (magnitude_strictMono.monotone hq)
    rw [nearest_eq, Nat.min_eq_right hover.le]
    refine ⟨?_, fun _ _ => rfl⟩
    simp only [Nat.dist]
    omega
  · rw [nearest_eq, Nat.min_eq_left hle]
    have hunit : 0 < den * 2 ^ binade num den := Nat.mul_pos hd (Nat.two_pow_pos _)
    have hhere : magnitude (unbounded num den) * den =
        roundDiv num (den * 2 ^ binade num den) * (den * 2 ^ binade num den) := by
      rw [unbounded, magnitude_scaled (roundDiv_binade_le num hd) (le_roundDiv_binade num hd)]
      ring
    rcases magnitude_lt_or_dvd q (binade num den) with ⟨he, hlow⟩ | ⟨k, hk⟩
    · -- the beginning of the binade is nearer already
      have hstart := (roundDiv_spec hunit num (2 ^ 52)).1
      have hbegin := binade_le num hd he
      have hbelow : magnitude q * den < 2 ^ 52 * (den * 2 ^ binade num den) := by
        have hscaled := Nat.mul_lt_mul_of_pos_right hlow hd
        have hmul : 2 ^ 52 * 2 ^ binade num den * den = 2 ^ 52 * (den * 2 ^ binade num den) := by
          ring
        rwa [hmul] at hscaled
      rw [← hhere] at hstart
      simp only [Nat.dist] at hstart ⊢
      omega
    · have hthere : magnitude q * den = k * (den * 2 ^ binade num den) := by
        rw [hk]
        ring
      obtain ⟨hnear, heven⟩ := roundDiv_spec hunit num k
      rw [hhere, hthere]
      refine ⟨hnear, fun hne hdist => ?_⟩
      have hother : k ≠ roundDiv num (den * 2 ^ binade num den) := by
        rintro rfl
        exact hne (magnitude_strictMono.injective
          (Nat.eq_of_mul_eq_mul_right hd (hthere.trans hhere.symm)))
      have hround := heven hother hdist
      unfold unbounded
      omega

end Number

end Lox
