import Lox.Number.Shortest
import Lox.Proofs.Rounding

/-!
# The shortest decimal of a double

The decimals that are read as one double lie together (`Number.reading_between`). So on a grid of
powers of ten it is enough to look at the two neighbours of the magnitude, and the coarsest grid on
which one of them is read back gives the decimal with the fewest digits. On the grid of
`10 ^ -1074` each magnitude is a point, so the search ends.

Main statements: the shortest decimal is read back (`Number.readsAs_shortest`), and no decimal with
fewer digits is (`Number.shortest_fewest`).
-/

namespace Lox

namespace Number

/-! ## Reading decimals -/

/-- How many units there are in one. -/
@[irreducible]
def unitsInOne : Nat := Nat.pow 2 1074

/-- The pattern of the double that a decimal is read as. -/
def reading (d : Decimal) : Nat :=
  nearest (d.digits * 10 ^ d.exponent.toNat * unitsInOne) (10 ^ (-d.exponent).toNat)

theorem ofDecimal_eq (d : Decimal) :
    ofDecimal d.digits d.exponent = ofPattern (reading d) := by
  unfold ofDecimal reading unitsInOne
  rfl

theorem readsAs_iff {p : Nat} (hp : p ≤ infinitePattern) {d : Decimal} :
    readsAs p d = true ↔ reading d = p := by
  have hle : reading d ≤ infinitePattern := nearest_le _ _
  have hinfinite : infinitePattern < 2 ^ 64 := by decide
  rw [readsAs, beq_iff_eq, ofDecimal_eq]
  constructor
  · intro h
    have hbits := congrArg (fun n : Number => n.bits.toNat) h
    simp only [ofPattern, UInt64.toNat_ofNat'] at hbits
    rwa [Nat.mod_eq_of_lt (by omega), Nat.mod_eq_of_lt (by omega)] at hbits
  · exact congrArg ofPattern

/-- The step of the grid of `10 ^ e`, and a magnitude in the same parts of a unit. -/
def step (e : Int) : Nat := unitsInOne * 10 ^ e.toNat

def scaled (p : Nat) (e : Int) : Nat := magnitude p * 10 ^ (-e).toNat

theorem step_pos (e : Int) : 0 < step e := by
  have hunits : 0 < unitsInOne := by
    unfold unitsInOne
    generalize 1074 = u
    exact Nat.two_pow_pos u
  exact Nat.mul_pos hunits (Nat.pow_pos (by decide))

section
variable {p n : Nat} {e : Int} (hp : p ≤ infinitePattern)
include hp

/-- A decimal that is no greater than a magnitude is not read as a greater double. -/
theorem reading_le (h : n * step e ≤ scaled p e) :
    reading ⟨n, e⟩ ≤ p := by
  have hpos : 0 < 10 ^ (-e).toNat := Nat.pow_pos (by decide)
  rw [step, Nat.mul_comm unitsInOne, ← Nat.mul_assoc] at h
  have hmono : reading ⟨n, e⟩ ≤ _ := nearest_mono hpos hpos (Nat.mul_le_mul_right _ h)
  rwa [scaled, nearest_magnitude hp hpos] at hmono

theorem le_reading (h : scaled p e ≤ n * step e) :
    p ≤ reading ⟨n, e⟩ := by
  have hpos : 0 < 10 ^ (-e).toNat := Nat.pow_pos (by decide)
  rw [step, Nat.mul_comm unitsInOne, ← Nat.mul_assoc] at h
  have hmono : _ ≤ reading ⟨n, e⟩ := nearest_mono hpos hpos (Nat.mul_le_mul_right _ h)
  rwa [scaled, nearest_magnitude hp hpos] at hmono

end

theorem reading_zero (e : Int) : reading ⟨0, e⟩ = 0 :=
  Nat.le_zero.1 (reading_le (Nat.zero_le _) (by simp))

theorem reading_mono {a b : Nat} (e : Int) (h : a ≤ b) : reading ⟨a, e⟩ ≤ reading ⟨b, e⟩ := by
  have hpos : 0 < 10 ^ (-e).toNat := Nat.pow_pos (by decide)
  exact nearest_mono hpos hpos
    (Nat.mul_le_mul_right _ (Nat.mul_le_mul_right _ (Nat.mul_le_mul_right _ h)))

/-- **The decimals that are read as one double lie together.** -/
theorem reading_between {p a b c : Nat} {e : Int} (hab : a ≤ b) (hbc : b ≤ c)
    (ha : reading ⟨a, e⟩ = p) (hc : reading ⟨c, e⟩ = p) : reading ⟨b, e⟩ = p :=
  Nat.le_antisymm (hc ▸ reading_mono e hbc) (ha ▸ reading_mono e hab)

/-- Zeros behind the digits may go into the exponent. -/
theorem reading_mul_pow (n k : Nat) (e : Int) : reading ⟨n * 10 ^ k, e⟩ = reading ⟨n, e + k⟩ := by
  have hpos : ∀ i : Int, 0 < 10 ^ (-i).toNat := fun i => Nat.pow_pos (by decide)
  have hexponent : k + e.toNat + (-(e + k)).toNat = (e + k).toNat + (-e).toNat := by omega
  have hsame : n * 10 ^ k * 10 ^ e.toNat * unitsInOne * 10 ^ (-(e + k)).toNat =
      n * 10 ^ (e + k).toNat * unitsInOne * 10 ^ (-e).toNat := by
    calc n * 10 ^ k * 10 ^ e.toNat * unitsInOne * 10 ^ (-(e + k)).toNat
        = n * unitsInOne * 10 ^ (k + e.toNat + (-(e + k)).toNat) := by
          rw [Nat.pow_add, Nat.pow_add]
          ring
      _ = n * 10 ^ (e + k).toNat * unitsInOne * 10 ^ (-e).toNat := by
          rw [hexponent, Nat.pow_add]
          ring
  exact Nat.le_antisymm (nearest_mono (hpos e) (hpos (e + k)) hsame.le)
    (nearest_mono (hpos (e + k)) (hpos e) hsame.ge)

/-! ## The neighbours of a magnitude -/

theorem neighbours_fst (p : Nat) (e : Int) :
    (neighbours p e).1 = ⟨roundDiv (scaled p e) (step e), e⟩ := by
  unfold neighbours scaled step unitsInOne
  generalize Nat.pow 2 1074 = u
  rfl

/-- The neighbours stand right below and right above the magnitude. -/
theorem neighbours_eq (p : Nat) (e : Int) :
    let q := scaled p e / step e
    neighbours p e = (⟨q, e⟩, ⟨q + 1, e⟩) ∨ neighbours p e = (⟨q + 1, e⟩, ⟨q, e⟩) := by
  have heq : neighbours p e =
      let near := roundDiv (scaled p e) (step e)
      (⟨near, e⟩, ⟨if near = scaled p e / step e then near + 1 else near - 1, e⟩) := by
    unfold neighbours scaled step unitsInOne
    generalize Nat.pow 2 1074 = u
    rfl
  rw [heq]
  simp only [roundDiv]
  split
  · exact .inr (by simp)
  · exact .inl (by simp)

/-- If any decimal of the grid is read as the double, one of the neighbours is. -/
theorem reading_neighbours {p n : Nat} {e : Int} (hp : p ≤ infinitePattern)
    (h : reading ⟨n, e⟩ = p) :
    reading (neighbours p e).1 = p ∨ reading (neighbours p e).2 = p := by
  have hstep := step_pos e
  have hsplit := Nat.div_add_mod (scaled p e) (step e)
  have hrem := Nat.mod_lt (scaled p e) hstep
  rw [Nat.mul_comm] at hsplit
  have hread : reading ⟨scaled p e / step e, e⟩ = p ∨ reading ⟨scaled p e / step e + 1, e⟩ = p := by
    rcases Nat.lt_or_ge (scaled p e / step e) n with hn | hn
    · have hmono := reading_mono e (Nat.succ_le_of_lt hn)
      have habove : scaled p e ≤ (scaled p e / step e + 1) * step e := by
        rw [Nat.succ_mul]
        omega
      rw [h] at hmono
      exact .inr (Nat.le_antisymm hmono (le_reading hp habove))
    · have hmono := reading_mono e hn
      have hbelow : scaled p e / step e * step e ≤ scaled p e := by omega
      rw [h] at hmono
      exact .inl (Nat.le_antisymm (reading_le hp hbelow) hmono)
  rcases neighbours_eq p e with heq | heq <;> rw [heq]
  · exact hread
  · exact hread.symm

/-! ## The finest grid -/

/-- On the grid of `10 ^ -1074` a magnitude is a point. -/
theorem reading_finest {p : Nat} (hp : p ≤ infinitePattern) :
    reading (neighbours p (-1074)).1 = p := by
  have hpoint : scaled p (-1074) = magnitude p * 5 ^ 1074 * step (-1074) := by
    unfold scaled step unitsInOne
    have hneg : (-(-1074 : Int)).toNat = 1074 := rfl
    have hzero : (-1074 : Int).toNat = 0 := rfl
    rw [hneg, hzero]
    generalize 1074 = u
    rw [Nat.pow_eq, Nat.pow_zero, Nat.mul_one, Nat.mul_assoc, ← Nat.mul_pow]
  rw [neighbours_fst, hpoint, roundDiv_mul (step_pos _)]
  exact Nat.le_antisymm (reading_le hp hpoint.ge) (le_reading hp hpoint.le)

/-- The search ends with a decimal that is read back. -/
theorem reading_coarsest {p : Nat} (hp : p ≤ infinitePattern) :
    ∀ {steps : Nat} {exponent : Int}, exponent - steps = -1074 →
      reading (coarsest p steps exponent) = p
  | 0, exponent, he => by
    have hfinest : exponent = -1074 := by omega
    rw [coarsest, hfinest]
    exact reading_finest hp
  | steps + 1, exponent, he => by
    rw [coarsest]
    simp only [readsAs_iff hp]
    split
    · assumption
    split
    · assumption
    · exact reading_coarsest hp (by omega)

theorem upperExponent_ge (p : Nat) : -1074 ≤ upperExponent p := by
  unfold upperExponent
  omega

theorem reading_shortest {p : Nat} (hp : p ≤ infinitePattern) : reading (shortest p) = p := by
  have hstart := upperExponent_ge p
  exact reading_coarsest hp (by omega)

/-- **The shortest decimal of a finite double is read as that double.** -/
theorem readsAs_shortest {p : Nat} (hp : p < infinitePattern) :
    ofDecimal (shortest p).digits (shortest p).exponent = ofPattern p := by
  rw [ofDecimal_eq, reading_shortest hp.le]

/-! ## The coarsest grid -/

/-- No grid above the one that the search ends with has a decimal that is read back. -/
theorem exponent_le_coarsest {p : Nat} (hp : p ≤ infinitePattern) {steps : Nat} {exponent : Int}
    (hmax : ∀ d, reading d = p → d.exponent ≤ exponent) {d : Decimal} (hd : reading d = p) :
    d.exponent ≤ (coarsest p steps exponent).exponent := by
  induction steps generalizing exponent with
  | zero =>
    rw [coarsest, neighbours_fst]
    exact hmax d hd
  | succ steps ih =>
    rw [coarsest]
    simp only [readsAs_iff hp]
    split
    · exact hmax d hd
    split
    · exact hmax d hd
    rename_i hnear hfar
    refine ih fun d' hd' => ?_
    have hle := hmax d' hd'
    have hne : d'.exponent ≠ exponent := by
      rintro rfl
      rcases reading_neighbours hp hd' with h | h
      · exact hnear h
      · exact hfar h
    omega

theorem pow_le_pow_of_ratio {a b u v m n : Nat} (hu : 0 < u) (hb : 0 < b) (h : a ^ u ≤ b ^ v)
    (hmn : m * v ≤ n * u) : a ^ m ≤ b ^ n := by
  refine (Nat.pow_le_pow_iff_left hu.ne').1 ?_
  calc (a ^ m) ^ u = (a ^ u) ^ m := by rw [← Nat.pow_mul, ← Nat.pow_mul, Nat.mul_comm]
    _ ≤ (b ^ v) ^ m := Nat.pow_le_pow_left h m
    _ = b ^ (m * v) := by rw [← Nat.pow_mul, Nat.mul_comm]
    _ ≤ b ^ (n * u) := Nat.pow_le_pow_right hb hmn
    _ = (b ^ n) ^ u := Nat.pow_mul ..

/-- Above the exponent at which the search starts, `10 ^ e` is at least twice any number with the
logarithm `l`. -/
theorem two_pow_le_ten_pow {l : Nat} (hl : l < 2098) {e : Int}
    (he : ((l : Int) - 1073) * 30103 / 100000 + 2 ≤ e) :
    2 ^ (l + 2) * 10 ^ (-e).toNat ≤ step e := by
  have hten : (2 : Nat) ^ 93 ≤ 10 ^ 28 := by decide
  have htwo : (10 : Nat) ^ 59 ≤ 2 ^ 196 := by decide
  unfold step unitsInOne
  generalize hu : 1074 = u
  rw [Nat.pow_eq]
  rcases Int.le_total 0 e with hsign | hsign
  · have hzero : (-e).toNat = 0 := by omega
    rw [hzero, Nat.pow_zero, Nat.mul_one]
    rcases Nat.le_total (l + 2) u with h | h
    · exact (Nat.pow_le_pow_right (by decide) h).trans
        (Nat.le_mul_of_pos_right _ (Nat.pow_pos (by decide)))
    · obtain ⟨k, hk⟩ := Nat.exists_eq_add_of_le h
      rw [hk, Nat.pow_add]
      refine Nat.mul_le_mul_left _ (pow_le_pow_of_ratio (by decide) (by decide) hten ?_)
      omega
  · have hzero : e.toNat = 0 := by omega
    obtain ⟨k, hk⟩ := Nat.exists_eq_add_of_le (show l + 2 ≤ u by omega)
    rw [hzero, Nat.pow_zero, Nat.mul_one, hk, Nat.pow_add 2 (l + 2) k]
    refine Nat.mul_le_mul_left _ (pow_le_pow_of_ratio (by decide) (by decide) htwo ?_)
    omega

theorem log2_magnitude_lt {p e : Nat} (h0 : magnitude p ≠ 0) (hp : p < (e + 1) * 2 ^ 52) :
    (magnitude p).log2 < 52 + e := by
  rw [Nat.succ_mul] at hp
  have hmono := magnitude_strictMono hp
  rw [magnitude_scaled (by decide) fun _ => le_rfl, ← Nat.pow_add] at hmono
  exact (Nat.log2_lt h0).2 hmono

/-- A magnitude is at most doubled by the step to the next one. -/
theorem magnitude_succ_le {p : Nat} (hp : 0 < p) : magnitude (p + 1) ≤ 2 * magnitude p := by
  obtain ⟨e, m, rfl, hm, he, hscaled⟩ := exists_scaled p
  have hpos : 1 ≤ m := by
    rcases Nat.eq_zero_or_pos e with rfl | h
    · omega
    · have := he h
      omega
  have hunit : 2 ^ e ≤ m * 2 ^ e := Nat.le_mul_of_pos_left _ hpos
  rw [magnitude_succ hm he, hscaled, Nat.two_mul]
  exact Nat.add_le_add_left hunit _

/-- No decimal that is read back has an exponent above the one at which the search starts. -/
theorem exponent_le_upperExponent {p : Nat} (h0 : 0 < p) (hp : p < infinitePattern) {d : Decimal}
    (hd : reading d = p) : d.exponent ≤ upperExponent p := by
  obtain ⟨n, e⟩ := d
  by_contra hlt
  have hn : 0 < n := by
    refine Nat.pos_of_ne_zero ?_
    rintro rfl
    exact h0.ne (reading_zero e ▸ hd)
  have hmagnitude : magnitude p ≠ 0 := by
    have hmono := magnitude_strictMono h0
    omega
  have hlog : (magnitude p).log2 < 52 + 2046 := log2_magnitude_lt hmagnitude hp
  have hexponent : (((magnitude p).log2 : Int) - 1073) * 30103 / 100000 + 2 ≤ e := by
    simp only [upperExponent] at hlt
    omega
  have hdouble : magnitude (p + 1) ≤ 2 ^ ((magnitude p).log2 + 2) := by
    have hself := Nat.lt_log2_self (n := magnitude p)
    have hsucc := magnitude_succ_le h0
    rw [Nat.pow_succ] at hself ⊢
    omega
  have hnext : p + 1 ≤ reading ⟨n, e⟩ := by
    refine le_reading hp ?_
    calc scaled (p + 1) e ≤ 2 ^ ((magnitude p).log2 + 2) * 10 ^ (-e).toNat :=
          Nat.mul_le_mul_right _ hdouble
      _ ≤ step e := two_pow_le_ten_pow hlog hexponent
      _ ≤ n * step e := Nat.le_mul_of_pos_left _ hn
  omega

theorem exponent_le_shortest {p : Nat} (h0 : 0 < p) (hp : p < infinitePattern) {d : Decimal}
    (hd : reading d = p) : d.exponent ≤ (shortest p).exponent :=
  exponent_le_coarsest hp.le (fun _ hd' => exponent_le_upperExponent h0 hp hd') hd

/-! ## The nearest decimal -/

/-- The search ends with the nearer neighbour, or with the other one if the nearer is not read
back. -/
theorem coarsest_eq {p : Nat} (hp : p ≤ infinitePattern) (steps : Nat) (exponent : Int) :
    let c := coarsest p steps exponent
    c = (neighbours p c.exponent).1 ∨
      reading (neighbours p c.exponent).1 ≠ p ∧ c = (neighbours p c.exponent).2 := by
  induction steps generalizing exponent with
  | zero => exact .inl rfl
  | succ steps ih =>
    rw [coarsest]
    simp only [readsAs_iff hp]
    split
    · exact .inl rfl
    rename_i hnear
    split
    · exact .inr ⟨hnear, rfl⟩
    · exact ih _

/-- Where the nearer neighbour is not read back, no decimal that is read back is nearer than the
other one: they are all on its side. -/
theorem dist_neighbours_le {p n : Nat} {e : Int} (hp : p ≤ infinitePattern)
    (hnear : reading (neighbours p e).1 ≠ p) (hn : reading ⟨n, e⟩ = p) :
    Nat.dist (scaled p e) ((neighbours p e).2.digits * step e) ≤
      Nat.dist (scaled p e) (n * step e) := by
  have hsplit := Nat.div_add_mod (scaled p e) (step e)
  have hrem := Nat.mod_lt (scaled p e) (step_pos e)
  have hup : (scaled p e / step e + 1) * step e = scaled p e / step e * step e + step e :=
    Nat.succ_mul ..
  rw [Nat.mul_comm] at hsplit
  rcases neighbours_eq p e with heq | heq <;> rw [heq] at hnear ⊢
  · have hside : scaled p e / step e + 1 ≤ n := by
      by_contra hlt
      have hmono := reading_mono e (Nat.le_of_lt_succ (Nat.lt_of_not_le hlt))
      rw [hn] at hmono
      exact hnear (Nat.le_antisymm (reading_le hp (by omega)) hmono)
    have hfurther := Nat.mul_le_mul_right (step e) hside
    simp only [Nat.dist]
    omega
  · have hside : n ≤ scaled p e / step e := by
      by_contra hlt
      have hmono := reading_mono e (Nat.succ_le_of_lt (Nat.lt_of_not_le hlt))
      rw [hn] at hmono
      exact hnear (Nat.le_antisymm hmono (le_reading hp (by omega)))
    have hfurther := Nat.mul_le_mul_right (step e) hside
    simp only [Nat.dist]
    omega

/-- Of the decimals on its grid that are read back, the shortest decimal is a nearest one. -/
theorem dist_shortest_le {p n : Nat} (hp : p ≤ infinitePattern)
    (hn : reading ⟨n, (shortest p).exponent⟩ = p) :
    Nat.dist (scaled p (shortest p).exponent) ((shortest p).digits * step (shortest p).exponent) ≤
      Nat.dist (scaled p (shortest p).exponent) (n * step (shortest p).exponent) := by
  have hcases : shortest p = (neighbours p (shortest p).exponent).1 ∨
      reading (neighbours p (shortest p).exponent).1 ≠ p ∧
        shortest p = (neighbours p (shortest p).exponent).2 :=
    coarsest_eq hp _ _
  generalize (shortest p).exponent = e at hn hcases ⊢
  rcases hcases with heq | ⟨hnear, heq⟩
  · rw [heq, neighbours_fst]
    exact (roundDiv_spec (step_pos e) _ n).1
  · rw [heq]
    exact dist_neighbours_le hp hnear hn

/-- **The shortest decimal is the shortest.** No decimal that is read as the double has fewer
digits, and none with its exponent is nearer to the double. -/
theorem shortest_fewest {p : Nat} (h0 : 0 < p) (hp : p < infinitePattern) {d : Decimal}
    (hd : ofDecimal d.digits d.exponent = ofPattern p) :
    (Nat.toDigits 10 (shortest p).digits).length ≤ (Nat.toDigits 10 d.digits).length ∧
      (d.exponent = (shortest p).exponent →
        Nat.dist (scaled p d.exponent) ((shortest p).digits * step d.exponent) ≤
          Nat.dist (scaled p d.exponent) (d.digits * step d.exponent)) := by
  have hread : reading d = p := (readsAs_iff hp.le).1 (beq_iff_eq.2 hd)
  constructor
  · have hlength : 0 < (Nat.toDigits 10 d.digits).length := Nat.length_toDigits_pos
    have hdigits := (Nat.length_toDigits_le_iff (by decide) hlength).1 le_rfl
    refine (Nat.length_toDigits_le_iff (by decide) hlength).2 ?_
    by_contra hlt
    -- a power of ten lies between the two decimals, and it has too great an exponent
    obtain ⟨k, hk⟩ := Int.le.dest (exponent_le_shortest h0 hp hread)
    have hshortest := reading_shortest hp.le
    have hgrid : reading ⟨(shortest p).digits * 10 ^ k, d.exponent⟩ = p := by
      rw [reading_mul_pow, hk, hshortest]
    have hpow : (10 : Nat) ^ (Nat.toDigits 10 d.digits).length ≤
        10 ^ ((Nat.toDigits 10 d.digits).length + k) :=
      Nat.pow_le_pow_right (by decide) (Nat.le_add_right _ _)
    have hbetween := reading_between (hdigits.le.trans hpow)
      (Nat.pow_add 10 .. ▸ Nat.mul_le_mul_right (10 ^ k) (Nat.le_of_not_lt hlt)) hread hgrid
    rw [← Nat.one_mul (10 ^ _), reading_mul_pow] at hbetween
    have hle := exponent_le_shortest h0 hp hbetween
    simp only at hle
    omega
  · intro he
    rw [he]
    exact dist_shortest_le hp.le (he ▸ hread)

end Number

end Lox
