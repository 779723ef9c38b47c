import FontMetrics.Decimal.Shortest
import FontMetrics.Proofs.Binary64.Canonical

/-!
# Shortest decimals read back

The decimal that is written for a binary number lies in the range of the numbers that round to it:
among the grids that are tried is one whose points are closer together than the range is wide.  The
ranges of different numbers have no number in common, since where two of them meet only the one of
the even significand holds its end.  So a number is determined by its shortest decimal.
-/

namespace FontMetrics.Decimal

open Binary64 (IsCanonical)

/-- The rational number that a decimal is. -/
def Point.toRat (p : Point) : ℚ := p.digits * 10 ^ p.exponent

namespace RoundingRange

variable {r : RoundingRange} {tie : Tie} {e : Int} {p : Point} {q : ℚ}

/-- A rational number lies in the range. -/
def Covers (r : RoundingRange) (q : ℚ) : Prop :=
  if r.isClosed then r.lower * 2 ^ r.unit ≤ q ∧ q ≤ r.upper * 2 ^ r.unit
  else r.lower * 2 ^ r.unit < q ∧ q < r.upper * 2 ^ r.unit

theorem Covers.lower_le (h : r.Covers q) : r.lower * 2 ^ r.unit ≤ q := by
  unfold Covers at h
  split at h
  · exact h.1
  · exact h.1.le

theorem Covers.le_upper (h : r.Covers q) : q ≤ r.upper * 2 ^ r.unit := by
  unfold Covers at h
  split at h
  · exact h.2
  · exact h.2.le

theorem Covers.lower_lt (h : r.Covers q) (hopen : r.isClosed = false) :
    r.lower * 2 ^ r.unit < q := by
  rw [Covers, hopen] at h
  exact h.1

theorem Covers.lt_upper (h : r.Covers q) (hopen : r.isClosed = false) :
    q < r.upper * 2 ^ r.unit := by
  rw [Covers, hopen] at h
  exact h.2

/-- A power with an exponent of any sign, as a quotient of two with natural exponents. -/
theorem pow_toNat_eq {b : ℚ} (hb : b ≠ 0) (n : Int) : b ^ n.toNat = b ^ n * b ^ (-n).toNat := by
  rw [← zpow_natCast, ← zpow_natCast, ← zpow_add₀ hb]
  congr 1
  omega

/-- The two scales are the unit and the power of ten over one denominator. -/
theorem exists_scales_eq (r : RoundingRange) (e : Int) : ∃ d : ℚ, 0 < d ∧
    ((r.scales e).1 : ℚ) = 2 ^ r.unit * d ∧ ((r.scales e).2 : ℚ) = 10 ^ e * d := by
  refine ⟨2 ^ (-r.unit).toNat * 10 ^ (-e).toNat, by positivity, ?_, ?_⟩
  · simp only [scales, Nat.pow_eq]
    push_cast
    rw [pow_toNat_eq two_ne_zero]
    ring
  · simp only [scales, Nat.pow_eq]
    push_cast
    rw [pow_toNat_eq (b := 10) (by norm_num) e]
    ring

/-- What the test for a decimal compares. -/
theorem contains_iff_scales {n : Nat} : r.contains ⟨n, e⟩ = true ↔
    if r.isClosed then r.lower * (r.scales e).1 ≤ n * (r.scales e).2 ∧
      n * (r.scales e).2 ≤ r.upper * (r.scales e).1
    else r.lower * (r.scales e).1 < n * (r.scales e).2 ∧
      n * (r.scales e).2 < r.upper * (r.scales e).1 := by
  simp only [contains]
  split <;> simp only [Bool.and_eq_true, decide_eq_true_eq]

/-- The test whether a decimal lies in the range is exact. -/
theorem contains_iff : r.contains p = true ↔ r.Covers p.toRat := by
  obtain ⟨d, hd, hunits, htens⟩ := r.exists_scales_eq p.exponent
  have hvalue : (p.digits * (r.scales p.exponent).2 : ℕ) = p.toRat * d := by
    rw [Nat.cast_mul, htens, ← mul_assoc, Point.toRat]
  have hend (n : Nat) : (n * (r.scales p.exponent).1 : ℕ) = n * 2 ^ r.unit * d := by
    rw [Nat.cast_mul, hunits, ← mul_assoc]
  have hle (n : Nat) : n * (r.scales p.exponent).1 ≤ p.digits * (r.scales p.exponent).2 ↔
      n * 2 ^ r.unit ≤ p.toRat := by
    rw [← Nat.cast_le (α := ℚ), hvalue, hend, mul_le_mul_iff_of_pos_right hd]
  have hge (n : Nat) : p.digits * (r.scales p.exponent).2 ≤ n * (r.scales p.exponent).1 ↔
      p.toRat ≤ n * 2 ^ r.unit := by
    rw [← Nat.cast_le (α := ℚ), hvalue, hend, mul_le_mul_iff_of_pos_right hd]
  rw [contains_iff_scales, Covers, hle, hge, lt_iff_lt_of_le_iff_le (hge r.lower),
    lt_iff_lt_of_le_iff_le (hle r.upper)]

/-- A point that is found lies in the range. -/
theorem contains_of_nearest? (h : r.nearest? tie e = some p) : r.contains p = true := by
  simp only [nearest?] at h
  split_ifs at h <;> cases h <;> assumption

/-- A grid that is finer than the upper half of the range has a point there. -/
theorem isSome_nearest? (tie : Tie) (hcenter : r.lower ≤ r.center)
    (hfine : r.center * (r.scales e).1 + (r.scales e).2 < r.upper * (r.scales e).1) :
    (r.nearest? tie e).isSome = true := by
  have hlower := Nat.mul_le_mul_right (r.scales e).1 hcenter
  have hbelow := Nat.div_mul_le_self (r.center * (r.scales e).1) (r.scales e).2
  have hpos : 0 < (r.scales e).2 := Nat.mul_pos (Nat.two_pow_pos _) (Nat.pow_pos (by norm_num))
  have habove := Nat.lt_div_mul_add hpos (a := r.center * (r.scales e).1)
  have hcontains :
      r.contains ⟨r.center * (r.scales e).1 / (r.scales e).2 + 1, e⟩ = true := by
    rw [contains_iff_scales, Nat.add_mul, Nat.one_mul]
    split <;> constructor <;> omega
  simp only [nearest?, hcontains, ite_true]
  split_ifs <;> rfl

theorem contains_of_search {grids : Nat} (h : r.search tie grids e = some p) :
    r.contains p = true := by
  induction grids generalizing e with
  | zero => cases h
  | succ grids ih =>
    rw [search] at h
    split at h
    · next hnearest =>
      cases h
      exact contains_of_nearest? hnearest
    · exact ih h

/-- If one of the grids has a point in the range, a point is found. -/
theorem isSome_search {grids i : Nat} (hi : i < grids)
    (h : (r.nearest? tie (e - i)).isSome = true) : (r.search tie grids e).isSome = true := by
  induction grids generalizing e i with
  | zero => cases hi
  | succ grids ih =>
    rw [search]
    split
    · rfl
    · next hnone =>
      cases i with
      | zero =>
        rw [Nat.cast_zero, Int.sub_zero, hnone] at h
        cases h
      | succ i =>
        refine ih (i := i) (by omega) ?_
        rwa [show e - 1 - i = e - (i + 1 : Nat) by push_cast; ring]

/-- A positive number is at least the power of ten of its first digit. -/
theorem pow_le_of_length_toDigits {n k : Nat} (hpos : 0 < n)
    (hk : (Nat.toDigits 10 n).length = k + 1) : 10 ^ k ≤ n := by
  cases k with
  | zero => exact hpos
  | succ k =>
    refine not_lt.mp fun hlt => ?_
    have hle := (Nat.length_toDigits_le_iff (by norm_num) (Nat.succ_pos k)).mpr hlt
    omega

/-- The search starts at most two powers of ten above the number. -/
theorem pow_startExponent_lt (hpos : 0 < r.center) :
    (10 : ℚ) ^ (r.startExponent - 2) < r.center * 2 ^ r.unit := by
  obtain ⟨d, hd, hunits, htens⟩ := r.exists_scales_eq 0
  have hcenter : 0 < r.center * (r.scales 0).1 :=
    Nat.mul_pos hpos (Nat.mul_pos (Nat.two_pow_pos _) (Nat.pow_pos (by norm_num)))
  obtain ⟨k, hk⟩ : ∃ k, (Nat.toDigits 10 (r.center * (r.scales 0).1)).length = k + 1 :=
    Nat.exists_eq_add_one.mpr Nat.length_toDigits_pos
  obtain ⟨l, hl⟩ : ∃ l, (Nat.toDigits 10 (r.scales 0).2).length = l := ⟨_, rfl⟩
  have hnumerator : (10 : ℚ) ^ k ≤ r.center * 2 ^ r.unit * d := by
    rw [mul_assoc, ← hunits]
    exact_mod_cast pow_le_of_length_toDigits hcenter hk
  have hdenominator : d < (10 : ℚ) ^ l := by
    rw [zpow_zero, one_mul] at htens
    rw [← htens]
    have hpos : 0 < l := hl ▸ Nat.length_toDigits_pos
    exact_mod_cast (Nat.length_toDigits_le_iff (by norm_num) hpos).mp hl.le
  have hstart : r.startExponent - 2 = k - l := by
    simp only [startExponent, hk, hl]
    push_cast
    ring
  rw [hstart, zpow_sub₀ (by norm_num), zpow_natCast, zpow_natCast, div_lt_iff₀ (by positivity)]
  refine hnumerator.trans_lt (mul_lt_mul_of_pos_left hdenominator ?_)
  positivity

/-- A decimal is found for every number of at most 53 bits. -/
theorem isSome_search_ofBinary (tie : Tie) {m : Nat} (hm : m < 2 ^ 53) (hpos : 0 < m) (e : Int) :
    ((ofBinary m e).search tie 20 (ofBinary m e).startExponent).isSome = true := by
  obtain ⟨r, hr⟩ : ∃ r, r = ofBinary m e := ⟨_, rfl⟩
  have hcenter : r.center = 4 * m := by rw [hr]; rfl
  have hupper : r.upper = r.center + 2 := by rw [hr]; rfl
  have hlower : r.lower ≤ r.center := by rw [hr]; exact Nat.sub_le _ _
  rw [← hr]
  refine isSome_search (i := 19) (by norm_num) (isSome_nearest? tie hlower ?_)
  obtain ⟨d, hd, hunits, htens⟩ := r.exists_scales_eq (r.startExponent - (19 : ℕ))
  -- Seventeen digits tell numbers of 53 bits apart: 2 ^ 54 < 10 ^ 17.
  have hgrid : (10 : ℚ) ^ (r.startExponent - (19 : ℕ)) < 2 * 2 ^ r.unit := by
    have hstart := pow_startExponent_lt (r := r) (by omega)
    have hbound : (r.center : ℚ) < 2 ^ 55 := by
      rw [hcenter]
      exact_mod_cast (by omega : 4 * m < 2 ^ 55)
    have hunit : (0 : ℚ) < 2 ^ r.unit := by positivity
    have hsplit : (10 : ℚ) ^ (r.startExponent - (19 : ℕ)) =
        10 ^ (r.startExponent - 2) / 10 ^ 17 := by
      rw [show r.startExponent - (19 : ℕ) = r.startExponent - 2 - (17 : ℕ) by push_cast; ring,
        zpow_sub₀ (by norm_num), zpow_natCast]
    rw [hsplit, div_lt_iff₀ (by norm_num)]
    nlinarith
  have hscales : (r.scales (r.startExponent - (19 : ℕ))).2 <
      2 * (r.scales (r.startExponent - (19 : ℕ))).1 := by
    rw [← Nat.cast_lt (α := ℚ), Nat.cast_mul, hunits, htens, Nat.cast_ofNat, ← mul_assoc]
    exact mul_lt_mul_of_pos_right hgrid hd
  rw [hupper, Nat.add_mul]
  omega

end RoundingRange

/-- Zeros at the end of the digits do not matter. -/
theorem Point.toRat_trim (fuel : Nat) (p : Point) : (p.trim fuel).toRat = p.toRat := by
  induction fuel generalizing p with
  | zero => rfl
  | succ fuel ih =>
    rw [Point.trim]
    split
    · next h =>
      simp only [Bool.and_eq_true, decide_eq_true_eq] at h
      obtain ⟨n, hn⟩ := Nat.dvd_of_mod_eq_zero h.2
      rw [ih, toRat, toRat, hn, Nat.mul_div_cancel_left n (by norm_num),
        zpow_add_one₀ (by norm_num)]
      push_cast
      ring
    · rfl

/-- The shortest decimal of zero. -/
@[simp] theorem shortest_zero (tie : RoundingRange.Tie) (e : Int) : shortest tie 0 e = ⟨0, 0⟩ := rfl

/-- The shortest decimal of a positive number lies in its range. -/
theorem covers_shortest (tie : RoundingRange.Tie) {m : Nat} (hm : m < 2 ^ 53) (hpos : 0 < m)
    (e : Int) : (RoundingRange.ofBinary m e).Covers (shortest tie m e).toRat := by
  obtain ⟨p, hp⟩ := Option.isSome_iff_exists.mp
    (RoundingRange.isSome_search_ofBinary tie hm hpos e)
  simp only [shortest, hpos.ne', ite_false, hp, Point.toRat_trim]
  exact RoundingRange.contains_iff.mp (RoundingRange.contains_of_search hp)

namespace RoundingRange

variable {r r' : RoundingRange} {m m' : Nat} {e e' : Int} {q : ℚ}

/-- The first range ends before the second one begins; where it ends just there, one of them lacks
that end. -/
def Precedes (r r' : RoundingRange) : Prop :=
  (r.upper : ℚ) * 2 ^ r.unit < r'.lower * 2 ^ r'.unit ∨
    (r.upper : ℚ) * 2 ^ r.unit ≤ r'.lower * 2 ^ r'.unit ∧
      (r.isClosed = false ∨ r'.isClosed = false)

/-- Ranges one after the other have no number in common. -/
theorem Precedes.not_covers (h : r.Precedes r') (hq : r.Covers q) : ¬ r'.Covers q := by
  intro hq'
  rcases h with hlt | ⟨hle, hopen | hopen⟩
  · exact (hq.le_upper.trans_lt hlt).not_ge hq'.lower_le
  · exact ((hq.lt_upper hopen).trans_le hle).not_ge hq'.lower_le
  · exact (hq.le_upper.trans hle).not_gt (hq'.lower_lt hopen)

theorem isClosed_ofBinary_eq_false (h : m % 2 = 1) (e : Int) : (ofBinary m e).isClosed = false := by
  simp [ofBinary, h]

/-- With the same exponent, the range of the smaller significand comes first. -/
theorem precedes_of_significand_lt (h : IsCanonical m e) (hlt : m < m') :
    (ofBinary m e).Precedes (ofBinary m' e) := by
  have hunit : (0 : ℚ) < 2 ^ (e - 2) := by positivity
  -- The lower neighbour is as far away as the upper one, as it has the same exponent.
  have hlower : (ofBinary m' e).lower = 4 * m' - 2 := by
    have hnot : ¬ (m' = 0x10000000000000 ∧ e ≠ -1074) := fun hmin => by
      rcases h.leading with hleast | hlarge
      · exact hmin.2 hleast
      · omega
    simp only [ofBinary, Bool.and_eq_true, decide_eq_true_eq, hnot, ite_false]
  rcases Nat.lt_or_eq_of_le hlt with hgap | hnext
  · left
    refine mul_lt_mul_of_pos_right (Nat.cast_lt.mpr ?_) hunit
    change 4 * m + 2 < _
    omega
  · right
    constructor
    · refine mul_le_mul_of_nonneg_right (Nat.cast_le.mpr ?_) hunit.le
      change 4 * m + 2 ≤ _
      omega
    · rcases Nat.mod_two_eq_zero_or_one m with heven | hodd
      · exact .inr (isClosed_ofBinary_eq_false (by omega) e)
      · exact .inl (isClosed_ofBinary_eq_false hodd e)

/-- The range of the smaller exponent comes first. -/
theorem precedes_of_exponent_lt (h : IsCanonical m e) (h' : IsCanonical m' e') (hlt : e < e') :
    (ofBinary m e).Precedes (ofBinary m' e') := by
  have hunit : (0 : ℚ) < 2 ^ (e - 2) := by positivity
  have hupper := h.lt
  have hnormal : e' ≠ -1074 := (h.least_le.trans_lt hlt).ne'
  have hlarge := h'.leading.resolve_left hnormal
  have hlower : 2 ^ 54 - 1 ≤ (ofBinary m' e').lower := by
    simp only [ofBinary, Bool.and_eq_true, decide_eq_true_eq]
    split <;> omega
  -- The second unit is at least twice the first one.
  have hdouble : (2 ^ 55 - 2 : ℕ) * (2 : ℚ) ^ (e - 2) ≤
      (ofBinary m' e').lower * 2 ^ (e' - 2) := by
    have hunits : (2 : ℚ) ^ (e - 2) * 2 ≤ 2 ^ (e' - 2) := by
      rw [← zpow_add_one₀ two_ne_zero]
      exact zpow_le_zpow_right₀ one_le_two (by omega)
    have hcast : ((2 ^ 54 - 1 : ℕ) : ℚ) ≤ (ofBinary m' e').lower := Nat.cast_le.mpr hlower
    calc ((2 ^ 55 - 2 : ℕ) : ℚ) * 2 ^ (e - 2)
        = (2 ^ 54 - 1 : ℕ) * (2 ^ (e - 2) * 2) := by push_cast; ring
      _ ≤ (ofBinary m' e').lower * 2 ^ (e' - 2) := by gcongr
  rcases Nat.lt_or_eq_of_le (Nat.le_sub_one_of_lt hupper) with hsmall | hgreatest
  · left
    refine lt_of_lt_of_le ?_ hdouble
    refine mul_lt_mul_of_pos_right (Nat.cast_lt.mpr ?_) hunit
    change 4 * m + 2 < _
    omega
  · right
    constructor
    · refine le_trans ?_ hdouble
      refine mul_le_mul_of_nonneg_right (Nat.cast_le.mpr ?_) hunit.le
      change 4 * m + 2 ≤ _
      omega
    · exact .inl (isClosed_ofBinary_eq_false (by omega) e)

/-- A rational number rounds to one number only. -/
theorem eq_of_covers (h : IsCanonical m e) (h' : IsCanonical m' e')
    (hq : (ofBinary m e).Covers q) (hq' : (ofBinary m' e').Covers q) : m = m' ∧ e = e' := by
  rcases lt_trichotomy e e' with hlt | rfl | hgt
  · exact absurd hq' ((precedes_of_exponent_lt h h' hlt).not_covers hq)
  · rcases lt_trichotomy m m' with hlt | rfl | hgt
    · exact absurd hq' ((precedes_of_significand_lt h hlt).not_covers hq)
    · exact ⟨rfl, rfl⟩
    · exact absurd hq ((precedes_of_significand_lt h' hgt).not_covers hq')
  · exact absurd hq ((precedes_of_exponent_lt h' h hgt).not_covers hq')

/-- The numbers that round to a positive number are positive. -/
theorem Covers.pos (hpos : 0 < m) (h : (ofBinary m e).Covers q) : 0 < q := by
  refine lt_of_lt_of_le (mul_pos (Nat.cast_pos.mpr ?_) ?_) h.lower_le
  · simp only [ofBinary]
    split <;> omega
  · positivity

end RoundingRange

/-- Only zero has no digits. -/
theorem eq_zero_of_digits_shortest {tie : RoundingRange.Tie} {m : Nat} {e : Int} (hm : m < 2 ^ 53)
    (h : (shortest tie m e).digits = 0) : m = 0 := by
  refine Nat.eq_zero_of_not_pos fun hpos => ?_
  have hq := (covers_shortest tie hm hpos e).pos hpos
  rw [Point.toRat, h, Nat.cast_zero, zero_mul] at hq
  exact lt_irrefl 0 hq

/-- A number that is not negative is determined by its shortest decimal. -/
theorem eq_of_toRat_shortest {tie : RoundingRange.Tie} {m m' : Nat} {e e' : Int}
    (h : IsCanonical m e) (h' : IsCanonical m' e')
    (heq : (shortest tie m e).toRat = (shortest tie m' e').toRat) : m = m' ∧ e = e' := by
  have hzero : (⟨0, 0⟩ : Point).toRat = 0 := zero_mul _
  rcases Nat.eq_zero_or_pos m with rfl | hpos <;> rcases Nat.eq_zero_or_pos m' with rfl | hpos'
  · exact ⟨rfl, (h.leading.resolve_right (by norm_num)).trans
      (h'.leading.resolve_right (by norm_num)).symm⟩
  · have hq := (covers_shortest tie h'.lt hpos' e').pos hpos'
    rw [← heq, shortest_zero, hzero] at hq
    exact absurd hq (lt_irrefl 0)
  · have hq := (covers_shortest tie h.lt hpos e).pos hpos
    rw [heq, shortest_zero, hzero] at hq
    exact absurd hq (lt_irrefl 0)
  · exact RoundingRange.eq_of_covers h h' (heq ▸ covers_shortest tie h.lt hpos e)
      (covers_shortest tie h'.lt hpos' e')

end FontMetrics.Decimal
