import Mathlib.Analysis.Real.Sqrt
import Mathlib.Order.Interval.Set.Basic
import Mathlib.Tactic.FieldSimp
import Mathlib.Tactic.Linarith
import Mathlib.Tactic.LinearCombination
import Mathlib.Tactic.Ring
import FontMetrics.Outline.Bezier
import FontMetrics.Proofs.Scalar.Field

/-!
# The extent of a cubic curve

In exact arithmetic the range that `extent` computes is the range of the curve over the unit
interval, whichever way its derivative degenerates.  The derivative keeps its sign between two
neighbouring critical parameters, so the curve is monotone there and its values lie between those
at the two ends.
-/

namespace FontMetrics.Bezier

open Set

variable {K : Type} [Field K] [LinearOrder K]

/-- The cubic curve with the given control values, in Bernstein form. -/
def bernstein (p0 p1 p2 p3 t : K) : K :=
  p0 * (1 - t) ^ 3 + 3 * p1 * t * (1 - t) ^ 2 + 3 * p2 * t ^ 2 * (1 - t) + p3 * t ^ 3

/-- A third of the derivative of the curve, as a polynomial in the parameter. -/
def velocity (p0 p1 p2 p3 t : K) : K :=
  (p3 - p0 + 3 * (p1 - p2)) * t ^ 2 + (2 * (p0 + p2) - 4 * p1) * t + (p1 - p0)

/-- A function does not take both positive and negative values between two parameters. -/
def KeepsSign (f : K → K) (s e : K) : Prop :=
  (∀ t ∈ Icc s e, 0 ≤ f t) ∨ ∀ t ∈ Icc s e, f t ≤ 0

/-- A pair holds the least and the greatest of some values. -/
structure IsRange (range : K × K) (values : List K) : Prop where
  /-- The lower end is one of the values. -/
  lower_mem : range.1 ∈ values
  /-- The upper end is one of the values. -/
  upper_mem : range.2 ∈ values
  /-- No value is outside. -/
  bounds : ∀ x ∈ values, range.1 ≤ x ∧ x ≤ range.2

omit [LinearOrder K] in
@[simp] theorem bernstein_zero (p0 p1 p2 p3 : K) : bernstein p0 p1 p2 p3 0 = p0 := by
  simp [bernstein]

omit [LinearOrder K] in
@[simp] theorem bernstein_one (p0 p1 p2 p3 : K) : bernstein p0 p1 p2 p3 1 = p3 := by
  simp [bernstein]

section Ordered

variable [IsStrictOrderedRing K]

/-- Simpson's rule is exact on the velocity of a cubic curve. -/
theorem bernstein_sub (p0 p1 p2 p3 s t : K) :
    bernstein p0 p1 p2 p3 t - bernstein p0 p1 p2 p3 s =
      (t - s) / 2 * (velocity p0 p1 p2 p3 s + 4 * velocity p0 p1 p2 p3 ((s + t) / 2) +
        velocity p0 p1 p2 p3 t) := by
  unfold bernstein velocity
  ring

/-- Where the velocity keeps its sign, the curve is monotone. -/
theorem monotoneOn_or_antitoneOn {p0 p1 p2 p3 s e : K}
    (h : KeepsSign (velocity p0 p1 p2 p3) s e) :
    MonotoneOn (bernstein p0 p1 p2 p3) (Icc s e) ∨
      AntitoneOn (bernstein p0 p1 p2 p3) (Icc s e) := by
  have middle : ∀ {t u : K}, t ∈ Icc s e → u ∈ Icc s e → t ≤ u → (t + u) / 2 ∈ Icc s e := by
    intro t u ht hu htu
    exact ⟨by linarith [ht.1], by linarith [hu.2]⟩
  rcases h with h | h
  · refine Or.inl fun t ht u hu htu => sub_nonneg.mp ?_
    rw [bernstein_sub]
    have ht' := h t ht
    have hm := h _ (middle ht hu htu)
    have hu' := h u hu
    exact mul_nonneg (by linarith) (by linarith)
  · refine Or.inr fun t ht u hu htu => sub_nonpos.mp ?_
    rw [bernstein_sub]
    have ht' := h t ht
    have hm := h _ (middle ht hu htu)
    have hu' := h u hu
    exact mul_nonpos_of_nonneg_of_nonpos (by linarith) (by linarith)

omit [IsStrictOrderedRing K] in
/-- A constant keeps its sign. -/
theorem KeepsSign.const (c s e : K) : KeepsSign (fun _ => c) s e := by
  rcases le_total 0 c with h | h
  · exact Or.inl fun _ _ => h
  · exact Or.inr fun _ _ => h

/-- The distance from a point that is not strictly between two parameters keeps its sign. -/
theorem KeepsSign.sub_const {r s e : K} (h : r ≤ s ∨ e ≤ r) : KeepsSign (fun t => t - r) s e := by
  rcases h with h | h
  · exact Or.inl fun t ht => sub_nonneg.mpr (h.trans ht.1)
  · exact Or.inr fun t ht => sub_nonpos.mpr (ht.2.trans h)

/-- A product keeps its sign if both factors do. -/
theorem KeepsSign.mul {f g : K → K} {s e : K} (hf : KeepsSign f s e) (hg : KeepsSign g s e) :
    KeepsSign (fun t => f t * g t) s e := by
  rcases hf with hf | hf <;> rcases hg with hg | hg
  · exact Or.inl fun t ht => mul_nonneg (hf t ht) (hg t ht)
  · exact Or.inr fun t ht => mul_nonpos_of_nonneg_of_nonpos (hf t ht) (hg t ht)
  · exact Or.inr fun t ht => mul_nonpos_of_nonpos_of_nonneg (hf t ht) (hg t ht)
  · exact Or.inl fun t ht => mul_nonneg_of_nonpos_of_nonpos (hf t ht) (hg t ht)

/-- A quadratic polynomial with a negative discriminant keeps its sign everywhere. -/
theorem KeepsSign.of_discriminant_neg {a b c : K} (h : b * b - 4 * a * c < 0) (s e : K) :
    KeepsSign (fun t => a * t ^ 2 + b * t + c) s e := by
  have square : ∀ t : K, 0 ≤ 4 * a * (a * t ^ 2 + b * t + c) := by
    intro t
    have hsq := sq_nonneg (2 * a * t + b)
    linarith [show 4 * a * (a * t ^ 2 + b * t + c) =
      (2 * a * t + b) ^ 2 - (b * b - 4 * a * c) by ring]
  have ha : a ≠ 0 := by
    rintro rfl
    linarith [mul_self_nonneg b, show b * b - 4 * 0 * c = b * b by ring]
  rcases lt_or_gt_of_ne ha with ha | ha
  · exact Or.inr fun t _ => nonpos_of_mul_nonneg_right (square t) (by linarith)
  · exact Or.inl fun t _ => nonneg_of_mul_nonneg_right (square t) (by linarith)

/-- A quadratic polynomial with two known roots keeps its sign where neither is inside. -/
theorem KeepsSign.of_roots {a b c w s e : K} (ha : a ≠ 0) (hw : w * w = b * b - 4 * a * c)
    (hplus : (-b + w) / (a + a) ≤ s ∨ e ≤ (-b + w) / (a + a))
    (hminus : (-b - w) / (a + a) ≤ s ∨ e ≤ (-b - w) / (a + a)) :
    KeepsSign (fun t => a * t ^ 2 + b * t + c) s e := by
  have factor : (fun t => a * t ^ 2 + b * t + c) =
      fun t => a * (t - (-b + w) / (a + a)) * (t - (-b - w) / (a + a)) := by
    funext t
    have hsum : a + a ≠ 0 := by
      rw [← two_mul]
      exact mul_ne_zero two_ne_zero ha
    field_simp
    linear_combination hw
  rw [factor]
  exact ((KeepsSign.const a s e).mul (.sub_const hplus)).mul (.sub_const hminus)

variable {root : K → K} (truncate : K → Option Int)

omit [IsStrictOrderedRing K] in
/-- The critical parameters in terms of the field. -/
theorem criticalParameters_ofField (p0 p1 p2 p3 : K) :
    @criticalParameters K (.ofField root truncate) p0 p1 p2 p3 =
      let a := p3 - p0 + 3 * (p1 - p2)
      let b := 2 * (p0 + p2) - 4 * p1
      let c := p1 - p0
      if a = 0 then
        if b = 0 then [] else [-c / b]
      else if 0 ≤ b * b - 4 * a * c then
        [(-b + root (b * b - 4 * a * c)) / (a + a), (-b - root (b * b - 4 * a * c)) / (a + a)]
      else [] := by
  simp only [criticalParameters, Scalar.isEq_ofField, Scalar.isLe_ofField, Scalar.zero_ofField,
    Scalar.ofInt, Int.cast_ofNat]
  rfl

/-- The velocity keeps its sign between two parameters that no critical parameter separates. -/
theorem keepsSign_velocity (hroot : ∀ x, 0 ≤ x → root x * root x = x) {p0 p1 p2 p3 s e : K}
    (h : ∀ r ∈ @criticalParameters K (.ofField root truncate) p0 p1 p2 p3, r ≤ s ∨ e ≤ r) :
    KeepsSign (velocity p0 p1 p2 p3) s e := by
  rw [criticalParameters_ofField] at h
  change KeepsSign (fun t => (p3 - p0 + 3 * (p1 - p2)) * t ^ 2 + (2 * (p0 + p2) - 4 * p1) * t +
    (p1 - p0)) s e
  generalize p3 - p0 + 3 * (p1 - p2) = a at h ⊢
  generalize 2 * (p0 + p2) - 4 * p1 = b at h ⊢
  generalize p1 - p0 = c at h ⊢
  simp only at h
  split at h
  · next ha =>
    subst ha
    split at h
    · next hb =>
      -- The velocity is constant.
      subst hb
      simpa using KeepsSign.const c s e
    · next hb =>
      -- The velocity is linear.
      have linear : (fun t => 0 * t ^ 2 + b * t + c) = fun t => b * (t - -c / b) := by
        funext t
        field_simp
        ring
      rw [linear]
      exact (KeepsSign.const b s e).mul (.sub_const (h _ (List.mem_singleton.mpr rfl)))
  · next ha =>
    split at h
    · next hdisc =>
      exact .of_roots ha (hroot _ hdisc) (h _ (by simp)) (h _ (by simp))
    · next hdisc => exact .of_discriminant_neg (not_le.mp hdisc) s e

omit [Field K] [IsStrictOrderedRing K] in
/-- A function that is monotone between any two parameters that no root separates takes every value
between two of those at the ends and at the roots inside.  The roots still pending split the
interval one by one. -/
theorem exists_bounds_of_monotone {f : K → K} {roots : List K} {candidates : Set K}
    (hmono : ∀ s e, (∀ r ∈ roots, r ≤ s ∨ e ≤ r) →
      MonotoneOn f (Icc s e) ∨ AntitoneOn f (Icc s e))
    (pending : List K) {s e t : K} (hpending : ∀ r ∈ roots, r ∈ pending ∨ r ≤ s ∨ e ≤ r)
    (hs : s ∈ candidates) (he : e ∈ candidates)
    (hinside : ∀ r ∈ pending, r ∈ Ioo s e → r ∈ candidates) (ht : t ∈ Icc s e) :
    ∃ u ∈ candidates, ∃ v ∈ candidates, f u ≤ f t ∧ f t ≤ f v := by
  induction pending generalizing s e with
  | nil =>
    have hse : s ≤ e := ht.1.trans ht.2
    rcases hmono s e fun r hr => (hpending r hr).resolve_left List.not_mem_nil with hf | hf
    · exact ⟨s, hs, e, he, hf (left_mem_Icc.mpr hse) ht ht.1, hf ht (right_mem_Icc.mpr hse) ht.2⟩
    · exact ⟨e, he, s, hs, hf ht (right_mem_Icc.mpr hse) ht.2, hf (left_mem_Icc.mpr hse) ht ht.1⟩
  | cons r rest ih =>
    have hcases : ∀ x ∈ roots, x = r ∨ x ∈ rest ∨ x ≤ s ∨ e ≤ x := by
      intro x hx
      rcases hpending x hx with hx | hx
      · exact (List.mem_cons.mp hx).imp_right Or.inl
      · exact Or.inr (Or.inr hx)
    have hrest : ∀ x ∈ rest, x ∈ Ioo s e → x ∈ candidates := by
      intro x hx
      exact hinside x (List.mem_cons_of_mem r hx)
    by_cases hr : r ∈ Ioo s e
    · have hrc : r ∈ candidates := hinside r List.mem_cons_self hr
      rcases le_total t r with htr | hrt
      · refine ih ?_ hs hrc ?_ ⟨ht.1, htr⟩
        · intro x hx
          rcases hcases x hx with rfl | hx | hx | hx
          · exact Or.inr (Or.inr le_rfl)
          · exact Or.inl hx
          · exact Or.inr (Or.inl hx)
          · exact Or.inr (Or.inr (hr.2.le.trans hx))
        · intro x hx hxr
          exact hrest x hx ⟨hxr.1, hxr.2.trans hr.2⟩
      · refine ih ?_ hrc he ?_ ⟨hrt, ht.2⟩
        · intro x hx
          rcases hcases x hx with rfl | hx | hx | hx
          · exact Or.inr (Or.inl le_rfl)
          · exact Or.inl hx
          · exact Or.inr (Or.inl (hx.trans hr.1.le))
          · exact Or.inr (Or.inr hx)
        · intro x hx hxr
          exact hrest x hx ⟨hr.1.trans hxr.1, hxr.2⟩
    · refine ih ?_ hs he hrest ht
      intro x hx
      rcases hcases x hx with rfl | hx
      · exact Or.inr (by simpa only [mem_Ioo, not_and_or, not_lt] using hr)
      · exact hx

omit [IsStrictOrderedRing K] in
/-- The evaluation of a curve computes its Bernstein form. -/
theorem eval_ofField (p0 p1 p2 p3 t : K) :
    @eval K (.ofField root truncate) p0 p1 p2 p3 t = bernstein p0 p1 p2 p3 t := by
  simp only [eval, Scalar.one_ofField, Scalar.ofInt, Int.cast_ofNat, bernstein]
  change p0 * (1 - t) * (1 - t) * (1 - t) + 3 * (1 - t) * t * (p1 * (1 - t) + p2 * t) +
    p3 * t * t * t = _
  ring

omit [IsStrictOrderedRing K] in
/-- The interior extrema are the values at the critical parameters inside the unit interval. -/
theorem mem_interiorExtrema_ofField {p0 p1 p2 p3 x : K} :
    x ∈ @interiorExtrema K (.ofField root truncate) p0 p1 p2 p3 ↔
      ∃ r ∈ @criticalParameters K (.ofField root truncate) p0 p1 p2 p3,
        r ∈ Ioo 0 1 ∧ bernstein p0 p1 p2 p3 r = x := by
  simp only [interiorExtrema, List.mem_map, List.mem_filter, Bool.and_eq_true,
    Scalar.isLt_ofField, Scalar.zero_ofField, Scalar.one_ofField, eval_ofField, mem_Ioo, and_assoc]

omit [Field K] [IsStrictOrderedRing K] in
/-- The ends of a range are in order. -/
theorem IsRange.le {lo hi : K} {seen : List K} (h : IsRange (lo, hi) seen) : lo ≤ hi :=
  (h.bounds lo h.lower_mem).2

omit [Field K] [IsStrictOrderedRing K] in
/-- The range of one more value. -/
theorem IsRange.concat {lo hi : K} {seen : List K} (h : IsRange (lo, hi) seen) (x : K) :
    IsRange (min lo x, max hi x) (seen ++ [x]) where
  lower_mem := by
    rcases min_choice lo x with hmin | hmin <;> rw [hmin]
    · exact List.mem_append_left _ h.lower_mem
    · exact List.mem_append_right _ (List.mem_singleton_self x)
  upper_mem := by
    rcases max_choice hi x with hmax | hmax <;> rw [hmax]
    · exact List.mem_append_left _ h.upper_mem
    · exact List.mem_append_right _ (List.mem_singleton_self x)
  bounds y hy := by
    rcases List.mem_append.mp hy with hy | hy
    · obtain ⟨hlo, hhi⟩ := h.bounds y hy
      exact ⟨(min_le_left lo x).trans hlo, hhi.trans (le_max_left hi x)⟩
    · obtain rfl := List.mem_singleton.mp hy
      exact ⟨min_le_right lo y, le_max_right hi y⟩

omit [IsStrictOrderedRing K] in
/-- Widening the range of some values by others makes it the range of all. -/
theorem IsRange.widen {lo hi : K} {seen : List K} (h : IsRange (lo, hi) seen) (rest : List K) :
    IsRange (@Bezier.widen K (.ofField root truncate) lo hi rest) (seen ++ rest) := by
  fun_induction @Bezier.widen K (.ofField root truncate) lo hi rest generalizing seen with
  | case1 lo hi => simpa only [List.append_nil] using h
  | case2 lo hi x hx =>
    rw [Scalar.isLt_ofField] at hx
    simpa only [min_eq_right hx.le, max_eq_left (hx.le.trans h.le)] using h.concat x
  | case3 lo hi x hx =>
    rw [Scalar.isLt_ofField, not_lt] at hx
    rw [Scalar.ite_isLt_ofField_max, max_comm]
    simpa only [min_eq_left hx] using h.concat x
  | case4 lo hi x y rest small large horder ih =>
    rw [Scalar.ite_isLt_ofField_order, Prod.mk.injEq] at horder
    obtain ⟨rfl, rfl⟩ := horder
    rw [Scalar.ite_isLt_ofField_min, Scalar.ite_isLt_ofField_max] at ih ⊢
    have hpair : IsRange (min (min x y) lo, max (max x y) hi) (seen ++ [x] ++ [y]) := by
      simpa only [min_comm, max_comm, min_left_comm, max_left_comm] using (h.concat x).concat y
    have hstep := ih hpair
    simpa only [List.append_assoc, List.cons_append, List.nil_append] using hstep

omit [IsStrictOrderedRing K] in
/-- The extent of a curve is the range of its values at the ends and of the interior extrema. -/
theorem isRange_extent (p0 p1 p2 p3 : K) :
    IsRange (@extent K (.ofField root truncate) p0 p1 p2 p3)
      (p0 :: p3 :: @interiorExtrema K (.ofField root truncate) p0 p1 p2 p3) := by
  have hends : IsRange (min p0 p3, max p0 p3) [p0, p3] := by
    have hstart : IsRange (p0, p0) [p0] := ⟨by simp, by simp, by simp⟩
    exact hstart.concat p3
  simp only [extent, Scalar.ite_isLt_ofField_order]
  exact hends.widen truncate _

/-- The values that the extent ranges over are values of the curve. -/
theorem mem_image_bernstein {p0 p1 p2 p3 x : K}
    (hx : x ∈ p0 :: p3 :: @interiorExtrema K (.ofField root truncate) p0 p1 p2 p3) :
    x ∈ bernstein p0 p1 p2 p3 '' Icc 0 1 := by
  rcases List.mem_cons.mp hx with rfl | hx
  · exact ⟨0, left_mem_Icc.mpr zero_le_one, bernstein_zero x p1 p2 p3⟩
  rcases List.mem_cons.mp hx with rfl | hx
  · exact ⟨1, right_mem_Icc.mpr zero_le_one, bernstein_one p0 p1 p2 x⟩
  obtain ⟨r, _, hr, hvalue⟩ := (mem_interiorExtrema_ofField truncate).mp hx
  exact ⟨r, Ioo_subset_Icc_self hr, hvalue⟩

/-- Every value of the curve lies between two of those that the extent ranges over. -/
theorem exists_values_around (hroot : ∀ x, 0 ≤ x → root x * root x = x) (p0 p1 p2 p3 : K) {t : K}
    (ht : t ∈ Icc 0 1) :
    let values := p0 :: p3 :: @interiorExtrema K (.ofField root truncate) p0 p1 p2 p3
    ∃ x ∈ values, ∃ y ∈ values, x ≤ bernstein p0 p1 p2 p3 t ∧ bernstein p0 p1 p2 p3 t ≤ y := by
  intro values
  have hstart : (0 : K) ∈ {u | bernstein p0 p1 p2 p3 u ∈ values} := by simp [values]
  have hstop : (1 : K) ∈ {u | bernstein p0 p1 p2 p3 u ∈ values} := by simp [values]
  obtain ⟨u, hu, v, hv, hbounds⟩ := exists_bounds_of_monotone
    (fun s e hroots => monotoneOn_or_antitoneOn (keepsSign_velocity truncate hroot hroots))
    (@criticalParameters K (.ofField root truncate) p0 p1 p2 p3) (fun r hr => Or.inl hr)
    hstart hstop (fun r hr hinside => by
      refine List.mem_cons_of_mem _ (List.mem_cons_of_mem _ ?_)
      exact (mem_interiorExtrema_ofField truncate).mpr ⟨r, hr, hinside, rfl⟩) ht
  exact ⟨_, hu, _, hv, hbounds⟩

/-- In exact arithmetic the ends of the extent of a cubic curve are the least and the greatest of
its values over the unit interval. -/
theorem extent_exact (hroot : ∀ x, 0 ≤ x → root x * root x = x) (p0 p1 p2 p3 : K) :
    IsLeast (bernstein p0 p1 p2 p3 '' Icc 0 1)
        (@extent K (.ofField root truncate) p0 p1 p2 p3).1 ∧
      IsGreatest (bernstein p0 p1 p2 p3 '' Icc 0 1)
        (@extent K (.ofField root truncate) p0 p1 p2 p3).2 := by
  have hrange : IsRange (@extent K (.ofField root truncate) p0 p1 p2 p3) _ :=
    isRange_extent truncate p0 p1 p2 p3
  have hbounds : ∀ t ∈ Icc 0 1,
      (@extent K (.ofField root truncate) p0 p1 p2 p3).1 ≤ bernstein p0 p1 p2 p3 t ∧
        bernstein p0 p1 p2 p3 t ≤ (@extent K (.ofField root truncate) p0 p1 p2 p3).2 := by
    intro t ht
    obtain ⟨x, hx, y, hy, hlo, hhi⟩ := exists_values_around truncate hroot p0 p1 p2 p3 ht
    exact ⟨(hrange.bounds x hx).1.trans hlo, hhi.trans (hrange.bounds y hy).2⟩
  refine ⟨⟨mem_image_bernstein truncate hrange.lower_mem, ?_⟩,
    mem_image_bernstein truncate hrange.upper_mem, ?_⟩
  · rintro _ ⟨t, ht, rfl⟩
    exact (hbounds t ht).1
  · rintro _ ⟨t, ht, rfl⟩
    exact (hbounds t ht).2

end Ordered

/-- Over the real numbers the curve from 0 over 100 and -100 back to 0 stays between its two
interior extrema, which its control points exceed. -/
theorem extent_exact_real :
    (∀ x : ℝ, 0 ≤ x → √x * √x = x) ∧
      IsLeast (bernstein (0 : ℝ) 100 (-100) 0 '' Icc 0 1)
        (@extent ℝ (.ofField Real.sqrt fun x => some (if 0 ≤ x then ⌊x⌋ else ⌈x⌉))
          0 100 (-100) 0).1 ∧
      IsGreatest (bernstein (0 : ℝ) 100 (-100) 0 '' Icc 0 1)
        (@extent ℝ (.ofField Real.sqrt fun x => some (if 0 ≤ x then ⌊x⌋ else ⌈x⌉))
          0 100 (-100) 0).2 :=
  ⟨fun _ => Real.mul_self_sqrt,
    extent_exact (fun x => some (if 0 ≤ x then ⌊x⌋ else ⌈x⌉)) (fun _ => Real.mul_self_sqrt)
      0 100 (-100) 0⟩

end FontMetrics.Bezier
