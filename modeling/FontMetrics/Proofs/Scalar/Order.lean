import Mathlib.Tactic.ByContra
import FontMetrics.Scalar

/-!
# Ordered scalars

Scalars whose comparisons are those of a total order on the scalars that are numbers.  A scalar that
is no number compares with nothing.
-/

namespace FontMetrics.Scalar

/-- The scalar equals itself, so it has a place in the order. -/
abbrev IsNumber {α : Type} [Scalar α] (x : α) : Prop := isEq x x = true

/-- The comparisons order the numbers among the scalars, and only them. -/
class IsOrdered (α : Type) [Scalar α] : Prop where
  /-- Only numbers are compared. -/
  isNumber_of_isLe {x y : α} (h : isLe x y = true) : IsNumber x ∧ IsNumber y
  /-- Any two numbers are compared. -/
  isLe_total {x y : α} (hx : IsNumber x) (hy : IsNumber y) :
    isLe x y = true ∨ isLe y x = true
  /-- The order is transitive. -/
  isLe_trans {x y z : α} (hxy : isLe x y = true) (hyz : isLe y z = true) : isLe x z = true
  /-- Equal scalars are those at most each other. -/
  isEq_iff {x y : α} : isEq x y = true ↔ isLe x y = true ∧ isLe y x = true
  /-- Of two scalars one is less if it is at most the other, but not conversely. -/
  isLt_iff {x y : α} : isLt x y = true ↔ isLe x y = true ∧ ¬ isLe y x = true
  /-- What is finite is a number. -/
  isNumber_of_isFinite {x : α} (h : isFinite x = true) : IsNumber x

export IsOrdered (isNumber_of_isLe isLe_total isLe_trans isEq_iff isLt_iff isNumber_of_isFinite)

/-- A scalar is one of the values and at most each of them. -/
structure IsLeast {α : Type} [Scalar α] (m : α) (values : List α) : Prop where
  /-- The scalar is one of the values. -/
  mem : m ∈ values
  /-- No value is less. -/
  isLe : ∀ x ∈ values, isLe m x = true

/-- A scalar is one of the values and at least each of them. -/
structure IsGreatest {α : Type} [Scalar α] (m : α) (values : List α) : Prop where
  /-- The scalar is one of the values. -/
  mem : m ∈ values
  /-- No value is greater. -/
  isLe : ∀ x ∈ values, isLe x m = true

variable {α : Type} [Scalar α]

/-- The smaller of two scalars is one of them. -/
theorem min_choice (x y : α) : min x y = x ∨ min x y = y := by
  unfold min
  split
  · split
    · exact Or.inr rfl
    · exact Or.inl rfl
  · exact Or.inr rfl

/-- The larger of two scalars is one of them. -/
theorem max_choice (x y : α) : max x y = x ∨ max x y = y := by
  unfold max
  split
  · split
    · exact Or.inr rfl
    · exact Or.inl rfl
  · exact Or.inr rfl

section IsOrdered

variable [IsOrdered α]

/-- A number is at most itself. -/
theorem isLe_refl {x : α} (hx : IsNumber x) : isLe x x = true :=
  (isEq_iff.mp hx).1

/-- A number that is not less than another is at least that one. -/
theorem isLe_of_not_isLt {x y : α} (hx : IsNumber x) (hy : IsNumber y)
    (h : ¬ isLt x y = true) : isLe y x = true := by
  rcases isLe_total hx hy with hle | hle
  · by_contra hnot
    exact h (isLt_iff.mpr ⟨hle, hnot⟩)
  · exact hle

/-- The smaller of two numbers is at most both. -/
theorem min_isLe {x y : α} (hx : IsNumber x) (hy : IsNumber y) :
    isLe (min x y) x = true ∧ isLe (min x y) y = true := by
  rw [min, if_pos hx]
  split
  · next h => exact ⟨(isLt_iff.mp h).1, isLe_refl hy⟩
  · next h => exact ⟨isLe_refl hx, isLe_of_not_isLt hy hx h⟩

/-- The larger of two numbers is at least both. -/
theorem isLe_max {x y : α} (hx : IsNumber x) (hy : IsNumber y) :
    isLe x (max x y) = true ∧ isLe y (max x y) = true := by
  rw [max, if_pos hx]
  split
  · next h => exact ⟨(isLt_iff.mp h).1, isLe_refl hy⟩
  · next h => exact ⟨isLe_refl hx, isLe_of_not_isLt hx hy h⟩

/-- A number is the least of itself. -/
theorem IsLeast.singleton {x : α} (hx : IsNumber x) : IsLeast x [x] where
  mem := List.mem_singleton_self x
  isLe y hy := by
    rw [List.mem_singleton.mp hy]
    exact isLe_refl hx

/-- A number is the greatest of itself. -/
theorem IsGreatest.singleton {x : α} (hx : IsNumber x) : IsGreatest x [x] where
  mem := List.mem_singleton_self x
  isLe y hy := by
    rw [List.mem_singleton.mp hy]
    exact isLe_refl hx

/-- The least of some values and one more number. -/
theorem IsLeast.concat {m x : α} {values : List α} (h : IsLeast m values)
    (hx : IsNumber x) : IsLeast (min m x) (values ++ [x]) where
  mem := by
    rcases min_choice m x with hmin | hmin <;> rw [hmin]
    · exact List.mem_append_left _ h.mem
    · exact List.mem_append_right _ (List.mem_singleton_self x)
  isLe y hy := by
    obtain ⟨hm, hle⟩ := min_isLe (isNumber_of_isLe (h.isLe m h.mem)).1 hx
    rcases List.mem_append.mp hy with hy | hy
    · exact isLe_trans hm (h.isLe y hy)
    · rwa [List.mem_singleton.mp hy]

/-- The greatest of some values and one more number. -/
theorem IsGreatest.concat {m x : α} {values : List α} (h : IsGreatest m values)
    (hx : IsNumber x) : IsGreatest (max m x) (values ++ [x]) where
  mem := by
    rcases max_choice m x with hmax | hmax <;> rw [hmax]
    · exact List.mem_append_left _ h.mem
    · exact List.mem_append_right _ (List.mem_singleton_self x)
  isLe y hy := by
    obtain ⟨hm, hle⟩ := isLe_max (isNumber_of_isLe (h.isLe m h.mem)).1 hx
    rcases List.mem_append.mp hy with hy | hy
    · exact isLe_trans (h.isLe y hy) hm
    · rwa [List.mem_singleton.mp hy]

end IsOrdered

end FontMetrics.Scalar
