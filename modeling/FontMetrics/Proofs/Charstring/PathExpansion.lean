import Mathlib.Data.List.OfFn
import Mathlib.Data.Fin.VecNotation
import FontMetrics.Proofs.Checked.Path

/-!
# Paths, segment by segment

Path operators take their operands group by group, and each group is a segment.  Here every operator
is given the numbers of operands that it takes, and the segments by the place of their operands.

Curves that start along the two axes in turn are read in pairs, after a single one where their
number is odd.  `turningCurves` reads them one by one instead; the two agree for every number of
operands.
-/

namespace FontMetrics.Charstring

section Groups

variable {α β σ : Type} {k : Nat}

/-- The place of an operand in a whole group is among the operands. -/
theorem group_index_lt {n : Nat} (i : Fin (n / k)) (j : Fin k) : k * i + j < n :=
  calc k * i + j
    _ < k * (i + 1) := by rw [Nat.mul_succ]; omega
    _ ≤ k * (n / k) := Nat.mul_le_mul_left k i.isLt
    _ ≤ n := Nat.mul_div_le n k

/-- The operands in groups of `k`, each given to `f` with the number of groups in front of it.
Operands at the end that do not fill a group are left out. -/
def groups (k : Nat) (f : Nat → (Fin k → α) → β) (operands : List α) : List β :=
  List.ofFn fun i : Fin (operands.length / k) =>
    f i fun j => operands.get ⟨k * i + j, group_index_lt i j⟩

/-- Too few operands make no group. -/
theorem groups_of_lt {f : Nat → (Fin k → α) → β} {operands : List α} (h : operands.length < k) :
    groups k f operands = [] :=
  List.eq_nil_of_length_eq_zero (by rw [groups, List.length_ofFn, Nat.div_eq_of_lt h])

/-- The first group comes first, and the others are counted from the second on. -/
theorem groups_append (hk : 0 < k) (f : Nat → (Fin k → α) → β) (d : Fin k → α) (rest : List α) :
    groups k f (List.ofFn d ++ rest) = f 0 d :: groups k (fun i => f (i + 1)) rest := by
  have hlength : (List.ofFn d ++ rest).length / k = rest.length / k + 1 := by
    rw [List.length_append, List.length_ofFn, Nat.add_div_left _ hk]
  refine List.ext_getElem (by simp only [groups, List.length_ofFn, List.length_cons, hlength])
    fun i h₁ h₂ => ?_
  cases i with
  | zero =>
    simp only [groups, List.getElem_ofFn, List.getElem_cons_zero]
    refine congrArg (f 0) (funext fun j => ?_)
    simp
  | succ i =>
    simp only [groups, List.getElem_ofFn, List.getElem_cons_succ]
    refine congrArg (f (i + 1)) (funext fun j => ?_)
    have hindex : k * (i + 1) + j = (List.ofFn d).length + (k * i + j) := by
      rw [List.length_ofFn, Nat.mul_succ]
      omega
    simp only [List.get_eq_getElem, hindex]
    rw [List.getElem_append_right (by omega)]
    simp

example : groups 2 (fun i d => (i, d 0, d 1)) [5, 6, 7, 8, 9] = [(0, 5, 6), (1, 7, 8)] := by decide

/-- As many operands as a group has make one group. -/
theorem groups_ofFn (hk : 0 < k) (f : Nat → (Fin k → α) → β) (d : Fin k → α) :
    groups k f (List.ofFn d) = [f 0 d] := by
  have hgroup := groups_append hk f d []
  have hnil : ([] : List α).length < k := hk
  rwa [List.append_nil, groups_of_lt hnil] at hgroup

private theorem exists_ofFn {l : List α} (h : l.length = k) : ∃ d : Fin k → α, l = List.ofFn d := by
  subst h
  exact ⟨l.get, (List.ofFn_get l).symm⟩

/-- A list with a group in front. -/
theorem exists_group {operands : List α} (h : k ≤ operands.length) :
    ∃ (d : Fin k → α) (rest : List α), operands = List.ofFn d ++ rest := by
  obtain ⟨d, hd⟩ := exists_ofFn (List.length_take_of_le h)
  exact ⟨d, operands.drop k, by rw [← hd, List.take_append_drop]⟩

/-- A list with a group at its end. -/
theorem exists_last_group {operands : List α} (h : k ≤ operands.length) :
    ∃ (front : List α) (d : Fin k → α), operands = front ++ List.ofFn d := by
  have hlength : (operands.drop (operands.length - k)).length = k := by
    rw [List.length_drop]
    omega
  obtain ⟨d, hd⟩ := exists_ofFn hlength
  exact ⟨operands.take (operands.length - k), d, by rw [← hd, List.take_append_drop]⟩

/-- What takes one group after another, and refuses operands that do not fill a group, takes whole
groups only. -/
theorem eq_groups (hk : 0 < k) (read : σ → List α → Except Error (List β)) (next : σ → σ)
    (f : σ → (Fin k → α) → β) (hnil : ∀ s, read s [] = .ok [])
    (hshort : ∀ s operands, operands.length % k ≠ 0 → operands.length < k →
      read s operands = .error .operandCount)
    (hgroup : ∀ s d rest, read s (List.ofFn d ++ rest) = (f s d :: ·) <$> read (next s) rest)
    (s : σ) (operands : List α) :
    read s operands =
      if operands.length % k = 0 then .ok (groups k (fun i => f (next^[i] s)) operands)
      else .error .operandCount := by
  induction hlength : operands.length using Nat.strongRecOn generalizing s operands with
  | ind n ih =>
    subst hlength
    by_cases hlt : operands.length < k
    · by_cases hmod : operands.length % k = 0
      · rw [if_pos hmod, groups_of_lt hlt]
        rw [Nat.mod_eq_of_lt hlt] at hmod
        rw [List.eq_nil_of_length_eq_zero hmod, hnil]
      · rw [hshort s operands hmod hlt, if_neg hmod]
    · obtain ⟨d, rest, rfl⟩ := exists_group (not_lt.mp hlt)
      have hlength : (List.ofFn d ++ rest).length = k + rest.length := by simp
      rw [hgroup, groups_append hk, hlength, Nat.add_mod_left,
        ih rest.length (by omega) (next s) rest rfl]
      split_ifs <;> rfl

end Groups

/-- The axis that is reached by changing the axis so many times. -/
def Axis.after (axis : Axis) (i : Nat) : Axis := if i % 2 = 0 then axis else axis.other

/-- One change more is one change of the other axis. -/
theorem Axis.after_succ (axis : Axis) (i : Nat) : axis.after (i + 1) = axis.other.after i := by
  unfold Axis.after
  by_cases h : i % 2 = 0
  · rw [if_neg (by omega), if_pos h]
  · rw [if_pos (by omega), if_neg h, other_other]

namespace PathOperands

variable {α : Type}

/-- A line for every two operands. -/
def lineSteps : List α → List (PathStep α) := groups 2 fun _ d => .line (d 0) (d 1)

/-- A curve for every six operands. -/
def curveSteps : List α → List (PathStep α) :=
  groups 6 fun _ d => .curve (d 0) (d 1) (d 2) (d 3) (d 4) (d 5)

private theorem lines_eq (operands : List α) :
    lines operands =
      if operands.length % 2 = 0 then .ok (lineSteps operands) else .error .operandCount :=
  eq_groups (by decide) (fun _ : Unit => lines) id (fun _ d => .line (d 0) (d 1)) (fun _ => rfl)
    (fun _ operands hmod hlt => by
      match operands with
      | [] => exact absurd rfl hmod
      | [_] => rfl
      | _ :: _ :: _ => simp only [List.length_cons] at hlt; omega)
    (fun _ _ _ => rfl) () operands

private theorem curves_eq (operands : List α) :
    curves operands =
      if operands.length % 6 = 0 then .ok (curveSteps operands) else .error .operandCount :=
  eq_groups (by decide) (fun _ : Unit => curves) id
    (fun _ d => .curve (d 0) (d 1) (d 2) (d 3) (d 4) (d 5)) (fun _ => rfl)
    (fun _ _ hmod _ => PathReader.curves_eq_error hmod) (fun _ _ _ => rfl) () operands

/-- Curves and a line behind them are read apart. -/
theorem curvesThenLine_append (d : Fin 2 → α) : ∀ front : List α,
    curvesThenLine (front ++ List.ofFn d) = (· ++ lineSteps (List.ofFn d)) <$> curves front
  | [] => by
    rw [lineSteps, groups_ofFn (by decide)]
    rfl
  | [_] | [_, _] | [_, _, _] | [_, _, _, _] | [_, _, _, _, _] => rfl
  | _ :: _ :: _ :: _ :: _ :: _ :: rest => by
    simp only [List.cons_append, curvesThenLine, curves, curvesThenLine_append d rest,
      Functor.map_map]

/-- The last two operands are the line. -/
private theorem curvesThenLine_eq (operands : List α) :
    curvesThenLine operands =
      if operands.length % 6 = 2 then
        .ok (curveSteps (operands.take (operands.length - 2)) ++
          lineSteps (operands.drop (operands.length - 2)))
      else .error .operandCount := by
  by_cases hlt : operands.length < 2
  · rw [if_neg (by omega)]
    match operands with
    | [] | [_] => rfl
    | _ :: _ :: _ => simp only [List.length_cons] at hlt; omega
  · obtain ⟨front, d, rfl⟩ := exists_last_group (not_lt.mp hlt)
    have hlength : (front ++ List.ofFn d).length = front.length + 2 := by simp
    rw [curvesThenLine_append, curves_eq, hlength, Nat.add_sub_cancel, List.take_left,
      List.drop_left]
    by_cases h : front.length % 6 = 0
    · rw [if_pos h, if_pos (by omega)]
      rfl
    · rw [if_neg h, if_neg (by omega)]
      rfl

/-- Lines and a curve behind them are read apart. -/
theorem linesThenCurve_append (d : Fin 6 → α) : ∀ front : List α,
    linesThenCurve (front ++ List.ofFn d) = (· ++ curveSteps (List.ofFn d)) <$> lines front
  | [] => by
    rw [curveSteps, groups_ofFn (by decide)]
    rfl
  | [_] => rfl
  | dx :: dy :: rest => by
    have hlength : (rest ++ List.ofFn d).length ≠ 4 := by simp
    rw [List.cons_append, List.cons_append, linesThenCurve, linesThenCurve_append d rest, lines,
      Functor.map_map, Functor.map_map]
    · rfl
    · rintro _ _ _ _ h
      exact hlength (congrArg List.length h)

/-- The last six operands are the curve. -/
private theorem linesThenCurve_eq (operands : List α) :
    linesThenCurve operands =
      if operands.length % 2 = 0 ∧ 6 ≤ operands.length then
        .ok (lineSteps (operands.take (operands.length - 6)) ++
          curveSteps (operands.drop (operands.length - 6)))
      else .error .operandCount := by
  by_cases hlt : operands.length < 6
  · rw [if_neg (by omega), PathReader.linesThenCurve_eq_error hlt]
  · obtain ⟨front, d, rfl⟩ := exists_last_group (not_lt.mp hlt)
    have hlength : (front ++ List.ofFn d).length = front.length + 6 := by simp
    rw [linesThenCurve_append, lines_eq, hlength, Nat.add_sub_cancel, List.take_left,
      List.drop_left]
    by_cases h : front.length % 2 = 0
    · rw [if_pos h, if_pos (by omega)]
      rfl
    · rw [if_neg h, if_neg (by omega)]
      rfl

/-- A move takes the last two operands. -/
theorem freeMove_eq (operands : List α) :
    freeMove operands =
      if operands.length = 2 ∨ operands.length = 3 then
        .ok (groups 2 (fun _ d => .move (d 0) (d 1)) (operands.drop (operands.length - 2)))
      else .error .operandCount := by
  have hgroup (dx dy : α) :
      groups 2 (fun _ d => PathStep.move (d 0) (d 1)) [dx, dy] = [.move dx dy] :=
    groups_ofFn (by decide) _ ![dx, dy]
  match operands with
  | [] | [_] => rfl
  | [dx, dy] | [_, dx, dy] => exact congrArg Except.ok (hgroup dx dy).symm
  | _ :: _ :: _ :: _ :: rest => exact (if_neg (by simp)).symm

variable [Scalar α]

/-- A move along an axis takes the last operand. -/
theorem axisMove_eq (axis : Axis) (operands : List α) :
    axisMove axis operands =
      if operands.length = 1 ∨ operands.length = 2 then
        .ok ((operands.drop (operands.length - 1)).map axis.move)
      else if operands.length = 0 then .error .stackUnderflow else .error .operandCount := by
  match operands with
  | [] | [_] | [_, _] => rfl
  | _ :: _ :: _ :: rest => simp [axisMove]

/-- Every operand is a line, along the axis that its place gives. -/
private theorem alternatingLines_eq (axis : Axis) (operands : List α) :
    alternatingLines axis operands = operands.mapIdx fun i d => (axis.after i).line d := by
  induction operands generalizing axis with
  | nil => rfl
  | cons d rest ih =>
    simp only [alternatingLines, ih, List.mapIdx_cons, Axis.after_succ]
    rfl

/-- Parallel curves are taken in groups of four, the first with its start off the axis. -/
private theorem parallelCurves_eq (axis : Axis) (cross : α) (operands : List α) :
    parallelCurves axis cross operands =
      if operands.length % 4 = 0 then
        .ok (groups 4 (fun i d =>
          axis.parallelCurve (if i = 0 then cross else Scalar.zero) (d 0) (d 1) (d 2) (d 3))
          operands)
      else .error .operandCount := by
  have hread := eq_groups (by decide) (parallelCurves axis) (fun _ => Scalar.zero)
    (fun cross d => axis.parallelCurve cross (d 0) (d 1) (d 2) (d 3)) (fun _ => rfl)
    (fun cross _ hmod _ => PathReader.parallelCurves_eq_error axis cross hmod)
    (fun _ _ _ => rfl) cross operands
  have hcross (i : Nat) : (fun _ : α => (Scalar.zero : α))^[i] cross =
      if i = 0 then cross else Scalar.zero := by
    cases i with
    | zero => rfl
    | succ i => rw [Function.iterate_succ_apply']; rfl
  simpa only [hcross] using hread

/-- How far the curve in the given place starts off its axis: only the first one may, by the operand
in front that is left over. -/
def leadingCross (operands : List α) (i : Nat) : α :=
  if i = 0 ∧ operands.length % 4 = 1 then operands.headD Scalar.zero else Scalar.zero

/-- An odd operand comes in front of the groups of four. -/
private theorem packedParallelCurves_eq (axis : Axis) (operands : List α) :
    packedParallelCurves axis operands =
      if operands.length % 4 = 0 ∨ operands.length % 4 = 1 then
        .ok (groups 4 (fun i d =>
          axis.parallelCurve (leadingCross operands i) (d 0) (d 1) (d 2) (d 3))
          (operands.drop (operands.length % 4)))
      else .error .operandCount := by
  unfold leadingCross
  match operands with
  | [] => rw [groups_of_lt (by simp)]; rfl
  | cross :: rest =>
    have hlength : (cross :: rest).length = rest.length + 1 := rfl
    rw [packedParallelCurves, hlength]
    by_cases hodd : (rest.length + 1) % 2 = 1
    · rw [if_pos hodd, parallelCurves_eq]
      by_cases h : rest.length % 4 = 0
      · have hone : (rest.length + 1) % 4 = 1 := by omega
        simp only [h, hone, if_pos, List.drop_one, List.tail_cons, List.headD_cons, and_true,
          or_true]
      · rw [if_neg h, if_neg (by omega)]
    · rw [if_neg hodd, parallelCurves_eq, hlength]
      by_cases h : (rest.length + 1) % 4 = 0
      · simp [h]
      · rw [if_neg h, if_neg (by omega)]

/-- `(a b c d)* cross?`, read curve by curve. -/
def turningCurves (axis : Axis) : List α → Except Error (List (PathStep α))
  | [] => .ok []
  | [a, b, c, d, cross] => .ok [axis.turningCurve a b c d cross]
  | a :: b :: c :: d :: rest =>
    (axis.turningCurve a b c d Scalar.zero :: ·) <$> turningCurves axis.other rest
  | _ => .error .operandCount

section TurningCurves

variable {rest : List α} (hrest : rest.length ≠ 1) (axis : Axis)
include hrest

/-- A curve before others ends on its axis, and the next one starts along it. -/
private theorem turningCurves_append (d : Fin 4 → α) :
    turningCurves axis (List.ofFn d ++ rest) =
      (axis.turningCurve (d 0) (d 1) (d 2) (d 3) Scalar.zero :: ·) <$>
        turningCurves axis.other rest := by
  match rest with
  | [] => rfl
  | [_] => exact absurd rfl hrest
  | _ :: _ :: _ => rfl

/-- Two curves before others make a pair. -/
private theorem curvePairs_append (d e : Fin 4 → α) :
    curvePairs axis (List.ofFn d ++ (List.ofFn e ++ rest)) =
      (axis.turningCurve (d 0) (d 1) (d 2) (d 3) Scalar.zero ::
        axis.other.turningCurve (e 0) (e 1) (e 2) (e 3) Scalar.zero :: ·) <$>
        curvePairs axis rest := by
  match rest with
  | [] => rfl
  | [_] => exact absurd rfl hrest
  | _ :: _ :: _ => rfl

end TurningCurves

/-- Pairs of curves are as many curves, read one by one. -/
theorem curvePairs_eq (axis : Axis) : ∀ operands : List α,
    operands.length / 4 % 2 = 0 → curvePairs axis operands = turningCurves axis operands
  | [], _ | [_], _ | [_, _], _ | [_, _, _], _ => rfl
  | [_, _, _, _], h | [_, _, _, _, _], h | [_, _, _, _, _, _], h | [_, _, _, _, _, _, _], h =>
    absurd h (by simp)
  | a :: b :: c :: d :: e :: f :: g :: h :: rest, heven => by
    by_cases hrest : rest.length = 1
    · obtain ⟨cross, rfl⟩ := List.length_eq_one_iff.mp hrest
      rfl
    · have hrec : rest.length / 4 % 2 = 0 := by
        simp only [List.length_cons] at heven
        omega
      change curvePairs axis (List.ofFn ![a, b, c, d] ++ (List.ofFn ![e, f, g, h] ++ rest)) =
        turningCurves axis (List.ofFn ![a, b, c, d] ++ (List.ofFn ![e, f, g, h] ++ rest))
      rw [curvePairs_append hrest, turningCurves_append (by simp), turningCurves_append hrest,
        Axis.other_other, curvePairs_eq axis rest hrec, Functor.map_map]

/-- However many curves there are, they are read one by one. -/
theorem alternatingCurves_eq (axis : Axis) (operands : List α) :
    alternatingCurves axis operands = turningCurves axis operands := by
  unfold alternatingCurves
  by_cases hodd : operands.length / 4 % 2 = 1
  · rw [if_pos hodd]
    match operands with
    | [] | [_] | [_, _] | [_, _, _] => exact absurd hodd (by simp)
    | a :: b :: c :: d :: rest =>
      by_cases hrest : rest.length = 1
      · obtain ⟨cross, rfl⟩ := List.length_eq_one_iff.mp hrest
        rfl
      · have heven : rest.length / 4 % 2 = 0 := by
          simp only [List.length_cons] at hodd
          omega
        change _ = turningCurves axis (List.ofFn ![a, b, c, d] ++ rest)
        rw [turningCurves_append hrest, ← curvePairs_eq axis.other rest heven]
        match rest with
        | [] => rfl
        | [_] => exact absurd rfl hrest
        | _ :: _ :: _ => rfl
  · rw [if_neg hodd, curvePairs_eq axis operands (by omega)]

/-- How far the curve in the given place ends off its axis: only the last one may, by the operand
that is left over. -/
def trailingCross (operands : List α) (i : Nat) : α :=
  if i + 1 = operands.length / 4 ∧ operands.length % 2 = 1 then operands.getLastD Scalar.zero
  else Scalar.zero

/-- The end of the last curve is found behind the groups. -/
private theorem trailingCross_append (d : Fin 4 → α) (rest : List α) (i : Nat) :
    trailingCross (List.ofFn d ++ rest) (i + 1) = trailingCross rest i := by
  have hlength : (List.ofFn d ++ rest).length = 4 + rest.length := by
    rw [List.length_append, List.length_ofFn]
  have hplace : i + 1 + 1 = (4 + rest.length) / 4 ∧ (4 + rest.length) % 2 = 1 ↔
      i + 1 = rest.length / 4 ∧ rest.length % 2 = 1 := by omega
  simp only [trailingCross, hlength, hplace]
  by_cases h : i + 1 = rest.length / 4 ∧ rest.length % 2 = 1
  · have hne : rest ≠ [] := by
      rintro rfl
      simp at h
    rw [if_pos h, if_pos h, List.getLastD_eq_getLast?, List.getLastD_eq_getLast?,
      List.getLast?_append, List.getLast?_eq_some_getLast hne]
    rfl
  · rw [if_neg h, if_neg h]

/-- A curve for every four operands, starting along the two axes in turn. -/
def turningCurveSteps (axis : Axis) (operands : List α) : List (PathStep α) :=
  groups 4 (fun i d =>
    (axis.after i).turningCurve (d 0) (d 1) (d 2) (d 3) (trailingCross operands i)) operands

/-- The first group is the first curve, and the others start along the other axis. -/
private theorem turningCurveSteps_append (axis : Axis) (d : Fin 4 → α) (rest : List α) :
    turningCurveSteps axis (List.ofFn d ++ rest) =
      axis.turningCurve (d 0) (d 1) (d 2) (d 3) (trailingCross (List.ofFn d ++ rest) 0) ::
        turningCurveSteps axis.other rest := by
  simp only [turningCurveSteps, groups_append (show 0 < 4 by decide), Axis.after_succ,
    trailingCross_append]
  rfl

/-- Curves that turn are taken in groups of four, the last with its end off the axis. -/
private theorem turningCurves_eq (axis : Axis) : ∀ operands : List α,
    turningCurves axis operands =
      if operands.length % 4 = 0 ∨ operands.length % 4 = 1 ∧ 5 ≤ operands.length then
        .ok (turningCurveSteps axis operands)
      else .error .operandCount
  | [] => by
    rw [turningCurveSteps, groups_of_lt (by simp)]
    rfl
  | [_] | [_, _] | [_, _, _] => rfl
  | a :: b :: c :: d :: rest => by
    have hlength : (List.ofFn ![a, b, c, d] ++ rest).length = 4 + rest.length := by
      rw [List.length_append, List.length_ofFn]
    rw [show a :: b :: c :: d :: rest = List.ofFn ![a, b, c, d] ++ rest from rfl,
      turningCurveSteps_append, hlength]
    by_cases hrest : rest.length = 1
    · obtain ⟨cross, rfl⟩ := List.length_eq_one_iff.mp hrest
      have hcross : trailingCross (List.ofFn ![a, b, c, d] ++ [cross]) 0 = cross := by
        simp [trailingCross]
      rw [turningCurveSteps, groups_of_lt (by simp), hcross, if_pos (by simp)]
      rfl
    · rw [turningCurves_append hrest, turningCurves_eq axis.other rest]
      by_cases h : rest.length % 4 = 0 ∨ rest.length % 4 = 1 ∧ 5 ≤ rest.length
      · have hzero : trailingCross (List.ofFn ![a, b, c, d] ++ rest) 0 = Scalar.zero := by
          rw [trailingCross, hlength, if_neg (by omega)]
        rw [if_pos h, if_pos (by omega), hzero]
        rfl
      · rw [if_neg h, if_neg (by omega)]
        rfl

end PathOperands

/-- The operator stands for the path, or fails in that way; and so it does when it takes its
operands one by one, whatever the outline that it continues. -/
def PathOperator.Expands {α : Type} [Scalar α] (op : PathOperator) (operands : List α)
    (path : Except Error (List (PathStep α))) : Prop :=
  op.steps operands = path ∧
    ∀ o : Outline α, PathReader.Draws o (PathReader.path op ⟨operands, 0, o⟩) path

section Expansions

open PathOperands

variable {α : Type} [Scalar α]

/-- A path read all at once is performed in the same way. -/
theorem PathOperator.Expands.of_steps {op : PathOperator} {operands : List α}
    {path : Except Error (List (PathStep α))} (h : op.steps operands = path) :
    op.Expands operands path :=
  ⟨h, fun o => h ▸ PathReader.draws_path op operands o⟩

/-- Even places are lines along the first axis and odd ones along the other. -/
private theorem alternatingLines_eq_mapIdx (axis : Axis) (operands : List α) :
    alternatingLines axis operands =
      operands.mapIdx fun i d => if i % 2 = 0 then axis.line d else axis.other.line d := by
  rw [alternatingLines_eq]
  exact congrArg (List.mapIdx · operands) (funext fun i => funext fun d =>
    apply_ite (Axis.line · d) (i % 2 = 0) axis axis.other)

/-- Even groups start along the first axis and odd ones along the other. -/
private theorem turningCurveSteps_eq (axis : Axis) (operands : List α) :
    turningCurveSteps axis operands =
      groups 4 (fun i d =>
        if i % 2 = 0 then axis.turningCurve (d 0) (d 1) (d 2) (d 3) (trailingCross operands i)
        else axis.other.turningCurve (d 0) (d 1) (d 2) (d 3) (trailingCross operands i))
        operands :=
  congrArg (groups 4 · operands) (funext fun i => funext fun d =>
    apply_ite (Axis.turningCurve · (d 0) (d 1) (d 2) (d 3) (trailingCross operands i)) (i % 2 = 0)
      axis axis.other)

/-- The operators `hvcurveto` and `vhcurveto` take whole groups of four operands, and one more
behind one or more groups.  Every group is a curve; the curves start along the two axes in turn, and
each ends along the other axis, but for the last one with the operand that is left over. -/
theorem turning_operators_expand (operands : List α) :
    PathOperator.hvcurveto.Expands operands
      (if operands.length % 4 = 0 ∨ operands.length % 4 = 1 ∧ 5 ≤ operands.length then
        .ok (groups 4 (fun i d =>
          if i % 2 = 0 then
            .curve (d 0) Scalar.zero (d 1) (d 2) (trailingCross operands i) (d 3)
          else
            .curve Scalar.zero (d 0) (d 1) (d 2) (d 3) (trailingCross operands i)) operands)
      else .error .operandCount) ∧
    PathOperator.vhcurveto.Expands operands
      (if operands.length % 4 = 0 ∨ operands.length % 4 = 1 ∧ 5 ≤ operands.length then
        .ok (groups 4 (fun i d =>
          if i % 2 = 0 then
            .curve Scalar.zero (d 0) (d 1) (d 2) (d 3) (trailingCross operands i)
          else
            .curve (d 0) Scalar.zero (d 1) (d 2) (trailingCross operands i) (d 3)) operands)
      else .error .operandCount) := by
  have hread (axis : Axis) :=
    (alternatingCurves_eq axis operands).trans (turningCurves_eq axis operands)
  simp only [turningCurveSteps_eq] at hread
  exact ⟨.of_steps (hread .horizontal), .of_steps (hread .vertical)⟩

/-- The other packed operators, by the numbers of operands that they take.

Moves take the last operands and draw nothing.  A curve of `rrcurveto` has six operands and a line
of `rlineto` two; `rcurveline` is one line behind such curves and `rlinecurve` one curve behind such
lines.  The lines of `hlineto` and `vlineto` follow the two axes in turn.  The curves of `hhcurveto`
and `vvcurveto` have four operands, and the one in front that may be left over is how far the first
of them starts off its axis. -/
theorem packed_operators_expand (operands : List α) :
    PathOperator.rmoveto.Expands operands
      (if operands.length = 2 ∨ operands.length = 3 then
        .ok (groups 2 (fun _ d => .move (d 0) (d 1)) (operands.drop (operands.length - 2)))
      else .error .operandCount) ∧
    PathOperator.hmoveto.Expands operands
      (if operands.length = 1 ∨ operands.length = 2 then
        .ok ((operands.drop (operands.length - 1)).map fun d => .move d Scalar.zero)
      else if operands.length = 0 then .error .stackUnderflow else .error .operandCount) ∧
    PathOperator.vmoveto.Expands operands
      (if operands.length = 1 ∨ operands.length = 2 then
        .ok ((operands.drop (operands.length - 1)).map fun d => .move Scalar.zero d)
      else if operands.length = 0 then .error .stackUnderflow else .error .operandCount) ∧
    (∀ (o : Outline α) (dx dy : α),
      o.draw [.move dx dy] = { o with x := o.x + dx, y := o.y + dy }) ∧
    PathOperator.rlineto.Expands operands
      (if operands.length % 2 = 0 then .ok (lineSteps operands) else .error .operandCount) ∧
    PathOperator.hlineto.Expands operands
      (.ok (operands.mapIdx fun i d =>
        if i % 2 = 0 then .line d Scalar.zero else .line Scalar.zero d)) ∧
    PathOperator.vlineto.Expands operands
      (.ok (operands.mapIdx fun i d =>
        if i % 2 = 0 then .line Scalar.zero d else .line d Scalar.zero)) ∧
    PathOperator.rrcurveto.Expands operands
      (if operands.length % 6 = 0 then .ok (curveSteps operands) else .error .operandCount) ∧
    PathOperator.rcurveline.Expands operands
      (if operands.length % 6 = 2 then
        .ok (curveSteps (operands.take (operands.length - 2)) ++
          lineSteps (operands.drop (operands.length - 2)))
      else .error .operandCount) ∧
    PathOperator.rlinecurve.Expands operands
      (if operands.length % 2 = 0 ∧ 6 ≤ operands.length then
        .ok (lineSteps (operands.take (operands.length - 6)) ++
          curveSteps (operands.drop (operands.length - 6)))
      else .error .operandCount) ∧
    PathOperator.hhcurveto.Expands operands
      (if operands.length % 4 = 0 ∨ operands.length % 4 = 1 then
        .ok (groups 4 (fun i d =>
          .curve (d 0) (leadingCross operands i) (d 1) (d 2) (d 3) Scalar.zero)
          (operands.drop (operands.length % 4)))
      else .error .operandCount) ∧
    PathOperator.vvcurveto.Expands operands
      (if operands.length % 4 = 0 ∨ operands.length % 4 = 1 then
        .ok (groups 4 (fun i d =>
          .curve (leadingCross operands i) (d 0) (d 1) (d 2) Scalar.zero (d 3))
          (operands.drop (operands.length % 4)))
      else .error .operandCount) :=
  ⟨.of_steps (freeMove_eq operands),
    .of_steps (axisMove_eq .horizontal operands),
    .of_steps (axisMove_eq .vertical operands),
    fun _ _ _ => rfl,
    .of_steps (lines_eq operands),
    .of_steps (congrArg Except.ok (alternatingLines_eq_mapIdx .horizontal operands)),
    .of_steps (congrArg Except.ok (alternatingLines_eq_mapIdx .vertical operands)),
    .of_steps (curves_eq operands),
    .of_steps (curvesThenLine_eq operands),
    .of_steps (linesThenCurve_eq operands),
    .of_steps (packedParallelCurves_eq .horizontal operands),
    .of_steps (packedParallelCurves_eq .vertical operands)⟩

end Expansions

end FontMetrics.Charstring
