import Mathlib.Data.Nat.Bitwise
import FontMetrics.Proofs.Checked.PathReader

/-!
# Drawing the paths of operators

Every path operator, as a program that reads its operands one by one, draws the path that it stands
for.  The programs follow the operands where `PathOperator.steps` takes them apart all at once; the
proofs recur along with the loops.  Every round of a loop reads an operand, so that one round more
than there are operands is enough for it to end.
-/

namespace FontMetrics.Charstring.PathReader

variable {α : Type}

/-- Curves are refused unless every one has its six operands. -/
theorem curves_eq_error : ∀ {operands : List α}, operands.length % 6 ≠ 0 →
    PathOperands.curves operands = .error .operandCount
  | [], h => absurd rfl h
  | [_], _ | [_, _], _ | [_, _, _], _ | [_, _, _, _], _ | [_, _, _, _, _], _ => rfl
  | _ :: _ :: _ :: _ :: _ :: _ :: rest, h => by
    have hrest : rest.length % 6 ≠ 0 := by
      simp only [List.length_cons] at h
      omega
    rw [PathOperands.curves, curves_eq_error hrest]
    rfl

/-- Six operands of the curve have to come behind the lines. -/
theorem linesThenCurve_eq_error {operands : List α} (h : operands.length < 6) :
    PathOperands.linesThenCurve operands = .error .operandCount := by
  match operands with
  | [] | [_] | [_, _] | [_, _, _] | [_, _, _, _] | [_, _, _, _, _] => rfl
  | _ :: _ :: _ :: _ :: _ :: _ :: rest => simp only [List.length_cons] at h; omega

/-- The rounds that a loop is given are more than the operands that are left. -/
theorem length_lt_rounds (front rest : List α) : rest.length < (front ++ rest).length + 1 := by
  rw [List.length_append]
  omega

variable [Scalar α]

/-- `dx dy`, perhaps after the width of the glyph. -/
def freeMove (r : PathReader α) : Checked Error (PathReader α) := do
  let r ← if r.operands.length % 2 = 1 then r.skip else pure r
  let left ← r.remaining
  if left = 2 then
    let (dx, r) ← r.next
    let (dy, r) ← r.next
    r.draw (.move dx dy)
  else
    throw .operandCount

/-- `d`, perhaps after the width of the glyph. -/
def axisMove (axis : Axis) (r : PathReader α) : Checked Error (PathReader α) := do
  if r.operands = [] then
    throw .stackUnderflow
  else
    let r ← if r.operands.length % 2 = 0 then r.skip else pure r
    let left ← r.remaining
    if left = 1 then
      let (d, r) ← r.next
      r.draw (axis.move d)
    else
      throw .operandCount

/-- `dx dy`. -/
def line (r : PathReader α) : Checked Error (PathReader α) := do
  let (dx, r) ← r.next
  let (dy, r) ← r.next
  r.draw (.line dx dy)

/-- `d? d?`, which does not go on once the operands end. -/
def linePair (axis : Axis) (r : PathReader α) : Checked Error (ForInStep (PathReader α)) := do
  let left ← r.remaining
  if left = 0 then
    return .done r
  else
    let (d, r) ← r.next
    let r ← r.draw (axis.line d)
    let left ← r.remaining
    if left = 0 then
      return .done r
    else
      let (d, r) ← r.next
      let r ← r.draw (axis.other.line d)
      return .yield r

/-- `d*`. -/
def alternatingLines (axis : Axis) (r : PathReader α) : Checked Error (PathReader α) :=
  Checked.loop (linePair axis) (r.operands.length + 1) r

/-- `dxa dya dxb dyb dxc dyc`. -/
def curve (r : PathReader α) : Checked Error (PathReader α) := do
  let (dxa, r) ← r.next
  let (dya, r) ← r.next
  let (dxb, r) ← r.next
  let (dyb, r) ← r.next
  let (dxc, r) ← r.next
  let (dyc, r) ← r.next
  r.draw (.curve dxa dya dxb dyb dxc dyc)

/-- `(dxa dya dxb dyb dxc dyc)*`. -/
def curves (r : PathReader α) : Checked Error (PathReader α) := do
  if r.operands.length % 6 = 0 then
    whileMoreThan 0 curve (r.operands.length + 1) r
  else
    throw .operandCount

/-- `(dxa dya dxb dyb dxc dyc)* dx dy`. -/
def curvesThenLine (r : PathReader α) : Checked Error (PathReader α) := do
  let r ← whileMoreThan 2 curve (r.operands.length + 1) r
  r.line

/-- `(dx dy)* dxa dya dxb dyb dxc dyc`. -/
def linesThenCurve (r : PathReader α) : Checked Error (PathReader α) := do
  let r ← whileMoreThan 6 line (r.operands.length + 1) r
  r.curve

/-- `along dxb dyb last`, unless the operands end.  The next curve has no `cross`. -/
def parallelCurve (axis : Axis) : α × PathReader α →
    Checked Error (ForInStep (α × PathReader α))
  | (cross, r) => do
    let left ← r.remaining
    if 0 < left then
      let (along, r) ← r.next
      let (dxb, r) ← r.next
      let (dyb, r) ← r.next
      let (last, r) ← r.next
      let r ← r.draw (axis.parallelCurve cross along dxb dyb last)
      return .yield (Scalar.zero, r)
    else
      return .done (cross, r)

/-- `(along dxb dyb last)*`, the first of them with `cross`. -/
def parallelCurves (axis : Axis) (cross : α) (r : PathReader α) :
    Checked Error (PathReader α) := do
  let (_, r) ← Checked.loop (parallelCurve axis) (r.operands.length + 1) (cross, r)
  return r

/-- `cross? (along dxb dyb last)*`. -/
def packedParallelCurves (axis : Axis) (r : PathReader α) : Checked Error (PathReader α) := do
  let (cross, r) ← if r.operands.length % 2 = 1 then r.next else pure (Scalar.zero, r)
  let left ← r.remaining
  if left % 4 = 0 then
    r.parallelCurves axis cross
  else
    throw .operandCount

/-- The last coordinate of a curve, there only if a single operand remains. -/
def trailing (r : PathReader α) : Checked Error (α × PathReader α) := do
  let left ← r.remaining
  if left = 1 then r.next else return (Scalar.zero, r)

/-- `a b c d e f g h`, and `cross` if it ends the operands. -/
def curvePair (axis : Axis) (r : PathReader α) : Checked Error (PathReader α) := do
  let (a, r) ← r.next
  let (b, r) ← r.next
  let (c, r) ← r.next
  let (d, r) ← r.next
  let (e, r) ← r.next
  let (f, r) ← r.next
  let (g, r) ← r.next
  let (h, r) ← r.next
  let (cross, r) ← r.trailing
  let r ← r.draw (axis.turningCurve a b c d Scalar.zero)
  r.draw (axis.other.turningCurve e f g h cross)

/-- `(a b c d)* cross?`.  The third binary digit of the number of operands tells whether the number
of curves is odd. -/
def alternatingCurves (axis : Axis) (r : PathReader α) : Checked Error (PathReader α) := do
  if r.operands.length &&& 4 ≠ 0 then
    let (a, r) ← r.next
    let (b, r) ← r.next
    let (c, r) ← r.next
    let (d, r) ← r.next
    let (cross, r) ← r.trailing
    let r ← r.draw (axis.turningCurve a b c d cross)
    whileMoreThan 0 (curvePair axis.other) (r.operands.length + 1) r
  else
    whileMoreThan 0 (curvePair axis) (r.operands.length + 1) r

/-- Two curves and the depth of the flex. -/
def flex (r : PathReader α) : Checked Error (PathReader α) := do
  if r.operands.length = 13 then
    let r ← r.curve
    let r ← r.curve
    let (_, r) ← r.next
    return r
  else
    throw .operandCount

/-- `dx1 dx2 dy2 dx3 dx4 dx5 dx6`. -/
def hflex (r : PathReader α) : Checked Error (PathReader α) := do
  if r.operands.length = 7 then
    let (dx1, r) ← r.next
    let (dx2, r) ← r.next
    let (dy2, r) ← r.next
    let (dx3, r) ← r.next
    let (dx4, r) ← r.next
    let (dx5, r) ← r.next
    let (dx6, r) ← r.next
    let r ← r.draw (.curve dx1 Scalar.zero dx2 dy2 dx3 Scalar.zero)
    r.draw (.curve dx4 Scalar.zero dx5 (-dy2) dx6 Scalar.zero)
  else
    throw .operandCount

/-- `dx1 dy1 dx2 dy2 dx3 dx4 dx5 dy5 dx6`. -/
def hflex1 (r : PathReader α) : Checked Error (PathReader α) := do
  if r.operands.length = 9 then
    let (dx1, r) ← r.next
    let (dy1, r) ← r.next
    let (dx2, r) ← r.next
    let (dy2, r) ← r.next
    let (dx3, r) ← r.next
    let (dx4, r) ← r.next
    let (dx5, r) ← r.next
    let (dy5, r) ← r.next
    let (dx6, r) ← r.next
    let r ← r.draw (.curve dx1 dy1 dx2 dy2 dx3 Scalar.zero)
    r.draw (.curve dx4 Scalar.zero dx5 dy5 dx6 (-(dy1 + dy2 + dy5)))
  else
    throw .operandCount

/-- `dx1 dy1 dx2 dy2 dx3 dy3 dx4 dy4 dx5 dy5 d6`. -/
def flex1 (r : PathReader α) : Checked Error (PathReader α) := do
  if r.operands.length = 11 then
    let (dx1, r) ← r.next
    let (dy1, r) ← r.next
    let (dx2, r) ← r.next
    let (dy2, r) ← r.next
    let (dx3, r) ← r.next
    let (dy3, r) ← r.next
    let (dx4, r) ← r.next
    let (dy4, r) ← r.next
    let (dx5, r) ← r.next
    let (dy5, r) ← r.next
    let (d6, r) ← r.next
    let dx := dx1 + dx2 + dx3 + dx4 + dx5
    let dy := dy1 + dy2 + dy3 + dy4 + dy5
    let (dx6, dy6) :=
      if Scalar.isLt (Scalar.abs dy) (Scalar.abs dx) then (d6, -dy) else (-dx, d6)
    let r ← r.draw (.curve dx1 dy1 dx2 dy2 dx3 dy3)
    r.draw (.curve dx4 dy4 dx5 dy5 dx6 dy6)
  else
    throw .operandCount

/-- Draws the path of an operator. -/
def path (op : PathOperator) (r : PathReader α) : Checked Error (PathReader α) :=
  match op with
  | .rmoveto => r.freeMove
  | .hmoveto => r.axisMove .horizontal
  | .vmoveto => r.axisMove .vertical
  | .rlineto => whileMoreThan 0 line (r.operands.length + 1) r
  | .hlineto => r.alternatingLines .horizontal
  | .vlineto => r.alternatingLines .vertical
  | .rrcurveto => r.curves
  | .rcurveline => r.curvesThenLine
  | .rlinecurve => r.linesThenCurve
  | .hhcurveto => r.packedParallelCurves .horizontal
  | .vvcurveto => r.packedParallelCurves .vertical
  | .hvcurveto => r.alternatingCurves .horizontal
  | .vhcurveto => r.alternatingCurves .vertical
  | .flex => r.flex
  | .hflex => r.hflex
  | .hflex1 => r.hflex1
  | .flex1 => r.flex1

/-! ## Moves and lines -/

/-- A move reads its two operands and pays no attention to those below. -/
private theorem draws_freeMove (operands : List α) (o : Outline α) :
    Draws o (freeMove (between [] operands o)) (PathOperands.freeMove operands) := by
  match operands with
  | [] =>
    have hthrow : freeMove (between ([] : List α) [] o) = throw .operandCount := by simp [freeMove]
    rw [hthrow]
    exact .error _
  | [x] =>
    have hthrow : freeMove (between [] [x] o) = throw .operandCount := by simp [freeMove]
    rw [hthrow]
    exact .error _
  | [dx, dy] =>
    have hmove : freeMove (between [] [dx, dy] o) =
        pure (between [dx, dy] [] (o.step (.move dx dy))) := by simp [freeMove]
    rw [hmove]
    exact .ok rfl
  | [width, dx, dy] =>
    have hmove : freeMove (between [] [width, dx, dy] o) =
        pure (between [width, dx, dy] [] (o.step (.move dx dy))) := by simp [freeMove]
    rw [hmove]
    exact .ok rfl
  | a :: b :: c :: d :: rest =>
    have hthrow : freeMove (between [] (a :: b :: c :: d :: rest) o) = throw .operandCount := by
      rw [freeMove]
      split <;> simp
    rw [hthrow]
    exact .error _

/-- A move along an axis reads its operand and pays no attention to those below. -/
private theorem draws_axisMove (axis : Axis) (operands : List α) (o : Outline α) :
    Draws o (axisMove axis (between [] operands o)) (PathOperands.axisMove axis operands) := by
  match operands with
  | [] =>
    have hthrow : axisMove axis (between ([] : List α) [] o) = throw .stackUnderflow := by
      simp [axisMove]
    rw [hthrow]
    exact .error _
  | [d] =>
    have hmove : axisMove axis (between [] [d] o) =
        pure (between [d] [] (o.step (axis.move d))) := by simp [axisMove]
    rw [hmove]
    exact .ok rfl
  | [width, d] =>
    have hmove : axisMove axis (between [] [width, d] o) =
        pure (between [width, d] [] (o.step (axis.move d))) := by simp [axisMove]
    rw [hmove]
    exact .ok rfl
  | a :: b :: c :: rest =>
    have hthrow : axisMove axis (between [] (a :: b :: c :: rest) o) = throw .operandCount := by
      rw [axisMove, if_neg (by simp)]
      split <;> simp
    rw [hthrow]
    exact .error _

private theorem line_between (front rest : List α) (dx dy : α) (o : Outline α) :
    line (between front (dx :: dy :: rest) o) =
      pure (between (front ++ [dx] ++ [dy]) rest (o.step (.line dx dy))) := by
  simp [line]

/-- A line needs two operands. -/
theorem line_between_of_lt {rest : List α} (h : rest.length < 2) (front : List α)
    (o : Outline α) : line (between front rest o) = throw .operandCount := by
  match rest with
  | [] | [_] => simp [line]
  | _ :: _ :: rest => simp only [List.length_cons] at h; omega

/-- Reading lines draws them one after another, by induction on the rounds. -/
private theorem draws_lines : ∀ (rounds : Nat) (front operands : List α) (o : Outline α),
    operands.length < rounds →
      Draws o (whileMoreThan 0 line rounds (between front operands o)) (PathOperands.lines operands)
  | rounds + 1, front, [], o, _ => by
    rw [whileMoreThan_of_le (by simp)]
    exact .ok rfl
  | rounds + 1, front, [x], o, _ => by
    rw [whileMoreThan_of_throw Nat.zero_lt_one (line_between_of_lt (by simp) _ _)]
    exact .error _
  | rounds + 1, front, dx :: dy :: rest, o, h => by
    rw [whileMoreThan_of_lt (Nat.zero_lt_succ _) (line_between front rest dx dy o)]
    rw [List.length_cons, List.length_cons] at h
    exact (draws_lines rounds _ rest _ (by omega)).cons

/-- Reading lines along the two axes in turn draws them, however many operands there are. -/
private theorem draws_linePairs (axis : Axis) : ∀ (rounds : Nat) (front operands : List α)
    (o : Outline α), operands.length < rounds →
      Draws o (Checked.loop (linePair axis) rounds (between front operands o))
        (.ok (PathOperands.alternatingLines axis operands))
  | rounds + 1, front, [], o, _ => by
    have hdone : linePair axis (between front [] o) = pure (.done (between front [] o)) := by
      simp [linePair]
    rw [Checked.loop_of_done hdone]
    exact .ok rfl
  | rounds + 1, front, [d], o, _ => by
    have hdone : linePair axis (between front [d] o) =
        pure (.done (between (front ++ [d]) [] (o.step (axis.line d)))) := by simp [linePair]
    rw [Checked.loop_of_done hdone]
    exact .ok rfl
  | rounds + 1, front, d :: d' :: rest, o, h => by
    have hyield : linePair axis (between front (d :: d' :: rest) o) =
        pure (.yield (between (front ++ [d] ++ [d']) rest
          ((o.step (axis.line d)).step (axis.other.line d')))) := by simp [linePair]
    rw [Checked.loop_of_yield hyield, PathOperands.alternatingLines, PathOperands.alternatingLines,
      Axis.other_other]
    rw [List.length_cons, List.length_cons] at h
    exact (draws_linePairs axis rounds _ rest _ (by omega)).cons.cons

/-! ## Curves -/

private theorem curve_between (front rest : List α) (dxa dya dxb dyb dxc dyc : α) (o : Outline α) :
    curve (between front (dxa :: dya :: dxb :: dyb :: dxc :: dyc :: rest) o) =
      pure (between (front ++ [dxa] ++ [dya] ++ [dxb] ++ [dyb] ++ [dxc] ++ [dyc]) rest
        (o.step (.curve dxa dya dxb dyb dxc dyc))) := by
  simp [curve]

/-- A curve needs six operands. -/
theorem curve_between_of_lt {rest : List α} (h : rest.length < 6) (front : List α)
    (o : Outline α) : curve (between front rest o) = throw .operandCount := by
  match rest with
  | [] | [_] | [_, _] | [_, _, _] | [_, _, _, _] | [_, _, _, _, _] => simp [curve]
  | _ :: _ :: _ :: _ :: _ :: _ :: rest => simp only [List.length_cons] at h; omega

private theorem draws_whileCurve : ∀ (rounds : Nat) (front operands : List α) (o : Outline α),
    operands.length < rounds →
      Draws o (whileMoreThan 0 curve rounds (between front operands o))
        (PathOperands.curves operands)
  | rounds + 1, front, [], o, _ => by
    rw [whileMoreThan_of_le (by simp)]
    exact .ok rfl
  | rounds + 1, front, [_], o, _ | rounds + 1, front, [_, _], o, _
  | rounds + 1, front, [_, _, _], o, _ | rounds + 1, front, [_, _, _, _], o, _
  | rounds + 1, front, [_, _, _, _, _], o, _ => by
    rw [whileMoreThan_of_throw (Nat.zero_lt_succ _) (curve_between_of_lt (by simp) _ _)]
    exact .error _
  | rounds + 1, front, dxa :: dya :: dxb :: dyb :: dxc :: dyc :: rest, o, h => by
    rw [whileMoreThan_of_lt (Nat.zero_lt_succ _)
      (curve_between front rest dxa dya dxb dyb dxc dyc o)]
    simp only [List.length_cons] at h
    exact (draws_whileCurve rounds _ rest _ (by omega)).cons

/-- Reading curves draws them all, or stops where six operands are not left. -/
private theorem draws_curves (operands : List α) (o : Outline α) :
    Draws o (curves (between [] operands o)) (PathOperands.curves operands) := by
  rw [curves, operands_between, List.nil_append]
  exact .ite (fun _ => draws_whileCurve _ [] operands o (Nat.lt_succ_self _)) curves_eq_error

/-- Curves are read while more operands are left than the line needs. -/
private theorem draws_whileCurve_line : ∀ (rounds : Nat) (front operands : List α) (o : Outline α),
    operands.length < rounds →
      Draws o (whileMoreThan 2 curve rounds (between front operands o) >>= line)
        (PathOperands.curvesThenLine operands)
  | rounds + 1, front, [], o, _ | rounds + 1, front, [_], o, _ => by
    rw [whileMoreThan_of_le (by simp), pure_bind, line_between_of_lt (by simp)]
    exact .error _
  | rounds + 1, front, [dx, dy], o, _ => by
    rw [whileMoreThan_of_le (by simp), pure_bind, line_between]
    exact .ok rfl
  | rounds + 1, front, [_, _, _], o, _ | rounds + 1, front, [_, _, _, _], o, _
  | rounds + 1, front, [_, _, _, _, _], o, _ => by
    rw [whileMoreThan_of_throw (by simp) (curve_between_of_lt (by simp) _ _), Checked.throw_bind]
    exact .error _
  | rounds + 1, front, dxa :: dya :: dxb :: dyb :: dxc :: dyc :: rest, o, h => by
    rw [whileMoreThan_of_lt (by simp) (curve_between front rest dxa dya dxb dyb dxc dyc o)]
    simp only [List.length_cons] at h
    exact (draws_whileCurve_line rounds _ rest _ (by omega)).cons

/-- Lines are read while more operands are left than the curve needs. -/
private theorem draws_whileLine_curve : ∀ (rounds : Nat) (front operands : List α) (o : Outline α),
    operands.length < rounds →
      Draws o (whileMoreThan 6 line rounds (between front operands o) >>= curve)
        (PathOperands.linesThenCurve operands)
  | rounds + 1, front, [], o, _ | rounds + 1, front, [_], o, _ | rounds + 1, front, [_, _], o, _
  | rounds + 1, front, [_, _, _], o, _ | rounds + 1, front, [_, _, _, _], o, _
  | rounds + 1, front, [_, _, _, _, _], o, _ => by
    rw [whileMoreThan_of_le (by simp), pure_bind, curve_between_of_lt (by simp),
      linesThenCurve_eq_error (by simp)]
    exact .error _
  | rounds + 1, front, [dxa, dya, dxb, dyb, dxc, dyc], o, _ => by
    rw [whileMoreThan_of_le (by simp), pure_bind, curve_between]
    exact .ok rfl
  | rounds + 1, front, dx :: dy :: a :: b :: c :: d :: e :: rest, o, h => by
    rw [whileMoreThan_of_lt (by simp)
      (line_between front (a :: b :: c :: d :: e :: rest) dx dy o)]
    rw [List.length_cons, List.length_cons] at h
    exact (draws_whileLine_curve rounds _ (a :: b :: c :: d :: e :: rest) _ (by omega)).cons

/-- Parallel curves are refused unless every one has its four operands. -/
theorem parallelCurves_eq_error (axis : Axis) : ∀ (cross : α) {operands : List α},
    operands.length % 4 ≠ 0 →
      PathOperands.parallelCurves axis cross operands = .error .operandCount
  | _, [], h => absurd rfl h
  | _, [_], _ | _, [_, _], _ | _, [_, _, _], _ => rfl
  | cross, _ :: _ :: _ :: _ :: rest, h => by
    have hrest : rest.length % 4 ≠ 0 := by
      simp only [List.length_cons] at h
      omega
    rw [PathOperands.parallelCurves, parallelCurves_eq_error axis Scalar.zero hrest]
    rfl

/-- Only the first of the parallel curves starts off its axis. -/
private theorem draws_whileParallelCurve (axis : Axis) : ∀ (rounds : Nat) (cross : α)
    (front operands : List α) (o : Outline α), operands.length < rounds →
      Draws o (do
          let (_, r) ← Checked.loop (parallelCurve axis) rounds (cross, between front operands o)
          return r)
        (PathOperands.parallelCurves axis cross operands)
  | rounds + 1, cross, front, [], o, _ => by
    have hdone : parallelCurve axis (cross, between front [] o) =
        pure (.done (cross, between front [] o)) := by simp [parallelCurve]
    rw [Checked.loop_of_done hdone]
    exact .ok rfl
  | rounds + 1, cross, front, [_], o, _ | rounds + 1, cross, front, [_, _], o, _
  | rounds + 1, cross, front, [_, _, _], o, _ => by
    rw [Checked.loop_of_throw (show _ = throw Error.operandCount by simp [parallelCurve])]
    exact .error _
  | rounds + 1, cross, front, a :: b :: c :: d :: rest, o, h => by
    have hyield : parallelCurve axis (cross, between front (a :: b :: c :: d :: rest) o) =
        pure (.yield (Scalar.zero, between (front ++ [a] ++ [b] ++ [c] ++ [d]) rest
          (o.step (axis.parallelCurve cross a b c d)))) := by simp [parallelCurve]
    rw [Checked.loop_of_yield hyield]
    simp only [List.length_cons] at h
    exact (draws_whileParallelCurve axis rounds Scalar.zero _ rest _ (by omega)).cons

/-- One round more than there are operands is enough, also if some have been read. -/
theorem draws_parallelCurves (axis : Axis) (cross : α) (front operands : List α) (o : Outline α) :
    Draws o (parallelCurves axis cross (between front operands o))
      (PathOperands.parallelCurves axis cross operands) :=
  draws_whileParallelCurve axis _ cross front operands o (length_lt_rounds front operands)

/-- An odd number of operands has the start of the first curve in front. -/
private theorem draws_packedParallelCurves (axis : Axis) (operands : List α) (o : Outline α) :
    Draws o (packedParallelCurves axis (between [] operands o))
      (PathOperands.packedParallelCurves axis operands) := by
  have hread : ∀ (cross : α) (front rest : List α),
      Draws o (if rest.length % 4 = 0 then parallelCurves axis cross (between front rest o)
        else throw .operandCount) (PathOperands.parallelCurves axis cross rest) := by
    intro cross front rest
    exact .ite (fun _ => draws_parallelCurves axis cross front rest o)
      (parallelCurves_eq_error axis cross)
  rw [packedParallelCurves, operands_between, List.nil_append]
  match operands with
  | [] => exact hread Scalar.zero [] []
  | cross :: rest =>
    rw [PathOperands.packedParallelCurves]
    by_cases h : (cross :: rest).length % 2 = 1
    · rw [if_pos h, if_pos h, next_between, pure_bind]
      simp only [remaining_between, pure_bind]
      exact hread cross [cross] rest
    · rw [if_neg h, if_neg h, pure_bind]
      simp only [remaining_between, pure_bind]
      exact hread Scalar.zero [] (cross :: rest)

/-- Without a single operand left, a curve ends on its axis. -/
private theorem trailing_between_of_ne {rest : List α} (h : rest.length ≠ 1) (front : List α)
    (o : Outline α) :
    trailing (between front rest o) = pure (Scalar.zero, between front rest o) := by
  rw [trailing, remaining_between, pure_bind, if_neg h]

/-- A single operand that is left is taken as the end of the last curve. -/
private theorem trailing_between (front : List α) (cross : α) (o : Outline α) :
    trailing (between front [cross] o) = pure (cross, between (front ++ [cross]) [] o) := by
  rw [trailing, remaining_between, pure_bind, if_pos (by simp), next_between]

/-- A pair of curves needs eight operands. -/
theorem curvePair_between_of_lt {rest : List α} (h : rest.length < 8) (axis : Axis)
    (front : List α) (o : Outline α) :
    curvePair axis (between front rest o) = throw .operandCount := by
  match rest with
  | [] | [_] | [_, _] | [_, _, _] | [_, _, _, _] | [_, _, _, _, _] | [_, _, _, _, _, _]
  | [_, _, _, _, _, _, _] => simp [curvePair]
  | _ :: _ :: _ :: _ :: _ :: _ :: _ :: _ :: rest => simp only [List.length_cons] at h; omega

/-- A pair of curves takes eight operands, unless a single one is left behind them. -/
private theorem curvePair_between {rest : List α} (h : rest.length ≠ 1) (axis : Axis)
    (front : List α) (a b c d e f g h' : α) (o : Outline α) :
    curvePair axis (between front (a :: b :: c :: d :: e :: f :: g :: h' :: rest) o) =
      pure (between (front ++ [a] ++ [b] ++ [c] ++ [d] ++ [e] ++ [f] ++ [g] ++ [h']) rest
        (o.draw [axis.turningCurve a b c d Scalar.zero,
          axis.other.turningCurve e f g h' Scalar.zero])) := by
  simp [curvePair, trailing_between_of_ne h]

/-- The last pair takes the operand behind it. -/
private theorem curvePair_between_last (axis : Axis) (front : List α) (a b c d e f g h cross : α)
    (o : Outline α) :
    curvePair axis (between front [a, b, c, d, e, f, g, h, cross] o) =
      pure (between (front ++ [a] ++ [b] ++ [c] ++ [d] ++ [e] ++ [f] ++ [g] ++ [h] ++ [cross]) []
        (o.draw [axis.turningCurve a b c d Scalar.zero,
          axis.other.turningCurve e f g h cross])) := by
  simp [curvePair, trailing_between]

private theorem draws_curvePairs (axis : Axis) : ∀ (rounds : Nat) (front operands : List α)
    (o : Outline α), operands.length < rounds →
      Draws o (whileMoreThan 0 (curvePair axis) rounds (between front operands o))
        (PathOperands.curvePairs axis operands)
  | rounds + 1, front, [], o, _ => by
    rw [whileMoreThan_of_le (by simp)]
    exact .ok rfl
  | rounds + 1, front, [_], o, _ | rounds + 1, front, [_, _], o, _
  | rounds + 1, front, [_, _, _], o, _ | rounds + 1, front, [_, _, _, _], o, _
  | rounds + 1, front, [_, _, _, _, _], o, _ | rounds + 1, front, [_, _, _, _, _, _], o, _
  | rounds + 1, front, [_, _, _, _, _, _, _], o, _ => by
    rw [whileMoreThan_of_throw (by simp) (curvePair_between_of_lt (by simp) _ _ _)]
    exact .error _
  | rounds + 1, front, [a, b, c, d, e, f, g, h], o, hrounds => by
    rw [whileMoreThan_of_lt (by simp) (curvePair_between (by simp) axis front a b c d e f g h o)]
    simp only [List.length_cons] at hrounds
    exact (draws_curvePairs axis rounds _ [] _ (by omega)).append
  | rounds + 2, front, [a, b, c, d, e, f, g, h, cross], o, _ => by
    rw [whileMoreThan_of_lt (by simp) (curvePair_between_last axis front a b c d e f g h cross o),
      whileMoreThan_of_le (by simp)]
    exact .ok rfl
  | rounds + 1, front, a :: b :: c :: d :: e :: f :: g :: h :: x :: y :: rest, o, hrounds => by
    rw [whileMoreThan_of_lt (by simp) (curvePair_between (by simp) axis front a b c d e f g h o)]
    have hrest : (x :: y :: rest).length < rounds := by
      simp only [List.length_cons] at hrounds ⊢
      omega
    exact (draws_curvePairs axis rounds _ (x :: y :: rest) _ hrest).append

/-- The third binary digit of a number. -/
theorem and_four_ne_zero (n : Nat) : n &&& 4 ≠ 0 ↔ n / 4 % 2 = 1 := by
  have hand := Nat.and_two_pow n 2
  rw [Nat.testBit_eq_decide_div_mod_eq] at hand
  by_cases h : n / 2 ^ 2 % 2 = 1
  · rw [decide_eq_true h] at hand
    exact iff_of_true (by rw [show 4 = 2 ^ 2 from rfl, hand]; decide) h
  · rw [decide_eq_false h] at hand
    exact iff_of_false (by rw [show 4 = 2 ^ 2 from rfl, hand]; decide) h

/-- A third binary digit of the number of operands stands for a single curve in front of the
pairs. -/
private theorem draws_alternatingCurves (axis : Axis) (operands : List α) (o : Outline α) :
    Draws o (alternatingCurves axis (between [] operands o))
      (PathOperands.alternatingCurves axis operands) := by
  unfold alternatingCurves PathOperands.alternatingCurves
  rw [operands_between, List.nil_append]
  by_cases hodd : operands.length / 4 % 2 = 1
  · rw [if_pos ((and_four_ne_zero _).mpr hodd), if_pos hodd]
    match operands with
    | [] | [_] | [_, _] | [_, _, _] => simp at hodd
    | [a, b, c, d] =>
      have hnone : ([] : List α).length ≠ 1 := by simp
      simp only [next_between, pure_bind, trailing_between_of_ne hnone, draw_between]
      exact (draws_curvePairs axis.other _ _ [] _ (length_lt_rounds _ [])).cons
    | [a, b, c, d, cross] =>
      simp only [next_between, pure_bind, trailing_between, draw_between]
      rw [whileMoreThan_of_le (by simp)]
      exact .ok rfl
    | a :: b :: c :: d :: x :: y :: rest =>
      have hmore : (x :: y :: rest).length ≠ 1 := by simp
      simp only [next_between, pure_bind, trailing_between_of_ne hmore, draw_between]
      exact (draws_curvePairs axis.other _ _ (x :: y :: rest) _ (length_lt_rounds _ _)).cons
  · rw [if_neg (mt (and_four_ne_zero _).mp hodd), if_neg hodd]
    exact draws_curvePairs axis _ [] operands o (Nat.lt_succ_self _)

/-! ## Flexes -/

/-- The reader passes over the depth of the flex. -/
private theorem draws_flex (operands : List α) (o : Outline α) :
    Draws o (flex (between [] operands o)) (PathOperands.flex operands) := by
  rw [flex, operands_between, List.nil_append]
  refine .ite (fun h => ?_) fun h => ?_
  · match operands, h with
    | [dx1, dy1, dx2, dy2, dx3, dy3, dx4, dy4, dx5, dy5, dx6, dy6, fd], _ =>
      simp only [curve_between, next_between, pure_bind]
      exact .ok rfl
  · unfold PathOperands.flex
    split
    · exact absurd rfl h
    · rfl

private theorem draws_hflex (operands : List α) (o : Outline α) :
    Draws o (hflex (between [] operands o)) (PathOperands.hflex operands) := by
  rw [hflex, operands_between, List.nil_append]
  refine .ite (fun h => ?_) fun h => ?_
  · match operands, h with
    | [dx1, dx2, dy2, dx3, dx4, dx5, dx6], _ =>
      simp only [next_between, draw_between, pure_bind]
      exact .ok rfl
  · unfold PathOperands.hflex
    split
    · exact absurd rfl h
    · rfl

private theorem draws_hflex1 (operands : List α) (o : Outline α) :
    Draws o (hflex1 (between [] operands o)) (PathOperands.hflex1 operands) := by
  rw [hflex1, operands_between, List.nil_append]
  refine .ite (fun h => ?_) fun h => ?_
  · match operands, h with
    | [dx1, dy1, dx2, dy2, dx3, dx4, dx5, dy5, dx6], _ =>
      simp only [next_between, draw_between, pure_bind]
      exact .ok rfl
  · unfold PathOperands.hflex1
    split
    · exact absurd rfl h
    · rfl

/-- The comparison of the two distances is the one of the path. -/
private theorem draws_flex1 (operands : List α) (o : Outline α) :
    Draws o (flex1 (between [] operands o)) (PathOperands.flex1 operands) := by
  rw [flex1, operands_between, List.nil_append]
  refine .ite (fun h => ?_) fun h => ?_
  · match operands, h with
    | [dx1, dy1, dx2, dy2, dx3, dy3, dx4, dy4, dx5, dy5, d6], _ =>
      simp only [next_between, draw_between, pure_bind]
      exact .ok rfl
  · unfold PathOperands.flex1
    split
    · exact absurd rfl h
    · rfl

/-- Every operator draws the path that it stands for, or refuses its operands, whatever they are. -/
theorem draws_path (op : PathOperator) (operands : List α) (o : Outline α) :
    Draws o (path op ⟨operands, 0, o⟩) (op.steps operands) := by
  cases op with
  | rmoveto => exact draws_freeMove operands o
  | hmoveto => exact draws_axisMove .horizontal operands o
  | vmoveto => exact draws_axisMove .vertical operands o
  | rlineto => exact draws_lines _ [] operands o (Nat.lt_succ_self _)
  | hlineto => exact draws_linePairs .horizontal _ [] operands o (Nat.lt_succ_self _)
  | vlineto => exact draws_linePairs .vertical _ [] operands o (Nat.lt_succ_self _)
  | rrcurveto => exact draws_curves operands o
  | rcurveline => exact draws_whileCurve_line _ [] operands o (Nat.lt_succ_self _)
  | rlinecurve => exact draws_whileLine_curve _ [] operands o (Nat.lt_succ_self _)
  | hhcurveto => exact draws_packedParallelCurves .horizontal operands o
  | vvcurveto => exact draws_packedParallelCurves .vertical operands o
  | hvcurveto => exact draws_alternatingCurves .horizontal operands o
  | vhcurveto => exact draws_alternatingCurves .vertical operands o
  | flex => exact draws_flex operands o
  | hflex => exact draws_hflex operands o
  | hflex1 => exact draws_hflex1 operands o
  | flex1 => exact draws_flex1 operands o

end FontMetrics.Charstring.PathReader
