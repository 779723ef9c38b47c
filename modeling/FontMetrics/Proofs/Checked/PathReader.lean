import FontMetrics.Charstring.PathOperands
import FontMetrics.Proofs.Checked.Outline

/-!
# Reading operands one by one

A path operator takes its operands from the bottom of the stack, one after another, and draws as it
goes along.  The reader counts how many it has taken; how many remain is a difference that must not
become negative, and the count must not pass the end of the operands.  Whatever the operands are,
neither happens.
-/

namespace FontMetrics.Charstring

/-- Operands of a path operator that are being read. -/
structure PathReader (α : Type) where
  /-- All operands, from the bottom of the stack. -/
  operands : List α
  /-- How many of them have been read. -/
  position : Nat
  /-- The outline drawn so far. -/
  outline : Outline α

namespace PathReader

variable {α : Type}

/-- How many operands have not been read. -/
def remaining (r : PathReader α) : Checked Error Nat :=
  Checked.sub r.operands.length r.position

/-- Passes over an operand. -/
def skip (r : PathReader α) : Checked Error (PathReader α) := do
  let position ← Checked.advance r.operands r.position 1
  return { r with position }

/-- Reads an operand. -/
def next (r : PathReader α) : Checked Error (α × PathReader α) :=
  match r.operands[r.position]? with
  | none => throw .operandCount
  | some x => do
    let r ← r.skip
    return (x, r)

/-- The reader between the operands that it has read and those that remain. -/
def between (front rest : List α) (o : Outline α) : PathReader α := ⟨front ++ rest, front.length, o⟩

section Reading

variable (front rest : List α) (x : α) (o : Outline α)

/-- The operands read and those that remain are all operands. -/
@[simp] theorem operands_between : (between front rest o).operands = front ++ rest := rfl

/-- The difference of both counts is the number of the remaining operands. -/
@[simp] theorem remaining_between : (between front rest o).remaining = pure rest.length := by
  have hle : front.length ≤ (front ++ rest).length := by simp
  rw [remaining, between, Checked.sub_eq hle, List.length_append, Nat.add_sub_cancel_left]

/-- An operand that remains is passed over without leaving the stack. -/
@[simp] theorem skip_between :
    (between front (x :: rest) o).skip = pure (between (front ++ [x]) rest o) := by
  have hle : front.length + 1 ≤ (front ++ x :: rest).length := by simp
  simp only [skip, between, Checked.advance_eq hle, pure_bind, List.append_assoc,
    List.singleton_append, List.length_append, List.length_singleton]

/-- The next operand is the first of those that remain. -/
@[simp] theorem next_between :
    (between front (x :: rest) o).next = pure (x, between (front ++ [x]) rest o) := by
  have hx : (between front (x :: rest) o).operands[(between front (x :: rest) o).position]? =
      some x := by simp [between]
  rw [next, hx]
  simp only [skip_between, pure_bind]

/-- Reading on behind the last operand is an error of their number. -/
@[simp] theorem next_between_nil : (between front [] o).next = throw .operandCount := by
  simp [next, between]

end Reading

/-- Repeats a part of the path as long as more than `count` operands remain. -/
def whileMoreThan (count : Nat) (body : PathReader α → Checked Error (PathReader α)) :
    (rounds : Nat) → PathReader α → Checked Error (PathReader α) :=
  Checked.loop fun r => do
    let left ← r.remaining
    if count < left then
      let r ← body r
      return .yield r
    else
      return .done r

section Loops

variable {count rounds : Nat} {body : PathReader α → Checked Error (PathReader α)}
  {front rest : List α} {o : Outline α}

/-- The loop ends when few enough operands remain. -/
theorem whileMoreThan_of_le (h : rest.length ≤ count) :
    whileMoreThan count body (rounds + 1) (between front rest o) = pure (between front rest o) :=
  Checked.loop_of_done (by simp [Nat.not_lt.mpr h])

/-- With more operands left, a part of the path is drawn and the loop goes on. -/
theorem whileMoreThan_of_lt {r : PathReader α} (h : count < rest.length)
    (hbody : body (between front rest o) = pure r) :
    whileMoreThan count body (rounds + 1) (between front rest o) =
      whileMoreThan count body rounds r :=
  Checked.loop_of_yield (by simp [h, hbody])

/-- A part of the path that is refused ends the loop with its error. -/
theorem whileMoreThan_of_throw {e : Error} (h : count < rest.length)
    (hbody : body (between front rest o) = throw e) :
    whileMoreThan count body (rounds + 1) (between front rest o) = throw e :=
  Checked.loop_of_throw (by simp [h, hbody])

end Loops

variable [Scalar α]

/-- Performs a step of the path. -/
def draw (s : PathStep α) (r : PathReader α) : Checked Error (PathReader α) := do
  let outline ← r.outline.checkedStep s
  return { r with outline }

/-- Drawing a step takes no operand. -/
@[simp] theorem draw_between (front rest : List α) (o : Outline α) (s : PathStep α) :
    (between front rest o).draw s = pure (between front rest (o.step s)) := by
  simp only [draw, between, Outline.checkedStep_eq, pure_bind]

/-- The reader draws the path, or fails as the path does. -/
def Draws (o : Outline α) (x : Checked Error (PathReader α))
    (path : Except Error (List (PathStep α))) : Prop :=
  Checked.Agrees (fun r p => r.outline = o.draw p) x path

/-- A reader with the outline of the path has drawn it. -/
theorem Draws.ok {o : Outline α} {r : PathReader α} {p : List (PathStep α)}
    (h : r.outline = o.draw p) : Draws o (pure r) (.ok p) := Checked.Agrees.ok h

/-- Both may fail with the same error. -/
theorem Draws.error {o : Outline α} (e : Error) : Draws o (throw e) (.error e) :=
  Checked.Agrees.error e

/-- Steps that have been drawn are the first of the path. -/
theorem Draws.append {o : Outline α} {front : List (PathStep α)} {x : Checked Error (PathReader α)}
    {path : Except Error (List (PathStep α))} (h : Draws (o.draw front) x path) :
    Draws o x ((front ++ ·) <$> path) := by
  cases h with
  | ok h => exact .ok (h.trans (Outline.draw_append o front _).symm)
  | error e => exact .error e

/-- A step that has been drawn is the first of the path. -/
theorem Draws.cons {o : Outline α} {s : PathStep α} {x : Checked Error (PathReader α)}
    {path : Except Error (List (PathStep α))} (h : Draws (o.step s) x path) :
    Draws o x ((s :: ·) <$> path) :=
  Draws.append (show Draws (o.draw [s]) x path from h)

/-- A reader may refuse operands before it draws anything, if the path refuses them too. -/
theorem Draws.ite {o : Outline α} {x : Checked Error (PathReader α)}
    {path : Except Error (List (PathStep α))} {e : Error} {p : Prop} [Decidable p]
    (hyes : p → Draws o x path) (hno : ¬p → path = .error e) :
    Draws o (if p then x else throw e) path := by
  by_cases h : p
  · rw [if_pos h]
    exact hyes h
  · rw [if_neg h, hno h]
    exact .error e

end PathReader

end FontMetrics.Charstring
