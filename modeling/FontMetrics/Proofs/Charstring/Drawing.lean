import FontMetrics.Proofs.Binary64.Order
import FontMetrics.Proofs.Charstring.Effects
import FontMetrics.Proofs.Charstring.Simulation
import FontMetrics.Proofs.Outline.Union

/-!
# What a glyph draws

The path that the execution of a glyph draws, in whatever frames, is logged beside the execution.
The bounds of the glyph follow from it: they are absent if it draws nothing, an error if it leaves
the finite plane, and otherwise the union of what it draws.
-/

namespace FontMetrics.Charstring

variable {σ β : Type}

/-- The same semantics, which also logs what path operators do. -/
def Semantics.logged (sem : Semantics σ) (log : PathOperator → σ → List β) :
    Semantics (σ × List β) where
  number value s := (·, s.2) <$> sem.number value s.1
  declareHints s := (sem.declareHints s.1, s.2)
  maskLength s := sem.maskLength s.1
  path op s := (·, s.2 ++ log op s.1) <$> sem.path op s.1
  compute op s := (·, s.2) <$> sem.compute op s.1
  popIndex size s := (fun read => (read.1, read.2, s.2)) <$> sem.popIndex size s.1
  clear s := (sem.clear s.1, s.2)

variable {α : Type} [Scalar α]

/-- The steps that a path operator performs on the operands of a state. -/
def State.steps (op : PathOperator) (s : State α) : List (PathStep α) :=
  match op.steps s.stack.toList with
  | .error _ => []
  | .ok path => path

/-- The path that the execution of a glyph draws, or the error with which it fails. -/
def glyphPath (code : Bytes) (subroutines : Subroutines) : Except Error (List (PathStep α)) :=
  Prod.snd <$> (State.semantics.logged State.steps).run subroutines (some nestingLimit)
    instructionLimit (.start code (.initial, []))

/-- The outline of a state is that of the path logged with it. -/
def State.IsLogged (s : State α) (logged : State α × List (PathStep α)) : Prop :=
  logged.1 = s ∧ s.outline = Outline.empty.draw logged.2

/-- What leaves the outline alone keeps it the outline of the log. -/
theorem State.Keeps.agree {r : Except Error (State α)} {path : List (PathStep α)}
    (h : State.Keeps (Outline.empty.draw path) r) :
    Agree State.IsLogged Error.IsExecution r ((·, path) <$> r) := by
  cases r with
  | ok s => exact .ok ⟨rfl, h⟩
  | error e => exact .error h

/-- What reads operands and leaves the outline alone keeps it the outline of the log. -/
theorem State.KeepsWith.agree {r : Except Error (Nat × State α)} {path : List (PathStep α)}
    (h : State.KeepsWith (Outline.empty.draw path) r) :
    Agree (fun p q => p.1 = q.1 ∧ State.IsLogged p.2 q.2) Error.IsExecution r
      ((fun read => (read.1, read.2, path)) <$> r) := by
  cases r with
  | ok read => exact .ok ⟨rfl, rfl, h⟩
  | error e => exact .error h

/-- A path operator adds the steps it performs to the log. -/
theorem agree_drawPath (op : PathOperator) {s : State α} {path : List (PathStep α)}
    (h : s.outline = Outline.empty.draw path) :
    Agree State.IsLogged Error.IsExecution (s.drawPath op)
      ((·, path ++ s.steps op) <$> s.drawPath op) := by
  have hsteps := op.failsForOperands_steps s.stack.toList
  unfold State.drawPath State.steps
  cases hcase : op.steps s.stack.toList with
  | error e =>
    rw [hcase] at hsteps
    exact .error hsteps.isExecution
  | ok more =>
    refine .ok ⟨rfl, ?_⟩
    rw [Outline.draw_append, ← h]

/-- The logged semantics executes as the plain one does. -/
theorem simulates_logged : (State.semantics : Semantics (State α)).Simulates
    (State.semantics.logged State.steps) State.IsLogged Error.IsExecution where
  number := by
    rintro s ⟨_, path⟩ ⟨rfl, h⟩ value
    exact (State.keeps_push _ h).agree
  declareHints := by
    rintro s ⟨_, path⟩ ⟨rfl, h⟩
    exact ⟨rfl, h⟩
  maskLength := by
    rintro s ⟨_, path⟩ ⟨rfl, h⟩
    rfl
  path := by
    rintro s ⟨_, path⟩ ⟨rfl, h⟩ op
    exact agree_drawPath op h
  compute := by
    rintro s ⟨_, path⟩ ⟨rfl, h⟩ op
    exact (State.keeps_compute op h).agree
  popIndex := by
    rintro s ⟨_, path⟩ ⟨rfl, h⟩ size
    exact (State.keeps_popIndex size h).agree
  clear := by
    rintro s ⟨_, path⟩ ⟨rfl, h⟩
    exact ⟨rfl, h⟩
  control h := by cases h <;> trivial

/-- The final state of a glyph has the outline of its path; without one, the errors are the same. -/
theorem agree_glyphPath (code : Bytes) (subroutines : Subroutines) :
    Agree (fun (s : State α) path => s.outline = Outline.empty.draw path) Error.IsExecution
      (finalState code subroutines) (glyphPath code subroutines) := by
  have hinitial : State.IsLogged (State.initial : State α) (.initial, []) := ⟨rfl, rfl⟩
  exact (simulates_logged.run instructionLimit hinitial code []).map_right fun _ _ h => h.2

/-- The bounds of a glyph are those of the outline of its path. -/
theorem glyphBounds_eq (code : Bytes) (subroutines : Subroutines) :
    (glyphBounds code subroutines : Except Error (Option (Box α))) =
      glyphPath code subroutines >>= fun path => boundsOfOutline (Outline.empty.draw path) := by
  have hagree := agree_glyphPath (α := α) code subroutines
  unfold glyphBounds
  generalize (finalState code subroutines : Except Error (State α)) = r at hagree ⊢
  generalize (glyphPath code subroutines : Except Error (List (PathStep α))) = r' at hagree ⊢
  cases hagree with
  | ok h => exact congrArg boundsOfOutline h
  | error h => rfl

/-- No execution fails for what its outline is. -/
theorem glyphPath_ne_overflow (code : Bytes) (subroutines : Subroutines) :
    (glyphPath code subroutines : Except Error (List (PathStep α))) ≠ .error .outlineOverflow := by
  have hagree := agree_glyphPath (α := α) code subroutines
  intro heq
  rw [heq] at hagree
  generalize (finalState code subroutines : Except Error (State α)) = r at hagree
  cases hagree with
  | error h => exact h

omit [Scalar α] in
/-- The box of an outline is an error exactly if the outline has overflowed. -/
theorem boundsOfOutline_eq_error_iff {o : Outline α} {e : Error} :
    boundsOfOutline o = .error e ↔ o.overflowed = true ∧ e = .outlineOverflow := by
  unfold boundsOfOutline
  split
  · next h => simp [h, eq_comm]
  · next h => simp [h]

omit [Scalar α] in
/-- The box of an outline is that drawn on it unless the outline has overflowed. -/
theorem boundsOfOutline_eq_ok_iff {o : Outline α} {box : Option (Box α)} :
    boundsOfOutline o = .ok box ↔ o.overflowed = false ∧ o.box = box := by
  unfold boundsOfOutline
  split
  · next h => simp [h]
  · next h => simp [h]

/-- What the bounds of a glyph say about the path that its execution draws. -/
structure DescribesGlyph (final : Except Error (State α)) (path : Except Error (List (PathStep α)))
    (bounds : Except Error (Option (Box α))) : Prop where
  /-- The execution ends with the outline of the path, or fails as the path does. -/
  agree : Agree (fun s steps => s.outline = Outline.empty.draw steps) Error.IsExecution final path
  /-- There are no bounds exactly if the execution ends without error and draws nothing. -/
  eq_none_iff : bounds = .ok none ↔ ∃ steps, path = .ok steps ∧ ∀ s ∈ steps, ¬ s.Draws
  /-- The outline is too large exactly if the execution ends without error and a segment is. -/
  eq_overflow_iff : bounds = .error .outlineOverflow ↔ ∃ steps, path = .ok steps ∧
    ∃ s ∈ segments (Scalar.zero, Scalar.zero) steps, s.Overflows
  /-- Every other error is one of the execution. -/
  eq_error_iff : ∀ e, e ≠ .outlineOverflow → (bounds = .error e ↔ path = .error e)
  /-- Otherwise the bounds are those of the segments. -/
  eq_some : ∀ steps, path = .ok steps → (∃ s ∈ steps, s.Draws) →
    (∀ s ∈ segments (Scalar.zero, Scalar.zero) steps, ¬ s.Overflows) →
    ∃ b, bounds = .ok (some b) ∧ b.Bounds (segments (Scalar.zero, Scalar.zero) steps)

/-- The bounds of a glyph describe the path that its execution draws. -/
theorem describesGlyph [Scalar.IsOrdered α] (code : Bytes) (subroutines : Subroutines) :
    DescribesGlyph (α := α) (finalState code subroutines) (glyphPath code subroutines)
      (glyphBounds code subroutines) := by
  have hagree := agree_glyphPath (α := α) code subroutines
  have hne := glyphPath_ne_overflow (α := α) code subroutines
  rw [glyphBounds_eq]
  cases hpath : (glyphPath code subroutines : Except Error (List (PathStep α))) with
  | error e =>
    rw [hpath] at hne hagree
    change DescribesGlyph _ (.error e) (.error e)
    refine ⟨hagree, ?_, ?_, ?_, nofun⟩
    · simp
    · simpa using hne
    · intro e' _
      simp
  | ok steps =>
    have hdescribes := Outline.describes_draw_empty steps
    rw [hpath] at hagree
    change DescribesGlyph _ (.ok steps) (boundsOfOutline (Outline.empty.draw steps))
    refine ⟨hagree, ?_, ?_, ?_, ?_⟩
    · rw [boundsOfOutline_eq_ok_iff, hdescribes.box_eq_none_iff]
      -- What draws nothing has no segment that could overflow.
      have hsound (hnone : ∀ s ∈ steps, ¬ s.Draws) :
          (Outline.empty.draw steps).overflowed = false := by
        rw [← Bool.not_eq_true, hdescribes.overflowed_iff, segments_eq_nil_iff.mpr hnone]
        exact fun ⟨_, hs, _⟩ => absurd hs List.not_mem_nil
      constructor
      · exact fun ⟨_, hnone⟩ => ⟨steps, rfl, hnone⟩
      · rintro ⟨_, ⟨rfl⟩, hnone⟩
        exact ⟨hsound hnone, hnone⟩
    · rw [boundsOfOutline_eq_error_iff, hdescribes.overflowed_iff]
      simp
    · intro e he
      simp [boundsOfOutline_eq_error_iff, he]
    · rintro _ ⟨rfl⟩ ⟨s, hs, hdraws⟩ hsound
      have hflag : (Outline.empty.draw steps).overflowed = false := by
        rw [← Bool.not_eq_true, hdescribes.overflowed_iff]
        exact fun ⟨seg, hseg, hover⟩ => hsound seg hseg hover
      cases hbox : (Outline.empty.draw steps).box with
      | none => exact absurd hdraws (hdescribes.box_eq_none_iff.mp hbox s hs)
      | some b => exact ⟨b, boundsOfOutline_eq_ok_iff.mpr ⟨hflag, hbox⟩,
          hdescribes.bounds hflag b hbox⟩

/-- The bounds of a glyph are finite. -/
theorem isFinite_of_glyphBounds [Scalar.IsOrdered α] {code : Bytes} {subroutines : Subroutines}
    {b : Box α} (h : glyphBounds code subroutines = .ok (some b)) : b.isFinite = true := by
  rw [glyphBounds_eq] at h
  cases hpath : (glyphPath code subroutines : Except Error (List (PathStep α))) with
  | error e =>
    rw [hpath] at h
    cases h
  | ok steps =>
    rw [hpath] at h
    obtain ⟨hflag, hbox⟩ := boundsOfOutline_eq_ok_iff.mp h
    exact ((Outline.tracks_draw_empty steps).bounds hflag hbox).isFinite

/-- On floating-point numbers, the ones that are not finite included, an outline describes the path
drawn on it, and the bounds of a glyph describe the path that its execution draws. -/
theorem bounds_describe_drawing :
    (∀ path : List (PathStep Float), (Outline.empty.draw path).Describes path) ∧
    ∀ code subroutines, DescribesGlyph (α := Float) (finalState code subroutines)
      (glyphPath code subroutines) (glyphBounds code subroutines) :=
  ⟨Outline.describes_draw_empty, describesGlyph⟩

end FontMetrics.Charstring
