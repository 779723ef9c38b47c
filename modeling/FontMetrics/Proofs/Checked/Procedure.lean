import FontMetrics.Proofs.Checked.Result

/-!
# Procedures

A procedure changes data in place.  What it has changed stays changed when it ends with an error, so
that it takes a proof to say that a failing procedure leaves its data alone: one that realizes a
computation of new data does all of what was computed, or nothing.

The history of a machine lists its answers to a sequence of operations, each with what is seen of the
machine afterwards.  A rule says which answers are right; what one operation does carries over to
histories of any length.
-/

namespace FontMetrics

/-- A computation that changes data in place and ends with a value or an error, unless it faults. -/
abbrev Procedure (σ ε β : Type) := ExceptT ε (StateT σ Option) β

namespace Procedure

variable {σ ε β γ : Type}

/-- A checked computation, which does not touch the data. -/
def check (x : Checked ε β) : Procedure σ ε β :=
  ExceptT.mk fun s => x.run.map fun answer => (answer, s)

/-- How a procedure ends, and the data that it leaves. -/
def outcome (p : Procedure σ ε β) (s : σ) : Option (Except ε β × σ) := p.run.run s

/-- A value alone leaves the state as it is. -/
@[simp] theorem outcome_pure (b : β) (s : σ) :
    outcome (pure b : Procedure σ ε β) s = some (.ok b, s) := rfl

/-- The state is handed on unchanged. -/
@[simp] theorem outcome_get_bind (f : σ → Procedure σ ε β) (s : σ) :
    outcome (get >>= f) s = outcome (f s) s := rfl

/-- A procedure goes on with the state that has been set. -/
@[simp] theorem outcome_set_bind (t : σ) (f : PUnit → Procedure σ ε β) (s : σ) :
    outcome (set t >>= f) s = outcome (f ⟨⟩) t := rfl

/-- A checked computation leaves the state as it is. -/
@[simp] theorem outcome_check (x : Checked ε β) (s : σ) :
    outcome (check x : Procedure σ ε β) s = x.run.map fun answer => (answer, s) := rfl

/-- A procedure goes on with the value of a checked computation. -/
@[simp] theorem outcome_check_pure_bind (b : β) (f : β → Procedure σ ε γ) (s : σ) :
    outcome (check (pure b) >>= f) s = outcome (f b) s := rfl

/-- A procedure goes on from the data that its first part leaves, unless that fails. -/
theorem outcome_bind (p : Procedure σ ε β) (f : β → Procedure σ ε γ) (s : σ) :
    outcome (p >>= f) s = match outcome p s with
      | none => none
      | some (.ok b, t) => outcome (f b) t
      | some (.error e, t) => some (.error e, t) := by
  change (p.run.run s).bind (fun q => (ExceptT.bindCont f q.1).run q.2) = _
  rw [outcome]
  match p.run.run s with
  | none | some (.ok _, _) | some (.error _, _) => rfl

/-- A function of the answer does not touch the state. -/
theorem outcome_map (p : Procedure σ ε β) (f : β → γ) (s : σ) :
    outcome (do let b ← p; return f b) s = (outcome p s).map fun q => (q.1.map f, q.2) := by
  rw [outcome_bind]
  match outcome p s with
  | none | some (.ok _, _) | some (.error _, _) => rfl

/-- The answer of a computation of new data, and the data there are then: the old ones if it
fails. -/
def settle (s : σ) : Except ε (β × σ) → Except ε β × σ
  | .ok (b, t) => (.ok b, t)
  | .error e => (.error e, s)

/-- A function of the value is a function of the answer. -/
theorem settle_map (s : σ) (x : Except ε (β × σ)) (f : β → γ) :
    settle s (do let (b, t) ← x; return (f b, t)) = ((settle s x).1.map f, (settle s x).2) := by
  cases x <;> rfl

/-- A procedure and a computation that begin with the same checked computation go on alike. -/
theorem outcome_check_bind {s : σ} {f : β → Procedure σ ε γ} {g : β → Checked ε (γ × σ)}
    (h : ∀ b, outcome (f b) s = (g b).run.map (settle s)) (x : Checked ε β) :
    outcome (check x >>= f) s = (x >>= g).run.map (settle s) := by
  match x with
  | none | some (.error _) => rfl
  | some (.ok b) => exact h b

/-- The procedure changes the data into those that are computed, and changes nothing if the
computation fails. -/
def Realizes (p : Procedure σ ε β) (f : σ → Checked ε (β × σ)) : Prop :=
  ∀ s, p.outcome s = (f s).run.map (settle s)

/-- A procedure that fails leaves the state as it was. -/
theorem Realizes.eq_of_error {p : Procedure σ ε β} {f : σ → Checked ε (β × σ)} (h : p.Realizes f)
    {s t : σ} {e : ε} (herror : p.outcome s = some (.error e, t)) : t = s := by
  rw [h s, Option.map_eq_some_iff] at herror
  obtain ⟨answer, -, hsettle⟩ := herror
  cases answer with
  | ok q => cases hsettle
  | error e' =>
    cases hsettle
    rfl

/-- A procedure that realizes what agrees with an ordinary computation answers like it, and data that
correspond do so afterwards. -/
theorem Realizes.exists_outcome {p : Procedure σ ε β} {f : σ → Checked ε (β × σ)}
    (h : p.Realizes f) {R : σ → γ → Prop} {s : σ} {t : γ} (hR : R s t) {g : Except ε (β × γ)}
    (hagrees : Checked.Agrees (fun q r => q.1 = r.1 ∧ R q.2 r.2) (f s) g) :
    ∃ s', p.outcome s = some ((settle t g).1, s') ∧ R s' (settle t g).2 := by
  have houtcome := h s
  obtain ⟨⟨b, s'⟩, ⟨c, t'⟩, hf, rfl, rfl, hR'⟩ | ⟨e, hf, rfl⟩ := hagrees.ok_or_error
  · rw [hf] at houtcome
    exact ⟨s', houtcome, hR'⟩
  · rw [hf] at houtcome
    exact ⟨s, houtcome, hR⟩

end Procedure

/-! ## Histories -/

section History

variable {ι σ τ ε β γ : Type}

/-- The answers of a machine that changes in place to a sequence of operations, each with what is
seen of the machine afterwards. -/
def Procedure.history (perform : ι → Procedure σ ε β) (view : σ → Checked ε γ) :
    List ι → σ → Checked ε (List (Except ε β × γ))
  | [], _ => pure []
  | op :: ops, s => do
    let (answer, s) ← liftM ((perform op).outcome s)
    let seen ← view s
    let later ← history perform view ops s
    return (answer, seen) :: later

/-- The same of a machine whose new data are computed. -/
def history (perform : ι → τ → Except ε (β × τ)) (view : τ → γ) :
    List ι → τ → List (Except ε β × γ)
  | [], _ => []
  | op :: ops, t =>
    let (answer, t) := Procedure.settle t (perform op t)
    (answer, view t) :: history perform view ops t

/-- Machines that correspond, and do so again after each operation, have the same history. -/
theorem history_eq_of_correspond {perform : ι → Procedure σ ε β} {view : σ → Checked ε γ}
    {perform' : ι → τ → Except ε (β × τ)} {view' : τ → γ} {R : σ → τ → Prop}
    (hstep : ∀ op s t, R s t → ∃ s', (perform op).outcome s =
      some ((Procedure.settle t (perform' op t)).1, s') ∧
        R s' (Procedure.settle t (perform' op t)).2)
    (hview : ∀ s t, R s t → view s = pure (view' t)) (ops : List ι) {s : σ} {t : τ} (h : R s t) :
    Procedure.history perform view ops s = pure (history perform' view' ops t) := by
  induction ops generalizing s t with
  | nil => rfl
  | cons op ops ih =>
    obtain ⟨s', houtcome, hnext⟩ := hstep op s t h
    rw [Procedure.history, houtcome]
    change (view s' >>= fun seen => _) = _
    rw [hview _ _ hnext, pure_bind, ih hnext, pure_bind]
    rfl

/-- Every answer, and what is seen afterwards, is right by the rule. -/
inductive Obeys (rule : γ → ι → Except ε β → γ → Prop) :
    γ → List ι → List (Except ε β × γ) → Prop
  | nil (x : γ) : Obeys rule x [] []
  | cons {x y : γ} {op : ι} {ops : List ι} {answer : Except ε β} {later : List (Except ε β × γ)}
      (hfirst : rule x op answer y) (hlater : Obeys rule y ops later) :
      Obeys rule x (op :: ops) ((answer, y) :: later)

variable {rule : γ → ι → Except ε β → γ → Prop} {ops : List ι} {trace : List (Except ε β × γ)}
  {x : γ}

/-- A history obeys a rule that each operation obeys where an invariant holds. -/
theorem obeys_history {perform : ι → τ → Except ε (β × τ)} {view : τ → γ} {I : τ → Prop}
    (hstep : ∀ op t, I t → rule (view t) op (Procedure.settle t (perform op t)).1
      (view (Procedure.settle t (perform op t)).2) ∧ I (Procedure.settle t (perform op t)).2)
    (ops : List ι) {t : τ} (ht : I t) : Obeys rule (view t) ops (history perform view ops t) := by
  induction ops generalizing t with
  | nil => exact .nil _
  | cons op ops ih =>
    obtain ⟨hfirst, hnext⟩ := hstep op t ht
    exact .cons hfirst (ih hnext)

/-- A rule with one right answer to each operation leaves no choice. -/
theorem Obeys.unique
    (hrule : ∀ {x op answer y answer' y'}, rule x op answer y → rule x op answer' y' →
      answer = answer' ∧ y = y')
    {other : List (Except ε β × γ)} (h : Obeys rule x ops trace) (h' : Obeys rule x ops other) :
    other = trace := by
  induction h generalizing other with
  | nil x =>
    cases h'
    rfl
  | cons hfirst hlater ih =>
    cases h' with
    | cons hfirst' hlater' =>
      obtain ⟨rfl, rfl⟩ := hrule hfirst hfirst'
      rw [ih hlater']

/-- What each operation preserves is seen throughout. -/
theorem Obeys.invariant {I : γ → Prop} (hrule : ∀ {x op answer y}, rule x op answer y → I x → I y)
    (h : Obeys rule x ops trace) (hx : I x) : ∀ entry ∈ trace, I entry.2 := by
  induction h with
  | nil x => exact fun entry hentry => absurd hentry List.not_mem_nil
  | cons hfirst hlater ih =>
    have hy := hrule hfirst hx
    intro entry hentry
    obtain rfl | hlate := List.mem_cons.mp hentry
    · exact hy
    · exact ih hy entry hlate

end History

end FontMetrics
