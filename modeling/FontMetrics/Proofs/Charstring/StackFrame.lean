import Mathlib.Logic.Function.Iterate
import FontMetrics.Proofs.Charstring.Invariant
import FontMetrics.Proofs.Charstring.Rotation
import FontMetrics.Proofs.Charstring.StackErrors

/-!
# Operands that an execution does not reach

Instructions address the operand stack from its top.  What lies so deep that a run of instructions
never comes near it stays where it is, and the run goes on as if it were not there, as long as the
stack does not become too full.  This holds through calls of subroutines, and whichever operands
`index` and `roll` name.  Runs that neither declare hints nor draw leave the pen, the box and the
hints alone as well.
-/

namespace FontMetrics.Charstring

section Runs

variable {σ : Type} (sem : Semantics σ) (subroutines : Subroutines) (limit : Option Nat)

/-- The given instructions, in order, lead from one configuration to the other. -/
inductive Semantics.Runs : List Instruction → Config σ → Config σ → Prop where
  /-- No instruction. -/
  | nil (c : Config σ) : Runs [] c c
  /-- One instruction, and then more. -/
  | cons {i : Instruction} {more : List Instruction} {c rest c' c'' : Config σ}
    (fetch : c.fetch = some (.ok (i, rest))) (first : sem.Executes subroutines limit rest i c')
    (others : Runs more c' c'') : Runs (i :: more) c c''

variable {sem subroutines limit}

/-- A step is a run of the instruction that comes next. -/
theorem Semantics.Runs.of_step {i : Instruction} {more : List Instruction}
    {c rest c' c'' : Config σ} {called : Option Call} (fetch : c.fetch = some (.ok (i, rest)))
    (first : sem.step subroutines limit c = .next called c')
    (others : sem.Runs subroutines limit more c' c'') :
    sem.Runs subroutines limit (i :: more) c c'' := by
  rw [step_of_fetch_ok fetch] at first
  exact .cons fetch (executes_of_execute first) others

/-- The instructions of a run are the steps of the execution. -/
theorem Semantics.steps_iff_exists_runs {n : Nat} {c c' : Config σ} :
    sem.Steps subroutines limit n c c' ↔
      ∃ instructions, instructions.length = n ∧ sem.Runs subroutines limit instructions c c' := by
  constructor
  · intro h
    induction h with
    | refl c => exact ⟨[], rfl, .nil c⟩
    | head first _ ih =>
      obtain ⟨i, rest, hfetch, hexecutes⟩ := exists_step_iff.mp ⟨_, first⟩
      obtain ⟨more, hlength, hruns⟩ := ih
      exact ⟨i :: more, congrArg (· + 1) hlength, .cons hfetch hexecutes hruns⟩
  · rintro ⟨instructions, rfl, h⟩
    induction h with
    | nil c => exact .refl c
    | cons fetch first _ ih =>
      obtain ⟨called, hstep⟩ := exists_step_iff.mpr ⟨_, _, fetch, first⟩
      exact .head hstep ih

end Runs

/-- The instruction neither declares hints nor moves the pen or draws, and it does not end the
glyph. -/
def Instruction.IsCalculation : Instruction → Prop
  | .number _ | .operator (.stack _) | .operator (.call _) | .operator .ret
  | .operator .dotsection => True
  | .operator (.stem _) | .operator (.mask _) | .operator (.path _)
  | .operator .endchar => False

variable {α β γ δ ε : Type}

/-- Where the first computation succeeds, so does the second, with a related value. -/
def Lifts (R : β → γ → Prop) (r : Except Error β) (r' : Except Error γ) : Prop :=
  ∀ b, r = .ok b → ∃ b', r' = .ok b' ∧ R b b'

namespace Lifts

variable {R : β → γ → Prop} {Q : δ → ε → Prop}

/-- A computation is related to itself. -/
theorem refl (r : Except Error β) : Lifts Eq r r := fun b hb => ⟨b, hb, rfl⟩

/-- Related values are related computations. -/
theorem ok {b : β} {b' : γ} (h : R b b') : Lifts R (.ok b) (.ok b') := by
  rintro _ ⟨⟩
  exact ⟨b', rfl, h⟩

/-- A weaker relation holds too. -/
theorem mono {R' : β → γ → Prop} {r : Except Error β} {r' : Except Error γ} (h : Lifts R r r')
    (hR : ∀ b b', R b b' → R' b b') : Lifts R' r r' := by
  intro b hb
  obtain ⟨b', hb', hrel⟩ := h b hb
  exact ⟨b', hb', hR b b' hrel⟩

/-- Computations that go on alike from related values are related. -/
theorem bind {r : Except Error β} {r' : Except Error γ} {f : β → Except Error δ}
    {f' : γ → Except Error ε} (h : Lifts R r r') (hf : ∀ b b', R b b' → Lifts Q (f b) (f' b')) :
    Lifts Q (r >>= f) (r' >>= f') := by
  intro d hd
  cases hr : r with
  | error e =>
    rw [hr] at hd
    cases hd
  | ok b =>
    obtain ⟨b', hr', hb⟩ := h b hr
    rw [hr] at hd
    obtain ⟨d', hd', hq⟩ := hf b b' hb d hd
    exact ⟨d', by rw [hr']; exact hd', hq⟩

end Lifts

namespace OperandStack

variable {capacity depth count shift : Nat} {below : List α} {s t : OperandStack capacity α}

/-- Depths that exist above some operands name the same operands on top of them. -/
theorem lifts_peek (h : t.toList = below ++ s.toList) (depth : Nat) :
    Lifts Eq (s.peek depth) (t.peek depth) := by
  intro x hx
  refine ⟨x, ?_, rfl⟩
  rw [peek_eq_ok_iff] at hx ⊢
  obtain ⟨hdepth, -⟩ := List.getElem?_eq_some_iff.mp hx
  rw [h, List.reverse_append, List.getElem?_append_left hdepth]
  exact hx

/-- A block that exists above some operands rolls in the same way on top of them. -/
theorem lifts_roll (h : t.toList = below ++ s.toList) (count shift : Nat) :
    Lifts (fun s' t' => t'.toList = below ++ s'.toList) (s.roll count shift)
      (t.roll count shift) := by
  intro s' hs'
  have hcount : count ≤ s.size := by
    rw [← roll_isOk_iff count shift s, hs']
    rfl
  have hsize : t.size = below.length + s.size := by
    rw [← length_toList, h, List.length_append, length_toList]
  obtain ⟨t', ht'⟩ := exists_roll (show count ≤ t.size by omega) shift
  have hfront : t.size - count = below.length + (s.size - count) := by omega
  refine ⟨t', ht', ?_⟩
  change t'.toList = below ++ s'.toList
  rw [roll_toList ht', roll_toList hs', h, hfront, List.take_length_add_append,
    List.drop_length_add_append, List.append_assoc]

end OperandStack

namespace State

/-- The second state has other operands below those of the first one.  What it has declared and
drawn may be different. -/
structure StandsOn (below : List α) (s t : State α) : Prop where
  /-- The operands of the first state are on the top. -/
  stack : t.stack.toList = below ++ s.stack.toList
  transient : t.transient = s.transient
  random : t.random = s.random

/-- The second state stands on some operands, with room for so many more on the top. -/
structure StandsWithRoom (below : List α) (room : Nat) (s t : State α) : Prop extends
    StandsOn below s t where
  room : t.stack.size + room ≤ stackLimit

variable {below : List α} {room : Nat} {s t : State α}

/-- Popping from above the frame makes room for an operand. -/
theorem StandsWithRoom.pop (h : StandsWithRoom below room s t) :
    Lifts (fun p q => p.1 = q.1 ∧ StandsWithRoom below (room + 1) p.2 q.2) s.pop t.pop := by
  intro p hp
  rcases s.pop_cases with ⟨-, hpop⟩ | ⟨x, stack, hpop, hlist⟩
  · rw [hpop] at hp
    cases hp
  rw [hpop] at hp
  cases hp
  have hstack : t.stack.toList = below ++ stack.toList ++ [x] := by
    rw [h.stack, hlist, List.append_assoc]
  rcases t.pop_cases with ⟨hempty, -⟩ | ⟨y, stack', hpop', hlist'⟩
  · rw [hempty] at hstack
    simp at hstack
  · have hroom := h.room
    have hsize := OperandStack.size_succ_of_concat hlist'
    rw [hlist'] at hstack
    obtain ⟨hbelow, htop⟩ := List.append_inj' hstack rfl
    cases htop
    have hroom' : stack'.size + (room + 1) ≤ stackLimit := by omega
    exact ⟨_, hpop', rfl, ⟨hbelow, h.transient, h.random⟩, hroom'⟩

/-- Pushing uses up room. -/
theorem StandsWithRoom.push (h : StandsWithRoom below (room + 1) s t) (x : α) :
    Lifts (StandsWithRoom below room) (s.push x) (t.push x) := by
  intro s' hs'
  have hroom := h.room
  rcases s.push_cases x with ⟨-, hpush⟩ | ⟨-, stack, hpush, hlist⟩
  · rw [hpush] at hs'
    cases hs'
  rw [hpush] at hs'
  cases hs'
  rcases t.push_cases x with ⟨hfull, -⟩ | ⟨-, stack', hpush', hlist'⟩
  · omega
  · have hsize := OperandStack.size_succ_of_concat hlist'
    have hstack : stack'.toList = below ++ stack.toList := by
      rw [hlist', h.stack, hlist, List.append_assoc]
    have hroom' : stack'.size + room ≤ stackLimit := by omega
    exact ⟨_, hpush', ⟨hstack, h.transient, h.random⟩, hroom'⟩

/-- Popping two operands makes room for two. -/
theorem StandsWithRoom.pop2 (h : StandsWithRoom below room s t) :
    Lifts (fun p q => p.1 = q.1 ∧ p.2.1 = q.2.1 ∧ StandsWithRoom below (room + 2) p.2.2 q.2.2)
      s.pop2 t.pop2 := by
  apply h.pop.bind
  rintro ⟨b, s₁⟩ ⟨_, t₁⟩ ⟨rfl, h₁⟩
  apply h₁.pop.bind
  rintro ⟨a, s₂⟩ ⟨_, t₂⟩ ⟨rfl, h₂⟩
  exact .ok ⟨rfl, rfl, h₂⟩

/-- Popping an operand makes room for pushing one. -/
theorem StandsWithRoom.unary (h : StandsWithRoom below room s t) (f : α → α) :
    Lifts (StandsOn below) (s.unary f) (t.unary f) := by
  apply h.pop.bind
  rintro ⟨a, s'⟩ ⟨_, t'⟩ ⟨rfl, h'⟩
  exact (h'.push (f a)).mono fun _ _ h => h.toStandsOn

/-- A function of two operands leaves the frame below them alone. -/
private theorem StandsWithRoom.binary (h : StandsWithRoom below room s t) (f : α → α → α) :
    Lifts (StandsOn below) (s.binary f) (t.binary f) := by
  apply h.pop2.bind
  rintro ⟨a, b, s'⟩ ⟨_, _, t'⟩ ⟨rfl, rfl, h'⟩
  exact (h'.push (f a b)).mono fun _ _ h => h.toStandsOn

private theorem StandsWithRoom.drop (h : StandsWithRoom below room s t) :
    Lifts (StandsOn below) s.drop t.drop := by
  apply h.pop.bind
  rintro ⟨a, s'⟩ ⟨_, t'⟩ ⟨-, h'⟩
  exact .ok h'.toStandsOn

/-- The copy of the operand on the top needs room. -/
private theorem StandsWithRoom.dup (h : StandsWithRoom below (room + 1) s t) :
    Lifts (StandsOn below) s.dup t.dup := by
  apply (OperandStack.lifts_peek h.stack 0).bind
  rintro x _ rfl
  exact (h.push x).mono fun _ _ h => h.toStandsOn

private theorem StandsWithRoom.exch (h : StandsWithRoom below room s t) :
    Lifts (StandsOn below) s.exch t.exch := by
  apply h.pop2.bind
  rintro ⟨a, b, s'⟩ ⟨_, _, t'⟩ ⟨rfl, rfl, h'⟩
  apply (h'.push b).bind
  intro s'' t'' h''
  exact (h''.push a).mono fun _ _ h => h.toStandsOn

variable [Scalar α]

private theorem StandsWithRoom.ifelse (h : StandsWithRoom below room s t) :
    Lifts (StandsOn below) s.ifelse t.ifelse := by
  apply h.pop2.bind
  rintro ⟨v1, v2, s₁⟩ ⟨_, _, t₁⟩ ⟨rfl, rfl, h₁⟩
  apply h₁.pop2.bind
  rintro ⟨s1, s2, s₂⟩ ⟨_, _, t₂⟩ ⟨rfl, rfl, h₂⟩
  exact (h₂.push _).mono fun _ _ h => h.toStandsOn

private theorem StandsWithRoom.put (h : StandsWithRoom below room s t) :
    Lifts (StandsOn below) s.put t.put := by
  apply h.pop2.bind
  rintro ⟨value, i, s'⟩ ⟨_, _, t'⟩ ⟨rfl, rfl, h'⟩
  apply (Lifts.refl (transientIndex i)).bind
  rintro i _ rfl
  exact .ok ⟨h'.stack, congrArg (·.insert i value) h'.transient, h'.random⟩

private theorem StandsWithRoom.get (h : StandsWithRoom below room s t) :
    Lifts (StandsOn below) s.get t.get := by
  apply h.pop.bind
  rintro ⟨i, s'⟩ ⟨_, t'⟩ ⟨rfl, h'⟩
  apply (Lifts.refl (transientIndex i)).bind
  rintro i _ rfl
  have hvalue : t'.transient[i]? = s'.transient[i]? := congrArg (·[i]?) h'.transient
  simp only [hvalue]
  cases s'.transient[i]? with
  | none => exact fun _ h => by cases h
  | some value => exact (h'.push value).mono fun _ _ h => h.toStandsOn

/-- Whatever depth an operand names, it is counted from the top. -/
theorem StandsWithRoom.index (h : StandsWithRoom below room s t) :
    Lifts (StandsOn below) s.index t.index := by
  apply h.pop.bind
  rintro ⟨i, s'⟩ ⟨_, t'⟩ ⟨rfl, h'⟩
  apply (Lifts.refl (peekDepth i)).bind
  rintro depth _ rfl
  apply (OperandStack.lifts_peek h'.stack depth).bind
  rintro x _ rfl
  exact (h'.push x).mono fun _ _ h => h.toStandsOn

/-- However many operands are rolled, they are those on the top. -/
theorem StandsWithRoom.roll (h : StandsWithRoom below room s t) :
    Lifts (StandsOn below) s.roll t.roll := by
  apply h.pop2.bind
  rintro ⟨n, j, s'⟩ ⟨_, _, t'⟩ ⟨rfl, rfl, h'⟩
  apply (Lifts.refl (rollCount n)).bind
  rintro count _ rfl
  apply (Lifts.refl (rollShift count j)).bind
  rintro shift _ rfl
  apply (OperandStack.lifts_roll h'.stack count shift).bind
  intro stack stack' hstack
  exact .ok ⟨hstack, h'.transient, h'.random⟩

/-- Both executions draw the same random number. -/
private theorem StandsWithRoom.drawRandom (h : StandsWithRoom below (room + 1) s t) :
    Lifts (StandsOn below) s.drawRandom t.drawRandom := by
  unfold State.drawRandom
  rw [h.random]
  have hdrawn : StandsWithRoom below (room + 1) { s with random := (s.random.draw (α := α)).2 }
      { t with random := (s.random.draw (α := α)).2 } := ⟨⟨h.stack, h.transient, rfl⟩, h.room⟩
  exact (hdrawn.push _).mono fun _ _ h => h.toStandsOn

/-- Operators compute on the top of the stack. -/
theorem StandsWithRoom.compute {op : StackOperator} (h : StandsWithRoom below room s t)
    (hroom : op.pushed ≤ op.popped + room) :
    Lifts (StandsOn below) (State.compute op s) (State.compute op t) := by
  cases op with
  | abs | neg | sqrt | not =>
    simp only [State.compute]
    exact h.unary _
  | add | sub | mul | div | and | or | eq =>
    simp only [State.compute]
    exact h.binary _
  | ifelse => exact h.ifelse
  | drop => exact h.drop
  | exch => exact h.exch
  | index => exact h.index
  | roll => exact h.roll
  | put => exact h.put
  | get => exact h.get
  | dup =>
    cases room with
    | zero => exact absurd hroom (by decide)
    | succ room => exact h.dup
  | random =>
    cases room with
    | zero => exact absurd hroom (by decide)
    | succ room => exact h.drawRandom

/-- Both executions call the same subroutine. -/
private theorem StandsWithRoom.popIndex (h : StandsWithRoom below room s t) (size : Nat) :
    Lifts (fun p q => p.1 = q.1 ∧ StandsOn below p.2 q.2) (s.popIndex size) (t.popIndex size) := by
  apply h.pop.bind
  rintro ⟨operand, s'⟩ ⟨_, t'⟩ ⟨rfl, h'⟩
  apply (Lifts.refl (Subroutine.index size operand)).bind
  rintro i _ rfl
  exact .ok ⟨rfl, h'.toStandsOn⟩

/-- The second state, if there is one, has the generator of the first. -/
def KeepsSource (s : State α) : Except Error (State α) → Prop :=
  Satisfies (fun s' => s'.random = s.random) fun _ => True

omit [Scalar α] in
/-- Where nothing but operands is moved, the generator stays as it is. -/
theorem MovesOperands.keepsSource {r : Except Error (State α)} (h : s.MovesOperands r) :
    s.KeepsSource r := by
  refine h.mono ?_
  rintro _ ⟨stack, rfl⟩
  rfl

/-- Operators do not draw random numbers, but for the one that does nothing else. -/
theorem keepsSource_compute {op : StackOperator} (hop : op ≠ .random) (s : State α) :
    s.KeepsSource (State.compute op s) := by
  by_cases hput : op = .put
  · subst hput
    refine s.movesOperands_pop2.bind ?_
    rintro ⟨value, i, _⟩ ⟨stack, rfl⟩
    exact (Satisfies.any _).bind fun _ _ => rfl
  · exact (movesOperands_compute hput hop s).keepsSource

/-- Drawing a number moves the source on by one. -/
theorem random_drawRandom (s : State α) :
    Satisfies (fun s' : State α => s'.random = s.random.next.2) (fun _ => True) s.drawRandom :=
  (movesOperands_push _ _).keepsSource

/-- Calls draw no random numbers. -/
theorem random_popIndex (size : Nat) (s : State α) :
    Satisfies (fun p : Nat × State α => p.2.random = s.random) (fun _ => True)
      (s.popIndex size) := by
  refine (s.movesOperands_popIndex size).mono ?_
  rintro ⟨i, _⟩ ⟨stack, rfl⟩
  rfl

end State

namespace Config

/-- The configurations are at the same place in the code, and the second one has other operands
below. -/
structure StandsOn (below : List α) (c d : Config (State α)) : Prop where
  code : d.code = c.code
  callers : d.callers = c.callers
  data : State.StandsOn below c.data d.data

/-- The next instruction does not depend on the data. -/
theorem StandsOn.fetch {below : List α} {c d rest : Config (State α)} {i : Instruction}
    (h : StandsOn below c d) (hfetch : c.fetch = some (.ok (i, rest))) :
    ∃ rest', d.fetch = some (.ok (i, rest')) ∧ StandsOn below rest rest' ∧
      rest'.data = d.data := by
  unfold Config.fetch at hfetch ⊢
  rw [h.code, h.callers]
  cases hresume : resume c.code c.callers with
  | none =>
    rw [hresume] at hfetch
    cases hfetch
  | some place =>
    rw [hresume] at hfetch
    dsimp only at hfetch ⊢
    cases hdecode : Instruction.decode place.1 with
    | error e =>
      rw [hdecode] at hfetch
      cases hfetch
    | ok read =>
      rw [hdecode] at hfetch
      cases hfetch
      exact ⟨_, rfl, ⟨rfl, rfl, h.data⟩, rfl⟩

end Config

namespace Semantics

variable [Scalar α] {subroutines : Subroutines} {limit : Option Nat} {below : List α}
  {c c' d : Config (State α)} {i : Instruction}

/-- A calculation neither declares hints nor draws. -/
theorem frame_of_executes (hi : i.IsCalculation)
    (h : State.semantics.Executes subroutines limit c i c') :
    c'.data.hints = c.data.hints ∧ c'.data.outline = c.data.outline := by
  cases h with
  | number hs =>
    have hmoves := (State.computes_push _ c.data).value hs
    exact ⟨hmoves.hints, hmoves.outline⟩
  | @compute op data hs =>
    have hmoves := (State.computes_compute op c.data).value hs
    exact ⟨hmoves.hints, hmoves.outline⟩
  | @call scope table index code data htable hdepth hindex hcode =>
    have hmoves := (State.computes_popIndex table.size c.data).value hindex
    exact ⟨hmoves.hints, hmoves.outline⟩
  | ret hcallers => exact ⟨rfl, rfl⟩
  | dotsection => exact ⟨rfl, rfl⟩
  | _ => exact hi.elim

/-- A calculation that leaves enough room does the same on top of other operands. -/
theorem Executes.standsOn (hi : i.IsCalculation)
    (h : State.semantics.Executes subroutines limit c i c') (hd : c.StandsOn below d)
    (hroom : below.length + c'.data.stack.size ≤ stackLimit) :
    ∃ d', State.semantics.Executes subroutines limit d i d' ∧ c'.StandsOn below d' := by
  have hsize : d.data.stack.size = below.length + c.data.stack.size := by
    rw [← OperandStack.length_toList, hd.data.stack, List.length_append,
      OperandStack.length_toList]
  have hle := d.data.stack.size_le
  cases h with
  | @number value data hs =>
    have hmoves := ((State.computes_push _ c.data).value hs).size
    change below.length + data.stack.size ≤ stackLimit at hroom
    have hwith : State.StandsWithRoom below 1 c.data d.data := ⟨hd.data, by omega⟩
    obtain ⟨data', hs', hdata⟩ := hwith.push value.toScalar data hs
    exact ⟨_, .number hs', hd.code, hd.callers, hdata.toStandsOn⟩
  | @compute op data hs =>
    have hmoves := ((State.computes_compute op c.data).value hs).size
    change below.length + data.stack.size ≤ stackLimit at hroom
    have hwith : State.StandsWithRoom below (op.pushed - op.popped) c.data d.data :=
      ⟨hd.data, by omega⟩
    obtain ⟨data', hs', hdata⟩ := hwith.compute (by omega) data hs
    exact ⟨_, .compute hs', hd.code, hd.callers, hdata⟩
  | @call scope table index code data htable hdepth hindex hcode =>
    have hwith : State.StandsWithRoom below 0 c.data d.data := ⟨hd.data, hle⟩
    obtain ⟨⟨_, data'⟩, hindex', rfl, hdata⟩ := hwith.popIndex table.size (index, data) hindex
    have hdepth' : limit ≠ some d.depth := by
      unfold Config.depth
      rw [hd.callers]
      exact hdepth
    refine ⟨_, .call htable hdepth' hindex' hcode, rfl, ?_, hdata⟩
    rw [hd.code, hd.callers]
  | @ret caller callers hcallers =>
    exact ⟨_, .ret (hd.callers.trans hcallers), rfl, rfl, hd.data⟩
  | dotsection => exact ⟨d, .dotsection d, hd⟩
  | _ => exact hi.elim

/-- A run of calculations neither declares hints nor draws. -/
theorem Runs.frame {instructions : List Instruction}
    (h : State.semantics.Runs subroutines limit instructions c c')
    (hcalc : ∀ i ∈ instructions, i.IsCalculation) :
    c'.data.hints = c.data.hints ∧ c'.data.outline = c.data.outline := by
  induction h with
  | nil c => exact ⟨rfl, rfl⟩
  | cons fetch first _ ih =>
    obtain ⟨hi, hmore⟩ := List.forall_mem_cons.mp hcalc
    obtain ⟨hhints, houtline⟩ := frame_of_executes hi first
    obtain ⟨hhints', houtline'⟩ := ih hmore
    rw [(Config.fetch_frame fetch).1] at hhints houtline
    exact ⟨hhints'.trans hhints, houtline'.trans houtline⟩

/-- A run of calculations that always leaves enough room does the same on top of other operands. -/
theorem Runs.standsOn {instructions : List Instruction}
    (h : State.semantics.Runs subroutines limit instructions c c')
    (hcalc : ∀ i ∈ instructions, i.IsCalculation) (hd : c.StandsOn below d)
    (hroom : ∀ front mid, front <+: instructions →
      State.semantics.Runs subroutines limit front c mid →
      below.length + mid.data.stack.size ≤ stackLimit) :
    ∃ d', State.semantics.Runs subroutines limit instructions d d' ∧ c'.StandsOn below d' := by
  induction h generalizing d with
  | nil c => exact ⟨d, .nil d, hd⟩
  | @cons i more c rest mid last fetch first _ ih =>
    obtain ⟨hi, hmore⟩ := List.forall_mem_cons.mp hcalc
    obtain ⟨rest', fetch', hrest, -⟩ := hd.fetch fetch
    have hfirst : below.length + mid.data.stack.size ≤ stackLimit :=
      hroom [i] mid (List.prefix_append [i] more) (.cons fetch first (.nil mid))
    obtain ⟨mid', first', hmid⟩ := first.standsOn hi hrest hfirst
    have hlater : ∀ front place, front <+: more →
        State.semantics.Runs subroutines limit front mid place →
        below.length + place.data.stack.size ≤ stackLimit := by
      intro front place hfront hruns
      exact hroom (i :: front) place ((List.prefix_cons_inj i).mpr hfront)
        (.cons fetch first hruns)
    obtain ⟨last', hruns, hlast⟩ := ih hmore hmid hlater
    exact ⟨last', .cons fetch' first' hruns, hlast⟩

/-- Where the glyph ends without `endchar`, it does so on top of other operands. -/
theorem done_of_standsOn {data : State α} (hd : c.StandsOn below d)
    (hdone : State.semantics.step subroutines limit c = .done data)
    (hend : ∀ rest, c.fetch ≠ some (.ok (.operator .endchar, rest))) :
    data = c.data ∧ State.semantics.step subroutines limit d = .done d.data := by
  cases hfetch : c.fetch with
  | none =>
    rw [step_of_fetch_none hfetch] at hdone
    cases hdone
    have hfinished : d.isFinished = c.isFinished := by
      unfold Config.isFinished
      rw [hd.code, hd.callers]
    refine ⟨rfl, step_of_isFinished ?_⟩
    rw [hfinished, ← c.fetch_eq_none_iff, hfetch]
  | some read =>
    rcases read with e | ⟨i, rest⟩
    · rw [step_of_fetch_error hfetch] at hdone
      cases hdone
    rw [step_of_fetch_ok hfetch] at hdone
    rcases done_of_execute hdone with ⟨rfl, -⟩ | ⟨rfl, hcallers, rfl⟩
    · exact absurd hfetch (hend rest)
    · obtain ⟨rest', hfetch', hrest, hdata⟩ := hd.fetch hfetch
      refine ⟨(Config.fetch_frame hfetch).1, ?_⟩
      have hcallers' : rest'.callers = [] := hrest.callers.trans hcallers
      rw [step_of_fetch_ok hfetch', ← hdata]
      simp only [execute, ret, hcallers']

/-- The generator after one more instruction. -/
theorem random_of_executes (h : State.semantics.Executes subroutines limit c i c') :
    c'.data.random =
      if i = .operator (.stack .random) then c.data.random.next.2 else c.data.random := by
  cases h with
  | @number value data hs => exact (State.movesOperands_push value.toScalar c.data).keepsSource.value hs
  | stem op => rfl
  | mask op hslice => rfl
  | path hs =>
    obtain ⟨path, rfl⟩ := State.exists_of_drawPath hs
    rfl
  | @compute op data hs =>
    by_cases hop : op = .random
    · subst hop
      rw [if_pos rfl]
      exact (State.random_drawRandom c.data).value hs
    · rw [if_neg (by simpa using hop)]
      exact (State.keepsSource_compute hop c.data).value hs
  | @call scope table index code data htable hdepth hindex hcode =>
    exact (State.random_popIndex table.size c.data).value hindex
  | ret hcallers => rfl
  | dotsection => rfl

/-- A run draws one random number for each instruction that asks for one. -/
theorem Runs.random_eq {instructions : List Instruction}
    (h : State.semantics.Runs subroutines limit instructions c c') :
    c'.data.random = (fun source => source.next.2)^[
      instructions.count (.operator (.stack .random))] c.data.random := by
  induction h with
  | nil c => rfl
  | @cons i more c rest mid last fetch first _ ih =>
    have hfirst := random_of_executes first
    rw [(Config.fetch_frame fetch).1] at hfirst
    rw [ih, hfirst]
    by_cases hi : i = .operator (.stack .random)
    · subst hi
      rw [List.count_cons_self, if_pos rfl]
      rfl
    · rw [List.count_cons_of_ne hi, if_neg hi]

end Semantics

/-- What a run of calculations does, by itself from `c` to `c'` and on top of other operands from
`d` to `d'`. -/
structure RunsAlike [Scalar α] (subroutines : Subroutines) (limit : Option Nat) (below : List α)
    (instructions : List Instruction) (c c' d d' : Config (State α)) : Prop where
  /-- The same instructions are executed. -/
  runs : State.semantics.Runs subroutines limit instructions d d'
  /-- They do the same to the operands on the top and to the transient array, and come to the same
  place. -/
  stands_on : c'.StandsOn below d'
  /-- They draw as many random numbers. -/
  random : c'.data.random = (fun source => source.next.2)^[
      instructions.count (.operator (.stack .random))] c.data.random ∧
    d'.data.random = (fun source => source.next.2)^[
      instructions.count (.operator (.stack .random))] d.data.random
  /-- The number of hints stays as it is. -/
  hints : c'.data.hints = c.data.hints ∧ d'.data.hints = d.data.hints
  /-- So do the pen and the box. -/
  outline : c'.data.outline = c.data.outline ∧ d'.data.outline = d.data.outline
  /-- If the glyph ends then by a return, or because no code is left, it does so in both cases. -/
  ends : ∀ data, State.semantics.step subroutines limit c' = .done data →
    (∀ rest, c'.fetch ≠ some (.ok (.operator .endchar, rest))) →
    data = c'.data ∧ State.semantics.step subroutines limit d' = .done d'.data

/-- Calculations address the stack from its top.  A run of them, in whatever frame and through
whatever calls, that leads from some operands to others does so on top of any operands below, as
long as the stack would hold them all after each instruction. -/
theorem runs_alike_on_top [Scalar α] {subroutines : Subroutines} {limit : Option Nat}
    {below : List α} {instructions : List Instruction} {c c' d : Config (State α)}
    (h : State.semantics.Runs subroutines limit instructions c c')
    (hcalc : ∀ i ∈ instructions, i.IsCalculation) (hd : c.StandsOn below d)
    (hroom : ∀ front mid, front <+: instructions →
      State.semantics.Runs subroutines limit front c mid →
      below.length + mid.data.stack.size ≤ 48) :
    ∃ d', RunsAlike subroutines limit below instructions c c' d d' := by
  obtain ⟨d', hruns, hd'⟩ := h.standsOn hcalc hd hroom
  have hc := h.frame hcalc
  have hframe := hruns.frame hcalc
  refine ⟨d', hruns, hd', ⟨h.random_eq, hruns.random_eq⟩, ⟨hc.1, hframe.1⟩, ⟨hc.2, hframe.2⟩, ?_⟩
  intro data hdone hend
  exact Semantics.done_of_standsOn hd' hdone hend

/-- A subroutine that doubles an operand, a copy from below and a roll, with two operands further
below. -/
theorem runs_alike_on_top_call :
    let code : Bytes := [32, 29, 140, 12, 29, 141, 140, 12, 30]
    let instructions : List Instruction := [.number (.ofInt (-107)), .operator (.call .globalScope),
      .operator (.stack .dup), .operator .ret, .number (.ofInt 1), .operator (.stack .index),
      .number (.ofInt 2), .number (.ofInt 1), .operator (.stack .roll)]
    let c : Config (State Float) := .start code { State.initial with stack := ⟨[2, 1], by decide⟩ }
    let d : Config (State Float) := .start code
      { State.initial with stack := ⟨[2, 1, 8, 9], by decide⟩ }
    ∃ c' d',
      State.semantics.Runs ⟨#[[12, 27, 11]], .missing⟩ (some nestingLimit) instructions c c' ∧
      RunsAlike ⟨#[[12, 27, 11]], .missing⟩ (some nestingLimit) [9, 8] instructions c c' d d' := by
  intro code instructions c d
  obtain ⟨c', hruns⟩ : ∃ c', State.semantics.Runs ⟨#[[12, 27, 11]], .missing⟩ (some nestingLimit)
      instructions c c' :=
    ⟨_, .of_step rfl rfl (.of_step rfl rfl (.of_step rfl rfl (.of_step rfl rfl (.of_step rfl rfl
      (.of_step rfl rfl (.of_step rfl rfl (.of_step rfl rfl (.of_step rfl rfl (.nil _)))))))))⟩
  have hcalc : ∀ i ∈ instructions, i.IsCalculation := by
    simp [instructions, Instruction.IsCalculation]
  have hroom : ∀ front mid, front <+: instructions →
      State.semantics.Runs ⟨#[[12, 27, 11]], .missing⟩ (some nestingLimit) front c mid →
      [(9 : Float), 8].length + mid.data.stack.size ≤ 48 := by
    intro front mid hfront hmid
    -- No instruction adds more than one operand.
    have hsteps := Semantics.steps_iff_exists_runs.mpr ⟨front, rfl, hmid⟩
    have hsize := State.maintains_hints.steps (m := 2) (by decide) hsteps
    have hlength : front.length ≤ 9 := hfront.length_le
    change 2 + mid.data.stack.size ≤ 48
    omega
  obtain ⟨d', hd'⟩ := runs_alike_on_top hruns hcalc (d := d) ⟨rfl, rfl, rfl, rfl, rfl⟩ hroom
  exact ⟨c', d', hruns, hd'⟩

end FontMetrics.Charstring
