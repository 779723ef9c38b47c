import FontMetrics.Proofs.Binary64.Truncation
import FontMetrics.Proofs.Charstring.CodeTable

/-!
# How operands address subroutines

A call names a subroutine by a number, from which the bias of the table leads to its index.  The
three biases are such that every subroutine of a table of up to 65536 of them is named by exactly
one integer, and that this integer has 16 bits, so that a short number suffices in a charstring.  The
call then starts that subroutine, and a number that names none stops the execution.  Nothing but the
size of the table that the call refers to enters into this.
-/

namespace FontMetrics.Charstring

open Binary64 (IntegerPart IsInteger)
open Instruction (Encodes)

theorem isInt32_iff {n : Int} : isInt32 n = true ↔ -2 ^ 31 ≤ n ∧ n < 2 ^ 31 := by
  simp [isInt32]

namespace Subroutine

/-- The integer that names a subroutine in a table of `size`. -/
def number (size i : Nat) : Int := i - bias size

/-- The integers that name the subroutines of a table have 16 bits. -/
theorem number_range {size i : Nat} (hsize : size ≤ 65536) (hi : i < size) :
    -32768 ≤ number size i ∧ number size i ≤ 32767 := by
  unfold number bias
  split_ifs <;> omega

example : number 33899 33898 = 32767 := rfl

section Index

variable {α : Type} [Scalar α]

/-- An operand names the subroutine whose index is its integer part and the bias, where both fit
into 32 bits. -/
theorem index_eq_ok_iff {size i : Nat} {operand : α} :
    index size operand = .ok i ↔
      ∃ n, Scalar.truncate operand = some n ∧ isInt32 n = true ∧
        (i : Int) = n + bias size ∧ isInt32 i = true := by
  unfold index
  cases Scalar.truncate operand with
  | none => simp
  | some n =>
    simp only [Option.some.injEq, exists_eq_left', Bool.and_eq_true, decide_eq_true_eq]
    split
    · next h =>
      obtain ⟨⟨hn, hindex⟩, hnonneg⟩ := h
      rw [Except.ok.injEq]
      constructor
      · rintro rfl
        have hcast := Int.toNat_of_nonneg hnonneg
        exact ⟨hn, hcast, by rwa [hcast]⟩
      · rintro ⟨-, hi, -⟩
        omega
    · next h =>
      refine iff_of_false (fun heq => by cases heq) fun ⟨hn, hi, hindex⟩ => h ?_
      rw [← hi]
      exact ⟨⟨hn, hindex⟩, Int.natCast_nonneg i⟩

/-- There is one error for all operands that name nothing. -/
theorem error_of_index {size : Nat} {operand : α} {e : Error}
    (h : index size operand = .error e) : e = .subroutineIndex := by
  unfold index at h
  split at h
  · cases h
    rfl
  · dsimp only at h
    split at h <;> cases h
    rfl

end Index

/-- Which index a floating-point operand leads to. -/
theorem index_eq_ok_iff_integerPart {size i : Nat} {operand : Float} :
    index size operand = .ok i ↔
      ∃ n, IntegerPart operand n ∧ -2 ^ 31 ≤ n ∧ n < 2 ^ 31 ∧ (i : Int) = n + bias size ∧
        (i : Int) ≤ 2 ^ 31 - 1 := by
  rw [index_eq_ok_iff]
  simp only [Binary64.integerPart_iff, isInt32_iff]
  constructor
  · rintro ⟨n, hn, hrange, hi, hindex⟩
    exact ⟨n, hn, hrange.1, hrange.2, hi, by omega⟩
  · rintro ⟨n, hn, hlow, hhigh, hi, hindex⟩
    exact ⟨n, hn, ⟨hlow, hhigh⟩, hi, by omega, by omega⟩

/-- Of all integers, one names a given subroutine. -/
theorem index_eq_ok_iff_of_isInteger {size i : Nat} {operand : Float} {m : Int}
    (hsize : size ≤ 65536) (hi : i < size) (h : IsInteger operand m) :
    index size operand = .ok i ↔ m = number size i := by
  have hrange := number_range hsize hi
  rw [index_eq_ok_iff_integerPart]
  unfold number at hrange ⊢
  constructor
  · rintro ⟨n, hn, -, -, heq, -⟩
    rw [h.integerPart.unique hn]
    omega
  · rintro rfl
    exact ⟨_, h.integerPart, by omega, by omega, by omega, by omega⟩

end Subroutine

namespace Semantics

variable {σ : Type} {sem : Semantics σ} {subroutines : Subroutines} {limit : Option Nat}
  {callers : List Bytes} {rest : Bytes} {data : σ}

/-- A number in front is pushed. -/
theorem step_number {code : Bytes} {value : Fixed} (h : Encodes code (.number value)) :
    sem.step subroutines limit ⟨code ++ rest, callers, data⟩ =
      (⟨rest, callers, data⟩ : Config σ).continueWith (sem.number value data) :=
  step_of_fetch_ok (Config.fetch_append h rest callers data)

/-- A call in front is executed. -/
theorem step_call (scope : SubroutineScope) :
    sem.step subroutines limit ⟨scope.callCode :: rest, callers, data⟩ =
      sem.call subroutines limit scope ⟨rest, callers, data⟩ :=
  step_of_fetch_ok (Config.fetch_append (encodes_call scope) rest callers data)

/-- What a call does below the nesting limit depends on the operand and on the table that it refers
to. -/
theorem call_eq {scope : SubroutineScope} {table : SubroutineTable} {depth : Nat}
    (htable : subroutines.table scope = .ok table) (hdepth : callers.length < depth) :
    sem.call subroutines (some depth) scope ⟨rest, callers, data⟩ =
      match sem.popIndex table.size data with
      | .error e => .fail e
      | .ok (i, data) =>
        match table[i]? with
        | none => .fail .subroutineIndex
        | some code => .next (some ⟨scope, i, callers.length + 1⟩) ⟨code, rest :: callers, data⟩ := by
  have hne : ¬some depth = some callers.length := by simpa using hdepth.ne'
  rw [call, htable]
  exact if_neg hne

/-- A call into the same table is the same, whatever the other table is. -/
theorem step_call_of_table_eq {subroutines' : Subroutines} {scope : SubroutineScope}
    (h : subroutines.table scope = subroutines'.table scope) :
    sem.step subroutines limit ⟨scope.callCode :: rest, callers, data⟩ =
      sem.step subroutines' limit ⟨scope.callCode :: rest, callers, data⟩ := by
  rw [step_call, step_call, call, call, h]

/-- In another table of the same size, the subroutine with the same index is called. -/
theorem step_call_of_size_eq {subroutines' : Subroutines} {scope : SubroutineScope}
    {table table' : SubroutineTable} {called : Call} {c : Config σ}
    (htable : subroutines.table scope = .ok table)
    (htable' : subroutines'.table scope = .ok table') (hsize : table.size = table'.size)
    (h : sem.step subroutines limit ⟨scope.callCode :: rest, callers, data⟩ =
      .next (some called) c) :
    ∃ code, table'[called.index]? = some code ∧
      sem.step subroutines' limit ⟨scope.callCode :: rest, callers, data⟩ =
        .next (some called) { c with code } := by
  rw [step_call, call, htable] at h
  dsimp only at h
  split at h
  · cases h
  · next hdepth =>
    split at h
    · cases h
    · next i data' hindex =>
      split at h
      · cases h
      · next code hcode =>
        cases h
        have hi : i < table'.size := hsize ▸ (Array.getElem?_eq_some_iff.mp hcode).1
        refine ⟨table'[i], Array.getElem?_eq_getElem hi, ?_⟩
        rw [hsize] at hindex
        simp only [step_call, call, htable', hdepth, ite_false, hindex,
          Array.getElem?_eq_getElem hi]

end Semantics

namespace State

variable {subroutines : Subroutines} {scope : SubroutineScope} {table : SubroutineTable}
  {callers : List Bytes} {rest : Bytes} {s : State Float}

/-- The number of a subroutine and a call start the subroutine, on the data as they were. -/
theorem steps_call {code : Bytes} {i : Nat} (rest : Bytes)
    (htable : subroutines.table scope = .ok table) (hi : i < table.size)
    (hcode : Encodes code (.number (.ofInt (Subroutine.number table.size i))))
    (hstack : s.stack.size < stackLimit) (hdepth : callers.length < nestingLimit) :
    ∃ pushed, semantics.step subroutines (some nestingLimit)
        ⟨code ++ scope.callCode :: rest, callers, s⟩ =
          .next none ⟨scope.callCode :: rest, callers, pushed⟩ ∧
      semantics.step subroutines (some nestingLimit) ⟨scope.callCode :: rest, callers, pushed⟩ =
        .next (some ⟨scope, i, callers.length + 1⟩) ⟨table[i], rest :: callers, s⟩ := by
  obtain ⟨pushed, hpush⟩ := exists_push
    (Fixed.ofInt (Subroutine.number table.size i)).toScalar hstack
  have hpop := popIndex_of_push hpush (Subroutine.index_of_encodes hcode)
  refine ⟨pushed, ?_, ?_⟩
  · rw [Semantics.step_number hcode]
    simp only [semantics, hpush, Config.continueWith]
  · rw [Semantics.step_call, Semantics.call_eq htable hdepth]
    simp only [semantics, hpop, Array.getElem?_eq_getElem hi]

/-- A call whose operand names no subroutine of the table fails. -/
theorem step_call_of_not_names {operand : Float} {s' : State Float} (rest : Bytes)
    (htable : subroutines.table scope = .ok table) (hpop : s.pop = .ok (operand, s'))
    (hnone : ∀ i, Subroutine.index table.size operand = .ok i → table.size ≤ i)
    (hdepth : callers.length < nestingLimit) :
    semantics.step subroutines (some nestingLimit) ⟨scope.callCode :: rest, callers, s⟩ =
      .fail .subroutineIndex := by
  rw [Semantics.step_call, Semantics.call_eq htable hdepth]
  simp only [semantics, popIndex_of_pop hpop]
  cases hindex : Subroutine.index table.size operand with
  | error e =>
    rw [Subroutine.error_of_index hindex]
    rfl
  | ok i => simp only [Except.map, Array.getElem?_eq_none (hnone i hindex)]

/-- What executing the two instructions of a call comes to. -/
theorem run_call {code : Bytes} {i : Nat} (htable : subroutines.table scope = .ok table)
    (hi : i < table.size)
    (hcode : Encodes code (.number (.ofInt (Subroutine.number table.size i))))
    (hstack : s.stack.size < stackLimit) (hdepth : callers.length < nestingLimit) (budget : Nat)
    (earlier : List Call) :
    semantics.run subroutines (some nestingLimit) (budget + 2)
        ⟨code ++ scope.callCode :: rest, callers, s⟩ =
          semantics.run subroutines (some nestingLimit) budget ⟨table[i], rest :: callers, s⟩ ∧
      semantics.calls subroutines (some nestingLimit) (budget + 2) earlier
        ⟨code ++ scope.callCode :: rest, callers, s⟩ =
          semantics.calls subroutines (some nestingLimit) budget
            (⟨scope, i, callers.length + 1⟩ :: earlier) ⟨table[i], rest :: callers, s⟩ := by
  obtain ⟨pushed, hnumber, hcall⟩ := steps_call rest htable hi hcode hstack hdepth
  constructor
  · rw [Semantics.run, hnumber]
    dsimp only
    rw [Semantics.run, hcall]
  · rw [Semantics.calls, hnumber]
    dsimp only
    rw [Semantics.calls, hcall]

end State

/-- Operands address subroutines by their integer parts and the bias of the table.

Every subroutine of a table of up to 65536 is named by exactly one integer, of 16 bits, however that
is written as a number.  Where there is room for the operand and for another caller, this number and
a call start that very subroutine, one level deeper and on the data as they were.  An operand that
names no subroutine of the table stops the execution, and nothing is called.  Which subroutine is
called depends on the size of the table that the call refers to, not on the other table. -/
theorem operands_address_subroutines :
    (∀ (size : Nat) (operand : Float),
      (∀ i, Subroutine.index size operand = .ok i ↔
        ∃ n, IntegerPart operand n ∧ -2 ^ 31 ≤ n ∧ n < 2 ^ 31 ∧
          (i : Int) = n + Subroutine.bias size ∧ (i : Int) ≤ 2 ^ 31 - 1) ∧
      ∀ e, Subroutine.index size operand = .error e → e = .subroutineIndex) ∧
    (∀ size i : Nat, size ≤ 65536 → i < size →
      (∀ operand m, IsInteger operand m →
        (Subroutine.index size operand = .ok i ↔ m = Subroutine.number size i)) ∧
      IsInteger (Fixed.ofInt (Subroutine.number size i)).toScalar (Subroutine.number size i) ∧
      -32768 ≤ Subroutine.number size i ∧ Subroutine.number size i ≤ 32767 ∧
      ∃ code, Encodes code (.number (.ofInt (Subroutine.number size i)))) ∧
    (∀ (subroutines : Subroutines) (scope : SubroutineScope) (table : SubroutineTable)
      (callers : List Bytes) (rest : Bytes) (s : State Float) (budget : Nat) (earlier : List Call),
      subroutines.table scope = .ok table → callers.length < nestingLimit →
      (∀ code i, ∀ hi : i < table.size, s.stack.size < stackLimit →
        Encodes code (.number (.ofInt (Subroutine.number table.size i))) →
        State.semantics.run subroutines (some nestingLimit) (budget + 2)
            ⟨code ++ scope.callCode :: rest, callers, s⟩ =
          State.semantics.run subroutines (some nestingLimit) budget
            ⟨table[i], rest :: callers, s⟩ ∧
        State.semantics.calls subroutines (some nestingLimit) (budget + 2) earlier
            ⟨code ++ scope.callCode :: rest, callers, s⟩ =
          State.semantics.calls subroutines (some nestingLimit) budget
            (⟨scope, i, callers.length + 1⟩ :: earlier) ⟨table[i], rest :: callers, s⟩) ∧
      ∀ operand s', s.pop = .ok (operand, s') →
        (∀ i, Subroutine.index table.size operand = .ok i → table.size ≤ i) →
        State.semantics.run subroutines (some nestingLimit) (budget + 1)
            ⟨scope.callCode :: rest, callers, s⟩ = .error .subroutineIndex ∧
        State.semantics.calls subroutines (some nestingLimit) (budget + 1) earlier
            ⟨scope.callCode :: rest, callers, s⟩ = earlier) ∧
    (∀ (subroutines subroutines' : Subroutines) (scope : SubroutineScope) (limit : Option Nat)
      (callers : List Bytes) (rest : Bytes) (s : State Float),
      (subroutines.table scope = subroutines'.table scope →
        State.semantics.step subroutines limit ⟨scope.callCode :: rest, callers, s⟩ =
          State.semantics.step subroutines' limit ⟨scope.callCode :: rest, callers, s⟩) ∧
      ∀ table table' called c, subroutines.table scope = .ok table →
        subroutines'.table scope = .ok table' → table.size = table'.size →
        State.semantics.step subroutines limit ⟨scope.callCode :: rest, callers, s⟩ =
          .next (some called) c →
        ∃ code, table'[called.index]? = some code ∧
          State.semantics.step subroutines' limit ⟨scope.callCode :: rest, callers, s⟩ =
            .next (some called) { c with code }) := by
  refine ⟨fun size operand => ⟨fun i => Subroutine.index_eq_ok_iff_integerPart,
    fun e => Subroutine.error_of_index⟩, fun size i hsize hi => ?_, ?_, ?_⟩
  · obtain ⟨hlow, hhigh⟩ := Subroutine.number_range hsize hi
    exact ⟨fun operand m => Subroutine.index_eq_ok_iff_of_isInteger hsize hi,
      Binary64.isInteger_ofInt (by omega), hlow, hhigh, _,
      (Instruction.standsFor_shortestCode hlow hhigh).decode_eq⟩
  · intro subroutines scope table callers rest s budget earlier htable hdepth
    refine ⟨fun code i hi hstack hcode =>
      State.run_call htable hi hcode hstack hdepth budget earlier,
      fun operand s' hpop hnone => ?_⟩
    have hstep := State.step_call_of_not_names rest htable hpop hnone hdepth
    exact ⟨by rw [Semantics.run, hstep], by rw [Semantics.calls, hstep]⟩
  · intro subroutines subroutines' scope limit callers rest s
    exact ⟨Semantics.step_call_of_table_eq,
      fun table table' called c => Semantics.step_call_of_size_eq⟩

/-- The last subroutine of the largest table with the middle bias, whose number is the largest of 16
bits; a global table with one subroutine, which is called by -107 and has no neighbour. -/
theorem operands_address_subroutines_boundary :
    let locals : SubroutineTable := Array.replicate 33899 [11]
    let neighbour : Float := (Fixed.ofInt (Subroutine.number 1 1)).toScalar
    Subroutine.index 33899 ((Fixed.ofInt 32767).toScalar : Float) = .ok 33898 ∧
      (∀ e, Subroutine.index 1 (Float.ofBits 0x7FF8000000000000) = .error e →
        e = .subroutineIndex) ∧
      State.semantics.run ⟨#[[14]], .table locals⟩ (some nestingLimit) (3 + 2)
          ⟨[28, 127, 255] ++ 10 :: [14], [], (.initial : State Float)⟩ =
        State.semantics.run ⟨#[[14]], .table locals⟩ (some nestingLimit) 3
          ⟨[11], [[14]], .initial⟩ ∧
      (∃ s, State.push neighbour .initial = .ok s ∧
        State.semantics.run ⟨#[[14]], .missing⟩ (some nestingLimit) (3 + 1) ⟨29 :: [14], [], s⟩ =
          .error .subroutineIndex) ∧
      ∃ s : State Float,
        State.semantics.step ⟨#[[14]], .missing⟩ (some nestingLimit) ⟨29 :: [14], [], s⟩ =
          State.semantics.step ⟨#[[14]], .cidKeyed⟩ (some nestingLimit) ⟨29 :: [14], [], s⟩ ∧
        State.semantics.step ⟨#[[14]], .missing⟩ (some nestingLimit) ⟨29 :: [14], [], s⟩ =
          .next (some ⟨.globalScope, 0, 1⟩) ⟨[14], [[14]], .initial⟩ ∧
        State.semantics.step ⟨#[[11]], .missing⟩ (some nestingLimit) ⟨29 :: [14], [], s⟩ =
          .next (some ⟨.globalScope, 0, 1⟩) ⟨[11], [[14]], .initial⟩ := by
  intro locals neighbour
  obtain ⟨hindex, hnumber, hcall, hown⟩ := operands_address_subroutines
  have hsize : locals.size = 33899 := Array.size_replicate
  have hlast : 33898 < locals.size := by rw [hsize]; decide
  obtain ⟨hnames, hexact, -⟩ := hnumber 33899 33898 (by decide) (by decide)
  have hcode : Encodes [28, 127, 255] (.number (.ofInt (Subroutine.number locals.size 33898))) := by
    rw [hsize, show Subroutine.number 33899 33898 = 32767 from rfl]
    have hshort := Instruction.standsFor_short (n := 32767) (by decide) (by decide)
    rw [show Bytes.bigEndian 2 32767 = [127, 255] by decide] at hshort
    exact hshort.decode_eq
  have hrun := ((hcall ⟨#[[14]], .table locals⟩ .localScope locals [] [14] .initial 3 [] rfl
    (by decide)).1 [28, 127, 255] 33898 hlast (by decide) hcode).1
  rw [show locals[33898] = [11] from Array.getElem_replicate _] at hrun
  refine ⟨(hnames _ _ hexact).mpr rfl, (hindex 1 _).2, hrun, ?_, ?_⟩
  · obtain ⟨s, hs, hpop⟩ : ∃ s, State.push neighbour .initial = .ok s ∧
        s.pop = .ok (neighbour, .initial) := ⟨_, rfl, rfl⟩
    have hfail := (hcall ⟨#[[14]], .missing⟩ .globalScope #[[14]] [] [14] s 3 [] rfl
      (by decide)).2 neighbour .initial hpop
    refine ⟨s, hs, (hfail fun i hi => ?_).1⟩
    have hcode : Encodes [33] (.number (.ofInt (Subroutine.number 1 1))) := rfl
    have hone : Subroutine.index 1 neighbour = .ok 1 := Subroutine.index_of_encodes hcode
    obtain rfl := Except.ok.inj (hone.symm.trans hi)
    decide
  · have htable : (⟨#[[14]], .missing⟩ : Subroutines).table .globalScope = .ok #[[14]] := rfl
    have hcode : Encodes [32] (.number (.ofInt (Subroutine.number 1 0))) := rfl
    have hdepth : ([] : List Bytes).length < nestingLimit := by decide
    obtain ⟨s, -, hstep⟩ :=
      State.steps_call (s := .initial) [14] htable (by decide) hcode (by decide) hdepth
    obtain ⟨code, hcode, hstep'⟩ := (hown ⟨#[[14]], .missing⟩ ⟨#[[11]], .missing⟩ .globalScope
      (some nestingLimit) [] [14] s).2 #[[14]] #[[11]] _ _ rfl rfl rfl hstep
    cases hcode
    exact ⟨s, (hown ⟨#[[14]], .missing⟩ ⟨#[[14]], .cidKeyed⟩ .globalScope _ [] [14] s).1 rfl, hstep,
      hstep'⟩

end FontMetrics.Charstring
