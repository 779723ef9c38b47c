import Mathlib.Algebra.Group.Int.Defs
import Mathlib.Algebra.Group.Nat.Defs
import Mathlib.Data.List.Basic
import FontMetrics.Charstring.Instruction

/-!
# The code of an instruction

Reading an instruction looks at the bytes of that instruction and at no others: `Encodes` says which
bytes are the whole code of an instruction, and a charstring is read as an instruction and a rest
exactly when it is such a code followed by the rest.
-/

namespace FontMetrics

namespace Bytes

/-- A reader that looks at the bytes it takes and at no others. -/
def IsLocal {ε β : Type} (read : Bytes → Except ε (β × Bytes)) : Prop :=
  ∀ ⦃bytes rest : Bytes⦄ ⦃x : β⦄, read bytes = .ok (x, rest) →
    ∃ taken, bytes = taken ++ rest ∧ ∀ tail, read (taken ++ tail) = .ok (x, tail)

/-- A slice is the front of the bytes. -/
theorem slice_eq_ok_iff {count : Nat} {bytes taken rest : Bytes} :
    slice count bytes = .ok (taken, rest) ↔ bytes = taken ++ rest ∧ taken.length = count := by
  constructor
  · intro h
    unfold slice at h
    split at h
    · next hle =>
      rw [List.splitAt_eq] at h
      cases h
      exact ⟨(List.take_append_drop count bytes).symm, List.length_take_of_le hle⟩
    · cases h
  · rintro ⟨rfl, rfl⟩
    exact slice_append taken rest

/-- A slice fails only where the data end. -/
theorem error_of_slice {count : Nat} {bytes : Bytes} {e : DataError}
    (h : slice count bytes = .error e) : e = .endOfData := by
  unfold slice at h
  split at h <;> cases h
  rfl

/-- A number is missing only where the data end. -/
theorem error_of_signed {width : Nat} {bytes : Bytes} {e : DataError}
    (h : signed width bytes = .error e) : e = .endOfData := by
  unfold signed at h
  split at h
  · next hslice => cases h; exact error_of_slice hslice
  · cases h

/-- Interpreting what a local reader takes, perhaps in vain, is local. -/
theorem IsLocal.interpret {ε ε' β γ : Type} {read : Bytes → Except ε (β × Bytes)}
    {read' : Bytes → Except ε' (γ × Bytes)} (h : IsLocal read) (wrap : ε → ε')
    (f : β → Except ε' γ)
    (h' : ∀ bytes, read' bytes =
      match read bytes with
      | .error e => .error (wrap e)
      | .ok (x, rest) => (f x).map (·, rest)) :
    IsLocal read' := by
  intro bytes rest y hread
  rw [h'] at hread
  split at hread
  · cases hread
  · next x rest' hx =>
    obtain ⟨taken, rfl, hlocal⟩ := h hx
    cases hf : f x with
    | error e => rw [hf] at hread; cases hread
    | ok z =>
      rw [hf] at hread
      cases hread
      refine ⟨taken, rfl, fun tail => ?_⟩
      rw [h', hlocal]
      simp only [hf, Except.map]

/-- A reader that takes nothing is local. -/
theorem isLocal_nothing {ε β : Type} {read : Bytes → Except ε (β × Bytes)} {x : Except ε β}
    (h : ∀ bytes, read bytes = x.map (·, bytes)) : IsLocal read := by
  intro bytes rest y hread
  rw [h] at hread
  cases x with
  | error e => cases hread
  | ok x =>
    cases hread
    exact ⟨[], rfl, h⟩

/-- Cutting out bytes does not look at those behind them. -/
private theorem isLocal_slice (count : Nat) : IsLocal (slice count) := by
  intro bytes rest taken h
  obtain ⟨rfl, hlength⟩ := slice_eq_ok_iff.mp h
  exact ⟨taken, rfl, fun tail => slice_eq_ok_iff.mpr ⟨rfl, hlength⟩⟩

/-- Reading a byte does not look at those behind it. -/
private theorem isLocal_byte : IsLocal byte := by
  intro bytes rest x h
  cases bytes with
  | nil => cases h
  | cons b bytes =>
    cases h
    exact ⟨[x], rfl, fun _ => rfl⟩

/-- Reading a signed number does not look behind it. -/
private theorem isLocal_signed (width : Nat) : IsLocal (signed width) :=
  (isLocal_slice width).interpret id (fun taken => .ok taken.toInt) fun bytes => by
    unfold signed
    cases slice width bytes <;> rfl

end Bytes

namespace Charstring.Instruction

open Bytes (IsLocal)

/-- The bytes are the whole code of the instruction. -/
def Encodes (code : Bytes) (i : Instruction) : Prop := decode code = .ok (i, [])

private theorem isLocal_wideNumber (lead : UInt8) : IsLocal (wideNumber lead) :=
  Bytes.isLocal_byte.interpret .data (fun low => .ok (.number (.ofInt (
    if lead.toNat ≤ 250 then (lead.toNat - 247) * 256 + low.toNat + 108
    else -((lead.toNat - 251) * 256 + low.toNat + 108))))) fun bytes => by
    unfold wideNumber
    cases bytes.byte <;> rfl

private theorem isLocal_shortNumber : IsLocal shortNumber :=
  (Bytes.isLocal_signed 2).interpret .data (fun value => .ok (.number (.ofInt value)))
    fun bytes => by
      unfold shortNumber
      cases bytes.signed 2 <;> rfl

private theorem isLocal_fixedNumber : IsLocal fixedNumber :=
  (Bytes.isLocal_signed 4).interpret .data (fun units => .ok (.number ⟨units⟩))
    fun bytes => by
      unfold fixedNumber
      cases bytes.signed 4 <;> rfl

private theorem isLocal_escapedOperator : IsLocal escapedOperator :=
  Bytes.isLocal_byte.interpret .data
    (fun code => (Operator.ofEscapedCode? code).elim (.error (.invalidOperator true code))
      fun op => .ok (.operator op))
    fun bytes => by
      unfold escapedOperator
      cases bytes.byte with
      | error e => rfl
      | ok read =>
        dsimp only
        cases Operator.ofEscapedCode? read.1 <;> rfl

/-- After its first byte, an instruction is read by one of the readers above. -/
theorem isLocal_decode_cons (lead : UInt8) : IsLocal fun bytes => decode (lead :: bytes) := by
  simp only [decode]
  split_ifs
  · exact isLocal_fixedNumber
  · exact isLocal_wideNumber lead
  · exact Bytes.isLocal_nothing (x := .ok _) fun _ => rfl
  · exact isLocal_shortNumber
  · exact isLocal_escapedOperator
  · cases Operator.ofCode? lead with
    | none => exact Bytes.isLocal_nothing (x := .error _) fun _ => rfl
    | some op => exact Bytes.isLocal_nothing (x := .ok _) fun _ => rfl

/-- Whatever follows the code of an instruction, the instruction is read and the rest is left. -/
theorem decode_append {code : Bytes} {i : Instruction} (h : Encodes code i) (tail : Bytes) :
    decode (code ++ tail) = .ok (i, tail) := by
  cases code with
  | nil => cases h
  | cons lead bytes =>
    obtain ⟨taken, rfl, hlocal⟩ := isLocal_decode_cons lead h
    simpa using hlocal tail

/-- Reading an instruction is splitting its code off. -/
theorem decode_eq_ok_iff {bytes rest : Bytes} {i : Instruction} :
    decode bytes = .ok (i, rest) ↔ ∃ code, Encodes code i ∧ bytes = code ++ rest := by
  constructor
  · intro h
    cases bytes with
    | nil => cases h
    | cons lead bytes =>
      obtain ⟨taken, rfl, hlocal⟩ := isLocal_decode_cons lead h
      refine ⟨lead :: taken, ?_, rfl⟩
      simpa only [Encodes, List.append_nil] using hlocal []
  · rintro ⟨code, hcode, rfl⟩
    exact decode_append hcode rest

/-- Bytes are no instruction because they end, or because they start with a reserved code; then they
are none with more bytes behind. -/
theorem decode_eq_error {bytes : Bytes} {e : Error} (h : decode bytes = .error e) :
    e = .data .endOfData ∨ (∃ escaped code, e = .invalidOperator escaped code) ∧
      ∀ tail, decode (bytes ++ tail) = .error e := by
  cases bytes with
  | nil => cases h; exact .inl rfl
  | cons lead bytes =>
    simp only [decode, List.cons_append] at h ⊢
    split_ifs at h ⊢ with hfixed hwide hbyte hshort hescape
    · unfold fixedNumber at h
      split at h
      · next hread => cases h; exact .inl (congrArg Error.data (Bytes.error_of_signed hread))
      · cases h
    · cases bytes with
      | nil => cases h; exact .inl rfl
      | cons low rest => cases h
    · unfold shortNumber at h
      split at h
      · next hread => cases h; exact .inl (congrArg Error.data (Bytes.error_of_signed hread))
      · cases h
    · cases bytes with
      | nil => cases h; exact .inl rfl
      | cons code rest =>
        simp only [escapedOperator, Bytes.byte, List.cons_append] at h ⊢
        cases hop : Operator.ofEscapedCode? code with
        | some op => rw [hop] at h; cases h
        | none => rw [hop] at h; cases h; exact .inr ⟨⟨true, code, rfl⟩, fun _ => rfl⟩
    · cases hop : Operator.ofCode? lead with
      | some op => rw [hop] at h; cases h
      | none => rw [hop] at h; cases h; exact .inr ⟨⟨false, lead, rfl⟩, fun _ => rfl⟩

/-- Bytes that are not decoded end too early or start with a code that is not in use. -/
theorem error_of_decode {bytes : Bytes} {e : Error} (h : decode bytes = .error e) :
    e = .data .endOfData ∨ ∃ escaped code, e = .invalidOperator escaped code :=
  (decode_eq_error h).imp_right And.left

/-- A code that is not in use stays so, whatever follows it. -/
theorem decode_append_of_error {bytes : Bytes} {e : Error} (h : decode bytes = .error e)
    (he : e ≠ .data .endOfData) (tail : Bytes) : decode (bytes ++ tail) = .error e :=
  ((decode_eq_error h).resolve_left he).2 tail

/-- A number of `width` bytes lies in the range of that size. -/
theorem units_of_signed {width : Nat} {bytes rest : Bytes} {value : Int}
    (h : bytes.signed width = .ok (value, rest)) :
    -(256 ^ width : Nat) ≤ 2 * value ∧ 2 * value < (256 ^ width : Nat) := by
  unfold Bytes.signed at h
  split at h
  · cases h
  · next taken rest' hslice =>
    cases h
    obtain ⟨-, rfl⟩ := Bytes.slice_eq_ok_iff.mp hslice
    have hpos : 0 < 256 ^ taken.length := Nat.pow_pos (by decide)
    have hlow := Int.le_bmod (x := (taken.toNat : Int)) hpos
    have hhigh := Int.bmod_lt (x := (taken.toNat : Int)) hpos
    rw [Bytes.toInt, Nat.pow_eq]
    omega

/-- Every number of a charstring has at most 32 bits. -/
theorem units_of_decode {bytes rest : Bytes} {value : Fixed}
    (h : decode bytes = .ok (.number value, rest)) :
    -2 ^ 31 ≤ value.units ∧ value.units < 2 ^ 31 := by
  cases bytes with
  | nil => cases h
  | cons lead bytes =>
    simp only [decode] at h
    split_ifs at h with hfixed hwide hbyte hshort
    · unfold fixedNumber at h
      split at h
      · cases h
      · next units rest' hsigned =>
        cases h
        have hrange := units_of_signed hsigned
        dsimp only
        omega
    · unfold wideNumber at h
      split at h
      · cases h
      · next low rest' _ =>
        cases h
        have hmin : 247 ≤ lead.toNat := UInt8.le_iff_toNat_le.mp hwide
        have hlead := lead.toNat_lt
        have hlow := low.toNat_lt
        simp only [Fixed.ofInt]
        split <;> omega
    · cases h
      have hlead := lead.toNat_lt
      simp only [Fixed.ofInt]
      omega
    · unfold shortNumber at h
      split at h
      · cases h
      · next value rest' hsigned =>
        cases h
        have hrange := units_of_signed hsigned
        simp only [Fixed.ofInt]
        omega
    · unfold escapedOperator at h
      split at h
      · cases h
      · split at h <;> cases h
    · split at h <;> cases h

/-- No instruction has an empty code. -/
theorem Encodes.ne_nil {code : Bytes} {i : Instruction} (h : Encodes code i) : code ≠ [] := by
  rintro rfl
  cases h

end Charstring.Instruction

end FontMetrics
