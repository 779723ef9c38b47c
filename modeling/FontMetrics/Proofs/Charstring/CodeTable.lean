import FontMetrics.Proofs.Bytes.BigEndian
import FontMetrics.Proofs.Charstring.Hints

/-!
# The table of instruction codes

`StandsFor` is the table of codes as it is printed: which bytes make a number or an operator, and
which are reserved.  Reading an instruction is looking it up in this table.  The first byte alone
tells the length of the code, so no code is the front of another one, and a charstring falls into
codes in one way only.

An integer of 16 bits has up to three codes: the shortest, the short number and the fixed-point
number.
-/

namespace FontMetrics

namespace Charstring

/-- The bytes of a path operator. -/
def PathOperator.code : PathOperator → Bytes
  | .rmoveto => [21]
  | .hmoveto => [22]
  | .vmoveto => [4]
  | .rlineto => [5]
  | .hlineto => [6]
  | .vlineto => [7]
  | .rrcurveto => [8]
  | .rcurveline => [24]
  | .rlinecurve => [25]
  | .hhcurveto => [27]
  | .vvcurveto => [26]
  | .hvcurveto => [31]
  | .vhcurveto => [30]
  | .flex => [escapeByte, 35]
  | .hflex => [escapeByte, 34]
  | .hflex1 => [escapeByte, 36]
  | .flex1 => [escapeByte, 37]

/-- The byte of a stack operator, which follows the escape byte. -/
def StackOperator.code : StackOperator → UInt8
  | .abs => 9
  | .add => 10
  | .sub => 11
  | .mul => 24
  | .div => 12
  | .neg => 14
  | .sqrt => 26
  | .and => 3
  | .or => 4
  | .not => 5
  | .eq => 15
  | .ifelse => 22
  | .drop => 18
  | .dup => 27
  | .exch => 28
  | .index => 29
  | .roll => 30
  | .put => 20
  | .get => 21
  | .random => 23

namespace Operator

/-- The bytes of an operator. -/
def code : Operator → Bytes
  | stem op => [op.code]
  | mask op => [op.code]
  | path op => op.code
  | stack op => [escapeByte, op.code]
  | call scope => [scope.callCode]
  | ret => [returnCode]
  | endchar => [14]
  | dotsection => [escapeByte, 0]

/-- An operator of one byte is found by its code. -/
theorem ofCode?_eq_some_iff {b : UInt8} {op : Operator} :
    ofCode? b = some op ↔ op.code = [b] := by
  constructor
  · intro h
    unfold ofCode? at h
    split at h <;> cases h
    all_goals next hb => exact congrArg (fun b => [b]) (UInt8.toNat_inj.mp hb.symm)
  · intro h
    cases op with
    | stem op => cases op <;> cases h <;> rfl
    | mask op => cases op <;> cases h <;> rfl
    | path op => cases op <;> cases h <;> rfl
    | stack op => cases h
    | call scope => cases scope <;> cases h <;> rfl
    | ret => cases h; rfl
    | endchar => cases h; rfl
    | dotsection => cases h

/-- An operator of two bytes is found by its second byte. -/
theorem ofEscapedCode?_eq_some_iff {b : UInt8} {op : Operator} :
    ofEscapedCode? b = some op ↔ op.code = [escapeByte, b] := by
  constructor
  · intro h
    unfold ofEscapedCode? at h
    split at h <;> cases h
    all_goals next hb => exact congrArg (fun b => [escapeByte, b]) (UInt8.toNat_inj.mp hb.symm)
  · intro h
    cases op with
    | path op => cases op <;> cases h <;> rfl
    | stack op => cases op <;> cases h <;> rfl
    | dotsection => cases h; rfl
    | stem op => cases op <;> cases h
    | mask op => cases op <;> cases h
    | call scope => cases scope <;> cases h
    | ret => cases h
    | endchar => cases h

end Operator

namespace Instruction

/-- The length of the code at the front of the bytes, by the first byte. -/
def codeLength : Bytes → Nat
  | [] => 1
  | lead :: _ =>
    if lead = 28 then 3
    else if 32 ≤ lead ∧ lead ≤ 246 then 1
    else if (247 ≤ lead ∧ lead ≤ 254) ∨ lead = escapeByte then 2
    else if lead = 255 then 5
    else 1

/-- What a code stands for: an instruction, or no operator. -/
inductive StandsFor : Bytes → Except Error Instruction → Prop where
  | single {b : UInt8} (hlow : 32 ≤ b) (hhigh : b ≤ 246) :
    StandsFor [b] (.ok (.number (.ofInt (b.toNat - 139))))
  | positive {b : UInt8} (d : UInt8) (hlow : 247 ≤ b) (hhigh : b ≤ 250) :
    StandsFor [b, d] (.ok (.number (.ofInt ((b.toNat - 247) * 256 + d.toNat + 108))))
  | negative {b : UInt8} (d : UInt8) (hlow : 251 ≤ b) (hhigh : b ≤ 254) :
    StandsFor [b, d] (.ok (.number (.ofInt (-(b.toNat - 251) * 256 - d.toNat - 108))))
  | short (b₁ b₂ : UInt8) :
    StandsFor [28, b₁, b₂] (.ok (.number (.ofInt (b₁.toBitVec ++ b₂.toBitVec).toInt)))
  | fixed (b₁ b₂ b₃ b₄ : UInt8) :
    StandsFor [255, b₁, b₂, b₃, b₄]
      (.ok (.number ⟨(b₁.toBitVec ++ b₂.toBitVec ++ b₃.toBitVec ++ b₄.toBitVec).toInt⟩))
  | operator (op : Operator) : StandsFor op.code (.ok (.operator op))
  | reserved {b : UInt8} (hlow : b < 32) (hshort : b ≠ 28) (hescape : b ≠ escapeByte)
      (hfree : ∀ op : Operator, op.code ≠ [b]) :
    StandsFor [b] (.error (.invalidOperator false b))
  | reservedEscaped {b : UInt8} (hfree : ∀ op : Operator, op.code ≠ [escapeByte, b]) :
    StandsFor [escapeByte, b] (.error (.invalidOperator true b))

/-- The code of an operator encodes it. -/
theorem encodes_operator (op : Operator) : Encodes op.code (.operator op) := by
  cases op with
  | stem op => exact encodes_stem op
  | mask op => exact encodes_mask op
  | path op => cases op <;> rfl
  | stack op => cases op <;> rfl
  | call scope => exact encodes_call scope
  | ret => exact encodes_ret
  | endchar => rfl
  | dotsection => rfl

namespace StandsFor

variable {code : Bytes} {r : Except Error Instruction}

/-- A code has the length that its first byte tells. -/
theorem length_eq (h : StandsFor code r) : code.length = codeLength code := by
  cases h with
  | single hlow hhigh => simp only [codeLength, List.length_cons, List.length_nil]; grind
  | positive d hlow hhigh => simp only [codeLength, List.length_cons, List.length_nil]; grind
  | negative d hlow hhigh => simp only [codeLength, List.length_cons, List.length_nil]; grind
  | short => rfl
  | fixed => rfl
  | operator op =>
    cases op with
    | stem op => cases op <;> rfl
    | mask op => cases op <;> rfl
    | path op => cases op <;> rfl
    | stack op => cases op <;> rfl
    | call scope => cases scope <;> rfl
    | ret => rfl
    | endchar => rfl
    | dotsection => rfl
  | reserved hlow hshort hescape hfree =>
    simp only [codeLength, List.length_cons, List.length_nil]
    grind
  | reservedEscaped => rfl

/-- Reading a code by itself is looking it up. -/
theorem decode_eq (h : StandsFor code r) : decode code = r.map (·, []) := by
  cases h with
  | @single b hlow hhigh =>
    rw [decode, if_neg (by grind), if_neg (by grind), if_pos hlow]
    rfl
  | @positive b d hlow hhigh =>
    have hle : b.toNat ≤ 250 := UInt8.le_iff_toNat_le.mp hhigh
    rw [decode, if_neg (by grind), if_pos hlow, wideNumber, Bytes.byte]
    simp only [if_pos hle, Except.map]
  | @negative b d hlow hhigh =>
    have hgt : ¬b.toNat ≤ 250 := by
      have hle : 251 ≤ b.toNat := UInt8.le_iff_toNat_le.mp hlow
      omega
    have hvalue : -((b.toNat : Int) - 251) * 256 - d.toNat - 108 =
        -((b.toNat - 251) * 256 + d.toNat + 108) := by omega
    rw [decode, if_neg (by grind), if_pos (by grind), wideNumber, Bytes.byte]
    simp only [if_neg hgt, hvalue, Except.map]
  | short b₁ b₂ =>
    rw [← Bytes.toInt_pair]
    rfl
  | fixed b₁ b₂ b₃ b₄ =>
    rw [← Bytes.toInt_quad]
    rfl
  | operator op => exact encodes_operator op
  | @reserved b hlow hshort hescape hfree =>
    have hnone : Operator.ofCode? b = none := Option.eq_none_iff_forall_ne_some.mpr fun op hop =>
      hfree op (Operator.ofCode?_eq_some_iff.mp hop)
    rw [decode, if_neg (by grind), if_neg (by grind), if_neg (by grind), if_neg hshort,
      if_neg hescape, hnone]
    rfl
  | @reservedEscaped b hfree =>
    have hnone : Operator.ofEscapedCode? b = none :=
      Option.eq_none_iff_forall_ne_some.mpr fun op hop =>
        hfree op (Operator.ofEscapedCode?_eq_some_iff.mp hop)
    change escapedOperator [b] = _
    rw [escapedOperator, Bytes.byte]
    simp only [hnone, Except.map]

/-- A reserved code is not for want of bytes. -/
theorem ne_endOfData {e : Error} (h : StandsFor code (.error e)) : e ≠ .data .endOfData := by
  cases h <;> simp

/-- Reading bytes with a code in front is looking the code up. -/
theorem decode_append (h : StandsFor code r) (tail : Bytes) :
    decode (code ++ tail) = r.map (·, tail) := by
  cases r with
  | error e => exact decode_append_of_error h.decode_eq h.ne_endOfData tail
  | ok i => exact Instruction.decode_append h.decode_eq tail

/-- Every code has a first byte. -/
theorem ne_nil (h : StandsFor code r) : code ≠ [] := by
  rintro rfl
  exact absurd h.length_eq (by decide)

/-- The length of a code does not depend on what follows it. -/
theorem codeLength_append (h : StandsFor code r) (tail : Bytes) :
    codeLength (code ++ tail) = code.length := by
  obtain ⟨lead, bytes, rfl⟩ := List.exists_cons_of_ne_nil h.ne_nil
  exact h.length_eq.symm

/-- A code stands for one thing. -/
theorem unique {r' : Except Error Instruction} (h : StandsFor code r) (h' : StandsFor code r') :
    r = r' := by
  have hread := h.decode_eq.symm.trans h'.decode_eq
  cases r <;> cases r' <;> cases hread <;> rfl

/-- No code is the front of another one. -/
theorem eq_of_append_eq {code' tail tail' : Bytes} {r' : Except Error Instruction}
    (h : StandsFor code r) (h' : StandsFor code' r') (heq : code ++ tail = code' ++ tail') :
    code = code' := by
  have hlength := h.codeLength_append tail
  rw [heq, h'.codeLength_append] at hlength
  exact List.append_inj_left heq hlength.symm

/-- Codes one after another fall apart in one way only, and each stands for one thing. -/
theorem eq_of_flatten_eq {codes codes' : List Bytes} {rs rs' : List (Except Error Instruction)}
    (h : List.Forall₂ StandsFor codes rs) (h' : List.Forall₂ StandsFor codes' rs')
    (heq : codes.flatten = codes'.flatten) : codes = codes' ∧ rs = rs' := by
  induction h generalizing codes' rs' with
  | nil =>
    cases h' with
    | nil => exact ⟨rfl, rfl⟩
    | cons hcode' _ => exact absurd (List.append_eq_nil_iff.mp heq.symm).1 hcode'.ne_nil
  | cons hcode _ ih =>
    cases h' with
    | nil => exact absurd (List.append_eq_nil_iff.mp heq).1 hcode.ne_nil
    | cons hcode' htail' =>
      obtain rfl := hcode.eq_of_append_eq hcode' heq
      obtain ⟨rfl, rfl⟩ := ih htail' (List.append_cancel_left heq)
      exact ⟨rfl, congrArg (· :: _) (hcode.unique hcode')⟩

end StandsFor

/-- The classes of first bytes. -/
theorem lead_cases (lead : UInt8) :
    lead = 28 ∨ (32 ≤ lead ∧ lead ≤ 246) ∨ (247 ≤ lead ∧ lead ≤ 250) ∨ (251 ≤ lead ∧ lead ≤ 254) ∨
      lead = escapeByte ∨ lead = 255 ∨ (lead < 32 ∧ lead ≠ 28 ∧ lead ≠ escapeByte) := by
  grind

/-- A code of one byte is reserved when it is the code of no operator. -/
theorem exists_standsFor_operator {lead : UInt8} (hlow : lead < 32) (hshort : lead ≠ 28)
    (hescape : lead ≠ escapeByte) : ∃ r, StandsFor [lead] r := by
  cases hop : Operator.ofCode? lead with
  | some op =>
    refine ⟨.ok (.operator op), ?_⟩
    rw [← Operator.ofCode?_eq_some_iff.mp hop]
    exact .operator op
  | none =>
    refine ⟨_, .reserved hlow hshort hescape fun op hcode => ?_⟩
    rw [Operator.ofCode?_eq_some_iff.mpr hcode] at hop
    cases hop

private theorem exists_standsFor_escaped (b : UInt8) : ∃ r, StandsFor [escapeByte, b] r := by
  cases hop : Operator.ofEscapedCode? b with
  | some op =>
    refine ⟨.ok (.operator op), ?_⟩
    rw [← Operator.ofEscapedCode?_eq_some_iff.mp hop]
    exact .operator op
  | none =>
    refine ⟨_, .reservedEscaped fun op hcode => ?_⟩
    rw [Operator.ofEscapedCode?_eq_some_iff.mpr hcode] at hop
    cases hop

/-- Bytes start with a code of the table, or there are too few of them. -/
theorem standsFor_append_or_endOfData (bytes : Bytes) :
    (∃ code r tail, StandsFor code r ∧ bytes = code ++ tail) ∨
      (bytes.length < codeLength bytes ∧ decode bytes = .error (.data .endOfData)) := by
  rcases bytes with _ | ⟨lead, bytes⟩
  · exact .inr ⟨by decide, rfl⟩
  rcases lead_cases lead with rfl | hsingle | hpositive | hnegative | rfl | rfl | hother
  · rcases bytes with _ | ⟨b₁, _ | ⟨b₂, tail⟩⟩
    · exact .inr ⟨by decide, rfl⟩
    · exact .inr ⟨by simp [codeLength], rfl⟩
    · exact .inl ⟨_, _, tail, .short b₁ b₂, rfl⟩
  · exact .inl ⟨_, _, bytes, .single hsingle.1 hsingle.2, rfl⟩
  · rcases bytes with _ | ⟨d, tail⟩
    · refine .inr ⟨by simp only [codeLength]; grind, ?_⟩
      rw [decode, if_neg (by grind), if_pos hpositive.1]
      rfl
    · exact .inl ⟨_, _, tail, .positive d hpositive.1 hpositive.2, rfl⟩
  · rcases bytes with _ | ⟨d, tail⟩
    · refine .inr ⟨by simp only [codeLength]; grind, ?_⟩
      rw [decode, if_neg (by grind), if_pos (by grind)]
      rfl
    · exact .inl ⟨_, _, tail, .negative d hnegative.1 hnegative.2, rfl⟩
  · rcases bytes with _ | ⟨b, tail⟩
    · exact .inr ⟨by decide, rfl⟩
    · obtain ⟨r, hr⟩ := exists_standsFor_escaped b
      exact .inl ⟨_, r, tail, hr, rfl⟩
  · rcases bytes with _ | ⟨b₁, _ | ⟨b₂, _ | ⟨b₃, _ | ⟨b₄, tail⟩⟩⟩⟩
    · exact .inr ⟨by decide, rfl⟩
    · exact .inr ⟨by simp [codeLength, escapeByte], rfl⟩
    · exact .inr ⟨by simp [codeLength, escapeByte], rfl⟩
    · exact .inr ⟨by simp [codeLength, escapeByte], rfl⟩
    · exact .inl ⟨_, _, tail, .fixed b₁ b₂ b₃ b₄, rfl⟩
  · obtain ⟨r, hr⟩ := exists_standsFor_operator hother.1 hother.2.1 hother.2.2
    exact .inl ⟨_, r, bytes, hr, rfl⟩

/-- Enough bytes have a code of the table in front. -/
theorem exists_standsFor {bytes : Bytes} (h : codeLength bytes ≤ bytes.length) :
    ∃ r, StandsFor (bytes.take (codeLength bytes)) r := by
  obtain ⟨code, r, tail, hr, rfl⟩ | ⟨hlt, -⟩ := standsFor_append_or_endOfData bytes
  · refine ⟨r, ?_⟩
    rwa [hr.codeLength_append, List.take_left]
  · omega

/-- The bytes end too early exactly if they are fewer than the first one says. -/
theorem decode_eq_endOfData_iff {bytes : Bytes} :
    decode bytes = .error (.data .endOfData) ↔ bytes = [] ∨ bytes.length < codeLength bytes := by
  obtain ⟨code, r, tail, hr, rfl⟩ | ⟨hlt, hread⟩ := standsFor_append_or_endOfData bytes
  · have hlength : ¬(code ++ tail).length < codeLength (code ++ tail) := by
      rw [hr.codeLength_append, List.length_append]
      omega
    refine iff_of_false (fun hread => ?_) (not_or.mpr ⟨by simp [hr.ne_nil], hlength⟩)
    rw [hr.decode_append] at hread
    cases r with
    | error e => exact hr.ne_endOfData (Except.error.inj hread)
    | ok i => cases hread
  · exact iff_of_true hread (.inr hlt)

/-- The codes of an instruction are those of the table. -/
theorem encodes_iff_standsFor {code : Bytes} {i : Instruction} :
    Encodes code i ↔ StandsFor code (.ok i) := by
  refine ⟨fun h => ?_, fun h => h.decode_eq⟩
  unfold Encodes at h
  obtain ⟨code, r, tail, hr, rfl⟩ | ⟨-, hread⟩ := standsFor_append_or_endOfData code
  · rw [hr.decode_append] at h
    cases r with
    | error e => cases h
    | ok j =>
      cases h
      rwa [List.append_nil]
  · rw [hread] at h
    cases h

section Integers

open Bytes (bigEndian lowByte toNat_lowByte lowByte_eq)

/-- The shortest code of an integer of 16 bits. -/
def shortestCode (n : Int) : Bytes :=
  if -107 ≤ n ∧ n ≤ 107 then [lowByte (n + 139)]
  else if 108 ≤ n ∧ n ≤ 1131 then [lowByte ((n - 108) / 256 + 247), lowByte (n - 108)]
  else if -1131 ≤ n ∧ n ≤ -108 then [lowByte ((-n - 108) / 256 + 251), lowByte (-n - 108)]
  else 28 :: bigEndian 2 n

/-- The codes of an integer of 16 bits. -/
def integerCodes (n : Int) : List Bytes :=
  [shortestCode n, 28 :: bigEndian 2 n, 255 :: bigEndian 4 (n * 65536)]

/-- Every number of 32 bits has a code of five bytes. -/
theorem standsFor_fixed {units : Int} (hlow : -2 ^ 31 ≤ units) (hhigh : units < 2 ^ 31) :
    StandsFor (255 :: bigEndian 4 units) (.ok (.number ⟨units⟩)) := by
  have hread : Bytes.toInt (bigEndian 4 units) = units :=
    Bytes.toInt_bigEndian (by omega) (by omega)
  obtain ⟨b₁, b₂, b₃, b₄, hbytes⟩ := List.length_eq_four.mp (Bytes.length_bigEndian 4 units)
  rw [hbytes, Bytes.toInt_quad] at hread
  rw [hbytes, ← hread]
  exact .fixed b₁ b₂ b₃ b₄

/-- Every integer of 16 bits has a code of three bytes. -/
theorem standsFor_short {n : Int} (hlow : -32768 ≤ n) (hhigh : n ≤ 32767) :
    StandsFor (28 :: bigEndian 2 n) (.ok (.number (.ofInt n))) := by
  have hread : Bytes.toInt (bigEndian 2 n) = n := Bytes.toInt_bigEndian (by omega) (by omega)
  obtain ⟨b₁, b₂, hbytes⟩ := List.length_eq_two.mp (Bytes.length_bigEndian 2 n)
  rw [hbytes, Bytes.toInt_pair] at hread
  rw [hbytes, ← hread]
  exact .short b₁ b₂

/-- The shortest code of an integer stands for it. -/
theorem standsFor_shortestCode {n : Int} (hlow : -32768 ≤ n) (hhigh : n ≤ 32767) :
    StandsFor (shortestCode n) (.ok (.number (.ofInt n))) := by
  unfold shortestCode
  split_ifs with hsingle hpositive hnegative
  · have hb := toNat_lowByte (n + 139)
    generalize lowByte (n + 139) = b at hb ⊢
    obtain rfl : n = b.toNat - 139 := by omega
    exact .single (UInt8.le_iff_toNat_le.mpr (show 32 ≤ b.toNat by omega))
      (UInt8.le_iff_toNat_le.mpr (show b.toNat ≤ 246 by omega))
  · have hb := toNat_lowByte ((n - 108) / 256 + 247)
    have hd := toNat_lowByte (n - 108)
    generalize lowByte ((n - 108) / 256 + 247) = b at hb ⊢
    generalize lowByte (n - 108) = d at hd ⊢
    obtain rfl : n = (b.toNat - 247) * 256 + d.toNat + 108 := by omega
    exact .positive d (UInt8.le_iff_toNat_le.mpr (show 247 ≤ b.toNat by omega))
      (UInt8.le_iff_toNat_le.mpr (show b.toNat ≤ 250 by omega))
  · have hb := toNat_lowByte ((-n - 108) / 256 + 251)
    have hd := toNat_lowByte (-n - 108)
    generalize lowByte ((-n - 108) / 256 + 251) = b at hb ⊢
    generalize lowByte (-n - 108) = d at hd ⊢
    obtain rfl : n = -(b.toNat - 251) * 256 - d.toNat - 108 := by omega
    exact .negative d (UInt8.le_iff_toNat_le.mpr (show 251 ≤ b.toNat by omega))
      (UInt8.le_iff_toNat_le.mpr (show b.toNat ≤ 254 by omega))
  · exact standsFor_short hlow hhigh

example : [107, 108, 1131, 1132].map shortestCode =
    [[246], [247, 0], [250, 255], [28, 4, 108]] := by decide

/-- An integer of 16 bits has no further codes. -/
theorem mem_integerCodes_of_standsFor {n : Int} {code : Bytes}
    (h : StandsFor code (.ok (.number (.ofInt n)))) : code ∈ integerCodes n := by
  generalize hr : Except.ok (Instruction.number (Fixed.ofInt n)) = r at h
  cases h with
  | @single b hlow hhigh =>
    obtain rfl := Fixed.ofInt_injective (Instruction.number.inj (Except.ok.inj hr))
    have hlow : 32 ≤ b.toNat := UInt8.le_iff_toNat_le.mp hlow
    have hhigh : b.toNat ≤ 246 := UInt8.le_iff_toNat_le.mp hhigh
    have hshortest : shortestCode (b.toNat - 139) = [b] := by
      rw [shortestCode, if_pos (by omega), lowByte_eq (b := b) (by omega)]
    rw [integerCodes, hshortest]
    exact .head _
  | @positive b d hlow hhigh =>
    obtain rfl := Fixed.ofInt_injective (Instruction.number.inj (Except.ok.inj hr))
    have hlow : 247 ≤ b.toNat := UInt8.le_iff_toNat_le.mp hlow
    have hhigh : b.toNat ≤ 250 := UInt8.le_iff_toNat_le.mp hhigh
    have hd := d.toNat_lt
    have hshortest : shortestCode ((b.toNat - 247) * 256 + d.toNat + 108) = [b, d] := by
      rw [shortestCode, if_neg (by omega), if_pos (by omega),
        lowByte_eq (b := b) (by omega), lowByte_eq (b := d) (by omega)]
    rw [integerCodes, hshortest]
    exact .head _
  | @negative b d hlow hhigh =>
    obtain rfl := Fixed.ofInt_injective (Instruction.number.inj (Except.ok.inj hr))
    have hlow : 251 ≤ b.toNat := UInt8.le_iff_toNat_le.mp hlow
    have hhigh : b.toNat ≤ 254 := UInt8.le_iff_toNat_le.mp hhigh
    have hd := d.toNat_lt
    have hshortest : shortestCode (-(b.toNat - 251) * 256 - d.toNat - 108) = [b, d] := by
      rw [shortestCode, if_neg (by omega), if_neg (by omega), if_pos (by omega),
        lowByte_eq (b := b) (by omega), lowByte_eq (b := d) (by omega)]
    rw [integerCodes, hshortest]
    exact .head _
  | short b₁ b₂ =>
    obtain rfl := Fixed.ofInt_injective (Instruction.number.inj (Except.ok.inj hr))
    have hbytes := Bytes.bigEndian_toInt [b₁, b₂]
    rw [Bytes.toInt_pair] at hbytes
    exact .tail _ (hbytes ▸ .head _)
  | fixed b₁ b₂ b₃ b₄ =>
    have hunits : n * 65536 = _ :=
      congrArg Fixed.units (Instruction.number.inj (Except.ok.inj hr))
    dsimp only at hunits
    have hbytes := Bytes.bigEndian_toInt [b₁, b₂, b₃, b₄]
    rw [Bytes.toInt_quad, ← hunits] at hbytes
    exact .tail _ (.tail _ (hbytes ▸ .head _))
  | operator op => cases hr
  | reserved => cases hr
  | reservedEscaped => cases hr

/-- The codes that stand for an integer of 16 bits. -/
theorem standsFor_integer_iff {n : Int} (hlow : -32768 ≤ n) (hhigh : n ≤ 32767) {code : Bytes} :
    StandsFor code (.ok (.number (.ofInt n))) ↔ code ∈ integerCodes n := by
  refine ⟨mem_integerCodes_of_standsFor, fun h => ?_⟩
  simp only [integerCodes, List.mem_cons, List.not_mem_nil, or_false] at h
  rcases h with rfl | rfl | rfl
  · exact standsFor_shortestCode hlow hhigh
  · exact standsFor_short hlow hhigh
  · exact standsFor_fixed (by omega) (by omega)

/-- No code of an integer is shorter than the shortest. -/
theorem length_shortestCode_le {n : Int} {code : Bytes} (h : code ∈ integerCodes n) :
    (shortestCode n).length ≤ code.length := by
  have hlength : (shortestCode n).length ≤ 3 := by
    unfold shortestCode
    split_ifs <;> simp
  simp only [integerCodes, List.mem_cons, List.not_mem_nil, or_false] at h
  rcases h with rfl | rfl | rfl
  · exact le_rfl
  · simpa using hlength
  · simp only [List.length_cons, Bytes.length_bigEndian]
    omega

end Integers

/-- An instruction takes a byte at least. -/
theorem length_lt_of_decode {bytes rest : Bytes} {i : Instruction}
    (h : decode bytes = .ok (i, rest)) : rest.length < bytes.length := by
  obtain ⟨code, hcode, rfl⟩ := decode_eq_ok_iff.mp h
  have hpos := List.length_pos_iff.mpr hcode.ne_nil
  rw [List.length_append]
  omega

/-- Reads one instruction after another, until the bytes are used up. -/
def decodeAll (bytes : Bytes) : Except Error (List Instruction) :=
  if bytes = [] then .ok []
  else
    match _h : decode bytes with
    | .error e => .error e
    | .ok (i, rest) => (decodeAll rest).map (i :: ·)
termination_by bytes.length
decreasing_by exact length_lt_of_decode _h

/-- The instruction at the front of the bytes is the first one. -/
theorem decodeAll_append {code : Bytes} {i : Instruction} (h : Encodes code i) (tail : Bytes) :
    decodeAll (code ++ tail) = (decodeAll tail).map (i :: ·) := by
  rw [decodeAll, if_neg (by simp [h.ne_nil])]
  split
  · next hread =>
    rw [decode_append h] at hread
    cases hread
  · next hread =>
    rw [decode_append h] at hread
    cases hread
    rfl

/-- A list of instructions is read from the codes of its members, one after another. -/
theorem decodeAll_eq_ok_iff {bytes : Bytes} {is : List Instruction} :
    decodeAll bytes = .ok is ↔
      ∃ codes, List.Forall₂ Encodes codes is ∧ codes.flatten = bytes := by
  constructor
  · intro h
    fun_induction decodeAll bytes generalizing is with
    | case1 =>
      cases h
      exact ⟨[], .nil, rfl⟩
    | case2 bytes hne e hread => cases h
    | case3 bytes hne i rest hread ih =>
      cases htail : decodeAll rest with
      | error e =>
        rw [htail] at h
        cases h
      | ok is' =>
        rw [htail] at h
        cases h
        obtain ⟨codes, hcodes, rfl⟩ := ih htail
        obtain ⟨code, hcode, rfl⟩ := decode_eq_ok_iff.mp hread
        exact ⟨code :: codes, .cons hcode hcodes, rfl⟩
  · rintro ⟨codes, hcodes, rfl⟩
    induction hcodes with
    | nil =>
      rw [decodeAll]
      rfl
    | cons hcode _ ih => rw [List.flatten_cons, decodeAll_append hcode, ih]; rfl

/-- Reading an instruction is looking up the table of codes.

It fails for want of bytes exactly if there are fewer than the first byte calls for, and otherwise
looks at that many bytes only, which are a code of the table, and leaves the others.  Codes one
after another are told apart in one way only.  The scalar of a number is exactly that many 65536ths.
Instructions are read one after another exactly from a code of each.  The codes of an integer of 16
bits are the shortest, the short number and the fixed-point number, and every number of 32 bits is
read from its five bytes. -/
theorem decode_follows_code_table :
    (∀ d : Bytes,
      (decode d = .error (.data .endOfData) ↔ d = [] ∨ d.length < codeLength d) ∧
      (codeLength d ≤ d.length →
        ∃ r, StandsFor (d.take (codeLength d)) r ∧
          decode d = r.map (·, d.drop (codeLength d)) ∧
          ∀ tail, decode (d.take (codeLength d) ++ tail) = r.map (·, tail))) ∧
    (∀ codes codes' rs rs', List.Forall₂ StandsFor codes rs → List.Forall₂ StandsFor codes' rs' →
      codes.flatten = codes'.flatten → codes = codes' ∧ rs = rs') ∧
    (∀ d x rest, decode d = .ok (.number x, rest) →
      (Binary64.ofFloat x.toScalar).toRat? = some (x.units / 65536 : ℚ)) ∧
    (∀ d is, decodeAll d = .ok is ↔
      ∃ codes, List.Forall₂ (fun code i => StandsFor code (.ok i)) codes is ∧
        codes.flatten = d) ∧
    (∀ n : Int, -32768 ≤ n → n ≤ 32767 →
      (∀ code, StandsFor code (.ok (.number (.ofInt n))) ↔ code ∈ integerCodes n) ∧
      (∀ code ∈ integerCodes n, (shortestCode n).length ≤ code.length) ∧
      ∀ tail, decode (shortestCode n ++ tail) = .ok (.number (.ofInt n), tail)) ∧
    (∀ units : Int, -2 ^ 31 ≤ units → units < 2 ^ 31 → ∀ tail,
      decode (255 :: Bytes.bigEndian 4 units ++ tail) = .ok (.number ⟨units⟩, tail)) := by
  refine ⟨fun d => ⟨decode_eq_endOfData_iff, fun hlength => ?_⟩, fun _ _ _ _ h h' heq => ?_,
    fun d x rest hread => ?_, fun d is => ?_, fun n hlow hhigh => ⟨fun code => ?_, ?_, ?_⟩,
    fun units hlow hhigh => ?_⟩
  · obtain ⟨r, hr⟩ := exists_standsFor hlength
    have hread := hr.decode_append (d.drop (codeLength d))
    rw [List.take_append_drop] at hread
    exact ⟨r, hr, hread, hr.decode_append⟩
  · exact StandsFor.eq_of_flatten_eq h h' heq
  · have hunits := units_of_decode hread
    exact Binary64.toRat?_toScalar (by omega)
  · simp only [← encodes_iff_standsFor]
    exact decodeAll_eq_ok_iff
  · exact standsFor_integer_iff hlow hhigh
  · exact fun code => length_shortestCode_le
  · exact (standsFor_shortestCode hlow hhigh).decode_append
  · exact (standsFor_fixed hlow hhigh).decode_append

/-- The first integer with two bytes, and one half as a fixed-point number. -/
theorem decode_follows_code_table_minus108_half :
    codeLength [251, 0, 14] ≤ [251, 0, 14].length ∧
    (∃ r, StandsFor [251, 0] r ∧ decode [251, 0, 14] = r.map (·, [14])) ∧
    List.Forall₂ StandsFor [[251, 0], [14]]
      [.ok (.number (.ofInt (-108))), .ok (.operator .endchar)] ∧
    ([[251, 0], [14]] : List Bytes).flatten = [251, 0, 14] ∧
    (∀ codes rs, List.Forall₂ StandsFor codes rs → codes.flatten = [251, 0, 14] →
      codes = [[251, 0], [14]] ∧
        rs = [.ok (.number (.ofInt (-108))), .ok (.operator .endchar)]) ∧
    decode [255, 0, 0, 128, 0, 14] = .ok (.number ⟨0x8000⟩, [14]) ∧
    (Binary64.ofFloat (Fixed.toScalar ⟨0x8000⟩)).toRat? = some ((0x8000 : Int) / 65536 : ℚ) ∧
    decode [251, 0, 14] = .ok (.number (.ofInt (-108)), [14]) := by
  obtain ⟨htable, hunique, hexact, -, hinteger, hfixed⟩ := decode_follows_code_table
  have hlength : codeLength [251, 0, 14] ≤ [251, 0, 14].length := by decide
  have hcodes : List.Forall₂ StandsFor [[251, 0], [14]]
      [.ok (.number (.ofInt (-108))), .ok (.operator .endchar)] :=
    .cons (.negative 0 (by decide) (by decide)) (.cons (.operator .endchar) .nil)
  have hhalf : decode [255, 0, 0, 128, 0, 14] = .ok (.number ⟨0x8000⟩, [14]) :=
    hfixed 0x8000 (by decide) (by decide) [14]
  obtain ⟨r, hr, hread, -⟩ := (htable [251, 0, 14]).2 hlength
  have hshortest : shortestCode (-108) = [251, 0] := by decide
  have hminus := (hinteger (-108) (by decide) (by decide)).2.2 [14]
  rw [hshortest] at hminus
  exact ⟨hlength, ⟨r, hr, hread⟩, hcodes, rfl, fun _ _ h heq => hunique _ _ _ _ h hcodes heq,
    hhalf, hexact _ _ _ hhalf, hminus⟩

end Instruction

end Charstring

end FontMetrics
