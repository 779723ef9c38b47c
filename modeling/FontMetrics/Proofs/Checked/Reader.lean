import FontMetrics.Proofs.Bytes.Reading

/-!
# Readers in memory

A reader tests once that there are enough bytes and then takes them one by one, without further
tests, from wherever its offset points.  Offsets are words of 64 bits, so that the end of a long
slice may not be one.  Numbers are put together from bytes by shifts, and those of 32 bits from two
of 16 bits.  Whatever the sequence of operations, no byte is taken from outside the data, and the
reader answers like a cursor.
-/

namespace FontMetrics.Bytes

open Procedure (check outcome outcome_bind outcome_map outcome_get_bind outcome_set_bind
  outcome_check_pure_bind settle settle_map)

/-- A byte string in memory with an offset. -/
structure Reader where
  /-- The whole byte string. -/
  data : Bytes
  /-- Where the next byte is. -/
  offset : Nat

namespace Reader

/-- The sum of two words of 64 bits, if it is one. -/
def wordSum? (a b : Nat) : Option Nat := if a + b < 2 ^ 64 then some (a + b) else none

/-- Makes sure that the next `length` bytes are there. -/
def expect (length : Nat) : Procedure Reader DataError Unit := do
  let r ← get
  match wordSum? r.offset length with
  | some last => if last ≤ r.data.length then return else throw .endOfData
  | none => throw .endOfData

/-- The word of two bytes, the first of them the more significant one. -/
def word (high low : UInt8) : UInt16 := high.toUInt16 <<< 8 ||| low.toUInt16

/-- The word of two words of half its width. -/
def doubleWord (high low : UInt16) : UInt32 := high.toUInt32 <<< 16 ||| low.toUInt32

/-- Takes a byte, which must be there. -/
def takeByte : Procedure Reader DataError UInt8 := do
  let r ← get
  let byte ← check (Checked.get r.data r.offset)
  let offset ← check (Checked.add 64 r.offset 1)
  set { r with offset }
  return byte

/-- Takes a word of 16 bits, which must be there. -/
def takeWord : Procedure Reader DataError UInt16 := do
  let r ← get
  let high ← check (Checked.get r.data r.offset)
  let second ← check (Checked.add 64 r.offset 1)
  let low ← check (Checked.get r.data second)
  let offset ← check (Checked.add 64 r.offset 2)
  set { r with offset }
  return word high low

/-- Takes a word of 32 bits, one half after the other. -/
def takeDoubleWord : Procedure Reader DataError UInt32 := do
  let high ← takeWord
  let low ← takeWord
  return doubleWord high low

/-- A kind of value that is taken without a test. -/
structure Unchecked (β : Type) where
  /-- How many bytes must be there. -/
  size : Nat
  /-- Takes them. -/
  take : Procedure Reader DataError β

/-- Unsigned bytes. -/
def byte : Unchecked UInt8 := ⟨1, takeByte⟩

/-- Signed 16-bit numbers. -/
def int16 : Unchecked Int16 where
  size := 2
  take := do
    let bits ← takeWord
    return bits.toInt16

/-- Signed 32-bit numbers. -/
def int32 : Unchecked Int32 where
  size := 4
  take := do
    let bits ← takeDoubleWord
    return bits.toInt32

/-- A kind of value that is made from another. -/
def Unchecked.map {β γ : Type} (u : Unchecked β) (f : β → γ) : Unchecked γ where
  size := u.size
  take := do
    let b ← u.take
    return f b

/-- Fixed-point numbers. -/
def fixed : Unchecked Fixed := int32.map fun units => ⟨units.toInt⟩

/-- Reads a value. -/
def Unchecked.read {β : Type} (u : Unchecked β) : Procedure Reader DataError β := do
  expect u.size
  u.take

/-- Reads `length` bytes. -/
def readSlice (length : Nat) : Procedure Reader DataError Bytes := do
  expect length
  let r ← get
  let last ← check (Checked.add 64 r.offset length)
  let bytes ← check (Checked.slice r.data r.offset last)
  let offset ← check (Checked.add 64 r.offset length)
  set { r with offset }
  return bytes

/-- Reads a value at the start of the data with a reader of its own. -/
def leading {β : Type} (u : Unchecked β) : Procedure Reader DataError β := do
  let r ← get
  check (ExceptT.mk ((u.read.outcome ⟨r.data, 0⟩).map Prod.fst))

/-- Performs an operation. -/
def perform : ReaderOperation → Procedure Reader DataError ReaderValue
  | .u8 => do
    let n ← byte.read
    return .u8 n.toNat
  | .i16 => do
    let n ← int16.read
    return .i16 n.toInt
  | .i32 => do
    let n ← int32.read
    return .i32 n.toInt
  | .fixed => do
    let x ← fixed.read
    return .fixed x
  | .slice count => do
    let bytes ← readSlice count
    return .slice bytes
  | .leadingI16 => do
    let n ← leading int16
    return .i16 n.toInt
  | .bytesAvailable => do
    let r ← get
    return .flag (r.offset < r.data.length)

/-- The answers to a sequence of operations, each with the offset after it. -/
def history (ops : List ReaderOperation) (r : Reader) :
    Checked DataError (List (Except DataError ReaderValue × Nat)) :=
  Procedure.history perform (fun r => pure r.offset) ops r

/-! ## Words -/

/-- The bits of a word are those of its two bytes. -/
private theorem toBitVec_word (high low : UInt8) :
    (word high low).toBitVec = high.toBitVec ++ low.toBitVec := by
  refine BitVec.eq_of_toNat_eq ?_
  have hfits : high.toNat <<< 8 < 2 ^ 16 := by
    have hbyte := high.toNat_lt
    rw [Nat.shiftLeft_eq]
    omega
  rw [word, UInt16.toNat_toBitVec, UInt16.toNat_or, UInt16.toNat_shiftLeft, UInt8.toNat_toUInt16,
    UInt8.toNat_toUInt16, BitVec.toNat_append]
  exact congrArg (· ||| low.toNat) (Nat.mod_eq_of_lt hfits)

/-- The bits of a double word are those of its two words. -/
private theorem toBitVec_doubleWord (high low : UInt16) :
    (doubleWord high low).toBitVec = high.toBitVec ++ low.toBitVec := by
  refine BitVec.eq_of_toNat_eq ?_
  have hfits : high.toNat <<< 16 < 2 ^ 32 := by
    have hword := high.toNat_lt
    rw [Nat.shiftLeft_eq]
    omega
  rw [doubleWord, UInt32.toNat_toBitVec, UInt32.toNat_or, UInt32.toNat_shiftLeft,
    UInt16.toNat_toUInt32, UInt16.toNat_toUInt32, BitVec.toNat_append]
  exact congrArg (· ||| low.toNat) (Nat.mod_eq_of_lt hfits)

/-- A word of two bytes as a signed number. -/
theorem toInt_word (a b : UInt8) : (word a b).toInt16.toInt = toInt [a, b] := by
  rw [toInt_pair, ← toBitVec_word]
  rfl

/-- A word of four bytes as a signed number. -/
theorem toInt_doubleWord (a b c d : UInt8) :
    (doubleWord (word a b) (word c d)).toInt32.toInt = toInt [a, b, c, d] := by
  have hbits : (a.toBitVec ++ b.toBitVec ++ (c.toBitVec ++ d.toBitVec)).toNat =
      (a.toBitVec ++ b.toBitVec ++ c.toBitVec ++ d.toBitVec).toNat := by
    simp only [Binary64.toNat_append_eq]
    omega
  change (doubleWord (word a b) (word c d)).toBitVec.toInt = _
  rw [toBitVec_doubleWord, toBitVec_word, toBitVec_word, toInt_quad, BitVec.toInt_eq_toNat_bmod,
    hbits, BitVec.toInt_eq_toNat_bmod]

/-! ## Taking without a test -/

/-- The reader between the bytes that it has read and those that remain. -/
def between (front rest : Bytes) : Reader := ⟨front ++ rest, front.length⟩

/-- The reader goes on if the sum of the offset and the length is in the data. -/
private theorem expect_of_le {r : Reader} {length : Nat} (hdata : r.data.length < 2 ^ 64)
    (hle : r.offset + length ≤ r.data.length) : (expect length).outcome r = some (.ok (), r) := by
  have hsum : wordSum? r.offset length = some (r.offset + length) := if_pos (by omega)
  rw [expect, outcome_get_bind, hsum]
  dsimp only
  rw [if_pos hle]
  rfl

/-- The reader has come to the end if the sum is not in the data, or does not fit into a word. -/
private theorem expect_of_lt {r : Reader} {length : Nat} (hlt : r.data.length < r.offset + length) :
    (expect length).outcome r = some (.error .endOfData, r) := by
  rw [expect, outcome_get_bind]
  cases hsum : wordSum? r.offset length with
  | none => rfl
  | some last =>
    rw [wordSum?] at hsum
    split at hsum
    · cases hsum
      dsimp only
      rw [if_neg (by omega)]
      rfl
    · cases hsum

variable (front rest : Bytes)

private theorem takeByte_between (a : UInt8) (hdata : (front ++ ([a] ++ rest)).length < 2 ^ 64) :
    takeByte.outcome (between front ([a] ++ rest)) = some (.ok a, between (front ++ [a]) rest) := by
  have ha : (front ++ ([a] ++ rest))[front.length]? = some a := by simp
  have hlength : front.length + 1 < 2 ^ 64 := by
    rw [List.length_append, List.length_append, List.length_singleton] at hdata
    omega
  rw [takeByte, outcome_get_bind, between, Checked.get_eq ha, outcome_check_pure_bind,
    Checked.add_eq hlength, outcome_check_pure_bind, outcome_set_bind]
  simp [between]

/-- Two bytes that are there are taken as a word, the high one first. -/
private theorem takeWord_between (a b : UInt8)
    (hdata : (front ++ ([a, b] ++ rest)).length < 2 ^ 64) :
    takeWord.outcome (between front ([a, b] ++ rest)) =
      some (.ok (word a b), between (front ++ [a, b]) rest) := by
  have ha : (front ++ ([a, b] ++ rest))[front.length]? = some a := by simp
  have hb : (front ++ ([a, b] ++ rest))[front.length + 1]? = some b := by
    rw [List.getElem?_append_right (Nat.le_succ _)]
    simp
  rw [List.length_append, List.length_append, List.length_cons, List.length_singleton] at hdata
  have hsecond : front.length + 1 < 2 ^ 64 := by omega
  have hend : front.length + 2 < 2 ^ 64 := by omega
  rw [takeWord, outcome_get_bind, between, Checked.get_eq ha, outcome_check_pure_bind,
    Checked.add_eq hsecond, outcome_check_pure_bind, Checked.get_eq hb, outcome_check_pure_bind,
    Checked.add_eq hend, outcome_check_pure_bind, outcome_set_bind]
  simp [between]

/-- Four bytes that are there are taken as two words, the high one first. -/
private theorem takeDoubleWord_between (a b c d : UInt8)
    (hdata : (front ++ ([a, b, c, d] ++ rest)).length < 2 ^ 64) :
    takeDoubleWord.outcome (between front ([a, b, c, d] ++ rest)) =
      some (.ok (doubleWord (word a b) (word c d)), between (front ++ [a, b, c, d]) rest) := by
  have hfirst := takeWord_between front ([c, d] ++ rest) a b hdata
  have hsecond := takeWord_between (front ++ [a, b]) rest c d
    (by rw [List.append_assoc]; exact hdata)
  rw [takeDoubleWord, outcome_bind, show takeWord.outcome (between front ([a, b, c, d] ++ rest)) =
    some (.ok (word a b), between (front ++ [a, b]) ([c, d] ++ rest)) from hfirst]
  dsimp only
  rw [outcome_bind, hsecond, List.append_assoc]
  rfl

variable {β γ : Type}

/-- The bytes that must be there are taken, no more and no less, and stand for the value. -/
def Unchecked.Takes (u : Unchecked β) (present : β → γ) (interpret : Bytes → γ) : Prop :=
  ∀ front taken rest : Bytes, taken.length = u.size → (front ++ (taken ++ rest)).length < 2 ^ 64 →
    ∃ b, u.take.outcome (between front (taken ++ rest)) =
      some (.ok b, between (front ++ taken) rest) ∧ present b = interpret taken

private theorem takes_byte : byte.Takes UInt8.toNat toNat := by
  intro front taken rest hsize hdata
  obtain ⟨a, rfl⟩ := List.length_eq_one_iff.mp hsize
  exact ⟨a, takeByte_between front rest a hdata, by simp [toNat]⟩

private theorem takes_int16 : int16.Takes Int16.toInt toInt := by
  intro front taken rest hsize hdata
  obtain ⟨a, b, rfl⟩ := List.length_eq_two.mp hsize
  refine ⟨(word a b).toInt16, ?_, toInt_word a b⟩
  rw [int16, outcome_bind, takeWord_between front rest a b hdata]
  rfl

private theorem takes_int32 : int32.Takes Int32.toInt toInt := by
  intro front taken rest hsize hdata
  match taken, hsize with
  | [a, b, c, d], _ =>
    refine ⟨(doubleWord (word a b) (word c d)).toInt32, ?_, toInt_doubleWord a b c d⟩
    rw [int32, outcome_bind, takeDoubleWord_between front rest a b c d hdata]
    rfl

/-- A fixed-point number is read as the signed number of its units. -/
private theorem takes_fixed : fixed.Takes id fun bytes => ⟨bytes.toInt⟩ := by
  intro front taken rest hsize hdata
  obtain ⟨units, hunits, hvalue⟩ := takes_int32 front taken rest hsize hdata
  refine ⟨⟨units.toInt⟩, ?_, congrArg Fixed.mk hvalue⟩
  rw [fixed, Unchecked.map, outcome_bind, hunits]
  rfl

end Reader

/-! ## Reading -/

namespace Cursor

/-- The reader in the place of the cursor. -/
def toReader (c : Cursor) : Reader := ⟨c.data, c.position⟩

/-- A reader stands between the bytes that a cursor has read and those that are left to it. -/
private theorem toReader_eq (c : Cursor) :
    c.toReader = .between (c.data.take c.position) c.rest := by
  rw [toReader, Reader.between, rest, List.take_append_drop, List.length_take,
    Nat.min_eq_left c.position_le]

end Cursor

namespace Reader

variable {β γ : Type} {u : Unchecked β} {present : β → γ} {interpret : Bytes → γ} {c : Cursor}

/-- A reader that has taken some bytes is at the place of the cursor behind them. -/
private theorem between_eq_toReader {count : Nat} (hle : c.position + count ≤ c.data.length) :
    between (c.data.take c.position ++ c.rest.take count) (c.rest.drop count) =
      Cursor.toReader ⟨c.data, c.position + count, hle⟩ := by
  have hlength : c.position + count = (c.data.take c.position ++ c.rest.take count).length := by
    rw [List.length_append, List.length_take, List.length_take, Cursor.length_rest]
    omega
  rw [Cursor.toReader, between, ← hlength, List.append_assoc, List.take_append_drop, Cursor.rest,
    List.take_append_drop]

/-- A reader reads a value where a cursor does. -/
theorem Unchecked.Takes.exists_read (h : u.Takes present interpret)
    (hdata : c.data.length < 2 ^ 64) :
    ∃ answer, u.read.outcome c.toReader =
        some (answer, (settle c (c.read u.size interpret)).2.toReader) ∧
      answer.map present = (settle c (c.read u.size interpret)).1 := by
  rw [Unchecked.read, outcome_bind]
  by_cases hle : c.position + u.size ≤ c.data.length
  · have hsize : (c.rest.take u.size).length = u.size := by
      rw [List.length_take, Cursor.length_rest]
      omega
    have hjoin : c.data.take c.position ++ (c.rest.take u.size ++ c.rest.drop u.size) = c.data := by
      rw [List.take_append_drop, Cursor.rest, List.take_append_drop]
    obtain ⟨b, htake, hvalue⟩ := h (c.data.take c.position) _ (c.rest.drop u.size) hsize
      (by rwa [hjoin])
    rw [List.take_append_drop, ← c.toReader_eq, between_eq_toReader hle] at htake
    rw [Cursor.settle_read_of_le interpret hle, expect_of_le hdata hle]
    exact ⟨.ok b, htake, congrArg Except.ok hvalue⟩
  · have hlt := Nat.lt_of_not_le hle
    rw [Cursor.settle_read_of_lt interpret hlt, expect_of_lt hlt]
    exact ⟨.error .endOfData, rfl, rfl⟩

private theorem readSlice_eq (count : Nat) (hdata : c.data.length < 2 ^ 64) :
    (readSlice count).outcome c.toReader =
      some ((settle c (c.slice count)).1, (settle c (c.slice count)).2.toReader) := by
  rw [Cursor.slice_eq_read, readSlice, outcome_bind]
  by_cases hle : c.position + count ≤ c.data.length
  · have hword : c.toReader.offset + count < 2 ^ 64 := lt_of_le_of_lt hle hdata
    have hslice : (Checked.slice c.toReader.data c.toReader.offset (c.toReader.offset + count) :
        Checked DataError Bytes) = pure (c.rest.take count) := by
      change Checked.slice c.data c.position (c.position + count) = _
      rw [Checked.slice_eq (Nat.le_add_right _ _) hle, Nat.add_sub_cancel_left]
      rfl
    rw [Cursor.settle_read_of_le id hle, expect_of_le hdata hle]
    dsimp only
    rw [outcome_get_bind, Checked.add_eq hword, outcome_check_pure_bind, hslice,
      outcome_check_pure_bind, outcome_check_pure_bind, outcome_set_bind]
    rfl
  · have hlt := Nat.lt_of_not_le hle
    rw [Cursor.settle_read_of_lt id hlt, expect_of_lt hlt]

/-- Reading a value is the same operation for a reader and for a cursor. -/
private theorem perform_read (h : u.Takes present interpret) (hdata : c.data.length < 2 ^ 64)
    (f : γ → ReaderValue) :
    outcome (do let b ← u.read; return f (present b)) c.toReader =
      some ((settle c (do let (x, c) ← c.read u.size interpret; return (f x, c))).1,
        (settle c (do let (x, c) ← c.read u.size interpret; return (f x, c))).2.toReader) := by
  obtain ⟨answer, hread, hanswer⟩ := h.exists_read hdata
  rw [outcome_map _ fun b => f (present b), hread, settle_map, ← hanswer]
  cases answer <;> rfl

/-- A value at the start of the data is read without moving the reader. -/
private theorem perform_leading (hdata : c.data.length < 2 ^ 64) :
    (perform .leadingI16).outcome c.toReader = some
      ((settle c (c.perform .leadingI16)).1, (settle c (c.perform .leadingI16)).2.toReader) := by
  obtain ⟨answer, hread, hanswer⟩ := takes_int16.exists_read (c := .start c.data) hdata
  have hleading : (leading int16).outcome c.toReader = some (answer, c.toReader) := by
    rw [leading, outcome_get_bind]
    change ((int16.read.outcome (Cursor.start c.data).toReader).map _).map _ = _
    rw [hread]
    rfl
  have hcursor : c.leadingI16 = answer.map Int16.toInt := c.leadingI16_eq.trans hanswer.symm
  rw [perform, outcome_map, hleading, Cursor.settle_leading, hcursor]
  cases answer <;> rfl

/-- A reader performs an operation as a cursor does. -/
theorem perform_eq (op : ReaderOperation) (hdata : c.data.length < 2 ^ 64) :
    (perform op).outcome c.toReader =
      some ((settle c (c.perform op)).1, (settle c (c.perform op)).2.toReader) := by
  cases op with
  | u8 => exact perform_read takes_byte hdata .u8
  | i16 => exact perform_read takes_int16 hdata .i16
  | i32 => exact perform_read takes_int32 hdata .i32
  | fixed => exact perform_read takes_fixed hdata .fixed
  | slice count =>
    rw [perform, outcome_map, readSlice_eq count hdata, Cursor.perform, settle_map]
    rfl
  | leadingI16 => exact perform_leading hdata
  | bytesAvailable => rfl

/-- No byte is taken from outside the data, and the reader answers like a cursor. -/
theorem history_eq (ops : List ReaderOperation) (hdata : c.data.length < 2 ^ 64) :
    c.toReader.history ops = pure (c.history ops) := by
  refine history_eq_of_correspond (R := fun r (t : Cursor) => r = t.toReader ∧ t.data = c.data)
    (fun op r t h => ?_) (fun r t h => congrArg pure (congrArg offset h.1)) ops ⟨rfl, rfl⟩
  obtain ⟨rfl, ht⟩ := h
  exact ⟨_, perform_eq op (ht ▸ hdata), rfl, (t.data_settle_perform op).trans ht⟩

end Reader

/-- Whatever is read from a byte string, in whatever order, the position stays in the data, and the
encodings of what was read on the way are the bytes that have been passed.

Each operation answers by the rule, which leaves no choice.  A reader in memory does so as well, and
never takes a byte from outside the data. -/
theorem reading_is_lossless (data : Bytes) (ops : List ReaderOperation) :
    ∃ trace : List (Except DataError ReaderValue × Nat),
      (Cursor.start data).history ops = trace ∧
      (data.length < 2 ^ 64 → (⟨data, 0⟩ : Reader).history ops = pure trace) ∧
      (∀ other, Obeys (ReaderOperation.Answers data) 0 ops other ↔ other = trace) ∧
      (∀ entry ∈ trace, entry.2 ≤ data.length) ∧
      passed ops trace = data.take ((trace.map Prod.snd).getLastD 0) := by
  have hobeys := (Cursor.start data).obeys_history ops
  refine ⟨_, rfl, fun hdata => Reader.history_eq (c := .start data) ops hdata,
    fun other => ⟨fun h => ?_, ?_⟩, ?_, (take_of_obeys hobeys).symm⟩
  · exact hobeys.unique (fun h h' => h.unique h') h
  · rintro rfl
    exact hobeys
  · exact hobeys.invariant (I := (· ≤ data.length)) (fun h => h.position_le) (Nat.zero_le _)

/-- Reads of every kind, some of them behind the end of the data. -/
theorem reading_is_lossless_past_end :
    let data : Bytes := [0x01, 0x02, 0xFF, 0xFE, 0xFF, 0xFF, 0x80, 0x00, 0x07]
    let ops : List ReaderOperation :=
      [.i16, .slice (2 ^ 64 - 1), .i16, .fixed, .i32, .bytesAvailable, .u8, .leadingI16,
        .bytesAvailable]
    let trace : List (Except DataError ReaderValue × Nat) :=
      [(.ok (.i16 258), 2), (.error .endOfData, 2), (.ok (.i16 (-2)), 4),
        (.ok (.fixed ⟨-32768⟩), 8), (.error .endOfData, 8), (.ok (.flag true), 8), (.ok (.u8 7), 9),
        (.ok (.i16 258), 9), (.ok (.flag false), 9)]
    (⟨data, 0⟩ : Reader).history ops = pure trace ∧
      Obeys (ReaderOperation.Answers data) 0 ops trace ∧ passed ops trace = data := by
  intro data ops trace
  obtain ⟨trace', hcursor, hreader, hrule, -, hpassed⟩ := reading_is_lossless data ops
  have htrace : trace = trace' := by
    rw [← hcursor]
    decide +kernel
  subst htrace
  exact ⟨hreader (by decide), (hrule trace).mpr rfl, hpassed⟩

end FontMetrics.Bytes
