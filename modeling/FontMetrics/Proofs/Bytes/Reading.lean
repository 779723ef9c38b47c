import FontMetrics.Bytes.Cursor
import FontMetrics.Proofs.Bytes.BigEndian
import FontMetrics.Proofs.Checked.Procedure

/-!
# Histories of cursors

What a sequence of operations on a place in a byte string answers.  An operation reads the bytes at
its position, or fails and leaves it as it is, so that the values that were read on the way give back
the bytes that have been passed.
-/

namespace FontMetrics.Bytes

open Procedure (settle settle_map)

/-- An operation on a place in a byte string. -/
inductive ReaderOperation where
  /-- Read an unsigned byte. -/
  | u8
  /-- Read a signed 16-bit number. -/
  | i16
  /-- Read a signed 32-bit number. -/
  | i32
  /-- Read a 16.16 fixed-point number. -/
  | fixed
  /-- Read `count` bytes. -/
  | slice (count : Nat)
  /-- Read a signed 16-bit number at the start of the data. -/
  | leadingI16
  /-- Ask whether there is another byte. -/
  | bytesAvailable

/-- What an operation on a place in a byte string answers. -/
inductive ReaderValue where
  | u8 (n : Nat)
  | i16 (n : Int)
  | i32 (n : Int)
  | fixed (x : Fixed)
  | slice (bytes : Bytes)
  | flag (b : Bool)
  deriving DecidableEq

/-- Performs an operation. -/
def Cursor.perform : ReaderOperation → Cursor → Except DataError (ReaderValue × Cursor)
  | .u8, c => do
    let (n, c) ← c.u8
    return (.u8 n, c)
  | .i16, c => do
    let (n, c) ← c.i16
    return (.i16 n, c)
  | .i32, c => do
    let (n, c) ← c.i32
    return (.i32 n, c)
  | .fixed, c => do
    let (x, c) ← c.fixed
    return (.fixed x, c)
  | .slice count, c => do
    let (bytes, c) ← c.slice count
    return (.slice bytes, c)
  | .leadingI16, c => do
    let n ← c.leadingI16
    return (.i16 n, c)
  | .bytesAvailable, c => return (.flag c.bytesAvailable, c)

/-- The answers to a sequence of operations, each with the position after it. -/
def Cursor.history (ops : List ReaderOperation) (c : Cursor) :
    List (Except DataError ReaderValue × Nat) :=
  FontMetrics.history perform position ops c

/-! ## What is right -/

/-- How many bytes an operation reads, if it moves the cursor. -/
def ReaderOperation.width? : ReaderOperation → Option Nat
  | .u8 => some 1
  | .i16 => some 2
  | .i32 => some 4
  | .fixed => some 4
  | .slice count => some count
  | .leadingI16 => none
  | .bytesAvailable => none

/-- The value of the bytes that an operation reads, the most significant one first.  A fixed-point
number stands for that many 65536ths. -/
inductive ReaderOperation.Means : ReaderOperation → Bytes → ReaderValue → Prop
  | u8 (a : UInt8) : Means .u8 [a] (.u8 a.toNat)
  | i16 (a b : UInt8) : Means .i16 [a, b] (.i16 (a.toBitVec ++ b.toBitVec).toInt)
  | i32 (a b c d : UInt8) : Means .i32 [a, b, c, d]
      (.i32 (a.toBitVec ++ b.toBitVec ++ c.toBitVec ++ d.toBitVec).toInt)
  | fixed {a b c d : UInt8} {units : Int}
      (hunits : units = (a.toBitVec ++ b.toBitVec ++ c.toBitVec ++ d.toBitVec).toInt)
      (hvalue : (Binary64.ofFloat (Fixed.mk units).toScalar).toRat? = some (units / 65536 : ℚ)) :
      Means .fixed [a, b, c, d] (.fixed ⟨units⟩)
  | slice {count : Nat} {bytes : Bytes} (hlength : bytes.length = count) :
      Means (.slice count) bytes (.slice bytes)

/-- What an operation answers at a position in the data, and the position after it. -/
inductive ReaderOperation.Answers (data : Bytes) :
    Nat → ReaderOperation → Except DataError ReaderValue → Nat → Prop
  | read {position width : Nat} {op : ReaderOperation} {value : ReaderValue}
      (hwidth : op.width? = some width) (hle : position + width ≤ data.length)
      (hmeans : op.Means ((data.drop position).take width) value) :
      Answers data position op (.ok value) (position + width)
  | short {position width : Nat} {op : ReaderOperation} (hwidth : op.width? = some width)
      (hlt : data.length < position + width) :
      Answers data position op (.error .endOfData) position
  | leading {position : Nat} {value : ReaderValue}
      (hmeans : ReaderOperation.Means .i16 (data.take 2) value) :
      Answers data position .leadingI16 (.ok value) position
  | leadingShort {position : Nat} (hlt : data.length < 2) :
      Answers data position .leadingI16 (.error .endOfData) position
  | bytesAvailable {position : Nat} {b : Bool} (hb : b = true ↔ position < data.length) :
      Answers data position .bytesAvailable (.ok (.flag b)) position

namespace ReaderOperation

variable {op : ReaderOperation} {bytes data : Bytes} {value value' : ReaderValue}

/-- The bytes have one value. -/
theorem Means.unique (h : op.Means bytes value) (h' : op.Means bytes value') : value = value' := by
  cases h with
  | fixed hunits hvalue =>
    cases h' with
    | fixed hunits' hvalue' => rw [hunits, hunits']
  | u8 | i16 | i32 | slice =>
    cases h'
    rfl

/-- A value is made of as many bytes as its kind is wide. -/
private theorem Means.length_eq {width : Nat} (h : op.Means bytes value)
    (hwidth : op.width? = some width) : bytes.length = width := by
  cases h with
  | slice hlength => exact hlength.trans (Option.some.inj hwidth)
  | u8 | i16 | i32 | fixed => exact Option.some.inj hwidth

/-- A number of two bytes needs data of two bytes. -/
private theorem Means.two_le (h : Means .i16 (data.take 2) value) : 2 ≤ data.length := by
  have hlength := h.length_eq rfl
  rw [List.length_take] at hlength
  omega

/-- There is one right answer. -/
theorem Answers.unique {position next next' : Nat}
    {answer answer' : Except DataError ReaderValue} (h : op.Answers data position answer next)
    (h' : op.Answers data position answer' next') : answer = answer' ∧ next = next' := by
  cases h with
  | read hwidth hle hmeans =>
    cases h' with
    | read hwidth' hle' hmeans' =>
      cases hwidth.symm.trans hwidth'
      exact ⟨congrArg Except.ok (hmeans.unique hmeans'), rfl⟩
    | short hwidth' hlt =>
      cases hwidth.symm.trans hwidth'
      omega
    | leading | leadingShort | bytesAvailable => cases hwidth
  | short hwidth hlt =>
    cases h' with
    | read hwidth' hle hmeans =>
      cases hwidth.symm.trans hwidth'
      omega
    | short hwidth' hlt' => exact ⟨rfl, rfl⟩
    | leading | leadingShort | bytesAvailable => cases hwidth
  | leading hmeans =>
    cases h' with
    | leading hmeans' => exact ⟨congrArg Except.ok (hmeans.unique hmeans'), rfl⟩
    | leadingShort hlt =>
      have hlength := hmeans.two_le
      omega
    | read hwidth | short hwidth => cases hwidth
  | leadingShort hlt =>
    cases h' with
    | leading hmeans =>
      have hlength := hmeans.two_le
      omega
    | leadingShort hlt' => exact ⟨rfl, rfl⟩
    | read hwidth | short hwidth => cases hwidth
  | bytesAvailable hb =>
    cases h' with
    | bytesAvailable hb' =>
      rw [Bool.eq_iff_iff.mpr (hb.trans hb'.symm)]
      exact ⟨rfl, rfl⟩
    | read hwidth | short hwidth => cases hwidth

/-- The position stays in the data. -/
theorem Answers.position_le {position next : Nat} {answer : Except DataError ReaderValue}
    (h : op.Answers data position answer next) (hposition : position ≤ data.length) :
    next ≤ data.length := by
  cases h with
  | read hwidth hle hmeans => exact hle
  | short | leading | leadingShort | bytesAvailable => exact hposition

end ReaderOperation

/-! ## What is passed -/

/-- The bytes of a value, the most significant one first. -/
def ReaderValue.encoding : ReaderValue → Bytes
  | .u8 n => bigEndian 1 n
  | .i16 n => bigEndian 2 n
  | .i32 n => bigEndian 4 n
  | .fixed x => bigEndian 4 x.units
  | .slice bytes => bytes
  | .flag _ => []

/-- The encoding of what an operation has read where it has moved the cursor. -/
def ReaderOperation.passed (op : ReaderOperation) : Except DataError ReaderValue → Bytes
  | .ok value => if op.width?.isSome then value.encoding else []
  | .error _ => []

/-- The encodings of all that was read on the way, in order. -/
def passed (ops : List ReaderOperation) (trace : List (Except DataError ReaderValue × Nat)) :
    Bytes :=
  (ops.zip trace).flatMap fun entry => entry.1.passed entry.2.1

namespace ReaderOperation

variable {op : ReaderOperation} {bytes data : Bytes} {value : ReaderValue} {position next : Nat}

/-- The value gives the bytes back. -/
theorem Means.encoding_eq (h : op.Means bytes value) : value.encoding = bytes := by
  cases h with
  | u8 a =>
    have hbyte := a.toNat_lt
    exact congrArg ([·]) (lowByte_eq (by omega))
  | i16 a b =>
    rw [← toInt_pair]
    exact bigEndian_toInt [a, b]
  | i32 a b c d =>
    rw [← toInt_quad]
    exact bigEndian_toInt [a, b, c, d]
  | @fixed a b c d units hunits hvalue =>
    rw [hunits, ← toInt_quad]
    exact bigEndian_toInt [a, b, c, d]
  | slice => rfl

/-- An operation passes the bytes up to the next position. -/
theorem Answers.take_eq {answer : Except DataError ReaderValue}
    (h : op.Answers data position answer next) :
    data.take next = data.take position ++ op.passed answer := by
  cases h with
  | read hwidth hle hmeans =>
    rw [passed, hwidth, Option.isSome_some, if_pos rfl, hmeans.encoding_eq, List.take_add]
  | short | leading | leadingShort | bytesAvailable => exact (List.append_nil _).symm

end ReaderOperation

/-- A sequence of operations passes the bytes up to the last position. -/
theorem take_of_obeys {data : Bytes} {position : Nat} {ops : List ReaderOperation}
    {trace : List (Except DataError ReaderValue × Nat)}
    (h : Obeys (ReaderOperation.Answers data) position ops trace) :
    data.take ((trace.map Prod.snd).getLastD position) = data.take position ++ passed ops trace := by
  induction h with
  | nil position => exact (List.append_nil _).symm
  | cons hfirst hlater ih =>
    rw [List.map_cons, List.getLastD_cons, ih, hfirst.take_eq, List.append_assoc]
    rfl

/-! ## What a cursor answers -/

namespace ReaderOperation

variable {bytes : Bytes}

private theorem means_u8 (hlength : bytes.length = 1) : Means .u8 bytes (.u8 bytes.toNat) := by
  obtain ⟨a, rfl⟩ := List.length_eq_one_iff.mp hlength
  rw [show toNat [a] = a.toNat by simp [toNat]]
  exact .u8 a

private theorem means_i16 (hlength : bytes.length = 2) : Means .i16 bytes (.i16 bytes.toInt) := by
  obtain ⟨a, b, rfl⟩ := List.length_eq_two.mp hlength
  rw [toInt_pair]
  exact .i16 a b

private theorem means_i32 (hlength : bytes.length = 4) : Means .i32 bytes (.i32 bytes.toInt) := by
  match bytes, hlength with
  | [a, b, c, d], _ =>
    rw [toInt_quad]
    exact .i32 a b c d

private theorem means_fixed (hlength : bytes.length = 4) :
    Means .fixed bytes (.fixed ⟨bytes.toInt⟩) := by
  match bytes, hlength with
  | [a, b, c, d], _ =>
    rw [toInt_quad]
    have hlow := (a.toBitVec ++ b.toBitVec ++ c.toBitVec ++ d.toBitVec).le_toInt
    have hhigh := (a.toBitVec ++ b.toBitVec ++ c.toBitVec ++ d.toBitVec).toInt_lt
    exact .fixed rfl (Binary64.toRat?_toScalar (by dsimp only; omega))

end ReaderOperation

namespace Cursor

open ReaderOperation (means_u8 means_i16 means_i32 means_fixed)

variable {β : Type}

/-- Cutting out bytes is reading them as they are. -/
theorem slice_eq_read (count : Nat) : slice count = read count id := by
  funext c
  rw [read]
  cases c.slice count <;> rfl

/-- A read where there are enough bytes. -/
theorem settle_read_of_le {c : Cursor} {count : Nat} (interpret : Bytes → β)
    (hle : c.position + count ≤ c.data.length) : settle c (c.read count interpret) =
      (.ok (interpret (c.rest.take count)), ⟨c.data, c.position + count, hle⟩) := by
  rw [read, slice, dif_pos hle]
  rfl

/-- A read where there are too few bytes. -/
theorem settle_read_of_lt {c : Cursor} {count : Nat} (interpret : Bytes → β)
    (hlt : c.data.length < c.position + count) :
    settle c (c.read count interpret) = (.error .endOfData, c) := by
  rw [read, slice, dif_neg (by omega)]
  rfl

private theorem data_settle_read (c : Cursor) (count : Nat) (interpret : Bytes → β) :
    (settle c (c.read count interpret)).2.data = c.data := by
  by_cases hle : c.position + count ≤ c.data.length
  · rw [settle_read_of_le interpret hle]
  · rw [settle_read_of_lt interpret (Nat.lt_of_not_le hle)]

/-- The number at the start of the data is read with a cursor of its own. -/
theorem leadingI16_eq (c : Cursor) :
    c.leadingI16 = (settle (.start c.data) ((start c.data).read 2 toInt)).1 := by
  rw [leadingI16, i16]
  cases (start c.data).read 2 toInt <;> rfl

/-- The number at the start of the data is read without moving the cursor. -/
theorem settle_leading (c : Cursor) :
    settle c (c.perform .leadingI16) = (c.leadingI16.map .i16, c) := by
  rw [perform]
  cases c.leadingI16 <;> rfl

/-- No operation changes the data. -/
theorem data_settle_perform (c : Cursor) (op : ReaderOperation) :
    (settle c (c.perform op)).2.data = c.data := by
  cases op with
  | u8 | i16 | i32 | fixed =>
    rw [perform, settle_map]
    exact data_settle_read c _ _
  | slice count =>
    rw [perform, settle_map, slice_eq_read]
    exact data_settle_read c _ _
  | leadingI16 => rw [settle_leading]
  | bytesAvailable => rfl

/-- A value is read from the bytes at the position, or there are too few of them. -/
private theorem answers_read {c : Cursor} {op : ReaderOperation} {width : Nat}
    (hwidth : op.width? = some width) {interpret : Bytes → β} {f : β → ReaderValue}
    (hmeans : ∀ bytes : Bytes, bytes.length = width → op.Means bytes (f (interpret bytes))) :
    op.Answers c.data c.position ((settle c (c.read width interpret)).1.map f)
      (settle c (c.read width interpret)).2.position := by
  by_cases hle : c.position + width ≤ c.data.length
  · rw [settle_read_of_le interpret hle]
    exact .read hwidth hle (hmeans _ (by rw [List.length_take, List.length_drop]; omega))
  · have hlt := Nat.lt_of_not_le hle
    rw [settle_read_of_lt interpret hlt]
    exact .short hwidth hlt

/-- A cursor answers as it should. -/
theorem answers_perform (c : Cursor) (op : ReaderOperation) :
    op.Answers c.data c.position (settle c (c.perform op)).1
      (settle c (c.perform op)).2.position := by
  cases op with
  | u8 =>
    rw [perform, settle_map]
    exact answers_read rfl fun bytes => means_u8
  | i16 =>
    rw [perform, settle_map]
    exact answers_read rfl fun bytes => means_i16
  | i32 =>
    rw [perform, settle_map]
    exact answers_read rfl fun bytes => means_i32
  | fixed =>
    rw [perform, settle_map]
    exact answers_read rfl fun bytes => means_fixed
  | slice count =>
    rw [perform, settle_map, slice_eq_read]
    exact answers_read rfl fun bytes => .slice
  | leadingI16 =>
    rw [settle_leading, leadingI16_eq]
    by_cases hle : (start c.data).position + 2 ≤ c.data.length
    · have hlength : 2 ≤ c.data.length := (Nat.zero_add 2).symm.trans_le hle
      rw [settle_read_of_le toInt hle]
      exact .leading (means_i16 (List.length_take_of_le hlength))
    · have hlt := Nat.lt_of_not_le hle
      rw [settle_read_of_lt toInt hlt]
      exact .leadingShort (hlt.trans_eq (Nat.zero_add 2))
  | bytesAvailable => exact .bytesAvailable decide_eq_true_iff

/-- The answers and positions are the right ones, one operation after another. -/
theorem obeys_history (ops : List ReaderOperation) (c : Cursor) :
    Obeys (ReaderOperation.Answers c.data) c.position ops (c.history ops) :=
  FontMetrics.obeys_history (I := fun t => t.data = c.data)
    (fun op t ht => ⟨ht ▸ t.answers_perform op, (t.data_settle_perform op).trans ht⟩) ops rfl

end Cursor

end FontMetrics.Bytes
