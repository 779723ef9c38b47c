import Mathlib.Data.Int.ModEq
import Mathlib.Data.List.Basic
import Mathlib.Data.List.Induction
import FontMetrics.Bytes
import FontMetrics.Proofs.Binary64.Exact

/-!
# Numbers as bytes

The bytes of an integer, most significant first.  A signed number of so many bytes is read back from
its bytes, and these are the only ones that it is read from.
-/

namespace FontMetrics

namespace Bytes

/-- The last byte of an integer. -/
def lowByte (n : Int) : UInt8 := .ofNat (n % 256).toNat

/-- The last bytes of an integer, most significant first. -/
def bigEndian : Nat → Int → Bytes
  | 0, _ => []
  | width + 1, n => bigEndian width (n / 256) ++ [lowByte n]

/-- The lowest byte of a number, of negative ones too, is its residue. -/
theorem toNat_lowByte (n : Int) : ((lowByte n).toNat : Int) = n % 256 := by
  rw [lowByte, UInt8.toNat_ofNat']
  omega

/-- The lowest byte is the only one with the residue of the number. -/
theorem lowByte_eq {n : Int} {b : UInt8} (h : n % 256 = b.toNat) : lowByte n = b := by
  rw [← UInt8.toNat_inj]
  have hbyte := toNat_lowByte n
  omega

/-- A number is written with as many bytes as it is wide. -/
@[simp] theorem length_bigEndian (width : Nat) (n : Int) : (bigEndian width n).length = width := by
  induction width generalizing n with
  | zero => rfl
  | succ width ih => rw [bigEndian, List.length_append, ih, List.length_singleton]

/-- The last byte is the one of the lowest place. -/
theorem toNat_concat (bytes : Bytes) (b : UInt8) :
    toNat (bytes ++ [b]) = toNat bytes * 256 + b.toNat := by
  simp only [toNat, List.foldl_append, List.foldl_cons, List.foldl_nil]

/-- Some bytes write a number less than 256 to the power of their count. -/
theorem toNat_lt (bytes : Bytes) : toNat bytes < 256 ^ bytes.length := by
  induction bytes using List.reverseRecOn with
  | nil => exact Nat.one_pos
  | append_singleton bytes b ih =>
    have hb := b.toNat_lt
    rw [toNat_concat, List.length_append, List.length_singleton, Nat.pow_succ]
    omega

/-- Byte strings of one length are told apart by the numbers they stand for. -/
theorem toNat_injective {a b : Bytes} (hlength : a.length = b.length) (h : toNat a = toNat b) :
    a = b := by
  induction a using List.reverseRecOn generalizing b with
  | nil => exact (List.eq_nil_of_length_eq_zero hlength.symm).symm
  | append_singleton a x ih =>
    obtain rfl | ⟨b, y, rfl⟩ := b.eq_nil_or_concat'
    · simp at hlength
    · have hx := x.toNat_lt
      have hy := y.toNat_lt
      rw [toNat_concat, toNat_concat] at h
      simp only [List.length_append, List.length_singleton] at hlength
      have hlast : x = y := UInt8.toNat_inj.mp (by omega)
      rw [ih (b := b) (by omega) (by omega), hlast]

/-- Numbers of one width differ in some byte. -/
theorem toInt_injective {a b : Bytes} (hlength : a.length = b.length) (h : toInt a = toInt b) :
    a = b := by
  have hmod : (toNat a : Int) % (256 ^ b.length : Nat) = toNat b % (256 ^ b.length : Nat) := by
    simp only [toInt, hlength, Nat.pow_eq] at h
    rw [← Int.bmod_emod, h, Int.bmod_emod]
  have ha := toNat_lt a
  rw [hlength] at ha
  rw [← Int.natCast_mod, ← Int.natCast_mod, Nat.mod_eq_of_lt ha,
    Nat.mod_eq_of_lt (toNat_lt b)] at hmod
  exact toNat_injective hlength (by exact_mod_cast hmod)

/-- Read without a sign, what is written is the number modulo a power of 256. -/
theorem toNat_bigEndian (width : Nat) (n : Int) :
    (toNat (bigEndian width n) : Int) ≡ n [ZMOD (256 ^ width : Nat)] := by
  induction width generalizing n with
  | zero => exact Int.modEq_one
  | succ width ih =>
    rw [bigEndian, toNat_concat, Nat.pow_succ]
    push_cast at ih ⊢
    rw [toNat_lowByte]
    calc (toNat (bigEndian width (n / 256)) : Int) * 256 + n % 256
      _ ≡ n / 256 * 256 + n % 256 [ZMOD 256 ^ width * 256] := (ih _).mul_right'.add_right _
      _ = n := by omega

/-- An integer in the range of so many bytes is read back from them. -/
theorem toInt_bigEndian {width : Nat} {n : Int} (hlow : -(256 ^ width : Nat) ≤ 2 * n)
    (hhigh : 2 * n < (256 ^ width : Nat)) : toInt (bigEndian width n) = n := by
  rw [toInt, length_bigEndian, Nat.pow_eq, ← Int.emod_bmod, toNat_bigEndian width n, Int.emod_bmod]
  exact Int.bmod_eq_of_le_mul_two (by omega) (by omega)

/-- No other bytes of that length stand for the integer. -/
theorem bigEndian_toInt (bytes : Bytes) : bigEndian bytes.length (toInt bytes) = bytes := by
  have hpos : 0 < 256 ^ bytes.length := Nat.pow_pos (by decide)
  have hlow := Int.le_bmod (x := (toNat bytes : Int)) hpos
  have hhigh := Int.bmod_lt (x := (toNat bytes : Int)) hpos
  refine toInt_injective (length_bigEndian _ _) (toInt_bigEndian ?_ ?_) <;>
    rw [toInt, Nat.pow_eq] <;> omega

/-- Two bytes are read as a word of 16 bits. -/
theorem toInt_pair (b₁ b₂ : UInt8) :
    toInt [b₁, b₂] = (b₁.toBitVec ++ b₂.toBitVec).toInt := by
  simp only [BitVec.toInt_eq_toNat_bmod, Binary64.toNat_append_eq, UInt8.toNat_toBitVec, toInt,
    toNat, List.foldl_cons, List.foldl_nil, List.length_cons, List.length_nil]
  norm_num

/-- Four bytes are read as a word of 32 bits. -/
theorem toInt_quad (b₁ b₂ b₃ b₄ : UInt8) :
    toInt [b₁, b₂, b₃, b₄] =
      (b₁.toBitVec ++ b₂.toBitVec ++ b₃.toBitVec ++ b₄.toBitVec).toInt := by
  simp only [BitVec.toInt_eq_toNat_bmod, Binary64.toNat_append_eq, UInt8.toNat_toBitVec, toInt,
    toNat, List.foldl_cons, List.foldl_nil, List.length_cons, List.length_nil]
  norm_num

end Bytes

end FontMetrics
