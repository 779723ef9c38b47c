import Mathlib.Data.Int.ModEq
import Mathlib.Data.List.Rotate
import FontMetrics.Proofs.Checked.OperandStack

/-!
# Rotations of the top of a stack

A rotation by a number of places moves every element of a block that many places toward its end,
and those that leave at the end come in again at the start.  Rotations of one block are told apart
by their distance modulo its length and add up, like the integers.
-/

namespace FontMetrics.Charstring

variable {α : Type}

/-- The last `count` elements have moved by `shift` places: the one at distance `p` from the first of
them is now at distance `(p + shift) mod count`.  The elements before them are the same. -/
structure RotatesTop (count : Nat) (shift : Int) (xs ys : List α) : Prop where
  length_eq : ys.length = xs.length
  below : ∀ q < xs.length - count, ys[q]? = xs[q]?
  top : ∀ p < count, ys[xs.length - count + ((p + shift) % count).toNat]? =
    xs[xs.length - count + p]?

namespace RotatesTop

variable {count : Nat} {j k : Int} {xs ys zs : List α}

/-- A place in the block, seen as an integer. -/
private theorem toNat_emod {i : Int} (hcount : 0 < count) :
    ((i % count).toNat : Int) = i % count ∧ (i % count).toNat < count := by
  have hpos : (0 : Int) < count := by omega
  have hcast := Int.toNat_of_nonneg (Int.emod_nonneg i hpos.ne')
  have hlt := Int.emod_lt_of_pos i hpos
  exact ⟨hcast, by omega⟩

/-- Nothing moves. -/
theorem refl (count : Nat) (xs : List α) : RotatesTop count 0 xs xs where
  length_eq := rfl
  below _ _ := rfl
  top p hp := by rw [add_zero, Int.emod_eq_of_lt (by omega) (by omega), Int.toNat_natCast]

/-- Only the distance modulo the length of the block matters. -/
theorem congr (h : RotatesTop count j xs ys) (hjk : j ≡ k [ZMOD count]) :
    RotatesTop count k xs ys where
  length_eq := h.length_eq
  below := h.below
  top p hp := by rw [← h.top p hp, (hjk.add_left (p : Int)).eq]

/-- Distances add up. -/
theorem trans (h : RotatesTop count j xs ys) (h' : RotatesTop count k ys zs) :
    RotatesTop count (j + k) xs zs where
  length_eq := h'.length_eq.trans h.length_eq
  below q hq := (h'.below q (h.length_eq ▸ hq)).trans (h.below q hq)
  top p hp := by
    obtain ⟨hcast, hlt⟩ := toNat_emod (i := p + j) (Nat.zero_lt_of_lt hp)
    have hsecond := h'.top _ hlt
    rw [hcast, Int.emod_add_emod, h.length_eq, Int.add_assoc] at hsecond
    exact hsecond.trans (h.top p hp)

/-- An empty block may move by any distance. -/
theorem empty (j : Int) (xs : List α) : RotatesTop 0 j xs xs where
  length_eq := rfl
  below _ _ := rfl
  top p hp := absurd hp (Nat.not_lt_zero p)

/-- An empty block has nothing to move. -/
theorem eq_of_zero (h : RotatesTop 0 j xs ys) : ys = xs := by
  refine List.ext_getElem? fun i => ?_
  rcases Nat.lt_or_ge i xs.length with hi | hi
  · exact h.below i hi
  · rw [List.getElem?_eq_none hi, List.getElem?_eq_none (h.length_eq ▸ hi)]

/-- Where the elements go tells where every element comes from. -/
theorem unique (h : RotatesTop count j xs ys) (h' : RotatesTop count j xs zs)
    (hcount : count ≤ xs.length) : ys = zs := by
  refine List.ext_getElem? fun i => ?_
  rcases Nat.lt_or_ge i (xs.length - count) with hbelow | hbelow
  · rw [h.below i hbelow, h'.below i hbelow]
  rcases Nat.lt_or_ge i xs.length with hi | hi
  · -- The element `p` places from the start of the block is the one that moves to this place.
    have hpos : 0 < count := by omega
    obtain ⟨hcast, hlt⟩ := toNat_emod (i := (i - (xs.length - count : Nat) : Nat) - j) hpos
    have hplace : ((((((i - (xs.length - count : Nat) : Nat) - j) % count).toNat : Int) + j) %
        count).toNat = i - (xs.length - count) := by
      rw [hcast, Int.emod_add_emod, Int.sub_add_cancel, Int.emod_eq_of_lt (by omega) (by omega),
        Int.toNat_natCast]
    have hy := h.top _ hlt
    have hz := h'.top _ hlt
    rw [hplace, Nat.add_sub_cancel' hbelow] at hy hz
    rw [hy, hz]
  · rw [List.getElem?_eq_none (h.length_eq ▸ hi), List.getElem?_eq_none (h'.length_eq ▸ hi)]

end RotatesTop

/-- An element of a list that is rotated toward its end. -/
theorem getElem?_rotateRight (xs : List α) (shift : Nat) {p : Nat} (hp : p < xs.length) :
    (xs.rotateRight shift)[(p + shift) % xs.length]? = xs[p]? := by
  have hpos : 0 < xs.length := Nat.zero_lt_of_lt hp
  have hmod := Nat.mod_lt shift hpos
  have hrotate : xs.rotateRight shift = xs.rotate (xs.length - shift % xs.length) := by
    simp only [List.rotateRight]
    split
    · next hle =>
      have hone : xs.length = 1 := by omega
      obtain ⟨x, rfl⟩ := List.length_eq_one_iff.mp hone
      rw [List.rotate_singleton]
    · rw [List.rotate_eq_drop_append_take (Nat.sub_le _ _)]
  have hturn : p + shift + (xs.length - shift % xs.length) =
      p + xs.length * (shift / xs.length + 1) := by
    have hshift := Nat.div_add_mod shift xs.length
    rw [Nat.mul_add, Nat.mul_one]
    omega
  rw [hrotate, List.getElem?_rotate (Nat.mod_lt _ hpos), Nat.mod_add_mod, hturn,
    Nat.add_mul_mod_self_left, Nat.mod_eq_of_lt hp]

namespace OperandStack

variable {capacity : Nat} {count shift : Nat} {s t : OperandStack capacity α}

/-- A stack is determined by its operands. -/
theorem eq_of_toList (h : s.toList = t.toList) : s = t := by
  obtain ⟨items, hitems⟩ := s
  obtain ⟨items', hitems'⟩ := t
  obtain rfl := List.reverse_injective h
  rfl

/-- A roll succeeds where there are enough operands. -/
theorem exists_roll (hcount : count ≤ s.size) (shift : Nat) :
    ∃ t, s.roll count shift = .ok t := by
  have hle : count ≤ s.fromTop.length := hcount
  rw [roll, if_pos hle]
  exact ⟨_, rfl⟩

/-- A roll rotates the top of the stack. -/
theorem rotatesTop_of_roll (h : s.roll count shift = .ok t) :
    RotatesTop count shift s.toList t.toList := by
  have hview := roll_toList h
  have hcount : count ≤ s.size := by
    rw [← roll_isOk_iff count shift s, h]
    rfl
  have hfront : (s.toList.take (s.size - count)).length = s.size - count := by
    rw [List.length_take, length_toList]
    omega
  have htop : (s.toList.drop (s.size - count)).length = count := by
    rw [List.length_drop, length_toList]
    omega
  have hrotated : ((s.toList.drop (s.size - count)).rotateRight shift).length = count := by
    rw [ArrayStack.length_rotateRight, htop]
  refine ⟨?_, fun q hq => ?_, fun p hp => ?_⟩
  · rw [hview, List.length_append, hfront, hrotated, length_toList]
    omega
  · rw [length_toList] at hq
    rw [hview, List.getElem?_append_left (by rw [hfront]; exact hq), List.getElem?_take, if_pos hq]
  · have hplace : ((p + shift : Int) % count).toNat = (p + shift) % count := by
      rw [← Int.natCast_add, ← Int.natCast_mod, Int.toNat_natCast]
    have hmoved := getElem?_rotateRight (s.toList.drop (s.size - count)) shift (htop.symm ▸ hp)
    rw [htop, List.getElem?_drop] at hmoved
    rw [length_toList, hplace, hview, List.getElem?_append_right (by rw [hfront]; omega), hfront,
      Nat.add_sub_cancel_left, hmoved]

end OperandStack

end FontMetrics.Charstring
