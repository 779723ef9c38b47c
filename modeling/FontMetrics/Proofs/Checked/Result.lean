/-!
# Checked computations

Machine arithmetic and access by position are partial: a sum may not fit into a word, a position may
lie outside a sequence.  A checked computation has an outcome of its own for an operation that is
used outside its domain: it *faults*.  An error, on the other hand, is a result like any other.
Loops are given a number of rounds, and fault if it does not suffice; a loop that does not fault
comes to its end by itself.

`Agrees` compares a checked computation with an ordinary one that may fail.  Computations that agree
come to related results or to the same error; in particular, the checked one does not fault.
-/

namespace FontMetrics

/-- A computation that ends with a value or an error, unless it faults. -/
abbrev Checked (ε β : Type) := ExceptT ε Option β

namespace Checked

variable {ε β γ δ ζ σ α : Type}

/-- An operation was used outside its domain. -/
def fault : Checked ε β := ExceptT.mk none

/-- Faults unless the condition holds. -/
def require (p : Prop) [Decidable p] : Checked ε Unit := if p then pure () else fault

/-- What holds may be required. -/
@[simp] theorem require_of {p : Prop} [Decidable p] (h : p) :
    (require p : Checked ε Unit) = pure () := if_pos h

/-- Nothing is computed after an error. -/
@[simp] theorem throw_bind (e : ε) (f : β → Checked ε γ) :
    ((throw e : Checked ε β) >>= f) = throw e := rfl

/-- The value of an ordinary computation is the value of the checked one. -/
@[simp] theorem lift_ok (b : β) : (liftM (Except.ok b : Except ε β) : Checked ε β) = pure b := rfl

/-- Computations that end with values are equal exactly if the values are. -/
theorem pure_inj {b c : β} : (pure b : Checked ε β) = pure c ↔ b = c :=
  ⟨fun h => Except.ok.inj (Option.some.inj h), congrArg pure⟩

/-- Computations that end with errors are equal exactly if the errors are. -/
theorem throw_inj {e e' : ε} : (throw e : Checked ε β) = throw e' ↔ e = e' :=
  ⟨fun h => Except.error.inj (Option.some.inj h), congrArg throw⟩

/-- A value is not an error. -/
theorem pure_ne_throw (b : β) (e : ε) : (pure b : Checked ε β) ≠ throw e :=
  fun h => nomatch Option.some.inj h

/-! ## Words -/

/-- The sum of two words of `bits` bits. -/
def add (bits a b : Nat) : Checked ε Nat := do
  require (a + b < Nat.pow 2 bits)
  return a + b

/-- The difference of two words. -/
def sub (a b : Nat) : Checked ε Nat := do
  require (b ≤ a)
  return a - b

/-- The remainder of a division of words. -/
def mod (a b : Nat) : Checked ε Nat := do
  require (b ≠ 0)
  return a % b

/-- Half the number of words of `bits` bits: signed ones are at least this negative. -/
def half (bits : Nat) : Int := Int.ofNat (Nat.pow 2 (bits - 1))

/-- A result of signed arithmetic on words of `bits` bits. -/
def signed (bits : Nat) (n : Int) : Checked ε Int := do
  require (-half bits ≤ n ∧ n < half bits)
  return n

/-- The remainder, never negative, of a division of signed words.  The quotient must fit too. -/
def remainder (bits : Nat) (a b : Int) : Checked ε Int := do
  require (b ≠ 0 ∧ ¬(a = -half bits ∧ b = -1))
  return a % b

/-- A sum that fits into a word is the sum of numbers. -/
theorem add_eq {bits a b : Nat} (h : a + b < Nat.pow 2 bits) :
    (add bits a b : Checked ε Nat) = pure (a + b) := by
  rw [add, require_of h, pure_bind]

/-- A word may be taken from one that is at least as large. -/
theorem sub_eq {a b : Nat} (h : b ≤ a) : (sub a b : Checked ε Nat) = pure (a - b) := by
  rw [sub, require_of h, pure_bind]

/-- A word may be divided by any word except zero. -/
theorem mod_eq {a b : Nat} (h : b ≠ 0) : (mod a b : Checked ε Nat) = pure (a % b) := by
  rw [mod, require_of h, pure_bind]

/-- The signed words of 16 bits are the numbers from -32768 to 32767. -/
theorem signed_sixteen_eq {n : Int} (hlow : -32768 ≤ n) (hhigh : n < 32768) :
    (signed 16 n : Checked ε Int) = pure n := by
  rw [signed, require_of ⟨hlow, hhigh⟩, pure_bind]

/-- A remainder by a positive divisor never overflows. -/
theorem remainder_eq {bits : Nat} {a b : Int} (h : 0 < b) :
    (remainder bits a b : Checked ε Int) = pure (a % b) := by
  have hzero : b ≠ 0 := by omega
  have hminus : b ≠ -1 := by omega
  rw [remainder, require_of ⟨hzero, fun hboth => hminus hboth.2⟩, pure_bind]

example : (remainder 8 (-128) (-1) : Checked Unit Int) = fault := rfl

/-! ## Sequences -/

/-- The element at a position. -/
def get (xs : List α) (i : Nat) : Checked ε α :=
  match xs[i]? with
  | some x => pure x
  | none => fault

/-- Replaces the element at a position. -/
def set (xs : List α) (i : Nat) (x : α) : Checked ε (List α) := do
  require (i < xs.length)
  return xs.set i x

/-- The elements from one position to another. -/
def slice (xs : List α) (first last : Nat) : Checked ε (List α) := do
  require (first ≤ last ∧ last ≤ xs.length)
  return (xs.drop first).take (last - first)

/-- The position `count` elements further.  It must not lie beyond the end, which fits into a word
for every sequence in memory. -/
def advance (xs : List α) (position count : Nat) : Checked ε Nat := do
  require (position + count ≤ xs.length)
  return position + count

/-- Rotates a sequence toward its end by no more places than it has. -/
def rotateRight (xs : List α) (places : Nat) : Checked ε (List α) := do
  require (places ≤ xs.length)
  return xs.rotateRight places

/-- Appends to a sequence for which there is room for `capacity` elements. -/
def append (capacity : Nat) (xs : List α) (x : α) : Checked ε (List α) := do
  require (xs.length < capacity)
  return xs ++ [x]

/-- An element that is there is found at its position. -/
theorem get_eq {xs : List α} {i : Nat} {x : α} (h : xs[i]? = some x) :
    (get xs i : Checked ε α) = pure x := by
  rw [get, h]

/-- An element is replaced at a position within the sequence. -/
theorem set_eq {xs : List α} {i : Nat} (x : α) (h : i < xs.length) :
    (set xs i x : Checked ε (List α)) = pure (xs.set i x) := by
  rw [set, require_of h, pure_bind]

/-- The elements between two positions in order, neither beyond the end, can be cut out. -/
theorem slice_eq {xs : List α} {first last : Nat} (hle : first ≤ last) (hlast : last ≤ xs.length) :
    (slice xs first last : Checked ε (List α)) = pure ((xs.drop first).take (last - first)) := by
  rw [slice, require_of ⟨hle, hlast⟩, pure_bind]

/-- A position moves on within the sequence or to its end. -/
theorem advance_eq {xs : List α} {position count : Nat} (h : position + count ≤ xs.length) :
    (advance xs position count : Checked ε Nat) = pure (position + count) := by
  rw [advance, require_of h, pure_bind]

/-- A sequence is rotated by at most as many places as it has. -/
theorem rotateRight_eq {xs : List α} {places : Nat} (h : places ≤ xs.length) :
    (rotateRight xs places : Checked ε (List α)) = pure (xs.rotateRight places) := by
  rw [rotateRight, require_of h, pure_bind]

/-- An element is appended while there is room. -/
theorem append_eq {capacity : Nat} {xs : List α} (x : α) (h : xs.length < capacity) :
    (append capacity xs x : Checked ε (List α)) = pure (xs ++ [x]) := by
  rw [append, require_of h, pure_bind]

/-! ## Loops -/

/-- Repeats a computation until it says that it is done, which must be within so many rounds. -/
def loop (body : σ → Checked ε (ForInStep σ)) : (rounds : Nat) → σ → Checked ε σ
  | 0, _ => fault
  | rounds + 1, s => do
    match ← body s with
    | .done s => pure s
    | .yield s => loop body rounds s

variable {body : σ → Checked ε (ForInStep σ)} {s t : σ} {rounds : Nat}

/-- A loop ends in the round that says that it is done. -/
theorem loop_of_done (h : body s = pure (.done t)) : loop body (rounds + 1) s = pure t := by
  rw [loop, h, pure_bind]

/-- A round that does not end the loop leaves one round less for the others. -/
theorem loop_of_yield (h : body s = pure (.yield t)) :
    loop body (rounds + 1) s = loop body rounds t := by
  rw [loop, h, pure_bind]

/-- An error in a round is an error of the loop. -/
theorem loop_of_throw {e : ε} (h : body s = throw e) : loop body (rounds + 1) s = throw e := by
  rw [loop, h, throw_bind]

/-! ## Agreement -/

/-- Both computations succeed, with related values, or fail with the same error. -/
inductive Agrees (R : β → γ → Prop) : Checked ε β → Except ε γ → Prop
  | ok {b : β} {c : γ} (h : R b c) : Agrees R (pure b) (.ok c)
  | error (e : ε) : Agrees R (throw e) (.error e)

/-- Computations that agree both come to a value or both to an error; none of them faults. -/
theorem Agrees.ok_or_error {R : β → γ → Prop} {x : Checked ε β} {y : Except ε γ}
    (h : Agrees R x y) :
    (∃ b c, x = pure b ∧ y = .ok c ∧ R b c) ∨ ∃ e, x = throw e ∧ y = .error e := by
  cases h with
  | ok hr => exact Or.inl ⟨_, _, rfl, rfl, hr⟩
  | error e => exact Or.inr ⟨e, rfl, rfl⟩

/-- Computations go on alike if they do so from related values. -/
theorem Agrees.bind {R : β → γ → Prop} {S : δ → ζ → Prop} {x : Checked ε β} {y : Except ε γ}
    {f : β → Checked ε δ} {g : γ → Except ε ζ} (h : Agrees R x y)
    (hf : ∀ b c, R b c → Agrees S (f b) (g c)) : Agrees S (x >>= f) (y >>= g) := by
  cases h with
  | ok hr => rw [pure_bind]; exact hf _ _ hr
  | error e => exact .error e

/-- An ordinary computation agrees with itself. -/
theorem Agrees.lift (y : Except ε β) : Agrees Eq (liftM y : Checked ε β) y := by
  cases y with
  | ok b => exact .ok rfl
  | error e => exact .error e

end Checked

end FontMetrics
