import FontMetrics.Json.Document

/-!
# Texts that hold a value

A text holds a value if its tokens are those of the value: brackets around the parts, commas between
them, a colon behind every key, and any blanks.  From such a text exactly that value is read,
whatever containers it lies in.
-/

namespace FontMetrics.Json

/-- A value that keeps the rules of the notation down to its innermost parts. -/
inductive Value.Complete : Value → Prop where
  /-- The null value. -/
  | null : Complete .null
  /-- A truth value. -/
  | bool (b : Bool) : Complete (.bool b)
  /-- A number. -/
  | number (n : Number) : Complete (.number n)
  /-- A string. -/
  | text (t : Text) : Complete (.text t)
  /-- An array of such values. -/
  | array {items : List Value} (h : ∀ value ∈ items, Complete value) :
    Complete (.array items .closed)
  /-- An object of such values. -/
  | object {members : List (Text × Value)} (h : ∀ m ∈ members, Complete m.2) :
    Complete (.object members .closed)

mutual

/-- The tokens of a value. -/
def Value.tokens : Value → List Token
  | .text t => [.text t]
  | .array items _ => .openArray :: itemTokens items ++ [.closeArray]
  | .object members _ => .openObject :: memberTokens members ++ [.closeObject]
  | value => [.atom value]

/-- The tokens of the items of an array, with commas between them. -/
def itemTokens : List Value → List Token
  | [] => []
  | [value] => value.tokens
  | value :: rest => value.tokens ++ .comma :: itemTokens rest

/-- The tokens of the members of an object, with commas between them. -/
def memberTokens : List (Text × Value) → List Token
  | [] => []
  | [(key, value)] => .text key :: .colon :: value.tokens
  | (key, value) :: rest => .text key :: .colon :: value.tokens ++ .comma :: memberTokens rest

end

/-- The tokens of a text. -/
def tokens : (text : List UInt8) → List Token
  | [] => []
  | b :: bytes =>
    if Token.isBlank b then tokens bytes
    else
      let r := Token.read b bytes
      r.1.1 :: tokens r.1.2
termination_by text => text.length
decreasing_by
  · exact Nat.lt_succ_self _
  · exact Nat.lt_succ_of_le r.2

/-- The empty text has no tokens. -/
theorem tokens_nil : tokens [] = [] := by rw [tokens]

/-- The front token of a text is followed by the tokens of what comes after it. -/
theorem tokens_cons {b : UInt8} {bytes rest : List UInt8} {token : Token}
    (hblank : Token.isBlank b = false) (hread : (Token.read b bytes).1 = (token, rest)) :
    tokens (b :: bytes) = token :: tokens rest := by
  rw [tokens, if_neg (by simp [hblank])]
  simp only [hread]

/-- The text holds a value and nothing else. -/
structure Holds (text : List UInt8) (value : Value) : Prop where
  /-- The value keeps the rules of the notation. -/
  complete : value.Complete
  /-- It is written in the text. -/
  tokens_eq : tokens text = value.tokens

mutual

/-- Who skips a value without a fault has seen that it keeps the rules. -/
theorem Value.complete_of_skip : {value : Value} → value.skip = .ok () → value.Complete
  | .null, _ => .null
  | .bool b, _ => .bool b
  | .number n, _ => .number n
  | .text t, _ => .text t
  | .array items ending, h => by
    rw [Value.skip] at h
    split at h
    · cases h
    · next hitems =>
      cases ending with
      | closed => exact .array (complete_of_skipItems hitems)
      | broken => cases h
  | .object members ending, h => by
    rw [Value.skip] at h
    split at h
    · cases h
    · next hmembers =>
      cases ending with
      | closed => exact .object (complete_of_skipMembers hmembers)
      | broken => cases h
  | .broken _ _, h => by cases h

/-- Items that can all be skipped are complete. -/
theorem complete_of_skipItems : {items : List Value} → skipItems items = .ok () →
    ∀ value ∈ items, value.Complete
  | [], _ => nofun
  | value :: rest, h => by
    rw [skipItems] at h
    split at h
    · cases h
    · next hvalue =>
      exact List.forall_mem_cons.mpr ⟨Value.complete_of_skip hvalue, complete_of_skipItems h⟩

/-- Members that can all be skipped have complete values. -/
theorem complete_of_skipMembers : {members : List (Text × Value)} → skipMembers members = .ok () →
    ∀ m ∈ members, m.2.Complete
  | [], _ => nofun
  | (_, value) :: rest, h => by
    rw [skipMembers] at h
    split at h
    · cases h
    · next hvalue =>
      exact List.forall_mem_cons.mpr ⟨Value.complete_of_skip hvalue, complete_of_skipMembers h⟩

end

private theorem skipItems_of_forall {items : List Value}
    (h : ∀ value ∈ items, value.skip = .ok ()) : skipItems items = .ok () := by
  induction items with
  | nil => rfl
  | cons value rest ih =>
    rw [List.forall_mem_cons] at h
    rw [skipItems, h.1]
    exact ih h.2

private theorem skipMembers_of_forall {members : List (Text × Value)}
    (h : ∀ m ∈ members, m.2.skip = .ok ()) : skipMembers members = .ok () := by
  induction members with
  | nil => rfl
  | cons m rest ih =>
    rw [List.forall_mem_cons] at h
    rw [skipMembers, h.1]
    exact ih h.2

/-- The values that can be skipped are those that keep the rules. -/
theorem Value.skip_eq_ok_iff {value : Value} : value.skip = .ok () ↔ value.Complete := by
  constructor
  · exact Value.complete_of_skip
  · intro h
    induction h with
    | null | bool | number | text => rfl
    | array _ ih => rw [Value.skip, skipItems_of_forall ih, Ending.skip]
    | object _ ih => rw [Value.skip, skipMembers_of_forall ih, Ending.skip]

namespace Builder

/-- A text is taken token by token. -/
theorem takeAll_eq_foldl (builder : Builder) (text : List UInt8) :
    builder.takeAll text = (tokens text).foldl take builder := by
  fun_induction Builder.takeAll builder text with
  | case1 builder => rw [tokens, List.foldl_nil]
  | case2 builder b bytes hblank ih => rw [tokens, if_pos hblank, ih]
  | case3 builder b bytes hblank r ih => rw [tokens, if_neg hblank, List.foldl_cons, ih]

/-- A value may come next. -/
inductive AwaitsValue : Expectation → Prop where
  /-- It has to come. -/
  | value : AwaitsValue .value
  /-- It is the first item of an array. -/
  | firstItem : AwaitsValue .firstItem

/-- A key may come next. -/
inductive AwaitsKey : Expectation → Prop where
  /-- It has to come. -/
  | key : AwaitsKey .key
  /-- It is the key of the first member of an object. -/
  | firstKey : AwaitsKey .firstKey

/-- The tokens of the value make the builder place it, wherever a value may come next. -/
def Places (value : Value) : Prop :=
  ∀ {expected : Expectation} (containers : List Container), AwaitsValue expected →
    value.tokens.foldl take (.reading expected containers) = placed value containers

/-- Where a value has to come, only the end of an array is not taken for one. -/
theorem take_of_awaitsValue {expected : Expectation} (h : AwaitsValue expected)
    (containers : List Container) {token : Token} (htoken : token ≠ .closeArray) :
    take (.reading expected containers) token = takeValue expected containers token := by
  cases h with
  | value => rfl
  | firstItem => simp [take, htoken]

/-- Where a key has to come, only the end of an object is not taken for one. -/
theorem take_of_awaitsKey {expected : Expectation} (h : AwaitsKey expected)
    (containers : List Container) {token : Token} (htoken : token ≠ .closeObject) :
    take (.reading expected containers) token = takeKey expected containers token := by
  cases h with
  | key => rfl
  | firstKey => simp [take, htoken]

/-- The items of an array are added to it. -/
theorem foldl_take_itemTokens {items : List Value} (hitems : ∀ value ∈ items, Places value)
    (hne : items ≠ []) {expected : Expectation} (h : AwaitsValue expected) (earlier : List Value)
    (outer : List Container) :
    (itemTokens items).foldl take (.reading expected (.array earlier :: outer)) =
      .reading .separator (.array (items.reverse ++ earlier) :: outer) := by
  induction items generalizing expected earlier with
  | nil => exact absurd rfl hne
  | cons value rest ih =>
    rw [List.forall_mem_cons] at hitems
    have hvalue := hitems.1 (.array earlier :: outer) h
    cases rest with
    | nil =>
      rw [itemTokens, hvalue]
      rfl
    | cons next rest =>
      rw [itemTokens, List.foldl_append, hvalue, List.foldl_cons]
      · refine (ih hitems.2 (List.cons_ne_nil _ _) .value (value :: earlier)).trans ?_
        simp
      · simp

/-- The members of an object are added to it. -/
theorem foldl_take_memberTokens {members : List (Text × Value)}
    (hmembers : ∀ m ∈ members, Places m.2) (hne : members ≠ []) {expected : Expectation}
    (h : AwaitsKey expected) (earlier : List (Text × Value)) (outer : List Container) :
    (memberTokens members).foldl take (.reading expected (.object earlier :: outer)) =
      .reading .separator (.object (members.reverse ++ earlier) :: outer) := by
  induction members generalizing expected earlier with
  | nil => exact absurd rfl hne
  | cons m rest ih =>
    obtain ⟨key, value⟩ := m
    rw [List.forall_mem_cons] at hmembers
    have hkey : take (take (.reading expected (.object earlier :: outer)) (.text key)) .colon =
        .reading .value (.member earlier key :: outer) := by
      rw [take_of_awaitsKey h _ (by simp)]
      rfl
    have hvalue := hmembers.1 (.member earlier key :: outer) .value
    cases rest with
    | nil =>
      rw [memberTokens, List.foldl_cons, List.foldl_cons, hkey, hvalue]
      rfl
    | cons next rest =>
      rw [memberTokens, List.cons_append, List.cons_append, List.foldl_cons, List.foldl_cons, hkey,
        List.foldl_append, hvalue, List.foldl_cons]
      · refine (ih hmembers.2 (List.cons_ne_nil _ _) .key ((key, value) :: earlier)).trans ?_
        simp
      · simp

/-- The tokens of a complete value make the builder place it. -/
private theorem places_of_complete {value : Value} (h : value.Complete) : Places value := by
  induction h with
  | null | bool | number | text =>
    intro expected containers h
    exact take_of_awaitsValue h containers nofun
  | @array items _ ih =>
    intro expected containers h
    rw [Value.tokens, List.cons_append, List.foldl_cons, take_of_awaitsValue h _ (by simp),
      takeValue, List.foldl_append]
    by_cases hne : items = []
    · rw [hne]
      rfl
    · rw [foldl_take_itemTokens ih hne .firstItem]
      simp [take]
  | @object members _ ih =>
    intro expected containers h
    rw [Value.tokens, List.cons_append, List.foldl_cons, take_of_awaitsValue h _ (by simp),
      takeValue, List.foldl_append]
    by_cases hne : members = []
    · rw [hne]
      rfl
    · rw [foldl_take_memberTokens ih hne .firstKey]
      simp [take]

end Builder

/-- From a text that holds a value that value is read. -/
theorem Holds.ofBytes_eq {text : List UInt8} {value : Value} (h : Holds text value) :
    Document.ofBytes text = ⟨value, false⟩ := by
  rw [Document.ofBytes, Builder.takeAll_eq_foldl, h.tokens_eq, Builder.start,
    Builder.places_of_complete h.complete [] .value]
  rfl

/-- A text holds one value. -/
theorem Holds.unique {text : List UInt8} {value value' : Value} (h : Holds text value)
    (h' : Holds text value') : value = value' :=
  congrArg Document.value (h.ofBytes_eq.symm.trans h'.ofBytes_eq)

end FontMetrics.Json
