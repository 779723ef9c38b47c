import FontMetrics.Proofs.Json.Grammar

/-!
# Texts from which a value is read

A value that keeps the rules of the notation is only read from a text that holds it.  While the
builder takes tokens, those that it has taken are the ones with which its open containers begin; and
where it meets a token that does not fit, it leaves a value that breaks the rules.
-/

namespace FontMetrics.Json

namespace Token

/-- A value that makes up a token is written by this token alone. -/
def Proper (token : Token) : Prop := ∀ value, token = .atom value → value.tokens = [token]

/-- The token that was read is such. -/
def Read.Proper {bytes : List UInt8} (r : Read bytes) : Prop := r.1.1.Proper

private theorem proper_broken (used skipped : Fault) : Proper (.atom (.broken used skipped)) := by
  rintro _ ⟨⟩
  rfl

private theorem proper_of_ne_atom {token : Token} (h : ∀ value, token ≠ .atom value) :
    token.Proper :=
  fun value heq => absurd heq (h value)

/-- A word gives its own value, or a fault. -/
private theorem proper_word {value : Value} (hvalue : value.tokens = [.atom value])
    (letters : List Char) (bytes : List UInt8) : (word value letters bytes).Proper := by
  fun_induction word value letters bytes with
  | case1 =>
    rintro _ ⟨⟩
    exact hvalue
  | case2 => exact proper_broken _ _
  | case3 c letters bytes ih => exact ih
  | case4 => exact proper_broken _ _

/-- Reading a text never gives an atom. -/
private theorem proper_string (r : StringReading) (bytes : List UInt8) :
    (string r bytes).Proper := by
  fun_induction string r bytes with
  | case4 _ _ _ _ _ _ ih => exact ih
  | case6 _ _ _ _ _ _ _ _ _ _ _ _ ih => exact ih
  | case9 _ _ _ _ _ _ _ _ _ _ ih => exact ih
  | _ => exact proper_of_ne_atom nofun

private theorem proper_missingDigit {longer : List UInt8} (bytes : List UInt8) :
    (missingDigit bytes : Read longer).Proper := by
  unfold missingDigit
  cases bytes.isEmpty <;> exact proper_broken _ _

private theorem proper_finishNumber (text : NumberText) (bytes : List UInt8) :
    (finishNumber text bytes).Proper := by
  rintro _ ⟨⟩
  rfl

private theorem proper_exponentDigits (text : NumberText) (negative : Bool) (bytes : List UInt8) :
    (exponentDigits text negative bytes).Proper := by
  fun_cases exponentDigits text negative bytes with
  | case1 => exact proper_missingDigit _
  | case2 => exact proper_finishNumber _ _

private theorem proper_exponent (text : NumberText) (bytes : List UInt8) :
    (exponent text bytes).Proper := by
  unfold exponent
  repeat' split
  · exact proper_exponentDigits _ _ _
  · exact proper_exponentDigits _ _ _
  · exact proper_exponentDigits _ _ _
  · exact proper_finishNumber _ _
  · exact proper_missingDigit _
  · exact proper_finishNumber _ _
  · exact proper_finishNumber _ _

/-- A number goes on with its fraction or its exponent, or ends. -/
private theorem proper_fraction (text : NumberText) (bytes : List UInt8) :
    (fraction text bytes).Proper := by
  unfold fraction
  split
  · split
    · dsimp only
      split
      · exact proper_missingDigit _
      · exact proper_exponent _ _
    · exact proper_exponent _ _
  · exact proper_finishNumber _ _

/-- A number stays one token through all of its parts. -/
private theorem proper_number (negative : Bool) (first : Nat) (bytes : List UInt8) :
    (number negative first bytes).Proper := by
  fun_cases number negative first bytes with
  | case1 => exact proper_broken _ _
  | case2 => exact proper_fraction _ _

private theorem proper_negativeNumber (bytes : List UInt8) : (negativeNumber bytes).Proper := by
  unfold negativeNumber
  repeat' split
  · exact proper_missingDigit _
  · exact proper_number _ _ _
  · exact proper_missingDigit _

/-- Every token that is read is proper. -/
private theorem proper_read (b : UInt8) (bytes : List UInt8) : (read b bytes).Proper := by
  fun_cases read b bytes with
  | case7 => exact proper_string _ _
  | case8 | case9 | case10 => exact proper_word rfl _ _
  | case11 => exact proper_negativeNumber _
  | case12 => exact proper_number _ _ _
  | _ => exact proper_of_ne_atom nofun

end Token

/-- All tokens of a text are proper. -/
private theorem proper_of_mem_tokens {text : List UInt8} {token : Token} (h : token ∈ tokens text) :
    token.Proper := by
  fun_induction tokens text with
  | case1 => cases h
  | case2 b bytes hblank ih => exact ih h
  | case3 b bytes hblank r ih =>
    rcases List.mem_cons.mp h with rfl | h
    · exact Token.proper_read b bytes
    · exact ih h

/-- The tokens of items that are followed by others. -/
def itemsBefore (items : List Value) : List Token :=
  items.flatMap fun value => value.tokens ++ [.comma]

/-- The tokens of members that are followed by others. -/
def membersBefore (members : List (Text × Value)) : List Token :=
  members.flatMap fun m => .text m.1 :: .colon :: m.2.tokens ++ [.comma]

/-- The last item follows those in front of it without a comma behind it. -/
theorem itemTokens_append_singleton (items : List Value) (value : Value) :
    itemTokens (items ++ [value]) = itemsBefore items ++ value.tokens := by
  induction items with
  | nil => rfl
  | cons first rest ih =>
    have hrest : itemTokens (first :: (rest ++ [value])) =
        first.tokens ++ .comma :: itemTokens (rest ++ [value]) := by
      cases rest <;> rfl
    rw [List.cons_append, hrest, ih]
    simp [itemsBefore]

/-- The last member follows those in front of it without a comma behind it. -/
theorem memberTokens_append_singleton (members : List (Text × Value)) (key : Text) (value : Value) :
    memberTokens (members ++ [(key, value)]) =
      membersBefore members ++ .text key :: .colon :: value.tokens := by
  induction members with
  | nil => rfl
  | cons first rest ih =>
    have hrest : memberTokens (first :: (rest ++ [(key, value)])) =
        .text first.1 :: .colon :: first.2.tokens ++
          .comma :: memberTokens (rest ++ [(key, value)]) := by
      cases rest <;> rfl
    rw [List.cons_append, hrest, ih]
    simp [membersBefore]

namespace Container

/-- The container may take a value. -/
inductive TakesValue : Container → Prop where
  /-- An array. -/
  | array (items : List Value) : TakesValue (.array items)
  /-- An object in the middle of a member. -/
  | member (members : List (Text × Value)) (key : Text) : TakesValue (.member members key)

/-- The tokens of a container up to its next part. -/
def tokens : Container → List Token
  | .array items => .openArray :: itemsBefore items.reverse
  | .object members => .openObject :: membersBefore members.reverse
  | .member members key => .openObject :: membersBefore members.reverse ++ [.text key, .colon]

/-- A container that is not closed breaks the rules. -/
private theorem not_complete_finish (container : Container) (used skipped : Fault) :
    ¬ (container.finish (.broken used skipped)).Complete := by
  cases container <;> exact nofun

end Container

/-- The tokens of open containers, the innermost of which comes first. -/
def openTokens : List Container → List Token
  | [] => []
  | container :: outer => openTokens outer ++ container.tokens

/-- A fault inside is a fault of all containers around it. -/
private theorem not_complete_enclose {value : Value} (h : ¬ value.Complete) (used skipped : Fault)
    (containers : List Container) :
    ¬ (enclose value (.broken used skipped) containers).Complete := by
  induction containers generalizing value with
  | nil => exact h
  | cons container outer ih => exact ih (Container.not_complete_finish _ used skipped)

/-- A value that is broken off is not complete, wherever it was broken off. -/
private theorem not_complete_interrupt (expected : Expectation) (used skipped : Fault)
    (containers : List Container) : ¬ (interrupt expected used skipped containers).Complete := by
  unfold interrupt
  split
  · exact not_complete_enclose (Container.not_complete_finish _ used skipped) used skipped _
  · exact not_complete_enclose (Container.not_complete_finish _ used skipped) used skipped _
  · exact not_complete_enclose (Container.not_complete_finish _ used skipped) used skipped _
  · exact not_complete_enclose (by rintro ⟨⟩) used skipped _

namespace Builder

/-- The tokens are those that the builder has taken, unless it has met a fault or more than a value. -/
inductive HasTaken : Builder → List Token → Prop where
  /-- A value has to come. -/
  | value {containers : List Container} (h : ∀ c ∈ containers, c.TakesValue) :
    HasTaken (.reading .value containers) (openTokens containers)
  /-- An array has been opened. -/
  | firstItem {outer : List Container} (h : ∀ c ∈ outer, c.TakesValue) :
    HasTaken (.reading .firstItem (.array [] :: outer)) (openTokens (.array [] :: outer))
  /-- An object has been opened. -/
  | firstKey {outer : List Container} (h : ∀ c ∈ outer, c.TakesValue) :
    HasTaken (.reading .firstKey (.object [] :: outer)) (openTokens (.object [] :: outer))
  /-- A member has to come. -/
  | key {members : List (Text × Value)} {outer : List Container} (h : ∀ c ∈ outer, c.TakesValue) :
    HasTaken (.reading .key (.object members :: outer)) (openTokens (.object members :: outer))
  /-- The colon behind a key has to come. -/
  | colon {members : List (Text × Value)} {key : Text} {outer : List Container}
    (h : ∀ c ∈ outer, c.TakesValue) :
    HasTaken (.reading .colon (.member members key :: outer))
      (openTokens (.object members :: outer) ++ [.text key])
  /-- A part is complete. -/
  | separator {container : Container} {value : Value} {outer : List Container}
    (h : ∀ c ∈ container :: outer, c.TakesValue) :
    HasTaken (.reading .separator (container.add value :: outer))
      (openTokens (container :: outer) ++ value.tokens)
  /-- The value is complete. -/
  | complete (value : Value) : HasTaken (.complete value) value.tokens
  /-- Something follows the value. -/
  | trailed (value : Value) (taken : List Token) : HasTaken (.ended ⟨value, true⟩) taken
  /-- There is a fault. -/
  | faulty {value : Value} (h : ¬ value.Complete) (taken : List Token) :
    HasTaken (.ended ⟨value, false⟩) taken

variable {builder : Builder} {taken : List Token} {token : Token} {containers outer : List Container}

/-- A value is the next part of the innermost container, or the value of the text. -/
private theorem hasTaken_placed (h : ∀ c ∈ containers, c.TakesValue) (value : Value) :
    HasTaken (placed value containers) (openTokens containers ++ value.tokens) := by
  cases containers with
  | nil => exact .complete value
  | cons container outer => exact .separator h

/-- After a fault nothing is claimed about the tokens. -/
private theorem hasTaken_fail (expected : Expectation) (used skipped : Fault)
    (containers : List Container) (taken : List Token) :
    HasTaken (fail expected used skipped containers) taken :=
  .faulty (not_complete_interrupt expected used skipped containers) taken

/-- A token at a place for a value is taken as the value or as its beginning. -/
private theorem hasTaken_takeValue (h : ∀ c ∈ containers, c.TakesValue) (htoken : token.Proper)
    (expected : Expectation) :
    HasTaken (takeValue expected containers token) (openTokens containers ++ [token]) := by
  cases token with
  | openArray => exact .firstItem h
  | openObject => exact .firstKey h
  | text value => exact hasTaken_placed h (.text value)
  | atom value =>
    rw [← htoken value rfl]
    cases value with
    | broken used skipped => exact hasTaken_fail _ _ _ _ _
    | _ => exact hasTaken_placed h _
  | _ => exact hasTaken_fail _ _ _ _ _

/-- A token at a place for a key is taken as the key. -/
private theorem hasTaken_takeKey (h : ∀ c ∈ outer, c.TakesValue) (expected : Expectation)
    (members : List (Text × Value)) :
    HasTaken (takeKey expected (.object members :: outer) token)
      (openTokens (.object members :: outer) ++ [token]) := by
  cases token with
  | text key => exact .colon h
  | _ => exact hasTaken_fail _ _ _ _ _

/-- One more token. -/
theorem HasTaken.take (h : HasTaken builder taken) (htoken : token.Proper) :
    HasTaken (builder.take token) (taken ++ [token]) := by
  cases h with
  | value h => exact hasTaken_takeValue h htoken .value
  | @firstItem outer h =>
    by_cases hclose : token = .closeArray
    · rw [hclose, openTokens, List.append_assoc]
      exact hasTaken_placed h (.array [] .closed)
    · rw [take_of_awaitsValue .firstItem _ hclose]
      exact hasTaken_takeValue (List.forall_mem_cons.mpr ⟨.array [], h⟩) htoken .firstItem
  | @firstKey outer h =>
    by_cases hclose : token = .closeObject
    · rw [hclose, openTokens, List.append_assoc]
      exact hasTaken_placed h (.object [] .closed)
    · rw [take_of_awaitsKey .firstKey _ hclose]
      exact hasTaken_takeKey h .firstKey []
  | key h => exact hasTaken_takeKey h .key _
  | @colon members key outer h =>
    cases token with
    | colon =>
      have hopen : openTokens (.object members :: outer) ++ [.text key] ++ [.colon] =
          openTokens (.member members key :: outer) := by
        simp [openTokens, Container.tokens]
      rw [hopen]
      exact .value (List.forall_mem_cons.mpr ⟨.member members key, h⟩)
    | _ => exact hasTaken_fail _ _ _ _ _
  | @separator container value outer h =>
    obtain ⟨hcontainer, houter⟩ := List.forall_mem_cons.mp h
    cases hcontainer with
    | array items =>
      cases token with
      | closeArray =>
        have htokens : openTokens (.array items :: outer) ++ value.tokens ++ [.closeArray] =
            openTokens outer ++ (Value.array (value :: items).reverse .closed).tokens := by
          simp [openTokens, Container.tokens, Value.tokens, itemTokens_append_singleton]
        rw [htokens]
        exact hasTaken_placed houter _
      | comma =>
        have htokens : openTokens (.array items :: outer) ++ value.tokens ++ [.comma] =
            openTokens (.array (value :: items) :: outer) := by
          simp [openTokens, Container.tokens, itemsBefore]
        rw [htokens]
        exact .value (List.forall_mem_cons.mpr ⟨.array _, houter⟩)
      | _ => exact hasTaken_fail _ _ _ _ _
    | member members key =>
      cases token with
      | closeObject =>
        have htokens : openTokens (.member members key :: outer) ++ value.tokens ++ [.closeObject] =
            openTokens outer ++ (Value.object ((key, value) :: members).reverse .closed).tokens := by
          simp [openTokens, Container.tokens, Value.tokens, memberTokens_append_singleton]
        rw [htokens]
        exact hasTaken_placed houter _
      | comma =>
        have htokens : openTokens (.member members key :: outer) ++ value.tokens ++ [.comma] =
            openTokens (.object ((key, value) :: members) :: outer) := by
          simp [openTokens, Container.tokens, membersBefore]
        rw [htokens]
        exact .key houter
      | _ => exact hasTaken_fail _ _ _ _ _
  | complete value => exact .trailed value _
  | trailed value => exact .trailed value _
  | faulty h => exact .faulty h _

/-- Many more tokens. -/
theorem HasTaken.foldl (h : HasTaken builder taken) {more : List Token}
    (hmore : ∀ token ∈ more, token.Proper) :
    HasTaken (more.foldl Builder.take builder) (taken ++ more) := by
  induction more generalizing builder taken with
  | nil => simpa using h
  | cons token rest ih =>
    rw [List.forall_mem_cons] at hmore
    simpa using ih (h.take hmore.1) hmore.2

/-- At the end of the text, a value that keeps the rules has been read from its own tokens. -/
theorem HasTaken.eq_tokens (h : HasTaken builder taken) {value : Value}
    (hfinish : builder.finish = ⟨value, false⟩) (hvalue : value.Complete) :
    taken = value.tokens := by
  cases h with
  | complete =>
    cases hfinish
    rfl
  | trailed => cases hfinish
  | faulty h =>
    cases hfinish
    exact absurd hvalue h
  | _ =>
    cases hfinish
    exact absurd hvalue (not_complete_interrupt _ _ _ _)

end Builder

/-- The texts from which a value that keeps the rules is read are those that hold it. -/
theorem holds_iff {text : List UInt8} {value : Value} :
    Holds text value ↔ Document.ofBytes text = ⟨value, false⟩ ∧ value.Complete := by
  constructor
  · exact fun h => ⟨h.ofBytes_eq, h.complete⟩
  · rintro ⟨hread, hvalue⟩
    rw [Document.ofBytes, Builder.takeAll_eq_foldl] at hread
    have hstart : Builder.HasTaken .start [] := .value (fun _ h => absurd h List.not_mem_nil)
    have hproper : ∀ token ∈ tokens text, token.Proper := fun _ => proper_of_mem_tokens
    exact ⟨hvalue, (hstart.foldl hproper).eq_tokens hread hvalue⟩

end FontMetrics.Json
