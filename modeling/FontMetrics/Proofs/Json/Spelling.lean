import FontMetrics.Proofs.Json.Grammar
import FontMetrics.Proofs.Json.Number

/-!
# Texts that are written

A text that is written consists of marks, keys and numbers, with blanks anywhere between them.
`Spells` says which of them a text consists of.  They are the tokens that are read from the text,
they are what is left of it without the blanks, and no text can be taken apart in two ways.
-/

namespace FontMetrics.Json

/-- A character that stands for itself wherever it is not part of a string. -/
inductive Mark where
  /-- A left square bracket. -/
  | openArray
  /-- A right square bracket. -/
  | closeArray
  /-- A left brace. -/
  | openObject
  /-- A right brace. -/
  | closeObject
  /-- A comma. -/
  | comma
  /-- A colon. -/
  | colon
  deriving DecidableEq, Repr

namespace Mark

/-- The character. -/
def char : Mark → Char
  | openArray => '['
  | closeArray => ']'
  | openObject => '\x7b'
  | closeObject => '\x7d'
  | comma => ','
  | colon => ':'

/-- The token that is read from it. -/
def token : Mark → Token
  | openArray => .openArray
  | closeArray => .closeArray
  | openObject => .openObject
  | closeObject => .closeObject
  | comma => .comma
  | colon => .colon

/-- Marks are written with different characters. -/
theorem char_inj {m m' : Mark} (h : m.char = m'.char) : m = m' := by
  revert h
  cases m <;> cases m' <;> decide

end Mark

/-- A part of a text that is written. -/
inductive Lexeme where
  /-- A mark. -/
  | mark (m : Mark)
  /-- A key with its quotes. -/
  | key (name : String)
  /-- A number. -/
  | number (t : NumberText)

/-- The character stands for itself in a string. -/
def isPlain (c : Char) : Bool := 32 ≤ c.toNat && c.toNat < 128 && c ≠ '"' && c ≠ '\\'

/-- The string needs no escapes. -/
def IsPlain (name : String) : Prop := ∀ c ∈ name.toList, isPlain c = true

/-- The characters that may stand between the parts of a text. -/
def blanks : List Char := [' ', '\n', '\t', '\r']

namespace Lexeme

/-- The characters of a part. -/
def chars : Lexeme → List Char
  | mark m => [m.char]
  | key name => '"' :: (name.toList ++ ['"'])
  | number t => t.chars

/-- The token that is read from a part. -/
def token : Lexeme → Token
  | mark m => m.token
  | key name => .text (.ok name)
  | number t => .atom (.number t.toNumber)

/-- The part can be written as it is. -/
def WellFormed : Lexeme → Prop
  | mark _ => True
  | key name => IsPlain name
  | number t => t.WellFormed

/-- The part may end before the text. -/
def EndsBefore (text : List Char) : Lexeme → Prop
  | number _ => Ends text
  | _ => True

end Lexeme

/-- The text consists of the given parts, with blanks between them. -/
inductive Spells : List Lexeme → List Char → Prop where
  /-- The empty text. -/
  | nil : Spells [] []
  /-- A blank in front. -/
  | blank {ls : List Lexeme} {text : List Char} {c : Char} (hc : c ∈ blanks) (h : Spells ls text) :
    Spells ls (c :: text)
  /-- A part in front. -/
  | part {l : Lexeme} {ls : List Lexeme} {text : List Char} (hl : l.WellFormed)
    (hends : l.EndsBefore text) (h : Spells ls text) : Spells (l :: ls) (l.chars ++ text)

/-- Where a text stands: outside of its strings, inside, or behind a backslash. -/
inductive Region where
  /-- Outside of strings. -/
  | outside
  /-- Inside a string. -/
  | inside
  /-- Inside a string, behind a backslash. -/
  | escaped

/-- The text without the blanks that lie outside of its strings. -/
def stripFrom : Region → List Char → List Char
  | _, [] => []
  | .outside, c :: text =>
    if c ∈ blanks then stripFrom .outside text
    else c :: stripFrom (if c = '"' then .inside else .outside) text
  | .inside, c :: text =>
    c :: stripFrom (if c = '"' then .outside else if c = '\\' then .escaped else .inside) text
  | .escaped, c :: text => c :: stripFrom .inside text

/-- The text without the blanks that lie outside of its strings. -/
def withoutBlanks (text : String) : String := String.ofList (stripFrom .outside text.toList)

section Utf8

/-- The byte of an ASCII character is its encoding. -/
theorem utf8EncodeChar_eq {c : Char} (h : c.toNat < 128) :
    String.utf8EncodeChar c = [Token.ascii c] := by
  have hval : c.val.toNat ≤ 127 := Nat.le_of_lt_succ h
  rw [String.utf8EncodeChar.eq_1, if_pos hval]
  rfl

/-- The bytes of a string of ASCII characters. -/
theorem data_toUTF8 {s : String} (h : ∀ c ∈ s.toList, c.toNat < 128) :
    s.toUTF8.data = (asciiBytes s.toList).toArray := by
  rw [String.toUTF8_eq_toByteArray, ← String.utf8Encode_toList, List.utf8Encode.eq_1,
    List.data_toByteArray, List.flatMap_congr fun c hc => utf8EncodeChar_eq (h c hc),
    ← List.map_eq_flatMap, asciiBytes]

/-- A string of ASCII characters holds a value if its characters are read as the tokens of one. -/
theorem holds_toUTF8 {s : String} {value : Value} (h : ∀ c ∈ s.toList, c.toNat < 128)
    (hvalue : value.Complete) (htokens : tokens (asciiBytes s.toList) = value.tokens) :
    Holds s.toUTF8.data.toList value where
  complete := hvalue
  tokens_eq := by rw [data_toUTF8 h, List.toList_toArray, htokens]

/-- The bytes of a string of ASCII characters are read as that string. -/
theorem fromUTF8?_asciiBytes {s : String} (h : ∀ c ∈ s.toList, c.toNat < 128) :
    String.fromUTF8? ⟨(asciiBytes s.toList).toArray⟩ = some s := by
  rw [show (⟨(asciiBytes s.toList).toArray⟩ : ByteArray) = s.toByteArray from
    ByteArray.ext (data_toUTF8 h).symm, String.fromUTF8?, dif_pos s.isValidUTF8]
  rfl

end Utf8

section Reading

/-- The characters that need no escape. -/
theorem isPlain_iff {c : Char} :
    isPlain c = true ↔ 32 ≤ c.toNat ∧ c.toNat < 128 ∧ c ≠ '"' ∧ c ≠ '\\' := by
  simp [isPlain, and_assoc]

/-- The byte of a character with a code below 128 is its code. -/
private theorem toNat_ascii {c : Char} (h : c.toNat < 128) : (Token.ascii c).toNat = c.toNat :=
  (UInt32.toNat_toUInt8 c.val).trans (Nat.mod_eq_of_lt (by change c.toNat < 256; omega))

/-- ASCII characters have different bytes. -/
theorem ascii_inj {c c' : Char} (h : c.toNat < 128) (h' : c'.toNat < 128)
    (heq : Token.ascii c = Token.ascii c') : c = c' :=
  Char.toNat_inj.mp (by rw [← toNat_ascii h, heq, toNat_ascii h'])

/-- A string without escapes is read up to its closing quote. -/
theorem Token.val_string {cs : List Char} (hcs : ∀ c ∈ cs, isPlain c = true)
    (reversed : List UInt8) (bytes : List UInt8) :
    (Token.string ⟨reversed, none, true⟩ (asciiBytes cs ++ ascii '"' :: bytes)).1 =
      (.text (StringReading.toText ⟨(asciiBytes cs).reverse ++ reversed, none, true⟩), bytes) := by
  induction cs generalizing reversed with
  | nil =>
    rw [Token.string.eq_def]
    rfl
  | cons c cs ih =>
    rw [List.forall_mem_cons] at hcs
    obtain ⟨hlow, hhigh, hquote, hslash⟩ := isPlain_iff.mp hcs.1
    have hnotquote : ascii c ≠ ascii '"' := fun h => hquote (ascii_inj hhigh (by decide) h)
    have hnotslash : ascii c ≠ ascii '\\' := fun h => hslash (ascii_inj hhigh (by decide) h)
    have hnotlow : ¬ ascii c < 32 := by
      rw [UInt8.lt_iff_toNat_lt, toNat_ascii hhigh]
      exact not_lt.mpr hlow
    rw [asciiBytes_cons, List.cons_append, Token.string.eq_def]
    simp only [hnotquote, hnotlow, hnotslash, ite_false, ne_eq, not_false_eq_true, ite_true,
      Read.val_lift, List.reverse_cons, List.append_assoc]
    exact ih hcs.2 (ascii c :: reversed)

/-- A string without escapes is read as itself. -/
theorem toText_plain {name : String} (h : IsPlain name) :
    StringReading.toText ⟨(asciiBytes name.toList).reverse ++ [], none, true⟩ = .ok name := by
  have hascii : ∀ c ∈ name.toList, c.toNat < 128 := fun c hc => (isPlain_iff.mp (h c hc)).2.1
  rw [StringReading.toText]
  simp only [List.append_nil, List.reverse_reverse, fromUTF8?_asciiBytes hascii]
  rfl

/-- A mark is read from its character alone. -/
private theorem Mark.read_char (m : Mark) (bytes : List UInt8) :
    Token.isBlank (Token.ascii m.char) = false ∧
      (Token.read (Token.ascii m.char) bytes).1 = (m.token, bytes) := by
  cases m <;> exact ⟨rfl, rfl⟩

/-- A part of a text is read from its characters. -/
theorem Lexeme.WellFormed.read_chars {l : Lexeme} (h : l.WellFormed) {text : List Char}
    (hends : l.EndsBefore text) : ∃ c cs, l.chars = c :: cs ∧
      Token.isBlank (Token.ascii c) = false ∧
      (Token.read (Token.ascii c) (asciiBytes (cs ++ text))).1 = (l.token, asciiBytes text) := by
  cases l with
  | mark m =>
    obtain ⟨hblank, hread⟩ := m.read_char (asciiBytes text)
    exact ⟨m.char, [], rfl, hblank, hread⟩
  | key name =>
    refine ⟨'"', name.toList ++ ['"'], rfl, rfl, ?_⟩
    rw [asciiBytes_append, asciiBytes_append, List.append_assoc]
    change (Token.string ⟨[], none, true⟩ _).1 = _
    refine (Token.val_string h [] (asciiBytes text)).trans ?_
    rw [toText_plain h]
    rfl
  | number t => exact NumberText.WellFormed.read_chars h hends

end Reading

section Characters

private theorem isBlank_of_mem_blanks {c : Char} (h : c ∈ blanks) :
    Token.isBlank (Token.ascii c) = true :=
  forall_of_all (P := fun c => Token.isBlank (Token.ascii c) = true) (by decide) c h

/-- Number characters are neither blanks nor quotes. -/
theorem of_isNumberChar {c : Char} (h : NumberText.isNumberChar c = true) :
    c.toNat < 128 ∧ c ∉ blanks ∧ c ≠ '"' := by
  simp only [NumberText.isNumberChar, Bool.or_eq_true, decide_eq_true_eq] at h
  rcases h with (((h | rfl) | rfl) | rfl) | rfl
  · obtain ⟨hlow, hhigh⟩ := Bool.and_eq_true_iff.mp h
    have hdigit : 48 ≤ c.toNat ∧ c.toNat ≤ 57 := ⟨of_decide_eq_true hlow, of_decide_eq_true hhigh⟩
    refine ⟨by omega, fun hmem => ?_, fun heq => ?_⟩
    · have hlow : c.toNat < 48 := forall_of_all (P := fun c => c.toNat < 48) (by decide) c hmem
      omega
    · rw [heq] at hdigit
      exact absurd hdigit (by decide)
  all_goals decide

/-- Outside texts nothing but blanks is removed. -/
private theorem stripFrom_outside_append {cs : List Char} (h : ∀ c ∈ cs, c ∉ blanks ∧ c ≠ '"')
    (text : List Char) :
    stripFrom .outside (cs ++ text) = cs ++ stripFrom .outside text := by
  induction cs with
  | nil => rfl
  | cons c cs ih =>
    rw [List.forall_mem_cons] at h
    rw [List.cons_append, stripFrom, if_neg h.1.1, if_neg h.1.2, ih h.2, List.cons_append]

private theorem stripFrom_inside_append {cs : List Char} (h : ∀ c ∈ cs, isPlain c = true)
    (text : List Char) : stripFrom .inside (cs ++ text) = cs ++ stripFrom .inside text := by
  induction cs with
  | nil => rfl
  | cons c cs ih =>
    rw [List.forall_mem_cons] at h
    obtain ⟨-, -, hquote, hslash⟩ := isPlain_iff.mp h.1
    rw [List.cons_append, stripFrom, if_neg hquote, if_neg hslash, ih h.2, List.cons_append]

namespace Lexeme

variable {l l' : Lexeme} {text text' : List Char}

/-- The parts of a text have codes below 128. -/
theorem WellFormed.isAscii (h : l.WellFormed) : ∀ c ∈ l.chars, c.toNat < 128 := by
  cases l with
  | mark m => cases m <;> exact List.forall_mem_singleton.mpr (by decide)
  | key name =>
    refine List.forall_mem_cons.mpr ⟨by decide, List.forall_mem_append.mpr ⟨fun c hc => ?_, ?_⟩⟩
    · exact (isPlain_iff.mp (h c hc)).2.1
    · exact List.forall_mem_singleton.mpr (by decide)
  | number t =>
    exact fun c hc => (of_isNumberChar (NumberText.WellFormed.isNumberChar_of_mem_chars h c hc)).1

/-- A part of a text has no blanks to be removed. -/
theorem WellFormed.stripFrom_append (h : l.WellFormed) (text : List Char) :
    stripFrom .outside (l.chars ++ text) = l.chars ++ stripFrom .outside text := by
  cases l with
  | mark m => cases m <;> rfl
  | key name =>
    have hinside : stripFrom .inside (name.toList ++ '"' :: text) =
        name.toList ++ '"' :: stripFrom .outside text :=
      stripFrom_inside_append h ('"' :: text)
    rw [chars, List.cons_append, List.append_assoc]
    change '"' :: stripFrom .inside (name.toList ++ '"' :: text) = _
    rw [hinside, List.cons_append, List.append_assoc]
    rfl
  | number t =>
    refine stripFrom_outside_append (fun c hc => ?_) text
    exact (of_isNumberChar (NumberText.WellFormed.isNumberChar_of_mem_chars h c hc)).2

/-- A part starts with a character that is no blank. -/
theorem WellFormed.exists_chars (h : l.WellFormed) :
    ∃ c cs, l.chars = c :: cs ∧ c ∉ blanks := by
  have hends : l.EndsBefore [] := by
    cases l with
    | mark | key => trivial
    | number => exact ends_nil
  obtain ⟨c, cs, hchars, hblank, -⟩ := h.read_chars hends
  exact ⟨c, cs, hchars, fun hc => by rw [isBlank_of_mem_blanks hc] at hblank; cases hblank⟩

/-- A part is never empty. -/
theorem WellFormed.append_ne_nil (h : l.WellFormed) (text : List Char) : l.chars ++ text ≠ [] := by
  obtain ⟨c, cs, hchars, -⟩ := h.exists_chars
  rw [hchars]
  exact List.cons_ne_nil _ _

/-- A text that starts with a part does not start with a blank. -/
theorem WellFormed.head_not_mem_blanks {c : Char} (h : l.WellFormed)
    (heq : l.chars ++ text = c :: text') : c ∉ blanks := by
  obtain ⟨c', cs, hchars, hblank⟩ := h.exists_chars
  rw [hchars] at heq
  obtain ⟨rfl, -⟩ := List.cons.inj heq
  exact hblank

/-- A text that starts with a number starts with a character of numbers. -/
theorem WellFormed.isNumberChar_head {t : NumberText} {c : Char} (h : (number t).WellFormed)
    (heq : t.chars ++ text = c :: text') : NumberText.isNumberChar c = true := by
  obtain ⟨c', cs, hchars, -⟩ := h.exists_chars
  change t.chars = c' :: cs at hchars
  rw [hchars] at heq
  obtain ⟨rfl, -⟩ := List.cons.inj heq
  exact NumberText.WellFormed.isNumberChar_of_mem_chars h c' (by rw [hchars]; simp)

/-- The front part of a text is determined. -/
theorem WellFormed.chars_append_inj (h : l.WellFormed) (h' : l'.WellFormed)
    (hends : l.EndsBefore text) (hends' : l'.EndsBefore text')
    (heq : l.chars ++ text = l'.chars ++ text') : l = l' ∧ text = text' := by
  have hmark : ∀ m : Mark, m.char ≠ '"' ∧ NumberText.isNumberChar m.char = false := fun m => by
    cases m <;> decide
  cases l with
  | mark m =>
    cases l' with
    | mark m' =>
      obtain ⟨hchar, htext⟩ := List.cons.inj heq
      exact ⟨congrArg mark (Mark.char_inj hchar), htext⟩
    | key name' => exact absurd (List.cons.inj heq).1 (hmark m).1
    | number t' =>
      have hnumber := h'.isNumberChar_head heq.symm
      rw [(hmark m).2] at hnumber
      cases hnumber
  | key name =>
    cases l' with
    | mark m' => exact absurd (List.cons.inj heq).1.symm (hmark m').1
    | key name' =>
      have hquote : ∀ {s : String}, IsPlain s → ∀ c ∈ s.toList, (c != '"') = true :=
        fun hs c hc => bne_iff_ne.mpr (isPlain_iff.mp (hs c hc)).2.2.1
      have hend : ∀ text : List Char, ∀ c ∈ ('"' :: text).head?, (c != '"') = false := by
        rintro text _ ⟨rfl⟩
        rfl
      have htail : name.toList ++ '"' :: text = name'.toList ++ '"' :: text' := by
        simpa [chars] using heq
      obtain ⟨hname, htext⟩ := append_inj_of_head (hquote h) (hquote h') (hend text) (hend text')
        htail
      exact ⟨congrArg key (String.toList_inj.mp hname), (List.cons.inj htext).2⟩
    | number t' => exact absurd (h'.isNumberChar_head heq.symm) (by decide)
  | number t =>
    cases l' with
    | mark m' =>
      have hnumber := h.isNumberChar_head heq
      rw [(hmark m').2] at hnumber
      cases hnumber
    | key name' => exact absurd (h.isNumberChar_head heq) (by decide)
    | number t' =>
      obtain ⟨rfl, htext⟩ := NumberText.WellFormed.chars_append_inj h h' hends hends' heq
      exact ⟨rfl, htext⟩

end Lexeme

end Characters

namespace Spells

variable {ls ls' : List Lexeme} {text : List Char}

/-- The tokens of a text are those of its parts. -/
theorem tokens_eq (h : Spells ls text) : tokens (asciiBytes text) = ls.map Lexeme.token := by
  induction h with
  | nil => exact tokens_nil
  | @blank ls text c hc _ ih =>
    rw [asciiBytes_cons, tokens, if_pos (isBlank_of_mem_blanks hc), ih]
  | @part l ls text hl hends _ ih =>
    obtain ⟨c, cs, hchars, hblank, hread⟩ := hl.read_chars hends
    rw [hchars, List.cons_append, asciiBytes_cons, tokens_cons hblank hread, ih, List.map_cons]

/-- The characters of a text are ASCII characters. -/
theorem isAscii (h : Spells ls text) : ∀ c ∈ text, c.toNat < 128 := by
  induction h with
  | nil => nofun
  | blank hc _ ih =>
    exact List.forall_mem_cons.mpr
      ⟨forall_of_all (P := fun c => c.toNat < 128) (by decide) _ hc, ih⟩
  | part hl _ _ ih => exact List.forall_mem_append.mpr ⟨hl.isAscii, ih⟩

/-- Without blanks nothing is left of a text but its parts. -/
theorem stripFrom_eq (h : Spells ls text) : stripFrom .outside text = ls.flatMap Lexeme.chars := by
  induction h with
  | nil => rfl
  | blank hc _ ih => rw [stripFrom, if_pos hc, ih]
  | part hl _ _ ih => rw [hl.stripFrom_append, ih, List.flatMap_cons]

/-- A text consists of its parts in one way only. -/
theorem unique (h : Spells ls text) (h' : Spells ls' text) : ls = ls' := by
  induction h generalizing ls' with
  | nil =>
    generalize htext : ([] : List Char) = text at h'
    cases h' with
    | nil => rfl
    | blank hc _ => cases htext
    | part hl _ _ => exact absurd htext.symm (hl.append_ne_nil _)
  | @blank ls text c hc _ ih =>
    generalize htext : c :: text = text' at h'
    cases h' with
    | nil => cases htext
    | blank hc' h' =>
      obtain ⟨rfl, rfl⟩ := List.cons.inj htext
      exact ih h'
    | part hl _ _ => exact absurd hc (hl.head_not_mem_blanks htext.symm)
  | @part l ls text hl hends _ ih =>
    generalize htext : l.chars ++ text = text' at h'
    cases h' with
    | nil => exact absurd htext (hl.append_ne_nil text)
    | blank hc' _ => exact absurd hc' (hl.head_not_mem_blanks htext)
    | part hl' hends' h' =>
      obtain ⟨rfl, rfl⟩ := hl.chars_append_inj hl' hends hends' htext
      rw [ih h']

end Spells

end FontMetrics.Json
