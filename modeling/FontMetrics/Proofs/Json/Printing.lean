import FontMetrics.Json.Output
import FontMetrics.Proofs.Decimal.Text
import FontMetrics.Proofs.Json.Spelling

/-!
# The two written forms of a value

Both forms of a value consist of the same parts, and differ only in the blanks between them.  So
both hold the same value for those who read them, both are the same without blanks, and either of
them determines the value that was written, down to the last bit of its numbers.
-/

namespace FontMetrics.Json

open Decimal (integerNumber tableNumber)

/-- Lists with something between them: the first one, and each of the others behind it. -/
theorem intercalate_cons_eq {α : Type} (sep xs : List α) (rest : List (List α)) :
    sep.intercalate (xs :: rest) = xs ++ rest.flatMap (sep ++ ·) := by
  induction rest generalizing xs with
  | nil => rw [List.intercalate_singleton, List.flatMap_nil, List.append_nil]
  | cons ys rest ih =>
    rw [List.intercalate_cons_cons, ih, List.flatMap_cons, List.append_assoc, List.append_assoc]

namespace Output

mutual

/-- The parts of the text of a value. -/
def lexemes : Output → List Lexeme
  | .integer n => [.number (integerNumber n)]
  | .decimal x => [.number (tableNumber x)]
  | .array items =>
    .mark .openArray ::
      ([.mark .comma].intercalate (itemLexemes items) ++ [.mark .closeArray])
  | .object members =>
    .mark .openObject ::
      ([.mark .comma].intercalate (memberLexemes members) ++ [.mark .closeObject])

/-- The parts of the items of an array. -/
def itemLexemes : List Output → List (List Lexeme)
  | [] => []
  | item :: rest => lexemes item :: itemLexemes rest

/-- The parts of the members of an object. -/
def memberLexemes : List (String × Output) → List (List Lexeme)
  | [] => []
  | (key, value) :: rest => (.key key :: .mark .colon :: lexemes value) :: memberLexemes rest

end

mutual

/-- The value that is read from the text of a value. -/
def value : Output → Value
  | .integer n => .number (integerNumber n).toNumber
  | .decimal x => .number (tableNumber x).toNumber
  | .array items => .array (itemValues items) .closed
  | .object members => .object (memberValues members) .closed

/-- The values of the items of an array. -/
def itemValues : List Output → List Value
  | [] => []
  | item :: rest => value item :: itemValues rest

/-- The keys and values of the members of an object. -/
def memberValues : List (String × Output) → List (Text × Value)
  | [] => []
  | (key, item) :: rest => (.ok key, value item) :: memberValues rest

end

/-- The parts of a member. -/
def memberParts (m : String × Output) : List Lexeme := .key m.1 :: .mark .colon :: m.2.lexemes

theorem itemLexemes_eq (items : List Output) : itemLexemes items = items.map lexemes := by
  induction items with
  | nil => rfl
  | cons item rest ih => rw [itemLexemes, ih, List.map_cons]

theorem memberLexemes_eq (members : List (String × Output)) :
    memberLexemes members = members.map memberParts := by
  induction members with
  | nil => rfl
  | cons m rest ih =>
    rw [memberLexemes, ih, List.map_cons, memberParts]

/-- The items of an array are read one by one. -/
theorem itemValues_eq (items : List Output) : itemValues items = items.map value := by
  induction items with
  | nil => rfl
  | cons item rest ih => rw [itemValues, ih, List.map_cons]

/-- The members of an object are read one by one, with their keys. -/
theorem memberValues_eq (members : List (String × Output)) :
    memberValues members = members.map fun m => (.ok m.1, m.2.value) := by
  induction members with
  | nil => rfl
  | cons m rest ih => rw [memberValues, ih, List.map_cons]

theorem compactItems_eq (items : List Output) : compactItems items = items.map compact := by
  induction items with
  | nil => rfl
  | cons item rest ih => rw [compactItems, ih, List.map_cons]

theorem compactMembers_eq (members : List (String × Output)) :
    compactMembers members = members.map fun m => keyText m.1 ++ ":" ++ m.2.compact := by
  induction members with
  | nil => rfl
  | cons m rest ih => rw [compactMembers, ih, List.map_cons]

theorem prettyItems_eq (level : Nat) (items : List Output) :
    prettyItems level items = items.map (pretty level) := by
  induction items with
  | nil => rfl
  | cons item rest ih => rw [prettyItems, ih, List.map_cons]

theorem prettyMembers_eq (level : Nat) (members : List (String × Output)) :
    prettyMembers level members =
      members.map fun m => keyText m.1 ++ ": " ++ m.2.pretty level := by
  induction members with
  | nil => rfl
  | cons m rest ih => rw [prettyMembers, ih, List.map_cons]

/-- The value can be written: its keys need no escapes, and its numbers are finite. -/
inductive Legible : Output → Prop where
  /-- An integer. -/
  | integer (n : Int) : Legible (.integer n)
  /-- A finite number. -/
  | decimal {x : Binary64} (h : x.IsProper) : Legible (.decimal x)
  /-- An array of such values. -/
  | array {items : List Output} (h : ∀ item ∈ items, Legible item) : Legible (.array items)
  /-- An object of such values. -/
  | object {members : List (String × Output)} (hkeys : ∀ m ∈ members, IsPlain m.1)
    (h : ∀ m ∈ members, Legible m.2) : Legible (.object members)

end Output

/-- The characters are a text of the parts, whatever comes after them. -/
def Writes (ls : List Lexeme) (cs : List Char) : Prop :=
  ∀ ⦃ls' : List Lexeme⦄ ⦃text : List Char⦄, Ends text → Spells ls' text →
    Spells (ls ++ ls') (cs ++ text)

/-- All the characters are blanks. -/
def IsGap (cs : List Char) : Prop := ∀ c ∈ cs, c ∈ blanks

/-- There may be no blanks at all. -/
theorem isGap_nil : IsGap [] := nofun

/-- Blanks in front of a text do not count. -/
theorem Spells.gap_append {gap : List Char} (hgap : IsGap gap) {ls : List Lexeme}
    {text : List Char} (h : Spells ls text) : Spells ls (gap ++ text) := by
  induction gap with
  | nil => exact h
  | cons c gap ih =>
    have hall := List.forall_mem_cons.mp hgap
    exact .blank hall.1 (ih hall.2)

/-- A text that goes on with blanks or a delimiter may follow a value. -/
theorem ends_gap_append {gap : List Char} (hgap : IsGap gap) {text : List Char} (h : Ends text) :
    Ends (gap ++ text) := by
  cases gap with
  | nil => exact h
  | cons c gap =>
    have hall : ∀ c ∈ blanks, c ∈ delimiters := by simp [blanks, delimiters]
    rw [List.cons_append]
    exact ends_cons (hall c (hgap c List.mem_cons_self)) (gap ++ text)

/-- A value may end before others with commas in front of them. -/
theorem ends_separated (gap : List Char) (parts : List (List Char)) {text : List Char}
    (h : Ends text) : Ends (parts.flatMap ((',' :: gap) ++ ·) ++ text) := by
  cases parts with
  | nil => exact h
  | cons part parts => exact ends_cons (by simp [delimiters]) _

namespace Writes

variable {ls : List Lexeme} {cs gap : List Char}

private theorem number {t : NumberText} (h : t.WellFormed) : Writes [.number t] t.chars :=
  fun _ _ hends hspells => .part (l := .number t) h hends hspells

/-- A member: a key, a colon and a value. -/
theorem member {key : String} (hkey : IsPlain key) (hgap : IsGap gap) (h : Writes ls cs) :
    Writes (.key key :: .mark .colon :: ls) ('"' :: (key.toList ++ '"' :: ':' :: (gap ++ cs))) := by
  intro ls' text hends hspells
  have hcolon : Spells (.mark .colon :: ls ++ ls') (':' :: (gap ++ (cs ++ text))) :=
    .part (l := .mark .colon) trivial trivial (Spells.gap_append hgap (h hends hspells))
  have hall : Spells (.key key :: .mark .colon :: ls ++ ls')
      ((Lexeme.key key).chars ++ ':' :: (gap ++ (cs ++ text))) :=
    .part (l := .key key) hkey trivial hcolon
  simpa [Lexeme.chars] using hall

/-- Texts with a comma in front of each. -/
theorem separated {lss : List (List Lexeme)} {parts : List (List Char)} (hgap : IsGap gap)
    (h : List.Forall₂ Writes lss parts) :
    Writes (lss.flatMap ([.mark .comma] ++ ·)) (parts.flatMap ((',' :: gap) ++ ·)) := by
  induction h with
  | nil => exact fun _ _ _ hspells => hspells
  | @cons ls cs lss parts hfirst _ ih =>
    intro ls' text hends hspells
    have hrest := ih hends hspells
    rw [List.flatMap_cons, List.flatMap_cons, List.append_assoc, List.append_assoc,
      List.append_assoc, List.append_assoc]
    exact .part (l := .mark .comma) trivial trivial
      (Spells.gap_append hgap (hfirst (ends_separated gap parts hends) hrest))

/-- Texts with commas between them. -/
theorem intercalated {lss : List (List Lexeme)} {parts : List (List Char)} (hgap : IsGap gap)
    (h : List.Forall₂ Writes lss parts) :
    Writes ([.mark .comma].intercalate lss) ((',' :: gap).intercalate parts) := by
  cases h with
  | nil => exact fun _ _ _ hspells => hspells
  | @cons ls cs lss parts hfirst hrest =>
    intro ls' text hends hspells
    rw [intercalate_cons_eq, intercalate_cons_eq, List.append_assoc, List.append_assoc]
    exact hfirst (ends_separated gap parts hends) (separated hgap hrest hends hspells)

/-- Texts in brackets. -/
theorem enclosed (opening : Mark) {closing : Mark} (hclosing : closing.char ∈ delimiters)
    {before after : List Char} (hbefore : IsGap before) (hafter : IsGap after) (h : Writes ls cs) :
    Writes (.mark opening :: (ls ++ [.mark closing]))
      (opening.char :: (before ++ (cs ++ (after ++ [closing.char])))) := by
  intro ls' text hends hspells
  have hend : Spells (.mark closing :: ls') (after ++ closing.char :: text) :=
    Spells.gap_append hafter (.part (l := .mark closing) trivial trivial hspells)
  have hinner := h (ends_gap_append hafter (ends_cons hclosing text)) hend
  have hall : Spells (.mark opening :: (ls ++ .mark closing :: ls'))
      (opening.char :: (before ++ (cs ++ (after ++ closing.char :: text)))) :=
    .part (l := .mark opening) trivial trivial (Spells.gap_append hbefore hinner)
  simpa using hall

end Writes

namespace Output

/-- A key stands between quotes. -/
private theorem toList_keyText (key : String) :
    (keyText key).toList = '"' :: (key.toList ++ ['"']) := by
  simp [keyText]

/-- A new line is indented with blanks. -/
private theorem isGap_lineStart (level : Nat) : IsGap (lineStart level).toList := by
  have htext : (lineStart level).toList = '\n' :: List.replicate (2 * level) ' ' := by
    rw [lineStart, String.toList_append]
    exact congrArg ('\n' :: ·) String.toList_ofList
  rw [htext]
  refine List.forall_mem_cons.mpr ⟨by simp [blanks], fun c hc => ?_⟩
  rw [List.eq_of_mem_replicate hc]
  simp [blanks]

section Brackets

variable {opening closing : Mark} {left right : String} {lss : List (List Lexeme)}
  {parts : List String}

/-- Parts between brackets on one line. -/
theorem writes_line (hleft : left.toList = [opening.char]) (hright : right.toList = [closing.char])
    (hclosing : closing.char ∈ delimiters)
    (h : List.Forall₂ Writes lss (parts.map String.toList)) :
    Writes (.mark opening :: ([.mark .comma].intercalate lss ++ [.mark closing]))
      (left ++ ",".intercalate parts ++ right).toList := by
  have hall := Writes.enclosed opening hclosing isGap_nil isGap_nil
    (Writes.intercalated isGap_nil h)
  simpa [hleft, hright] using hall

/-- Parts between brackets, each on a line of its own. -/
theorem writes_block (hleft : left.toList = [opening.char])
    (hright : right.toList = [closing.char]) (hclosing : closing.char ∈ delimiters) (level : Nat)
    (h : List.Forall₂ Writes lss (parts.map String.toList)) :
    Writes (.mark opening :: ([.mark .comma].intercalate lss ++ [.mark closing]))
      (block left right level parts).toList := by
  cases parts with
  | nil =>
    have hall := writes_line hleft hright hclosing h
    simpa [block] using hall
  | cons part parts =>
    have hall := Writes.enclosed opening hclosing (isGap_lineStart (level + 1))
      (isGap_lineStart level) (Writes.intercalated (isGap_lineStart (level + 1)) h)
    simpa [block, hleft, hright] using hall

end Brackets

private theorem writes_number {t : NumberText} (h : t.WellFormed) {text : String}
    (htext : t.chars = text.toList) : Writes [.number t] text.toList :=
  htext ▸ Writes.number h

/-- The form on one line consists of the parts of the value. -/
theorem writes_compact {o : Output} (h : o.Legible) : Writes o.lexemes o.compact.toList := by
  induction h with
  | integer n =>
    exact writes_number (Decimal.wellFormed_integerNumber n) (Decimal.chars_integerNumber n)
  | decimal h =>
    exact writes_number (Decimal.wellFormed_tableNumber h) (Decimal.chars_tableNumber h)
  | @array items _ ih =>
    rw [lexemes, compact, itemLexemes_eq, compactItems_eq]
    refine writes_line rfl rfl (by simp [delimiters, Mark.char]) ?_
    rw [List.map_map, List.forall₂_map_left_iff, List.forall₂_map_right_iff, List.forall₂_same]
    exact ih
  | @object members hkeys _ ih =>
    rw [lexemes, compact, memberLexemes_eq, compactMembers_eq]
    refine writes_line rfl rfl (by simp [delimiters, Mark.char]) ?_
    rw [List.map_map, List.forall₂_map_left_iff, List.forall₂_map_right_iff, List.forall₂_same]
    intro m hm
    have hall := Writes.member (hkeys m hm) isGap_nil (ih m hm)
    simpa [memberParts, toList_keyText] using hall

/-- The form on several lines consists of the parts of the value. -/
theorem writes_pretty {o : Output} (h : o.Legible) (level : Nat) :
    Writes o.lexemes (o.pretty level).toList := by
  induction h generalizing level with
  | integer n =>
    exact writes_number (Decimal.wellFormed_integerNumber n) (Decimal.chars_integerNumber n)
  | decimal h =>
    exact writes_number (Decimal.wellFormed_tableNumber h) (Decimal.chars_tableNumber h)
  | @array items _ ih =>
    rw [lexemes, pretty, itemLexemes_eq, prettyItems_eq]
    refine writes_block rfl rfl (by simp [delimiters, Mark.char]) level ?_
    rw [List.map_map, List.forall₂_map_left_iff, List.forall₂_map_right_iff, List.forall₂_same]
    exact fun item hitem => ih item hitem (level + 1)
  | @object members hkeys _ ih =>
    rw [lexemes, pretty, memberLexemes_eq, prettyMembers_eq]
    refine writes_block rfl rfl (by simp [delimiters, Mark.char]) level ?_
    rw [List.map_map, List.forall₂_map_left_iff, List.forall₂_map_right_iff, List.forall₂_same]
    intro m hm
    have hgap : IsGap [' '] := by simp [IsGap, blanks]
    have hall := Writes.member (hkeys m hm) hgap (ih m hm (level + 1))
    simpa [memberParts, toList_keyText] using hall

/-- The value keeps the rules of the notation. -/
theorem complete_value {o : Output} (h : o.Legible) : o.value.Complete := by
  induction h with
  | integer | decimal => exact .number _
  | array _ ih =>
    rw [value, itemValues_eq]
    exact .array (List.forall_mem_map.mpr ih)
  | object _ _ ih =>
    rw [value, memberValues_eq]
    exact .object (List.forall_mem_map.mpr ih)

/-- Items after the first one are preceded by commas. -/
private theorem itemTokens_cons_eq (v : Value) (vs : List Value) :
    itemTokens (v :: vs) = v.tokens ++ vs.flatMap (.comma :: ·.tokens) := by
  induction vs generalizing v with
  | nil => simp [itemTokens]
  | cons v' vs ih => simp [itemTokens, ih]

/-- Members after the first one are preceded by commas. -/
private theorem memberTokens_cons_eq (m : Text × Value) (ms : List (Text × Value)) :
    memberTokens (m :: ms) =
      .text m.1 :: .colon :: m.2.tokens ++
        ms.flatMap fun m => .comma :: .text m.1 :: .colon :: m.2.tokens := by
  induction ms generalizing m with
  | nil => simp [memberTokens]
  | cons m' ms ih => simp [memberTokens, ih]

/-- The tokens of texts with commas between them. -/
theorem map_token_intercalate {β : Type} (write : β → List Lexeme) (x : β) (xs : List β) :
    ([.mark .comma].intercalate ((x :: xs).map write)).map Lexeme.token =
      (write x).map Lexeme.token ++ xs.flatMap fun y => .comma :: (write y).map Lexeme.token := by
  rw [List.map_cons, intercalate_cons_eq, List.map_append, List.map_flatMap, List.flatMap_map]
  rfl

/-- The tokens of the value that is read are those of the parts that are written. -/
theorem tokens_value {o : Output} (h : o.Legible) :
    o.value.tokens = o.lexemes.map Lexeme.token := by
  induction h with
  | integer | decimal => rfl
  | @array items _ ih =>
    have hitems : itemTokens (items.map value) =
        ([.mark .comma].intercalate (items.map lexemes)).map Lexeme.token := by
      cases items with
      | nil => rfl
      | cons item rest =>
        rw [List.forall_mem_cons] at ih
        rw [map_token_intercalate, List.map_cons, itemTokens_cons_eq, List.flatMap_map, ih.1,
          List.flatMap_congr fun o ho => by rw [ih.2 o ho]]
    rw [value, itemValues_eq, Value.tokens, lexemes, itemLexemes_eq, hitems]
    simp [Lexeme.token, Mark.token]
  | @object members _ _ ih =>
    have hmembers : memberTokens (members.map fun m => (.ok m.1, m.2.value)) =
        ([.mark .comma].intercalate (members.map memberParts)).map Lexeme.token := by
      cases members with
      | nil => rfl
      | cons m rest =>
        rw [List.forall_mem_cons] at ih
        rw [map_token_intercalate, List.map_cons, memberTokens_cons_eq, List.flatMap_map, ih.1,
          List.flatMap_congr fun o ho => by rw [ih.2 o ho]]
        rfl
    rw [value, memberValues_eq, Value.tokens, lexemes, memberLexemes_eq, hmembers]
    simp [Lexeme.token, Mark.token]

/-- A text that consists of the parts of a value holds it. -/
theorem holds_of_spells {o : Output} (h : o.Legible) {text : String}
    (htext : Spells o.lexemes text.toList) : Holds text.toUTF8.data.toList o.value :=
  holds_toUTF8 htext.isAscii (complete_value h) (htext.tokens_eq.trans (tokens_value h).symm)

/-- A text of the given parts and nothing else. -/
theorem spells_of_writes {ls : List Lexeme} {cs : List Char} (h : Writes ls cs) : Spells ls cs := by
  simpa using h ends_nil .nil

section Unique

variable {β : Type} {write : β → List Lexeme} {closing : Mark} {xs ys : List β}
  {rest rest' : List Lexeme}

/-- If each of several values is determined by its parts, whatever comes after them, then so is the
list of them with commas in front. -/
theorem separated_inj (hclosing : closing ≠ .comma)
    (hwrite : ∀ x ∈ xs, ∀ y ∈ ys, ∀ {rest rest'}, write x ++ rest = write y ++ rest' →
      x = y ∧ rest = rest')
    (h : (xs.flatMap fun x => .mark .comma :: write x) ++ .mark closing :: rest =
      (ys.flatMap fun y => .mark .comma :: write y) ++ .mark closing :: rest') :
    xs = ys ∧ rest = rest' := by
  induction xs generalizing ys with
  | nil =>
    cases ys with
    | nil => exact ⟨rfl, (List.cons.inj h).2⟩
    | cons y ys => exact absurd (Lexeme.mark.inj (List.cons.inj h).1) hclosing
  | cons x xs ih =>
    cases ys with
    | nil => exact absurd (Lexeme.mark.inj (List.cons.inj h).1).symm hclosing
    | cons y ys =>
      rw [List.flatMap_cons, List.flatMap_cons, List.append_assoc, List.append_assoc] at h
      obtain ⟨rfl, htail⟩ := hwrite x List.mem_cons_self y List.mem_cons_self (List.cons.inj h).2
      obtain ⟨rfl, hrest⟩ := ih (fun x hx y hy => hwrite x (List.mem_cons_of_mem _ hx) y
        (List.mem_cons_of_mem _ hy)) htail
      exact ⟨rfl, hrest⟩

/-- The same for the list of them with commas between them, if none of them starts with what closes
the list. -/
theorem intercalated_inj (hclosing : closing ≠ .comma)
    (hhead : ∀ x rest rest', write x ++ rest ≠ .mark closing :: rest')
    (hwrite : ∀ x ∈ xs, ∀ y ∈ ys, ∀ {rest rest'}, write x ++ rest = write y ++ rest' →
      x = y ∧ rest = rest')
    (h : [.mark .comma].intercalate (xs.map write) ++ .mark closing :: rest =
      [.mark .comma].intercalate (ys.map write) ++ .mark closing :: rest') :
    xs = ys ∧ rest = rest' := by
  cases xs with
  | nil =>
    cases ys with
    | nil => exact ⟨rfl, (List.cons.inj h).2⟩
    | cons y ys =>
      rw [List.map_cons, intercalate_cons_eq, List.append_assoc] at h
      exact absurd h.symm (hhead _ _ _)
  | cons x xs =>
    cases ys with
    | nil =>
      rw [List.map_cons, intercalate_cons_eq, List.append_assoc] at h
      exact absurd h (hhead _ _ _)
    | cons y ys =>
      rw [List.map_cons, List.map_cons, intercalate_cons_eq, intercalate_cons_eq,
        List.append_assoc, List.append_assoc, List.flatMap_map, List.flatMap_map] at h
      obtain ⟨rfl, htail⟩ := hwrite x List.mem_cons_self y List.mem_cons_self h
      obtain ⟨rfl, hrest⟩ := separated_inj hclosing (fun x hx y hy =>
        hwrite x (List.mem_cons_of_mem _ hx) y (List.mem_cons_of_mem _ hy)) htail
      exact ⟨rfl, hrest⟩

end Unique

/-- No value starts with the end of an array. -/
private theorem lexemes_append_ne (o : Output) (rest rest' : List Lexeme) :
    o.lexemes ++ rest ≠ .mark .closeArray :: rest' := by
  cases o <;> rw [lexemes] <;> nofun

/-- No member starts with the end of an object. -/
private theorem memberParts_append_ne (m : String × Output) (rest rest' : List Lexeme) :
    memberParts m ++ rest ≠ .mark .closeObject :: rest' := nofun

/-- An integer never has the text of a floating-point number. -/
theorem integerNumber_ne_tableNumber {n : Int} {x : Binary64} (h : x.IsProper) :
    integerNumber n ≠ tableNumber x := fun heq => by
  have hwhole := congrArg NumberText.isWhole heq
  rw [Decimal.isWhole_tableNumber h] at hwhole
  cases hwhole

/-- A value that can be written is determined by its parts, whatever comes after them. -/
theorem lexemes_append_inj {o o' : Output} (h : o.Legible) (h' : o'.Legible)
    {rest rest' : List Lexeme} (heq : o.lexemes ++ rest = o'.lexemes ++ rest') :
    o = o' ∧ rest = rest' := by
  induction h generalizing o' rest rest' with
  | integer n =>
    cases h' with
    | integer n' =>
      obtain ⟨hnumber, hrest⟩ := List.cons.inj heq
      exact ⟨congrArg integer (Decimal.integerNumber_inj (Lexeme.number.inj hnumber)), hrest⟩
    | decimal hx =>
      exact absurd (Lexeme.number.inj (List.cons.inj heq).1) (integerNumber_ne_tableNumber hx)
    | array | object => cases (List.cons.inj heq).1
  | decimal hx =>
    cases h' with
    | integer n' =>
      exact absurd (Lexeme.number.inj (List.cons.inj heq).1).symm (integerNumber_ne_tableNumber hx)
    | decimal hx' =>
      obtain ⟨hnumber, hrest⟩ := List.cons.inj heq
      exact ⟨congrArg decimal (Decimal.tableNumber_inj hx hx' (Lexeme.number.inj hnumber)), hrest⟩
    | array | object => cases (List.cons.inj heq).1
  | @array items _ ih =>
    cases h' with
    | integer | decimal | object => cases (List.cons.inj heq).1
    | @array items' h' =>
      have htail : [.mark .comma].intercalate (items.map lexemes) ++ .mark .closeArray :: rest =
          [.mark .comma].intercalate (items'.map lexemes) ++ .mark .closeArray :: rest' := by
        simpa [lexemes, itemLexemes_eq] using heq
      obtain ⟨rfl, hrest⟩ := intercalated_inj (by decide) lexemes_append_ne
        (fun o ho o' ho' {rest rest'} => ih o ho (h' o' ho')) htail
      exact ⟨rfl, hrest⟩
  | @object members _ _ ih =>
    cases h' with
    | integer | decimal | array => cases (List.cons.inj heq).1
    | @object members' _ h' =>
      have htail : [.mark .comma].intercalate (members.map memberParts) ++
            .mark .closeObject :: rest =
          [.mark .comma].intercalate (members'.map memberParts) ++ .mark .closeObject :: rest' := by
        simpa [lexemes, memberLexemes_eq] using heq
      have hmember : ∀ m ∈ members, ∀ m' ∈ members', ∀ {rest rest'},
          memberParts m ++ rest = memberParts m' ++ rest' → m = m' ∧ rest = rest' := by
        intro m hm m' hm' rest rest' heq
        obtain ⟨hkey, htail⟩ := List.cons.inj heq
        obtain ⟨hvalue, hrest⟩ := ih m hm (h' m' hm') (List.cons.inj htail).2
        exact ⟨Prod.ext (Lexeme.key.inj hkey) hvalue, hrest⟩
      obtain ⟨rfl, hrest⟩ := intercalated_inj (by decide) memberParts_append_ne hmember htail
      exact ⟨rfl, hrest⟩

/-- Two values are the same if a text consists of the parts of both. -/
theorem eq_of_spells {o o' : Output} (h : o.Legible) (h' : o'.Legible) {text : List Char}
    (htext : Spells o.lexemes text) (htext' : Spells o'.lexemes text) : o = o' := by
  have hlexemes : o.lexemes ++ [] = o'.lexemes ++ [] := by rw [htext.unique htext']
  exact (lexemes_append_inj h h' hlexemes).1

/-- The characters of texts with commas between them. -/
theorem flatMap_chars_intercalate {β : Type} {write : β → List Lexeme} {text : β → List Char}
    {xs : List β} (h : ∀ x ∈ xs, text x = (write x).flatMap Lexeme.chars) :
    [','].intercalate (xs.map text) =
      ([.mark .comma].intercalate (xs.map write)).flatMap Lexeme.chars := by
  cases xs with
  | nil => rfl
  | cons x xs =>
    rw [List.forall_mem_cons] at h
    rw [List.map_cons, List.map_cons, intercalate_cons_eq, intercalate_cons_eq, List.flatMap_append,
      List.flatMap_map, List.flatMap_map, List.flatMap_assoc, h.1]
    congr 1
    refine List.flatMap_congr fun y hy => ?_
    rw [List.flatMap_append, h.2 y hy]
    rfl

/-- The form on one line has no blanks between the parts. -/
theorem toList_compact {o : Output} (h : o.Legible) :
    o.compact.toList = o.lexemes.flatMap Lexeme.chars := by
  induction h with
  | integer n =>
    rw [lexemes, List.flatMap_singleton]
    exact (Decimal.chars_integerNumber n).symm
  | decimal h =>
    rw [lexemes, List.flatMap_singleton]
    exact (Decimal.chars_tableNumber h).symm
  | @array items _ ih =>
    have hitems := flatMap_chars_intercalate ih
    rw [compact, lexemes, compactItems_eq, itemLexemes_eq, String.toList_append,
      String.toList_append, String.toList_intercalate, List.map_map, List.flatMap_cons,
      List.flatMap_append, ← hitems, List.append_assoc]
    rfl
  | @object members _ _ ih =>
    have hmember : ∀ m ∈ members, (keyText m.1 ++ ":" ++ m.2.compact).toList =
        (memberParts m).flatMap Lexeme.chars := fun m hm => by
      simp [memberParts, toList_keyText, ih m hm, Lexeme.chars, Mark.char]
    have hmembers := flatMap_chars_intercalate hmember
    rw [compact, lexemes, compactMembers_eq, memberLexemes_eq, String.toList_append,
      String.toList_append, String.toList_intercalate, List.map_map, List.flatMap_cons,
      List.flatMap_append, ← hmembers, List.append_assoc]
    rfl

/-- Without blanks, a text that consists of the parts of a value is the form on one line. -/
theorem withoutBlanks_of_spells {o : Output} (h : o.Legible) {text : String}
    (htext : Spells o.lexemes text.toList) : withoutBlanks text = o.compact := by
  rw [withoutBlanks, htext.stripFrom_eq, ← toList_compact h, String.ofList_toList]

end Output

end FontMetrics.Json
