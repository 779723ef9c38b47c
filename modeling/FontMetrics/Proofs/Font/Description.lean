import FontMetrics.Font.Description
import FontMetrics.Proofs.Json.Rearrangement
import FontMetrics.Proofs.Json.Spelling
import FontMetrics.Proofs.Json.Strict

/-!
# Ways to write a font

The description of a font is made of twelve kinds of records, one inside the other.  However each of
them is written, the same font is read.
-/

namespace FontMetrics

open Json (Decoder Holds Rearranges Record Value)

/-- No record of a font has two fields with one key. -/
theorem nodup_names :
    HeadTable.record.names.Nodup ∧ Os2Table.record.names.Nodup ∧ PostTable.record.names.Nodup ∧
      HorizontalMetric.record.names.Nodup ∧ CharGroup.record.names.Nodup ∧
      CharSegment.record.names.Nodup ∧ CmapSubtable.record.names.Nodup ∧ Cmap.record.names.Nodup ∧
      PrivateDict.record.names.Nodup ∧ TopDict.record.names.Nodup ∧ CffTable.record.names.Nodup ∧
      FontDescription.record.names.Nodup := by
  decide

namespace FontDescription

/-- Whatever is decoded as a font keeps the rules of the notation, from the outside to the inside. -/
theorem strict_record : record.Strict := by
  have hbytes : charStringsDecoder.Strict := ((Decoder.strict_integer 0 255).map _).list.list.map _
  have hhead : HeadTable.record.Strict := by simp [HeadTable.record, Decoder.uint16]
  have hos2 : Os2Table.record.Strict := by
    simp [Os2Table.record, Os2Table.optionalField, Os2Table.field, Decoder.int16]
  have hpost : PostTable.record.Strict := by simp [PostTable.record, Decoder.int16]
  have hmetric : HorizontalMetric.record.Strict := by
    simp [HorizontalMetric.record, Decoder.uint16, Decoder.int16]
  have hgroup : CharGroup.record.Strict := by simp [CharGroup.record, Decoder.uint32]
  have hsegment : CharSegment.record.Strict := by
    simp [CharSegment.record, Decoder.uint16, Decoder.int32]
  have hsubtable : CmapSubtable.record.Strict := by
    simp [CmapSubtable.record, Decoder.uint16, hgroup, hsegment]
  have hcmap : Cmap.record.Strict := by simp [Cmap.record, hsubtable]
  have hprivate : PrivateDict.record.Strict := by simp [PrivateDict.record, hbytes]
  have htop : TopDict.record.Strict := by simp [TopDict.record, hprivate, hbytes]
  have hcff : CffTable.record.Strict := by simp [CffTable.record, htop, hbytes]
  have hmetrics := (Record.strict_decode hmetric).list.map List.toArray
  simp [record, hhead, hos2, hpost, hmetrics, hcmap, hcff]

/-- A text from which a font is read holds a value, and from every text in whose value the records
are written differently the same font is read. -/
theorem ofJson_of_rearranges {text : List UInt8} {font : FontDescription}
    (hfont : ofJson text = .ok font) :
    ∃ value, Holds text value ∧ ∀ (value' : Value) (text' : List UInt8),
      Rearranges record.decode value value' → Holds text' value' → ofJson text' = .ok font := by
  have hstrict : record.decode.Strict := Record.strict_decode strict_record
  obtain ⟨value, htext, hvalue⟩ := hstrict.decode_eq_ok_iff.mp hfont
  refine ⟨value, htext, fun value' text' h htext' => ?_⟩
  exact hstrict.decode_eq_ok_iff.mpr ⟨value', htext', h.decode_eq hvalue⟩

/-- The `post` table becomes an array, the outlines, of which there are none, are left out, an
unknown member is added, and the `head` table moves to the end. -/
theorem ofJson_of_rearranges_small :
    let text := ("\x7b\"head\":[9],\"OS/2\":[null,null,null,0,0,0,0,0,0,0,0]," ++
      "\"post\":\x7b\"underlinePosition\":0\x7d,\"hmtx\":[],\"cmap\":[[]]," ++
      "\"cff\":null\x7d").toUTF8.data.toList
    let text' := ("\x7b\"OS/2\":[null,null,null,0,0,0,0,0,0,0,0]," ++
      "\"post\":[0],\"hmtx\":[],\"cmap\":[[]],\"x\":\x7b\x7d,\"head\":[9]\x7d").toUTF8.data.toList
    let font : FontDescription :=
      ⟨⟨9⟩, ⟨none, none, none, 0, 0, 0, 0, 0, 0, 0, 0⟩, ⟨0⟩, #[], ⟨[]⟩, none⟩
    ofJson text = .ok font ∧ ofJson text' = .ok font := by
  intro text text' font
  let zero : Value := .number (.integer 0)
  let empty : Value := .array [] .closed
  let head : Json.Text × Value := (.ok "head", .array [.number (.integer 9)] .closed)
  let os2 : Json.Text × Value :=
    (.ok "OS/2", .array [.null, .null, .null, zero, zero, zero, zero, zero, zero, zero, zero] .closed)
  let post : Value := .object [(.ok "underlinePosition", zero)] .closed
  let post' : Value := .array [zero] .closed
  let hmtx : Json.Text × Value := (.ok "hmtx", empty)
  let cmap : Json.Text × Value := (.ok "cmap", .array [empty] .closed)
  let unknown : Json.Text × Value := (.ok "x", .object [] .closed)
  have htext : Holds text
      (.object [head, os2, (.ok "post", post), hmtx, cmap, (.ok "cff", .null)] .closed) :=
    Json.holds_toUTF8 (Json.forall_of_all (by decide +kernel)) (Value.skip_eq_ok_iff.mp rfl) (by
      simp only [String.toList_append, String.reduceToList, List.cons_append, List.nil_append]
      repeat refine (Json.tokens_cons rfl rfl).trans (congrArg _ ?_)
      exact Json.tokens_nil)
  have htext' : Holds text'
      (.object [os2, (.ok "post", post'), hmtx, cmap, unknown, head] .closed) :=
    Json.holds_toUTF8 (Json.forall_of_all (by decide +kernel)) (Value.skip_eq_ok_iff.mp rfl) (by
      simp only [String.toList_append, String.reduceToList, List.cons_append, List.nil_append]
      repeat refine (Json.tokens_cons rfl rfl).trans (congrArg _ ?_)
      exact Json.tokens_nil)
  obtain ⟨-, -, hpostNames, -, -, -, -, -, -, -, -, hnames⟩ := nodup_names
  have hpost : Rearranges PostTable.record.decode post post' := by
    refine .record hpostNames (.list (Nat.le_refl _) fun n name hname => ?_)
    cases n with
    | zero =>
      cases hname
      rfl
    | succ n => cases hname
  have hcff : record.Rewrites
      (.object [head, os2, (.ok "post", post), hmtx, cmap, (.ok "cff", .null)] .closed)
      (.object [head, os2, (.ok "post", post), hmtx, cmap] .closed) :=
    @Record.Rewrites.leaveOut _ _ _ _ _ none .null [head, os2, (.ok "post", post), hmtx, cmap] []
      (.last _ _) rfl rfl
  have hfield : record.HasField 2 (.required "post" PostTable.record.decode) :=
    .earlier (.earlier (.earlier (.last _ _) _) _) _
  have hmember : Rearranges record.decode
      (.object [head, os2, (.ok "post", post), hmtx, cmap] .closed)
      (.object [head, os2, (.ok "post", post'), hmtx, cmap] .closed) :=
    @Rearranges.member _ _ _ _ _ post post' [head, os2] [hmtx, cmap] hnames hfield hpost
  have hunknown : record.Rewrites
      (.object [head, os2, (.ok "post", post'), hmtx, cmap] .closed)
      (.object [head, os2, (.ok "post", post'), hmtx, cmap, unknown] .closed) :=
    @Record.Rewrites.add _ _ [head, os2, (.ok "post", post'), hmtx, cmap] [] "x" _ (by decide)
      (.object (by simp))
  have hhead : record.Rewrites
      (.object [head, os2, (.ok "post", post'), hmtx, cmap, unknown] .closed)
      (.object [os2, (.ok "post", post'), hmtx, cmap, unknown, head] .closed) :=
    .reorder (List.perm_append_singleton head [os2, (.ok "post", post'), hmtx, cmap, unknown]).symm
  have hfont : ofJson text = .ok font :=
    (Record.strict_decode strict_record).decode_eq_ok_iff.mpr ⟨_, htext, rfl⟩
  obtain ⟨value, hvalue, hrearranged⟩ := ofJson_of_rearranges hfont
  obtain rfl := hvalue.unique htext
  refine ⟨hfont, hrearranged _ _ ?_ htext'⟩
  exact .trans (.record hnames hcff) (.trans hmember
    (.trans (.record hnames hunknown) (.record hnames hhead)))

end FontDescription

end FontMetrics
