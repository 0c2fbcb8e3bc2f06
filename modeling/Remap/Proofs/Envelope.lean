import Remap.Proofs.PrintedText
import Remap.Proofs.StoredDocuments
import Remap.Stream.Runner

/-!
Lines with metadata.  Such a line is the JSON text of an object of the content and the metadata of a
part.  Since the printer escapes whatever could end a string or a line, the object is read back from
the line as it was, and the part can be told from it.
-/

namespace Remap

variable {ε : Type}

namespace Value

/-- The entries of a dictionary of texts, as fields. -/
def textFields (entries : Entries String) : List (String × Value) :=
  entries.map fun entry => (entry.1, .string entry.2)

theorem exactFields_textFields (entries : Entries String) :
    ExactFields (textFields entries) := by
  induction entries with
  | nil => trivial
  | cons entry rest ih => exact ⟨trivial, ih⟩

theorem depthFields_textFields (entries : Entries String) :
    depthFields (textFields entries) = 0 := by
  induction entries with
  | nil => rfl
  | cons entry rest ih => exact ih

theorem mem_textFields {entries : Entries String} {key : String} {value : Value} :
    (key, value) ∈ textFields entries ↔ ∃ text, value = .string text ∧ (key, text) ∈ entries := by
  simp only [textFields, List.mem_map, Prod.mk.injEq, Prod.exists]
  constructor
  · rintro ⟨_, text, hmem, rfl, rfl⟩
    exact ⟨text, rfl, hmem⟩
  · rintro ⟨text, rfl, hmem⟩
    exact ⟨key, text, hmem, rfl, rfl⟩

theorem textFields_inj {first second : Entries String} (h : textFields first = textFields second) :
    first = second := by
  refine (List.map_inj_right ?_).mp h
  rintro ⟨key, text⟩ ⟨key', text'⟩ hentry
  cases hentry
  rfl

end Value

/-- The fields of the object that holds the metadata. -/
theorem Metadata.toValue_eq (metadata : Metadata) :
    metadata.toValue = .object (Value.textFields metadata.entries) := rfl

theorem Metadata.toValue_inj {first second : Metadata} (h : first.toValue = second.toValue) :
    first = second :=
  Dictionary.ext (Value.textFields_inj (Value.object.inj h))

namespace Part

/-- The object of the content and the metadata of a part. -/
def envelope (part : Part) : Value :=
  .object [("content", .string (String.ofList part.text)), ("metadata", part.metadata.toValue)]

theorem sorted_envelope (part : Part) : part.envelope.Sorted := by
  have hkeys : "content" < "metadata" := by decide
  exact ⟨List.pairwise_pair.mpr hkeys, trivial, part.metadata.sorted_toValue, trivial⟩

theorem exact_envelope (part : Part) : part.envelope.Exact :=
  ⟨trivial, Value.exactFields_textFields part.metadata.entries, trivial⟩

theorem depth_envelope (part : Part) : part.envelope.depth = 2 := by
  have hmetadata : part.metadata.toValue.depth = 1 :=
    congrArg (· + 1) (Value.depthFields_textFields part.metadata.entries)
  simp only [envelope, Value.depth, Value.depthFields, hmetadata]
  rfl

/-- The envelope is read back from its text, whatever the content and the entries are. -/
theorem read?_print_envelope (part : Part) :
    Json.read? (Json.print part.envelope) = some part.envelope := by
  rw [Json.read?_print part.sorted_envelope part.exact_envelope, depth_envelope,
    if_pos (by decide)]

/-- Parts whose contents are UTF-8 can be told from their envelopes. -/
theorem envelope_inj {first second : Part} {text text' : List Char}
    (hfirst : Utf8.decode first.content = .ok text)
    (hsecond : Utf8.decode second.content = .ok text') (h : first.envelope = second.envelope) :
    first = second := by
  have hfields := Value.object.inj h
  simp only [List.cons.injEq, Prod.mk.injEq, Value.string.injEq, String.ofList_inj, true_and,
    and_true] at hfields
  obtain ⟨htexts, hmetadata⟩ := hfields
  rw [Part.text, Part.text, Utf8.decodeLossy_eq_of_decode hfirst,
    Utf8.decodeLossy_eq_of_decode hsecond] at htexts
  rw [Utf8.decode_eq_ok_iff, htexts] at hfirst
  rw [Utf8.decode_eq_ok_iff, ← hfirst] at hsecond
  obtain ⟨content, metadata⟩ := first
  obtain ⟨content', metadata'⟩ := second
  rw [Part.mk.injEq]
  exact ⟨hsecond.symm, Metadata.toValue_inj hmetadata⟩

end Part

namespace Runner

variable {runner : Runner ε}

theorem render_eq_envelope (h : runner.withMetadata = true) (part : Part) :
    runner.render part = Json.print part.envelope := by
  rw [render, if_pos h]
  rfl

/-- With metadata, a part whose content is UTF-8 is rendered as a text without line feeds and
carriage returns from which an object with two fields is read: the text of the content, and an
object of strings that are the entries of the metadata and no others.  So parts that are rendered
as the same line are the same. -/
theorem render_withMetadata (runner : Runner ε) (h : runner.withMetadata = true) (part : Part)
    (text : List Char) (htext : Utf8.decode part.content = .ok text) :
    '\n' ∉ runner.render part ∧ '\r' ∉ runner.render part ∧
    (∃ fields : List (String × Value),
      Json.read? (runner.render part) = some (.object
        [("content", .string (String.ofList text)), ("metadata", .object fields)]) ∧
      Entries.Sorted fields ∧
      ∀ key value, (key, value) ∈ fields ↔
        ∃ entry, value = .string entry ∧ part.metadata.get? key = some entry) ∧
    ∀ (other : Part) (otherText : List Char), Utf8.decode other.content = .ok otherText →
      runner.render other = runner.render part → other = part := by
  rw [render_eq_envelope h]
  have hlegible := Json.legible_print part.envelope
  refine ⟨hlegible.lineFeed_not_mem, ?_, ⟨Value.textFields part.metadata.entries, ?_, ?_, ?_⟩, ?_⟩
  · intro hmem
    exact absurd (hlegible.printed '\r' hmem) (by decide)
  · rw [part.read?_print_envelope, Part.envelope, Part.text,
      Utf8.decodeLossy_eq_of_decode htext, Metadata.toValue_eq]
  · exact (part.metadata.map Value.string).sorted
  · intro key value
    simp only [Value.mem_textFields, part.metadata.mem_entries_iff]
  · intro other otherText hother hlines
    rw [render_eq_envelope h] at hlines
    have hread := other.read?_print_envelope
    rw [hlines, part.read?_print_envelope] at hread
    exact Part.envelope_inj hother htext (Option.some.inj hread).symm

/-- A part whose content and metadata are full of what ends strings, objects and lines. -/
def unrulyPart : Part where
  content := Utf8.encode "\"\x7d\r\n\\é\x01".toList
  metadata := Dictionary.empty.insert "a\nb\"" "\x7d,"

theorem render_withMetadata_of_unrulyPart :
    (⟨⟨.empty, []⟩, .fail, true⟩ : Runner Expr).withMetadata = true ∧
    Utf8.decode unrulyPart.content = .ok "\"\x7d\r\n\\é\x01".toList ∧
    (⟨⟨.empty, []⟩, .fail, true⟩ : Runner Expr).render unrulyPart =
      ("\x7b\"content\":\"\\\"\x7d\\r\\n\\\\é\\u0001\"," ++
        "\"metadata\":\x7b\"a\\nb\\\"\":\"\x7d,\"\x7d\x7d").toList ∧
    ∃ fields,
      Json.read? ((⟨⟨.empty, []⟩, .fail, true⟩ : Runner Expr).render unrulyPart) = some (.object
        [("content", .string "\"\x7d\r\n\\é\x01"), ("metadata", .object fields)]) ∧
      ("a\nb\"", .string "\x7d,") ∈ fields := by
  have htext : Utf8.decode unrulyPart.content = .ok "\"\x7d\r\n\\é\x01".toList :=
    Utf8.decode_encode _
  obtain ⟨-, -, ⟨fields, hread, -, hfields⟩, -⟩ :=
    render_withMetadata (⟨⟨.empty, []⟩, .fail, true⟩ : Runner Expr) rfl unrulyPart _ htext
  exact ⟨rfl, htext, by decide +kernel, fields, hread, (hfields _ _).mpr ⟨_, rfl, rfl⟩⟩

end Runner

end Remap
