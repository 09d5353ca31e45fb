import ManagedCode.Proofs.Image.Layouts

/-! An image is read back from the text it is written as. Tables with rows follow all values, and those without are
empty lists among the values; either way the reader finds one list under the name of each table, so that only the order
of the fields depends on it. -/

namespace ManagedCode.Image

open Toml

variable (image : Image)

/-- The numbers of an image are at most the largest that 64 bits with a sign hold. Tokens, offsets and lengths have 32
bits. -/
structure NumbersFit : Prop where
  locals : ∀ m ∈ image.methods, m.locals ≤ 0x7FFFFFFFFFFFFFFF
  params : ∀ m ∈ image.methods, m.signature.paramCount ≤ 0x7FFFFFFFFFFFFFFF
  refParams : ∀ r ∈ image.memberRefs, ∀ s ∈ r.signature, s.paramCount ≤ 0x7FFFFFFFFFFFFFFF

variable {image} in
theorem NumbersFit.methods (hfit : image.NumbersFit) : ∀ m ∈ image.methods, MethodDef.layout.fits m := by
  intro m hm
  have hlocals := hfit.locals m hm
  have hparams := hfit.params m hm
  exact ⟨by omega, by omega⟩

variable {image} in
theorem NumbersFit.memberRefs (hfit : image.NumbersFit) : ∀ r ∈ image.memberRefs, MemberRef.layout.fits r := by
  intro r hr s hs
  have hparams := hfit.refParams r hr s hs
  omega

/-- The image as a document. -/
def document : Document where
  first := [("name", .text image.name), ("entry_point", .int image.entryPoint.value.toNat)]
  lists := [TypeDef.layout.listing image.types, TypeRef.layout.listing image.typeRefs,
    FieldDef.layout.listing image.fields, MethodDef.layout.listing image.methods,
    MemberRef.layout.listing image.memberRefs]
  last := [("strings", .array (image.strings.map .text))]

/-- The lines of an image by the layouts of its rows. -/
theorem lines_eq : image.lines =
    [.value "name" (.text image.name), .value "entry_point" image.entryPoint.literal] ++
      emptyLine TypeDef.layout.key image.types ++ emptyLine TypeRef.layout.key image.typeRefs ++
      emptyLine FieldDef.layout.key image.fields ++ emptyLine MethodDef.layout.key image.methods ++
      emptyLine MemberRef.layout.key image.memberRefs ++ [.value "strings" (.texts image.strings)] ++
      image.types.flatMap TypeDef.layout.lines ++ image.typeRefs.flatMap TypeRef.layout.lines ++
      image.fields.flatMap FieldDef.layout.lines ++ image.methods.flatMap MethodDef.layout.lines ++
      image.memberRefs.flatMap MemberRef.layout.lines := rfl

theorem statements_lines : image.lines.map Line.toStatement = image.document.statements := by
  simp only [lines_eq, List.map_append, RowLayout.statements_rows, RowLayout.statements_emptyLine]
  simp [document, Document.statements, Document.values, valueStatements, valuesOf, Line.toStatement, Literal.toData,
    Token.literal]

theorem keys_nodup : (image.document.fields.map Prod.fst).Nodup := by
  show ["name", "entry_point", "types", "type_refs", "fields", "methods", "member_refs", "strings"].Nodup
  decide

variable {image}

theorem plain_lines (hfit : image.NumbersFit) : ∀ line ∈ image.lines, line.Plain := by
  rw [lines_eq]
  simp only [List.forall_mem_append, and_assoc]
  refine ⟨?_, plain_emptyLine (by decide) _, plain_emptyLine (by decide) _, plain_emptyLine (by decide) _,
    plain_emptyLine (by decide) _, plain_emptyLine (by decide) _, ?_, TypeDef.layout.plain_rows fun _ _ => trivial,
    TypeRef.layout.plain_rows fun _ _ => trivial, FieldDef.layout.plain_rows fun _ _ => trivial,
    MethodDef.layout.plain_rows hfit.methods, MemberRef.layout.plain_rows hfit.memberRefs⟩
  · simp +decide [Token.literal, Line.Plain, Literal.Fits, word_lt]
  · simp +decide [Line.Plain, Literal.Fits]

theorem toToml_eq (hfit : image.NumbersFit) : image.toToml = .ok (render image.lines) := by
  have hnone : image.lines.find? (fun line => !line.isWritable) = none := by
    refine List.find?_eq_none.2 fun line hline => ?_
    simp [(plain_lines hfit line hline).isWritable]
  rw [toToml, hnone]

/-- **The document of an image reads as the image.** -/
theorem read_document (hfit : image.NumbersFit) : Reader.image .toml image.document.entries.toData = .ok image := by
  have htypes : Reader.list (Reader.typeDef .toml) (TypeDef.layout.listing image.types).field.2 = .ok image.types :=
    TypeDef.layout.read_rows fun _ _ => trivial
  have htypeRefs : Reader.list (Reader.typeRef .toml) (TypeRef.layout.listing image.typeRefs).field.2 =
      .ok image.typeRefs := TypeRef.layout.read_rows fun _ _ => trivial
  have hfields : Reader.list (Reader.fieldDef .toml) (FieldDef.layout.listing image.fields).field.2 =
      .ok image.fields := FieldDef.layout.read_rows fun _ _ => trivial
  have hmethods : Reader.list (Reader.methodDef .toml) (MethodDef.layout.listing image.methods).field.2 =
      .ok image.methods := MethodDef.layout.read_rows hfit.methods
  have hmemberRefs : Reader.list (Reader.memberRef .toml) (MemberRef.layout.listing image.memberRefs).field.2 =
      .ok image.memberRefs := MemberRef.layout.read_rows hfit.memberRefs
  have hstrings : Reader.list Reader.text (.array (image.strings.map .text)) = .ok image.strings :=
    Reader.list_map fun s _ => Reader.text_text s
  have hdocument : image.document.fields = [("name", .text image.name),
      ("entry_point", .int image.entryPoint.value.toNat), ("types", (TypeDef.layout.listing image.types).field.2),
      ("type_refs", (TypeRef.layout.listing image.typeRefs).field.2),
      ("fields", (FieldDef.layout.listing image.fields).field.2),
      ("methods", (MethodDef.layout.listing image.methods).field.2),
      ("member_refs", (MemberRef.layout.listing image.memberRefs).field.2),
      ("strings", .array (image.strings.map .text))] := rfl
  rw [Entries.toData_eq]
  refine (Fields.read_ofFields image.document.fields_entries image.keys_nodup ?_ _ _).trans ?_
  · rw [hdocument]
    simp [List.lookup_cons, htypes, htypeRefs, hfields, hmethods, hmemberRefs, hstrings]
  · rw [hdocument]
    simp [List.lookup_cons, htypes, htypeRefs, hfields, hmethods, hmemberRefs, hstrings]

/-- **An image is read back from its text**, whatever it holds, if its numbers fit. -/
theorem toml_round_trip (hfit : image.NumbersFit) :
    ∃ text, image.toToml = .ok text ∧ Image.parse .toml text = .ok image := by
  refine ⟨render image.lines, toToml_eq hfit, ?_⟩
  have hparse : Toml.parse (render image.lines) = some image.document.entries.toData := by
    rw [parse_render (plain_lines hfit), statements_lines, Document.ofStatements_eq _ image.keys_nodup]
    rfl
  simp only [Image.parse, ofToml, hparse, read_document hfit]
  rfl

/-- An image with texts that are hard to quote, the largest numbers, and fields both missing and present. -/
def awkward : Image where
  name := "both \" and ' and \\, two\nlines\r and \x07\x7f"
  entryPoint := ⟨0xFFFFFFFF⟩
  types := [{ space := "'''", name := "\"\"\"", base := some "" }, { name := "\n" }]
  fields := [{ owner := ⟨0x02000001⟩, name := "[[types]] # = 'x'" }]
  methods := [
    { owner := ⟨0x02000001⟩, name := "", signature := { paramCount := 0x7FFFFFFFFFFFFFFF, isInstance := true },
      locals := 0x7FFFFFFFFFFFFFFF, code := [0x00, 0x2A, 0xFF],
      regions := [
        { kind := .catching, tryOffset := 0, tryLength := 0xFFFFFFFF, handlerOffset := 1, catchType := some ⟨0⟩ },
        { kind := .finalizing, tryOffset := 1, tryLength := 1, handlerOffset := 2, handlerLength := 1 }] },
    { owner := ⟨0x02000002⟩, name := "\t" }]
  memberRefs := [{ parent := ⟨0x01000001⟩, name := "''" },
    { parent := ⟨0x01000001⟩, name := "\\n", signature := some { paramCount := 1, returnsVoid := true } }]
  strings := ["", "\"\"\" and '''", "\r\n"]

theorem toml_round_trip_awkward : awkward.NumbersFit ∧
    ∃ text, awkward.toToml = .ok text ∧ Image.parse .toml text = .ok awkward := by
  have hfit : awkward.NumbersFit := ⟨by decide, by decide, by decide⟩
  exact ⟨hfit, toml_round_trip hfit⟩

end ManagedCode.Image
