import ManagedCode.Image.Write
import ManagedCode.Proofs.Document.Lines
import ManagedCode.Proofs.Document.Tables
import ManagedCode.Proofs.Image.CodeText

/-! How the rows of an image stand in a document. Each kind of row has its lines, the table these make, and the reader
that finds the row in that table again: optional fields that were left out come back as missing, and what stands under
a row, its signature and its regions, is read from the tables under its own. -/

namespace ManagedCode

open Toml

/-- How the rows of a table stand in a document: the lines a row is written as, the table these make, and the reader
that finds the row in it, given that its numbers fit. -/
structure RowLayout (α : Type) where
  key : String
  lines : α → List Line
  read : Reader α
  fits : α → Prop
  row : α → Row
  plain : ∀ a, fits a → ∀ line ∈ lines a, line.Plain
  statements : ∀ a, (lines a).map Line.toStatement = ((row a).sections key).flatMap Section.statements
  reads : ∀ a, fits a → read (row a).data = .ok a

theorem plain_emptyLine {α : Type} {key : String} (hkey : Bare key) (rows : List α) :
    ∀ line ∈ emptyLine key rows, line.Plain := by
  cases rows <;> simp [emptyLine, Line.Plain, Literal.Fits, hkey]

namespace RowLayout

variable {α : Type} (layout : RowLayout α)

/-- The table of the given rows. -/
def listing (rows : List α) : Listing where
  key := layout.key
  rows := rows.map layout.row

theorem statements_rows (rows : List α) :
    (rows.flatMap layout.lines).map Line.toStatement = (layout.listing rows).sections.flatMap Section.statements := by
  simp only [Listing.sections, listing, List.map_flatMap, List.flatMap_map, List.flatMap_assoc, layout.statements]

theorem statements_emptyLine (rows : List α) : (emptyLine layout.key rows).map Line.toStatement =
    valueStatements (valuesOf (layout.listing rows).emptied) := by
  cases rows <;> rfl

variable {rows : List α}

theorem plain_rows (hrows : ∀ a ∈ rows, layout.fits a) : ∀ line ∈ rows.flatMap layout.lines, line.Plain := by
  intro line hline
  obtain ⟨a, ha, hline⟩ := List.mem_flatMap.1 hline
  exact layout.plain a (hrows a ha) line hline

theorem read_rows (hrows : ∀ a ∈ rows, layout.fits a) :
    Reader.list layout.read (layout.listing rows).field.2 = .ok rows := by
  show Reader.list layout.read (.array ((rows.map layout.row).map Row.data)) = .ok rows
  rw [List.map_map]
  exact Reader.list_map fun a ha => layout.reads a (hrows a ha)

end RowLayout

theorem word_lt (w : UInt32) : w.toNat < 0x8000000000000000 :=
  (UInt32.toNat_lt w).trans (by decide)

/-! ### Rows of values -/

namespace TypeDef

def fields (t : TypeDef) : List (String × Data) :=
  [("namespace", .text t.space), ("name", .text t.name)] ++ (t.base.map fun base => ("extends", .text base)).toList

theorem keys_nodup (t : TypeDef) : (t.fields.map Prod.fst).Nodup := by
  cases h : t.base <;> simp [fields, h]

theorem read_fields (t : TypeDef) : Reader.typeDef .toml (.ofFields t.fields) = .ok t := by
  obtain ⟨space, name, base⟩ := t
  cases base with
  | none =>
      refine (Fields.read_ofFields (.refl _) (keys_nodup _) ?_ _ _).trans ?_
      · simp [fields, List.lookup_cons]
      · simp [fields, List.lookup_cons, Fields.optional]
  | some base =>
      refine (Fields.read_ofFields (.refl _) (keys_nodup _) ?_ _ _).trans ?_
      · simp [fields, List.lookup_cons, Fields.optional]
      · simp [fields, List.lookup_cons, Fields.optional]

def layout : RowLayout TypeDef where
  key := "types"
  lines := lines
  read := Reader.typeDef .toml
  fits _ := True
  row t := .ofFields t.fields t.keys_nodup
  plain t _ := by cases h : t.base <;> simp +decide [lines, optionalLine, h, Line.Plain, Literal.Fits]
  statements t := by
    obtain ⟨space, name, base⟩ := t
    cases base <;> rfl
  reads t _ := by rw [Row.data_ofFields, read_fields]

end TypeDef

namespace TypeRef

def fields (t : TypeRef) : List (String × Data) :=
  [("namespace", .text t.space), ("name", .text t.name)]

theorem keys_nodup (t : TypeRef) : (t.fields.map Prod.fst).Nodup := by
  simp [fields]

theorem read_fields (t : TypeRef) : Reader.typeRef .toml (.ofFields t.fields) = .ok t := by
  refine (Fields.read_ofFields (.refl _) (keys_nodup _) ?_ _ _).trans ?_
  · simp [fields, List.lookup_cons]
  · simp [fields, List.lookup_cons]

def layout : RowLayout TypeRef where
  key := "type_refs"
  lines := lines
  read := Reader.typeRef .toml
  fits _ := True
  row t := .ofFields t.fields t.keys_nodup
  plain t _ := by simp +decide [lines, Line.Plain, Literal.Fits]
  statements _ := rfl
  reads t _ := by rw [Row.data_ofFields, read_fields]

end TypeRef

namespace FieldDef

def fields (f : FieldDef) : List (String × Data) :=
  [("owner", .int f.owner.value.toNat), ("name", .text f.name)]

theorem keys_nodup (f : FieldDef) : (f.fields.map Prod.fst).Nodup := by
  simp [fields]

theorem read_fields (f : FieldDef) : Reader.fieldDef .toml (.ofFields f.fields) = .ok f := by
  refine (Fields.read_ofFields (.refl _) (keys_nodup _) ?_ _ _).trans ?_
  · simp [fields, List.lookup_cons]
  · simp [fields, List.lookup_cons]

def layout : RowLayout FieldDef where
  key := "fields"
  lines := lines
  read := Reader.fieldDef .toml
  fits _ := True
  row f := .ofFields f.fields f.keys_nodup
  plain f _ := by simp +decide [lines, Token.literal, Line.Plain, Literal.Fits, word_lt]
  statements _ := rfl
  reads f _ := by rw [Row.data_ofFields, read_fields]

end FieldDef

/-! ### Signatures and regions -/

namespace Signature

def fields (s : Signature) : List (String × Data) :=
  [("param_count", .int s.paramCount), ("is_instance", .bool s.isInstance), ("returns_void", .bool s.returnsVoid)]

theorem keys_nodup (s : Signature) : (s.fields.map Prod.fst).Nodup := by
  simp [fields]

theorem read_fields {s : Signature} (hs : s.paramCount < 0x8000000000000000) :
    Reader.signature .toml (.ofFields s.fields) = .ok s := by
  have hcount := Reader.count_int hs
  refine (Fields.read_ofFields (.refl _) s.keys_nodup ?_ _ _).trans ?_
  · simp [fields, List.lookup_cons, hcount]
  · simp [fields, List.lookup_cons, hcount]

theorem statements_lines (s : Signature) : s.lines.map Line.toStatement = valueStatements (valuesOf s.fields) := rfl

theorem fields_table (s : Signature) : Entries.fields [("signature", .table .stated (leaves s.fields))] =
    [("signature", .ofFields s.fields)] := by
  show [("signature", (Node.table .stated (leaves s.fields)).toData)] = _
  rw [toData_table, fields_leaves]

theorem plain_lines {s : Signature} (hs : s.paramCount < 0x8000000000000000) : ∀ line ∈ s.lines, line.Plain := by
  simp +decide [lines, Line.Plain, Literal.Fits, hs]

end Signature

namespace Region

def fields (r : Region) : List (String × Data) :=
  [("kind", .text r.kind.name), ("try_offset", .int r.tryOffset.toNat), ("try_length", .int r.tryLength.toNat),
    ("handler_offset", .int r.handlerOffset.toNat), ("handler_length", .int r.handlerLength.toNat)] ++
    (r.catchType.map fun t => ("catch_type", .int t.value.toNat)).toList

theorem keys_nodup (r : Region) : (r.fields.map Prod.fst).Nodup := by
  cases h : r.catchType <;> simp [fields, h]

theorem read_kind (kind : RegionKind) : Reader.regionKind .toml (.text kind.name) = .ok kind := by
  cases kind <;> rfl

theorem read_fields (r : Region) : Reader.region .toml (.ofFields r.fields) = .ok r := by
  obtain ⟨kind, tryOffset, tryLength, handlerOffset, handlerLength, catchType⟩ := r
  have hkind := read_kind kind
  cases catchType with
  | none =>
      refine (Fields.read_ofFields (.refl _) (keys_nodup _) ?_ _ _).trans ?_
      · simp [fields, List.lookup_cons, hkind]
      · simp [fields, List.lookup_cons, hkind, Fields.optional]
  | some t =>
      refine (Fields.read_ofFields (.refl _) (keys_nodup _) ?_ _ _).trans ?_
      · simp [fields, List.lookup_cons, hkind, Fields.optional]
      · simp [fields, List.lookup_cons, hkind, Fields.optional]

theorem statements_lines (r : Region) : r.lines.map Line.toStatement = valueStatements (valuesOf r.fields) := by
  obtain ⟨kind, tryOffset, tryLength, handlerOffset, handlerLength, catchType⟩ := r
  cases catchType <;> rfl

theorem plain_lines (r : Region) : ∀ line ∈ r.lines, line.Plain := by
  cases h : r.catchType <;> simp +decide [lines, optionalLine, h, Token.literal, Line.Plain, Literal.Fits, word_lt]

/-- Regions as a table of their own, to be put under a method. -/
def layout : RowLayout Region where
  key := "regions"
  lines r := .tables ["regions"] :: r.lines
  read := Reader.region .toml
  fits _ := True
  row r := .ofFields r.fields r.keys_nodup
  plain r _ := by
    rw [List.forall_mem_cons]
    exact ⟨by simp +decide [Line.Plain], r.plain_lines⟩
  statements r := by
    rw [List.map_cons, statements_lines]
    exact (List.append_nil _).symm
  reads r _ := by rw [Row.data_ofFields, read_fields]

end Region

/-! ### Rows with tables under them -/

namespace MethodDef

def values (m : MethodDef) : List (String × Data) :=
  [("owner", .int m.owner.value.toNat), ("name", .text m.name), ("locals", .int m.locals),
    ("code", .text (CodeText.encode m.code))]

/-- The sections under a method. -/
def inner (m : MethodDef) : List Section :=
  .table ["signature"] (valuesOf m.signature.fields) :: (Region.layout.listing m.regions).sections

def entries (m : MethodDef) : Entries :=
  leaves m.values ++ [("signature", .table .stated (leaves m.signature.fields))] ++
    (Region.layout.listing m.regions).entries

theorem keys_nodup (m : MethodDef) : (m.values.map Prod.fst).Nodup := by
  simp [values]

theorem made_inner (m : MethodDef) : (leaves m.values).addSections m.inner = some m.entries := by
  have hsignature : "signature" ∉ (leaves m.values).map Prod.fst := by simp [values]
  have hregions : "regions" ∉ (leaves m.values ++ [("signature", Node.table .stated (leaves m.signature.fields))]).map
      Prod.fst := by simp [values]
  rw [inner, Entries.addSections_cons, Entries.addSection_table hsignature m.signature.keys_nodup]
  exact (Region.layout.listing m.regions).addSections_eq fun _ => hregions

theorem path_inner (m : MethodDef) : ∀ sec ∈ m.inner, sec.path ≠ [] := by
  intro sec hsec
  rcases List.mem_cons.1 hsec with rfl | hsec
  · exact List.cons_ne_nil _ _
  · exact Listing.path_ne_nil hsec

theorem statements_regions (regions : List Region) :
    (regions.flatMap fun r => Line.tables ["methods", "regions"] :: r.lines).map Line.toStatement =
      ((Region.layout.listing regions).sections.map (Section.under "methods")).flatMap Section.statements := by
  induction regions with
  | nil => rfl
  | cons r regions ih =>
      have hregion : (Line.tables ["methods", "regions"] :: r.lines).map Line.toStatement =
          (Section.tables ["methods", "regions"] (valuesOf r.fields)).statements := by
        rw [List.map_cons, Region.statements_lines]
        rfl
      rw [List.flatMap_cons, List.map_append, ih, hregion]
      rfl

def row (m : MethodDef) : Row :=
  ⟨m.values, m.inner, m.entries, m.keys_nodup, m.path_inner, m.made_inner⟩

theorem statements_lines (m : MethodDef) :
    m.lines.map Line.toStatement = (m.row.sections "methods").flatMap Section.statements := by
  simp only [lines, List.map_append, statements_regions, Signature.statements_lines]
  simp [Row.sections, row, inner, Section.under, Section.statements, valueStatements, valuesOf, values,
    Line.toStatement, Literal.toData, Token.literal]

theorem read_code (code : List UInt8) : Reader.code (.text (CodeText.encode code)) = .ok code := by
  rw [Reader.code, CodeText.decode_encode]
  rfl

theorem fields_entries (m : MethodDef) : m.entries.fields =
    m.values ++ [("signature", .ofFields m.signature.fields)] ++ (Region.layout.listing m.regions).entries.fields := by
  rw [entries, Entries.fields_append, Entries.fields_append, fields_leaves, m.signature.fields_table]

theorem read_row {m : MethodDef} (hlocals : m.locals < 0x8000000000000000)
    (hparams : m.signature.paramCount < 0x8000000000000000) : Reader.methodDef .toml m.row.data = .ok m := by
  have hsignature := Signature.read_fields hparams
  have hcount := Reader.count_int hlocals
  have hcode := read_code m.code
  show Reader.methodDef .toml m.entries.toData = .ok m
  rw [Entries.toData_eq, fields_entries, Listing.fields_entries]
  split_ifs with hempty
  · have hregions : m.regions = [] := List.map_eq_nil_iff.1 hempty
    refine (Fields.read_ofFields (.refl _) (by simp [values]) ?_ _ _).trans ?_
    · simp [values, List.lookup_cons, hcount, hcode, hsignature]
    · simp [values, List.lookup_cons, hcount, hcode, hsignature, ← hregions]
  · obtain ⟨regions, hfield, hregions⟩ : ∃ regions, (Region.layout.listing m.regions).field = ("regions", regions) ∧
        Reader.list (Reader.region .toml) regions = .ok m.regions :=
      ⟨_, rfl, Region.layout.read_rows fun _ _ => trivial⟩
    rw [hfield]
    refine (Fields.read_ofFields (.refl _) (by simp [values]) ?_ _ _).trans ?_
    · simp [values, List.lookup_cons, hcount, hcode, hsignature, hregions]
    · simp [values, List.lookup_cons, hcount, hcode, hsignature, hregions]

theorem plain_lines {m : MethodDef} (hlocals : m.locals < 0x8000000000000000)
    (hparams : m.signature.paramCount < 0x8000000000000000) : ∀ line ∈ m.lines, line.Plain := by
  intro line hline
  rw [lines, List.mem_append, List.mem_append] at hline
  rcases hline with (hline | hline) | hline
  · revert line
    simp +decide [Token.literal, Line.Plain, Literal.Fits, word_lt, hlocals]
  · exact Signature.plain_lines hparams line hline
  · obtain ⟨r, -, hline⟩ := List.mem_flatMap.1 hline
    rcases List.mem_cons.1 hline with rfl | hline
    · simp +decide [Line.Plain]
    · exact r.plain_lines line hline

def layout : RowLayout MethodDef where
  key := "methods"
  lines := lines
  read := Reader.methodDef .toml
  fits m := m.locals < 0x8000000000000000 ∧ m.signature.paramCount < 0x8000000000000000
  row := row
  plain _ hm := plain_lines hm.1 hm.2
  statements := statements_lines
  reads _ hm := read_row hm.1 hm.2

end MethodDef

namespace MemberRef

def values (r : MemberRef) : List (String × Data) :=
  [("parent", .int r.parent.value.toNat), ("name", .text r.name)]

/-- The section under a reference to a method. -/
def inner (r : MemberRef) : List Section :=
  (r.signature.map fun s => .table ["signature"] (valuesOf s.fields)).toList

def entries (r : MemberRef) : Entries :=
  leaves r.values ++ (r.signature.map fun s => ("signature", .table .stated (leaves s.fields))).toList

def fields (r : MemberRef) : List (String × Data) :=
  r.values ++ (r.signature.map fun s => ("signature", .ofFields s.fields)).toList

theorem fields_entries (r : MemberRef) : r.entries.fields = r.fields := by
  rw [entries, fields, Entries.fields_append, fields_leaves]
  cases r.signature with
  | none => rfl
  | some s => exact congrArg _ (Signature.fields_table s)

theorem read_fields {r : MemberRef} (hparams : ∀ s ∈ r.signature, s.paramCount < 0x8000000000000000) :
    Reader.memberRef .toml (.ofFields r.fields) = .ok r := by
  obtain ⟨parent, name, signature⟩ := r
  cases signature with
  | none =>
      refine (Fields.read_ofFields (.refl _) (by simp [fields, values]) ?_ _ _).trans ?_
      · simp [fields, values, List.lookup_cons]
      · simp [fields, values, List.lookup_cons, Fields.optional]
  | some s =>
      have hsignature := Signature.read_fields (hparams s rfl)
      -- A table is not null, which shows once it is written as a table.
      rw [Data.ofFields] at hsignature
      refine (Fields.read_ofFields (.refl _) (by simp [fields, values]) ?_ _ _).trans ?_
      · simp [fields, values, List.lookup_cons, Fields.optional, Data.ofFields, hsignature]
      · simp [fields, values, List.lookup_cons, Fields.optional, Data.ofFields, hsignature]

theorem keys_nodup (r : MemberRef) : (r.values.map Prod.fst).Nodup := by
  simp [values]

theorem path_inner (r : MemberRef) : ∀ sec ∈ r.inner, sec.path ≠ [] := by
  cases h : r.signature <;> simp [inner, h, Section.path]

theorem made_inner (r : MemberRef) : (leaves r.values).addSections r.inner = some r.entries := by
  have hsignature : "signature" ∉ (leaves r.values).map Prod.fst := by simp [values]
  rw [inner, entries]
  cases r.signature with
  | none => simp
  | some s => simp [Entries.addSections_cons, Entries.addSection_table hsignature s.keys_nodup]

def row (r : MemberRef) : Row :=
  ⟨r.values, r.inner, r.entries, r.keys_nodup, r.path_inner, r.made_inner⟩

theorem statements_lines (r : MemberRef) :
    r.lines.map Line.toStatement = (r.row.sections "member_refs").flatMap Section.statements := by
  obtain ⟨parent, name, signature⟩ := r
  cases signature <;> rfl

theorem plain_lines {r : MemberRef} (hparams : ∀ s ∈ r.signature, s.paramCount < 0x8000000000000000) :
    ∀ line ∈ r.lines, line.Plain := by
  intro line hline
  rw [lines, List.mem_append] at hline
  rcases hline with hline | hline
  · revert line
    simp +decide [Token.literal, Line.Plain, Literal.Fits, word_lt]
  · cases hsignature : r.signature with
    | none => simp [hsignature] at hline
    | some s =>
        rw [hsignature] at hline hparams
        rcases List.mem_cons.1 hline with rfl | hline
        · simp +decide [Line.Plain]
        · exact Signature.plain_lines (hparams s rfl) line hline

def layout : RowLayout MemberRef where
  key := "member_refs"
  lines := lines
  read := Reader.memberRef .toml
  fits r := ∀ s ∈ r.signature, s.paramCount < 0x8000000000000000
  row := row
  plain _ hr := plain_lines hr
  statements := statements_lines
  reads r hr := by
    show Reader.memberRef .toml r.entries.toData = .ok r
    rw [Entries.toData_eq, fields_entries, read_fields hr]

end MemberRef

end ManagedCode
