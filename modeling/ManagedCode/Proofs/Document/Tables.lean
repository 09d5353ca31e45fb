import ManagedCode.Document.Toml.Tree
import ManagedCode.Proofs.Document.Records
import Mathlib.Data.List.Perm.Basic
import Mathlib.Tactic.SplitIfs

/-! The sections of a document build its tables one after the other. A section whose path begins with the name of a
list of tables goes into the last table of the list and acts there as it would by itself, so a list is built row by
row: the header of a table, its values, and the sections under it. A document puts all values before its first header;
what it reads as has the same fields in another order. -/

namespace ManagedCode.Toml

/-! ### Values -/

/-- Values under single keys. -/
def valuesOf (fields : List (String × Data)) : List (List String × Data) :=
  fields.map fun (key, value) => ([key], value)

/-- The places of values. -/
def leaves (fields : List (String × Data)) : Entries :=
  fields.map fun (key, value) => (key, .leaf value)

@[simp]
theorem map_fst_leaves (fields : List (String × Data)) : (leaves fields).map Prod.fst = fields.map Prod.fst := by
  simp [leaves]

namespace Entries

theorem lookup_eq_none {entries : Entries} {key : String} (hkey : key ∉ entries.map Prod.fst) :
    entries.lookup key = none := by
  refine List.lookup_eq_none_iff.2 fun entry hmem => ?_
  have hne : key ≠ entry.1 := fun heq => hkey (heq ▸ List.mem_map_of_mem hmem)
  simpa using hne

theorem addValue_single {entries : Entries} {key : String} (hkey : key ∉ entries.map Prod.fst) (value : Data) :
    entries.addValue [key] value = some (entries ++ [(key, .leaf value)]) := by
  simp [addValue, within, lookup_eq_none hkey]

/-- Values under distinct keys go to the end in their order. -/
theorem addValues_eq {entries : Entries} {fields : List (String × Data)}
    (hkeys : (entries.map Prod.fst ++ fields.map Prod.fst).Nodup) :
    entries.addValues (valuesOf fields) = some (entries ++ leaves fields) := by
  induction fields generalizing entries with
  | nil => simp [addValues, valuesOf, leaves]
  | cons field fields ih =>
      obtain ⟨key, value⟩ := field
      have hfresh : key ∉ entries.map Prod.fst := fun hmem =>
        (List.nodup_append.1 hkeys).2.2 key hmem key List.mem_cons_self rfl
      have hrest : ((entries ++ [(key, Node.leaf value)]).map Prod.fst ++ fields.map Prod.fst).Nodup := by
        simpa using hkeys
      have hadd := ih hrest
      rw [List.append_assoc] at hadd
      simpa [addValues, valuesOf, leaves, addValue_single hfresh] using hadd

theorem addValues_nil {fields : List (String × Data)} (hkeys : (fields.map Prod.fst).Nodup) :
    addValues [] (valuesOf fields) = some (leaves fields) :=
  addValues_eq hkeys

/-! ### Places -/

theorem alter_append {key : String} {entries : Entries} (hkey : key ∉ entries.map Prod.fst)
    (change : Option Node → Option Node) (rest : Entries) :
    alter key change (entries ++ rest) = (alter key change rest).map (entries ++ ·) := by
  induction entries with
  | nil => simp
  | cons entry entries ih =>
      obtain ⟨k, node⟩ := entry
      simp only [List.map_cons, List.mem_cons, not_or] at hkey
      rw [List.cons_append, alter, if_neg (Ne.symm hkey.1), ih hkey.2, Option.map_map]
      rfl

theorem alter_fresh {key : String} {entries : Entries} (hkey : key ∉ entries.map Prod.fst)
    (change : Option Node → Option Node) :
    alter key change entries = (change none).map fun node => entries ++ [(key, node)] := by
  have halter := alter_append hkey change []
  rw [List.append_nil] at halter
  rw [halter, alter, Option.map_map]
  rfl

theorem alter_last {key : String} {entries : Entries} (hkey : key ∉ entries.map Prod.fst)
    (change : Option Node → Option Node) (node : Node) :
    alter key change (entries ++ [(key, node)]) = (change (some node)).map fun node => entries ++ [(key, node)] := by
  rw [alter_append hkey, alter, if_pos rfl, Option.map_map]
  rfl

/-! ### Sections -/

/-- Fills in sections in their order. -/
def addSections (entries : Entries) (after : List Section) : Option Entries :=
  after.foldlM addSection entries

@[simp]
theorem addSections_nil (entries : Entries) : entries.addSections [] = some entries := rfl

theorem addSections_cons (entries : Entries) (sec : Section) (after : List Section) :
    entries.addSections (sec :: after) = (entries.addSection sec).bind (addSections · after) := by
  simp [addSections]

theorem addSections_append (entries : Entries) (before after : List Section) :
    entries.addSections (before ++ after) = (entries.addSections before).bind (addSections · after) := by
  simp [addSections, List.foldlM_append]

end Entries

/-- The table a section fills. -/
def Section.path : Section → List String
  | .table path _ => path
  | .tables path _ => path

/-- The section of a table that lies under a key. -/
def Section.under (key : String) : Section → Section
  | .table path values => .table (key :: path) values
  | .tables path values => .tables (key :: path) values

namespace Entries

variable {entries : Entries} {key : String}

theorem addSection_table (hkey : key ∉ entries.map Prod.fst) {fields : List (String × Data)}
    (hfields : (fields.map Prod.fst).Nodup) :
    entries.addSection (.table [key] (valuesOf fields)) =
      some (entries ++ [(key, .table .stated (leaves fields))]) := by
  simp [addSection, addTable, within, lookup_eq_none hkey, addValues_nil hfields]

theorem within_last (hkey : key ∉ entries.map Prod.fst) (change : Origin → Entries → Option Entries)
    (path : List String) (origin : Origin) (items : List Entries) (row : Entries) :
    within false change (key :: path) origin (entries ++ [(key, .tables (items ++ [row]))]) =
      (within false change path .stated row).map fun row => entries ++ [(key, .tables (items ++ [row]))] := by
  rw [within, alter_last hkey]
  simp [Option.map_map, Function.comp_def]

/-- **A section under the name of a list of tables acts on the last of them** as it would by itself. -/
theorem addSection_under (hkey : key ∉ entries.map Prod.fst) (items : List Entries) (row : Entries) {sec : Section}
    (hpath : sec.path ≠ []) :
    (entries ++ [(key, Node.tables (items ++ [row]))]).addSection (sec.under key) =
      (row.addSection sec).map fun row => entries ++ [(key, .tables (items ++ [row]))] := by
  obtain ⟨name, hname⟩ : ∃ name, sec.path.getLast? = some name := ⟨_, List.getLast?_eq_getLast_of_ne_nil hpath⟩
  have hlast : (key :: sec.path).getLast? = some name := by
    rw [List.getLast?_cons, hname]
    rfl
  have hdrop : (key :: sec.path).dropLast = key :: sec.path.dropLast := List.dropLast_cons_of_ne_nil hpath
  cases sec with
  | table path values =>
      simp only [Section.path] at hname hlast hdrop
      simp only [Section.under, addSection, addTable, hlast, hname, hdrop, within_last hkey]
  | tables path values =>
      simp only [Section.path] at hname hlast hdrop
      simp only [Section.under, addSection, addToTables, hlast, hname, hdrop, within_last hkey]

theorem addSections_under (hkey : key ∉ entries.map Prod.fst) (items : List Entries) (row : Entries)
    {after : List Section} (hpaths : ∀ sec ∈ after, sec.path ≠ []) :
    (entries ++ [(key, Node.tables (items ++ [row]))]).addSections (after.map (Section.under key)) =
      (row.addSections after).map fun row => entries ++ [(key, .tables (items ++ [row]))] := by
  induction after generalizing row with
  | nil => rfl
  | cons sec after ih =>
      obtain ⟨hpath, hpaths⟩ := List.forall_mem_cons.1 hpaths
      rw [List.map_cons, addSections_cons, addSection_under hkey items row hpath, addSections_cons]
      cases row.addSection sec with
      | none => rfl
      | some row => exact ih row hpaths

end Entries

/-! ### Lists of tables -/

/-- A table of a list as it stands in a document: its values, the sections under it, and the entries these make. -/
structure Row where
  fields : List (String × Data)
  inner : List Section
  entries : Entries
  keys : (fields.map Prod.fst).Nodup
  paths : ∀ sec ∈ inner, sec.path ≠ []
  made : (leaves fields).addSections inner = some entries

namespace Row

/-- A table of values only. -/
def ofFields (fields : List (String × Data)) (keys : (fields.map Prod.fst).Nodup) : Row :=
  { fields, inner := [], entries := leaves fields, keys, paths := by simp, made := rfl }

/-- The sections of a table in the list of the given name. -/
def sections (key : String) (row : Row) : List Section :=
  .tables [key] (valuesOf row.fields) :: row.inner.map (Section.under key)

def data (row : Row) : Data :=
  row.entries.toData

end Row

/-- A list of tables under its name; an empty one is not there. -/
def tablesAt (key : String) (items : List Entries) : Entries :=
  if items = [] then [] else [(key, .tables items)]

theorem tablesAt_append (key : String) (items : List Entries) (row : Entries) :
    tablesAt key (items ++ [row]) = [(key, .tables (items ++ [row]))] :=
  if_neg (by simp)

namespace Entries

variable {entries : Entries} {key : String}

theorem addSection_tables (hkey : key ∉ entries.map Prod.fst) (items : List Entries) {fields : List (String × Data)}
    (hfields : (fields.map Prod.fst).Nodup) :
    (entries ++ tablesAt key items).addSection (.tables [key] (valuesOf fields)) =
      some (entries ++ tablesAt key (items ++ [leaves fields])) := by
  have hvalues := addValues_nil hfields
  rw [tablesAt_append]
  by_cases hitems : items = []
  · subst hitems
    simp [tablesAt, addSection, addToTables, within, alter_fresh hkey, hvalues]
  · rw [tablesAt, if_neg hitems]
    simp [addSection, addToTables, within, alter_last hkey, hvalues]

theorem addSections_row (hkey : key ∉ entries.map Prod.fst) (items : List Entries) (row : Row) :
    (entries ++ tablesAt key items).addSections (row.sections key) =
      some (entries ++ tablesAt key (items ++ [row.entries])) := by
  rw [Row.sections, addSections_cons, addSection_tables hkey items row.keys, tablesAt_append, tablesAt_append]
  show addSections _ _ = _
  rw [addSections_under hkey items _ row.paths, row.made]
  rfl

theorem addSections_rows (hkey : key ∉ entries.map Prod.fst) (items : List Entries) (rows : List Row) :
    (entries ++ tablesAt key items).addSections (rows.flatMap (Row.sections key)) =
      some (entries ++ tablesAt key (items ++ rows.map Row.entries)) := by
  induction rows generalizing items with
  | nil => simp
  | cons row rows ih =>
      rw [List.flatMap_cons, addSections_append, addSections_row hkey items row]
      show addSections _ _ = _
      rw [ih, List.map_cons, List.append_assoc, List.singleton_append]

end Entries

/-- A list of tables as it stands in a document. -/
structure Listing where
  key : String
  rows : List Row

namespace Listing

def sections (list : Listing) : List Section :=
  list.rows.flatMap (Row.sections list.key)

def entries (list : Listing) : Entries :=
  tablesAt list.key (list.rows.map Row.entries)

theorem path_ne_nil {list : Listing} {sec : Section} (hsec : sec ∈ list.sections) : sec.path ≠ [] := by
  obtain ⟨row, -, hsec⟩ := List.mem_flatMap.1 hsec
  rcases List.mem_cons.1 hsec with rfl | hsec
  · exact List.cons_ne_nil _ _
  · obtain ⟨under, -, rfl⟩ := List.mem_map.1 hsec
    cases under <;> exact List.cons_ne_nil _ _

/-- **The sections of a list make its tables**, in their order. -/
theorem addSections_eq (list : Listing) {entries : Entries}
    (hkey : list.rows ≠ [] → list.key ∉ entries.map Prod.fst) :
    entries.addSections list.sections = some (entries ++ list.entries) := by
  unfold sections Listing.entries
  by_cases hempty : list.rows = []
  · simp [hempty, tablesAt]
  · have hadd := Entries.addSections_rows (hkey hempty) [] list.rows
    rwa [tablesAt, if_pos rfl, List.append_nil, List.nil_append] at hadd

theorem mem_keys_entries {list : Listing} {name : String} :
    name ∈ list.entries.map Prod.fst ↔ list.rows ≠ [] ∧ name = list.key := by
  unfold Listing.entries tablesAt
  split_ifs with hempty <;> simp_all

/-- **Lists of different names are made one after the other.** -/
theorem addSections_lists {lists : List Listing} (hlists : (lists.map Listing.key).Nodup) {entries : Entries}
    (hkeys : ∀ list ∈ lists, list.rows ≠ [] → list.key ∉ entries.map Prod.fst) :
    entries.addSections (lists.flatMap Listing.sections) = some (entries ++ lists.flatMap Listing.entries) := by
  induction lists generalizing entries with
  | nil => simp
  | cons list lists ih =>
      obtain ⟨hkey, hkeys⟩ := List.forall_mem_cons.1 hkeys
      obtain ⟨hfresh, hlists⟩ := List.nodup_cons.1 hlists
      have hrest : ∀ other ∈ lists, other.rows ≠ [] → other.key ∉ (entries ++ list.entries).map Prod.fst := by
        intro other hother hrows hmem
        rw [List.map_append, List.mem_append, mem_keys_entries] at hmem
        rcases hmem with hmem | ⟨-, heq⟩
        · exact hkeys other hother hrows hmem
        · exact hfresh (heq ▸ List.mem_map_of_mem hother)
      rw [List.flatMap_cons, Entries.addSections_append, list.addSections_eq hkey, List.flatMap_cons]
      show Entries.addSections _ _ = _
      rw [ih hlists hrest, List.append_assoc]

end Listing

/-! ### Data -/

/-- What stands under each key. -/
def Entries.fields (entries : Entries) : List (String × Data) :=
  entries.map fun (key, node) => (key, node.toData)

@[simp]
theorem Entries.fields_append (entries more : Entries) : (entries ++ more).fields = entries.fields ++ more.fields :=
  List.map_append

@[simp]
theorem fields_leaves (fields : List (String × Data)) : (leaves fields).fields = fields := by
  simp [Entries.fields, leaves, Function.comp_def, Node.toData]

theorem Entries.toData_eq (entries : Entries) : entries.toData = .ofFields entries.fields := by
  unfold Entries.toData Data.ofFields
  congr 1
  induction entries with
  | nil => rfl
  | cons entry entries ih =>
      rw [entriesData, ih]
      rfl

theorem Row.data_ofFields (fields : List (String × Data)) (keys : (fields.map Prod.fst).Nodup) :
    (Row.ofFields fields keys).data = .ofFields fields := by
  rw [Row.data, Row.ofFields, Entries.toData_eq, fields_leaves]

theorem toData_table (origin : Origin) (entries : Entries) :
    (Node.table origin entries).toData = .ofFields entries.fields :=
  entries.toData_eq

theorem toData_tables (items : List Entries) : (Node.tables items).toData = .array (items.map Entries.toData) := by
  rw [Node.toData]
  congr 1
  induction items with
  | nil => rfl
  | cons row items ih =>
      rw [itemsData, ih]
      rfl

namespace Listing

variable (list : Listing)

/-- What a list reads as. -/
def field : String × Data :=
  (list.key, .array (list.rows.map Row.data))

theorem fields_entries : list.entries.fields = if list.rows = [] then [] else [list.field] := by
  unfold Listing.entries tablesAt
  simp only [List.map_eq_nil_iff]
  split_ifs with hempty
  · rfl
  · have htables := toData_tables (list.rows.map Row.entries)
    rw [List.map_map] at htables
    show [(list.key, (Node.tables _).toData)] = _
    rw [htables]
    rfl

/-- An empty list stands among the values. -/
def emptied : List (String × Data) :=
  if list.rows = [] then [list.field] else []

theorem emptied_append_fields : list.emptied ++ list.entries.fields = [list.field] := by
  rw [emptied, fields_entries]
  split_ifs <;> rfl

end Listing

/-! ### Documents -/

/-- The statements of values. -/
def valueStatements (values : List (List String × Data)) : List Statement :=
  values.map fun (path, value) => .value path value

/-- The statements of a section. -/
def Section.statements : Section → List Statement
  | .table path values => .table path :: valueStatements values
  | .tables path values => .tables path :: valueStatements values

theorem sections_values (values : List (List String × Data)) (rest : List Statement) :
    sections (valueStatements values ++ rest) = (values ++ (sections rest).1, (sections rest).2) := by
  induction values with
  | nil => rfl
  | cons value values ih =>
      rw [valueStatements] at ih ⊢
      simp [sections, ih]

theorem sections_statements (after : List Section) : sections (after.flatMap Section.statements) = ([], after) := by
  induction after with
  | nil => rfl
  | cons sec after ih =>
      cases sec with
      | table path values => simp [Section.statements, sections, sections_values, ih]
      | tables path values => simp [Section.statements, sections, sections_values, ih]

/-- A document whose lists stand between `first` and `last`: all values come first, the empty lists among them, and
then the sections of the lists that have rows. -/
structure Document where
  first : List (String × Data)
  lists : List Listing
  last : List (String × Data)

namespace Document

variable (document : Document)

/-- The fields in their order. -/
def fields : List (String × Data) :=
  document.first ++ document.lists.map Listing.field ++ document.last

def values : List (String × Data) :=
  document.first ++ document.lists.flatMap Listing.emptied ++ document.last

def statements : List Statement :=
  valueStatements (valuesOf document.values) ++
    (document.lists.flatMap Listing.sections).flatMap Section.statements

def entries : Entries :=
  leaves document.values ++ document.lists.flatMap Listing.entries

theorem fields_entries_eq : document.entries.fields =
    document.first ++ document.lists.flatMap Listing.emptied ++
      (document.last ++ document.lists.flatMap fun list => list.entries.fields) := by
  have hlists : Entries.fields (document.lists.flatMap Listing.entries) =
      document.lists.flatMap fun list => list.entries.fields := List.map_flatMap
  rw [entries, Entries.fields_append, fields_leaves, hlists, values, List.append_assoc]

/-- **The entries are the fields in another order.** -/
theorem fields_entries : document.entries.fields.Perm document.fields := by
  have hlists : (document.lists.flatMap Listing.emptied ++ document.lists.flatMap fun list => list.entries.fields).Perm
      (document.lists.map Listing.field) := by
    have hperm := List.flatMap_append_perm document.lists Listing.emptied fun list => list.entries.fields
    simpa only [Listing.emptied_append_fields, ← List.map_eq_flatMap] using hperm
  have hswap : (document.last ++ document.lists.flatMap fun list => list.entries.fields).Perm
      (document.lists.flatMap (fun list => list.entries.fields) ++ document.last) := List.perm_append_comm
  rw [fields_entries_eq, fields]
  refine (hswap.append_left _).trans ?_
  rw [← List.append_assoc, List.append_assoc document.first]
  exact (hlists.append_left _).append_right _

/-- **The statements of a document make its entries**, if no two of its fields have the same name. -/
theorem ofStatements_eq (hkeys : (document.fields.map Prod.fst).Nodup) :
    Entries.ofStatements document.statements = some document.entries := by
  have hentries : (document.entries.map Prod.fst).Nodup := by
    have hfields := (document.fields_entries.map Prod.fst).nodup_iff.2 hkeys
    simpa [Entries.fields, Function.comp_def] using hfields
  rw [entries, List.map_append] at hentries
  obtain ⟨hvalues, -, hdisjoint⟩ := List.nodup_append.1 hentries
  have hlists : (document.lists.map Listing.key).Nodup := by
    rw [fields, List.map_append, List.map_append, List.map_map] at hkeys
    exact (List.nodup_append.1 (List.nodup_append.1 hkeys).1).2.1
  have hfresh : ∀ list ∈ document.lists, list.rows ≠ [] → list.key ∉ (leaves document.values).map Prod.fst := by
    intro list hlist hrows hmem
    obtain ⟨entry, hentry, hkey⟩ := List.mem_map.1 (Listing.mem_keys_entries.2 ⟨hrows, rfl⟩)
    have hin : list.key ∈ (document.lists.flatMap Listing.entries).map Prod.fst :=
      List.mem_map.2 ⟨entry, List.mem_flatMap.2 ⟨list, hlist, hentry⟩, hkey⟩
    exact hdisjoint _ hmem _ hin rfl
  rw [map_fst_leaves] at hvalues
  rw [statements, Entries.ofStatements, sections_values, sections_statements, List.append_nil]
  simp only [Entries.addValues_nil hvalues, Option.bind_eq_bind, Option.bind_some]
  exact Listing.addSections_lists hlists hfresh

end Document

end ManagedCode.Toml
