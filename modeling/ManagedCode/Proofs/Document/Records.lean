import ManagedCode.Document.Fields
import ManagedCode.Proofs.Computations

/-! A record is read from a table whose keys are distinct names of its fields, whatever their order: each entry passes
the check of its field, so nothing is refused on the way, and the record is built of what stands under each name. -/

namespace ManagedCode

/-- A table with text for its keys. -/
def Data.ofFields (fields : List (String × Data)) : Data :=
  .table (fields.map fun (key, value) => (some key, value))

/-! ### Values -/

namespace Reader

@[simp]
theorem text_text (s : String) : text (.text s) = .ok s := rfl

@[simp]
theorem bool_bool (b : Bool) : bool (.bool b) = .ok b := rfl

theorem natBelow_int {bound n : Nat} (hn : n < bound) : natBelow bound (.int n) = .ok n := by
  simp [natBelow, hn]

theorem count_int {n : Nat} (hn : n < 0x8000000000000000) : count (.int n) = .ok n :=
  natBelow_int (by omega)

@[simp]
theorem word_int (w : UInt32) : word (.int w.toNat) = .ok w := by
  rw [word, natBelow_int (UInt32.toNat_lt w)]
  simp [Except.map]

@[simp]
theorem token_int (t : Token) : token (.int t.value.toNat) = .ok t := by
  rw [token, word_int]
  rfl

theorem list_map {α : Type} {item : Reader α} {data : α → Data} {rows : List α}
    (hrows : ∀ row ∈ rows, item (data row) = .ok row) : list item (.array (rows.map data)) = .ok rows := by
  show (rows.map data).mapM item = .ok rows
  induction rows with
  | nil => rfl
  | cons row rows ih =>
      obtain ⟨hrow, hrows⟩ := List.forall_mem_cons.1 hrows
      rw [List.map_cons, List.mapM_cons, hrow, ih hrows]
      rfl

end Reader

/-! ### Records -/

namespace Fields

variable {α β : Type}

@[simp]
theorem checks_map (f : α → β) (fields : Fields α) : (f <$> fields).checks = fields.checks := rfl

@[simp]
theorem checks_seq (f : Fields (α → β)) (fields : Fields α) : (f <*> fields).checks = f.checks ++ fields.checks := rfl

@[simp]
theorem build_map (f : α → β) (fields : Fields α) (find : String → Option Data) :
    (f <$> fields).build find = (fields.build find).map f := by
  cases h : fields.build find <;> simp [Functor.map, h, Except.map] <;> rfl

@[simp]
theorem build_seq (f : Fields (α → β)) (fields : Fields α) (find : String → Option Data) :
    (f <*> fields).build find = (f.build find).bind fun g => (fields.build find).map g := by
  rfl

@[simp]
theorem checks_required (name : String) (read : Reader α) :
    (required name read).checks = [(name, fun d => (read d).map fun _ => ())] := rfl

@[simp]
theorem checks_withDefault (name : String) (read : Reader α) (default : α) :
    (withDefault name read default).checks = [(name, fun d => (read d).map fun _ => ())] := rfl

@[simp]
theorem build_required {name : String} {find : String → Option Data} {d : Data} (hfind : find name = some d)
    (read : Reader α) : (required name read).build find = read d := by
  simp only [required, hfind]

@[simp]
theorem build_withDefault {name : String} {find : String → Option Data} {d : Data} (hfind : find name = some d)
    (read : Reader α) (default : α) : (withDefault name read default).build find = read d := by
  simp only [withDefault, hfind]

@[simp]
theorem build_missing {name : String} {find : String → Option Data} (hfind : find name = none) (read : Reader α)
    (default : α) : (withDefault name read default).build find = .ok default := by
  simp only [withDefault, hfind]

@[simp]
theorem map_ok (f : α → β) (a : α) : (Except.ok a : Except ImageFlaw α).map f = .ok (f a) := rfl

@[simp]
theorem bind_ok (f : α → Except ImageFlaw β) (a : α) : (Except.ok a : Except ImageFlaw α).bind f = f a := rfl

/-- The key is that of a field, and the value passes its check. -/
def Accepts (fields : Fields α) (entry : String × Data) : Prop :=
  ∃ check, fields.checks.lookup entry.1 = some check ∧ check entry.2 = .ok ()

@[simp]
theorem accepts_iff (fields : Fields α) (key : String) (value : Data) :
    fields.Accepts (key, value) ↔ ∃ check, fields.checks.lookup key = some check ∧ check value = .ok () := Iff.rfl

theorem checkEntries_ok {fields : Fields α} {entries : List (String × Data)} (hkeys : (entries.map Prod.fst).Nodup)
    (haccepts : ∀ entry ∈ entries, fields.Accepts entry) (strict : Bool) {seen : List String}
    (hseen : ∀ entry ∈ entries, entry.1 ∉ seen) :
    fields.checkEntries strict seen (entries.map fun (key, value) => (some key, value)) = .ok () := by
  induction entries generalizing seen with
  | nil => rfl
  | cons entry entries ih =>
      obtain ⟨key, value⟩ := entry
      obtain ⟨⟨check, hcheck, hok⟩, haccepts⟩ := List.forall_mem_cons.1 haccepts
      obtain ⟨hkey, hseen⟩ := List.forall_mem_cons.1 hseen
      obtain ⟨hfresh, hkeys⟩ := List.nodup_cons.1 hkeys
      have hrest : ∀ entry ∈ entries, entry.1 ∉ key :: seen := by
        intro entry hmem hin
        rcases List.mem_cons.1 hin with heq | hin
        · exact hfresh (List.mem_map.2 ⟨entry, hmem, heq⟩)
        · exact hseen entry hmem hin
      have hcontains : seen.contains key = false := by simpa using hkey
      rw [List.map_cons, checkEntries]
      simp only [hcheck, hcontains, hok, Bool.false_eq_true, if_false]
      exact ih hkeys haccepts hrest

theorem lookup_some (entries : List (String × Data)) (name : String) :
    (entries.map fun (key, value) => (some key, value)).lookup (some name) = entries.lookup name := by
  induction entries with
  | nil => rfl
  | cons entry entries ih =>
      obtain ⟨key, value⟩ := entry
      simp [List.lookup_cons, ih]

theorem lookup_perm {entries fields : List (String × Data)} (hperm : entries.Perm fields)
    (hkeys : (fields.map Prod.fst).Nodup) (name : String) : entries.lookup name = fields.lookup name := by
  have hentries : (entries.map Prod.fst).Nodup := (hperm.map Prod.fst).nodup_iff.2 hkeys
  cases hfound : fields.lookup name with
  | some value =>
      obtain ⟨before, after, heq, -⟩ := List.lookup_eq_some_iff.1 hfound
      have hmem : (name, value) ∈ fields := by simp [heq]
      exact lookup_of_mem hentries (hperm.mem_iff.2 hmem)
  | none =>
      exact List.lookup_eq_none_iff.2 fun entry hmem => List.lookup_eq_none_iff.1 hfound entry (hperm.mem_iff.1 hmem)

/-- **A record is built of a table of its fields**, in whatever order they stand there. -/
theorem read_ofFields {fields : Fields α} {entries known : List (String × Data)} (hperm : entries.Perm known)
    (hkeys : (known.map Prod.fst).Nodup) (haccepts : ∀ entry ∈ known, fields.Accepts entry) (format : Format)
    (strict : Bool) : fields.read format strict (.ofFields entries) = fields.build fun name => known.lookup name := by
  have hok : fields.checkEntries strict [] (entries.map fun (key, value) => (some key, value)) = .ok () :=
    checkEntries_ok ((hperm.map Prod.fst).nodup_iff.2 hkeys) (fun entry hmem => haccepts entry (hperm.mem_iff.1 hmem))
      strict fun _ _ => List.not_mem_nil
  simp only [read, Data.ofFields, readEntries, hok, lookup_some, lookup_perm hperm hkeys]
  rfl

end Fields
end ManagedCode
