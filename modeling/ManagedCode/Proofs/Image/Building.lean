import ManagedCode.Image.Builder
import ManagedCode.Proofs.Image.Rows
import Mathlib.Data.List.Basic

/-! Building an image in steps. Rows are only ever added at the end of a table, and of the rows that are there, a step
changes at most one: the body of a method, or the base of a type. Which one goes by the row of a token alone. A token of
another table edits the same row, which the questions to an image would refuse to find through it. -/

namespace ManagedCode.Image.Builder

/-- There is a row at the position of the token, which may be of another table. -/
def Reaches {α : Type} (t : Token) (rows : List α) (i : Nat) : Prop :=
  t.index? = some i ∧ i < rows.length

theorem Reaches.unique {α : Type} {t : Token} {rows : List α} {i j : Nat} (hi : Reaches t rows i)
    (hj : Reaches t rows j) : i = j :=
  Option.some.inj (hi.1.symm.trans hj.1)

/-! ### Single edits -/

/-- What a method is run by. -/
structure Body where
  locals : Nat
  code : List UInt8
  regions : List Region
  deriving DecidableEq

/-- The method with the body. -/
def withBody (b : Body) (m : MethodDef) : MethodDef :=
  { m with locals := b.locals, code := b.code, regions := b.regions }

/-- The type with the base. -/
def withBase (base : String) (d : TypeDef) : TypeDef :=
  { d with base := some base }

/-- The body that an emitter finishes. -/
def finished (locals : Nat) (il : Emitter) : Except Error Body :=
  il.finish.map fun (code, regions) => { locals, code, regions }

section

variable (image : Image) (t : Token)

theorem setBody_of_reaches {i locals : Nat} {il : Emitter} (h : Reaches t image.methods i) :
    setBody image t locals il = (finished locals il).map fun b =>
      { image with methods := image.methods.modify i (withBody b) } := by
  simp only [setBody, finished, h.1, if_pos h.2]
  cases il.finish <;> rfl

theorem setBody_of_not_reaches {locals : Nat} {il : Emitter} (h : ∀ i, ¬Reaches t image.methods i) :
    setBody image t locals il = (finished locals il).bind fun _ => .error (.image (.undeclaredMethod t)) := by
  cases hindex : t.index? with
  | none =>
      simp only [setBody, finished, hindex]
      cases il.finish <;> rfl
  | some i =>
      simp only [setBody, finished, hindex, if_neg fun hi => h i ⟨hindex, hi⟩]
      cases il.finish <;> rfl

theorem setBase_of_reaches {i : Nat} {base : String} (h : Reaches t image.types i) :
    setBase image t base = { image with types := image.types.modify i (withBase base) } := by
  rw [setBase, h.1]
  rfl

theorem setBase_of_not_reaches {base : String} (h : ∀ i, ¬Reaches t image.types i) :
    setBase image t base = image := by
  unfold setBase
  cases hindex : t.index? with
  | none => rfl
  | some i =>
      have hlength : image.types.length ≤ i := Nat.le_of_not_lt fun hi => h i ⟨hindex, hi⟩
      show { image with types := image.types.modify i _ } = image
      rw [List.modify_eq_self hlength]

end

theorem setBody_eq_ok_iff {image image' : Image} {t : Token} {locals : Nat} {il : Emitter} :
    setBody image t locals il = .ok image' ↔ ∃ i b, Reaches t image.methods i ∧ finished locals il = .ok b ∧
      image' = { image with methods := image.methods.modify i (withBody b) } := by
  by_cases hreach : ∃ i, Reaches t image.methods i
  · obtain ⟨i, hi⟩ := hreach
    rw [setBody_of_reaches image t hi]
    constructor
    · intro h
      cases hb : finished locals il with
      | error e =>
          rw [hb] at h
          cases h
      | ok b =>
          rw [hb] at h
          exact ⟨i, b, hi, rfl, (Except.ok.inj h).symm⟩
    · rintro ⟨j, b, hj, hb, rfl⟩
      rw [hb, hj.unique hi]
      rfl
  · rw [setBody_of_not_reaches image t (not_exists.1 hreach)]
    constructor
    · intro h
      cases hb : finished locals il <;> rw [hb] at h <;> cases h
    · rintro ⟨i, -, hi, -⟩
      exact absurd ⟨i, hi⟩ hreach

theorem setBody_eq_error_iff {image : Image} {t : Token} {locals : Nat} {il : Emitter} {e : Error} :
    setBody image t locals il = .error e ↔ finished locals il = .error e ∨
      (∃ b, finished locals il = .ok b) ∧ (∀ i, ¬Reaches t image.methods i) ∧ e = .image (.undeclaredMethod t) := by
  by_cases hreach : ∃ i, Reaches t image.methods i
  · obtain ⟨i, hi⟩ := hreach
    rw [setBody_of_reaches image t hi]
    cases hb : finished locals il with
    | error e' => simp [Except.map]
    | ok b => simpa [Except.map] using fun h => absurd hi (h i)
  · rw [setBody_of_not_reaches image t (not_exists.1 hreach)]
    cases hb : finished locals il with
    | error e' => simp [Except.bind]
    | ok b => simpa [Except.bind, eq_comm] using fun _ => not_exists.1 hreach

/-- The questions to an image also look at the table of a token. -/
theorem exists_rowOf_eq_ok_iff {α : Type} {rows : List α} {t : Token} {table : Table} {what : String} :
    (∃ row, rowOf rows t table what = .ok row) ↔ t.table = table ∧ ∃ i, Reaches t rows i := by
  simp only [rowOf_eq_ok_iff, Token.Names, Reaches, Token.index?]
  constructor
  · rintro ⟨row, htable, hpos, hget⟩
    exact ⟨htable, t.row - 1, if_neg (by omega), (List.getElem?_eq_some_iff.1 hget).1⟩
  · rintro ⟨htable, i, hi, hlt⟩
    split_ifs at hi with hzero
    obtain rfl := Option.some.inj hi
    exact ⟨_, htable, Nat.pos_of_ne_zero hzero, List.getElem?_eq_getElem hlt⟩

/-! ### Writing to rows -/

section

variable {ρ ν : Type} {put : ν → ρ → ρ} {rows : List ρ}

/-- The rows with the values that `values` has for their positions put in. -/
def writeRows (put : ν → ρ → ρ) (values : Nat → Option ν) (rows : List ρ) : List ρ :=
  rows.mapIdx fun i row => (values i).elim row (put · row)

@[simp]
theorem length_writeRows {values : Nat → Option ν} : (writeRows put values rows).length = rows.length :=
  List.length_mapIdx

theorem getElem?_writeRows {values : Nat → Option ν} {i : Nat} :
    (writeRows put values rows)[i]? = rows[i]?.map fun row => (values i).elim row (put · row) :=
  List.getElem?_mapIdx

theorem writeRows_eq_self {values : Nat → Option ν} (h : ∀ i < rows.length, values i = none) :
    writeRows put values rows = rows := by
  refine List.ext_getElem? fun i => ?_
  rw [getElem?_writeRows]
  cases hget : rows[i]? with
  | none => rfl
  | some row =>
      rw [h i (List.getElem?_eq_some_iff.1 hget).1]
      rfl

theorem writeRows_eq_modify {values : Nat → Option ν} {i : Nat} {v : ν} (hi : values i = some v)
    (hother : ∀ j, j ≠ i → values j = none) : writeRows put values rows = rows.modify i (put v) := by
  refine List.ext_getElem? fun j => ?_
  rw [getElem?_writeRows, List.getElem?_modify]
  by_cases hij : i = j
  · subst hij
    simp [hi]
  · simp [hother j (Ne.symm hij), hij]

end

/-! ### Steps -/

/-- A step of building an image. -/
inductive Step where
  | addType (space name : String)
  | addTypeRef (space name : String)
  | addField (owner : Token) (name : String)
  | addMethod (owner : Token) (name : String) (signature : Signature)
  | addMemberRef (parent : Token) (name : String) (signature : Option Signature)
  | addString (text : String)
  | setEntryPoint (method : Token)
  | setBase (type : Token) (base : String)
  | setBody (method : Token) (locals : Nat) (il : Emitter)
  deriving DecidableEq

namespace Step

/-- The image after the step. A body that is refused leaves it as it was. -/
def apply (image : Image) : Step → Image
  | .addType space name => (Builder.addType image space name).1
  | .addTypeRef space name => (Builder.addTypeRef image space name).1
  | .addField owner name => (Builder.addField image owner name).1
  | .addMethod owner name signature => (Builder.addMethod image owner name signature).1
  | .addMemberRef parent name signature => (Builder.addMemberRef image parent name signature).1
  | .addString text => (Builder.addString image text).1
  | .setEntryPoint method => Builder.setEntryPoint image method
  | .setBase type base => Builder.setBase image type base
  | .setBody method locals il => ((Builder.setBody image method locals il).toOption).getD image

def method? : Step → Option MethodDef
  | .addMethod owner name signature => some { owner, name, signature }
  | _ => none

def type? : Step → Option TypeDef
  | .addType space name => some { space, name }
  | _ => none

/-- The body that the step gives to the method at `i`, if that is there. -/
def body? (i : Nat) : Step → Option Body
  | .setBody t locals il => if t.index? = some i then (finished locals il).toOption else none
  | _ => none

/-- The base that the step gives to the type at `i`, if that is there. -/
def base? (i : Nat) : Step → Option String
  | .setBase t base => if t.index? = some i then some base else none
  | _ => none

end Step

/-- The image after the steps. -/
def build (image : Image) (steps : List Step) : Image :=
  steps.foldl Step.apply image

/-- A table whose rows the steps add and write to: what a step adds, and what it writes to the row at a position. -/
structure Edited (ρ ν : Type) where
  rows : Image → List ρ
  added? : Step → Option ρ
  written? : Nat → Step → Option ν
  put : ν → ρ → ρ
  put_put : ∀ v w row, put v (put w row) = put v row
  rows_apply : ∀ image step,
    rows (step.apply image) = writeRows put (written? · step) (rows image) ++ (added? step).toList

namespace Edited

variable {ρ ν : Type} (table : Edited ρ ν)

/-- The value that was written last to the row at `i` since it is there. -/
def lastWrite? (i : Nat) : Image → List Step → Option ν
  | _, [] => none
  | image, step :: rest => (lastWrite? i (step.apply image) rest).or
      (if i < (table.rows image).length then table.written? i step else none)

/-- The rows with which the image began and those that the steps added. -/
def declared (image : Image) (steps : List Step) : List ρ :=
  table.rows image ++ steps.filterMap table.added?

/-- A row that is there stays. -/
theorem lt_length_apply {image : Image} {i : Nat} (hi : i < (table.rows image).length) (step : Step) :
    i < (table.rows (step.apply image)).length := by
  rw [table.rows_apply, List.length_append, length_writeRows]
  exact Nat.lt_add_right _ hi

theorem declared_apply (image : Image) (step : Step) (rest : List Step) : table.declared (step.apply image) rest =
    writeRows table.put (table.written? · step) (table.rows image) ++ (step :: rest).filterMap table.added? := by
  rw [declared, table.rows_apply, List.append_assoc]
  congr 1
  cases hadded : table.added? step <;> simp [hadded]

/-- What the steps leave in a table: every row as it was declared, with the value last written to it. -/
theorem rows_build (image : Image) (steps : List Step) : table.rows (build image steps) =
    writeRows table.put (table.lastWrite? · image steps) (table.declared image steps) := by
  induction steps generalizing image with
  | nil => exact (List.append_nil _).symm.trans (writeRows_eq_self fun _ _ => rfl).symm
  | cons step rest ih =>
      refine (ih (step.apply image)).trans (List.ext_getElem? fun i => ?_)
      rw [declared_apply, declared, getElem?_writeRows, getElem?_writeRows, lastWrite?]
      -- the first step writes to the rows that are there, before the others do
      by_cases hi : i < (table.rows image).length
      · rw [List.getElem?_append_left (by rwa [length_writeRows]), List.getElem?_append_left hi, getElem?_writeRows,
          if_pos hi, Option.map_map]
        congr 1
        funext row
        cases table.lastWrite? i (step.apply image) rest <;> cases table.written? i step <;>
          simp [table.put_put]
      · rw [List.getElem?_append_right (by rw [length_writeRows]; omega), List.getElem?_append_right (by omega),
          length_writeRows, if_neg hi, Option.or_none]

/-- A step after the row was there wrote the value, and no later step wrote to the row. -/
def LastWritten (image : Image) (steps : List Step) (i : Nat) (v : ν) : Prop :=
  ∃ before step after, steps = before ++ step :: after ∧ i < (table.rows (build image before)).length ∧
    table.written? i step = some v ∧ ∀ later ∈ after, table.written? i later = none

theorem lastWrite?_eq_none_iff {image : Image} {steps : List Step} {i : Nat} (hi : i < (table.rows image).length) :
    table.lastWrite? i image steps = none ↔ ∀ step ∈ steps, table.written? i step = none := by
  induction steps generalizing image with
  | nil => simp [lastWrite?]
  | cons step rest ih =>
      rw [lastWrite?, if_pos hi, Option.or_eq_none_iff, ih (table.lt_length_apply hi step), List.forall_mem_cons,
        and_comm]

theorem lastWrite?_eq_some_iff {image : Image} {steps : List Step} {i : Nat} {v : ν} :
    table.lastWrite? i image steps = some v ↔ table.LastWritten image steps i v := by
  induction steps generalizing image with
  | nil => simp [lastWrite?, LastWritten]
  | cons step rest ih =>
      rw [lastWrite?, Option.or_eq_some_iff, ih]
      constructor
      · rintro (⟨before, last, after, rfl, hi, hlast, hlater⟩ | ⟨hnone, hwritten⟩)
        · exact ⟨step :: before, last, after, rfl, hi, hlast, hlater⟩
        · obtain ⟨hi, hwritten⟩ := Option.ite_none_right_eq_some.1 hwritten
          have hlater := (table.lastWrite?_eq_none_iff (table.lt_length_apply hi step)).1 hnone
          exact ⟨[], step, rest, rfl, hi, hwritten, hlater⟩
      · rintro ⟨before, last, after, heq, hi, hlast, hlater⟩
        cases before with
        | nil =>
            obtain ⟨rfl, rfl⟩ := List.cons.inj heq
            have hnone := (table.lastWrite?_eq_none_iff (table.lt_length_apply hi step)).2 hlater
            exact .inr ⟨hnone, Option.ite_none_right_eq_some.2 ⟨hi, hlast⟩⟩
        | cons first before =>
            obtain ⟨rfl, rfl⟩ := List.cons.inj heq
            exact .inl ⟨before, last, after, rfl, hi, hlast, hlater⟩

/-- What becomes of a row that was declared: it has the value last written to it, or is as it was. -/
def Leaves (image : Image) (steps : List Step) (i : Nat) (row₀ row : ρ) : Prop :=
  (∃ v, table.LastWritten image steps i v ∧ row = table.put v row₀) ∨
    (∀ v, ¬table.LastWritten image steps i v) ∧ row = row₀

theorem getElem?_rows_build {image : Image} {steps : List Step} {i : Nat} {row : ρ} :
    (table.rows (build image steps))[i]? = some row ↔
      ∃ row₀, (table.declared image steps)[i]? = some row₀ ∧ table.Leaves image steps i row₀ row := by
  simp only [Leaves, ← lastWrite?_eq_some_iff, rows_build, getElem?_writeRows, Option.map_eq_some_iff]
  refine exists_congr fun row₀ => and_congr_right fun _ => ?_
  cases table.lastWrite? i image steps with
  | none => simp [eq_comm]
  | some v => simp [eq_comm]

end Edited

/-! ### The tables that are written to -/

theorem methods_apply (image : Image) (step : Step) :
    (step.apply image).methods = writeRows withBody (step.body? ·) image.methods ++ step.method?.toList := by
  cases step with
  | setBody t locals il =>
      show (((setBody image t locals il).toOption).getD image).methods = _ ++ []
      rw [List.append_nil]
      by_cases hreach : ∃ i, Reaches t image.methods i
      · obtain ⟨i, hi⟩ := hreach
        rw [setBody_of_reaches image t hi]
        cases hb : finished locals il with
        | error e =>
            refine (writeRows_eq_self fun j _ => ?_).symm
            simp [Step.body?, hb, Except.toOption]
        | ok b =>
            refine (writeRows_eq_modify (i := i) (v := b) ?_ fun j hj => ?_).symm
            · simp [Step.body?, hi.1, hb, Except.toOption]
            · simp [Step.body?, hi.1, Ne.symm hj]
      · rw [setBody_of_not_reaches image t (not_exists.1 hreach)]
        refine Eq.trans ?_ (writeRows_eq_self fun i hi => if_neg fun hindex => hreach ⟨i, hindex, hi⟩).symm
        cases finished locals il <;> rfl
  | setBase t base =>
      show (setBase image t base).methods = _ ++ []
      rw [List.append_nil]
      refine Eq.trans ?_ (writeRows_eq_self fun _ _ => rfl).symm
      unfold setBase
      cases t.index? <;> rfl
  | addMethod => exact congrArg (· ++ _) (writeRows_eq_self fun _ _ => rfl).symm
  | _ => exact ((List.append_nil _).trans (writeRows_eq_self fun _ _ => rfl)).symm

theorem types_apply (image : Image) (step : Step) :
    (step.apply image).types = writeRows withBase (step.base? ·) image.types ++ step.type?.toList := by
  cases step with
  | setBase t base =>
      show (setBase image t base).types = _ ++ []
      rw [List.append_nil]
      by_cases hreach : ∃ i, Reaches t image.types i
      · obtain ⟨i, hi⟩ := hreach
        rw [setBase_of_reaches image t hi]
        exact (writeRows_eq_modify (if_pos hi.1) fun j hj => if_neg fun hindex =>
          hj (Option.some.inj (hindex.symm.trans hi.1))).symm
      · rw [setBase_of_not_reaches image t (not_exists.1 hreach)]
        exact (writeRows_eq_self fun i hi => if_neg fun hindex => hreach ⟨i, hindex, hi⟩).symm
  | setBody t locals il =>
      show (((setBody image t locals il).toOption).getD image).types = _ ++ []
      rw [List.append_nil]
      refine Eq.trans ?_ (writeRows_eq_self fun _ _ => rfl).symm
      cases hset : setBody image t locals il with
      | error e => rfl
      | ok image' =>
          obtain ⟨i, b, -, -, rfl⟩ := setBody_eq_ok_iff.1 hset
          rfl
  | addType => exact congrArg (· ++ _) (writeRows_eq_self fun _ _ => rfl).symm
  | _ => exact ((List.append_nil _).trans (writeRows_eq_self fun _ _ => rfl)).symm

/-- The methods, to which bodies are written. -/
def methodTable : Edited MethodDef Body where
  rows := Image.methods
  added? := Step.method?
  written? := Step.body?
  put := withBody
  put_put _ _ _ := rfl
  rows_apply := methods_apply

/-- The types, to which bases are written. -/
def typeTable : Edited TypeDef String where
  rows := Image.types
  added? := Step.type?
  written? := Step.base?
  put := withBase
  put_put _ _ _ := rfl
  rows_apply := types_apply

/-- **Edits go by the row of a token, not by its table.** Each table has one token for a position. To find a method or a
type the image asks for the token of its table, but an edit takes those of all tables alike. A body is accepted exactly
if it can be finished and there is a method at the position, and then nothing but the locals, the code and the regions
of that method changes; otherwise the error is that of the body, or names the token. A base changes the type at the
position, and nothing if there is none. After any steps each method and each type is as it was declared, with the body
or the base that was last written to its position. -/
theorem edits_by_row (image : Image) :
    (∀ (t : Token) i, t.index? = some i ↔ i + 1 < rowLimit ∧ t = .ofRow t.table (i + 1)) ∧
    (∀ t, (∃ m, image.method t = .ok m) ↔ t.table = .methodDef ∧ ∃ i, Reaches t image.methods i) ∧
    (∀ t, (∃ d, image.typeDef t = .ok d) ↔ t.table = .typeDef ∧ ∃ i, Reaches t image.types i) ∧
    (∀ t locals il image', setBody image t locals il = .ok image' ↔
      ∃ i b, Reaches t image.methods i ∧ finished locals il = .ok b ∧
        image' = { image with methods := image.methods.modify i (withBody b) }) ∧
    (∀ t locals il e, setBody image t locals il = .error e ↔ finished locals il = .error e ∨
      (∃ b, finished locals il = .ok b) ∧ (∀ i, ¬Reaches t image.methods i) ∧ e = .image (.undeclaredMethod t)) ∧
    (∀ t base i, Reaches t image.types i →
      setBase image t base = { image with types := image.types.modify i (withBase base) }) ∧
    (∀ t base, (∀ i, ¬Reaches t image.types i) → setBase image t base = image) ∧
    ∀ steps i,
      (∀ m, (build image steps).methods[i]? = some m ↔
        ∃ m₀, (methodTable.declared image steps)[i]? = some m₀ ∧ methodTable.Leaves image steps i m₀ m) ∧
      (∀ d, (build image steps).types[i]? = some d ↔
        ∃ d₀, (typeTable.declared image steps)[i]? = some d₀ ∧ typeTable.Leaves image steps i d₀ d) :=
  ⟨fun _ _ => Token.index?_eq_some_iff, fun _ => exists_rowOf_eq_ok_iff, fun _ => exists_rowOf_eq_ok_iff,
    fun _ _ _ _ => setBody_eq_ok_iff, fun _ _ _ _ => setBody_eq_error_iff,
    fun t _ _ h => setBase_of_reaches image t h, fun t _ h => setBase_of_not_reaches image t h,
    fun _ _ => ⟨fun _ => methodTable.getElem?_rows_build, fun _ => typeTable.getElem?_rows_build⟩⟩

/-- A type and its method, each in the first row of its table. -/
def mainProgram : Image :=
  build empty [.addType "" "Program", .addMethod (.ofRow .typeDef 1) "Main" {}]

/-- A body set through the token of the method is lost to one that is set through the token of the type. A base for the
second type goes nowhere. -/
theorem edits_by_row_overwritten :
    (build mainProgram [.setBody (.ofRow .methodDef 1) 0 (Emitter.empty.op 0x2A),
      .setBody (.ofRow .typeDef 1) 1 ((Emitter.empty.ldc 7).op 0x2A)]).methods[0]? =
        some { owner := .ofRow .typeDef 1, name := "Main", locals := 1, code := [0x1D, 0x2A] } ∧
    Reaches (.ofRow .methodDef 1) mainProgram.types 0 ∧
    setBase mainProgram (.ofRow .methodDef 1) "X" =
      { mainProgram with types := mainProgram.types.modify 0 (withBase "X") } ∧
    (∀ i, ¬Reaches (.ofRow .typeDef 2) mainProgram.types i) ∧
    setBase mainProgram (.ofRow .typeDef 2) "X" = mainProgram := by
  have hreach : Reaches (.ofRow .methodDef 1) mainProgram.types 0 := ⟨by decide, by decide⟩
  have hmissing : ∀ i, ¬Reaches (.ofRow .typeDef 2) mainProgram.types i := by
    rintro i ⟨hindex, hlt⟩
    obtain rfl : i = 1 := Option.some.inj (hindex.symm.trans (by decide))
    exact absurd hlt (by decide)
  obtain ⟨-, -, -, -, -, hbase, hnone, hrun⟩ := edits_by_row mainProgram
  refine ⟨((hrun _ 0).1 _).2 ⟨{ owner := .ofRow .typeDef 1, name := "Main" }, rfl,
    .inl ⟨⟨1, [0x1D, 0x2A], []⟩, ⟨[_], _, [], rfl, by decide, rfl, by simp⟩, rfl⟩⟩, hreach, hbase _ _ _ hreach,
    hmissing, hnone _ _ hmissing⟩

/-- The token of the type overwrites the body of the method, and that of the method the base of the type. -/
theorem edited_through_other_table :
    mainProgram.method (.ofRow .typeDef 1) = .error (.wrongTable (.ofRow .typeDef 1) "method") ∧
    setBody mainProgram (.ofRow .typeDef 1) 1 ((Emitter.empty.ldc 7).op 0x2A) = .ok { mainProgram with
      methods := [{ owner := .ofRow .typeDef 1, name := "Main", locals := 1, code := [0x1D, 0x2A] }] } ∧
    mainProgram.typeDef (.ofRow .methodDef 1) = .error (.wrongTable (.ofRow .methodDef 1) "type definition") ∧
    setBase mainProgram (.ofRow .methodDef 1) "X" =
      { mainProgram with types := [{ name := "Program", base := some "X" }] } := by
  refine ⟨by decide, ?_, by decide, by decide⟩
  rfl

end ManagedCode.Image.Builder
