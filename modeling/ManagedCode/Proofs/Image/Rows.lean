import ManagedCode.Image.Lookup
import Mathlib.Data.List.Basic

/-! Tokens and the rows they name. A table of fewer than 2^24 rows has a token for each of them and no two rows share
one, so a token that the image hands out for a row is the token that names it. -/

namespace ManagedCode

/-- The number of rows that tokens can tell apart, the nil row included. -/
def rowLimit : Nat := 0x1000000

/-! ### Tables -/

theorem Table.byte_ofByte (byte : UInt8) : (Table.ofByte byte).byte = byte := by
  unfold Table.ofByte
  split_ifs with h₁ h₂ h₃ h₄ h₅ h₆
  · exact h₁.symm
  · exact h₂.symm
  · exact h₃.symm
  · exact h₄.symm
  · exact h₅.symm
  · exact h₆.symm
  · rfl

namespace Token

/-- The token names a row of the table, and this is the row. -/
def Names {α : Type} (token : Token) (table : Table) (rows : List α) (row : α) : Prop :=
  token.table = table ∧ 0 < token.row ∧ rows[token.row - 1]? = some row

variable {token : Token} {table : Table}

theorem Names.unique {α : Type} {rows : List α} {row row' : α} (h : token.Names table rows row)
    (h' : token.Names table rows row') : row = row' :=
  Option.some.inj (h.2.2.symm.trans h'.2.2)

theorem value_eq (token : Token) : token.value.toNat = token.tableByte.toNat * 0x1000000 + token.row := by
  have hlt : token.value.toNat < 0x100000000 := token.value.toNat_lt
  have hbyte : token.tableByte.toNat = token.value.toNat / 0x1000000 := by
    rw [tableByte, UInt8.toNat_ofNat']
    omega
  rw [hbyte, row]
  omega

theorem value_ofRow (table : Table) {row : Nat} (hrow : row < rowLimit) :
    (ofRow table row).value.toNat = table.byte.toNat * 0x1000000 + row := by
  have hbyte : table.byte.toNat < 0x100 := table.byte.toNat_lt
  simp only [rowLimit] at hrow
  simp only [ofRow, ofParts, UInt32.toNat_ofNat']
  omega

theorem row_ofRow (table : Table) {row : Nat} (hrow : row < rowLimit) : (ofRow table row).row = row := by
  rw [Token.row, value_ofRow table hrow]
  simp only [rowLimit] at hrow
  omega

theorem table_ofRow (hproper : Table.ofByte table.byte = table) {row : Nat} (hrow : row < rowLimit) :
    (ofRow table row).table = table := by
  have hbyte : (ofRow table row).tableByte = table.byte := by
    have hvalue := value_eq (ofRow table row)
    rw [value_ofRow table hrow, row_ofRow table hrow] at hvalue
    exact UInt8.toNat_inj.1 (by omega)
  rw [Token.table, hbyte, hproper]

theorem eq_ofRow (token : Token) : token = ofRow token.table token.row := by
  have hrow : token.row < rowLimit := Nat.mod_lt _ (by decide)
  have hvalue : token.value = (ofRow token.table token.row).value := by
    apply UInt32.toNat_inj.1
    rw [value_ofRow _ hrow, Token.table, Table.byte_ofByte, ← value_eq]
  exact congrArg Token.mk hvalue

/-- Each table has one token for a position: the one of its row. -/
theorem index?_eq_some_iff {i : Nat} :
    token.index? = some i ↔ i + 1 < rowLimit ∧ token = .ofRow token.table (i + 1) := by
  have hrow : token.row < rowLimit := Nat.mod_lt _ (by decide)
  unfold index?
  constructor
  · intro h
    split_ifs at h with hzero
    have hsucc : token.row = i + 1 := by
      have := Option.some.inj h
      omega
    exact ⟨hsucc ▸ hrow, hsucc ▸ token.eq_ofRow⟩
  · rintro ⟨hi, ht⟩
    have hsucc : token.row = i + 1 := by
      rw [ht, row_ofRow _ hi]
    rw [if_neg (by omega), hsucc, Nat.add_sub_cancel]

theorem names_ofRow_iff {α : Type} {rows : List α} {row : α} {i : Nat} (hproper : Table.ofByte table.byte = table)
    (hi : i + 1 < rowLimit) : (ofRow table (i + 1)).Names table rows row ↔ rows[i]? = some row := by
  simp [Names, table_ofRow hproper hi, row_ofRow table hi]

end Token

namespace Image

/-- Each table has fewer rows than tokens can tell apart. -/
structure Fits (image : Image) : Prop where
  types : image.types.length < rowLimit
  typeRefs : image.typeRefs.length < rowLimit
  fields : image.fields.length < rowLimit
  methods : image.methods.length < rowLimit
  memberRefs : image.memberRefs.length < rowLimit
  strings : image.strings.length < rowLimit

section Rows

variable {α : Type} {rows : List α} {token : Token} {table : Table}

/-- A look-up succeeds exactly with the row that the token names. -/
theorem rowOf_eq_ok_iff {what : String} {row : α} :
    rowOf rows token table what = .ok row ↔ token.Names table rows row := by
  unfold rowOf Token.Names Token.index?
  by_cases htable : token.table = table
  · by_cases hrow : token.row = 0
    · simp [htable, hrow]
    · have hpos : 0 < token.row := Nat.pos_of_ne_zero hrow
      cases hget : rows[token.row - 1]? <;> simp [htable, hrow, hget, hpos]
  · simp [htable]

/-- The tokens handed out for the rows of a kind are those that name such a row. -/
theorem mem_tokensWhere (table : Table) (hproper : Table.ofByte table.byte = table) (hfits : rows.length < rowLimit)
    {p : α → Bool} : token ∈ tokensWhere rows table p ↔ ∃ row, token.Names table rows row ∧ p row = true := by
  simp only [tokensWhere, List.mem_filterMap, Prod.exists, Option.ite_none_right_eq_some, Option.some.injEq,
    List.mem_zipIdx_iff_getElem?]
  constructor
  · rintro ⟨row, i, hget, hp, rfl⟩
    have hi : i < rows.length := (List.getElem?_eq_some_iff.1 hget).1
    exact ⟨row, (Token.names_ofRow_iff hproper (by omega)).2 hget, hp⟩
  · rintro ⟨row, ⟨htable, hpos, hget⟩, hp⟩
    refine ⟨row, token.row - 1, hget, hp, ?_⟩
    rw [Nat.sub_add_cancel hpos, ← htable, ← Token.eq_ofRow]

/-- The tokens are handed out in the order of their rows. -/
theorem pairwise_tokensWhere (hfits : rows.length < rowLimit) (p : α → Bool) :
    (tokensWhere rows table p).Pairwise fun a b => a.row < b.row := by
  have hindices : rows.zipIdx.Pairwise fun a b => a.2 < b.2 := by
    have hmap : (rows.zipIdx.map Prod.snd).Pairwise (· < ·) := by
      rw [List.zipIdx_map_snd, ← List.range_eq_range']
      exact List.pairwise_lt_range
    exact List.pairwise_map.1 hmap
  refine List.Pairwise.filterMap _ ?_ (hindices.imp_of_mem fun {a b} ha hb hab => (⟨ha, hb, hab⟩ : _ ∧ _ ∧ _))
  rintro ⟨row, i⟩ ⟨row', j⟩ ⟨hi, hj, hij⟩ a ha b hb
  have hlt : i < rows.length := (List.getElem?_eq_some_iff.1 (List.mem_zipIdx_iff_getElem?.1 hi)).1
  have hlt' : j < rows.length := (List.getElem?_eq_some_iff.1 (List.mem_zipIdx_iff_getElem?.1 hj)).1
  obtain rfl := Option.some.inj (Option.ite_none_right_eq_some.1 ha).2
  obtain rfl := Option.some.inj (Option.ite_none_right_eq_some.1 hb).2
  rw [Token.row_ofRow table (by omega), Token.row_ofRow table (by omega)]
  simpa using hij

end Rows

/-! ### Questions by rows -/

variable {image : Image} {token : Token}

theorem method_eq_ok_iff {m : MethodDef} :
    image.method token = .ok m ↔ token.Names .methodDef image.methods m :=
  rowOf_eq_ok_iff

theorem typeDef_eq_ok_iff {d : TypeDef} : image.typeDef token = .ok d ↔ token.Names .typeDef image.types d :=
  rowOf_eq_ok_iff

theorem memberRef_eq_ok_iff {r : MemberRef} :
    image.memberRef token = .ok r ↔ token.Names .memberRef image.memberRefs r :=
  rowOf_eq_ok_iff

theorem typeName_typeDef {d : TypeDef} (h : token.Names .typeDef image.types d) :
    image.typeName token = .ok d.qualified := by
  rw [typeName, h.1, typeDef_eq_ok_iff.2 h]
  rfl

theorem typeName_typeRef {r : TypeRef} (h : token.Names .typeRef image.typeRefs r) :
    image.typeName token = .ok r.qualified := by
  rw [typeName, h.1, rowOf_eq_ok_iff.2 h]
  rfl

theorem methodName_names {m : MethodDef} (h : token.Names .methodDef image.methods m) :
    image.methodName token = .ok m.name := by
  rw [methodName, method_eq_ok_iff.2 h]
  rfl

theorem methodSignature_names {m : MethodDef} (h : token.Names .methodDef image.methods m) :
    image.methodSignature token = .ok m.signature := by
  rw [methodSignature, method_eq_ok_iff.2 h]
  rfl

theorem fieldName_names {f : FieldDef} (h : token.Names .field image.fields f) :
    image.fieldName token = .ok f.name := by
  rw [fieldName, rowOf_eq_ok_iff.2 h]
  rfl

theorem baseTypeName_names {d : TypeDef} (h : token.Names .typeDef image.types d) :
    image.baseTypeName token = .ok d.base := by
  rw [baseTypeName, h.1, typeDef_eq_ok_iff.2 h]
  rfl

theorem methodsOf_names {d : TypeDef} (h : token.Names .typeDef image.types d) :
    image.methodsOf token = .ok (tokensWhere image.methods .methodDef fun m => m.owner == token) := by
  rw [methodsOf, typeDef_eq_ok_iff.2 h]
  rfl

theorem fieldsOf_names {d : TypeDef} (h : token.Names .typeDef image.types d) :
    image.fieldsOf token = .ok (tokensWhere image.fields .field fun f => f.owner == token) := by
  rw [fieldsOf, typeDef_eq_ok_iff.2 h]
  rfl

theorem fieldsOf_eq_ok_iff {fields : List Token} : image.fieldsOf token = .ok fields ↔
    (∃ d, token.Names .typeDef image.types d) ∧
      fields = tokensWhere image.fields .field fun f => f.owner == token := by
  constructor
  · intro h
    cases htype : image.typeDef token with
    | error e =>
        rw [fieldsOf, htype] at h
        cases h
    | ok d =>
        rw [fieldsOf, htype] at h
        exact ⟨⟨d, typeDef_eq_ok_iff.1 htype⟩, (Except.ok.inj h).symm⟩
  · rintro ⟨⟨d, hd⟩, rfl⟩
    exact fieldsOf_names hd

theorem typeTokens_eq (image : Image) : image.typeTokens = tokensWhere image.types .typeDef fun _ => true := by
  simp [typeTokens, tokensWhere, List.filterMap_eq_map']

theorem mem_typeTokens (hfits : image.Fits) :
    token ∈ image.typeTokens ↔ ∃ d, token.Names .typeDef image.types d := by
  rw [typeTokens_eq, mem_tokensWhere .typeDef rfl hfits.types]
  simp

end Image
end ManagedCode
