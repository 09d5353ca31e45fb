import ManagedCode.Program
import ManagedCode.Proofs.Computations
import ManagedCode.Proofs.Image.Rows

/-! What the index of an image holds. It is filled type by type, and what is entered with a type depends on the image
alone, so after any number of types a look-up gives what the rows of these types say. Owners and parents are taken from
the image as they are: a row whose owner is no type of the program is in no list, and the index does not know it. -/

namespace ManagedCode

/-- Entries computed for each key of a list are found under the keys of the list. -/
theorem lookup_of_mapM_ok {α β : Type} [BEq α] [LawfulBEq α] {g : α → Except Error (α × β)} {l : List α}
    {l' : List (α × β)} (hkey : ∀ a entry, g a = .ok entry → entry.1 = a) (h : l.mapM g = .ok l') {a : α} {b : β} :
    l'.lookup a = some b ↔ a ∈ l ∧ g a = .ok (a, b) := by
  induction l generalizing l' with
  | nil =>
      cases h
      simp
  | cons x rest ih =>
      rw [List.mapM_cons] at h
      obtain ⟨⟨k, v⟩, hentry, h⟩ := bind_eq_ok_iff.1 h
      obtain ⟨entries, hentries, h⟩ := bind_eq_ok_iff.1 h
      cases h
      obtain rfl : k = x := hkey x _ hentry
      by_cases heq : a = k
      · subst heq
        simp [hentry]
      · rw [List.lookup_cons, beq_eq_false_iff_ne.2 heq]
        simp [ih hentries, heq]

theorem mapM_ok_of_forall₂ {α β : Type} {f : α → Except Error β} {l : List α} {l' : List β}
    (h : List.Forall₂ (fun a b => f a = .ok b) l l') : l.mapM f = .ok l' := by
  induction h with
  | nil => rfl
  | cons hab _ ih =>
      rw [List.mapM_cons]
      exact bind_eq_ok_iff.2 ⟨_, hab, bind_eq_ok_iff.2 ⟨_, ih, rfl⟩⟩

/-- Where two tables agree on a key, their order does not matter for it. -/
theorem lookup_append_of_agree {α β : Type} [BEq α] [LawfulBEq α] {l l' : List (α × β)} {a : α} {b : β}
    (hagree : ∀ b b', l.lookup a = some b → l'.lookup a = some b' → b = b') :
    (l ++ l').lookup a = some b ↔ l.lookup a = some b ∨ l'.lookup a = some b := by
  rw [List.lookup_append, Option.or_eq_some_iff]
  cases hfirst : l.lookup a with
  | none => simp
  | some found =>
      simp only [reduceCtorEq, false_and, or_false]
      constructor
      · exact Or.inl
      · rintro (h | h)
        · exact h
        · exact congrArg some (hagree found b hfirst h)

namespace Image

/-- The key that the image gives a field of one of its types. -/
def FieldKey (image : Image) (field : Token) (key : String) : Prop :=
  ∃ f d, field.Names .field image.fields f ∧ f.owner.Names .typeDef image.types d ∧ key = fieldKey d.qualified f.name

theorem FieldKey.unique {image : Image} {field : Token} {key key' : String} (h : image.FieldKey field key)
    (h' : image.FieldKey field key') : key = key' := by
  obtain ⟨f, d, hf, hd, rfl⟩ := h
  obtain ⟨f', d', hf', hd', rfl⟩ := h'
  obtain rfl := hf.unique hf'
  rw [hd.unique hd']

end Image

namespace Index

variable {image : Image} (hfits : image.Fits)

/-- The entry of a method for the index. -/
def methodEntry (image : Image) (type m : Token) : Except Error (Token × MethodInfo) := do
  let name ← image.methodName m
  let signature ← image.methodSignature m
  return (m, { name, owner := type, signature })

/-- The entry of a field for the index. -/
def fieldEntry (image : Image) (typeName : String) (f : Token) : Except Error (Token × String) := do
  let name ← image.fieldName f
  return (f, fieldKey typeName name)

include hfits

/-- The methods entered with a type are those it owns. -/
theorem exists_methodEntries (type : Token) : ∃ infos,
    (Image.tokensWhere image.methods .methodDef fun m => m.owner == type).mapM (methodEntry image type) = .ok infos ∧
    ∀ t info, infos.lookup t = some info ↔
      ∃ m, t.Names .methodDef image.methods m ∧ m.owner = type ∧ info = ⟨m.name, m.owner, m.signature⟩ := by
  have hmem : ∀ t, t ∈ Image.tokensWhere image.methods .methodDef (fun m => m.owner == type) ↔
      ∃ m, t.Names .methodDef image.methods m ∧ m.owner = type := by
    intro t
    simp only [Image.mem_tokensWhere .methodDef rfl hfits.methods, beq_iff_eq]
  have hentry : ∀ t m, t.Names .methodDef image.methods m →
      methodEntry image type t = .ok (t, ⟨m.name, type, m.signature⟩) := by
    intro t m hm
    rw [methodEntry, Image.methodName_names hm, Image.methodSignature_names hm]
    rfl
  have hkey : ∀ t entry, methodEntry image type t = .ok entry → entry.1 = t := by
    intro t entry h
    obtain ⟨name, -, h⟩ := bind_eq_ok_iff.1 h
    obtain ⟨signature, -, h⟩ := bind_eq_ok_iff.1 h
    cases h
    rfl
  obtain ⟨infos, hinfos⟩ := exists_mapM_ok fun t ht =>
    let ⟨m, hm, _⟩ := (hmem t).1 ht
    ⟨_, hentry t m hm⟩
  refine ⟨infos, hinfos, fun t info => ?_⟩
  rw [lookup_of_mapM_ok hkey hinfos, hmem]
  constructor
  · rintro ⟨⟨m, hm, rfl⟩, h⟩
    rw [hentry t m hm] at h
    cases h
    exact ⟨m, hm, rfl, rfl⟩
  · rintro ⟨m, hm, rfl, rfl⟩
    exact ⟨⟨m, hm, rfl⟩, hentry t m hm⟩

/-- The fields entered with a type are those it owns, in the order of their rows. -/
theorem exists_fieldEntries {type : Token} {d : TypeDef} (htype : type.Names .typeDef image.types d) : ∃ keys,
    (Image.tokensWhere image.fields .field fun f => f.owner == type).mapM (fieldEntry image d.qualified) = .ok keys ∧
    (∀ t key, keys.lookup t = some key ↔ image.FieldKey t key ∧ ∃ f, t.Names .field image.fields f ∧ f.owner = type) ∧
    List.Forall₂ image.FieldKey (Image.tokensWhere image.fields .field fun f => f.owner == type)
      (keys.map Prod.snd) := by
  have hmem : ∀ t, t ∈ Image.tokensWhere image.fields .field (fun f => f.owner == type) ↔
      ∃ f, t.Names .field image.fields f ∧ f.owner = type := by
    intro t
    simp only [Image.mem_tokensWhere .field rfl hfits.fields, beq_iff_eq]
  have hentry : ∀ t f, t.Names .field image.fields f →
      fieldEntry image d.qualified t = .ok (t, fieldKey d.qualified f.name) := by
    intro t f hf
    rw [fieldEntry, Image.fieldName_names hf]
    rfl
  have hkey : ∀ t entry, fieldEntry image d.qualified t = .ok entry → entry.1 = t := by
    intro t entry h
    obtain ⟨name, -, h⟩ := bind_eq_ok_iff.1 h
    cases h
    rfl
  obtain ⟨keys, hkeys⟩ := exists_mapM_ok fun t ht =>
    let ⟨f, hf, _⟩ := (hmem t).1 ht
    ⟨_, hentry t f hf⟩
  refine ⟨keys, hkeys, fun t key => ?_, ?_⟩
  · rw [lookup_of_mapM_ok hkey hkeys, hmem]
    constructor
    · rintro ⟨⟨f, hf, rfl⟩, h⟩
      rw [hentry t f hf] at h
      cases h
      exact ⟨⟨f, d, hf, htype, rfl⟩, f, hf, rfl⟩
    · rintro ⟨⟨f, d', hf, hd', rfl⟩, f', hf', rfl⟩
      obtain rfl := hf.unique hf'
      obtain rfl := hd'.unique htype
      exact ⟨⟨f, hf, rfl⟩, hentry t f hf⟩
  · rw [List.forall₂_map_right_iff]
    have hrows := (List.forall₂_and_left _ _).2 ⟨fun t ht => (hmem t).1 ht, forall₂_of_mapM_ok hkeys⟩
    refine hrows.imp ?_
    rintro t entry ⟨⟨f, hf, rfl⟩, h⟩
    rw [hentry t f hf] at h
    cases h
    exact ⟨f, d, hf, htype, rfl⟩

/-- **What is entered with a type**: its methods and fields with what the image says of them, and nothing else. -/
theorem addType_entries {type : Token} {d : TypeDef} (htype : type.Names .typeDef image.types d) (index : Index) :
    ∃ index' infos keys, addType image index type = .ok index' ∧
      index'.methods = infos ++ index.methods ∧ index'.fieldKeys = keys ++ index.fieldKeys ∧
      index'.typeNames = (type, d.qualified) :: index.typeNames ∧
      index'.typeFields = (type, keys.map Prod.snd) :: index.typeFields ∧
      (∀ t info, infos.lookup t = some info ↔
        ∃ m, t.Names .methodDef image.methods m ∧ m.owner = type ∧ info = ⟨m.name, m.owner, m.signature⟩) ∧
      (∀ t key, keys.lookup t = some key ↔ image.FieldKey t key ∧ ∃ f, t.Names .field image.fields f ∧ f.owner = type) ∧
      List.Forall₂ image.FieldKey (Image.tokensWhere image.fields .field fun f => f.owner == type)
        (keys.map Prod.snd) := by
  obtain ⟨infos, hinfos, hmethods⟩ := exists_methodEntries hfits type
  obtain ⟨keys, hkeys, hfields, hordered⟩ := exists_fieldEntries hfits htype
  have hadd : addType image index type = .ok {
      methods := infos ++ index.methods
      fieldKeys := keys ++ index.fieldKeys
      typeNames := (type, d.qualified) :: index.typeNames
      typeFields := (type, keys.map Prod.snd) :: index.typeFields
      typeMethods := (d.qualified, Image.tokensWhere image.methods .methodDef fun m => m.owner == type) ::
        index.typeMethods
      typesByName := (d.qualified, type) :: index.typesByName
      bases := (d.base.map fun b => (type, b)).toList ++ index.bases } := by
    unfold addType
    rw [Image.typeName_typeDef htype, Image.methodsOf_names htype, Image.fieldsOf_names htype,
      Image.baseTypeName_names htype]
    refine bind_eq_ok_iff.2 ⟨_, rfl, bind_eq_ok_iff.2 ⟨_, rfl, bind_eq_ok_iff.2 ⟨infos, hinfos, ?_⟩⟩⟩
    exact bind_eq_ok_iff.2 ⟨_, rfl, bind_eq_ok_iff.2 ⟨keys, hkeys, rfl⟩⟩
  exact ⟨_, infos, keys, hadd, rfl, rfl, rfl, rfl, hmethods, hfields, hordered⟩

omit hfits

/-! ### After any number of types -/

/-- The index holds what the image says of the given types, and nothing else. -/
structure Reflects (image : Image) (types : List Token) (index : Index) : Prop where
  methods : ∀ t info, index.methods.lookup t = some info ↔ ∃ m, t.Names .methodDef image.methods m ∧
    m.owner ∈ types ∧ info = ⟨m.name, m.owner, m.signature⟩
  fieldKeys : ∀ t key, index.fieldKeys.lookup t = some key ↔ image.FieldKey t key ∧
    ∃ f, t.Names .field image.fields f ∧ f.owner ∈ types
  typeNames : ∀ t name, index.typeNames.lookup t = some name ↔ t ∈ types ∧ image.typeName t = .ok name
  typeFields : ∀ t keys, index.typeFields.lookup t = some keys → ∃ fields,
    image.fieldsOf t = .ok fields ∧ List.Forall₂ image.FieldKey fields keys
  mem_typeFields : ∀ t, (index.typeFields.lookup t).isSome ↔ t ∈ types

theorem reflects_empty (image : Image) : Reflects image [] {} := by
  refine ⟨?_, ?_, ?_, ?_, ?_⟩ <;> simp

include hfits

theorem Reflects.addType {types : List Token} {index : Index} (hr : Reflects image types index) {type : Token}
    {d : TypeDef} (htype : type.Names .typeDef image.types d) :
    ∃ index', Index.addType image index type = .ok index' ∧ Reflects image (type :: types) index' := by
  obtain ⟨index', infos, keys, hadd, hmethods, hkeys, hnames, htypeFields, hinfos, hfields, hordered⟩ :=
    addType_entries hfits htype index
  refine ⟨index', hadd, ⟨fun t info => ?_, fun t key => ?_, fun t name => ?_, fun t found hfound => ?_, fun t => ?_⟩⟩
  · have hagree : ∀ info info', infos.lookup t = some info → index.methods.lookup t = some info' → info = info' := by
      intro info info' hfound hfound'
      obtain ⟨m, hm, -, rfl⟩ := (hinfos t info).1 hfound
      obtain ⟨m', hm', -, rfl⟩ := (hr.methods t info').1 hfound'
      rw [hm.unique hm']
    rw [hmethods, lookup_append_of_agree hagree, hinfos, hr.methods]
    simp only [List.mem_cons, or_and_right, and_or_left, exists_or]
  · have hagree : ∀ key key', keys.lookup t = some key → index.fieldKeys.lookup t = some key' → key = key' := by
      intro key key' hfound hfound'
      exact ((hfields t key).1 hfound).1.unique ((hr.fieldKeys t key').1 hfound').1
    rw [hkeys, lookup_append_of_agree hagree, hfields, hr.fieldKeys]
    simp only [List.mem_cons, and_or_left, exists_or]
  · rw [hnames, List.lookup_cons, List.mem_cons]
    by_cases heq : t = type
    · subst heq
      simp [Image.typeName_typeDef htype]
    · rw [beq_eq_false_iff_ne.2 heq]
      simp [hr.typeNames, heq]
  · rw [htypeFields, List.lookup_cons] at hfound
    by_cases heq : t = type
    · subst heq
      rw [beq_self_eq_true] at hfound
      obtain rfl := Option.some.inj hfound
      exact ⟨_, Image.fieldsOf_names htype, hordered⟩
    · rw [beq_eq_false_iff_ne.2 heq] at hfound
      exact hr.typeFields t found hfound
  · rw [htypeFields, List.lookup_cons, List.mem_cons]
    by_cases heq : t = type
    · subst heq
      simp
    · rw [beq_eq_false_iff_ne.2 heq]
      simp [hr.mem_typeFields, heq]

theorem Reflects.foldlM_addType {types : List Token} (htypes : ∀ t ∈ types, ∃ d, t.Names .typeDef image.types d)
    {known : List Token} {index : Index} (hr : Reflects image known index) :
    ∃ index', types.foldlM (Index.addType image) index = .ok index' ∧
      Reflects image (types.reverse ++ known) index' := by
  induction types generalizing known index with
  | nil => exact ⟨index, rfl, hr⟩
  | cons type rest ih =>
      obtain ⟨d, hd⟩ := htypes type List.mem_cons_self
      obtain ⟨index₁, hadd, hr₁⟩ := hr.addType hfits hd
      obtain ⟨index', hrest, hr'⟩ := ih (fun t ht => htypes t (List.mem_cons_of_mem _ ht)) hr₁
      refine ⟨index', ?_, ?_⟩
      · rw [List.foldlM_cons]
        exact bind_eq_ok_iff.2 ⟨index₁, hadd, hrest⟩
      · rw [List.reverse_cons, List.append_assoc]
        exact hr'

/-- **An index can be built**, and it holds what the image says of its types. -/
theorem exists_build : ∃ index, build image = .ok index ∧ Reflects image image.typeTokens.reverse index := by
  obtain ⟨index, hbuild, hr⟩ := (reflects_empty image).foldlM_addType hfits
    (fun t ht => (Image.mem_typeTokens hfits).1 ht)
  rw [List.append_nil] at hr
  exact ⟨index, hbuild, hr⟩

omit hfits

/-! ### Against the image -/

/-- An index against the image it was built from. It knows the methods that a type of the program owns, with what the
image says of them; type names are those of the image; a field of a type of the program has the type's qualified name
and its own in its key, and so has every reference to a member of this name in a type of this name; the fields of a type
are listed in the order of their rows. -/
structure Agrees (image : Image) (index : Index) : Prop where
  method : ∀ t info, index.method? t = some info ↔
    (∃ m d, t.Names .methodDef image.methods m ∧ m.owner.Names .typeDef image.types d ∧ info.owner = m.owner) ∧
      image.methodName t = .ok info.name ∧ image.methodSignature t = .ok info.signature
  typeName : ∀ t, index.typeName image t = image.typeName t
  fieldKey : ∀ t f d, t.Names .field image.fields f → f.owner.Names .typeDef image.types d →
    index.fieldKeyOf image t = .ok (d.qualified ++ "::" ++ f.name)
  memberKey : ∀ t f d, t.Names .field image.fields f → f.owner.Names .typeDef image.types d →
    ∀ r member, r.Names .memberRef image.memberRefs member → member.name = f.name →
      ((∃ d', member.parent.Names .typeDef image.types d' ∧ d'.qualified = d.qualified) ∨
        ∃ e, member.parent.Names .typeRef image.typeRefs e ∧ e.qualified = d.qualified) →
      index.fieldKeyOf image r = index.fieldKeyOf image t
  fieldKeys : ∀ t fields, image.fieldsOf t = .ok fields →
    fields.Pairwise (fun a b => a.row < b.row) ∧ fields.mapM (index.fieldKeyOf image) = .ok (index.fieldKeysOf t)
  noFields : ∀ t e, image.fieldsOf t = .error e → index.fieldKeysOf t = []

namespace Reflects

variable {index : Index} (hr : Reflects image image.typeTokens.reverse index)

include hfits

theorem mem_types {t : Token} : t ∈ image.typeTokens.reverse ↔ ∃ d, t.Names .typeDef image.types d := by
  rw [List.mem_reverse, Image.mem_typeTokens hfits]

include hr

theorem method? {t : Token} {info : MethodInfo} : index.method? t = some info ↔
    ∃ m d, t.Names .methodDef image.methods m ∧ m.owner.Names .typeDef image.types d ∧
      info = ⟨m.name, m.owner, m.signature⟩ := by
  rw [Index.method?, hr.methods]
  simp only [mem_types hfits]
  constructor
  · rintro ⟨m, hm, ⟨d, hd⟩, hinfo⟩
    exact ⟨m, d, hm, hd, hinfo⟩
  · rintro ⟨m, d, hm, hd, hinfo⟩
    exact ⟨m, hm, ⟨d, hd⟩, hinfo⟩

theorem fieldKeyOf {t : Token} {key : String} (h : image.FieldKey t key) : index.fieldKeyOf image t = .ok key := by
  have hfound : index.fieldKeys.lookup t = some key := by
    obtain ⟨f, d, hf, hd, -⟩ := id h
    exact (hr.fieldKeys t key).2 ⟨h, f, hf, (mem_types hfits).2 ⟨d, hd⟩⟩
  rw [Index.fieldKeyOf, hfound]

omit hfits

theorem typeName_eq (t : Token) : index.typeName image t = image.typeName t := by
  unfold Index.typeName
  split
  · next name hname => exact ((hr.typeNames t name).1 hname).2.symm
  · rfl

/-- A reference to a member is in no table of fields, so its key is made of the parent's name and its own. -/
theorem fieldKeyOf_memberRef {t : Token} {member : MemberRef} (h : t.Names .memberRef image.memberRefs member)
    {typeName : String} (hparent : image.typeName member.parent = .ok typeName) :
    index.fieldKeyOf image t = .ok (fieldKey typeName member.name) := by
  have hmissing : index.fieldKeys.lookup t = none := by
    refine Option.eq_none_iff_forall_ne_some.2 fun key hkey => ?_
    obtain ⟨⟨f, d, hf, -⟩, -⟩ := (hr.fieldKeys t key).1 hkey
    have htables := h.1.symm.trans hf.1
    cases htables
  rw [Index.fieldKeyOf, hmissing, h.1, Image.memberRef_eq_ok_iff.2 h]
  change (index.typeName image member.parent >>= _) = _
  rw [hr.typeName_eq, hparent]
  rfl

include hfits

theorem agrees : Agrees image index where
  method t info := by
    rw [hr.method? hfits]
    constructor
    · rintro ⟨m, d, hm, hd, rfl⟩
      exact ⟨⟨m, d, hm, hd, rfl⟩, Image.methodName_names hm, Image.methodSignature_names hm⟩
    · rintro ⟨⟨m, d, hm, hd, howner⟩, hname, hsignature⟩
      rw [Image.methodName_names hm] at hname
      rw [Image.methodSignature_names hm] at hsignature
      refine ⟨m, d, hm, hd, ?_⟩
      rw [Except.ok.inj hname, Except.ok.inj hsignature, ← howner]
  typeName := hr.typeName_eq
  fieldKey t f d hf hd := hr.fieldKeyOf hfits ⟨f, d, hf, hd, rfl⟩
  memberKey t f d hf hd r member hmember hname hparent := by
    have htypeName : image.typeName member.parent = .ok d.qualified := by
      rcases hparent with ⟨d', hd', heq⟩ | ⟨e, he, heq⟩
      · rw [Image.typeName_typeDef hd', heq]
      · rw [Image.typeName_typeRef he, heq]
    rw [hr.fieldKeyOf_memberRef hmember htypeName, hr.fieldKeyOf hfits ⟨f, d, hf, hd, rfl⟩, hname]
  fieldKeys t fields hfields := by
    obtain ⟨htype, hrows⟩ := Image.fieldsOf_eq_ok_iff.1 hfields
    obtain ⟨keys, hkeys⟩ := Option.isSome_iff_exists.1 ((hr.mem_typeFields t).2 ((mem_types hfits).2 htype))
    obtain ⟨fields', hfields', hordered⟩ := hr.typeFields t keys hkeys
    obtain rfl := Except.ok.inj (hfields'.symm.trans hfields)
    refine ⟨?_, ?_⟩
    · rw [hrows]
      exact Image.pairwise_tokensWhere hfits.fields _
    · rw [fieldKeysOf, hkeys]
      exact mapM_ok_of_forall₂ (hordered.imp fun field key => hr.fieldKeyOf hfits)
  noFields t e hfields := by
    have hmissing : index.typeFields.lookup t = none := by
      refine Option.eq_none_iff_forall_ne_some.2 fun keys hkeys => ?_
      obtain ⟨fields, hfields', -⟩ := hr.typeFields t keys hkeys
      rw [hfields] at hfields'
      cases hfields'
    rw [fieldKeysOf, hmissing]
    rfl

end Reflects
end Index

/-! ### Loading -/

namespace Image

/-- The method can be run first: a type of the program owns it, it is static, and it has at most one parameter. -/
def Runnable (image : Image) (token : Token) : Prop :=
  ∃ m d, token.Names .methodDef image.methods m ∧ m.owner.Names .typeDef image.types d ∧
    m.signature.isInstance = false ∧ m.signature.paramCount ≤ 1

theorem entryMethod_eq_ok_iff {image : Image} {token : Token} : image.entryMethod = .ok token ↔
    token = image.entryPoint ∧ ∃ m, image.entryPoint.Names .methodDef image.methods m := by
  unfold entryMethod
  cases hm : image.method image.entryPoint with
  | error e =>
      have hnone : ¬∃ m, image.entryPoint.Names .methodDef image.methods m := by
        rintro ⟨m, h⟩
        rw [method_eq_ok_iff.2 h] at hm
        cases hm
      simp [hnone]
  | ok m =>
      have hsome : ∃ m, image.entryPoint.Names .methodDef image.methods m := ⟨m, method_eq_ok_iff.1 hm⟩
      simp [hsome, eq_comm]

end Image

/-- A program can be loaded exactly if its entry point can be run first. -/
theorem Program.exists_load_iff {image : Image} (hfits : image.Fits) :
    (∃ p, load image = .ok p) ↔ image.Runnable image.entryPoint := by
  obtain ⟨index, hbuild, hr⟩ := Index.exists_build hfits
  have hinfo : ∀ t info, index.methodInfo t = .ok info ↔ index.method? t = some info := by
    intro t info
    unfold Index.methodInfo
    cases index.method? t <;> simp
  constructor
  · rintro ⟨p, hload⟩
    obtain ⟨index', hbuild', h⟩ := bind_eq_ok_iff.1 hload
    obtain rfl := Except.ok.inj (hbuild.symm.trans hbuild')
    obtain ⟨entry, hentry, h⟩ := bind_eq_ok_iff.1 h
    obtain ⟨info, hfound, h⟩ := bind_eq_ok_iff.1 h
    obtain ⟨rfl, -⟩ := Image.entryMethod_eq_ok_iff.1 hentry
    obtain ⟨m, d, hm, hd, rfl⟩ := (hr.method? hfits).1 ((hinfo _ _).1 hfound)
    refine ⟨m, d, hm, hd, ?_⟩
    split_ifs at h with hinstance hparams
    exact ⟨Bool.eq_false_iff.2 hinstance, Nat.le_of_not_lt hparams⟩
  · rintro ⟨m, d, hm, hd, hstatic, hparams⟩
    have hfound : index.methodInfo image.entryPoint = .ok ⟨m.name, m.owner, m.signature⟩ :=
      (hinfo _ _).2 ((hr.method? hfits).2 ⟨m, d, hm, hd, rfl⟩)
    have hentry : image.entryMethod = .ok image.entryPoint := Image.entryMethod_eq_ok_iff.2 ⟨rfl, m, hm⟩
    refine ⟨⟨image, index, image.entryPoint, m.signature⟩, bind_eq_ok_iff.2 ⟨index, hbuild,
      bind_eq_ok_iff.2 ⟨_, hentry, bind_eq_ok_iff.2 ⟨_, hfound, ?_⟩⟩⟩⟩
    simp only [hstatic, Bool.false_eq_true, if_false]
    rw [if_neg (Nat.not_lt.2 hparams)]

/-- **The index agrees with its image.** For every image whose tables have fewer than 2^24 rows an index can be built
and agrees with it, whatever owners and parents the rows name, and the program can be loaded exactly if its entry point
is a static method of at most one parameter that a type of the program owns. -/
theorem Image.index_agrees (image : Image) (hfits : image.Fits) :
    (∃ index, Index.build image = .ok index ∧ index.Agrees image) ∧
      ((∃ p, Program.load image = .ok p) ↔ image.Runnable image.entryPoint) := by
  obtain ⟨index, hbuild, hr⟩ := Index.exists_build hfits
  exact ⟨⟨index, hbuild, hr.agrees hfits⟩, Program.exists_load_iff hfits⟩

/-- Rows with owners and parents that are no types of the program: a nil row, a row out of range, a token of another
table. -/
def strayImage : Image where
  entryPoint := .ofRow .methodDef 2
  types := [{ space := "Zoo", name := "Animal" }, { space := "Zoo", name := "Animal" }]
  typeRefs := [{ space := "Zoo", name := "Animal" }]
  fields := [{ owner := .ofRow .typeDef 2, name := "legs" }, { owner := .ofRow .typeDef 0, name := "legs" },
    { owner := .ofRow .typeDef 2, name := "tail" }]
  methods := [{ owner := .ofRow .typeRef 1, name := "Main" }, { owner := .ofRow .typeDef 1, name := "Main" },
    { owner := .ofRow .typeDef 3, name := "Main" }]
  memberRefs := [{ parent := .ofRow .typeRef 1, name := "legs" }]

theorem Image.index_agrees_stray : strayImage.Fits ∧ (∃ index, Index.build strayImage = .ok index ∧
    index.Agrees strayImage ∧ index.method? (.ofRow .methodDef 1) = none ∧
    index.fieldKeyOf strayImage (.ofRow .memberRef 1) = .ok "Zoo.Animal::legs") ∧
    ∃ p, Program.load strayImage = .ok p := by
  have hfits : strayImage.Fits := by constructor <;> decide
  obtain ⟨⟨index, hbuild, hagrees⟩, hload⟩ := strayImage.index_agrees hfits
  refine ⟨hfits, ⟨index, hbuild, hagrees, ?_, ?_⟩, hload.2 ⟨_, _, ⟨rfl, by decide, rfl⟩, ⟨rfl, by decide, rfl⟩, rfl,
    by decide⟩⟩
  · refine Option.eq_none_iff_forall_ne_some.2 fun info hinfo => ?_
    obtain ⟨⟨m, d, hm, hd, -⟩, -⟩ := (hagrees.method _ info).1 hinfo
    have hrow : (Token.ofRow .methodDef 1).Names .methodDef strayImage.methods
        { owner := .ofRow .typeRef 1, name := "Main" } := ⟨rfl, by decide, rfl⟩
    rw [hm.unique hrow] at hd
    exact absurd hd.1 (by decide)
  · have hlegs : (Token.ofRow .field 1).Names .field strayImage.fields { owner := .ofRow .typeDef 2, name := "legs" } :=
      ⟨rfl, by decide, rfl⟩
    have howner : (Token.ofRow .typeDef 2).Names .typeDef strayImage.types { space := "Zoo", name := "Animal" } :=
      ⟨rfl, by decide, rfl⟩
    rw [hagrees.memberKey _ _ _ hlegs howner _ { parent := .ofRow .typeRef 1, name := "legs" } ⟨rfl, by decide, rfl⟩
      rfl (Or.inr ⟨{ space := "Zoo", name := "Animal" }, ⟨rfl, by decide, rfl⟩, rfl⟩),
      hagrees.fieldKey _ _ _ hlegs howner]
    rfl

end ManagedCode
