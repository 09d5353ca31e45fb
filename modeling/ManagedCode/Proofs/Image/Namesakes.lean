import ManagedCode.Proofs.CheckedPrograms
import ManagedCode.Proofs.Image.Resolution
import Mathlib

/-! Resolution by names where types share a qualified name. An image may define several types of one qualified name,
since a namespace and a name can be put together in more than one way. The index lists the methods of a type under its
qualified name, and of the namesakes the one in the last row has its methods there. So a search for a method of a type
ends among the methods of that namesake, and stays in the type exactly if the type is the last of its name, or if
neither of the two has such a method. -/

namespace ManagedCode

/-- The method has the name and the number of parameters, and a receiver if one is asked for. -/
def MethodDef.Answers (m : MethodDef) (name : String) (paramCount : Nat) (instanceOnly : Bool) : Prop :=
  m.name = name ∧ m.signature.paramCount = paramCount ∧ (instanceOnly = true → m.signature.isInstance = true)

/-- The number of parameters that a reference to a member asks for. -/
def MemberRef.paramCount (member : MemberRef) : Nat :=
  (member.signature.map Signature.paramCount).getD 0

theorem Index.answersTo_iff {m : MethodDef} {name : String} {paramCount : Nat} {instanceOnly : Bool} :
    answersTo name paramCount instanceOnly ⟨m.name, m.owner, m.signature⟩ = true ↔
      m.Answers name paramCount instanceOnly := by
  unfold answersTo MethodDef.Answers
  cases instanceOnly <;> simp [and_assoc]

namespace Image

/-! ### Methods of a type -/

/-- The token names a method that the type owns. -/
def Owns (image : Image) (type t : Token) : Prop :=
  ∃ m : MethodDef, t.Names .methodDef image.methods m ∧ m.owner = type

/-- Of the methods that the type owns and that have the property, the token names the one in the lowest row. -/
structure FirstOwned (image : Image) (type : Token) (p : MethodDef → Prop) (t : Token) : Prop where
  owned : ∃ m : MethodDef, t.Names .methodDef image.methods m ∧ m.owner = type ∧ p m
  first : ∀ (t' : Token) (m : MethodDef), t'.Names .methodDef image.methods m → m.owner = type → p m → t.row ≤ t'.row

/-- What a search for the first method of the type with the property finds: that method, or nothing if there is
none. -/
def Finds (image : Image) (type : Token) (p : MethodDef → Prop) : Option Token → Prop
  | some t => image.FirstOwned type p t
  | none => ∀ (t : Token) (m : MethodDef), t.Names .methodDef image.methods m → m.owner = type → ¬p m

/-- Of the types with the qualified name, the token names the one in the last row. -/
structure LastNamed (image : Image) (name : String) (type : Token) : Prop where
  named : ∃ d : TypeDef, type.Names .typeDef image.types d ∧ d.qualified = name
  last : ∀ (t : Token) (d : TypeDef), t.Names .typeDef image.types d → d.qualified = name → t.row ≤ type.row

section Searches

variable {image : Image} {type last : Token} {p : MethodDef → Prop}

/-- A search through the methods of a type in the order of their rows finds the first. -/
theorem finds_find? (hfits : image.Fits) {q : Token → Bool}
    (hq : ∀ (t : Token) (m : MethodDef), t.Names .methodDef image.methods m → m.owner = type → (q t = true ↔ p m)) :
    image.Finds type p ((tokensWhere image.methods .methodDef fun m => m.owner == type).find? q) := by
  have hmem : ∀ t, t ∈ tokensWhere image.methods .methodDef (fun m => m.owner == type) ↔ image.Owns type t := by
    intro t
    simp only [mem_tokensWhere .methodDef rfl hfits.methods, beq_iff_eq, Owns]
  have hrows : (tokensWhere image.methods .methodDef fun m => m.owner == type).Pairwise fun a b => a.row < b.row :=
    pairwise_tokensWhere hfits.methods _
  generalize tokensWhere image.methods .methodDef (fun m => m.owner == type) = tokens at hmem hrows
  cases hfound : tokens.find? q with
  | none =>
      intro t m hm howner hp
      exact List.find?_eq_none.1 hfound t ((hmem t).2 ⟨m, hm, howner⟩) ((hq t m hm howner).2 hp)
  | some t =>
      obtain ⟨ht, before, after, rfl, hbefore⟩ := List.find?_eq_some_iff_append.1 hfound
      obtain ⟨m, hm, howner⟩ := (hmem t).1 (by simp)
      refine ⟨⟨m, hm, howner, (hq t m hm howner).1 ht⟩, fun t' m' hm' howner' hp => ?_⟩
      have htaken := (hq t' m' hm' howner').2 hp
      rcases List.mem_append.1 ((hmem t').2 ⟨m', hm', howner'⟩) with hfront | hback
      · have hpassed := hbefore t' hfront
        rw [htaken] at hpassed
        cases hpassed
      · rcases List.mem_cons.1 hback with rfl | hback
        · exact Nat.le_refl _
        · have hpairs := (List.pairwise_append.1 hrows).2.1
          exact Nat.le_of_lt ((List.pairwise_cons.1 hpairs).1 t' hback)

theorem FirstOwned.unique {t t' : Token} (h : image.FirstOwned type p t) (h' : image.FirstOwned type p t') :
    t = t' := by
  obtain ⟨m, hm, howner, hp⟩ := h.owned
  obtain ⟨m', hm', howner', hp'⟩ := h'.owned
  have hrow : t.row = t'.row := Nat.le_antisymm (h.first t' m' hm' howner' hp') (h'.first t m hm howner hp)
  rw [t.eq_ofRow, t'.eq_ofRow, hm.1, hm'.1, hrow]

theorem Finds.eq_some_iff {found : Option Token} (h : image.Finds type p found) {t : Token} :
    found = some t ↔ image.FirstOwned type p t := by
  cases found with
  | none =>
      constructor
      · intro hfound
        cases hfound
      · intro hfirst
        obtain ⟨m, hm, howner, hp⟩ := hfirst.owned
        exact absurd hp (h t m hm howner)
  | some t' => exact ⟨fun hfound => Option.some.inj hfound ▸ h, fun hfirst => congrArg some (h.unique hfirst)⟩

/-- A search among the methods of one type is one among those of another exactly if the two types are the same, or if
both searches find nothing: a method has one owner. -/
theorem Finds.iff_same {found : Option Token} (h : image.Finds last p found) :
    image.Finds type p found ↔ type = last ∨ image.Finds type p none ∧ image.Finds last p none := by
  cases found with
  | none =>
      constructor
      · intro htype
        exact Or.inr ⟨htype, h⟩
      · rintro (rfl | ⟨htype, -⟩)
        · exact h
        · exact htype
  | some t =>
      obtain ⟨m, hm, hlast, hp⟩ := h.owned
      constructor
      · intro htype
        obtain ⟨m', hm', howner, -⟩ := htype.owned
        obtain rfl := hm.unique hm'
        exact Or.inl (howner.symm.trans hlast)
      · rintro (rfl | ⟨-, hnone⟩)
        · exact h
        · exact absurd hp (hnone t m hm hlast)

/-- What a search among the methods of one type finds belongs to another exactly if the two types are the same, or if
the search finds nothing. -/
theorem Finds.owned_iff {found : Option Token} (h : image.Finds last p found) :
    (∀ t, found = some t → image.Owns type t) ↔ type = last ∨ image.Finds last p none := by
  cases found with
  | none => simp [h]
  | some t =>
      obtain ⟨m, hm, hlast, hp⟩ := h.owned
      constructor
      · intro howned
        obtain ⟨m', hm', howner⟩ := howned t rfl
        obtain rfl := hm.unique hm'
        exact Or.inl (howner.symm.trans hlast)
      · rintro (rfl | hnone) t' hfound
        · obtain rfl := Option.some.inj hfound
          exact ⟨m, hm, hlast⟩
        · exact absurd hp (hnone t m hm hlast)

end Searches
end Image

namespace Index

variable {image : Image}

/-! ### Methods by the name of their type -/

theorem addType_typeMethods {index index' : Index} {type : Token} (h : addType image index type = .ok index') :
    ∃ typeName methods, image.typeName type = .ok typeName ∧ image.methodsOf type = .ok methods ∧
      index'.typeMethods = (typeName, methods) :: index.typeMethods := by
  unfold addType at h
  obtain ⟨typeName, hname, h⟩ := bind_eq_ok_iff.1 h
  obtain ⟨methods, hmethods, h⟩ := bind_eq_ok_iff.1 h
  obtain ⟨infos, -, h⟩ := bind_eq_ok_iff.1 h
  obtain ⟨fields, -, h⟩ := bind_eq_ok_iff.1 h
  obtain ⟨keys, -, h⟩ := bind_eq_ok_iff.1 h
  obtain ⟨base, -, h⟩ := bind_eq_ok_iff.1 h
  cases h
  exact ⟨typeName, methods, hname, hmethods, rfl⟩

/-- The entry lists the methods of the type under its name. -/
def Lists (image : Image) (type : Token) (entry : String × List Token) : Prop :=
  image.typeName type = .ok entry.1 ∧ image.methodsOf type = .ok entry.2

theorem foldlM_addType_typeMethods {types known : List Token} {index index' : Index}
    (h : types.foldlM (addType image) index = .ok index')
    (hknown : List.Forall₂ (Lists image) known index.typeMethods) :
    List.Forall₂ (Lists image) (types.reverse ++ known) index'.typeMethods := by
  induction types generalizing known index with
  | nil =>
      cases h
      exact hknown
  | cons type rest ih =>
      rw [List.foldlM_cons] at h
      obtain ⟨index₁, hadd, hrest⟩ := bind_eq_ok_iff.1 h
      obtain ⟨typeName, methods, hname, hmethods, hentries⟩ := addType_typeMethods hadd
      rw [List.reverse_cons, List.append_assoc]
      refine ih hrest ?_
      rw [hentries]
      exact .cons ⟨hname, hmethods⟩ hknown

/-- The entries of an index list the methods of all types, the type in the last row first. -/
theorem build_typeMethods {index : Index} (h : build image = .ok index) :
    List.Forall₂ (Lists image) image.typeTokens.reverse index.typeMethods := by
  have hlists := foldlM_addType_typeMethods h List.Forall₂.nil
  rwa [List.append_nil] at hlists

/-- Under a name stand the methods of the first type of the list that has it. -/
theorem methods_of_lists {types : List Token} {entries : List (String × List Token)}
    (h : List.Forall₂ (Lists image) types entries) (hrows : types.Pairwise fun a b => b.row < a.row) {name : String}
    {type : Token} (htype : type ∈ types) (hname : image.typeName type = .ok name) :
    ∃ last ∈ types, image.typeName last = .ok name ∧ (∀ t ∈ types, image.typeName t = .ok name → t.row ≤ last.row) ∧
      ∃ methods, image.methodsOf last = .ok methods ∧ entries.lookup name = some methods := by
  induction h with
  | nil => cases htype
  | @cons head entry types entries hhead _ ih =>
      obtain ⟨hfirst, hrest⟩ := List.pairwise_cons.1 hrows
      by_cases heq : name = entry.1
      · subst heq
        refine ⟨head, List.mem_cons_self, hhead.1, fun t ht _ => ?_, entry.2, hhead.2, by simp [List.lookup]⟩
        rcases List.mem_cons.1 ht with rfl | ht
        · exact Nat.le_refl _
        · exact Nat.le_of_lt (hfirst t ht)
      · have hother : image.typeName head ≠ .ok name := by
          rw [hhead.1]
          exact fun hsame => heq (Except.ok.inj hsame).symm
        have hmem : type ∈ types := by
          rcases List.mem_cons.1 htype with rfl | hmem
          · exact absurd hname hother
          · exact hmem
        obtain ⟨last, hlast, hlastName, hrow, methods, hmethods, hlookup⟩ := ih hrest hmem
        refine ⟨last, List.mem_cons_of_mem _ hlast, hlastName, fun t ht htName => ?_, methods, hmethods, ?_⟩
        · rcases List.mem_cons.1 ht with rfl | ht
          · exact absurd htName hother
          · exact hrow t ht htName
        · rw [List.lookup_cons, beq_eq_false_iff_ne.2 heq]
          exact hlookup

/-- Under the qualified name of a type stand the methods of its last namesake. -/
theorem methodsOfType_lastNamed (hfits : image.Fits) {index : Index} (h : build image = .ok index) {type : Token}
    {d : TypeDef} (htype : type.Names .typeDef image.types d) :
    ∃ last, image.LastNamed d.qualified last ∧
      index.methodsOfType d.qualified = Image.tokensWhere image.methods .methodDef fun m => m.owner == last := by
  have hrows : image.typeTokens.reverse.Pairwise fun a b => b.row < a.row := by
    rw [List.pairwise_reverse, Image.typeTokens_eq]
    exact Image.pairwise_tokensWhere hfits.types _
  have hmem : ∀ t, t ∈ image.typeTokens.reverse ↔ ∃ d, t.Names .typeDef image.types d := by
    intro t
    rw [List.mem_reverse, Image.mem_typeTokens hfits]
  obtain ⟨last, hlast, hname, hrow, methods, hmethods, hlookup⟩ :=
    methods_of_lists (build_typeMethods h) hrows ((hmem type).2 ⟨d, htype⟩) (Image.typeName_typeDef htype)
  obtain ⟨d', hd'⟩ := (hmem last).1 hlast
  rw [Image.typeName_typeDef hd'] at hname
  rw [Image.methodsOf_names hd'] at hmethods
  refine ⟨last, ⟨⟨d', hd', Except.ok.inj hname⟩, fun t d'' hd'' heq => ?_⟩, ?_⟩
  · exact hrow t ((hmem t).2 ⟨d'', hd''⟩) (by rw [Image.typeName_typeDef hd'', heq])
  · rw [methodsOfType, hlookup, ← Except.ok.inj hmethods]
    rfl

/-- A search by the qualified name of a type finds the first method of its last namesake. -/
theorem findMethod?_lastNamed (hfits : image.Fits) {index : Index} (h : build image = .ok index) {type : Token}
    {d : TypeDef} (htype : type.Names .typeDef image.types d) :
    ∃ last, image.LastNamed d.qualified last ∧ ∀ name paramCount instanceOnly,
      image.Finds last (·.Answers name paramCount instanceOnly)
        (index.findMethod? d.qualified name paramCount instanceOnly) := by
  obtain ⟨last, hlast, hmethods⟩ := methodsOfType_lastNamed hfits h htype
  refine ⟨last, hlast, fun name paramCount instanceOnly => ?_⟩
  obtain ⟨index', hbuild', hr⟩ := exists_build hfits
  obtain rfl := Except.ok.inj (h.symm.trans hbuild')
  unfold findMethod?
  rw [hmethods]
  refine Image.finds_find? hfits fun t m hm howner => ?_
  obtain ⟨d', hd', -⟩ := hlast.named
  rw [(hr.method? hfits).2 ⟨m, d', hm, howner ▸ hd', rfl⟩]
  exact answersTo_iff

/-- The look-up of a constructor through a member of a type of the program is a search by the type's qualified name. -/
theorem resolveConstructor_member {index : Index} {token : Token} {member : MemberRef}
    (hmember : token.Names .memberRef image.memberRefs member) (hname : member.name = ".ctor") {d : TypeDef}
    (hparent : member.parent.Names .typeDef image.types d)
    (htypeName : index.typeName image member.parent = .ok d.qualified) :
    index.resolveConstructor image token =
      match index.findMethod? d.qualified ".ctor" member.paramCount false with
      | some constructor => .ok (constructor, member.parent)
      | none => .error (.constructorNotFound d.qualified member.paramCount) := by
  unfold resolveConstructor
  rw [hmember.1, Image.memberRef_eq_ok_iff.2 hmember]
  change (if member.name ≠ ".ctor" then _ else if member.parent.table ≠ .typeDef then _ else _) = _
  rw [if_neg (not_not.2 hname), if_neg (not_not.2 hparent.1), htypeName]
  rfl

/-- A search that comes to nothing is an error, so every constructor that is found is the first that fits. -/
theorem resolveConstructor_eq_ok_iff {index : Index} {token : Token} {member : MemberRef}
    (hmember : token.Names .memberRef image.memberRefs member) (hname : member.name = ".ctor") {d : TypeDef}
    (hparent : member.parent.Names .typeDef image.types d)
    (htypeName : index.typeName image member.parent = .ok d.qualified) {constructor owner : Token} :
    index.resolveConstructor image token = .ok (constructor, owner) ↔
      owner = member.parent ∧ index.findMethod? d.qualified ".ctor" member.paramCount false = some constructor := by
  rw [resolveConstructor_member hmember hname hparent htypeName]
  cases index.findMethod? d.qualified ".ctor" member.paramCount false with
  | none => simp
  | some found => simp [and_comm, eq_comm]

end Index

/-- Methods of a type are looked up among those of a type `last`. -/
structure Image.LooksUpIn (image : Image) (p : Program) (type last : Token) : Prop where
  /-- A virtual call resolves to the first method of `last` that answers it, and to nothing if there is none. -/
  virtual : ∀ name paramCount,
    image.Finds last (·.Answers name paramCount true) (p.index.resolveVirtual? type name paramCount)
  /-- This is what the type's own methods would give exactly if the two types are the same, or if neither has a method
  that answers. -/
  virtualOwn : ∀ name paramCount,
    image.Finds type (·.Answers name paramCount true) (p.index.resolveVirtual? type name paramCount) ↔
      type = last ∨ image.Finds type (·.Answers name paramCount true) none ∧
        image.Finds last (·.Answers name paramCount true) none
  /-- A constructor looked up through a member of the type is the first of `last` with the number of parameters. -/
  constructor : ∀ token member, token.Names .memberRef image.memberRefs member → member.name = ".ctor" →
    member.parent = type → ∀ constructor owner, p.index.resolveConstructor image token = .ok (constructor, owner) ↔
      owner = type ∧ image.FirstOwned last (·.Answers ".ctor" member.paramCount false) constructor
  /-- The constructors that are found belong to the type exactly if the two types are the same, or if none is found. -/
  constructorOwn : ∀ token member, token.Names .memberRef image.memberRefs member → member.name = ".ctor" →
    member.parent = type → ((∀ constructor owner, p.index.resolveConstructor image token = .ok (constructor, owner) →
      image.Owns type constructor) ↔
        type = last ∨ image.Finds last (·.Answers ".ctor" member.paramCount false) none)

/-- **Methods are looked up in the last namesake of a type.** In a loaded program the methods of a type are looked up
among those of the last type with its qualified name. -/
theorem Image.resolution_by_namesakes {image : Image} (hfits : image.Fits) {p : Program}
    (hload : Program.load image = .ok p) {type : Token} {d : TypeDef} (htype : type.Names .typeDef image.types d) :
    ∃ last, image.LastNamed d.qualified last ∧ image.LooksUpIn p type last := by
  obtain ⟨-, hbuild⟩ := Program.load_eq_ok hload
  obtain ⟨index, hindex, hr⟩ := Index.exists_build hfits
  obtain rfl := Except.ok.inj (hindex.symm.trans hbuild)
  obtain ⟨last, hlast, hsearch⟩ := Index.findMethod?_lastNamed hfits hbuild htype
  have hvirtual : ∀ name paramCount, p.index.resolveVirtual? type name paramCount =
      p.index.findMethod? d.qualified name paramCount true := by
    intro name paramCount
    have hname := (hr.typeNames type d.qualified).2
      ⟨(Index.Reflects.mem_types hfits).2 ⟨d, htype⟩, Image.typeName_typeDef htype⟩
    rw [Index.resolveVirtual?, hname]
    rfl
  have hconstructor : ∀ token member, token.Names .memberRef image.memberRefs member → member.name = ".ctor" →
      member.parent = type → ∀ constructor owner, p.index.resolveConstructor image token = .ok (constructor, owner) ↔
        owner = type ∧ p.index.findMethod? d.qualified ".ctor" member.paramCount false = some constructor := by
    rintro token member hmember hname rfl constructor owner
    have htypeName : p.index.typeName image member.parent = .ok d.qualified := by
      rw [hr.typeName_eq, Image.typeName_typeDef htype]
    exact Index.resolveConstructor_eq_ok_iff hmember hname htype htypeName
  refine ⟨last, hlast, fun name paramCount => ?_, fun name paramCount => ?_,
    fun token member hmember hname hparent constructor owner => ?_, fun token member hmember hname hparent => ?_⟩
  · rw [hvirtual]
    exact hsearch name paramCount true
  · rw [hvirtual]
    exact (hsearch name paramCount true).iff_same
  · rw [hconstructor token member hmember hname hparent, (hsearch ".ctor" member.paramCount false).eq_some_iff]
  · have hfound := hconstructor token member hmember hname hparent
    rw [← (hsearch ".ctor" member.paramCount false).owned_iff]
    constructor
    · intro howned constructor hfirst
      exact howned constructor type ((hfound constructor type).2 ⟨rfl, hfirst⟩)
    · intro howned constructor owner hresolved
      exact howned constructor ((hfound constructor owner).1 hresolved).2

/-- Two types of the qualified name `A.B.C`, each with a method and a constructor of its own, and a reference to the
constructor of the first. -/
def clashImage : Image where
  entryPoint := .ofRow .methodDef 1
  types := [{ name := "Program" }, { space := "A", name := "B.C" }, { space := "A.B", name := "C" }]
  methods := [{ owner := .ofRow .typeDef 1, name := "Main", code := [0x2A] },
    { owner := .ofRow .typeDef 2, name := "Speak", signature := { isInstance := true } },
    { owner := .ofRow .typeDef 3, name := "Speak", signature := { isInstance := true } },
    { owner := .ofRow .typeDef 2, name := ".ctor", signature := { isInstance := true, returnsVoid := true } },
    { owner := .ofRow .typeDef 3, name := ".ctor", signature := { isInstance := true, returnsVoid := true } }]
  memberRefs := [
    { parent := .ofRow .typeDef 2, name := ".ctor", signature := some { isInstance := true, returnsVoid := true } }]

theorem clashImage_fits : clashImage.Fits := by
  constructor <;> decide

/-- The later of the namesakes is the one whose methods are found. -/
theorem Image.resolution_by_namesakes_clash : ∃ p, Program.load clashImage = .ok p ∧
    ∃ last, clashImage.LastNamed "A.B.C" last ∧
      clashImage.Finds last (·.Answers "Speak" 0 true) (p.index.resolveVirtual? (.ofRow .typeDef 2) "Speak" 0) := by
  obtain ⟨p, hload⟩ : ∃ p, Program.load clashImage = .ok p := ⟨_, by cbv⟩
  have htype : (Token.ofRow .typeDef 2).Names .typeDef clashImage.types { space := "A", name := "B.C" } :=
    ⟨rfl, by decide, rfl⟩
  obtain ⟨last, hlast, hlooksUp⟩ := Image.resolution_by_namesakes clashImage_fits hload htype
  exact ⟨p, hload, last, hlast, hlooksUp.virtual "Speak" 0⟩

/-- A type with a method of its own is answered with a method of its namesake, and a constructor asked of it is the
namesake's. -/
theorem Image.namesake_methods_found : clashImage.Fits ∧ ∃ p, Program.load clashImage = .ok p ∧
    (∃ d, (Token.ofRow .typeDef 2).Names .typeDef clashImage.types d) ∧
    ¬clashImage.Finds (.ofRow .typeDef 2) (·.Answers "Speak" 0 true)
      (p.index.resolveVirtual? (.ofRow .typeDef 2) "Speak" 0) ∧
    (∃ member, (Token.ofRow .memberRef 1).Names .memberRef clashImage.memberRefs member ∧ member.name = ".ctor" ∧
      member.parent = .ofRow .typeDef 2) ∧
    p.index.resolveConstructor clashImage (.ofRow .memberRef 1) = .ok (.ofRow .methodDef 5, .ofRow .typeDef 2) ∧
    ¬clashImage.Owns (.ofRow .typeDef 2) (.ofRow .methodDef 5) := by
  have hspeak : (Token.ofRow .methodDef 3).Names .methodDef clashImage.methods
      { owner := .ofRow .typeDef 3, name := "Speak", signature := { isInstance := true } } := ⟨rfl, by decide, rfl⟩
  have hctor : (Token.ofRow .methodDef 5).Names .methodDef clashImage.methods
      { owner := .ofRow .typeDef 3, name := ".ctor", signature := { isInstance := true, returnsVoid := true } } :=
    ⟨rfl, by decide, rfl⟩
  have hother : Token.ofRow .typeDef 3 ≠ .ofRow .typeDef 2 := by decide
  obtain ⟨p, hload, hvirtual, hconstructor⟩ : ∃ p, Program.load clashImage = .ok p ∧
      p.index.resolveVirtual? (.ofRow .typeDef 2) "Speak" 0 = some (.ofRow .methodDef 3) ∧
      p.index.resolveConstructor clashImage (.ofRow .memberRef 1) = .ok (.ofRow .methodDef 5, .ofRow .typeDef 2) :=
    ⟨_, by cbv, by cbv, by cbv⟩
  refine ⟨clashImage_fits, p, hload, ⟨_, rfl, by decide, rfl⟩, fun hfinds => ?_,
    ⟨_, ⟨rfl, by decide, rfl⟩, rfl, rfl⟩, hconstructor, ?_⟩
  · rw [hvirtual] at hfinds
    obtain ⟨m, hm, howner, -⟩ := hfinds.owned
    obtain rfl := hspeak.unique hm
    exact hother howner
  · rintro ⟨m, hm, howner⟩
    obtain rfl := hctor.unique hm
    exact hother howner

end ManagedCode
