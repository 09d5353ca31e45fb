import ManagedCode.Proofs.Computations

/-! Programs whose bodies were all verified. A check goes through the types of the image and their methods. A loaded
program has in its index exactly the methods of these types, so after a successful check every method that a call can
start has a body that was decoded and verified against the signature the call goes by. -/

namespace ManagedCode

/-! ### The methods of an index -/

/-- The token names a method of one of the types. -/
def Image.Declares (image : Image) (types : List Token) (method : Token) : Prop :=
  ∃ type ∈ types, ∃ methods, image.methodsOf type = .ok methods ∧ method ∈ methods

theorem ok_of_forM_ok {α : Type} {f : α → Except Error Unit} {l : List α} (h : l.forM f = .ok ()) :
    ∀ a ∈ l, f a = .ok () := by
  induction l with
  | nil =>
      intro a ha
      cases ha
  | cons a rest ih =>
      change (f a >>= fun _ => rest.forM f) = .ok () at h
      obtain ⟨⟨⟩, hfirst, hrest⟩ := bind_eq_ok_iff.1 h
      intro a' hmem
      rcases List.mem_cons.1 hmem with rfl | hmem
      · exact hfirst
      · exact ih hrest a' hmem

namespace Index

theorem addType_methods {image : Image} {index index' : Index} {type : Token}
    (h : addType image index type = .ok index') {method : Token} {info : MethodInfo}
    (hmem : (method, info) ∈ index'.methods) :
    (method, info) ∈ index.methods ∨ (∃ methods, image.methodsOf type = .ok methods ∧ method ∈ methods) ∧
      image.methodSignature method = .ok info.signature := by
  unfold addType at h
  obtain ⟨typeName, -, h⟩ := bind_eq_ok_iff.1 h
  obtain ⟨methods, hmethods, h⟩ := bind_eq_ok_iff.1 h
  obtain ⟨infos, hinfos, h⟩ := bind_eq_ok_iff.1 h
  obtain ⟨fields, -, h⟩ := bind_eq_ok_iff.1 h
  obtain ⟨keys, -, h⟩ := bind_eq_ok_iff.1 h
  obtain ⟨base, -, h⟩ := bind_eq_ok_iff.1 h
  cases h
  rcases List.mem_append.1 hmem with hmem | hmem
  · obtain ⟨m, hm, hentry⟩ := (exists_of_forall₂ (forall₂_of_mapM_ok hinfos)).2 _ hmem
    obtain ⟨name, -, hentry⟩ := bind_eq_ok_iff.1 hentry
    obtain ⟨signature, hsignature, hentry⟩ := bind_eq_ok_iff.1 hentry
    cases hentry
    exact Or.inr ⟨⟨methods, hmethods, hm⟩, hsignature⟩
  · exact Or.inl hmem

/-- An index holds methods of the types it was built from only, with the signatures that the image has for them. -/
theorem foldlM_addType_methods {image : Image} {types : List Token} {index index' : Index}
    (h : types.foldlM (addType image) index = .ok index') {method : Token} {info : MethodInfo}
    (hmem : (method, info) ∈ index'.methods) : (method, info) ∈ index.methods ∨
      image.Declares types method ∧ image.methodSignature method = .ok info.signature := by
  induction types generalizing index with
  | nil =>
      cases h
      exact Or.inl hmem
  | cons type rest ih =>
      rw [List.foldlM_cons] at h
      obtain ⟨index₁, hadd, hrest⟩ := bind_eq_ok_iff.1 h
      rcases ih hrest with hmem | ⟨⟨type', htype', hdeclared⟩, hsignature⟩
      · rcases addType_methods hadd hmem with hmem | ⟨hdeclared, hsignature⟩
        · exact Or.inl hmem
        · exact Or.inr ⟨⟨type, List.mem_cons_self, hdeclared⟩, hsignature⟩
      · exact Or.inr ⟨⟨type', List.mem_cons_of_mem _ htype', hdeclared⟩, hsignature⟩

theorem declares_of_methodInfo {image : Image} {index : Index} (h : build image = .ok index) {method : Token}
    {info : MethodInfo} (hinfo : index.methodInfo method = .ok info) :
    image.Declares image.typeTokens method ∧ image.methodSignature method = .ok info.signature := by
  unfold methodInfo method? at hinfo
  split at hinfo
  · next found heq =>
    obtain ⟨before, after, hlist, -⟩ := List.lookup_eq_some_iff.1 heq
    have hmem : (method, found) ∈ index.methods := by
      rw [hlist]
      exact List.mem_append_right _ List.mem_cons_self
    rcases foldlM_addType_methods h hmem with hmem | hdeclared
    · cases hmem
    · cases hinfo
      exact hdeclared
  · cases hinfo

/-- The signature of a method is that of a row of the image. -/
theorem exists_row_of_methodInfo {image : Image} {index : Index} (h : build image = .ok index) {method : Token}
    {info : MethodInfo} (hinfo : index.methodInfo method = .ok info) :
    ∃ row ∈ image.methods, row.signature = info.signature := by
  have hsignature := (declares_of_methodInfo h hinfo).2
  rw [Image.methodSignature, Image.method, Image.rowOf] at hsignature
  split at hsignature
  · split at hsignature
    · next row heq =>
      obtain ⟨i, -, hrow⟩ := Option.bind_eq_some_iff.1 heq
      exact ⟨row, List.mem_of_getElem? hrow, Except.ok.inj hsignature⟩
    · cases hsignature
  · cases hsignature

end Index

/-! ### Checked programs -/

namespace Program

/-- Every method of the index has a body that is decoded and verified against its signature. -/
def Checked (p : Program) : Prop :=
  ∀ method info, p.index.methodInfo method = .ok info →
    ∃ row code, p.image.method method = .ok row ∧ verifiedBody info.signature row = .ok code

theorem load_eq_ok {image : Image} {p : Program} (h : load image = .ok p) :
    p.image = image ∧ Index.build image = .ok p.index := by
  unfold load at h
  obtain ⟨index, hindex, h⟩ := bind_eq_ok_iff.1 h
  obtain ⟨entryPoint, -, h⟩ := bind_eq_ok_iff.1 h
  obtain ⟨info, -, h⟩ := bind_eq_ok_iff.1 h
  split at h
  · cases h
  · split at h
    · cases h
    · cases h
      exact ⟨rfl, hindex⟩

theorem checkMethod_of_check {p : Program} {count : Nat} (h : p.check = .ok count) {method : Token}
    (hdeclared : p.image.Declares p.image.typeTokens method) : p.checkMethod method = .ok () := by
  obtain ⟨type, htype, methods, hmethods, hmem⟩ := hdeclared
  unfold check at h
  obtain ⟨counts, hcounts, -⟩ := bind_eq_ok_iff.1 h
  obtain ⟨count, -, hcount⟩ := (exists_of_forall₂ (forall₂_of_mapM_ok hcounts)).1 type htype
  obtain ⟨methods', hmethods', hcount⟩ := bind_eq_ok_iff.1 hcount
  obtain rfl : methods = methods' := Except.ok.inj (hmethods.symm.trans hmethods')
  obtain ⟨⟨⟩, hbodies, -⟩ := bind_eq_ok_iff.1 hcount
  exact ok_of_forM_ok hbodies method hmem

/-- **A check covers every method that a call can start.** -/
theorem checked_of_check {image : Image} {p : Program} {count : Nat} (hload : load image = .ok p)
    (hcheck : p.check = .ok count) : p.Checked := by
  obtain ⟨rfl, hbuild⟩ := load_eq_ok hload
  intro method info hinfo
  have hmethod := checkMethod_of_check hcheck (Index.declares_of_methodInfo hbuild hinfo).1
  unfold checkMethod at hmethod
  obtain ⟨info', hinfo', hmethod⟩ := bind_eq_ok_iff.1 hmethod
  obtain ⟨row, hrow, hmethod⟩ := bind_eq_ok_iff.1 hmethod
  obtain ⟨code, hcode, -⟩ := bind_eq_ok_iff.1 hmethod
  obtain rfl : info = info' := Except.ok.inj (hinfo.symm.trans hinfo')
  exact ⟨row, code, hrow, hcode⟩

end Program
end ManagedCode
