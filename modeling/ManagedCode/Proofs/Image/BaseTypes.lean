import ManagedCode.Proofs.Calls.Unwinding
import ManagedCode.Proofs.Image.Namesakes

/-! The base types of a type. A walk goes from a type to the type of the program that its base names, and on from there.
It takes no name twice, so it stops: at a type without a base, before a name that it has, or at a base that the program
does not define. The ancestry of a type is the names along this walk, and then what completes them to the root: the
known types from the foreign base on, or the root type itself. A thrown object is taken by a handler for any of these
names. -/

namespace ManagedCode

/-! ### Types that no program defines -/

theorem KnownType.getLast?_chain (t : KnownType) : t.chain.getLast? = some .object := by
  fun_induction chain t with
  | case1 t h => cases t <;> first | rfl | cases h
  | case2 t b h _ ih => rw [List.getLast?_cons, ih]; rfl

theorem getLast?_builtinAncestry (typeName : String) : (builtinAncestry typeName).getLast? = some "System.Object" := by
  unfold builtinAncestry
  split
  · next t _ =>
    rw [List.getLast?_map, t.getLast?_chain]
    rfl
  · rfl

/-! ### Walks -/

/-- Where a walk along the declared bases stops: at a type without a base, before a name that it has, or at a name that
the program does not define. -/
inductive WalkEnd where
  | baseless
  | repeated (base : String)
  | foreign (base : String)

/-- The names that a walk goes on with outside the program. -/
def WalkEnd.outside : WalkEnd → List String
  | .foreign base => builtinAncestry base
  | _ => []

theorem Index.getLast?_endAtRoot (names : List String) : (endAtRoot names).getLast? = some "System.Object" := by
  unfold endAtRoot
  split
  · next hlast => exact hlast
  · exact List.getLast?_concat

/-- What comes after the names of a walk. -/
def WalkEnd.completion (names : List String) : WalkEnd → List String
  | .foreign base => builtinAncestry base
  | _ => if names.getLast? = some "System.Object" then [] else ["System.Object"]

theorem WalkEnd.endAtRoot_append (stop : WalkEnd) (names : List String) :
    Index.endAtRoot (names ++ stop.outside) = names ++ stop.completion names := by
  have closed : Index.endAtRoot (names ++ []) =
      names ++ if names.getLast? = some "System.Object" then [] else ["System.Object"] := by
    rw [List.append_nil, Index.endAtRoot]
    change (if names.getLast? = some "System.Object" then _ else _) = _
    split
    · exact (List.append_nil names).symm
    · rfl
  cases stop with
  | foreign base =>
      have hlast : (names ++ builtinAncestry base).getLast? = some "System.Object" := by
        rw [List.getLast?_append, getLast?_builtinAncestry]
        rfl
      exact if_pos hlast
  | baseless => exact closed
  | repeated base => exact closed

namespace Image

/-- The second type is the one of the program that the base of the first names. -/
def Extends (image : Image) (type above : Token) : Prop :=
  ∃ d base, type.Names .typeDef image.types d ∧ d.base = some base ∧ image.LastNamed base above

/-- A walk that has the given names stops at the type. -/
def StopsAt (image : Image) (names : List String) (last : Token) : WalkEnd → Prop
  | .baseless => ∃ d, last.Names .typeDef image.types d ∧ d.base = none
  | .repeated base => ∃ d, last.Names .typeDef image.types d ∧ d.base = some base ∧ base ∈ names
  | .foreign base => ∃ d, last.Names .typeDef image.types d ∧ d.base = some base ∧
      ∀ (t : Token) (d' : TypeDef), t.Names .typeDef image.types d' → d'.qualified ≠ base

/-- The walk from a type: the types above it, the names of them all, and where the walk stops. -/
structure Walks (image : Image) (type : Token) (above : List Token) (names : List String) (stop : WalkEnd) : Prop where
  linked : (type :: above).IsChain image.Extends
  named : List.Forall₂ (fun t name => image.typeName t = .ok name) (type :: above) names
  distinct : names.Nodup
  stops : image.StopsAt names ((type :: above).getLast (List.cons_ne_nil _ _)) stop

variable {image : Image}

theorem LastNamed.unique {name : String} {t u : Token} (ht : image.LastNamed name t) (hu : image.LastNamed name u) :
    t = u := by
  obtain ⟨d, hd, hname⟩ := ht.named
  obtain ⟨d', hd', hname'⟩ := hu.named
  have hrow : t.row = u.row := Nat.le_antisymm (hu.last t d hd hname) (ht.last u d' hd' hname')
  rw [t.eq_ofRow, u.eq_ofRow, hd.1, hd'.1, hrow]

theorem LastNamed.typeName {name : String} {t : Token} (ht : image.LastNamed name t) :
    image.typeName t = .ok name := by
  obtain ⟨d, hd, rfl⟩ := ht.named
  exact typeName_typeDef hd

theorem StopsAt.mono {names names' : List String} (h : ∀ n ∈ names, n ∈ names') {last : Token} {stop : WalkEnd}
    (hstop : image.StopsAt names last stop) : image.StopsAt names' last stop := by
  cases stop with
  | baseless => exact hstop
  | repeated base =>
      obtain ⟨d, hd, hbase, hseen⟩ := hstop
      exact ⟨d, hd, hbase, h base hseen⟩
  | foreign base => exact hstop

theorem stopsAt_append_cons {seen names : List String} {name : String} {last : Token} {stop : WalkEnd} :
    image.StopsAt (seen ++ name :: names) last stop ↔ image.StopsAt (name :: seen ++ names) last stop :=
  ⟨.mono fun _ => List.perm_middle.mem_iff.1, .mono fun _ => List.perm_middle.mem_iff.2⟩

end Image

/-! ### The types of an index -/

namespace Index

variable {image : Image} {index : Index}

/-- The index has the given types of the image with their names and bases. -/
structure HasTypes (image : Image) (rows : List (Token × TypeDef)) (index : Index) : Prop where
  listed : ∀ r ∈ rows, r.1.Names .typeDef image.types r.2
  typeNames : index.typeNames = rows.map fun r => (r.1, r.2.qualified)
  typesByName : index.typesByName = rows.map fun r => (r.2.qualified, r.1)
  bases : index.bases = rows.filterMap fun r => r.2.base.map fun base => (r.1, base)

theorem HasTypes.addType {rows : List (Token × TypeDef)} (h : HasTypes image rows index) {type : Token}
    {index' : Index} (hadd : Index.addType image index type = .ok index') :
    ∃ d, HasTypes image ((type, d) :: rows) index' := by
  unfold Index.addType at hadd
  obtain ⟨typeName, hname, hadd⟩ := bind_eq_ok_iff.1 hadd
  obtain ⟨methods, hmethods, hadd⟩ := bind_eq_ok_iff.1 hadd
  obtain ⟨infos, -, hadd⟩ := bind_eq_ok_iff.1 hadd
  obtain ⟨fields, hfields, hadd⟩ := bind_eq_ok_iff.1 hadd
  obtain ⟨keys, -, hadd⟩ := bind_eq_ok_iff.1 hadd
  obtain ⟨base, hbase, hadd⟩ := bind_eq_ok_iff.1 hadd
  cases hadd
  obtain ⟨⟨d, hd⟩, -⟩ := Image.fieldsOf_eq_ok_iff.1 hfields
  rw [Image.typeName_typeDef hd] at hname
  rw [Image.baseTypeName_names hd] at hbase
  cases hname
  cases hbase
  refine ⟨d, List.forall_mem_cons.2 ⟨hd, h.listed⟩, ?_, ?_, ?_⟩
  · rw [List.map_cons, h.typeNames]
  · rw [List.map_cons, h.typesByName]
  · rw [List.filterMap_cons, h.bases]
    cases d.base <;> rfl

theorem HasTypes.foldlM_addType {types : List Token} {rows : List (Token × TypeDef)} (h : HasTypes image rows index)
    {index' : Index} (hfold : types.foldlM (Index.addType image) index = .ok index') :
    ∃ rows', HasTypes image rows' index' ∧ rows'.map Prod.fst = types.reverse ++ rows.map Prod.fst := by
  induction types generalizing rows index with
  | nil =>
      cases hfold
      exact ⟨rows, h, rfl⟩
  | cons type rest ih =>
      rw [List.foldlM_cons] at hfold
      obtain ⟨index₁, hadd, hrest⟩ := bind_eq_ok_iff.1 hfold
      obtain ⟨d, hd⟩ := h.addType hadd
      obtain ⟨rows', hrows', hkeys⟩ := ih hd hrest
      refine ⟨rows', hrows', ?_⟩
      rw [hkeys, List.reverse_cons, List.append_assoc]
      rfl

/-- A built index has all types of its image, the type in the last row first. -/
theorem exists_hasTypes (h : build image = .ok index) :
    ∃ rows, HasTypes image rows index ∧ rows.map Prod.fst = image.typeTokens.reverse := by
  have hempty : HasTypes image [] {} := ⟨fun r hr => (by cases hr), rfl, rfl, rfl⟩
  obtain ⟨rows, hrows, hkeys⟩ := hempty.foldlM_addType h
  exact ⟨rows, hrows, hkeys.trans (List.append_nil _)⟩

/-- An image with more types than tokens can tell apart has no index. -/
theorem types_length_lt (h : build image = .ok index) : image.types.length < rowLimit := by
  obtain ⟨rows, hrows, hkeys⟩ := exists_hasTypes h
  by_contra hmany
  have hmem : Token.ofRow .typeDef rowLimit ∈ rows.map Prod.fst := by
    rw [hkeys, List.mem_reverse, Image.typeTokens, List.mem_map]
    have hlt : rowLimit - 1 < image.types.length := by
      have hpos : 0 < rowLimit := by decide
      omega
    exact ⟨(image.types[rowLimit - 1], rowLimit - 1),
      List.mem_zipIdx_iff_getElem?.2 (List.getElem?_eq_getElem hlt), rfl⟩
  obtain ⟨r, hr, htoken⟩ := List.mem_map.1 hmem
  have hnil : r.1.row = 0 := by
    rw [htoken]
    decide
  exact absurd (hrows.listed r hr).2.1 (by omega)

/-- What a look-up by name in a list of types gives is the first with that name. -/
theorem lookup_first {rows : List (Token × TypeDef)} (hrows : (rows.map Prod.fst).Pairwise fun a b => b.row < a.row)
    {name : String} {u : Token} (h : (rows.map fun r => (r.2.qualified, r.1)).lookup name = some u) :
    (∃ d, (u, d) ∈ rows ∧ d.qualified = name) ∧ ∀ r ∈ rows, r.2.qualified = name → r.1.row ≤ u.row := by
  induction rows with
  | nil => cases h
  | cons head rows ih =>
      obtain ⟨hfirst, hrest⟩ := List.pairwise_cons.1 hrows
      rw [List.map_cons, List.lookup_cons] at h
      by_cases heq : name = head.2.qualified
      · rw [heq, beq_self_eq_true] at h
        cases h
        refine ⟨⟨head.2, List.mem_cons_self, heq.symm⟩, fun r hr _ => ?_⟩
        rcases List.mem_cons.1 hr with rfl | hr
        · exact Nat.le_refl _
        · exact Nat.le_of_lt (hfirst r.1 (List.mem_map_of_mem hr))
      · rw [beq_eq_false_iff_ne.2 heq] at h
        obtain ⟨⟨d, hd, hname⟩, hlast⟩ := ih hrest h
        refine ⟨⟨d, List.mem_cons_of_mem _ hd, hname⟩, fun r hr hrname => ?_⟩
        rcases List.mem_cons.1 hr with rfl | hr
        · exact absurd hrname.symm heq
        · exact hlast r hr hrname

/-- What look-ups of types in an index give: the name and the base of a type, and of the types with a name the last. -/
structure FindsTypes (image : Image) (index : Index) : Prop where
  typeName : ∀ (t : Token) (d : TypeDef), t.Names .typeDef image.types d → index.typeNames.lookup t = some d.qualified
  base : ∀ (t : Token) (d : TypeDef), t.Names .typeDef image.types d → index.bases.lookup t = d.base
  named : ∀ name u, index.typeToken? name = some u → image.LastNamed name u
  unnamed : ∀ name, index.typeToken? name = none →
    ∀ (t : Token) (d : TypeDef), t.Names .typeDef image.types d → d.qualified ≠ name

theorem findsTypes_of_build (h : build image = .ok index) : FindsTypes image index := by
  obtain ⟨rows, hrows, hkeys⟩ := exists_hasTypes h
  have hfits := types_length_lt h
  have hordered : (rows.map Prod.fst).Pairwise fun a b => b.row < a.row := by
    rw [hkeys, List.pairwise_reverse, Image.typeTokens_eq]
    exact Image.pairwise_tokensWhere hfits _
  have hnodup : (rows.map Prod.fst).Nodup := hordered.imp fun hlt heq => by
    rw [heq] at hlt
    exact Nat.lt_irrefl _ hlt
  have hmem : ∀ t d, t.Names .typeDef image.types d → (t, d) ∈ rows := by
    intro t d hd
    have hkey : t ∈ rows.map Prod.fst := by
      rw [hkeys, List.mem_reverse, Image.typeTokens_eq, Image.mem_tokensWhere .typeDef rfl hfits]
      exact ⟨d, hd, rfl⟩
    obtain ⟨⟨t', d'⟩, hr, rfl⟩ := List.mem_map.1 hkey
    rwa [hd.unique (hrows.listed _ hr)]
  refine ⟨fun t d hd => ?_, fun t d hd => ?_, fun name u hu => ?_, fun name hnone t d hd hname => ?_⟩
  · rw [hrows.typeNames]
    refine lookup_of_mem ?_ (List.mem_map_of_mem (hmem t d hd))
    rwa [List.map_map]
  · cases hfound : index.bases.lookup t with
    | some base =>
        rw [hrows.bases] at hfound
        obtain ⟨⟨t', d'⟩, hr, hbase⟩ := List.mem_filterMap.1 (mem_of_lookup_eq_some hfound)
        obtain ⟨base', hbase', heq⟩ := Option.map_eq_some_iff.1 hbase
        cases heq
        rw [hd.unique (hrows.listed _ hr), hbase']
    | none =>
        cases hbase : d.base with
        | none => rfl
        | some base =>
            have hentry : (t, base) ∈ index.bases := by
              rw [hrows.bases]
              exact List.mem_filterMap.2 ⟨(t, d), hmem t d hd, by rw [hbase]; rfl⟩
            have hne := List.lookup_eq_none_iff.1 hfound _ hentry
            simp at hne
  · rw [typeToken?, hrows.typesByName] at hu
    obtain ⟨⟨d, hd, hname⟩, hlast⟩ := lookup_first hordered hu
    exact ⟨⟨d, hrows.listed _ hd, hname⟩, fun t d' hd' hname' => hlast (t, d') (hmem t d' hd') hname'⟩
  · rw [typeToken?, hrows.typesByName] at hnone
    have hne := List.lookup_eq_none_iff.1 hnone _ (List.mem_map_of_mem (hmem t d hd))
    simp [hname] at hne

/-! ### Along the bases -/

/-- The names that the search for base types gives after those it has. -/
def beyond (index : Index) (seen : List String) : Option String → List String
  | none => []
  | some base => index.walk seen base

theorem walk_of_named {seen : List String} {base : String} (hnew : base ∉ seen) {u : Token}
    (hu : index.typeToken? base = some u) :
    index.walk seen base = base :: index.beyond (base :: seen) (index.bases.lookup u) := by
  rw [walk, dif_neg hnew]
  split
  · next hnone =>
    rw [hu] at hnone
    cases hnone
  · next u' hu' =>
    obtain rfl := Option.some.inj (hu.symm.trans hu')
    cases index.bases.lookup u <;> rfl

theorem walk_of_unnamed {seen : List String} {base : String} (hnew : base ∉ seen)
    (hnone : index.typeToken? base = none) : index.walk seen base = builtinAncestry base := by
  rw [walk, dif_neg hnew]
  split
  · rfl
  · next hu =>
    rw [hnone] at hu
    cases hu

variable (hindex : FindsTypes image index)

include hindex

theorem FindsTypes.typeName_eq {type : Token} {d : TypeDef} (htype : type.Names .typeDef image.types d) :
    index.typeName image type = image.typeName type := by
  rw [Index.typeName, hindex.typeName type d htype, Image.typeName_typeDef htype]

theorem FindsTypes.typeToken?_of_last {name : String} {u : Token} (hu : image.LastNamed name u) :
    index.typeToken? name = some u := by
  obtain ⟨d, hd, hname⟩ := hu.named
  cases hfound : index.typeToken? name with
  | none => exact absurd hname (hindex.unnamed name hfound u d hd)
  | some u' => rw [(hindex.named name u' hfound).unique hu]

theorem FindsTypes.typeToken?_of_foreign {name : String}
    (h : ∀ (t : Token) (d : TypeDef), t.Names .typeDef image.types d → d.qualified ≠ name) :
    index.typeToken? name = none := by
  refine Option.eq_none_iff_forall_ne_some.2 fun u hu => ?_
  obtain ⟨d, hd, hname⟩ := (hindex.named name u hu).named
  exact h u d hd hname

/-- Along a walk, the search gives the names of the walk and, at a foreign base, its built-in bases. -/
theorem FindsTypes.beyond_eq {above : List Token} {names seen : List String} {type : Token} {d : TypeDef}
    (htype : type.Names .typeDef image.types d) (hlinked : (type :: above).IsChain image.Extends)
    (hnamed : List.Forall₂ (fun t name => image.typeName t = .ok name) above names) (hdistinct : names.Nodup)
    (hseen : ∀ n ∈ seen, ∃ t, image.typeName t = .ok n ∧ ∃ d, t.Names .typeDef image.types d)
    (hnew : ∀ n ∈ names, n ∉ seen) {stop : WalkEnd}
    (hstop : image.StopsAt (seen ++ names) ((type :: above).getLast (List.cons_ne_nil _ _)) stop) :
    index.beyond seen d.base = names ++ stop.outside := by
  induction above generalizing type d names seen with
  | nil =>
      cases hnamed
      rw [List.getLast_singleton, List.append_nil] at hstop
      cases stop with
      | baseless =>
          obtain ⟨d', hd', hbase⟩ := hstop
          rw [htype.unique hd', hbase]
          rfl
      | repeated base =>
          obtain ⟨d', hd', hbase, hmem⟩ := hstop
          rw [htype.unique hd', hbase, beyond, walk, dif_pos hmem]
          rfl
      | foreign base =>
          obtain ⟨d', hd', hbase, hforeign⟩ := hstop
          have hfresh : base ∉ seen := by
            intro hmem
            obtain ⟨t, hname, dt, ht⟩ := hseen base hmem
            rw [Image.typeName_typeDef ht] at hname
            exact hforeign t dt ht (Except.ok.inj hname)
          rw [htype.unique hd', hbase, beyond, walk_of_unnamed hfresh (hindex.typeToken?_of_foreign hforeign)]
          rfl
  | cons u above ih =>
      obtain ⟨⟨d', base, hd', hbase, hlast⟩, hlinked⟩ := List.isChain_cons_cons.1 hlinked
      obtain ⟨n, names, hname, habove, rfl⟩ := List.forall₂_cons_left_iff.1 hnamed
      obtain rfl := Except.ok.inj (hlast.typeName.symm.trans hname)
      obtain ⟨hfresh, hdistinct⟩ := List.nodup_cons.1 hdistinct
      obtain ⟨hnotSeen, hnew⟩ := List.forall_mem_cons.1 hnew
      obtain ⟨du, hu, -⟩ := hlast.named
      have hrest : index.beyond (base :: seen) du.base = names ++ stop.outside := by
        refine ih hu hlinked habove hdistinct ?_ ?_ (Image.stopsAt_append_cons.1 hstop)
        · exact List.forall_mem_cons.2 ⟨⟨u, hname, du, hu⟩, hseen⟩
        · intro n hn hmem
          rcases List.mem_cons.1 hmem with rfl | hmem
          · exact hfresh hn
          · exact hnew n hn hmem
      rw [htype.unique hd', hbase, beyond, walk_of_named hnotSeen (hindex.typeToken?_of_last hlast),
        hindex.base u du hu, hrest]
      rfl

/-- **The ancestry of a type** is made of the names along its walk and what completes them. -/
theorem FindsTypes.ancestry_eq {type : Token} {d : TypeDef} (htype : type.Names .typeDef image.types d)
    {above : List Token} {names : List String} {stop : WalkEnd} (h : image.Walks type above names stop) :
    index.ancestry type = names ++ stop.completion names := by
  obtain ⟨n, rest, hname, hnamed, rfl⟩ := List.forall₂_cons_left_iff.1 h.named
  obtain rfl := Except.ok.inj ((Image.typeName_typeDef htype).symm.trans hname)
  obtain ⟨hfresh, hdistinct⟩ := List.nodup_cons.1 h.distinct
  have hbeyond : index.beyond [d.qualified] d.base = rest ++ stop.outside := by
    refine hindex.beyond_eq htype h.linked hnamed hdistinct ?_ ?_ h.stops
    · exact List.forall_mem_singleton.2 ⟨type, hname, d, htype⟩
    · rintro n hn hmem
      obtain rfl := List.mem_singleton.1 hmem
      exact hfresh hn
  have hnames : index.ancestry type = endAtRoot (d.qualified :: index.beyond [d.qualified] d.base) := by
    rw [ancestry, hindex.typeName type d htype, hindex.base type d htype]
    cases d.base <;> rfl
  rw [hnames, hbeyond, ← List.cons_append, stop.endAtRoot_append]

/-- A walk goes on from a type whose base is `base`, with names that are new. -/
theorem FindsTypes.exists_above (seen : List String) (base : String) :
    ∀ (type : Token) (d : TypeDef), type.Names .typeDef image.types d → d.base = some base →
      ∃ above names stop, (type :: above).IsChain image.Extends ∧
        List.Forall₂ (fun t name => image.typeName t = .ok name) above names ∧ names.Nodup ∧ (∀ n ∈ names, n ∉ seen) ∧
        image.StopsAt (seen ++ names) ((type :: above).getLast (List.cons_ne_nil _ _)) stop := by
  fun_induction walk index seen base with
  | case1 seen base hmem =>
      intro type d hd hbase
      refine ⟨[], [], .repeated base, .singleton _, .nil, List.nodup_nil, fun n hn => (by cases hn), d, hd, hbase, ?_⟩
      exact List.mem_append_left _ hmem
  | case2 seen base hfresh hnone =>
      intro type d hd hbase
      exact ⟨[], [], .foreign base, .singleton _, .nil, List.nodup_nil, fun n hn => (by cases hn), d, hd, hbase,
        hindex.unnamed base hnone⟩
  | case3 seen base hfresh u hu hless hnone =>
      intro type d hd hbase
      have hlast := hindex.named base u hu
      obtain ⟨du, hdu, -⟩ := hlast.named
      rw [hindex.base u du hdu] at hnone
      refine ⟨[u], [base], .baseless, .cons_cons ⟨d, base, hd, hbase, hlast⟩ (.singleton u),
        .cons hlast.typeName .nil, List.nodup_singleton base, ?_, du, hdu, hnone⟩
      exact List.forall_mem_singleton.2 hfresh
  | case4 seen base hfresh u hu hless next hnext ih =>
      intro type d hd hbase
      have hlast := hindex.named base u hu
      obtain ⟨du, hdu, -⟩ := hlast.named
      rw [hindex.base u du hdu] at hnext
      obtain ⟨above, names, stop, hlinked, hnamed, hdistinct, hnew, hstop⟩ := ih u du hdu hnext
      refine ⟨u :: above, base :: names, stop, .cons_cons ⟨d, base, hd, hbase, hlast⟩ hlinked,
        .cons hlast.typeName hnamed, List.nodup_cons.2 ⟨fun hmem => hnew base hmem List.mem_cons_self, hdistinct⟩,
        List.forall_mem_cons.2 ⟨hfresh, fun n hn hmem => hnew n hn (List.mem_cons_of_mem _ hmem)⟩, ?_⟩
      exact Image.stopsAt_append_cons.2 hstop

theorem FindsTypes.exists_walks {type : Token} {d : TypeDef} (htype : type.Names .typeDef image.types d) :
    ∃ above names stop, image.Walks type above names stop := by
  have hname := Image.typeName_typeDef htype
  cases hbase : d.base with
  | none =>
      exact ⟨[], [d.qualified], .baseless, .singleton _, .cons hname .nil, List.nodup_singleton _, d, htype, hbase⟩
  | some base =>
      obtain ⟨above, names, stop, hlinked, hnamed, hdistinct, hnew, hstop⟩ :=
        hindex.exists_above [d.qualified] base type d htype hbase
      refine ⟨above, d.qualified :: names, stop, hlinked, .cons hname hnamed, List.nodup_cons.2 ⟨?_, hdistinct⟩, hstop⟩
      exact fun hmem => hnew _ hmem List.mem_cons_self

omit hindex

end Index

namespace Image

variable {image : Image} {type : Token} {above : List Token} {names : List String} {stop : WalkEnd}

theorem names_of_linked (hlinked : (type :: above).IsChain image.Extends) :
    ∀ t ∈ above, ∃ d, t.Names .typeDef image.types d := by
  induction above generalizing type with
  | nil =>
      intro t ht
      cases ht
  | cons u above ih =>
      obtain ⟨⟨_, _, _, _, hlast⟩, hlinked⟩ := List.isChain_cons_cons.1 hlinked
      obtain ⟨du, hu, -⟩ := hlast.named
      exact List.forall_mem_cons.2 ⟨⟨du, hu⟩, ih hlinked⟩

/-- Every type on a walk is one of the program. -/
theorem Walks.types (h : image.Walks type above names stop) {d : TypeDef} (htype : type.Names .typeDef image.types d) :
    ∀ t ∈ type :: above, ∃ d, t.Names .typeDef image.types d :=
  List.forall_mem_cons.2 ⟨⟨d, htype⟩, names_of_linked h.linked⟩

/-- A walk takes no type's name twice, so it is no longer than the list of types. -/
theorem Walks.length_le (h : image.Walks type above names stop) {d : TypeDef}
    (htype : type.Names .typeDef image.types d) : names.length ≤ image.types.length := by
  have hsubset : names ⊆ image.types.map TypeDef.qualified := by
    intro n hn
    obtain ⟨t, ht, hname⟩ := (exists_of_forall₂ h.named).2 n hn
    obtain ⟨d, hd⟩ := h.types htype t ht
    rw [typeName_typeDef hd] at hname
    exact List.mem_map.2 ⟨d, List.mem_of_getElem? hd.2.2, Except.ok.inj hname⟩
  simpa using (h.distinct.subperm hsubset).length_le

/-- A walk that repeats no name goes on from its second type as the walk from there. -/
theorem Walks.tail {u : Token} (h : image.Walks type (u :: above) names stop)
    (hnew : ∀ base, stop ≠ .repeated base) : image.Walks u above names.tail stop := by
  obtain ⟨n, rest, -, hnamed, rfl⟩ := List.forall₂_cons_left_iff.1 h.named
  refine ⟨(List.isChain_cons_cons.1 h.linked).2, hnamed, (List.nodup_cons.1 h.distinct).2, ?_⟩
  have hstop := h.stops
  rw [List.getLast_cons (List.cons_ne_nil u above)] at hstop
  cases stop with
  | repeated base => exact absurd rfl (hnew base)
  | baseless => exact hstop
  | foreign base => exact hstop

/-- The walk from a type with a base that the program defines, unless it repeats a name, goes on there. -/
theorem Walks.exists_cons (h : image.Walks type above names stop) (hnew : ∀ base, stop ≠ .repeated base) {d : TypeDef}
    (htype : type.Names .typeDef image.types d) {base : String} (hbase : d.base = some base) {u : Token}
    (hu : image.LastNamed base u) : ∃ rest, above = u :: rest := by
  cases above with
  | nil =>
      have hstop := h.stops
      rw [List.getLast_singleton] at hstop
      cases stop with
      | repeated base => exact absurd rfl (hnew base)
      | baseless =>
          obtain ⟨d', hd', hnone⟩ := hstop
          rw [← htype.unique hd', hbase] at hnone
          cases hnone
      | foreign base' =>
          obtain ⟨d', hd', hbase', hforeign⟩ := hstop
          rw [← htype.unique hd', hbase] at hbase'
          cases hbase'
          obtain ⟨du, hdu, hname⟩ := hu.named
          exact absurd hname (hforeign u du hdu)
  | cons v rest =>
      obtain ⟨⟨d', base', hd', hbase', hv⟩, -⟩ := List.isChain_cons_cons.1 h.linked
      rw [← htype.unique hd', hbase] at hbase'
      cases hbase'
      exact ⟨rest, by rw [hv.unique hu]⟩

theorem Walks.ancestry_cons {index : Index} (hindex : Index.FindsTypes image index)
    (h : image.Walks type above names stop) (hnew : ∀ base, stop ≠ .repeated base) {d : TypeDef}
    (htype : type.Names .typeDef image.types d) {base : String} (hbase : d.base = some base) {u : Token}
    (hu : image.LastNamed base u) : index.ancestry type = d.qualified :: index.ancestry u := by
  obtain ⟨rest, rfl⟩ := h.exists_cons hnew htype hbase hu
  obtain ⟨du, hdu, -⟩ := hu.named
  obtain ⟨n, tail, hname, hnamed, rfl⟩ := List.forall₂_cons_left_iff.1 h.named
  obtain ⟨n', tail', -, -, rfl⟩ := List.forall₂_cons_left_iff.1 hnamed
  obtain rfl := Except.ok.inj ((typeName_typeDef htype).symm.trans hname)
  have hcompletion : stop.completion (d.qualified :: n' :: tail') = stop.completion (n' :: tail') := by
    cases stop with
    | foreign base => rfl
    | baseless => simp only [WalkEnd.completion, List.getLast?_cons_cons]
    | repeated base => exact absurd rfl (hnew base)
  rw [hindex.ancestry_eq htype h, hindex.ancestry_eq hdu (h.tail hnew), hcompletion]
  rfl

end Image

/-! ### Handlers of thrown objects -/

theorem Fault.isInstanceOf_of_mem {fault : Fault} {name : String} (h : name ∈ fault.ancestry) :
    fault.isInstanceOf name = true := by
  rw [isInstanceOf, Bool.or_eq_true, List.contains_iff_mem]
  exact Or.inr h

/-- A region that names a type of the ancestry takes the fault. -/
theorem Region.accepts_of_mem {p : Program} {fault : Fault} {r : Region} {type : Token}
    (htype : r.catchType = some type) {name : String} (hname : p.index.typeName p.image type = .ok name)
    (hmem : name ∈ fault.ancestry) : r.Accepts p fault :=
  Or.inr ⟨type, htype, Or.inr ⟨name, hname, Fault.isInstanceOf_of_mem hmem⟩⟩

/-- **Chains of base types.** The ancestry of a type of the program starts with the qualified name of the type and ends
with the root type. There is a walk from the type, and the ancestry is made of the names along it, of which there are at
most as many as the program has types, and of what completes them. Unless the walk repeats a name, the ancestry goes on
as that of the type that the base names. When an object of the type is thrown, every region that names a type of the
walk takes the fault, and so does every region that names one of the types that complete it. -/
theorem Image.ancestry_along_bases {image : Image} {index : Index} (hbuild : Index.build image = .ok index)
    {type : Token} {d : TypeDef} (htype : type.Names .typeDef image.types d) :
    (index.ancestry type).head? = some d.qualified ∧ (index.ancestry type).getLast? = some "System.Object" ∧
    (∃ above names stop, image.Walks type above names stop) ∧
    ∀ above names stop, image.Walks type above names stop →
      names.length ≤ image.types.length ∧ index.ancestry type = names ++ stop.completion names ∧
      ((∀ base, stop ≠ .repeated base) → ∀ base u, d.base = some base → image.LastNamed base u →
        index.ancestry type = d.qualified :: index.ancestry u) ∧
      ∀ (p : Program) (m : Machine) (h : Handle) (o : Object), p.image = image → p.index = index →
        m.heap.get? h = some o → o.type = type → ∃ fault, Machine.raise p m (.object h) = .thrown fault none ∧
          fault.payload = some h ∧
          (∀ t ∈ type :: above, ∀ r : Region, r.catchType = some t → r.Accepts p fault) ∧
          ∀ name ∈ stop.completion names, ∀ (t : Token) (r : Region), r.catchType = some t →
            index.typeName image t = .ok name → r.Accepts p fault := by
  have hindex := Index.findsTypes_of_build hbuild
  refine ⟨?_, Index.getLast?_endAtRoot _, hindex.exists_walks htype, fun above names stop hwalk => ?_⟩
  · obtain ⟨above, names, stop, hwalk⟩ := hindex.exists_walks htype
    obtain ⟨n, rest, hname, -, rfl⟩ := List.forall₂_cons_left_iff.1 hwalk.named
    obtain rfl := Except.ok.inj ((Image.typeName_typeDef htype).symm.trans hname)
    rw [hindex.ancestry_eq htype hwalk]
    rfl
  have hancestry := hindex.ancestry_eq htype hwalk
  refine ⟨hwalk.length_le htype, hancestry, ?_, ?_⟩
  · intro hnew base u hbase hu
    exact hwalk.ancestry_cons hindex hnew htype hbase hu
  · rintro p m h o rfl rfl hget rfl
    refine ⟨.ofObject (p.index.ancestry o.type) h, ?_, rfl, fun t ht r hr => ?_, fun name hname t r hr htypeName => ?_⟩
    · simp only [Machine.raise, Heap.object, hget]
    · obtain ⟨dt, hdt⟩ := hwalk.types htype t ht
      obtain ⟨name, hname, htypeName⟩ := (exists_of_forall₂ hwalk.named).1 t ht
      refine Region.accepts_of_mem hr ((hindex.typeName_eq hdt).trans htypeName) ?_
      change name ∈ p.index.ancestry o.type
      rw [hancestry]
      exact List.mem_append_left _ hname
    · refine Region.accepts_of_mem hr htypeName ?_
      change name ∈ p.index.ancestry o.type
      rw [hancestry]
      exact List.mem_append_right _ hname

/-- Two types that are each other's base, and two errors of which the second leads out of the program. -/
def kennelImage : Image where
  entryPoint := .ofRow .methodDef 1
  types := [{ space := "Zoo", name := "Pup", base := some "Zoo.Dog" },
    { space := "Zoo", name := "Dog", base := some "Zoo.Pup" },
    { space := "Zoo", name := "DogError", base := some "Zoo.ZooError" },
    { space := "Zoo", name := "ZooError", base := some "System.ApplicationException" }]

def kennelIndex : Index :=
  (Index.build kennelImage).toOption.getD {}

theorem kennelIndex_build : Index.build kennelImage = .ok kennelIndex := by
  cbv

theorem kennelImage_lastNamed : kennelImage.LastNamed "Zoo.ZooError" (.ofRow .typeDef 4) :=
  (Index.findsTypes_of_build kennelIndex_build).named _ _ (by decide_cbv)

theorem kennelImage_walks : kennelImage.Walks (.ofRow .typeDef 3) [.ofRow .typeDef 4] ["Zoo.DogError", "Zoo.ZooError"]
    (.foreign "System.ApplicationException") where
  linked := .cons_cons ⟨_, _, ⟨rfl, by decide, rfl⟩, rfl, kennelImage_lastNamed⟩ (.singleton _)
  named := .cons (by decide_cbv) (.cons (by decide_cbv) .nil)
  distinct := by decide
  stops := ⟨_, ⟨rfl, by decide, rfl⟩, rfl,
    (Index.findsTypes_of_build kennelIndex_build).unnamed _ (by decide_cbv)⟩

/-- The ancestry of the first error goes on as that of the second, and from there out of the program. A cycle is gone
through once. -/
theorem Image.ancestry_along_bases_kennel :
    kennelIndex.ancestry (.ofRow .typeDef 3) =
      ["Zoo.DogError", "Zoo.ZooError", "System.ApplicationException", "System.Exception", "System.Object"] ∧
    kennelIndex.ancestry (.ofRow .typeDef 3) = "Zoo.DogError" :: kennelIndex.ancestry (.ofRow .typeDef 4) ∧
    kennelIndex.ancestry (.ofRow .typeDef 1) = ["Zoo.Pup", "Zoo.Dog", "System.Object"] := by
  have htype : (Token.ofRow .typeDef 3).Names .typeDef kennelImage.types
      { space := "Zoo", name := "DogError", base := some "Zoo.ZooError" } := ⟨rfl, by decide, rfl⟩
  obtain ⟨-, -, -, hwalks⟩ := Image.ancestry_along_bases kennelIndex_build htype
  obtain ⟨-, hancestry, hcons, -⟩ := hwalks _ _ _ kennelImage_walks
  have hcompletion : builtinAncestry "System.ApplicationException" =
      ["System.ApplicationException", "System.Exception", "System.Object"] := by decide_cbv
  refine ⟨?_, hcons (fun _ => WalkEnd.noConfusion) _ _ rfl kennelImage_lastNamed, by decide_cbv⟩
  rw [hancestry, WalkEnd.completion, hcompletion]
  rfl

end ManagedCode
