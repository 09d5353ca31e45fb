import ManagedCode.Dispatch
import Mathlib

/-! The books of the dispatch memo. Whatever look-ups and recordings a fresh memo is put to, it finds the method that
was recorded last, its size and the receiver types of its sites are those of the distinct pairs recorded, and its
counters tell the look-ups that found a method from those that did not. The receiver types of a site are counted as they
come, and are those among the entries. -/

namespace ManagedCode.Dispatch

/-! ### Uses -/

/-- What a memo is asked to do. -/
inductive Use where
  | lookup (site type : Token)
  | insert (site type method : Token)
  deriving DecidableEq, Repr

namespace Use

def isLookup : Use → Bool
  | .lookup .. => true
  | .insert .. => false

/-- The pair that a use records a method for. -/
def pair? : Use → Option (Token × Token)
  | .insert site type _ => some (site, type)
  | .lookup .. => none

/-- The method that a use records for the pair. -/
def methodFor? (pair : Token × Token) : Use → Option Token
  | .insert site type method => if (site, type) = pair then some method else none
  | .lookup .. => none

end Use

def apply (d : Dispatch) : Use → Dispatch
  | .lookup site type => (d.lookup site type).1
  | .insert site type method => d.insert site type method

/-- The memo after the uses that a fresh one was put to. -/
def after (uses : List Use) : Dispatch :=
  uses.foldl apply {}

/-- What the look-ups among the uses find, one after the other. -/
def answers (d : Dispatch) : List Use → List (Option Token)
  | [] => []
  | .lookup site type :: rest => (d.lookup site type).2 :: answers (d.lookup site type).1 rest
  | .insert site type method :: rest => answers (d.insert site type method) rest

/-- The method that was recorded last for a pair. -/
def lastMethod? (uses : List Use) (site type : Token) : Option Token :=
  uses.reverse.findSome? (Use.methodFor? (site, type))

/-- The distinct pairs that methods were recorded for. -/
def recorded (uses : List Use) : Finset (Token × Token) :=
  (uses.filterMap Use.pair?).toFinset

/-- The sites that methods were recorded for. -/
def sites (uses : List Use) : Finset Token :=
  (recorded uses).image Prod.fst

/-- The receiver types that methods were recorded for at a site. -/
def typesAt (uses : List Use) (site : Token) : Finset Token :=
  ((recorded uses).filter fun pair => pair.1 = site).image Prod.snd

theorem after_append (uses : List Use) (use : Use) : after (uses ++ [use]) = (after uses).apply use := by
  rw [after, List.foldl_append]
  rfl

theorem lastMethod?_append (uses : List Use) (use : Use) (site type : Token) :
    lastMethod? (uses ++ [use]) site type = (use.methodFor? (site, type)).or (lastMethod? uses site type) := by
  rw [lastMethod?, List.reverse_append, List.reverse_singleton, List.singleton_append, List.findSome?_cons]
  cases use.methodFor? (site, type) <;> rfl

theorem mem_recorded {uses : List Use} {pair : Token × Token} :
    pair ∈ recorded uses ↔ (lastMethod? uses pair.1 pair.2).isSome = true := by
  have hrecords : ∀ use : Use, use.pair? = some pair ↔ (use.methodFor? pair).isSome = true := by
    intro use
    cases use with
    | lookup s t => simp [Use.pair?, Use.methodFor?]
    | insert s t method => by_cases h : (s, t) = pair <;> simp [Use.pair?, Use.methodFor?, h]
  simp only [recorded, List.mem_toFinset, List.mem_filterMap, hrecords, lastMethod?, List.findSome?_isSome_iff,
    List.mem_reverse]

/-! ### Pairs with an entry -/

/-- A value that is put in front under a key, in place of the others, is found under that key alone. -/
theorem lookup_put {α β : Type} [BEq α] [LawfulBEq α] (l : List (α × β)) (key : α) (value : β) (a : α) :
    ((key, value) :: l.filter fun entry => entry.1 != key).lookup a = if a == key then some value else l.lookup a := by
  rw [List.lookup_cons]
  cases heq : a == key with
  | true => rfl
  | false =>
      show (l.filter _).lookup a = l.lookup a
      induction l with
      | nil => rfl
      | cons entry l ih =>
          rw [List.lookup_cons]
          by_cases hkey : entry.1 = key
          · rw [List.filter_cons_of_neg (by simpa using hkey), ih, hkey, heq]
          · rw [List.filter_cons_of_pos (by simpa using hkey), List.lookup_cons, ih]

/-- The pairs that have an entry. -/
def pairs (d : Dispatch) : List (Token × Token) :=
  d.entries.map Prod.fst

theorem size_eq (d : Dispatch) : d.size = d.pairs.length :=
  (List.length_map _).symm

theorem pairs_lookup (d : Dispatch) (site type : Token) : (d.lookup site type).1.pairs = d.pairs := by
  unfold lookup
  cases d.find? site type <;> rfl

theorem siteTypes_lookup (d : Dispatch) (site type : Token) : (d.lookup site type).1.siteTypes = d.siteTypes := by
  unfold lookup
  cases d.find? site type <;> rfl

theorem find?_lookup (d : Dispatch) (site type s t : Token) : (d.lookup site type).1.find? s t = d.find? s t := by
  unfold lookup
  cases d.find? site type <;> rfl

theorem pairs_insert (d : Dispatch) (site type method : Token) :
    (d.insert site type method).pairs = (site, type) :: d.pairs.filter (· != (site, type)) := by
  rw [pairs, pairs, List.filter_map]
  rfl

theorem isSome_find? {d : Dispatch} {pair : Token × Token} :
    (d.find? pair.1 pair.2).isSome = true ↔ pair ∈ d.pairs := by
  rw [find?, pairs, List.mem_map]
  constructor
  · intro h
    obtain ⟨method, hmethod⟩ := Option.isSome_iff_exists.1 h
    obtain ⟨before, rest, heq, -⟩ := List.lookup_eq_some_iff.1 hmethod
    exact ⟨_, heq ▸ List.mem_append_right _ List.mem_cons_self, rfl⟩
  · rintro ⟨entry, hentry, rfl⟩
    rw [Option.isSome_iff_ne_none, Ne, List.lookup_eq_none_iff]
    intro hnone
    simpa using hnone entry hentry

theorem find?_insert (d : Dispatch) (site type method s t : Token) :
    (d.insert site type method).find? s t = if (s, t) = (site, type) then some method else d.find? s t := by
  rw [find?, insert, lookup_put]
  simp only [beq_iff_eq]
  rfl

/-- Recording a method for a pair that has an entry leaves the pairs as they are, but for their order. -/
theorem perm_pairs_insert {d : Dispatch} {site type : Token} (method : Token) (hnodup : d.pairs.Nodup)
    (hmem : (site, type) ∈ d.pairs) : (d.insert site type method).pairs.Perm d.pairs := by
  rw [pairs_insert, ← hnodup.erase_eq_filter]
  exact (List.perm_cons_erase hmem).symm

theorem nodup_pairs_insert {d : Dispatch} (site type method : Token) (hnodup : d.pairs.Nodup) :
    (d.insert site type method).pairs.Nodup := by
  rw [pairs_insert]
  exact List.nodup_cons.2 ⟨fun hmem => by simpa using List.of_mem_filter hmem, hnodup.filter _⟩

/-- **What the entries record.** No pair has two entries, and each holds the method that was recorded last. -/
structure Records (d : Dispatch) (uses : List Use) : Prop where
  nodup : d.pairs.Nodup
  found : ∀ site type, d.find? site type = lastMethod? uses site type

namespace Records

variable {d : Dispatch} {uses : List Use}

theorem fresh : Records {} [] :=
  ⟨List.nodup_nil, fun _ _ => rfl⟩

theorem apply (h : Records d uses) (use : Use) : Records (d.apply use) (uses ++ [use]) := by
  cases use with
  | lookup site type =>
      refine ⟨?_, fun s t => ?_⟩
      · show (d.lookup site type).1.pairs.Nodup
        rw [pairs_lookup]
        exact h.nodup
      · show (d.lookup site type).1.find? s t = _
        rw [find?_lookup, lastMethod?_append, h.found]
        rfl
  | insert site type method =>
      refine ⟨nodup_pairs_insert site type method h.nodup, fun s t => ?_⟩
      rw [lastMethod?_append, ← h.found]
      refine (find?_insert d site type method s t).trans ?_
      by_cases heq : (s, t) = (site, type)
      · rw [if_pos heq, Use.methodFor?, if_pos heq.symm]
        rfl
      · rw [if_neg heq, Use.methodFor?, if_neg (Ne.symm heq)]
        rfl

theorem after (uses : List Use) : Records (after uses) uses := by
  induction uses using List.reverseRecOn with
  | nil => exact fresh
  | append_singleton uses use ih =>
      rw [after_append]
      exact ih.apply use

theorem mem_pairs (h : Records d uses) {pair : Token × Token} : pair ∈ d.pairs ↔ pair ∈ recorded uses := by
  rw [mem_recorded, ← h.found, isSome_find?]

theorem toFinset_pairs (h : Records d uses) : d.pairs.toFinset = recorded uses := by
  ext pair
  rw [List.mem_toFinset, h.mem_pairs]

/-- The entries are as many as the distinct pairs recorded. -/
theorem size (h : Records d uses) : d.size = (recorded uses).card := by
  rw [size_eq, ← h.toFinset_pairs, List.toFinset_card_of_nodup h.nodup]

theorem card_filter (h : Records d uses) (site : Token) :
    ((recorded uses).filter fun pair => pair.1 = site).card = d.pairs.countP fun pair => pair.1 == site := by
  have hpairs : (recorded uses).filter (fun pair => pair.1 = site) =
      (d.pairs.filter fun pair => pair.1 == site).toFinset := by
    ext pair
    simp [← h.mem_pairs]
  rw [hpairs, List.toFinset_card_of_nodup (h.nodup.filter _), ← List.countP_eq_length_filter]

/-- The entries of a site are as many as the distinct types recorded for it. -/
theorem countP (h : Records d uses) (site : Token) :
    (d.pairs.countP fun pair => pair.1 == site) = (typesAt uses site).card := by
  rw [← h.card_filter, typesAt]
  refine (Finset.card_image_of_injOn fun a ha b hb heq => ?_).symm
  have hsites := (Finset.mem_filter.1 ha).2.trans (Finset.mem_filter.1 hb).2.symm
  exact Prod.ext hsites heq

/-- Every entry is one of one site. -/
theorem size_eq_sum (h : Records d uses) :
    d.size = ∑ site ∈ sites uses, d.pairs.countP fun pair => pair.1 == site := by
  calc d.size = (recorded uses).card := h.size
    _ = ∑ site ∈ sites uses, ((recorded uses).filter fun pair => pair.1 = site).card :=
        Finset.card_eq_sum_card_image Prod.fst _
    _ = ∑ site ∈ sites uses, d.pairs.countP fun pair => pair.1 == site :=
        Finset.sum_congr rfl fun site _ => h.card_filter site

end Records

/-! ### Counters -/

theorem counters_lookup (d : Dispatch) (site type : Token) :
    (d.lookup site type).1.hits = d.hits + [(d.lookup site type).2].countP Option.isSome ∧
      (d.lookup site type).1.hits + (d.lookup site type).1.misses = d.hits + d.misses + 1 := by
  unfold lookup
  cases d.find? site type with
  | some method => exact ⟨rfl, Nat.add_right_comm _ _ _⟩
  | none => exact ⟨rfl, rfl⟩

/-- The hits grow by the look-ups that find a method, and both counters together by all look-ups. -/
theorem counters_foldl (d : Dispatch) (uses : List Use) :
    (uses.foldl apply d).hits = d.hits + (answers d uses).countP Option.isSome ∧
      (uses.foldl apply d).hits + (uses.foldl apply d).misses = d.hits + d.misses + uses.countP Use.isLookup := by
  induction uses generalizing d with
  | nil => exact ⟨rfl, rfl⟩
  | cons use uses ih =>
      obtain ⟨hhits, hboth⟩ := ih (d.apply use)
      rw [List.foldl_cons, hboth, hhits]
      cases use with
      | insert site type method => exact ⟨rfl, rfl⟩
      | lookup site type =>
          obtain ⟨hhit, hlooked⟩ := counters_lookup d site type
          have hcount : (Use.lookup site type :: uses).countP Use.isLookup = uses.countP Use.isLookup + 1 :=
            List.countP_cons_of_pos rfl
          rw [hcount, answers, apply, ← List.singleton_append, List.countP_append, hlooked, hhit]
          exact ⟨Nat.add_assoc _ _ _, by omega⟩

/-! ### Counting as types come -/

theorem sum_filter {counts : List (Token × Nat)} (hnodup : (counts.map Prod.fst).Nodup) (site : Token) :
    ((counts.filter fun count => count.1 != site).map Prod.snd).sum + (counts.lookup site).getD 0 =
      (counts.map Prod.snd).sum := by
  induction counts with
  | nil => rfl
  | cons count counts ih =>
      obtain ⟨hfresh, hnodup⟩ := List.nodup_cons.1 hnodup
      by_cases hsite : count.1 = site
      · have hothers : counts.filter (fun count => count.1 != site) = counts := by
          refine List.filter_eq_self.2 fun other hother => bne_iff_ne.2 fun heq => hfresh ?_
          exact hsite ▸ heq ▸ List.mem_map_of_mem hother
        rw [List.filter_cons_of_neg (by simpa using hsite), hothers, List.lookup_cons, hsite, beq_self_eq_true,
          List.map_cons, List.sum_cons]
        exact Nat.add_comm _ _
      · have hsum := ih hnodup
        have hother : (count :: counts).lookup site = counts.lookup site := by
          rw [List.lookup_cons, beq_eq_false_iff_ne.2 (Ne.symm hsite)]
        rw [List.filter_cons_of_pos (by simpa using hsite), hother, List.map_cons, List.map_cons, List.sum_cons,
          List.sum_cons]
        omega

/-- The types counted for the sites are those among the entries, and none is counted twice. -/
structure Tallies (d : Dispatch) : Prop where
  nodup : (d.siteTypes.map Prod.fst).Nodup
  typeCount : ∀ site, d.typeCount site = d.pairs.countP fun pair => pair.1 == site
  total : (d.siteTypes.map Prod.snd).sum = d.size

namespace Tallies

variable {d : Dispatch}

theorem fresh : Tallies {} :=
  ⟨List.nodup_nil, fun _ => rfl, rfl⟩

theorem lookup (h : d.Tallies) (site type : Token) : (d.lookup site type).1.Tallies := by
  have hpairs := pairs_lookup d site type
  have htypes := siteTypes_lookup d site type
  refine ⟨htypes ▸ h.nodup, fun s => ?_, ?_⟩
  · rw [Dispatch.typeCount, htypes, hpairs]
    exact h.typeCount s
  · rw [htypes, size_eq, hpairs, ← size_eq]
    exact h.total

/-- A method for a pair with an entry leaves the counts. -/
theorem insert_known (h : d.Tallies) (hnodup : d.pairs.Nodup) {site type : Token} (method : Token)
    (hmem : (site, type) ∈ d.pairs) : (d.insert site type method).Tallies := by
  have htypes : (d.insert site type method).siteTypes = d.siteTypes := if_pos (isSome_find?.2 hmem)
  have hperm := perm_pairs_insert method hnodup hmem
  refine ⟨htypes ▸ h.nodup, fun s => ?_, ?_⟩
  · rw [Dispatch.typeCount, htypes, hperm.countP_eq]
    exact h.typeCount s
  · rw [htypes, size_eq, hperm.length_eq, ← size_eq]
    exact h.total

/-- A method for another pair adds its type to its site. -/
theorem insert_new (h : d.Tallies) {site type : Token} (method : Token) (hmem : (site, type) ∉ d.pairs) :
    (d.insert site type method).Tallies := by
  have htypes : (d.insert site type method).siteTypes = d.countType site :=
    if_neg fun hsome => hmem (isSome_find?.1 hsome)
  have hpairs : (d.insert site type method).pairs = (site, type) :: d.pairs := by
    refine (pairs_insert d site type method).trans (congrArg _ (List.filter_eq_self.2 fun pair hpair => ?_))
    exact bne_iff_ne.2 fun heq => hmem (heq ▸ hpair)
  refine ⟨?_, fun s => ?_, ?_⟩
  · rw [htypes, countType, List.map_cons, List.nodup_cons]
    refine ⟨fun hsite => ?_, h.nodup.sublist (List.filter_sublist.map _)⟩
    obtain ⟨count, hcount, heq⟩ := List.mem_map.1 hsite
    simpa [heq] using List.of_mem_filter hcount
  · rw [Dispatch.typeCount, htypes, countType, lookup_put, hpairs, List.countP_cons, ← h.typeCount s]
    by_cases hsite : s = site
    · subst hsite
      simp
    · simp [hsite, Ne.symm hsite, Dispatch.typeCount]
  · have hsum := sum_filter h.nodup site
    have htotal := h.total
    rw [size_eq] at htotal
    rw [htypes, countType, List.map_cons, List.sum_cons, Dispatch.typeCount, size_eq, hpairs, List.length_cons]
    omega

theorem apply (h : d.Tallies) (hnodup : d.pairs.Nodup) (use : Use) : (d.apply use).Tallies := by
  cases use with
  | lookup site type => exact h.lookup site type
  | insert site type method =>
      by_cases hmem : (site, type) ∈ d.pairs
      · exact h.insert_known hnodup method hmem
      · exact h.insert_new method hmem

theorem after (uses : List Use) : (after uses).Tallies := by
  induction uses using List.reverseRecOn with
  | nil => exact fresh
  | append_singleton uses use ih =>
      rw [after_append]
      exact ih.apply (Records.after uses).nodup use

end Tallies

/-! ### The books -/

/-- What is known of a memo by the uses a fresh one was put to. -/
structure KeepsBooks (d : Dispatch) (uses : List Use) : Prop where
  /-- A look-up finds the method that was recorded last for the very pair. -/
  found : ∀ site type, (d.lookup site type).2 = lastMethod? uses site type
  /-- The size is the number of distinct pairs, each of them counted for its site. -/
  size : d.size = (recorded uses).card
  total : d.size = ∑ site ∈ sites uses, d.typeCount site
  /-- What is counted for a site are its entries, and the table of the counts adds up to the size. -/
  counted : ∀ site, d.typeCount site = d.entries.countP fun entry => entry.1.1 == site
  table : (d.siteTypes.map Prod.snd).sum = d.size
  /-- The state of a site tells how many types were recorded for it. -/
  uninitialized : ∀ site, d.state site = .uninitialized ↔ (typesAt uses site).card = 0
  monomorphic : ∀ site, d.state site = .monomorphic ↔ (typesAt uses site).card = 1
  polymorphic : ∀ site, d.state site = .polymorphic ↔ 2 ≤ (typesAt uses site).card ∧ (typesAt uses site).card ≤ 4
  megamorphic : ∀ site, d.state site = .megamorphic ↔ 4 < (typesAt uses site).card
  /-- Every look-up counts, as a hit just when it found a method. -/
  lookups : d.hits + d.misses = uses.countP Use.isLookup
  hits : d.hits = (answers {} uses).countP Option.isSome

theorem snd_lookup (d : Dispatch) (site type : Token) : (d.lookup site type).2 = d.find? site type := by
  unfold lookup
  cases d.find? site type <;> rfl

theorem SiteState.ofCount_eq (n : Nat) :
    (SiteState.ofCount n = .uninitialized ↔ n = 0) ∧ (SiteState.ofCount n = .monomorphic ↔ n = 1) ∧
      (SiteState.ofCount n = .polymorphic ↔ 2 ≤ n ∧ n ≤ 4) ∧ (SiteState.ofCount n = .megamorphic ↔ 4 < n) := by
  unfold SiteState.ofCount polymorphicLimit
  split_ifs <;> simp <;> omega

/-- **The memo keeps its books.** After any look-ups and recordings a fresh memo finds what was recorded last, and its
size, the counts and the states of its sites and its counters say what it was put to. -/
theorem books_kept (uses : List Use) : (after uses).KeepsBooks uses := by
  have hrecords := Records.after uses
  have htallies := Tallies.after uses
  obtain ⟨hhits, hlookups⟩ := counters_foldl {} uses
  have hcount : ∀ site, (after uses).typeCount site = (typesAt uses site).card :=
    fun site => (htallies.typeCount site).trans (hrecords.countP site)
  have hstate : ∀ site, (after uses).state site = .ofCount (typesAt uses site).card :=
    fun site => congrArg SiteState.ofCount (hcount site)
  exact {
    found := fun site type => (snd_lookup _ site type).trans (hrecords.found site type)
    size := hrecords.size
    total := by
      rw [hrecords.size_eq_sum]
      exact Finset.sum_congr rfl fun site _ => (htallies.typeCount site).symm
    counted := fun site => (htallies.typeCount site).trans List.countP_map
    table := htallies.total
    uninitialized := fun site => by rw [hstate, (SiteState.ofCount_eq _).1]
    monomorphic := fun site => by rw [hstate, (SiteState.ofCount_eq _).2.1]
    polymorphic := fun site => by rw [hstate, (SiteState.ofCount_eq _).2.2.1]
    megamorphic := fun site => by rw [hstate, (SiteState.ofCount_eq _).2.2.2]
    lookups := hlookups.trans (Nat.zero_add _)
    hits := hhits.trans (Nat.zero_add _) }

end ManagedCode.Dispatch
