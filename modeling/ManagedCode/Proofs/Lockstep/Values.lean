import ManagedCode.Proofs.Computations

/-! Two runs that differ in where their objects lie hold the same values up to a renaming of handles. A renaming pairs
handles one to one; the numbers of faults and lists are moved by a constant. This module relates values, faults,
errors and objects along a renaming and shows that a program cannot tell related ones apart. -/

namespace ManagedCode

/-- The errors that look the same in every run: no fault of a program and no stale handle. -/
def Error.isPlain : Error → Bool
  | .thrown .. | .danglingReference _ => false
  | _ => true

/-- Which handles of two runs stand for each other, one to one, and by how much the identities of the second run are
ahead. -/
@[ext]
structure Renaming where
  rel : Handle → Handle → Prop
  oneToOne : ∀ {h h' k k'}, rel h k → rel h' k' → (h = h' ↔ k = k')
  shift : Nat := 0

namespace Renaming

variable (ρ : Renaming)

/-- Faults that differ in the handle of the thrown object only. -/
structure Faults (f f' : Fault) : Prop where
  typeName : f.typeName = f'.typeName
  ancestry : f.ancestry = f'.ancestry
  message : f.message = f'.message
  payload : Option.Rel ρ.rel f.payload f'.payload

inductive Values : Value → Value → Prop where
  | null : Values .null .null
  | int (n : Int32) : Values (.int n) (.int n)
  | str (text : String) : Values (.str text) (.str text)
  | object {h k : Handle} (hrel : ρ.rel h k) : Values (.object h) (.object k)
  | fault (identity : Nat) {f f' : Fault} (hfault : ρ.Faults f f') :
      Values (.fault identity f) (.fault (identity + ρ.shift) f')
  | list (identity : Nat) (items : List String) : Values (.list identity items) (.list (identity + ρ.shift) items)

/-- Errors that are equal, or raise related faults. -/
inductive Errors : Error → Error → Prop where
  | plain {e : Error} (hplain : e.isPlain = true) : Errors e e
  | thrown {f f' : Fault} (identity : Option Nat) (hfault : ρ.Faults f f') :
      Errors (.thrown f identity) (.thrown f' (identity.map (· + ρ.shift)))

/-- Objects of one type whose fields hold related values. -/
structure Objects (o o' : Object) : Prop where
  type : o.type = o'.type
  typeName : o.typeName = o'.typeName
  fields : List.Forall₂ (fun e e' => e.1 = e'.1 ∧ ρ.Values e.2 e'.2) o.fields o'.fields

/-- Computations that both succeed, with related results, or both fail, with related errors. -/
inductive Agree {α β : Type} (R : α → β → Prop) : Except Error α → Except Error β → Prop where
  | ok {a : α} {b : β} (h : R a b) : Agree R (.ok a) (.ok b)
  | error {e e' : Error} (h : ρ.Errors e e') : Agree R (.error e) (.error e')

end Renaming

theorem Error.isPlain_of_isLookup {e : Error} (h : e.isLookup = true) : e.isPlain = true := by
  cases e <;> first | rfl | cases h

theorem Error.isPlain_of_isOperand {e : Error} (h : e.isOperand = true) : e.isPlain = true := by
  cases e <;> first | rfl | cases h

theorem Error.isPlain_of_isBody {e : Error} (h : e.isBody = true) : e.isPlain = true := by
  cases e <;> first | rfl | cases h

theorem Fault.text_eq {f f' : Fault} (htypeName : f.typeName = f'.typeName) (hmessage : f.message = f'.message) :
    f.text = f'.text := by
  rw [Fault.text, Fault.text, htypeName, hmessage]

namespace Renaming

variable {ρ : Renaming}

/-! ### Computations -/

namespace Agree

variable {α β γ δ : Type} {R : α → β → Prop} {S : γ → δ → Prop}

theorem bind {x : Except Error α} {x' : Except Error β} {f : α → Except Error γ} {f' : β → Except Error δ}
    (hx : ρ.Agree R x x') (hf : ∀ a b, R a b → ρ.Agree S (f a) (f' b)) : ρ.Agree S (x >>= f) (x' >>= f') := by
  cases hx with
  | ok h => exact hf _ _ h
  | error h => exact .error h

theorem of_plain {x : Except Error α} (hx : FailsOnly Error.isPlain x) : ρ.Agree Eq x x := by
  cases x with
  | ok a => exact .ok rfl
  | error e => exact .error (.plain (hx e rfl))

theorem of_lookup {x : Except Error α} (hx : FailsOnly Error.isLookup x) : ρ.Agree Eq x x :=
  of_plain (hx.mono fun _ => Error.isPlain_of_isLookup)

/-- A computation that does not depend on handles comes first. -/
theorem bind_lookup {x : Except Error α} {f : α → Except Error γ} {f' : α → Except Error δ}
    (hx : FailsOnly Error.isLookup x) (hf : ∀ a, ρ.Agree S (f a) (f' a)) : ρ.Agree S (x >>= f) (x >>= f') :=
  (of_lookup hx).bind fun a b hab => by
    subst hab
    exact hf a

end Agree

/-! ### Values -/

namespace Values

variable {v v' w w' : Value}

theorem heapRef? (h : ρ.Values v v') : Option.Rel ρ.rel v.heapRef? v'.heapRef? := by
  cases h with
  | object hrel => exact .some hrel
  | fault _ hfault => exact hfault.payload
  | _ => exact .none

theorem isTruthy (h : ρ.Values v v') : v.isTruthy = v'.isTruthy := by
  cases h <;> rfl

theorem kindName (h : ρ.Values v v') : v.kindName = v'.kindName := by
  cases h <;> rfl

theorem asInt? (h : ρ.Values v v') : v.asInt? = v'.asInt? := by
  cases h <;> rfl

/-- Values are equal to a program in both runs or in none. -/
theorem same (hv : ρ.Values v v') (hw : ρ.Values w w') : v.same w = v'.same w' := by
  have hshift : ∀ i j, (i == j) = (i + ρ.shift == j + ρ.shift) := by
    intro i j
    rw [Bool.eq_iff_iff, beq_iff_eq, beq_iff_eq]
    omega
  cases hv with
  | object hrel =>
      cases hw with
      | object hrel' =>
          change (_ == _) = (_ == _)
          rw [Bool.eq_iff_iff, beq_iff_eq, beq_iff_eq]
          exact ρ.oneToOne hrel hrel'
      | _ => rfl
  | fault i _ =>
      cases hw with
      | fault j _ => exact hshift i j
      | _ => rfl
  | list i _ =>
      cases hw with
      | list j _ => exact hshift i j
      | _ => rfl
  | _ => cases hw <;> rfl

theorem toInt32 (h : ρ.Values v v') : ρ.Agree Eq v.toInt32 v'.toInt32 := by
  cases h with
  | null => exact .ok rfl
  | int n => exact .ok rfl
  | _ => exact .error (.plain rfl)

theorem holds (relation : Relation) (hv : ρ.Values v v') (hw : ρ.Values w w') :
    ρ.Agree Eq (relation.holds v w) (relation.holds v' w') := by
  have hintegers : ∀ test, ρ.Agree Eq (Relation.holds.integers v w test) (Relation.holds.integers v' w' test) := by
    intro test
    refine hv.toInt32.bind fun x x' hx => hw.toInt32.bind fun y y' hy => ?_
    rw [hx, hy]
    exact .ok rfl
  cases relation with
  | eq => exact .ok (hv.same hw)
  | ne => exact .ok (congrArg _ (hv.same hw))
  | ge => exact hintegers _
  | gt => exact hintegers _
  | le => exact hintegers _
  | lt => exact hintegers _

/-- The texts of related values differ for objects only. -/
theorem text (h : ρ.Values v v') (hobject : v.asObject? = none) : v.text = v'.text := by
  cases h with
  | object => cases hobject
  | fault _ hfault =>
      exact Fault.text_eq hfault.typeName hfault.message
  | _ => rfl

end Values

/-! ### Faults and errors -/

namespace Faults

variable {f f' : Fault}

theorem builtin (typeName message : String) :
    ρ.Faults (.builtin typeName message) (.builtin typeName message) :=
  ⟨rfl, rfl, rfl, .none⟩

theorem ofObject (ancestry : List String) {h k : Handle} (hrel : ρ.rel h k) :
    ρ.Faults (.ofObject ancestry h) (.ofObject ancestry k) :=
  ⟨rfl, rfl, rfl, .some hrel⟩

theorem isInstanceOf (h : ρ.Faults f f') (catchType : String) :
    f.isInstanceOf catchType = f'.isInstanceOf catchType := by
  rw [Fault.isInstanceOf, Fault.isInstanceOf, h.ancestry]

theorem toValue (h : ρ.Faults f f') (identity : Nat) :
    ρ.Values (f.toValue identity) (f'.toValue (identity + ρ.shift)) := by
  have hpayload := h.payload
  unfold Fault.toValue
  cases hf : f.payload with
  | none =>
      cases hf' : f'.payload with
      | none => exact .fault identity h
      | some k =>
          rw [hf, hf'] at hpayload
          cases hpayload
  | some l =>
      cases hf' : f'.payload with
      | none =>
          rw [hf, hf'] at hpayload
          cases hpayload
      | some k =>
          rw [hf, hf'] at hpayload
          cases hpayload with
          | some hrel => exact .object hrel

end Faults

/-- Related errors are both fatal, or raise related faults. -/
theorem Errors.toFault? {e e' : Error} (h : ρ.Errors e e') : Option.Rel ρ.Faults e.toFault? e'.toFault? := by
  cases h with
  | thrown _ hfault => exact .some hfault
  | plain hplain =>
      cases e with
      | thrown => cases hplain
      | nullReference => exact .some (.builtin _ _)
      | invalidOperand => exact .some (.builtin _ _)
      | missingField => exact .some (.builtin _ _)
      | missingMethod => exact .some (.builtin _ _)
      | _ => exact .none

theorem Errors.not_dangling {e e' : Error} (h : ρ.Errors e e') (stale : Handle) : e ≠ .danglingReference stale := by
  rintro rfl
  cases h with
  | plain hplain => cases hplain

/-! ### Objects -/

namespace Objects

variable {o o' : Object}

theorem field? (h : ρ.Objects o o') (key : String) : Option.Rel ρ.Values (o.field? key) (o'.field? key) := by
  unfold Object.field?
  have hfields := h.fields
  generalize o.fields = entries at hfields ⊢
  generalize o'.fields = entries' at hfields ⊢
  induction hfields with
  | nil => exact .none
  | @cons e e' rest rest' he _ ih =>
      obtain ⟨k, v⟩ := e
      obtain ⟨k', v'⟩ := e'
      obtain ⟨rfl, hv⟩ := he
      rw [List.lookup_cons, List.lookup_cons]
      cases hkey : key == k with
      | true => exact .some hv
      | false => exact ih

theorem setField (h : ρ.Objects o o') (key : String) {v v' : Value} (hv : ρ.Values v v') :
    ρ.Objects (o.setField key v) (o'.setField key v') := by
  refine ⟨h.type, h.typeName, ?_⟩
  change List.Forall₂ _ (o.fields.map _) (o'.fields.map _)
  rw [List.forall₂_map_left_iff, List.forall₂_map_right_iff]
  apply h.fields.imp
  rintro ⟨k, w⟩ ⟨k', w'⟩ ⟨rfl, hw⟩
  change (if k = key then (k, v) else (k, w)).1 = (if k = key then (k, v') else (k, w')).1 ∧
    ρ.Values (if k = key then (k, v) else (k, w)).2 (if k = key then (k, v') else (k, w')).2
  by_cases hkey : k = key
  · rw [if_pos hkey, if_pos hkey]
    exact ⟨rfl, hv⟩
  · rw [if_neg hkey, if_neg hkey]
    exact ⟨rfl, hw⟩

end Objects

/-! ### Another renaming -/

variable {σ : Renaming}

/-- The renaming `σ` keeps the values of two lists related that `ρ` relates. -/
def Keeps (ρ σ : Renaming) (vs vs' : List Value) : Prop :=
  ∀ v ∈ vs, ∀ v' ∈ vs', ρ.Values v v' → σ.Values v v'

/-- A value stays related if the object it refers to does. -/
theorem Values.transfer {v v' : Value} (hv : ρ.Values v v') (hshift : σ.shift = ρ.shift)
    (hrel : ∀ h k, v.heapRef? = some h → v'.heapRef? = some k → ρ.rel h k → σ.rel h k) : σ.Values v v' := by
  cases hv with
  | null => exact .null
  | int n => exact .int n
  | str text => exact .str text
  | object h => exact .object (hrel _ _ rfl rfl h)
  | fault i h =>
      rw [← hshift]
      refine .fault i ⟨h.typeName, h.ancestry, h.message, ?_⟩
      have hpayload := h.payload
      change ∀ h k, Fault.payload _ = some h → Fault.payload _ = some k → ρ.rel h k → σ.rel h k at hrel
      generalize Fault.payload _ = payload at hpayload hrel ⊢
      generalize Fault.payload _ = payload' at hpayload hrel ⊢
      cases hpayload with
      | none => exact .none
      | some h => exact .some (hrel _ _ rfl rfl h)
  | list i items =>
      rw [← hshift]
      exact .list i items

theorem keeps_of_extends (hshift : σ.shift = ρ.shift) (hrel : ∀ h k, ρ.rel h k → σ.rel h k) (vs vs' : List Value) :
    ρ.Keeps σ vs vs' :=
  fun _ _ _ _ hv => hv.transfer hshift fun h k _ _ => hrel h k

theorem Keeps.forall₂ {vs vs' xs xs' : List Value} (hk : ρ.Keeps σ vs vs') (hxs : ∀ v ∈ xs, v ∈ vs)
    (hxs' : ∀ v ∈ xs', v ∈ vs') (h : List.Forall₂ ρ.Values xs xs') : List.Forall₂ σ.Values xs xs' := by
  induction h with
  | nil => exact .nil
  | cons hv _ ih =>
      refine .cons (hk _ (hxs _ List.mem_cons_self) _ (hxs' _ List.mem_cons_self) hv) (ih ?_ ?_)
      · exact fun v hmem => hxs v (List.mem_cons_of_mem _ hmem)
      · exact fun v hmem => hxs' v (List.mem_cons_of_mem _ hmem)

end Renaming
end ManagedCode
