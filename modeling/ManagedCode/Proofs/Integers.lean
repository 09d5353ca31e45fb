import ManagedCode.Proofs.Computations
import Mathlib.Data.Int.ModEq

/-! The integer instructions. Sums, differences and products wrap around, quotients go toward zero, and the two
quotients that do not exist are faults. Operands that are no integers are faults before anything else is looked at,
except where values are only compared for equality. A branch on a relation does what a comparison and a branch on its
outcome do. -/

namespace ManagedCode

/-- The integer that a value counts as. -/
inductive Value.CountsAs : Value → Int32 → Prop where
  | int (n : Int32) : CountsAs (.int n) n
  | null : CountsAs .null 0

namespace Value

variable {v : Value} {x : Int32}

theorem toInt32_eq_ok_iff : v.toInt32 = .ok x ↔ v.CountsAs x := by
  constructor
  · intro h
    cases v with
    | int n =>
        cases h
        exact .int x
    | null =>
        cases h
        exact .null
    | _ => cases h
  · intro h
    cases h <;> rfl

theorem toInt32_of_none (h : ∀ x, ¬v.CountsAs x) : v.toInt32 = .error (.notAnInteger v.kindName) := by
  cases v with
  | int n => exact absurd (.int n) (h n)
  | null => exact absurd .null (h 0)
  | _ => rfl

end Value

/-! ### Integers of 32 bits -/

/-- The one integer of 32 bits that is congruent to `n`. -/
def Wraps (n : Int) (r : Int32) : Prop :=
  ∀ s : Int32, s.toInt ≡ n [ZMOD 2 ^ 32] ↔ s = r

theorem wraps_of_toInt {n : Int} {r : Int32} (h : r.toInt = n.bmod (2 ^ 32)) : Wraps n r := by
  have hr : r.toInt ≡ n [ZMOD 2 ^ 32] := by
    rw [h]
    exact Int.bmod_emod
  intro s
  constructor
  · intro hs
    have hdvd := (hs.trans hr.symm).dvd
    have hs₁ := s.le_toInt
    have hs₂ := s.toInt_lt
    have hr₁ := r.le_toInt
    have hr₂ := r.toInt_lt
    refine Int32.toInt_inj.1 ?_
    omega
  · rintro rfl
    exact hr

/-- The quotient toward zero of two integers, and its remainder. -/
structure Divides (x y q r : Int32) : Prop where
  total : q.toInt * y.toInt + r.toInt = x.toInt
  remainder_lt : |r.toInt| < |y.toInt|
  remainder_sign : r = 0 ∨ r.toInt.sign = x.toInt.sign

theorem divides_div_mod {x y : Int32} (hzero : y ≠ 0) (hfits : ¬(x = Int32.minValue ∧ y = -1)) :
    Divides x y (x / y) (x % y) := by
  have hy : y.toInt ≠ 0 := fun h => hzero (Int32.toInt_inj.1 h)
  have hdiv : (x / y).toInt = x.toInt.tdiv y.toInt := by
    by_cases hx : x = Int32.minValue
    · exact Int32.toInt_div_of_ne_right x y fun h => hfits ⟨hx, h⟩
    · exact Int32.toInt_div_of_ne_left x y hx
  have hmod := Int32.toInt_mod x y
  refine ⟨?_, ?_, ?_⟩
  · rw [hdiv, hmod, Int.tdiv_mul_add_tmod]
  · rw [hmod, Int.abs_eq_natAbs, Int.abs_eq_natAbs, Int.natAbs_tmod]
    exact_mod_cast Nat.mod_lt _ (Int.natAbs_pos.2 hy)
  · by_cases hdvd : y.toInt ∣ x.toInt
    · refine .inl (Int32.toInt_inj.1 (hmod.trans ?_))
      exact Int.tmod_eq_zero_of_dvd hdvd
    · refine .inr ?_
      rw [hmod, Int.sign_tmod, if_neg hdvd]

/-! ### Instructions -/

/-- Whatever machine performs the operation on a frame, it makes this of the frame or fails with this error, and nothing
else changes. -/
def Operation.ResultsIn (op : Operation) (f : Frame) (result : Except Error Frame) : Prop :=
  ∀ p config m use below, Machine.perform p config m ⟨f, use⟩ below op = m.settle ⟨f, use⟩ below result

theorem Operation.ResultsIn.unique {op : Operation} {f : Frame} {r r' : Except Error Frame} (h : op.ResultsIn f r)
    (h' : op.ResultsIn f r') : r = r' := by
  have heq := (h ⟨{ entryPoint := ⟨0⟩ }, {}, ⟨0⟩, {}⟩ {} {} .host []).symm.trans
    (h' ⟨{ entryPoint := ⟨0⟩ }, {}, ⟨0⟩, {}⟩ {} {} .host [])
  cases r <;> cases r' <;> simp_all [Machine.settle]

theorem Operation.ResultsIn.of_eq {op : Operation} {f : Frame} {r r' : Except Error Frame} (h : op.ResultsIn f r)
    (heq : r = r') : op.ResultsIn f r' :=
  heq ▸ h

namespace Relation

/-- The comparison of which a relation tests the outcome. -/
def comparison : Relation → Operation
  | .eq | .ne => .ceq
  | .gt | .le => .cgt
  | .lt | .ge => .clt

/-- The branch on the outcome. -/
def branchAfter (target : Nat) : Relation → Operation
  | .eq | .gt | .lt => .brtrue target
  | .ne | .le | .ge => .brfalse target

/-- The relation that the comparison looks at. -/
def compared : Relation → Relation
  | .eq | .ne => .eq
  | .gt | .le => .gt
  | .lt | .ge => .lt

/-- Whether a relation holds where the compared one does. -/
def sense : Relation → Bool
  | .eq | .gt | .lt => true
  | .ne | .le | .ge => false

theorem integers_map (a b : Value) (test : Int32 → Int32 → Bool) (g : Bool → Bool) :
    (holds.integers a b test).map g = holds.integers a b fun x y => g (test x y) := by
  unfold holds.integers
  cases a.toInt32 with
  | error e => rfl
  | ok x => cases b.toInt32 <;> rfl

/-- A relation holds where the compared one does, or where it does not. -/
theorem holds_eq (relation : Relation) (a b : Value) :
    relation.holds a b = (relation.compared.holds a b).map fun holds => holds == relation.sense := by
  have hnot : ∀ x y : Int32, decide (y ≤ x) = (decide (x < y) == false) := by
    intro x y
    rw [Bool.eq_iff_iff, decide_eq_true_eq, beq_iff_eq, decide_eq_false_iff_not, Int32.not_lt]
  cases relation with
  | eq => simp only [holds, compared, sense, Except.map, beq_true]
  | ne => simp only [holds, compared, sense, Except.map, beq_false]
  | gt | lt => simp only [holds, compared, sense, integers_map, beq_true]
  | ge | le => simp only [holds, compared, sense, integers_map, hnot]

end Relation

namespace Operation

variable (f : Frame) (relation : Relation) (target : Nat)

theorem resultsIn_arithmetic (op : Arithmetic) : (arith op).ResultsIn f (f.arithmetic op) :=
  fun _ _ _ _ _ => rfl

theorem resultsIn_negate : neg.ResultsIn f f.negate :=
  fun _ _ _ _ _ => rfl

theorem resultsIn_compare : relation.comparison.ResultsIn f (f.compare relation.compared) := by
  cases relation <;> exact fun _ _ _ _ _ => rfl

theorem resultsIn_branchIf : (branch relation target).ResultsIn f (f.branchIf relation target) :=
  fun _ _ _ _ _ => rfl

theorem resultsIn_branchAfter : (relation.branchAfter target).ResultsIn f (f.branchOn relation.sense target) := by
  cases relation <;> exact fun _ _ _ _ _ => rfl

end Operation

namespace Frame

variable {f : Frame} {a b : Value} {rest : List Value}

/-- The frame at the next instruction, with another stack. -/
def goesOn (f : Frame) (stack : List Value) : Frame :=
  { f with stack, ip := f.ip + 1 }

section TwoOperands

variable (h : f.stack = b :: a :: rest)

include h

theorem popTwo_eq : f.popTwo = .ok (a, b, { f with stack := rest }) := by
  unfold popTwo pop
  rw [h]
  rfl

theorem arithmetic_eq (op : Arithmetic) : f.arithmetic op =
    (a.toInt32 >>= fun x => b.toInt32 >>= fun y => op.apply x y).map fun r => f.goesOn (.int r :: rest) := by
  unfold arithmetic
  rw [popTwo_eq h]
  show (a.toInt32 >>= fun x => b.toInt32 >>= fun y => op.apply x y >>= fun r => _) = _
  cases a.toInt32 with
  | error e => rfl
  | ok x =>
      cases b.toInt32 with
      | error e => rfl
      | ok y =>
          show (op.apply x y >>= fun r => _) = (op.apply x y).map _
          cases op.apply x y <;> rfl

theorem compare_eq (relation : Relation) : f.compare relation =
    (relation.holds a b).map fun holds => f.goesOn (.int (if holds then 1 else 0) :: rest) := by
  unfold compare
  rw [popTwo_eq h]
  show (relation.holds a b >>= fun holds => _) = _
  cases relation.holds a b <;> rfl

theorem branchIf_eq (relation : Relation) (target : Nat) : f.branchIf relation target =
    relation.holds a b >>= fun holds =>
      if holds then { f with stack := rest }.jumpTo target else .ok (f.goesOn rest) := by
  unfold branchIf
  rw [popTwo_eq h]
  show (relation.holds a b >>= fun holds => _) = _
  cases relation.holds a b with
  | error e => rfl
  | ok holds => cases holds <;> rfl

end TwoOperands

theorem exists_stack (h : 2 ≤ f.stack.length) : ∃ b a rest, f.stack = b :: a :: rest := by
  rcases hstack : f.stack with _ | ⟨b, _ | ⟨a, rest⟩⟩
  · simp [hstack] at h
  · simp [hstack] at h
  · exact ⟨b, a, rest, rfl⟩

theorem popTwo_of_short (h : f.stack.length < 2) :
    f.popTwo = .error (.malformedBody (.underflow f.currentOffset)) := by
  unfold popTwo pop
  rcases hstack : f.stack with _ | ⟨b, _ | ⟨a, rest⟩⟩
  · rfl
  · rfl
  · rw [hstack, List.length_cons, List.length_cons] at h
    omega

end Frame

/-! ### Operands that are integers -/

/-- What the operations on two integers come to on a frame, `rest` being the stack below them. -/
structure Frame.ComputesOn (f : Frame) (x y : Int32) (rest : List Value) : Prop where
  add : ∃ r, Wraps (x.toInt + y.toInt) r ∧ (Operation.arith .add).ResultsIn f (.ok (f.goesOn (.int r :: rest)))
  sub : ∃ r, Wraps (x.toInt - y.toInt) r ∧ (Operation.arith .sub).ResultsIn f (.ok (f.goesOn (.int r :: rest)))
  mul : ∃ r, Wraps (x.toInt * y.toInt) r ∧ (Operation.arith .mul).ResultsIn f (.ok (f.goesOn (.int r :: rest)))
  divideByZero : ∀ op, op = .div ∨ op = .rem →
    ((Operation.arith op).ResultsIn f (.error .divideByZero) ↔ y.toInt = 0)
  overflow : ∀ op, op = .div ∨ op = .rem →
    ((Operation.arith op).ResultsIn f (.error .overflow) ↔ x.toInt = -2 ^ 31 ∧ y.toInt = -1)
  divides : y.toInt ≠ 0 → ¬(x.toInt = -2 ^ 31 ∧ y.toInt = -1) → ∃ q r, Divides x y q r ∧
    (Operation.arith .div).ResultsIn f (.ok (f.goesOn (.int q :: rest))) ∧
    (Operation.arith .rem).ResultsIn f (.ok (f.goesOn (.int r :: rest)))
  greater : Operation.cgt.ResultsIn f (.ok (f.goesOn (.int (if y.toInt < x.toInt then 1 else 0) :: rest)))
  less : Operation.clt.ResultsIn f (.ok (f.goesOn (.int (if x.toInt < y.toInt then 1 else 0) :: rest)))

section Integers

variable {f : Frame} {a b : Value} {rest : List Value} {x y : Int32}

theorem resultsIn_arith (h : f.stack = b :: a :: rest) (hx : a.CountsAs x) (hy : b.CountsAs y) (op : Arithmetic) :
    (Operation.arith op).ResultsIn f ((op.apply x y).map fun r => f.goesOn (.int r :: rest)) := by
  have heq := Frame.arithmetic_eq h op
  rw [Value.toInt32_eq_ok_iff.2 hx, Value.toInt32_eq_ok_iff.2 hy] at heq
  exact (Operation.resultsIn_arithmetic f op).of_eq heq

theorem integers_eq (hx : a.CountsAs x) (hy : b.CountsAs y) (test : Int32 → Int32 → Bool) :
    Relation.holds.integers a b test = .ok (test x y) := by
  unfold Relation.holds.integers
  rw [Value.toInt32_eq_ok_iff.2 hx, Value.toInt32_eq_ok_iff.2 hy]
  rfl

theorem resultsIn_division (h : f.stack = b :: a :: rest) (hx : a.CountsAs x) (hy : b.CountsAs y) {op : Arithmetic}
    (hop : op = .div ∨ op = .rem) : ∃ r, (Operation.arith op).ResultsIn f
      ((checkDivision x y).map fun _ => f.goesOn (.int r :: rest)) := by
  rcases hop with rfl | rfl
  · refine ⟨x / y, ?_⟩
    have hresult := resultsIn_arith h hx hy .div
    rw [Arithmetic.apply] at hresult
    cases hcheck : checkDivision x y <;> rwa [hcheck] at hresult
  · refine ⟨x % y, ?_⟩
    have hresult := resultsIn_arith h hx hy .rem
    rw [Arithmetic.apply] at hresult
    cases hcheck : checkDivision x y <;> rwa [hcheck] at hresult

theorem eq_minValue_iff : x = Int32.minValue ↔ x.toInt = -2 ^ 31 := by
  rw [← Int32.toInt_inj, Int32.toInt_minValue]

theorem checkDivision_eq_divideByZero_iff : checkDivision x y = .error .divideByZero ↔ y.toInt = 0 := by
  rw [show y.toInt = 0 ↔ y = 0 from Int32.toInt_inj (y := 0)]
  unfold checkDivision
  split_ifs <;> simp_all [Error.divideByZero, Error.overflow]

theorem checkDivision_eq_overflow_iff :
    checkDivision x y = .error .overflow ↔ x.toInt = -2 ^ 31 ∧ y.toInt = -1 := by
  rw [← eq_minValue_iff, show y.toInt = -1 ↔ y = -1 from Int32.toInt_inj (y := -1)]
  unfold checkDivision
  split_ifs <;> simp_all [Error.divideByZero, Error.overflow]

theorem division_error_iff (h : f.stack = b :: a :: rest) (hx : a.CountsAs x) (hy : b.CountsAs y) {op : Arithmetic}
    (hop : op = .div ∨ op = .rem) {e : Error} :
    (Operation.arith op).ResultsIn f (.error e) ↔ checkDivision x y = .error e := by
  obtain ⟨r, hresult⟩ := resultsIn_division h hx hy hop
  constructor
  · intro herror
    have heq := hresult.unique herror
    cases hcheck : checkDivision x y with
    | ok u =>
        rw [hcheck] at heq
        cases heq
    | error e' =>
        rw [hcheck] at heq
        cases heq
        rfl
  · intro hcheck
    rwa [hcheck] at hresult

theorem computesOn (h : f.stack = b :: a :: rest) (hx : a.CountsAs x) (hy : b.CountsAs y) : f.ComputesOn x y rest where
  add := ⟨x + y, wraps_of_toInt (Int32.toInt_add x y), resultsIn_arith h hx hy .add⟩
  sub := ⟨x - y, wraps_of_toInt (Int32.toInt_sub x y), resultsIn_arith h hx hy .sub⟩
  mul := ⟨x * y, wraps_of_toInt (Int32.toInt_mul x y), resultsIn_arith h hx hy .mul⟩
  divideByZero op hop := (division_error_iff h hx hy hop).trans checkDivision_eq_divideByZero_iff
  overflow op hop := (division_error_iff h hx hy hop).trans checkDivision_eq_overflow_iff
  divides hzero hfits := by
    have hzero' : y ≠ 0 := fun heq => hzero (congrArg Int32.toInt heq)
    have hfits' : ¬(x = Int32.minValue ∧ y = -1) :=
      fun heq => hfits ⟨eq_minValue_iff.1 heq.1, congrArg Int32.toInt heq.2⟩
    have hcheck : checkDivision x y = .ok () := by rw [checkDivision, if_neg hzero', if_neg hfits']
    have hdiv := resultsIn_arith h hx hy .div
    have hrem := resultsIn_arith h hx hy .rem
    simp only [Arithmetic.apply, hcheck] at hdiv hrem
    exact ⟨x / y, x % y, divides_div_mod hzero' hfits', hdiv, hrem⟩
  greater := by
    refine (Operation.resultsIn_compare f .gt).of_eq ((Frame.compare_eq h .gt).trans ?_)
    simp only [Relation.holds, integers_eq hx hy, Except.map, Int32.lt_iff_toInt_lt, decide_eq_true_eq]
  less := by
    refine (Operation.resultsIn_compare f .lt).of_eq ((Frame.compare_eq h .lt).trans ?_)
    simp only [Relation.holds, integers_eq hx hy, Except.map, Int32.lt_iff_toInt_lt, decide_eq_true_eq]

/-! ### Operands that are none -/

/-- The operations that take integers from the stack, two at a time. -/
inductive Operation.TakesIntegers : Operation → Prop where
  | arith (op : Arithmetic) : TakesIntegers (.arith op)
  | cgt : TakesIntegers .cgt
  | clt : TakesIntegers .clt
  | branch {relation : Relation} (target : Nat) (hequal : relation ≠ .eq) (hunequal : relation ≠ .ne) :
      TakesIntegers (.branch relation target)

/-- Whatever the integers of two values are wanted for, it fails with the error. -/
def Value.Lack (a b : Value) (e : Error) : Prop :=
  ∀ (α : Type) (k : Int32 → Int32 → Except Error α), (a.toInt32 >>= fun x => b.toInt32 >>= k x) = .error e

theorem Value.lack_lower (ha : ∀ x, ¬a.CountsAs x) : Lack a b (.notAnInteger a.kindName) := by
  intro α k
  rw [toInt32_of_none ha]
  rfl

theorem Value.lack_upper (hx : a.CountsAs x) (hb : ∀ y, ¬b.CountsAs y) : Lack a b (.notAnInteger b.kindName) := by
  intro α k
  rw [toInt32_eq_ok_iff.2 hx, toInt32_of_none hb]
  rfl

theorem holds_of_lack {e : Error} (hlack : Value.Lack a b e) {relation : Relation} (hequal : relation ≠ .eq)
    (hunequal : relation ≠ .ne) : relation.holds a b = .error e := by
  cases relation with
  | eq => exact absurd rfl hequal
  | ne => exact absurd rfl hunequal
  | _ => exact hlack Bool _

theorem resultsIn_of_lack (h : f.stack = b :: a :: rest) {e : Error} (hlack : Value.Lack a b e) {op : Operation}
    (hop : op.TakesIntegers) : op.ResultsIn f (.error e) := by
  have hcompare : ∀ {relation : Relation}, relation ≠ .eq → relation ≠ .ne → f.compare relation = .error e := by
    intro relation hequal hunequal
    rw [Frame.compare_eq h, holds_of_lack hlack hequal hunequal]
    rfl
  cases hop with
  | arith op =>
      refine (Operation.resultsIn_arithmetic f op).of_eq ?_
      rw [Frame.arithmetic_eq h, hlack]
      rfl
  | cgt => exact (Operation.resultsIn_compare f .gt).of_eq (hcompare (by decide) (by decide))
  | clt => exact (Operation.resultsIn_compare f .lt).of_eq (hcompare (by decide) (by decide))
  | branch target hequal hunequal =>
      refine (Operation.resultsIn_branchIf f _ target).of_eq ?_
      rw [Frame.branchIf_eq h, holds_of_lack hlack hequal hunequal]
      rfl

end Integers

/-! ### Branches on a relation -/

/-- The fused operation has the effect of the two others, performed one after the other: both fail with one error, or go
on with one stack, or jump to one instruction with one stack, or find no instruction to jump to. What goes on, goes on
at the next instruction or at the one after it; an error names the instruction it comes from. -/
inductive Frame.ActsAs (f : Frame) (target : Nat) (fused first second : Operation) : Prop where
  | fails (e : Error) (hfused : fused.ResultsIn f (.error e)) (hfirst : first.ResultsIn f (.error e))
  | goesOn (g : Frame) (stack : List Value) (hfused : fused.ResultsIn f (.ok (f.goesOn stack)))
      (hfirst : first.ResultsIn f (.ok g)) (hsecond : second.ResultsIn g (.ok (f.goesOn stack).next))
  | jumps (g : Frame) (stack : List Value) (index : Nat) (hindex : f.indexOf target = .ok index)
      (hfused : fused.ResultsIn f (.ok { f with stack, ip := index })) (hfirst : first.ResultsIn f (.ok g))
      (hsecond : second.ResultsIn g (.ok { f with stack, ip := index }))
  | strays (g : Frame) (hmissing : ∀ i ∈ f.code, i.offset ≠ target)
      (hfused : fused.ResultsIn f (.error (.invalidBranchTarget f.currentOffset target)))
      (hfirst : first.ResultsIn f (.ok g))
      (hsecond : second.ResultsIn g (.error (.invalidBranchTarget g.currentOffset target)))

namespace Frame

variable (f : Frame) (relation : Relation) (target : Nat)

theorem branchOn_outcome (stack : List Value) (holds sense : Bool) :
    (f.goesOn (.int (if holds then 1 else 0) :: stack)).branchOn sense target =
      if holds == sense then (f.goesOn stack).jumpTo target else .ok (f.goesOn stack).next := by
  cases holds <;> cases sense <;> rfl

theorem jumpTo_eq (g : Frame) (hcode : g.code = f.code) : g.jumpTo target =
    match f.indexOf target with
    | .ok index => .ok { g with ip := index }
    | .error _ => .error (.invalidBranchTarget g.currentOffset target) := by
  have hindex : g.indexAt? target = f.indexAt? target := by
    unfold indexAt?
    rw [hcode]
  unfold jumpTo indexOf
  rw [hindex]
  cases f.indexAt? target <;> rfl

/-- **A branch on a relation** has the effect of the comparison and of the branch on its outcome. -/
theorem actsAs : f.ActsAs target (.branch relation target) relation.comparison (relation.branchAfter target) := by
  have hfused := Operation.resultsIn_branchIf f relation target
  have hfirst := Operation.resultsIn_compare f relation
  by_cases hshort : f.stack.length < 2
  · have hpop := popTwo_of_short hshort
    rw [branchIf, hpop] at hfused
    rw [compare, hpop] at hfirst
    exact .fails _ hfused hfirst
  obtain ⟨b, a, rest, hstack⟩ := exists_stack (Nat.le_of_not_lt hshort)
  rw [branchIf_eq hstack, relation.holds_eq] at hfused
  rw [compare_eq hstack] at hfirst
  cases hholds : relation.compared.holds a b with
  | error e =>
      rw [hholds] at hfused hfirst
      exact .fails e hfused hfirst
  | ok holds =>
      rw [hholds] at hfused hfirst
      have hsecond := Operation.resultsIn_branchAfter (f.goesOn (.int (if holds then 1 else 0) :: rest)) relation target
      rw [branchOn_outcome, jumpTo_eq f target (f.goesOn rest) rfl] at hsecond
      change (Operation.branch relation target).ResultsIn f
        (if holds == relation.sense then _ else .ok (f.goesOn rest)) at hfused
      rw [jumpTo_eq f target { f with stack := rest } rfl] at hfused
      cases htaken : holds == relation.sense with
      | false =>
          rw [htaken] at hsecond hfused
          exact .goesOn _ rest hfused hfirst hsecond
      | true =>
          rw [htaken] at hsecond hfused
          cases hindex : f.indexOf target with
          | error e =>
              rw [hindex] at hsecond hfused
              exact .strays _ (indexOf_eq_error_iff.1 hindex).2 hfused hfirst hsecond
          | ok index =>
              rw [hindex] at hsecond hfused
              exact .jumps _ rest index hindex hfused hfirst hsecond

end Frame

/-! ### All integer instructions -/

/-- What the operations that compare two values for equality come to: none of them raises a fault. -/
structure Frame.ComparesOn (f : Frame) (a b : Value) (rest : List Value) : Prop where
  equal : Operation.ceq.ResultsIn f (.ok (f.goesOn (.int (if a.same b then 1 else 0) :: rest)))
  branches : ∀ relation target e, relation = .eq ∨ relation = .ne →
    (Operation.branch relation target).ResultsIn f (.error e) → e.toFault? = none

namespace Frame

variable {f : Frame} {a b v : Value} {rest : List Value}

theorem comparesOn (h : f.stack = b :: a :: rest) : f.ComparesOn a b rest where
  equal := (Operation.resultsIn_compare f .eq).of_eq (compare_eq h .eq)
  branches relation target e hrelation herror := by
    have hholds : ∃ holds, relation.holds a b = .ok holds := by
      rcases hrelation with rfl | rfl <;> exact ⟨_, rfl⟩
    obtain ⟨holds, hholds⟩ := hholds
    have hresult := (Operation.resultsIn_branchIf f relation target).unique herror
    rw [branchIf_eq h, hholds] at hresult
    cases holds with
    | false => cases hresult
    | true =>
        change jumpTo { f with stack := rest } target = .error e at hresult
        rw [jumpTo_eq f target { f with stack := rest } rfl] at hresult
        cases hindex : f.indexOf target <;> rw [hindex] at hresult <;> cases hresult
        rfl

theorem negate_eq (h : f.stack = v :: rest) :
    f.negate = v.toInt32.map fun x => f.goesOn (.int (-x) :: rest) := by
  unfold negate pop
  rw [h]
  show (v.toInt32 >>= fun x => _) = _
  cases v.toInt32 <;> rfl

/-- **The integer instructions**, on every frame that has the operands. On integers they compute what the integers of
mathematics do, wrapped around or divided toward zero, and fail only for quotients that do not exist. A value that is no
integer fails them before that, the lower one first, but none of the operations on equality. Each branch on a relation
has the effect of a comparison and a branch on its outcome. -/
theorem integer_instructions (f : Frame) :
    (∀ a b rest, f.stack = b :: a :: rest →
      (∀ x y, a.CountsAs x → b.CountsAs y → f.ComputesOn x y rest) ∧
      (∀ op : Operation, op.TakesIntegers →
        ((∀ x, ¬a.CountsAs x) → op.ResultsIn f (.error (.notAnInteger a.kindName))) ∧
        ∀ x, a.CountsAs x → (∀ y, ¬b.CountsAs y) → op.ResultsIn f (.error (.notAnInteger b.kindName))) ∧
      f.ComparesOn a b rest) ∧
    (∀ v rest, f.stack = v :: rest →
      (∀ x, v.CountsAs x →
        ∃ r, Wraps (-x.toInt) r ∧ Operation.neg.ResultsIn f (.ok (f.goesOn (.int r :: rest)))) ∧
      ((∀ x, ¬v.CountsAs x) → Operation.neg.ResultsIn f (.error (.notAnInteger v.kindName)))) ∧
    ∀ relation target, f.ActsAs target (.branch relation target) relation.comparison (relation.branchAfter target) := by
  refine ⟨fun a b rest h => ⟨fun x y => computesOn h, fun op hop => ⟨fun ha => ?_, fun x hx hb => ?_⟩, comparesOn h⟩,
    fun v rest h => ⟨fun x hx => ⟨-x, wraps_of_toInt (Int32.toInt_neg x), ?_⟩, fun hv => ?_⟩, f.actsAs⟩
  · exact resultsIn_of_lack h (Value.lack_lower ha) hop
  · exact resultsIn_of_lack h (Value.lack_upper hx hb) hop
  · refine (Operation.resultsIn_negate f).of_eq ((negate_eq h).trans ?_)
    rw [Value.toInt32_eq_ok_iff.2 hx]
    rfl
  · refine (Operation.resultsIn_negate f).of_eq ((negate_eq h).trans ?_)
    rw [Value.toInt32_of_none hv]
    rfl

/-- A frame with minus one on top of the least integer. -/
def extremes : Frame :=
  { method := .ofRow .methodDef 1, code := #[], regions := [], args := [], locals := [],
    stack := [.int (-1), .int Int32.minValue] }

/-- The quotient of the two does not exist, and the branch has no instruction to jump to. -/
theorem integer_instructions_extremes :
    (Operation.arith .div).ResultsIn extremes (.error .overflow) ∧
    (∃ r, Wraps 1 r ∧ Operation.neg.ResultsIn extremes (.ok (extremes.goesOn [.int r, .int Int32.minValue]))) ∧
    extremes.ActsAs 7 (.branch .ge 7) .clt (.brfalse 7) := by
  obtain ⟨htwo, hone, hfused⟩ := integer_instructions extremes
  obtain ⟨hcomputes, -, -⟩ := htwo (.int Int32.minValue) (.int (-1)) [] rfl
  obtain ⟨hneg, -⟩ := hone (.int (-1)) [.int Int32.minValue] rfl
  exact ⟨((hcomputes _ _ (.int _) (.int _)).overflow .div (.inl rfl)).2 (by decide), hneg _ (.int _), hfused .ge 7⟩

end Frame
end ManagedCode
