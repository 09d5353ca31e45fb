import ManagedCode.Proofs.Calls.Isolation
import ManagedCode.Proofs.Heap.Lifecycle

/-! What a machine does to its heap. An operation leaves the heap as it is or changes it by one heap operation: a new
object, a store into a field, or the collection at a return. What every heap operation keeps, a run keeps therefore,
also a run that the host gives stale handles. -/

namespace ManagedCode

/-- Any number of operations lead from one heap to the other. -/
def Heap.Operated : Heap → Heap → Prop :=
  Relation.ReflTransGen fun heap heap' => ∃ op : HeapOperation, heap' = op.apply heap

namespace Heap

variable {heap heap' : Heap}

theorem operated_of_eq (h : heap' = heap) : heap.Operated heap' :=
  h ▸ .refl

theorem operated_apply (op : HeapOperation) : heap.Operated (op.apply heap) :=
  .single ⟨op, rfl⟩

theorem Consistent.operated (hc : heap.Consistent) (h : heap.Operated heap') : heap'.Consistent := by
  induction h with
  | refl => exact hc
  | tail _ hop ih =>
      obtain ⟨op, rfl⟩ := hop
      exact ih.apply op

theorem operated_atReturn (config : Config) (roots : List Value) : heap.Operated (heap.atReturn config roots) := by
  unfold atReturn
  split
  · exact operated_apply (.collectMinor (config.visiting heap) roots)
  · exact .refl

theorem operated_writeField {owner : Handle} {key : String} {value : Value}
    (h : heap.writeField owner key value = .ok heap') : heap.Operated heap' := by
  have happly : HeapOperation.apply heap (.writeField owner key value) = heap' := by
    rw [HeapOperation.apply, h]
  exact happly ▸ operated_apply _

end Heap

namespace Machine

variable {p : Program} {config : Config} {m : Machine} {a : Activation} {below : List Activation}

/-! ### What leaves the heap as it is -/

theorem settle_heap (r : Except Error Frame) : (m.settle a below r).machine.heap = m.heap := by
  cases r <;> rfl

theorem enter_heap {m' : Machine} {method : Token} {args : List Value} {use : ResultUse}
    (h : m.enter p config method args use = .ok m') : m'.heap = m.heap := by
  obtain ⟨callee, -, -, rfl⟩ := enter_cases h
  rfl

theorem callWith_heap (frame : Frame) (method : Token) (args : List Value) (use : ResultUse) :
    (m.callWith p config a below frame method args use).machine.heap = m.heap := by
  unfold callWith
  split
  · next heq =>
    obtain ⟨callee, -, -, rfl⟩ := enter_cases heq
    rfl
  · rfl

theorem intrinsicWith_heap (frame : Frame) (i : Intrinsic) (args : List Value) (use : ResultUse) :
    (m.intrinsicWith a below frame i args use).machine.heap = m.heap := by
  have hheap : (m.intrinsic i args).1.heap = m.heap := by cases i <;> rfl
  unfold intrinsicWith
  split
  · next heq =>
    rw [heq] at hheap
    exact (settle_heap _).trans hheap
  · next heq =>
    rw [heq] at hheap
    exact hheap

theorem call_heap (token : Token) : (m.call p config a below token).machine.heap = m.heap := by
  unfold call
  split
  · split
    · rfl
    · split
      · rfl
      · exact callWith_heap _ _ _ _
  · split
    · rfl
    · exact intrinsicWith_heap _ _ _ _
  · rfl

theorem resolveVirtual_heap (site : Token) (receiver : Handle) (name : String) (paramCount : Nat) :
    (m.resolveVirtual p site receiver name paramCount).1.heap = m.heap := by
  unfold resolveVirtual
  split
  · rfl
  · split
    · rfl
    · split
      · rfl
      · rfl

theorem callVirtual_heap (token : Token) : (m.callVirtual p config a below token).machine.heap = m.heap := by
  unfold callVirtual
  split
  · rfl
  · exact call_heap token
  · next target _ =>
    split
    · rfl
    · split
      · rfl
      · exact intrinsicWith_heap _ _ _ _
      · next receiver _ =>
        have hheap := resolveVirtual_heap (p := p) (m := m) token receiver target.name target.signature.paramCount
        split
        · next heq =>
          rw [heq] at hheap
          exact hheap
        · next heq =>
          rw [heq] at hheap
          exact (callWith_heap _ _ _ _).trans hheap

theorem deliver_heap (use : ResultUse) (value : Option Value) :
    (m.deliver use below value).machine.heap = m.heap := by
  cases use <;> cases below <;> rfl

theorem unwind_heap (m : Machine) (e : Error) (acts : List Activation) :
    (m.unwind p e acts).machine.heap = m.heap := by
  induction acts generalizing e with
  | nil =>
      rw [unwind]
      rfl
  | cons a below ih =>
      rw [unwind_cons]
      cases a.frame.answer p e with
      | handles fault index => rfl
      | passes e' =>
          dsimp only
          split
          · rfl
          · exact ih e'

/-! ### What changes it -/

theorem newObject_heap (token : Token) : m.heap.Operated (m.newObject p config a below token).machine.heap := by
  unfold newObject
  split
  · exact .refl
  · next constructor type signature typeName _ =>
    have hmade : m.heap.Operated (m.heap.allocate type typeName (p.index.fieldKeysOf type)).1 :=
      Heap.operated_apply (.allocate type typeName (p.index.fieldKeysOf type))
    dsimp only
    split
    · exact hmade
    · rw [callWith_heap]
      exact hmade

theorem returnFrom_heap : m.heap.Operated (m.returnFrom config a below).machine.heap := by
  rw [returnFrom_eq, deliver_heap]
  exact Heap.operated_atReturn config _

theorem storeField_heap {f frame : Frame} {field : Token} {heap : Heap}
    (h : storeField p m f field = .ok (frame, heap)) : m.heap.Operated heap := by
  obtain ⟨key, -, h⟩ := bind_eq_ok_iff.1 h
  obtain ⟨⟨value, f₁⟩, -, h⟩ := bind_eq_ok_iff.1 h
  obtain ⟨⟨owner, f₂⟩, -, h⟩ := bind_eq_ok_iff.1 h
  obtain ⟨owner, -, h⟩ := bind_eq_ok_iff.1 h
  obtain ⟨heap', hwrite, h⟩ := bind_eq_ok_iff.1 h
  cases h
  exact Heap.operated_writeField hwrite

/-- **What an operation does to the heap.** -/
theorem perform_heap (op : Operation) : m.heap.Operated (m.perform p config a below op).machine.heap := by
  have onFrame : ∀ r, m.heap.Operated (m.settle a below r).machine.heap :=
    fun r => Heap.operated_of_eq (settle_heap r)
  cases op with
  | nop | endfinally | ldnull | ldc => exact onFrame (.ok _)
  | stfld field =>
      unfold perform
      dsimp only
      split
      · next heq => exact storeField_heap heq
      · exact .refl
  | throw =>
      unfold perform
      dsimp only
      split
      · exact .refl
      · exact .refl
  | call token => exact Heap.operated_of_eq (call_heap token)
  | callvirt token => exact Heap.operated_of_eq (callVirtual_heap token)
  | newobj token => exact newObject_heap token
  | ret => exact returnFrom_heap
  | _ => exact onFrame _

/-! ### Runs -/

/-- **What a step does to the heap.** -/
theorem step_heap (p : Program) (config : Config) (m : Machine) :
    m.heap.Operated (m.step p config).machine.heap := by
  unfold step
  split
  · exact .refl
  · next a below _ =>
    split
    · exact Heap.operated_of_eq (deliver_heap _ _)
    · next i _ =>
      have hperform : m.heap.Operated (m.perform p config a below i.op).machine.heap := perform_heap i.op
      split
      · next heq =>
        rw [heq] at hperform
        rw [unwind_heap]
        exact hperform
      · exact hperform

/-- **What a run does to the heap.** -/
theorem run_heap {fuel : Nat} {m' : Machine} {result : Except Error (Option Value)}
    (h : m.run p config fuel = some (m', result)) : m.heap.Operated m'.heap := by
  induction fuel generalizing m with
  | zero => cases h
  | succ fuel ih =>
      have hstep := step_heap p config m
      rw [run] at h
      split at h
      · next heq =>
        rw [heq] at hstep
        exact hstep.trans (ih h)
      · next heq =>
        rw [heq] at hstep
        cases h
        exact hstep
      · next heq =>
        rw [heq] at hstep
        cases h
        exact hstep

theorem invoke_heap {fuel : Nat} {m' : Machine} {method : Token} {args : List Value}
    {result : Except Error (Option Value)} (h : m.invoke p config fuel method args = some (m', result)) :
    m.heap.Operated m'.heap := by
  unfold invoke at h
  split at h
  · next heq =>
    rw [← enter_heap heq]
    exact run_heap h
  · cases h
    exact .refl

theorem runEntry_heap {fuel : Nat} {m' : Machine} {args : List String} {result : Except Error Int32}
    (h : m.runEntry p config fuel args = some (m', result)) : m.heap.Operated m'.heap := by
  obtain ⟨m₁, returned, hfinish, hinvoke⟩ := runEntry_cases h
  obtain ⟨console, rfl⟩ := finishEntry_machine hfinish
  have hheap : (m.entryArguments p args).1.heap = m.heap := by
    unfold entryArguments
    split <;> rfl
  have hrun : (m.entryArguments p args).1.heap.Operated m₁.heap := invoke_heap hinvoke
  rw [← hheap]
  exact hrun

end Machine
end ManagedCode
