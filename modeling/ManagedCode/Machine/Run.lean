import ManagedCode.Machine.Step

/-! # Runs

A run takes steps until the call of the host returns or fails. A program may run for ever, so a run is given a number
of steps; without a result after them there is no answer. -/

namespace ManagedCode.Machine

/-- Runs for at most `fuel` steps. -/
def run (p : Program) (config : Config) : (fuel : Nat) → Machine → Option (Machine × Except Error (Option Value))
  | 0, _ => none
  | fuel + 1, m =>
      match m.step p config with
      | .running m => run p config fuel m
      | .returned m value => some (m, .ok value)
      | .failed m e => some (m, .error e)

/-- Calls a method for the host, with the receiver first for an instance method. -/
def invoke (p : Program) (config : Config) (fuel : Nat) (m : Machine) (method : Token) (args : List Value) :
    Option (Machine × Except Error (Option Value)) :=
  match enter p config m method args .host with
  | .ok m => run p config fuel m
  | .error e => some (m, .error e)

/-- The arguments of the entry point: a list of the given strings if it takes one. -/
def entryArguments (p : Program) (m : Machine) (args : List String) : Machine × List Value :=
  if p.entrySignature.paramCount = 0 then (m, [])
  else ({ m with fresh := m.fresh + 1 }, [.list m.fresh args])

/-- The exit code of a result: the integer returned, and zero for any other result. -/
def exitCode (result : Option Value) : Int32 :=
  (result.bind Value.asInt?).getD 0

/-- The result of the entry point as an exit code. Its lines have to be flushed. -/
def finishEntry (m : Machine) (result : Except Error (Option Value)) : Machine × Except Error Int32 :=
  match result with
  | .error e => (m, .error e)
  | .ok value =>
      match m with
      | { heap, activations, dispatch, console, fresh } =>
          let (console, flushed) := console.flush
          ({ heap, activations, dispatch, console, fresh }, flushed.map fun _ => exitCode value)

/-- Runs the entry point. -/
def runEntry (p : Program) (config : Config) (fuel : Nat) (m : Machine) (args : List String) :
    Option (Machine × Except Error Int32) :=
  let (m, values) := entryArguments p m args
  (invoke p config fuel m p.entryPoint values).map fun (m, result) => m.finishEntry result

end ManagedCode.Machine
