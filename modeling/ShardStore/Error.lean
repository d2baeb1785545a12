import ShardStore.Refusal

/-!
# Reported errors

Errors that whole-map operations report to their caller, as opposed to faults, which unwind.
The absence of a key is never an error.
-/

namespace ShardStore

/-- The errors of traversals and of the encoders. -/
inductive Error where
  /-- A worker could not be started; `cause` is the system's own text. Whether one can be started is
  up to the system, and everywhere else it is assumed that it can: no call here ends so. -/
  | spawn (cause : String)
  /-- A shard worker ended before it had reported the size of its shard. -/
  | interrupted (reported expected : Nat)
  /-- A stored value refused to be encoded. -/
  | encode (cause : Refusal)
deriving DecidableEq, Repr

/-- What is refused by an encoder is reported as an error. -/
instance {α : Type} : Coe (Except Refusal α) (Except Error α) :=
  ⟨Except.mapError .encode⟩

/-- The text shown for an error. -/
def Error.display : Error → String
  | .spawn cause => "failed to spawn iteration worker: " ++ cause
  | .interrupted reported expected =>
    "shard worker exited before reporting its size (" ++ toString reported ++ " of " ++
      toString expected ++ " shards sized)"
  | .encode cause => "failed to encode map: " ++ cause.display

/-- The text of the error that this one wraps, if it wraps one. -/
def Error.cause? : Error → Option String
  | .spawn cause => some cause
  | .interrupted _ _ => none
  | .encode cause => some cause.display

end ShardStore
