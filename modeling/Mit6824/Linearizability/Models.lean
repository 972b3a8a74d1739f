import Mathlib.Data.List.Dedup

/-!
# Models of the linearizability checker

A `Model` says which outputs a sequential object may give. `kvModel` is the model of
one key of a key/value store; a history is partitioned by key before it is checked.
-/

namespace Mit6824.Linearizability

/-- A call with its result; `call` and `returned` are the times at which it began and ended. -/
structure Operation (ι ο : Type) where
  input : ι
  call : Int
  output : ο
  returned : Int
  deriving DecidableEq, Repr

structure Model (ι ο σ : Type) where
  partition : List (Operation ι ο) → List (List (Operation ι ο))
  init : σ
  step : σ → ι → ο → Bool × σ
  equal : σ → σ → Bool

/-- The model takes the inputs with these outputs one after the other. -/
def Model.accepts {ι ο σ : Type} (model : Model ι ο σ) (state : σ) : List (ι × ο) → Bool
  | [] => true
  | (input, output) :: rest =>
      (model.step state input output).1 &&
        model.accepts (model.step state input output).2 rest

structure KvInput where
  /-- `0` is get, `1` put, and anything else append. -/
  op : UInt8
  key : String
  value : String
  deriving DecidableEq, Repr

structure KvOutput where
  value : String
  deriving DecidableEq, Repr

def kvModel : Model KvInput KvOutput String where
  -- Go walks the map of the parts in any order; here the keys come in the order of the history.
  partition history :=
    (history.map fun operation => operation.input.key).dedup.map fun key =>
      history.filter fun operation => operation.input.key = key
  init := ""
  step state input output :=
    if input.op = 0 then (output.value = state, state)
    else if input.op = 1 then (true, input.value)
    else (true, state ++ input.value)
  equal left right := left = right

end Mit6824.Linearizability
