import RecordTree.Benchmark.Run

/-!
# `RecordTree.Main`: the benchmark as a program

Reads the command line, goes through the stages of a run, and prints each line of the report
with the time that its stage took.
-/

set_option autoImplicit false

namespace RecordTree.Benchmark

/-- A time span as the report writes it. -/
def elapsedText (nanoseconds : Nat) : String :=
  if nanoseconds < 1000 then s!"{nanoseconds}ns"
  else if nanoseconds < 1000000 then s!"{nanoseconds / 1000}µs"
  else s!"{nanoseconds / 1000000}ms"

/-- The wording of a usage error. -/
def UsageError.message : UsageError → String
  | unknownWord word => "unexpected argument: " ++ word
  | repeated _ => "an option is given more than once"
  | invalidValue _ value => "invalid value: " ++ value
  | missingValue _ => "an option has no value"

/-- Goes through stages, printing and timing as it goes. -/
def perform {τ γ : Type} : List (Stage τ γ) → Bench τ γ → IO UInt32
  | [], _ => pure 0
  | stage :: rest, b => do
    let start ← IO.monoNanosNow
    match stage b with
    | .error failure =>
      IO.eprintln failure.message
      pure 1
    | .ok (b, line) =>
      let stop ← IO.monoNanosNow
      for line in line do
        IO.println (line.render (elapsedText (stop - start)))
      perform rest b

/-- Runs the benchmark that the words of a command line ask for. -/
def command (words : List String) : IO UInt32 := do
  match Options.parse words with
  | .error e =>
    IO.eprintln e.message
    pure 1
  | .ok o =>
    let seed ← match o.seed with
      | some seed => pure seed
      | none => IO.rand 0 (UInt64.size - 1)
    let random := Xoshiro.ofSeed seed.toUInt64
    if o.cached then
      perform (stages o seed) ({ tree := .empty, random } : Bench CachedTree Xoshiro)
    else
      perform (stages o seed) ({ tree := .empty, random } : Bench Tree Xoshiro)

end RecordTree.Benchmark

/-- The benchmark as a program. -/
def main (args : List String) : IO UInt32 := RecordTree.Benchmark.command args
