/-!
# `RecordTree.Benchmark.Options`: the benchmark's command line

Six numbers and one flag are set by words of the form `--name value` or `--name=value`, in
any order and each at most once. A number that is named without a value, because the words
end there or go on with another option, keeps its default; the seed has none and needs one.
`Options.parse` answers with the options, or with the first reason why the words do not make
sense (`UsageError`).
-/

set_option autoImplicit false

namespace RecordTree.Benchmark

/-- The numbers that a run can be given. -/
inductive Setting where
  | seed | loads | loops | incrs | segments | queries
deriving DecidableEq

/-- The setting that a word names. -/
def Setting.ofName? : String → Option Setting
  | "seed" => some .seed
  | "loads" => some .loads
  | "loops" => some .loops
  | "incrs" => some .incrs
  | "segments" => some .segments
  | "queries" => some .queries
  | _ => none

/-- What a run is asked to do. -/
structure Options where
  /-- The seed of the stream of numbers, drawn anew without one. -/
  seed : Option Nat := none
  /-- Whether the tree keeps its left-most node at hand. -/
  cached : Bool := false
  /-- The items to load. -/
  loads : Nat := 1000000
  /-- How often to look each item up. -/
  loops : Nat := 3
  /-- The insertions, deletions and look-ups after that. -/
  incrs : Nat := 0
  /-- The intervals to load. -/
  segments : Nat := 0
  /-- The overlap queries to put to them. -/
  queries : Nat := 0
deriving DecidableEq

/-- Why a command line makes no sense. -/
inductive UsageError where
  /-- No option is called that, or it is a word that belongs to no option. -/
  | unknownWord (word : String)
  /-- The option is given twice. -/
  | repeated (setting : Option Setting)
  /-- The value is no natural number below `2 ^ 64`. -/
  | invalidValue (setting : Setting) (value : String)
  /-- The option is given without a value, and has no default. -/
  | missingValue (setting : Setting)
deriving DecidableEq

/-- One option as the words give it. -/
inductive Given where
  | cached
  | number (setting : Setting) (value : Option String)
deriving DecidableEq

/-- Whether a word starts an option, which a dash alone does not. -/
def startsOption (word : String) : Bool :=
  match word.toList with
  | '-' :: _ :: _ => true
  | _ => false

/-- The name in an option's word, after its dashes, and the value that `=` attaches to it. -/
def optionWord? (word : String) : Option (String × Option String) :=
  match word.toList with
  | '-' :: '-' :: rest =>
    let (name, attached) := (rest.dropWhile (· == '-')).span (· != '=')
    match attached with
    | [] => some (.ofList name, none)
    | value => some (.ofList name, some (.ofList (value.dropWhile (· == '='))))
  | _ => none

/-- The options in a list of words. A word of two dashes ends the options, and nothing may
follow it. -/
def readWords : List String → Except UsageError (List Given)
  | [] => pure []
  | ["--"] => pure []
  | "--" :: word :: _ => throw (.unknownWord word)
  | word :: rest =>
    match optionWord? word with
    | none => throw (.unknownWord word)
    | some ("cached", _) => (.cached :: ·) <$> readWords rest
    | some (name, attached) =>
      match Setting.ofName? name, attached, rest with
      | none, _, _ => throw (.unknownWord word)
      | some setting, some value, rest => (.number setting (some value) :: ·) <$> readWords rest
      | some setting, none, [] => pure [.number setting none]
      | some setting, none, value :: later =>
        if startsOption value then (.number setting none :: ·) <$> readWords (value :: later)
        else (.number setting (some value) :: ·) <$> readWords later

/-- The number that a text of decimal digits writes, with an optional plus in front. -/
def parseNumber? (text : String) : Option Nat :=
  let digits := match text.toList with
    | '+' :: rest => rest
    | all => all
  if digits.isEmpty || digits.any (!·.isDigit) then none
  else
    let n := digits.foldl (fun n d => 10 * n + (d.toNat - '0'.toNat)) 0
    if n < UInt64.size then some n else none

/-- The setting that a given option sets, `none` for the flag. -/
def Given.setting : Given → Option Setting
  | .cached => none
  | .number setting _ => some setting

/-- The numbers that given options write. -/
def readNumbers : List Given → Except UsageError (List (Setting × Nat))
  | [] => pure []
  | .cached :: rest => readNumbers rest
  | .number _ none :: rest => readNumbers rest
  | .number setting (some value) :: rest =>
    match parseNumber? value with
    | none => throw (.invalidValue setting value)
    | some n => ((setting, n) :: ·) <$> readNumbers rest

/-- The first of the options named here that is named again. -/
def firstRepeated? : List (Option Setting) → Option (Option Setting)
  | [] => none
  | setting :: rest => if setting ∈ rest then some setting else firstRepeated? rest

namespace Options

/-- The options with one number set. -/
def set (o : Options) (n : Nat) : Setting → Options
  | .seed => { o with seed := some n }
  | .loads => { o with loads := n }
  | .loops => { o with loops := n }
  | .incrs => { o with incrs := n }
  | .segments => { o with segments := n }
  | .queries => { o with queries := n }

/-- The options that the words of a command line ask for. A value that is no number counts
before an option that is given twice, and so does a seed that is nowhere given a value. -/
def parse (words : List String) : Except UsageError Options := do
  let given ← readWords words
  let numbers ← readNumbers given
  let named := given.map Given.setting
  if some .seed ∈ named ∧ Setting.seed ∉ numbers.map Prod.fst then throw (.missingValue .seed)
  else match firstRepeated? named with
    | some setting => throw (.repeated setting)
    | none =>
      let o : Options := { cached := decide (none ∈ named) }
      pure (numbers.foldl (fun o (setting, n) => o.set n setting) o)

end Options

end RecordTree.Benchmark
