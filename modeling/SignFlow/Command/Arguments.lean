import SignFlow.Analysis.Function
import SignFlow.Number.Integer

/-! The command line: its options, and how arguments are read.

Options may be shortened as long as one fits, and may carry a value behind an equals sign. An option with
a list takes all plain arguments behind it. Two dashes end the options; as the value of an option they
leave it without one. -/

namespace SignFlow.Command

inductive Output
  | json
  | gcc
  | summary
  deriving DecidableEq, Repr

namespace Output

def all : List Output := [json, gcc, summary]

def name : Output → String
  | json => "json"
  | gcc => "gcc"
  | summary => "summary"

end Output

inductive Flag
  | help
  | checkers
  | output
  | suppress
  | noPossible
  | maxIterations
  | listCheckers
  | verbose
  deriving DecidableEq, Repr

inductive Arity
  | none
  | one
  | many
  deriving DecidableEq, Repr

namespace Flag

def all : List Flag :=
  [help, checkers, output, suppress, noPossible, maxIterations, listCheckers, verbose]

def spellings : Flag → List String
  | help => ["-h", "--help"]
  | checkers => ["--checkers"]
  | output => ["--output"]
  | suppress => ["--suppress"]
  | noPossible => ["--no-possible"]
  | maxIterations => ["--max-iterations"]
  | listCheckers => ["--list-checkers"]
  | verbose => ["-v", "--verbose"]

def arity : Flag → Arity
  | checkers | suppress => .many
  | output | maxIterations => .one
  | _ => .none

def display (f : Flag) : String := "/".intercalate f.spellings

def table : List (String × Flag) :=
  all.flatMap fun f => f.spellings.map fun s => (s, f)

def ofSpelling? (text : String) : Option Flag := table.lookup text

end Flag

structure Settings where
  dumpFile : Option String := none
  checkers : Option (List String) := none
  /-- Missing if the option was given without a value. -/
  output : Option Output := some .json
  suppress : Option (List String) := none
  noPossible : Bool := false
  /-- Missing if the option was given without a value. -/
  maxIterations : Option Int := some defaultLimit
  listCheckers : Bool := false
  verbose : Bool := false
  deriving Repr

inductive UsageError
  | ambiguous (arg : String) (spellings : List String)
  | expectedOne (flag : Flag)
  | unusedValue (flag : Flag) (value : String)
  | notInteger (flag : Flag) (value : String)
  | notOutput (flag : Flag) (value : String)
  | unrecognized (args : List String)
  | noDumpFile
  deriving Repr

namespace UsageError

def ofFlag (f : Flag) (complaint : String) : String := "argument " ++ f.display ++ ": " ++ complaint

def message : UsageError → String
  | ambiguous arg spellings =>
    "ambiguous option: " ++ arg ++ " could match " ++ ", ".intercalate spellings
  | expectedOne f => ofFlag f "expected one argument"
  | unusedValue f value => ofFlag f ("ignored explicit argument " ++ Text.quoted value)
  | notInteger f value => ofFlag f ("invalid int value: " ++ Text.quoted value)
  | notOutput f value =>
    ofFlag f ("invalid choice: " ++ Text.quoted value ++ " (choose from "
      ++ ", ".intercalate (Output.all.map fun o => Text.quoted o.name) ++ ")")
  | unrecognized args => "unrecognized arguments: " ++ " ".intercalate args
  | noDumpFile => "the following arguments are required: dump_file"

end UsageError

/-- Why reading stops before its end: help is asked for, or something is wrong. -/
inductive Stop
  | help
  | usage (e : UsageError)
  deriving Repr

inductive Arg
  | plain (text : String)
  | dashes
  /-- An option; a value may be attached to it, and more short ones may follow a short one. -/
  | option (flag : Flag) (short : Bool) (attached : Option (List Char))
  | unknown (text : String)
  deriving Repr

namespace Arg

def isPlain : Arg → Bool
  | plain _ => true
  | _ => false

def isOption : Arg → Bool
  | option .. | unknown _ => true
  | _ => false

def written : Arg → String
  | plain text => text
  | dashes => "--"
  | option .. => ""
  | unknown text => text

def splitEquals (cs : List Char) : List Char × Option (List Char) :=
  match cs.span (· ≠ '=') with
  | (name, _ :: value) => (name, some value)
  | (name, []) => (name, none)

/-- A minus and digits, with or without a point: no option, but a number. -/
def isNegativeNumber (cs : List Char) : Bool :=
  let cs := if cs.getLast? = some '\n' then cs.dropLast else cs
  match cs with
  | '-' :: body =>
    let isDigit c := (Text.digitValue? c).isSome
    match body.dropWhile isDigit with
    | [] => !body.isEmpty
    | '.' :: rest => !rest.isEmpty && rest.all isDigit
    | _ => false
  | _ => false

def isShort (spelling : String) : Bool := spelling.toList.drop 1 |>.head? |>.any (· ≠ '-')

/-- The options an argument can stand for, with what is attached to them. -/
def candidates (cs : List Char) : List (String × Flag × Option (List Char)) :=
  match cs with
  | '-' :: '-' :: _ =>
    let (name, value) := splitEquals cs
    (Flag.table.filter fun e => name.isPrefixOf e.1.toList).map fun e => (e.1, e.2, value)
  | _ =>
    Flag.table.filterMap fun e =>
      if e.1.toList = cs.take 2 then some (e.1, e.2, some (cs.drop 2))
      else if cs.isPrefixOf e.1.toList then some (e.1, e.2, none)
      else none

def classify (text : String) : Except Stop Arg :=
  let cs := text.toList
  match cs with
  | '-' :: _ :: _ =>
    match Flag.ofSpelling? text with
    | some f => .ok (option f (isShort text) none)
    | none =>
      let (name, value) := splitEquals cs
      match value, Flag.ofSpelling? (String.ofList name) with
      | some v, some f => .ok (option f (isShort text) (some v))
      | _, _ =>
        match candidates cs with
        | [] =>
          if isNegativeNumber cs || cs.contains ' ' then .ok (plain text) else .ok (unknown text)
        | [(spelling, f, attached)] => .ok (option f (isShort spelling) attached)
        | several => .error (.usage (.ambiguous text (several.map Prod.fst)))
  | _ => .ok (plain text)

/-- All arguments; behind two dashes everything is plain. -/
def classifyAll : List String → Except Stop (List Arg)
  | [] => .ok []
  | "--" :: rest => .ok (dashes :: rest.map plain)
  | text :: rest => do
    let arg ← classify text
    let others ← classifyAll rest
    pure (arg :: others)

end Arg

/-- What has been read so far; the file is awaited until the first plain argument. -/
structure Reading where
  settings : Settings := {}
  awaiting : Bool := true
  extras : List String := []
  deriving Repr

namespace Reading

/-- Sets an option to its values, of which two dashes are none. -/
def take (r : Reading) (f : Flag) (values : List String) : Except Stop Reading :=
  let s := r.settings
  let set (s : Settings) : Except Stop Reading := .ok { r with settings := s }
  match f, values.erase "--" with
  | .help, _ => .error .help
  | .checkers, names => set { s with checkers := some names }
  | .suppress, ids => set { s with suppress := some ids }
  | .noPossible, _ => set { s with noPossible := true }
  | .listCheckers, _ => set { s with listCheckers := true }
  | .verbose, _ => set { s with verbose := true }
  | .output, [] => set { s with output := none }
  | .output, v :: _ =>
    match Output.all.find? fun o => o.name == v with
    | some o => set { s with output := some o }
    | none => .error (.usage (.notOutput f v))
  | .maxIterations, [] => set { s with maxIterations := none }
  | .maxIterations, v :: _ =>
    match Integer.read v with
    | .ok n => set { s with maxIterations := some n }
    | .error _ => .error (.usage (.notInteger f v))

def takeFlags (r : Reading) (flags : List Flag) : Except Stop Reading :=
  flags.foldlM (fun r f => r.take f []) r

/-- Sets an option with what is attached to it: its value, or more flags behind the same dash. Flags
before one that is wrong are not set. -/
def takeAttached (r : Reading) (pending : List Flag) (f : Flag) (short : Bool) :
    List Char → Except Stop Reading
  | [] =>
    if f.arity = .none then .error (.usage (.unusedValue f "")) else r.take f [""]
  | c :: rest =>
    let value := String.ofList (c :: rest)
    if f.arity ≠ .none then r.take f [value]
    else
      match if short then Flag.ofSpelling? (String.ofList ['-', c]) else none with
      | none => .error (.usage (.unusedValue f value))
      | some g =>
        if rest.isEmpty then r.takeFlags (pending ++ [f, g])
        else r.takeAttached (pending ++ [f]) g true rest

/-- Reads on from an argument; `fuel` is at least the number of arguments. -/
def go : Nat → Reading → List Arg → Except Stop Reading
  | 0, r, _ => .ok r
  | _ + 1, r, [] => .ok r
  | fuel + 1, r, .unknown text :: rest => go fuel { r with extras := r.extras ++ [text] } rest
  | fuel + 1, r, .option f short (some a) :: rest => do
    let r ← r.takeAttached [] f short a
    go fuel r rest
  | fuel + 1, r, .option f _ none :: rest =>
    let values := rest.takeWhile Arg.isPlain
    match f.arity with
    | .none => do go fuel (← r.take f []) rest
    | .one =>
      match values with
      | [] => .error (.usage (.expectedOne f))
      | v :: _ => do go fuel (← r.take f [v.written]) (rest.drop 1)
    | .many => do go fuel (← r.take f (values.map Arg.written)) (rest.drop values.length)
  | fuel + 1, r, arg :: rest =>
    let args := arg :: rest
    if r.awaiting then
      let before := args.takeWhile fun a => !a.isPlain && !a.isOption
      let behind := args.drop before.length
      let file := (behind.takeWhile Arg.isPlain).take 1
      let after := (behind.drop file.length).takeWhile fun a => !a.isPlain && !a.isOption
      let taken := before ++ file ++ after
      let texts := (taken.map Arg.written).erase "--"
      go fuel { r with
        awaiting := false
        settings := { r.settings with dumpFile := texts.head? } } (args.drop taken.length)
    else
      let extra := args.takeWhile fun a => !a.isOption
      go fuel { r with extras := r.extras ++ extra.map Arg.written } (args.drop extra.length)

end Reading

def parse (argv : List String) : Except Stop Settings := do
  let args ← Arg.classifyAll argv
  let r ← Reading.go (args.length + 1) {} args
  if r.extras.isEmpty then pure r.settings else throw (.usage (.unrecognized r.extras))

end SignFlow.Command
