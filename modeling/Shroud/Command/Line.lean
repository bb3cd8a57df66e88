import Shroud.Text.Basic

/-! # Command lines

What the arguments of the compiler ask for. Arguments are read from left to right: the first one
that cannot be read refuses the line, a request for help ends it, and what is missing shows at the
end.
-/

namespace Shroud

namespace Command

/-- The options that change the settings. -/
structure Options where
  /-- The path of a settings file. -/
  config : Option String := none
  backend : Option String := none
  threshold : Option Nat := none
deriving DecidableEq, Repr

/-- The parts of a command line that have a help text of their own. -/
inductive Topic where
  | top
  | compile
  | check
  | info
  | help
deriving DecidableEq, Repr

/-- Options without a value. `verbose` asks for a log, which is no part of what a command
prints. -/
inductive Flag where
  | verbose
  | help
  | force
deriving DecidableEq, Repr

/-- Options with a value. -/
inductive Key where
  | output
  | config
  | backend
  | threshold
deriving DecidableEq, Repr

/-- Why a command line is no command. -/
inductive Usage where
  | help (topic : Topic)
  | refused
deriving DecidableEq, Repr

namespace Flag

def long : Flag → String
  | verbose => "verbose"
  | help => "help"
  | force => "force"

def short? : Flag → Option Char
  | verbose => some 'v'
  | help => some 'h'
  | force => none

end Flag

/-- A count as an option's value: decimal digits, after a plus sign or none, of a 64-bit word. -/
def count? (value : String) : Option Nat :=
  let digits := match value.toList with
    | '+' :: cs => cs
    | cs => cs
  if digits.contains '_' then none
  else (Text.unsigned? digits).filter fun n => n < 0x10000000000000000

namespace Key

def long : Key → String
  | output => "output"
  | config => "config"
  | backend => "crypto-backend"
  | threshold => "hash-threshold"

def short? : Key → Option Char
  | output => some 'o'
  | _ => none

/-- Paths must not be empty, and counts must be counts. -/
def accepts (value : String) : Key → Bool
  | output | config => !value.isEmpty
  | backend => true
  | threshold => (count? value).isSome

end Key

namespace Topic

def ofName? : String → Option Topic
  | "compile" => some compile
  | "check" => some check
  | "info" => some info
  | "help" => some help
  | _ => none

def flags : Topic → List Flag
  | compile => [.force, .verbose, .help]
  | _ => [.verbose, .help]

def keys : Topic → List Key
  | compile => [.output, .config, .backend, .threshold]
  | info => [.config, .backend, .threshold]
  | _ => []

end Topic

/-- What a part of a command line has given so far. -/
structure Given where
  input : Option String := none
  flags : List Flag := []
  values : List (Key × String) := []
deriving DecidableEq, Repr

namespace Given

def value? (g : Given) (k : Key) : Option String :=
  (g.values.find? fun v => v.1 == k).map Prod.snd

def setInput (g : Given) (value : String) : Except Usage Given :=
  if g.input.isSome || value.isEmpty then .error .refused
  else .ok { g with input := some value }

/-- No option may be repeated. -/
def setFlag (t : Topic) (g : Given) (f : Flag) : Except Usage Given :=
  if f = .help then .error (.help t)
  else if g.flags.contains f then .error .refused
  else .ok { g with flags := f :: g.flags }

def setValue (g : Given) (k : Key) (value : String) : Except Usage Given :=
  if (g.value? k).isSome || !k.accepts value then .error .refused
  else .ok { g with values := (k, value) :: g.values }

end Given

/-- The name of a long option and the value after an equals sign. -/
def splitValue : List Char → List Char × Option (List Char)
  | [] => ([], none)
  | '=' :: cs => ([], some cs)
  | c :: cs =>
    let (name, value) := splitValue cs
    (c :: name, value)

/-- Reads a long option. An option whose value is to come is returned beside what is given. -/
def long (t : Topic) (g : Given) (option : List Char) : Except Usage (Given × Option Key) :=
  let (name, value) := splitValue option
  match t.flags.find? (fun f => f.long.toList = name), t.keys.find? (fun k => k.long.toList = name),
      value with
  | some f, _, none => do return (← g.setFlag t f, none)
  | none, some k, none => .ok (g, some k)
  | none, some k, some v => do return (← g.setValue k (String.ofList v), none)
  | _, _, _ => .error .refused

/-- Reads short options behind one dash; what follows one with a value is its value. -/
def short (t : Topic) (g : Given) : List Char → Except Usage (Given × Option Key)
  | [] => .ok (g, none)
  | c :: cs =>
    match t.flags.find? (fun f => f.short? = some c), t.keys.find? (fun k => k.short? = some c) with
    | some f, _ => do short t (← g.setFlag t f) cs
    | none, some k =>
      match cs with
      | [] => .ok (g, some k)
      | '=' :: v => do return (← g.setValue k (String.ofList v), none)
      | v => do return (← g.setValue k (String.ofList v), none)
    | none, none => .error .refused

/-- Reads the arguments of a command; `pending` is an option whose value is to come. After two
dashes there are no options. -/
def scan (t : Topic) (g : Given) (pending : Option Key) : List String → Except Usage Given
  | [] => if pending.isSome then .error .refused else .ok g
  | arg :: rest =>
    match pending, arg.toList with
    | some _, '-' :: _ :: _ => .error .refused
    | some k, _ => do scan t (← g.setValue k arg) none rest
    | none, ['-', '-'] => rest.foldlM Given.setInput g
    | none, '-' :: '-' :: option => do
      let (g, pending) ← long t g option
      scan t g pending rest
    | none, '-' :: c :: cs => do
      let (g, pending) ← short t g (c :: cs)
      scan t g pending rest
    | none, _ => do scan t (← g.setInput arg) none rest

end Command

/-- A command of the compiler. -/
inductive Command where
  | compile (input output : String) (force : Bool) (options : Command.Options)
  | check (input : String)
  | info (input : String) (options : Command.Options)
deriving DecidableEq, Repr

namespace Command

/-- The directory for results if none is given. -/
def defaultOutput : String := "zkay_out"

def Given.options (g : Given) : Options where
  config := g.value? .config
  backend := g.value? .backend
  threshold := (g.value? .threshold).bind count?

def ofGiven (t : Topic) (g : Given) : Except Usage Command :=
  match t, g.input with
  | .compile, some input =>
    .ok (.compile input ((g.value? .output).getD defaultOutput) (g.flags.contains .force) g.options)
  | .check, some input => .ok (.check input)
  | .info, some input => .ok (.info input g.options)
  | _, _ => .error .refused

/-- The help that the names after `help` ask for. -/
def helpOn : List String → Usage
  | [] => .help .top
  | [name] => ((Topic.ofName? name).map .help).getD .refused
  | _ => .refused

/-- Reads the arguments before the name of a command, then those of the command. -/
def readFrom (g : Given) : List String → Except Usage Command
  | [] => .error .refused
  | arg :: rest =>
    match Topic.ofName? arg with
    | some .help => .error (helpOn rest)
    | some t => do ofGiven t (← scan t {} none rest)
    | none => match arg.toList with
      | ['-', '-'] => .error .refused
      | '-' :: '-' :: option => do readFrom (← long .top g option).1 rest
      | '-' :: c :: cs => do readFrom (← short .top g (c :: cs)).1 rest
      | _ => .error .refused

/-- Reads a command line. -/
def read (args : List String) : Except Usage Command := readFrom {} args

end Command

end Shroud
