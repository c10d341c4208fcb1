import Utterance.Text.Blank

/-!
# Arguments of a command

The arguments of a command are options and words in any order.  An option has a name after two hyphens and
perhaps a letter after one; its value follows an equals sign, or is the next argument, which must not look
like an option itself.  After two hyphens alone there are only words.
-/

namespace Utterance.CommandLine

inductive OptionKind where
  /-- Has no value and may be given once. -/
  | flag
  /-- Has a value and may be given once. -/
  | once
  /-- Has a value and may be given several times. -/
  | many
deriving DecidableEq, Repr, Inhabited

structure OptionSpec where
  name : String
  kind : OptionKind
  letter : Option Char := none
  accepts : String → Bool := fun _ => true

structure ArgumentSpec where
  options : List OptionSpec
  /-- The words that make sense; none if there are to be no words. -/
  acceptsWord : Option (String → Bool) := none

/-- The options that were given, with their values, and the words, in their order. -/
structure Arguments where
  options : List (String × String) := []
  words : List String := []
deriving Repr, Inhabited

namespace Arguments

def has (a : Arguments) (name : String) : Bool := (a.options.lookup name).isSome

def value? (a : Arguments) (name : String) : Option String := a.options.lookup name

def values (a : Arguments) (name : String) : List String :=
  (a.options.filter fun o => o.1 == name).map Prod.snd

end Arguments

/-- Why arguments are not taken: they are wrong, or ask for help instead. -/
inductive Refusal where
  | wrong
  | help
deriving DecidableEq, Repr, Inhabited

/-- Adds an option, if it may be given and the value makes sense. -/
def addOption (a : Arguments) (o : OptionSpec) (value : String) : Except Refusal Arguments :=
  if o.kind != .many && a.has o.name then .error .wrong
  else if o.kind != .flag && !o.accepts value then .error .wrong
  else .ok { a with options := a.options ++ [(o.name, value)] }

def addWord (spec : ArgumentSpec) (a : Arguments) (word : String) : Except Refusal Arguments :=
  match spec.acceptsWord with
  | none => .error .wrong
  | some accepts =>
    if accepts word then .ok { a with words := a.words ++ [word] } else .error .wrong

inductive Item where
  | word
  | help
  /-- From here on there are only words. -/
  | separator
  | flags (options : List OptionSpec)
  /-- After some flags, an option with its value, or one whose value is the next argument. -/
  | option (flags : List OptionSpec) (o : OptionSpec) (value : Option String)
  | unknown

/-- Reads letters after one hyphen; `flags` have been read. -/
def lettersItem (spec : ArgumentSpec) (flags : List OptionSpec) : List Char → Item
  | [] => .flags flags
  | c :: cs =>
    if c == 'h' then .help
    else
      match spec.options.find? fun o => o.letter == some c with
      | none => .unknown
      | some o =>
        if o.kind == .flag then lettersItem spec (flags ++ [o]) cs
        else
          match cs with
          | [] => .option flags o none
          | '=' :: value => .option flags o (some (String.ofList value))
          | value => .option flags o (some (String.ofList value))

/-- Reads a name after two hyphens, with the value after an equals sign. -/
def nameItem (spec : ArgumentSpec) (cs : List Char) : Item :=
  let (name, value) := match Text.cutAt? '=' cs with
    | some (name, value) => (String.ofList name, some (String.ofList value))
    | none => (String.ofList cs, none)
  if name == "help" then if value.isNone then .help else .unknown
  else
    match spec.options.find? fun o => o.name == name with
    | none => .unknown
    | some o =>
      if o.kind == .flag then if value.isNone then .flags [o] else .unknown
      else .option [] o value

def itemOf (spec : ArgumentSpec) (argument : String) : Item :=
  match argument.toList with
  | ['-', '-'] => .separator
  | '-' :: '-' :: cs => nameItem spec cs
  | ['-'] => .word
  | '-' :: cs => lettersItem spec [] cs
  | _ => .word

/-- An argument that can be the value of the option before it. -/
def looksLikeValue (argument : String) : Bool := argument == "-" || !argument.startsWith "-"

def readArguments (spec : ArgumentSpec) (a : Arguments) : List String → Except Refusal Arguments
  | [] => .ok a
  | argument :: rest => do
    match itemOf spec argument with
    | .word => readArguments spec (← addWord spec a argument) rest
    | .help => .error .help
    | .unknown => .error .wrong
    | .separator => rest.foldlM (addWord spec) a
    | .flags options => readArguments spec (← options.foldlM (addOption · · "") a) rest
    | .option flags o (some value) =>
      readArguments spec (← addOption (← flags.foldlM (addOption · · "") a) o value) rest
    | .option flags o none =>
      match rest with
      | [] => .error .wrong
      | value :: rest =>
        if looksLikeValue value then
          readArguments spec (← addOption (← flags.foldlM (addOption · · "") a) o value) rest
        else .error .wrong

end Utterance.CommandLine
