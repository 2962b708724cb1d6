/-!
The flags of a command line.

Every flag takes one value, as `--name=value` or `--name value`, and may be given once. There are no other
arguments. What is wrong is found from left to right, and so is a call for help: of both, the first counts.
-/

namespace PrivateHistogram.CommandLine

/-- A flag: its name, which values it takes, and what it is for. -/
structure Flag where
  name : String
  accepts : String → Bool
  purpose : String

/-- Why a command line gives no flags. -/
inductive Refusal
  | help
  | unexpected (argument : String)
  | repeated (flag : String)
  | valueMissing (flag : String)
  | invalidValue (flag value : String)
  | flagMissing (flag : String)
deriving DecidableEq, Repr

def Refusal.message : Refusal → String
  | .help => "help"
  | .unexpected argument => "unexpected argument " ++ argument
  | .repeated flag => "flag --" ++ flag ++ " stands twice"
  | .valueMissing flag => "flag --" ++ flag ++ " has no value"
  | .invalidValue flag value => "flag --" ++ flag ++ " does not take the value " ++ value
  | .flagMissing flag => "flag --" ++ flag ++ " is required"

/-- The flags that are given, with their values, in order. -/
abbrev Given := List (String × String)

namespace Given

def value? (g : Given) (name : String) : Option String := g.lookup name

/-- One more flag with its value. -/
def add (flags : List Flag) (g : Given) (name value : String) : Except Refusal Given :=
  match flags.find? fun f => f.name = name with
  | none => .error (.unexpected ("--" ++ name))
  | some f =>
    if (g.value? name).isSome then .error (.repeated name)
    else if f.accepts value then .ok (g ++ [(name, value)])
    else .error (.invalidValue name value)

end Given

/-- What one argument is, the value of a flag apart. -/
inductive Argument
  /-- From here on no argument is a flag. -/
  | stop
  | help
  | assigned (flag value : String)
  /-- A flag whose value is the next argument. -/
  | named (flag : String)
  | other

/-- Tells what an argument is by how it begins. -/
def Argument.ofChars : List Char → Argument
  | ['-', '-'] => .stop
  | '-' :: '-' :: rest =>
    match rest.takeWhile (· ≠ '='), rest.dropWhile (· ≠ '=') with
    | name, [] => if name = "help".toList then .help else .named (String.ofList name)
    | name, _ :: value => .assigned (String.ofList name) (String.ofList value)
  | '-' :: 'h' :: _ => .help
  | _ => .other

/-- Whether an argument cannot be the value of the flag in front of it. -/
def startsLikeFlag : List Char → Bool
  | '-' :: _ :: _ => true
  | _ => false

/-- The flags of a command line, after those that are given already. -/
def scan (flags : List Flag) (g : Given) : List String → Except Refusal Given
  | [] => .ok g
  | argument :: rest =>
    match Argument.ofChars argument.toList with
    | .stop =>
      match rest with
      | [] => .ok g
      | next :: _ => .error (.unexpected next)
    | .help => .error .help
    | .assigned name value => do scan flags (← g.add flags name value) rest
    | .named name =>
      if flags.all fun f => f.name ≠ name then .error (.unexpected argument)
      else match rest with
        | [] => .error (.valueMissing name)
        | value :: rest =>
          if startsLikeFlag value.toList then .error (.valueMissing name)
          else do scan flags (← g.add flags name value) rest
    | .other => .error (.unexpected argument)

end PrivateHistogram.CommandLine
