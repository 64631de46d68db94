import Lox.Text.Quoted

/-!
# Flags

Flags come before the arguments, each with one or two dashes. A switch may have a value after an
equals sign; a flag that takes a value has it there or as the next argument.
-/

namespace Lox

structure Flags where
  debugTree : Bool := false
  context : Bool := false
  plain : Bool := false
  verbose : Bool := false
  /-- The preference file; the one in the home directory if empty. -/
  config : String := ""
deriving DecidableEq, Repr

namespace Flags

/-! ## Names -/

inductive Switch where
  | debugTree
  | context
  | plain
  | verbose
deriving DecidableEq, Repr

/-- A flag by its name: a switch, or the one that takes a value. -/
def switch? : String → Option Switch
  | "debug-ast" => some .debugTree
  | "context" => some .context
  | "plain" => some .plain
  | "v" => some .verbose
  | _ => none

def set (f : Flags) (s : Switch) (b : Bool) : Flags :=
  match s with
  | .debugTree => { f with debugTree := b }
  | .context => { f with context := b }
  | .plain => { f with plain := b }
  | .verbose => { f with verbose := b }

/-- The spellings of the two values of a switch. -/
def boolean? (text : String) : Option Bool :=
  if ["1", "t", "T", "TRUE", "true", "True"].contains text then some true
  else if ["0", "f", "F", "FALSE", "false", "False"].contains text then some false
  else none

/-! ## Errors -/

inductive Error where
  | help
  | badForm (arg : String)
  | undefined (name : String)
  | needsArgument (name : String)
  | badBoolean (value name : String)
deriving DecidableEq, Repr

/-- The line that explains an error; asking for help is none. -/
def Error.message? : Error → Option String
  | help => none
  | badForm arg => some ("bad flag syntax: " ++ arg)
  | undefined name => some ("flag provided but not defined: -" ++ name)
  | needsArgument name => some ("flag needs an argument: -" ++ name)
  | badBoolean value name =>
    some ("invalid boolean value " ++ Text.quote value ++ " for -" ++ name ++ ": parse error")

/-! ## Reading flags -/

/-- An argument as it is read. -/
inductive Shape where
  /-- No flag: the arguments begin here. -/
  | argument
  /-- Two dashes alone: the arguments begin after this. -/
  | stop
  | flag (name : String) (value : Option String)
  | bad
deriving DecidableEq, Repr

/-- Splits a name from the value after the first equals sign, which is not the first character. -/
def nameAndValue (cs : List Char) : Shape :=
  match cs with
  | [] | '-' :: _ | '=' :: _ => .bad
  | c :: rest =>
    let name := String.ofList (c :: rest.takeWhile (· != '='))
    match rest.dropWhile (· != '=') with
    | [] => .flag name none
    | _ :: value => .flag name (some (String.ofList value))

def shape (arg : String) : Shape :=
  match arg.toList with
  | ['-', '-'] => .stop
  | '-' :: '-' :: cs => nameAndValue cs
  | '-' :: c :: cs => nameAndValue (c :: cs)
  | _ => .argument

/-- Reads flags up to the first argument. The result is the flags and the arguments. -/
def parse (f : Flags) : List String → Except Error (Flags × List String)
  | [] => .ok (f, [])
  | arg :: args =>
    match shape arg with
    | .argument => .ok (f, arg :: args)
    | .stop => .ok (f, args)
    | .bad => .error (.badForm arg)
    | .flag name value =>
      match switch? name with
      | some s =>
        match value with
        | none => parse (f.set s true) args
        | some text =>
          match boolean? text with
          | some b => parse (f.set s b) args
          | none => .error (.badBoolean text name)
      | none =>
        if name = "config" then
          match value, args with
          | some path, args => parse { f with config := path } args
          | none, path :: args => parse { f with config := path } args
          | none, [] => .error (.needsArgument name)
        else if name = "h" || name = "help" then .error .help
        else .error (.undefined name)

end Flags

end Lox
