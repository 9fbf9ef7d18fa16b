/-
Splitting a command's arguments into options and operands.  An option starts with two dashes and a
name, or with one dash and a letter; letters may be clustered, and a value may follow its option
directly, behind an equals sign or as the next argument.  After a lone `--` everything is an
operand.  Options are taken in when the next one begins, so that of two faults the earlier one is
not always the one reported.
-/

namespace HopCodec

universe u

/-- Why arguments are no request to do work. -/
inductive UsageFault
  | invalidValue
  | badValue
  | unknownArgument
  | missingArgument
  | repeatedOption
  | unknownCommand
  | missingCommand
  | needlessValue
  | help
  | version
  | helpForNothing
deriving DecidableEq, Repr

/-- What an option does when it is met. -/
inductive OptionAction (α : Type u)
  | help
  | version
  /-- An option without a value.  It may have to stand alone. -/
  | flag (given : α) (repeatable : Bool)
  /-- An option with a value, which may be refused. -/
  | value (read : String → Except UsageFault α)

/-- An option: its letter, if it has one, its name and its action. -/
structure OptionRule (α : Type u) where
  letter : Option Char
  name : String
  action : OptionAction α

/-- The arguments that a command takes. -/
structure ArgumentGrammar (α : Type u) where
  options : List (OptionRule α)
  /-- The number of operands needed. -/
  operands : Nat
  /-- Whether more operands may follow. -/
  more : Bool

/-- What has been read but not taken in yet. -/
inductive PendingArgument (α : Type u)
  | option (name : String) (read : String → Except UsageFault α) (value : Option String)
  | operands (texts : List String)

/-- The arguments taken in so far. -/
structure Arguments (α : Type u) where
  given : List (String × α)
  operands : List String
  pending : Option (PendingArgument α)
  /-- The number of operands read, pending ones included. -/
  placed : Nat

namespace Arguments

variable {α : Type u}

def empty : Arguments α :=
  ⟨[], [], none, 0⟩

def isGiven (a : Arguments α) (name : String) : Bool :=
  a.given.any fun entry => entry.1 = name

/-- Add an option that may stand only once. -/
def addOnce (a : Arguments α) (name : String) (option : Except UsageFault α) :
    Except UsageFault (Arguments α) :=
  if a.isGiven name then .error .repeatedOption
  else do return { a with given := a.given ++ [(name, ← option)] }

/-- Take in what is pending.  An option must have got its value by now, and no operand may be
empty. -/
def settle (a : Arguments α) : Except UsageFault (Arguments α) :=
  let done := { a with pending := none }
  match a.pending with
  | none => .ok done
  | some (.option _ _ none) => .error .invalidValue
  | some (.option name read (some value)) => done.addOnce name (read value)
  | some (.operands texts) =>
      if texts.any String.isEmpty then .error .invalidValue
      else .ok { done with operands := a.operands ++ texts }

/-- Act on an option that stands without a value. -/
def actOnFlag (a : Arguments α) (name : String) (action : OptionAction α) :
    Except UsageFault (Arguments α) := do
  let a ← a.settle
  match action with
  | .help => throw .help
  | .version => throw .version
  | .flag option repeatable =>
      if repeatable then return { a with given := a.given ++ [(name, option)] }
      else a.addOnce name (.ok option)
  | .value read => return { a with pending := some (.option name read none) }

/-- Act on an option with the value that is attached to it. -/
def actOnValue (a : Arguments α) (name : String) (read : String → Except UsageFault α)
    (value : String) : Except UsageFault (Arguments α) := do
  (← a.settle).addOnce name (read value)

/-- Read an option that is spelt by name, with its attached value if there is one. -/
def readName (g : ArgumentGrammar α) (a : Arguments α) (name : String) (value : Option String) :
    Except UsageFault (Arguments α) :=
  match g.options.find? fun rule => rule.name = name with
  | none => .error .unknownArgument
  | some rule =>
      match rule.action, value with
      | .value read, some value => a.actOnValue rule.name read value
      | action, none => a.actOnFlag rule.name action
      | _, some _ => .error .needlessValue

/-- Read a cluster of option letters.  The first option with a value takes the rest as its value. -/
def readLetters (g : ArgumentGrammar α) (a : Arguments α) :
    List Char → Except UsageFault (Arguments α)
  | [] => .ok a
  | c :: rest =>
      match g.options.find? fun rule => rule.letter = some c with
      | none => .error .unknownArgument
      | some rule =>
          match rule.action, rest with
          | .value read, '=' :: value => a.actOnValue rule.name read (String.ofList value)
          | .value read, v :: value => a.actOnValue rule.name read (String.ofList (v :: value))
          | action, rest => do
              let a ← a.actOnFlag rule.name action
              readLetters g a rest

/-- An argument as it looks. -/
inductive Shape
  | escape
  | name (name : String) (value : Option String)
  | letters (letters : List Char)
  | plain

/-- Tell options from operands.  A lone dash is an operand. -/
def shape (argument : String) : Shape :=
  match argument.toList with
  | ['-', '-'] => .escape
  | '-' :: '-' :: text =>
      let name := text.takeWhile (· ≠ '=')
      match text.drop name.length with
      | [] => .name (String.ofList name) none
      | _ :: value => .name (String.ofList name) (some (String.ofList value))
  | ['-'] => .plain
  | '-' :: letters => .letters letters
  | _ => .plain

def readOperand (g : ArgumentGrammar α) (a : Arguments α) (text : String) :
    Except UsageFault (Arguments α) :=
  if g.operands ≤ a.placed && !g.more then .error .unknownArgument
  else
    match g.more, a.pending with
    | true, some (.operands texts) =>
        .ok { a with pending := some (.operands (texts ++ [text])), placed := a.placed + 1 }
    | _, _ => do
        let a ← a.settle
        return { a with pending := some (.operands [text]), placed := a.placed + 1 }

/-- Read an argument that is neither an option nor escaped: the value that an option still waits
for, or an operand. -/
def readPlain (g : ArgumentGrammar α) (a : Arguments α) (text : String) :
    Except UsageFault (Arguments α) :=
  match a.pending with
  | some (.option name read none) =>
      .ok { a with pending := some (.option name read (some text)) }
  | _ => a.readOperand g text

/-- Read a list of arguments.  All of them are operands once `--` has been met. -/
def readAll (g : ArgumentGrammar α) (escaped : Bool) (a : Arguments α) :
    List String → Except UsageFault (Arguments α)
  | [] => a.settle
  | text :: rest => do
      if escaped then readAll g true (← a.readOperand g text) rest
      else
        match shape text with
        | .escape => readAll g true a rest
        | .name name value => readAll g false (← a.readName g name value) rest
        | .letters letters => readAll g false (← a.readLetters g letters) rest
        | .plain => readAll g false (← a.readPlain g text) rest

/-- The arguments of a command.  All operands it needs must be there. -/
def parse (g : ArgumentGrammar α) (arguments : List String) :
    Except UsageFault (Arguments α) := do
  let a ← readAll g false empty arguments
  if a.operands.length < g.operands then throw .missingArgument
  return a

/-- The given options in order. -/
def options (a : Arguments α) : List α :=
  a.given.map Prod.snd

end Arguments

end HopCodec
