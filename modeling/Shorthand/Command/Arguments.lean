import Shorthand.Text

/-!
Reading of argument lists. A level of the command line accepts flags, at most one option with a
value, a number of plain values, and the names of commands that form the next level. After `--`
every argument is a plain value.
-/

namespace Shorthand

/-- Why an argument list is not run as a command. -/
inductive Usage where
  | help
  | version
  /-- No command and nothing else was given. -/
  | nothingGiven
  | missingCommand
  | unknownCommand
  | unknownArgument
  | missingArgument
  | missingValue
  /-- A flag was given a value. -/
  | unexpectedValue
  /-- Two arguments exclude each other, or one was given twice. -/
  | conflict
  deriving DecidableEq, Repr

namespace Arguments

structure Level where
  flags : List Text := []
  /-- The name and letter of the option with a value. -/
  option : Option (Text × Char) := none
  /-- How many plain values are taken; no limit if absent. -/
  capacity : Option Nat := some 0
  commands : List Text := []
  hasVersion : Bool := false

/-- An option whose value was not stored yet. -/
inductive Pending where
  | none
  | needsValue
  | holds (value : Text)

structure State where
  flags : List Text := []
  option : Option Text := none
  values : List Text := []
  pending : Pending := .none
  /-- A `--` was seen. -/
  plain : Bool := false

namespace State

/-- Stores the value of an option. It may be given once. -/
def store (s : State) (value : Text) : Except Usage State :=
  if s.option.isSome then .error .conflict
  else .ok { s with option := some value, pending := .none }

def settle (s : State) : Except Usage State :=
  match s.pending with
  | .none => .ok s
  | .needsValue => .error .missingValue
  | .holds value => s.store value

def addFlag (s : State) (name : Text) : Except Usage State := do
  let s ← s.settle
  if s.flags.contains name then .error .conflict
  else .ok { s with flags := name :: s.flags }

def addValue (s : State) (value : Text) : Except Usage State := do
  let s ← s.settle
  return { s with values := s.values ++ [value] }

/-- Shows help or the version, unless an option still lacks its value. -/
def stop (s : State) (usage : Usage) : Except Usage State := do
  discard s.settle
  .error usage

def awaitValue (s : State) : Except Usage State := do
  let s ← s.settle
  return { s with pending := .needsValue }

end State

namespace Level

/-- An argument that starts with `--`, without these dashes. -/
def readLong (l : Level) (s : State) (body : Text) : Except Usage State :=
  let (name, attached) := match body.splitFirst? '=' with
    | some (name, value) => (name, some value)
    | none => (body, none)
  if l.option.any fun (o, _) => o = name then
    match attached with
    | some value => s.settle.bind fun s => s.store value
    | none => s.awaitValue
  else if name = ("help" : Text) ∨ (l.hasVersion ∧ name = ("version" : Text)) ∨ name ∈ l.flags then
    if attached.isSome then .error .unexpectedValue
    else if name = ("help" : Text) then s.stop .help
    else if name ∈ l.flags then s.addFlag name
    else s.stop .version
  else .error .unknownArgument

/-- The letters of an argument that starts with one `-`. No letter but that of the option can be
followed by another. -/
def readLetters (l : Level) (s : State) : Text → Except Usage State
  | [] => .ok s
  | c :: rest =>
      if l.option.any fun (_, letter) => letter = c then
        match rest with
        | [] => s.awaitValue
        | '=' :: value => s.settle.bind fun s => s.store value
        | value => s.settle.bind fun s => s.store value
      else if c = 'h' then s.stop .help
      else if l.hasVersion && c = 'V' then s.stop .version
      else .error .unknownArgument

/-- A plain value, or an error if the level takes no more of them. -/
def readValue (l : Level) (s : State) (value : Text) : Except Usage State :=
  if l.capacity.all (s.values.length < ·) then s.addValue value
  else if l.commands = [] ∨ (s.plain ∧ value ∈ l.commands) then .error .unknownArgument
  else .error .unknownCommand

/-- Reads arguments up to a command, which is given with the arguments after it. -/
def read (l : Level) : State → List Text → Except Usage (State × Option (Text × List Text))
  | s, [] => do return (← s.settle, none)
  | s, a :: rest =>
      if s.plain then do l.read (← l.readValue s a) rest
      else if a ∈ l.commands then .ok (s, some (a, rest))
      else match a, s.pending with
        | ['-', '-'], _ => l.read { s with plain := true } rest
        | '-' :: '-' :: body, _ => do l.read (← l.readLong s body) rest
        | '-' :: c :: letters, _ => do l.read (← l.readLetters s (c :: letters)) rest
        | value, .needsValue => l.read { s with pending := .holds value } rest
        | value, _ => do l.read (← l.readValue s value) rest

/-- The state at the end of a level that has no commands. -/
def readAll (l : Level) (args : List Text) : Except Usage State :=
  (l.read {} args).map (·.1)

end Level
end Arguments
end Shorthand
