import Chomsky.Definitions

/-!
# Arguments

The command line mixes options and words. An option's value is attached to it or is the next
argument; in the second case it stays pending until the next option, flag or word, or the end, and
is checked only then. An argument that cannot be read at all ends the reading at once.
-/

namespace Chomsky

/-- What the command line asks for. -/
structure Arguments where
  definitions : Definitions
  words : List String
  table : Bool
  showGrammar : Bool
  amount : Option Nat
  seed : Option Nat
  maxDepth : Nat

/-- What is wrong with a command line. -/
inductive UsageError
  | unknownArgument
  /-- An option lacks its value. -/
  | invalidValue
  /-- A value is not of the form its option asks for. -/
  | valueValidation
  /-- An option or flag that may occur once occurs again. -/
  | argumentConflict
  /-- A flag is given a value. -/
  | tooManyValues
deriving DecidableEq

/-- Why the reading of a command line ends before its end. -/
inductive Interruption
  | version
  | help
  | misuse (error : UsageError)
deriving DecidableEq

/-- The options that take a value. -/
inductive Setting
  | terminals
  | nonterminals
  | start
  | production
  | amount
  | seed
  | maxDepth
deriving DecidableEq

/-- The options that take none. -/
inductive Flag
  | table
  | showGrammar
  | version
  | help
deriving DecidableEq

/-- An option of either kind. -/
abbrev Key := Setting ⊕ Flag

def Key.ofLong? : String → Option Key
  | "terminals" => some (.inl .terminals)
  | "nonterminals" => some (.inl .nonterminals)
  | "start" => some (.inl .start)
  | "production" => some (.inl .production)
  | "generate" => some (.inl .amount)
  | "seed" => some (.inl .seed)
  | "max-depth" => some (.inl .maxDepth)
  | "table" => some (.inr .table)
  | "show-grammar" => some (.inr .showGrammar)
  | "version" => some (.inr .version)
  | "help" => some (.inr .help)
  | _ => none

def Key.ofShort? : Char → Option Key
  | 't' => some (.inl .terminals)
  | 'n' => some (.inl .nonterminals)
  | 's' => some (.inl .start)
  | 'p' => some (.inl .production)
  | 'g' => some (.inl .amount)
  | 'V' => some (.inr .version)
  | 'h' => some (.inr .help)
  | _ => none

/-- How an argument looks before anything is known about the options. -/
inductive Token
  /-- Two dashes alone: the rest are words. -/
  | separator
  /-- Two dashes and a name, with what follows the first equals sign. -/
  | long (name : String) (value : Option String)
  /-- One dash and letters. -/
  | short (letters : List Char)
  | plain (text : String)

def Token.ofString (argument : String) : Token :=
  match argument.toList with
  | ['-', '-'] => .separator
  | '-' :: '-' :: rest =>
    let name := String.ofList (rest.takeWhile (· ≠ '='))
    match rest.dropWhile (· ≠ '=') with
    | [] => .long name none
    | _ :: value => .long name (some (String.ofList value))
  | '-' :: letter :: rest => .short (letter :: rest)
  | _ => .plain argument

/-- A number of at most 64 bits in decimal digits, with or without a plus sign before it. -/
def readNumber? (text : String) : Option Nat :=
  let digits := match text.toList with
    | '+' :: digits => digits
    | digits => digits
  if digits ≠ [] ∧ digits.all Char.isDigit then
    let number := digits.foldl (fun n c => 10 * n + (c.toNat - '0'.toNat)) 0
    if number < UInt64.size then some number else none
  else none

/-- A text of exactly one character. -/
def readCharacter? (text : String) : Option Char :=
  match text.toList with
  | [c] => some c
  | _ => none

/-- The arguments read so far. An option that awaits its value or has received it as an argument of
its own is pending. -/
structure Reading where
  words : Array String := #[]
  terminals : Option String := none
  nonterminals : Option String := none
  start : Option Char := none
  productions : Array String := #[]
  table : Bool := false
  showGrammar : Bool := false
  amount : Option Nat := none
  seed : Option Nat := none
  maxDepth : Option Nat := none
  pending : Option (Setting × Option String) := none
  onlyWords : Bool := false

namespace Reading

/-- The value of an option that may be given once: a second one is refused before it is looked at.
-/
def once {α : Type} (known : Option α) (value : Option α) : Except Interruption (Option α) :=
  if known.isSome then .error (.misuse .argumentConflict)
  else match value with
    | some v => .ok (some v)
    | none => .error (.misuse .valueValidation)

/-- Gives an option its value. -/
def assign (r : Reading) (setting : Setting) (value : String) : Except Interruption Reading :=
  match setting with
  | .terminals => do return { r with terminals := ← once r.terminals (some value) }
  | .nonterminals => do return { r with nonterminals := ← once r.nonterminals (some value) }
  | .start => do return { r with start := ← once r.start (readCharacter? value) }
  | .production => .ok { r with productions := r.productions.push value }
  | .amount => do return { r with amount := ← once r.amount (readNumber? value) }
  | .seed => do return { r with seed := ← once r.seed (readNumber? value) }
  | .maxDepth => do return { r with maxDepth := ← once r.maxDepth (readNumber? value) }

/-- Settles the pending option. -/
def settle (r : Reading) : Except Interruption Reading :=
  match r.pending with
  | none => .ok r
  | some (_, none) => .error (.misuse .invalidValue)
  | some (setting, some value) => { r with pending := none }.assign setting value

/-- Notes a flag. -/
def raise (r : Reading) : Flag → Except Interruption Reading
  | .table =>
    if r.table then .error (.misuse .argumentConflict) else .ok { r with table := true }
  | .showGrammar =>
    if r.showGrammar then .error (.misuse .argumentConflict) else .ok { r with showGrammar := true }
  | .version => .error .version
  | .help => .error .help

/-- An option with the value attached to it, if there is one. -/
def option (r : Reading) (setting : Setting) (value : Option String) :
    Except Interruption Reading := do
  let r ← r.settle
  match value with
  | some value => r.assign setting value
  | none => return { r with pending := some (setting, none) }

/-- A long option or flag. -/
def long (r : Reading) (name : String) (value : Option String) : Except Interruption Reading :=
  match Key.ofLong? name, value with
  | none, _ => .error (.misuse .unknownArgument)
  | some (.inl setting), value => r.option setting value
  | some (.inr _), some _ => .error (.misuse .tooManyValues)
  | some (.inr flag), none => do (← r.settle).raise flag

/-- Letters behind one dash: flags, up to an option, to which all that follows it is attached; an
equals sign before the value does not belong to it. -/
def short (r : Reading) : List Char → Except Interruption Reading
  | [] => .ok r
  | letter :: rest =>
    match Key.ofShort? letter with
    | none => .error (.misuse .unknownArgument)
    | some (.inl setting) =>
      match rest with
      | [] => r.option setting none
      | '=' :: value => r.option setting (some (String.ofList value))
      | value => r.option setting (some (String.ofList value))
    | some (.inr flag) => do
      let r ← (← r.settle).raise flag
      r.short rest

/-- A word, unless an option awaits its value. -/
def plain (r : Reading) (text : String) : Except Interruption Reading :=
  match r.pending, r.onlyWords with
  | some (setting, none), false => .ok { r with pending := some (setting, some text) }
  | _, _ => do
    let r ← r.settle
    return { r with words := r.words.push text }

/-- Takes in one argument. -/
def step (r : Reading) (argument : String) : Except Interruption Reading :=
  if r.onlyWords then r.plain argument
  else match Token.ofString argument with
    | .separator => .ok { r with onlyWords := true }
    | .long name value => r.long name value
    | .short letters => r.short letters
    | .plain text => r.plain text

/-- All that was read, with the defaults for what was not given. -/
def finish (r : Reading) : Arguments where
  definitions :=
    { terminals := (r.terminals.getD "").toList
      nonterminals := (r.nonterminals.getD "").toList
      start := r.start
      productions := r.productions.toList }
  words := r.words.toList
  table := r.table
  showGrammar := r.showGrammar
  amount := r.amount
  seed := r.seed
  maxDepth := r.maxDepth.getD 8

end Reading

/-- Reads a command line. -/
def Arguments.read (arguments : List String) : Except Interruption Arguments := do
  let r ← arguments.foldlM Reading.step {}
  let r ← r.settle
  return r.finish

end Chomsky
