import DocumentPath.Command.Task

namespace DocumentPath.Command

inductive Verb
  | query
  | mutate
  | template
  | check
  deriving DecidableEq, Repr

def Verb.ofName? (s : String) : Option Verb :=
  if s = "query" then some .query
  else if s = "mutate" then some .mutate
  else if s = "template" then some .template
  else if s = "check" then some .check
  else none

/-- What an option is: a switch, or a name for the text that follows. -/
inductive Kind
  | switch
  | text
  deriving DecidableEq, Repr

structure Setting where
  name : String
  short : Option Char
  kind : Kind
  deriving DecidableEq, Repr

def verbose : Setting := ⟨"verbose", some 'v', .switch⟩

/-- What every command on a document takes. -/
def documentSettings : List Setting :=
  [⟨"input", some 'i', .text⟩, ⟨"context", some 'c', .text⟩, ⟨"pretty", some 'p', .switch⟩]

def Verb.settings : Verb → List Setting
  | .query => verbose :: documentSettings ++
    [⟨"parents", none, .switch⟩, ⟨"lazy", none, .switch⟩, ⟨"limit", none, .text⟩]
  | .mutate => verbose :: documentSettings ++ [⟨"value", none, .text⟩]
  | .template => verbose :: documentSettings
  | .check => [verbose]

/-- Why the arguments are no task: they ask about the program, or are wrong. -/
inductive Stop
  | help
  | version
  | usage
  deriving DecidableEq, Repr

/-- The arguments of a command so far. -/
structure Given where
  positional : Option String
  settings : List (String × String)
  deriving DecidableEq, Repr

def Given.get? (given : Given) (name : String) : Option String := List.lookup name given.settings

def Given.has (given : Given) (name : String) : Bool := (given.get? name).isSome

/-- Reads a count of matches, which is a word of 64 bits. -/
def readLimit? (s : String) : Option Nat :=
  (Text.readIndex? s.toList).filter (· < 0x10000000000000000)

/-- Every setting may be given once, and a limit has to be a number. -/
def Given.set (given : Given) (name value : String) : Except Stop Given :=
  if given.has name ∨ (name = "limit" ∧ readLimit? value = none) then .error .usage
  else .ok { given with settings := (name, value) :: given.settings }

def Given.place (given : Given) (value : String) : Except Stop Given :=
  match given.positional with
  | none => .ok { given with positional := some value }
  | some _ => .error .usage

/-- Reads letters behind one dash: switches, and at the end an option with its text or without it.
Gives the option that still waits for its text. -/
def readLetters (settings : List Setting) (given : Given) :
    List Char → Except Stop (Given × Option String)
  | [] => .ok (given, none)
  | c :: cs =>
    if c = 'h' then .error .help
    else
      match settings.find? (·.short == some c) with
      | none => .error .usage
      | some ⟨name, _, .switch⟩ => do readLetters settings (← given.set name "") cs
      | some ⟨name, _, .text⟩ =>
        match cs with
        | [] => .ok (given, some name)
        | '=' :: value => do return (← given.set name (String.ofList value), none)
        | value => do return (← given.set name (String.ofList value), none)

/-- Reads a word behind two dashes, with its text after `=` or without it. -/
def readLong (settings : List Setting) (given : Given) (word : List Char) :
    Except Stop (Given × Option String) :=
  let name := String.ofList (word.takeWhile (· ≠ '='))
  let value := word.dropWhile (· ≠ '=')
  if name = "help" then .error (if value = [] then .help else .usage)
  else
    match settings.find? (·.name == name), value with
    | some ⟨_, _, .switch⟩, [] => do return (← given.set name "", none)
    | some ⟨_, _, .text⟩, [] => .ok (given, some name)
    | some ⟨_, _, .text⟩, _ :: value => do return (← given.set name (String.ofList value), none)
    | _, _ => .error .usage

/-- Reads the arguments of a command from left to right. `waiting` is the option whose text comes
next, and after `--` all else is positional. -/
def readArguments (settings : List Setting) (waiting : Option String) (only : Bool)
    (given : Given) : List String → Except Stop Given
  | [] => if waiting.isSome then .error .usage else .ok given
  | arg :: args =>
    if only then do readArguments settings none true (← given.place arg) args
    else
      match waiting, arg.toList with
      | some _, '-' :: _ :: _ => .error .usage
      | some name, _ => do readArguments settings none false (← given.set name arg) args
      | none, ['-', '-'] => readArguments settings none true given args
      | none, '-' :: '-' :: word => do
        let (given, waiting) ← readLong settings given word
        readArguments settings waiting false given args
      | none, '-' :: c :: cs => do
        let (given, waiting) ← readLetters settings given (c :: cs)
        readArguments settings waiting false given args
      | none, _ => do readArguments settings none false (← given.place arg) args

/-- A task, where its documents come from and how its answer is printed. -/
structure Invocation where
  task : Task
  source : Source
  indented : Bool
  verbose : Bool
  deriving DecidableEq, Repr

/-- What the arguments of a command ask for. A limit makes sense for a stepwise query only. -/
def invocation (verb : Verb) (given : Given) : Except Stop Invocation :=
  match given.positional with
  | none => .error .usage
  | some subject =>
    let task : Option Task := match verb with
      | .query =>
        if given.has "limit" ∧ ¬ given.has "lazy" then none
        else some (.query subject
          ⟨given.has "parents", given.has "lazy", (given.get? "limit").bind readLimit?⟩)
      | .mutate => (given.get? "value").map (.mutate subject)
      | .template => some (.template subject)
      | .check => some (.check subject)
    match task with
    | none => .error .usage
    | some task =>
      let source := ⟨given.get? "input", given.get? "context"⟩
      .ok ⟨task, source, given.has "pretty", given.has "verbose"⟩

/-- The help command may name one command. -/
def readHelp : List String → Stop
  | [] => .help
  | [name] => if name = "help" ∨ (Verb.ofName? name).isSome then .help else .usage
  | _ => .usage

/-- Reads letters behind one dash in front of the command. -/
def readRootLetters (verbose : Bool) : List Char → Except Stop Bool
  | [] => .ok verbose
  | c :: cs =>
    if c = 'h' then .error .help
    else if c = 'V' then .error .version
    else if c = 'v' ∧ ¬ verbose then readRootLetters true cs
    else .error .usage

/-- Reads all arguments of the program. -/
def readInvocation (verbose : Bool) : List String → Except Stop Invocation
  | [] => .error .usage
  | arg :: args =>
    match arg.toList with
    | '-' :: '-' :: _ =>
      if arg = "--help" then .error .help
      else if arg = "--version" then .error .version
      else if arg = "--verbose" ∧ ¬ verbose then readInvocation true args
      else .error .usage
    | '-' :: c :: cs => do readInvocation (← readRootLetters verbose (c :: cs)) args
    | _ =>
      if arg = "help" then .error (readHelp args)
      else
        match Verb.ofName? arg with
        | none => .error .usage
        | some verb => do
          let given ← readArguments verb.settings none false ⟨none, []⟩ args
          let call ← invocation verb given
          return { call with verbose := verbose || call.verbose }

end DocumentPath.Command
