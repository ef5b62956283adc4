/-!
# Words of a command line

The reading of command-line words against a list of parameters.  A long word is `--name` or
`--name=value`, a short word is a hyphen and letters, each of which is a parameter of its own, and
`--` alone separates.  A value may be a word of its own unless it looks like a parameter.  No
parameter may be given twice.
-/

namespace EditList.CommandLine

/-- A word of a command line. -/
inductive Word where
  | long (name : String) (value? : Option String)
  | short (letters : List Char)
  /-- Two hyphens alone. -/
  | separator
  /-- Any other word, a single hyphen included. -/
  | plain (text : String)
  deriving DecidableEq, Repr

/-- What kind of word a text is. -/
def Word.ofString (text : String) : Word :=
  match text.toList with
  | ['-', '-'] => .separator
  | '-' :: '-' :: rest =>
    .long (String.ofList (rest.takeWhile (· ≠ '=')))
      (match rest.dropWhile (· ≠ '=') with
        | [] => none
        | _ :: value => some (String.ofList value))
  | '-' :: c :: cs => .short (c :: cs)
  | _ => .plain text

/-- What a command line asks for instead of a run. -/
inductive Inquiry where
  | help
  | version
  deriving DecidableEq, Repr

/-- What a parameter takes. -/
inductive ParameterKind where
  /-- Nothing: it is given or not. -/
  | flag
  /-- A path, which may not be empty. -/
  | path
  /-- Any text. -/
  | text
  /-- Nothing, and the rest of the command line does not count. -/
  | inquiry (what : Inquiry)
  deriving DecidableEq, Repr

/-- A parameter of a command. -/
structure Parameter where
  name : String
  letter? : Option Char
  kind : ParameterKind
  /-- Whether the command cannot do without it. -/
  required : Bool
  summary : String
  deriving Repr

/-- The value of a parameter on a command line; that of a flag is empty. -/
structure Given where
  name : String
  value : String
  deriving DecidableEq, Repr

/-- What is wrong with a command line. -/
inductive UsageError where
  | noCommand
  | unknownCommand (word : String)
  | unexpected (word : String)
  | repeated (name : String)
  | needsValue (name : String)
  | takesNoValue (name : String)
  | missing (names : List String)
  deriving DecidableEq, Repr

/-- What the message of a usage error says. -/
def UsageError.message : UsageError → String
  | .noCommand => "a command is required"
  | .unknownCommand word => s!"unrecognized subcommand '{word}'"
  | .unexpected word => s!"unexpected argument '{word}' found"
  | .repeated name => s!"the argument '--{name}' cannot be used multiple times"
  | .needsValue name => s!"a value is required for '--{name}' but none was supplied"
  | .takesNoValue name => s!"no value is accepted for '--{name}'"
  | .missing names =>
    let list := ", ".intercalate (names.map ("--" ++ ·))
    s!"the following required arguments were not provided: {list}"

/-- What stands at the end of a run of parameters. -/
inductive Ending where
  /-- An inquiry. -/
  | asked (what : Inquiry)
  /-- The end of the command line. -/
  | finished (given : List Given)
  /-- A word that is no parameter, and the words after it. -/
  | word (given : List Given) (text : String) (rest : List String)
  /-- A separator, and the words after it. -/
  | separated (given : List Given) (rest : List String)
  deriving Repr

/-- Adds the value of a parameter. -/
def give (given : List Given) (p : Parameter) (value : String) :
    Except UsageError (List Given) :=
  if given.any (·.name = p.name) then .error (.repeated p.name)
  else if p.kind = .path ∧ value = "" then .error (.needsValue p.name)
  else .ok (given ++ [⟨p.name, value⟩])

/-- Reads the letters of a short word, of which none takes a value. -/
def readLetters (parameters : List Parameter) (given : List Given) :
    List Char → Except UsageError (Sum Inquiry (List Given))
  | [] => .ok (.inr given)
  | c :: cs =>
    match parameters.find? (·.letter? = some c) with
    | none => .error (.unexpected ("-" ++ String.singleton c))
    | some p =>
      match p.kind with
      | .inquiry what => .ok (.inl what)
      | _ =>
        match give given p "" with
        | .ok given => readLetters parameters given cs
        | .error e => .error e

/-- Reads the parameters at the front of a command line. -/
def readParameters (parameters : List Parameter) (given : List Given) :
    List String → Except UsageError Ending
  | [] => .ok (.finished given)
  | word :: rest =>
    match Word.ofString word with
    | .plain text => .ok (.word given text rest)
    | .separator => .ok (.separated given rest)
    | .short letters =>
      match readLetters parameters given letters with
      | .ok (.inl what) => .ok (.asked what)
      | .ok (.inr given) => readParameters parameters given rest
      | .error e => .error e
    | .long name value? =>
      match parameters.find? (·.name = name) with
      | none => .error (.unexpected word)
      | some p =>
        match p.kind, value? with
        | .inquiry what, none => .ok (.asked what)
        | .inquiry _, some _ => .error (.takesNoValue name)
        | .flag, some _ => .error (.takesNoValue name)
        | .flag, none =>
          match give given p "" with
          | .ok given => readParameters parameters given rest
          | .error e => .error e
        | _, some value =>
          match give given p value with
          | .ok given => readParameters parameters given rest
          | .error e => .error e
        | _, none =>
          match rest with
          | [] => .error (.needsValue name)
          | value :: rest =>
            match Word.ofString value, give given p value with
            | .plain _, .ok given => readParameters parameters given rest
            | .plain _, .error e => .error e
            | _, _ => .error (.needsValue name)

end EditList.CommandLine
