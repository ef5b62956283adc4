import EditList.CommandLine.Request
import EditList.Text

/-!
# Help texts
-/

namespace EditList.CommandLine

/-- The name of the program. -/
def programName : String := "vidfilter"

/-- The version of the program. -/
def programVersion : String := "0.1.0"

/-- A parameter with its letter and its value, as help shows it. -/
def Parameter.usage (p : Parameter) : String :=
  let letter := match p.letter? with
    | some c => "-" ++ String.singleton c ++ ", "
    | none => "    "
  let value := match p.kind with
    | .path => s!" <{p.name.toUpper}>"
    | .text => s!" <{p.name.toUpper}>"
    | _ => ""
  letter ++ "--" ++ p.name ++ value

/-- Two columns of text, the second one aligned. -/
def columns (rows : List (String × String)) : List String :=
  let width := rows.foldl (fun w row => max w row.1.length) 0
  rows.map fun (left, right) => "  " ++ Text.pad .left ' ' width left ++ "  " ++ right

/-- The section of help on parameters. -/
def parameterHelp (parameters : List Parameter) : List String :=
  "Options:" :: columns (parameters.map fun p => (p.usage, p.summary))

/-- How a command is called. -/
def Command.usage (command : Command) : String :=
  let required := command.parameters.filter (·.required)
  let words := required.map fun p => s!" --{p.name} <{p.name.toUpper}>"
  s!"Usage: {programName} {command.name} [OPTIONS]" ++ String.join words

/-- How the program is called. -/
def programUsage : String :=
  s!"Usage: {programName} [OPTIONS] <COMMAND>"

/-- The help of the program or of one command. -/
def helpText : Option Command → String
  | none =>
    let commands := columns (Command.all.map fun c => (c.name, c.summary))
    let rows := [programUsage, "", "Commands:"] ++ commands ++ [""] ++
      parameterHelp programParameters
    String.join (rows.map (· ++ "\n"))
  | some command =>
    let rows := [command.summary, "", command.usage, ""] ++ parameterHelp command.parameters
    String.join (rows.map (· ++ "\n"))

end EditList.CommandLine
