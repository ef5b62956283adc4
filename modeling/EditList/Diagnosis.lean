import EditList.Fault
import EditList.Text

/-!
# Diagnoses

What is shown when a run fails: a headline and the causes beneath it.
-/

namespace EditList

/-- A failure and the chain of its causes, the nearest cause first. -/
structure Diagnosis where
  headline : String
  causes : List String
  deriving DecidableEq, Repr

namespace Diagnosis

/-- The diagnosis of a fault by itself. -/
def ofFault (f : Fault) : Diagnosis :=
  ⟨f.message, f.causes⟩

/-- The diagnosis of what was being done when a fault arose. -/
def during (headline : String) (f : Fault) : Diagnosis :=
  ⟨headline, f.message :: f.causes⟩

/-- A text with one lead before its first line and another before each further line. -/
def indent (first further : List Char) (text : String) : List Char :=
  first ++ ('\n' :: further).intercalate (text.toList.splitOn '\n')

/-- The lines for causes that are numbered from `n`. -/
def numbered (n : Nat) : List String → List Char
  | [] => []
  | cause :: rest =>
    let number := (Text.pad .right ' ' 5 (toString n)).toList ++ [':', ' ']
    '\n' :: indent number (List.replicate 7 ' ') cause ++ numbered (n + 1) rest

/-- The text of a diagnosis.  A single cause is indented and several are numbered. -/
def text (d : Diagnosis) : String :=
  let causes := match d.causes with
    | [] => []
    | [cause] => '\n' :: indent (List.replicate 4 ' ') (List.replicate 4 ' ') cause
    | causes => numbered 0 causes
  let heading := if d.causes.isEmpty then "" else "\n\nCaused by:"
  "Error: " ++ d.headline ++ heading ++ String.ofList causes ++ "\n"

end Diagnosis

end EditList
