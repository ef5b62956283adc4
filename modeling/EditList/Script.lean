import EditList.Graph.Compile
import EditList.Spacing

/-!
# Edit lists as text

The whole way from the text of an edit list to its actions, its filter graph and the expression that
the encoder reads.  The first fault on the way is the result.
-/

namespace EditList

/-- Reads the actions of an edit list and checks them. -/
def readActions (text : String) : Except Fault (List Action) := do
  let actions ← Action.ofTokens (tokens text)
  checkSpacing actions
  return actions

/-- Compiles an edit list to its filter graph. -/
def compile (text : String) : Except Fault Graph := do
  Graph.ofActions (← readActions text)

/-- Compiles an edit list to the expression of its filter graph. -/
def compileText (text : String) : Except Fault String := do
  return (← compile text).text

end EditList
