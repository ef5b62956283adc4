import EditList.Fault
import EditList.Token
import EditList.Verb

/-!
# Actions

An action is one edit: what to do, from when to when, and why.  `Action.ofTokens` reads the actions
off the tokens of an edit list, one for each run of tokens with the same line.
-/

namespace EditList

/-- One edit of an edit list. -/
structure Action where
  line : Nat
  verb : Verb
  start : Time
  /-- Zero when the line does not give it. -/
  stop : Time
  reason : Reason
  /-- The tokens that the action was read from. -/
  tokens : List Token
  deriving DecidableEq

/-- The place of a token. -/
def Token.position (t : Token) : Position :=
  ⟨t.line, t.column⟩

/-- The maximal runs of neighbouring tokens with the same line, each as its first token and the
others. -/
def lineGroups : List Token → List (Token × List Token)
  | [] => []
  | t :: ts =>
    match lineGroups ts with
    | [] => [(t, [])]
    | (u, us) :: groups =>
      if t.line = u.line then (t, u :: us) :: groups else (t, []) :: (u, us) :: groups

namespace Action

/-- Reads the verb of a line. -/
def readVerb (t : Token) : Except Fault Verb :=
  match Verb.ofName? t.text with
  | some verb => .ok verb
  | none => .error (.unknownVerb t.position t.text)

/-- Reads a time of a line; one that is missing is the start of the media. -/
def readTime (bound : Bound) : Option Token → Except Fault Time
  | none => .ok Time.zero
  | some t =>
    match Time.parse t.text with
    | .ok time => .ok time
    | .error cause => .error (.badTime t.position bound cause)

/-- Reads the reason of a line, which may be missing. -/
def readReason : Option Token → Except Fault Reason
  | none => .ok Reason.none
  | some t =>
    match Reason.parse t.text with
    | .ok reason => .ok reason
    | .error cause => .error (.badReason t.position cause)

/-- Refuses a token that follows the four of an edit. -/
def refuseSurplus : Option Token → Except Fault Unit
  | none => .ok ()
  | some t => .error (.surplusToken t.position 4)

/-- Reads the action of one line from its first token and the others. -/
def ofLine (first : Token) (others : List Token) : Except Fault Action := do
  let verb ← readVerb first
  let start ← readTime .start others[0]?
  let stop ← readTime .stop others[1]?
  let reason ← readReason others[2]?
  refuseSurplus others[3]?
  return ⟨first.line, verb, start, stop, reason, first :: others⟩

/-- Reads the actions of an edit list; the first line that is at fault decides. -/
def ofTokens (tokens : List Token) : Except Fault (List Action) :=
  (lineGroups tokens).mapM fun (first, others) => ofLine first others

/-- The action as a JSON object; an empty reason is left out. -/
def json (a : Action) : Json :=
  .object ([("line", .ofNat a.line), ("verb", a.verb.json), ("start", a.start.json),
      ("end", a.stop.json)] ++
    if a.reason.isEmpty then [] else [("annotation", a.reason.json)])

end Action

end EditList
