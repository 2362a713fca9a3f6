import CallSite.Pattern.Bracket
import CallSite.Text.Alphabetic
import CallSite.Text.Numeric

/-!
# Source — the pattern that a text spells

A pattern is a choice between rows of parts; a part is a symbol, a set, a condition, or a pattern in
parentheses, with repetitions behind it.  Parentheses may also change flags.  A text that spells no
pattern, or one beyond the limits, gives none.
-/

namespace CallSite.Pattern

namespace Reading

/-! ## Repetitions -/

/-- Reads the number of a repetition, which is below two to the power of 32. -/
def count : Reading Nat := do
  blanks
  let digits ← chars Char.isDigit
  blanks
  let value := valueOfChars 10 digits
  if digits.isEmpty || 4294967296 ≤ value then refuse else return value

/-- Reads the bounds of a repetition behind the opening brace. -/
def bounds : Reading (Nat × Option Nat) := do
  gap
  let low ← count
  if ← eat "," then
    gap
    if ← eat "\x7d" then return (low, none)
    else
      let high ← count
      expect "\x7d"
      if low ≤ high then return (low, some high) else refuse
  else
    expect "\x7d"
    return (low, some low)

/-- Reads the sign for a repetition, if one comes next. -/
def repetitionSign : Reading (Option (Nat × Option Nat)) := do
  if ← eat "?" then return some (0, some 1)
  else if ← eat "*" then return some (0, none)
  else if ← eat "+" then return some (1, none)
  else if ← eat "\x7b" then
    let found ← bounds
    gap
    return some found
  else return none

/-- Reads a repetition, if one comes next.  A question mark behind its sign changes which pieces are
    preferred. -/
def repetition : Reading (Option (Nat × Option Nat)) := do
  gap
  let found ← repetitionSign
  if found.isSome then
    let _ ← eat "?"
  return found

/-- Reads the repetitions behind a part.  Every round reads a character, so as many rounds as
    characters are left suffice. -/
def repetitionsWithin : (fuel : Nat) → Draft → Reading Draft
  | 0, d => pure d
  | fuel + 1, d => do
    match ← repetition with
    | none => pure d
    | some (low, high) => repetitionsWithin fuel (d.repeated low high)

/-- Reads the repetitions behind a part. -/
def repetitions (d : Draft) : Reading Draft := do
  repetitionsWithin (← remaining) d

/-! ## Parts -/

/-- The set of a character, or of its two cases where case is ignored, which needs ASCII. -/
def charSet (c : Char) : Reading CharSet := do
  if ← isOn .ignoreCase then
    if ← isOn .unicode then refuse
    else if c.isAlpha then return .eitherCase (.single c)
    else return .single c
  else return .single c

/-- The characters that the point stands for, which are more than those of ASCII. -/
def point : Reading CharSet := do
  if ← isOn .dotAll then others .empty
  else if ← isOn .anyLineEnd then others (.unionOf [.single '\r', .single '\n'])
  else others (.single '\n')

/-- The condition that the caret stands for. -/
def caret : Reading Look := do
  if ← isOn .multiLine then
    if ← isOn .anyLineEnd then return .anyLineStart else return .lineStart
  else return .textStart

/-- The condition that the dollar sign stands for. -/
def dollar : Reading Look := do
  if ← isOn .multiLine then
    if ← isOn .anyLineEnd then return .anyLineEnd else return .lineEnd
  else return .textEnd

/-- Reads a part without parentheses. -/
def part : Reading Draft := do
  if ← eat "[" then
    let d ← bracket Draft.maxDepth
    return .ofSet d.set d.depth
  else if ← eat "." then return .ofSet (← point) 0
  else if ← eat "^" then return .ofLook (← caret)
  else if ← eat "$" then return .ofLook (← dollar)
  else
    match ← symbol with
    | .char c => return .ofSet (← charSet c) 0
    | .set set => return .ofSet set 0
    | .condition d => return d

/-! ## Parentheses -/

/-- What an opening parenthesis begins. -/
inductive Opening where
  /-- Nothing but a change of flags. -/
  | change (change : FlagChange)
  /-- A group, with a change of flags for it. -/
  | group (change : FlagChange) (remembered : Bool)
  deriving DecidableEq, Repr

/-- Whether a text may name a group: it starts with a letter, and goes on with letters, numbers,
    points and square brackets; an underscore counts as a letter. -/
def isGroupName : List Char → Bool
  | [] => false
  | c :: cs =>
    (c == '_' || isAlphabetic c) &&
      cs.all fun c => isAlphabetic c || isNumeric c || ['_', '.', '[', ']'].contains c

/-- Reads the name of a group and the bracket behind it. -/
def groupName : Reading Unit := do
  let cs ← rest
  let name := cs.takeWhile (· != '>')
  moveTo (cs.drop name.length)
  expect ">"
  if isGroupName name then giveName (String.ofList name) else refuse

/-- Reads a change of flags, and whether it stands alone or in front of a group. -/
def flagChange : Reading Opening := do
  let cs ← rest
  let letters := cs.takeWhile fun c => c != ':' && c != ')'
  moveTo (cs.drop letters.length)
  let change ← demand (FlagChange.ofText? letters)
  if ← eat ":" then return .group change false
  else
    expect ")"
    if letters.isEmpty then refuse else return .change change

/-- Reads what follows an opening parenthesis.  Conditions on the text around a place that are
    patterns themselves are refused. -/
def opening : Reading Opening := do
  gap
  if ← ["?=", "?!", "?<=", "?<!"].anyM eat then refuse
  else if ← ["?P<", "?<"].anyM eat then
    groupName
    return .group .keep true
  else if ← eat "?" then flagChange
  else return .group .keep true

/-! ## Branches -/

/-- Reads branches up to a closing parenthesis or the end of the text, where the closed branches
    and the parts of the open one are read already.  Every round but the last reads a character, so
    one round more than characters are left suffice. -/
def branchesWithin (inside : Reading Draft) :
    (fuel : Nat) → (branches parts : List Draft) → Reading Draft
  | 0, _, _ => refuse
  | fuel + 1, branches, parts => do
    gap
    let next ← peek
    if next = none ∨ next = some ')' then return .choice (branches ++ [.sequence parts])
    else if ← eat "|" then branchesWithin inside fuel (branches ++ [.sequence parts]) []
    else if ← ["?", "*", "+", "\x7b"].anyM eat then refuse
    else if ← eat "(" then
      let before ← flags
      match ← opening with
      | .change change =>
        setFlags (change.apply before)
        branchesWithin inside fuel branches (parts ++ [.empty])
      | .group change remembered =>
        setFlags (change.apply before)
        let d ← inside
        expect ")"
        setFlags before
        let d ← repetitions (d.group remembered)
        branchesWithin inside fuel branches (parts ++ [d])
    else
      let d ← repetitions (← part)
      branchesWithin inside fuel branches (parts ++ [d])

/-- Reads branches in which fewer than `levels` parentheses stand in each other. -/
def branches : (levels : Nat) → Reading Draft
  | 0 => refuse
  | levels + 1 => do
    branchesWithin (branches levels) ((← remaining) + 1) [] []

end Reading

/-- The pattern that a text spells.  Flags are off at its start, except the one for Unicode. -/
def ofText? (text : String) : Option Pattern := do
  let (d, s) ← Reading.branches (Draft.maxDepth + 1) ⟨text.toList, [.unicode], []⟩
  if s.rest.isEmpty then d.finish? else none

end CallSite.Pattern
