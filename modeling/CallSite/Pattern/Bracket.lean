import CallSite.Pattern.Symbol

/-!
# Brackets — sets of characters written out

Between brackets stand characters, ranges, named sets and further brackets, which are united; signs
for other operations between such unions are worked off from left to right.  A caret behind the
opening bracket turns the set into that of all others.
-/

namespace CallSite.Pattern

/-- A set that is being read, and how many parts the innermost one is nested in. -/
structure SetDraft where
  set : CharSet
  depth : Nat
  deriving DecidableEq, Repr

namespace SetDraft

/-- Sets side by side. -/
def unionOf (ds : List SetDraft) : SetDraft :=
  ⟨.unionOf (ds.map SetDraft.set), Draft.nesting (ds.map SetDraft.depth)⟩

/-- The sets behind an operation, put together with what stands in front of it. -/
def behind (left : Option (SetDraft × SetOp)) (ds : List SetDraft) : SetDraft :=
  let right := unionOf ds
  match left with
  | none => right
  | some (left, op) => ⟨.combine op left.set right.set, max left.depth right.depth + 1⟩

end SetDraft

namespace Reading

/-- A set between brackets.  Where case is ignored its letters are taken in either case, which needs
    ASCII; where the flag for Unicode is off it holds ASCII characters alone. -/
def member (set : CharSet) : Reading SetDraft := do
  if ← isOn .unicode then
    if ← isOn .ignoreCase then refuse else return ⟨set, 0⟩
  else if set.pastAscii then refuse
  else if ← isOn .ignoreCase then return ⟨.eitherCase set, 0⟩
  else return ⟨set, 0⟩

/-- All characters that are not in a set, which are more than those of ASCII. -/
def others (set : CharSet) : Reading CharSet := do
  if ← isOn .unicode then return .others set else refuse

/-- The named set at the head of a text, whether its others are meant, and the text behind it. -/
def namedSet? (cs : List Char) : Option (CharSet × Bool × List Char) := do
  let cs ← match cs with
    | ':' :: cs => some cs
    | _ => none
  let (negated, cs) := match cs with
    | '^' :: cs => (true, cs)
    | cs => (false, cs)
  let name := cs.takeWhile (· != ':')
  match cs.drop name.length with
  | ':' :: ']' :: cs => (CharSet.named? (String.ofList name)).map (·, negated, cs)
  | _ => none

/-- Reads what follows an opening bracket between brackets: a named set, or what `nested` reads. -/
def innerSet (nested : Reading SetDraft) : Reading SetDraft := do
  match namedSet? (← rest) with
  | none => nested
  | some (set, negated, cs) =>
    moveTo cs
    let d ← member set
    if negated then return ⟨← others d.set, d.depth⟩ else return d

/-- The text that comes into view behind a hyphen where gaps mean nothing: a number sign is passed
    over, but not the comment that it starts. -/
def inView (cs : List Char) : List Char :=
  match cs.dropWhile isBlank with
  | '#' :: cs => cs.dropWhile isBlank
  | cs => cs

/-- Whether a hyphen comes next and a range goes on behind it.  A hyphen in front of another one or
    of the closing bracket does not make a range. -/
def isRange : Reading Bool := do
  match ← rest with
  | '-' :: cs =>
    let cs := if ← isOn .verbose then inView cs else cs
    return cs.head? != some ']' && cs.head? != some '-'
  | _ => return false

/-- Reads a character, a range of them, or an escape for a set. -/
def charOrRange : Reading SetDraft := do
  let first ← symbol
  gap
  if ← isRange then
    expect "-"
    gap
    match first, ← symbol with
    | .char first, .char last => if first ≤ last then member (.range first last) else refuse
    | _, _ => refuse
  else
    match first with
    | .char c => member (.single c)
    | .set set => member set
    | .condition _ => refuse

/-- Reads the parts of a set and its closing bracket, where `left` and the open union `ds` are read
    already.  Every round reads a character, so as many rounds as characters are left suffice. -/
def partsWithin (nested : Reading SetDraft) :
    (fuel : Nat) → Option (SetDraft × SetOp) → List SetDraft → Reading SetDraft
  | 0, _, _ => refuse
  | fuel + 1, left, ds => do
    gap
    if ← eat "]" then return .behind left ds
    else if ← eat "&&" then partsWithin nested fuel (some (.behind left ds, .inter)) []
    else if ← eat "--" then partsWithin nested fuel (some (.behind left ds, .diff)) []
    else if ← eat "~~" then partsWithin nested fuel (some (.behind left ds, .symDiff)) []
    else
      let d ← if ← eat "[" then innerSet nested else charOrRange
      partsWithin nested fuel left (ds ++ [d])

/-- Reads the characters that stand for themselves only at the head of a set: hyphens, or one
    closing bracket. -/
def headParts : Reading (List SetDraft) := do
  let hyphens ← chars (· == '-')
  if hyphens.isEmpty then
    if ← eat "]" then
      gap
      return [← member (.single ']')]
    else return []
  else hyphens.mapM fun c => member (.single c)

/-- Reads what follows an opening bracket; at most `levels` brackets may stand in each other. -/
def bracket : (levels : Nat) → Reading SetDraft
  | 0 => refuse
  | levels + 1 => do
    gap
    let negated ← eat "^"
    gap
    let ds ← headParts
    let d ← partsWithin (bracket levels) (← remaining) none ds
    if negated then return ⟨← others d.set, d.depth + 1⟩ else return ⟨d.set, d.depth + 1⟩

end Reading

end CallSite.Pattern
