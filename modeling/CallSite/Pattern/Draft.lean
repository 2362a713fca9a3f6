import CallSite.Pattern

/-!
# Drafts — patterns that are being read, and their limits

A pattern is refused when its parts are nested too deep, when it takes too much room with its
repetitions written out, or when it looks for words of characters beyond ASCII, which are not
supported.  What the limits are about is counted while the pattern is put together.
-/

namespace CallSite

/-- The room that a character of the set takes: 32 for each byte when there is but one, and more for
    a choice of characters, above all for one beyond ASCII, which is a choice of byte sequences. -/
def CharSet.room (set : CharSet) : Nat :=
  let choice := if set.pastAscii then 928 + 36 * set.runs else 64 + 8 * set.runs
  match set with
  | .range first last => if first = last then 32 * first.utf8Size else choice
  | _ => choice

/-- Whether the pattern describes empty pieces alone. -/
def Pattern.isZeroWidth : Pattern → Bool
  | .empty => true
  | .one _ => false
  | .place _ => true
  | .seq first second => first.isZeroWidth && second.isZeroWidth
  | .alt left right => left.isZeroWidth && right.isZeroWidth
  | .times pattern _ high => pattern.isZeroWidth || high == some 0

/-- A pattern, with what its limits are about. -/
structure Draft where
  pattern : Pattern
  /-- How many parts the innermost one is nested in. -/
  depth : Nat
  /-- The room that the pattern takes with its repetitions written out. -/
  room : Nat
  /-- Whether it looks for words of all characters. -/
  wide : Bool
  deriving DecidableEq, Repr

namespace Draft

/-- The deepest nesting of parts. -/
def maxDepth : Nat := 250

/-- The most room that a pattern may take: ten mebibytes, some of it for the search around it. -/
def maxRoom : Nat := 10485760 - 168

/-! ## Parts -/

/-- The empty pattern. -/
def empty : Draft := ⟨.empty, 0, 32, false⟩

/-- A character of a set that was read at some depth. -/
def ofSet (set : CharSet) (depth : Nat) : Draft := ⟨.one set, depth, set.room, false⟩

/-- A condition on a place. -/
def ofLook (look : Look) : Draft := ⟨.place look, 0, 32, false⟩

/-- A condition on the words at a place, words being of all characters. -/
def wideLook : Draft := ⟨.empty, 0, 32, true⟩

/-- The depth of parts side by side, which adds a level to the deepest; a single part stands for
    itself. -/
def nesting : List Nat → Nat
  | [] => 0
  | [depth] => depth
  | depths => depths.foldl max 0 + 1

/-- Parts in a row. -/
def sequence (ds : List Draft) : Draft :=
  let room := if ds.isEmpty then empty.room else ds.foldl (fun room d => room + d.room) 0
  ⟨ds.foldr (fun d p => .seq d.pattern p) .empty, nesting (ds.map Draft.depth), room,
    ds.any Draft.wide⟩

/-- Characters in a row are their text. -/
theorem pattern_sequence (cs : List Char) :
    (sequence (cs.map fun c => ofSet (.single c) 0)).pattern = .literal cs := by
  induction cs with
  | nil => rfl
  | cons c cs ih => exact congrArg (Pattern.seq (.one (.single c))) ih

/-- Parts of which one is chosen. -/
def choice (ds : List Draft) : Draft :=
  match ds with
  | [] => empty
  | [d] => d
  | first :: rest =>
    ⟨rest.foldl (fun p d => .alt p d.pattern) first.pattern, nesting (ds.map Draft.depth),
      ds.foldl (fun room d => room + d.room + 4) 64, ds.any Draft.wide⟩

/-- A part in parentheses; it takes room when what it describes is remembered. -/
def group (d : Draft) (remembered : Bool) : Draft :=
  ⟨d.pattern, d.depth + 1, if remembered then d.room + 64 else d.room, d.wide⟩

/-- The room of a repetition whose pieces take `room` each. -/
def repeatedRoom (room low : Nat) : Option Nat → Nat
  | none => max low 1 * room + 40
  | some high =>
    if low = high then low * room else low * room + 32 + (high - low) * (room + 40)

/-- A part repeated at least `low` and at most `high` times.  Nothing is left of a part that is
    repeated no times, and of empty pieces one is as good as more. -/
def repeated (d : Draft) (low : Nat) (high : Option Nat) : Draft :=
  if high = some 0 then ⟨.empty, d.depth + 1, empty.room, false⟩
  else
    let room :=
      if d.pattern.isZeroWidth then repeatedRoom d.room (min low 1) (some 1)
      else repeatedRoom d.room low high
    ⟨.times d.pattern low high, d.depth + 1, room, d.wide⟩

/-! ## Limits -/

/-- The pattern, if it keeps to the limits. -/
def finish? (d : Draft) : Option Pattern :=
  if d.depth ≤ maxDepth ∧ d.room ≤ maxRoom ∧ d.wide = false then some d.pattern else none

end Draft

end CallSite
