/-!
# Character sets — what one character of a pattern may be

A set is built from ranges by the operations of character classes, and is asked for one character
at a time.
-/

namespace CallSite

/-- How two sets are put together. -/
inductive SetOp where
  | union
  | inter
  | diff
  | symDiff
  deriving DecidableEq, Repr

/-- Whether a character belongs to the result, from whether it belongs to either set. -/
def SetOp.apply : SetOp → Bool → Bool → Bool
  | .union, a, b => a || b
  | .inter, a, b => a && b
  | .diff, a, b => a && !b
  | .symDiff, a, b => a != b

/-- A set of characters. -/
inductive CharSet where
  | empty
  /-- The characters from the first to the last, both of them included. -/
  | range (first last : Char)
  | combine (op : SetOp) (a b : CharSet)
  /-- All characters that are not in the set. -/
  | others (set : CharSet)
  /-- The set, with the ASCII letters in it taken in either case. -/
  | eitherCase (set : CharSet)
  deriving DecidableEq, Repr

namespace CharSet

/-- Whether a character belongs to the set. -/
def contains : CharSet → Char → Bool
  | .empty, _ => false
  | .range first last, c => first ≤ c && c ≤ last
  | .combine op a b, c => op.apply (a.contains c) (b.contains c)
  | .others set, c => !set.contains c
  | .eitherCase set, c => set.contains c || set.contains c.toLower || set.contains c.toUpper

/-- The set of one character. -/
def single (c : Char) : CharSet := .range c c

/-- The characters that are in any of the sets. -/
def unionOf : List CharSet → CharSet
  | [] => .empty
  | [set] => set
  | set :: sets => .combine .union set (unionOf sets)

/-- The characters from any of the first to the last beside it. -/
def ofRanges (ranges : List (Char × Char)) : CharSet :=
  unionOf (ranges.map fun r => .range r.1 r.2)

/-- A set of one character holds that character alone. -/
theorem contains_single {c d : Char} : (single c).contains d = true ↔ d = c := by
  simp only [single, contains, Bool.and_eq_true, decide_eq_true_eq]
  exact ⟨fun h => Char.le_antisymm h.2 h.1, fun h => h ▸ ⟨Char.le_refl d, Char.le_refl d⟩⟩

/-- A union holds what one of its members holds. -/
theorem contains_unionOf {sets : List CharSet} {c : Char} :
    (unionOf sets).contains c = sets.any (·.contains c) := by
  induction sets with
  | nil => rfl
  | cons set sets ih =>
    cases sets with
    | nil => simp [unionOf]
    | cons next sets => simp [unionOf, contains, SetOp.apply, ih]

/-! ## The named sets of ASCII -/

/-- The ASCII digits. -/
def digits : CharSet := .range '0' '9'

/-- The ASCII characters that words are made of. -/
def wordChars : CharSet := ofRanges [('0', '9'), ('A', 'Z'), ('_', '_'), ('a', 'z')]

/-- The blank, the tabulators and the line ends of ASCII. -/
def spaces : CharSet := ofRanges [('\x09', '\x0d'), (' ', ' ')]

/-- The set that a name stands for between brackets and colons. -/
def named? (name : String) : Option CharSet :=
  match name with
  | "alnum" => some (ofRanges [('0', '9'), ('A', 'Z'), ('a', 'z')])
  | "alpha" => some (ofRanges [('A', 'Z'), ('a', 'z')])
  | "ascii" => some (.range '\x00' '\x7f')
  | "blank" => some (ofRanges [('\x09', '\x09'), (' ', ' ')])
  | "cntrl" => some (ofRanges [('\x00', '\x1f'), ('\x7f', '\x7f')])
  | "digit" => some digits
  | "graph" => some (.range '!' '~')
  | "lower" => some (.range 'a' 'z')
  | "print" => some (.range ' ' '~')
  | "punct" => some (ofRanges [('!', '/'), (':', '@'), ('[', '\x60'), ('\x7b', '~')])
  | "space" => some spaces
  | "upper" => some (.range 'A' 'Z')
  | "word" => some wordChars
  | "xdigit" => some (ofRanges [('0', '9'), ('A', 'F'), ('a', 'f')])
  | _ => none

/-! ## Extent -/

/-- Whether the set may hold characters beyond ASCII, as far as its ranges tell. -/
def pastAscii : CharSet → Bool
  | .empty => false
  | .range _ last => 0x80 ≤ last.toNat
  | .combine .inter a b => a.pastAscii && b.pastAscii
  | .combine .diff a _ => a.pastAscii
  | .combine _ a b => a.pastAscii || b.pastAscii
  | .others _ => true
  | .eitherCase set => set.pastAscii

/-- At most how many runs of characters the set consists of. -/
def runs : CharSet → Nat
  | .empty => 0
  | .range _ _ => 1
  | .combine _ a b => a.runs + b.runs
  | .others set => set.runs + 1
  | .eitherCase set => 2 * set.runs

/-- A character that becomes an ASCII character when its case is changed is one itself. -/
theorem lt_of_toLower_lt {c : Char} (h : c.toLower.toNat < 0x80) : c.toNat < 0x80 := by
  delta Char.toLower at h
  split at h
  next hc =>
    have hle : c.toNat ≤ 90 := hc.2
    omega
  next => exact h

/-- A character that becomes an ASCII character when its case is changed is one itself. -/
theorem lt_of_toUpper_lt {c : Char} (h : c.toUpper.toNat < 0x80) : c.toNat < 0x80 := by
  delta Char.toUpper at h
  split at h
  next hc =>
    have hle : c.toNat ≤ 122 := hc.2
    omega
  next => exact h

/-- A set that is not past ASCII holds ASCII characters alone. -/
theorem lt_of_contains {set : CharSet} {c : Char} (h : set.pastAscii = false)
    (hc : set.contains c = true) : c.toNat < 0x80 := by
  induction set generalizing c with
  | empty => simp [contains] at hc
  | range first last =>
    simp only [pastAscii, decide_eq_false_iff_not, Nat.not_le] at h
    simp only [contains, Bool.and_eq_true, decide_eq_true_eq] at hc
    exact Nat.lt_of_le_of_lt hc.2 h
  | combine op a b iha ihb =>
    cases op <;> simp_all [pastAscii, contains, SetOp.apply] <;> grind
  | others set => simp [pastAscii] at h
  | eitherCase set ih =>
    simp only [contains, Bool.or_eq_true] at hc
    rcases hc with (hc | hc) | hc
    · exact ih h hc
    · exact lt_of_toLower_lt (ih h hc)
    · exact lt_of_toUpper_lt (ih h hc)

end CharSet

end CallSite
