import CallSite.Text.CodePoints

/-!
# Blank characters — what may stand between tokens

The Unicode property `White_Space`: six ASCII characters and the table above ASCII.
-/

namespace CallSite

/-- The white space from U+0080 on. -/
def blankTable : CodePoints :=
  ⟨[(0x85, 0x85), (0xa0, 0xa0), (0x1680, 0x1680), (0x2000, 0x200a), (0x2028, 0x2029),
    (0x202f, 0x202f), (0x205f, 0x205f), (0x3000, 0x3000)]⟩

/-- White space: the blank, tabulators, line ends and their kin in other blocks. -/
def isBlank (c : Char) : Bool :=
  if c.toNat < 0x80 then (0x9 ≤ c.toNat && c.toNat ≤ 0xd) || c.toNat == 0x20
  else blankTable.contains c

/-- The blank, the tabulator and the line ends of ASCII are blank. -/
theorem isBlank_of_isWhitespace {c : Char} (h : c.isWhitespace) : isBlank c = true := by
  simp only [Char.isWhitespace, Bool.or_eq_true, decide_eq_true_eq] at h
  rcases h with ((rfl | rfl) | rfl) | rfl <;> rfl

end CallSite
