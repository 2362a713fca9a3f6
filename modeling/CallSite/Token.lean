import CallSite.Number.Binary64

/-!
# Tokens — the words, literals and marks of an expression

A token is a name, a literal, a reserved word, a mark, or the end of the text.  Reserved words and
marks each have one spelling.
-/

namespace CallSite

/-- The words that are no names. -/
inductive ReservedWord where
  | trueWord | falseWord | noneWord | notWord | andWord | orWord | lambdaWord
  deriving DecidableEq, Repr

namespace ReservedWord

/-- All reserved words. -/
def all : List ReservedWord :=
  [.trueWord, .falseWord, .noneWord, .notWord, .andWord, .orWord, .lambdaWord]

/-- The characters of the word. -/
def chars : ReservedWord → List Char
  | .trueWord => ['T', 'r', 'u', 'e']
  | .falseWord => ['F', 'a', 'l', 's', 'e']
  | .noneWord => ['N', 'o', 'n', 'e']
  | .notWord => ['n', 'o', 't']
  | .andWord => ['a', 'n', 'd']
  | .orWord => ['o', 'r']
  | .lambdaWord => ['l', 'a', 'm', 'b', 'd', 'a']

/-- The reserved word with these characters. -/
def ofChars? (cs : List Char) : Option ReservedWord := all.find? fun w => w.chars == cs

/-- Every reserved word is known by its characters. -/
@[simp] theorem ofChars?_chars (w : ReservedWord) : ofChars? w.chars = some w := by
  cases w <;> rfl

end ReservedWord

/-- Brackets, punctuation and operator signs. -/
inductive Mark where
  | leftParen | rightParen | leftBracket | rightBracket | leftBrace | rightBrace
  | comma | dot | colon | assign | ellipsis
  | star | doubleStar | plus | minus | slash | doubleSlash | percent | atSign
  | pipe | ampersand | caret | tilde | leftShift | rightShift
  | equal | notEqual | less | lessEqual | greater | greaterEqual
  deriving DecidableEq, Repr

namespace Mark

/-- All marks, the longer ones first. -/
def all : List Mark :=
  [.ellipsis,
   .doubleStar, .doubleSlash, .leftShift, .rightShift, .equal, .notEqual, .lessEqual, .greaterEqual,
   .leftParen, .rightParen, .leftBracket, .rightBracket, .leftBrace, .rightBrace,
   .comma, .dot, .colon, .assign, .star, .plus, .minus, .slash, .percent, .atSign,
   .pipe, .ampersand, .caret, .tilde, .less, .greater]

/-- The characters of the mark. -/
def chars : Mark → List Char
  | .leftParen => ['(']
  | .rightParen => [')']
  | .leftBracket => ['[']
  | .rightBracket => [']']
  | .leftBrace => ['\x7b']
  | .rightBrace => ['\x7d']
  | .comma => [',']
  | .dot => ['.']
  | .colon => [':']
  | .assign => ['=']
  | .ellipsis => ['.', '.', '.']
  | .star => ['*']
  | .doubleStar => ['*', '*']
  | .plus => ['+']
  | .minus => ['-']
  | .slash => ['/']
  | .doubleSlash => ['/', '/']
  | .percent => ['%']
  | .atSign => ['@']
  | .pipe => ['|']
  | .ampersand => ['&']
  | .caret => ['^']
  | .tilde => ['~']
  | .leftShift => ['<', '<']
  | .rightShift => ['>', '>']
  | .equal => ['=', '=']
  | .notEqual => ['!', '=']
  | .less => ['<']
  | .lessEqual => ['<', '=']
  | .greater => ['>']
  | .greaterEqual => ['>', '=']

/-- The longest mark with which a text opens. -/
def ofText? (cs : List Char) : Option Mark := all.find? fun m => m.chars.isPrefixOf cs

theorem mem_all (m : Mark) : m ∈ all := by
  cases m <;> decide

/-- The text begins with the mark that is read from it. -/
theorem chars_isPrefix_of_ofText? {cs : List Char} {m : Mark} (h : ofText? cs = some m) :
    m.chars <+: cs := by
  simpa using List.find?_some h

/-- No longer mark begins the text. -/
theorem length_le_of_ofText? {cs : List Char} {m n : Mark} (h : ofText? cs = some m)
    (hn : n.chars <+: cs) : n.chars.length ≤ m.chars.length := by
  obtain ⟨-, before, behind, hall, hbefore⟩ := List.find?_eq_some_iff_append.mp h
  have hsorted : all.Pairwise fun k l => l.chars.length ≤ k.chars.length := by decide
  have hmem : n ∈ before ++ m :: behind := hall ▸ mem_all n
  rw [hall, List.pairwise_append] at hsorted
  rcases List.mem_append.mp hmem with hn' | hn'
  · -- what stands in front of the first hit is no hit
    have hmiss := hbefore n hn'
    rw [List.isPrefixOf_iff_prefix.mpr hn] at hmiss
    cases hmiss
  · rcases List.mem_cons.mp hn' with rfl | hn'
    · exact Nat.le_refl _
    · exact (List.pairwise_cons.mp hsorted.2.1).1 n hn'

end Mark

/-- A token of an expression. -/
inductive Token where
  | ident (name : String)
  | str (text : String)
  | bytes (text : String)
  | int (value : Int)
  | float (value : Binary64)
  | word (w : ReservedWord)
  | mark (m : Mark)
  /-- The end of the text. -/
  | eof
  deriving DecidableEq, Repr

end CallSite
