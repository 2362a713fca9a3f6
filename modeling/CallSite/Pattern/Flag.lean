/-!
# Flags — what changes the meaning of a pattern from within

A pattern turns flags on and off by their letters, those behind a hyphen off.  A change lasts to the
end of the parentheses that it stands in.
-/

namespace CallSite.Pattern

/-- A switch for the meaning of what follows. -/
inductive Flag where
  /-- Letters stand for both cases. -/
  | ignoreCase
  /-- The start and the end of the text are those of its lines. -/
  | multiLine
  /-- The point stands for line ends too. -/
  | dotAll
  /-- Repetitions prefer few pieces to many, which makes no difference to whether there are any. -/
  | swapGreed
  /-- Characters and words are those of Unicode. -/
  | unicode
  /-- A line ends with a carriage return, a line feed, or both. -/
  | anyLineEnd
  /-- Blanks and comments between the parts mean nothing. -/
  | verbose
  deriving DecidableEq, Repr

/-- The flag with a letter. -/
def Flag.ofLetter? (c : Char) : Option Flag :=
  match c with
  | 'i' => some .ignoreCase
  | 'm' => some .multiLine
  | 's' => some .dotAll
  | 'U' => some .swapGreed
  | 'u' => some .unicode
  | 'R' => some .anyLineEnd
  | 'x' => some .verbose
  | _ => none

/-- The flags that are turned on and off. -/
structure FlagChange where
  on : List Flag
  off : List Flag
  deriving DecidableEq, Repr

namespace FlagChange

/-- No change. -/
def keep : FlagChange := ⟨[], []⟩

/-- The change that letters spell.  No flag may be named twice, and a hyphen needs flags behind
    it. -/
def ofText? (cs : List Char) : Option FlagChange := do
  let on ← (cs.takeWhile (· != '-')).mapM Flag.ofLetter?
  let off ← match cs.dropWhile (· != '-') with
    | [] => some []
    | _ :: [] => none
    | _ :: letters => letters.mapM Flag.ofLetter?
  if (on ++ off).Nodup then some ⟨on, off⟩ else none

/-- The flags that are on behind the change. -/
def apply (change : FlagChange) (flags : List Flag) : List Flag :=
  change.on ++ flags.filter (· ∉ change.off)

/-- A flag is on behind a change that turns it on, or that leaves it on. -/
theorem mem_apply {change : FlagChange} {flags : List Flag} {f : Flag} :
    f ∈ change.apply flags ↔ f ∈ change.on ∨ f ∈ flags ∧ f ∉ change.off := by
  simp [apply]

end FlagChange

end CallSite.Pattern
