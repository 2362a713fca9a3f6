import CallSite.Logging.Level
import CallSite.Pattern.Source
import CallSite.Text.Blank

/-!
# Filters — which targets may log how much

A filter is written as directives with commas between them: a level for all targets, a target whose
messages all pass, or `target=level`.  The directive with the longest target that a message's target
begins with decides, the last one where several are equally long; without one nothing passes.
Behind a slash stands a pattern, which has to occur in the text of a message.
-/

namespace CallSite

/-- A limit for the targets that begin with a text, or for all. -/
structure Directive where
  target : Option String
  limit : Limit
  deriving DecidableEq, Repr

namespace Directive

/-- The length of the target. -/
def length (d : Directive) : Nat := (d.target.map String.utf8ByteSize).getD 0

/-- Whether the directive speaks about a target. -/
def appliesTo (d : Directive) (target : String) : Bool :=
  match d.target with
  | some start => start.toList.isPrefixOf target.toList
  | none => true

/-- A text without the blanks around it. -/
def trimmed (cs : List Char) : List Char :=
  ((cs.dropWhile isBlank).reverse.dropWhile isBlank).reverse

/-- Cuts a text at every separator. -/
def splitAt (separator : Char) (cs : List Char) : List (List Char) :=
  cs.foldr (fun c parts =>
    if c = separator then [] :: parts
    else match parts with
      | [] => [[c]]
      | part :: parts => (c :: part) :: parts) [[]]

theorem splitAt_ne_nil (separator : Char) (cs : List Char) : splitAt separator cs ≠ [] := by
  unfold splitAt
  cases cs with
  | nil => simp
  | cons c cs =>
    simp only [List.foldr_cons]
    split
    · simp
    · split <;> simp

/-- The parts with the separators between them are the text. -/
theorem intercalate_splitAt (separator : Char) (cs : List Char) :
    [separator].intercalate (splitAt separator cs) = cs := by
  induction cs with
  | nil => rfl
  | cons c cs ih =>
    have hne := splitAt_ne_nil separator cs
    unfold splitAt at ih hne ⊢
    rw [List.foldr_cons]
    cases hparts : List.foldr _ [[]] cs with
    | nil => exact absurd hparts hne
    | cons part parts =>
      rw [hparts] at ih
      by_cases hc : c = separator
      · simp_all [List.intercalate]
      · cases parts <;> simp_all [List.intercalate]

/-- The directive that a text without commas and blanks around it spells, if any. -/
def ofText? (cs : List Char) : Option Directive :=
  match splitAt '=' cs with
  | [single] =>
    let text := String.ofList single
    match Limit.ofText? text with
    | some limit => some ⟨none, limit⟩
    | none => some ⟨some text, some .trace⟩
  | [target, level] =>
    let target := String.ofList target
    match trimmed level with
    | [] => some ⟨some target, some .trace⟩
    | level => (Limit.ofText? (String.ofList level)).map (⟨some target, ·⟩)
  | _ => none

/-- Adds a directive, in the place of an earlier one for the same target. -/
def add (ds : List Directive) (d : Directive) : List Directive :=
  if ds.any (·.target == d.target) then ds.map fun e => if e.target == d.target then d else e
  else ds ++ [d]

end Directive

/-- A filter: its directives, ordered by the length of their targets, and possibly a pattern that
    has to occur in every message. -/
structure Filter where
  directives : List Directive
  pattern : Option Pattern
  deriving DecidableEq, Repr

namespace Filter

/-- The filter of some directives; of none, the one that lets errors pass. -/
def ofDirectives (ds : List Directive) (pattern : Option Pattern) : Filter :=
  if ds.isEmpty then ⟨[⟨none, some .error⟩], pattern⟩
  else ⟨(ds.foldl Directive.add []).mergeSort fun d e => d.length ≤ e.length, pattern⟩

/-- The directives that a text spells.  Parts that spell none are left out. -/
def directivesOf (cs : List Char) : List Directive :=
  let parts := (Directive.splitAt ',' cs).map Directive.trimmed
  (parts.filter (!·.isEmpty)).filterMap Directive.ofText?

/-- The filter that a text spells.  What stands behind a slash counts if it spells a pattern; with
    more than one slash nothing in the text counts. -/
def ofText (text : String) : Filter :=
  match Directive.splitAt '/' text.toList with
  | [directives] => ofDirectives (directivesOf directives) none
  | [directives, pattern] =>
    ofDirectives (directivesOf directives) (Pattern.ofText? (String.ofList pattern))
  | _ => ofDirectives [] none

/-- The limit for a target. -/
def limitFor (f : Filter) (target : String) : Limit :=
  match f.directives.reverse.find? (·.appliesTo target) with
  | some d => d.limit
  | none => none

/-- Whether a message with this text has the pattern in it. -/
def passes (f : Filter) (text : String) : Bool :=
  match f.pattern with
  | some pattern => pattern.occursIn text
  | none => true

/-- The most that any directive lets through. -/
def maximum (f : Filter) : Limit :=
  f.directives.foldl (fun l d => if l.rank < d.limit.rank then d.limit else l) none

end Filter

end CallSite
