import CallSite.Pattern.Look

/-!
# Patterns — regular expressions and where they occur

A pattern describes pieces of a text.  It occurs in a text iff it describes one of its pieces, which
is decided with sets of places: a place lies in front of each character and behind the last, and
`Pattern.reach` gives the places where a piece can end that starts in one of the given ones.  Which
of several pieces would be preferred does not matter here.
-/

namespace CallSite

/-- A description of pieces of a text. -/
inductive Pattern where
  /-- The empty piece. -/
  | empty
  /-- One character of a set. -/
  | one (set : CharSet)
  /-- The empty piece, where a condition holds. -/
  | place (look : Look)
  | seq (first second : Pattern)
  | alt (left right : Pattern)
  /-- At least `min` pieces in a row, and at most `max`. -/
  | times (pattern : Pattern) (min : Nat) (max : Option Nat)
  deriving DecidableEq, Repr

namespace Pattern

/-! ## Sets of places -/

/-- A set of places in a text, as one truth value for each. -/
abbrev Places := List Bool

/-- The places that belong to either set. -/
def Places.union (ps qs : Places) : Places := List.zipWith (· || ·) ps qs

/-- Goes on from places a number of times, or until nothing changes. -/
def advance (step : Places → Places) : Nat → Places → Places
  | 0, ps => ps
  | n + 1, ps =>
    let next := step ps
    if next = ps then ps else advance step n next

/-- Goes on from places any number of times up to `n`, or until no place is new. -/
def spread (step : Places → Places) : Nat → Places → Places
  | 0, ps => ps
  | n + 1, ps =>
    let more := ps.union (step ps)
    if more = ps then ps else spread step n more

/-- The places where a condition holds; `before` is the character in front of the text. -/
def placesOf (look : Look) (before : Option Char) : List Char → Places
  | [] => [look.holds before none]
  | c :: cs => look.holds before (some c) :: placesOf look (some c) cs

/-- The places where a piece can end that starts in one of `ps`.  A row of more pieces than there
    are places holds an empty one, so that more rounds reach nothing new. -/
def reach (text : List Char) : Pattern → Places → Places
  | .empty, ps => ps
  | .one set, ps => false :: List.zipWith (fun p c => p && set.contains c) ps text
  | .place look, ps => List.zipWith (· && ·) ps (placesOf look none text)
  | .seq first second, ps => second.reach text (first.reach text ps)
  | .alt left right, ps => (left.reach text ps).union (right.reach text ps)
  | .times pattern low high, ps =>
    let rounds := text.length + 1
    let most := match high with
      | some high => min (high - low) rounds
      | none => rounds
    spread (pattern.reach text) most (advance (pattern.reach text) (min low rounds) ps)

/-- Whether a piece of the text is described. -/
def occursIn (pattern : Pattern) (text : String) : Bool :=
  let cs := text.toList
  (pattern.reach cs (List.replicate (cs.length + 1) true)).any id

/-! ## Patterns without a choice -/

/-- The pattern that describes one text alone. -/
def literal (cs : List Char) : Pattern :=
  cs.foldr (fun c rest => .seq (.one (.single c)) rest) .empty

/-- A piece of one character ends one place behind its start, if the character there belongs to the
    set. -/
theorem mem_reach_one {text : List Char} {set : CharSet} {ps : Places} {j : Nat} :
    ((one set).reach text ps)[j]? = some true ↔
      ∃ i c, j = i + 1 ∧ ps[i]? = some true ∧ text[i]? = some c ∧ set.contains c = true := by
  cases j with
  | zero => simp [reach]
  | succ j =>
    simp only [reach, List.getElem?_cons_succ, List.getElem?_zipWith]
    cases hp : ps[j]? <;> cases hc : text[j]? <;> simp_all

/-- A piece that is the text `cs` starts where that text stands, and ends behind it. -/
theorem mem_reach_literal {text cs : List Char} {ps : Places} {j : Nat} :
    ((literal cs).reach text ps)[j]? = some true ↔
      ∃ i, ps[i]? = some true ∧ j = i + cs.length ∧ cs <+: text.drop i := by
  induction cs generalizing ps with
  | nil => simp [literal, reach]
  | cons c cs ih =>
    change ((literal cs).reach text ((one (.single c)).reach text ps))[j]? = some true ↔ _
    rw [ih]
    constructor
    · rintro ⟨_, hone, hj, hcs⟩
      obtain ⟨i, d, rfl, hp, hd, hset⟩ := mem_reach_one.mp hone
      obtain rfl := CharSet.contains_single.mp hset
      refine ⟨i, hp, by rw [hj, List.length_cons]; omega, ?_⟩
      obtain ⟨hlt, hget⟩ := List.getElem?_eq_some_iff.mp hd
      rw [List.drop_eq_getElem_cons hlt, hget]
      exact List.cons_prefix_cons.mpr ⟨rfl, hcs⟩
    · rintro ⟨i, hp, hj, hcs⟩
      cases hdrop : text.drop i with
      | nil => simp [hdrop] at hcs
      | cons d rest =>
        rw [hdrop] at hcs
        obtain ⟨rfl, htail⟩ := List.cons_prefix_cons.mp hcs
        have hd : text[i]? = some c := by rw [← List.head?_drop, hdrop]; rfl
        have hrest : text.drop (i + 1) = rest := by rw [← List.tail_drop, hdrop]; rfl
        refine ⟨i + 1, mem_reach_one.mpr ⟨i, c, rfl, hp, hd, CharSet.contains_single.mpr rfl⟩, ?_⟩
        exact ⟨by rw [hj, List.length_cons]; omega, hrest ▸ htail⟩

/-- The pattern of a text occurs in the texts that have it inside. -/
theorem occursIn_literal {cs : List Char} {text : String} :
    (literal cs).occursIn text = true ↔ cs <:+: text.toList := by
  simp only [occursIn, List.any_eq_true, id, exists_eq_right]
  rw [List.mem_iff_getElem?]
  simp only [mem_reach_literal]
  constructor
  · rintro ⟨_, i, _, _, hcs⟩
    exact hcs.isInfix.trans (List.drop_suffix i _).isInfix
  · rintro ⟨front, back, h⟩
    have hlt : front.length < text.toList.length + 1 := by
      rw [← h, List.length_append, List.length_append]
      omega
    refine ⟨_, front.length, List.getElem?_replicate_of_lt hlt, rfl, ?_⟩
    rw [← h, List.append_assoc, List.drop_left]
    exact List.prefix_append cs back

end Pattern

end CallSite
