import CallSite.Proofs.Grammar.Depth
import CallSite.Proofs.Session

/-!
# Gauges — how many operands are open at once

A session counts its open operands.  A gauge is a session beside which the highest count so far is
kept; it reads with the same functions and does what the session does (`Gauge.alike_session`).  The
peak that a text leads to is the depth that it needs: among the bounds that a session could have
had, the text is read with those from its peak on, and no others (`Gauge.peak_le_iff`).

A parser with a bound is compared with a gauge that has none but `maxNesting`.  Up to the place
where the parser complains they are alike.  There the peak goes beyond the bound, and whatever the
gauge reads from then on, the peak does not come down again: that is what excuses the complaint.
-/

namespace CallSite

open CallSite.Parser

/-- A session and the highest number of operands that were open in it at once. -/
structure Gauge where
  session : Session
  peak : Nat

namespace Gauge

instance : HasCursor Gauge :=
  ⟨fun g => g.session.cursor, fun g c => ⟨HasCursor.moveTo g.session c, g.peak⟩⟩

/-- One more operand is opened. -/
def opened (g : Gauge) : Gauge :=
  ⟨⟨g.session.tokens, g.session.read, g.session.depth + 1⟩, max g.peak (g.session.depth + 1)⟩

/-- The operand that was opened last is closed. -/
def closed (g : Gauge) : Gauge :=
  ⟨⟨g.session.tokens, g.session.read, g.session.depth - 1⟩, g.peak⟩

/-- Reads with one more operand open, and closes it again however the reading ends. -/
def nested {α : Type} (p : ParserOn Gauge α) : ParserOn Gauge α := fun g =>
  match p g.opened with
  | .ok a g => .ok a g.closed
  | .error e g => .error e g.closed

/-- Reads an operand when fewer than `maxNesting` are open. -/
def operand : (fuel : Nat) → Nat → ParserOn Gauge Node
  | 0, _ => fail .nestedTooDeeply
  | fuel + 1, min => do
    if maxNesting ≤ (← get).session.depth then fail .nestedTooDeeply
    else nested (unary (climb (operand fuel)) min)

/-- Reads an expression that has to be the last thing in the text. -/
def complete : ParserOn Gauge Node := whole (expression (climb (operand maxNesting)))

/-- The highest number of operands that are open at once while an expression is read from the start
    of some tokens. -/
def peakOf (tokens : List (Located Token)) : Nat :=
  (endState (complete ⟨.ofTokens tokens, 0⟩)).peak

/-! ## Gauges and sessions -/

/-- The session of a gauge. -/
def IsOf (g : Gauge) (s : Session) : Prop := g.session = s

theorem sameCursor_isOf : SameCursor IsOf NoExcuse where
  cursor := by
    rintro g s rfl
    rfl
  moveTo := by
    rintro g s rest rfl -
    rfl
  keeps := fun he => he

theorem alike_session_operand (fuel min : Nat) :
    Alike IsOf NoExcuse (operand fuel min) (Session.operand fuel min) := by
  induction fuel generalizing min with
  | zero => exact alike_fail sameCursor_isOf _
  | succ fuel ih =>
      have hinner : Alike IsOf NoExcuse (unary (climb (operand fuel)) min)
          (unary (climb (Session.operand fuel)) min) :=
        alike_unary sameCursor_isOf (fun p => alike_climb sameCursor_isOf ih p) min
      refine ⟨?_, fun he => he⟩
      rintro g s rfl
      show AlikeResult IsOf NoExcuse
        ((if maxNesting ≤ g.session.depth then fail .nestedTooDeeply
          else nested (unary (climb (operand fuel)) min)) g)
        ((if maxNesting ≤ g.session.depth then fail .nestedTooDeeply
          else Session.nested (unary (climb (Session.operand fuel)) min)) g.session)
      split
      · exact (alike_fail sameCursor_isOf _).alike rfl
      · have hread := hinner.alike (s := g.opened) (t := g.opened.session) rfl
        show AlikeResult _ _ (nested _ g) (Session.nested _ g.session)
        unfold nested Session.nested
        generalize unary (climb (operand fuel)) min g.opened = r at hread
        generalize hr' : unary (climb (Session.operand fuel)) min g.opened.session = r' at hread
        rw [show unary (climb (Session.operand fuel)) min
          ⟨g.session.tokens, g.session.read, g.session.depth + 1⟩ = r' from hr']
        cases hread with
        | ok a hs =>
            subst hs
            exact .ok a rfl
        | error e hs =>
            subst hs
            exact .error e rfl
        | excused he => exact he.elim

/-- A gauge does what its session does. -/
theorem alike_session : Alike IsOf NoExcuse complete Session.complete :=
  alike_whole sameCursor_isOf <| alike_expression sameCursor_isOf
    fun p => alike_climb sameCursor_isOf (alike_session_operand maxNesting) p

/-! ## Gauges and bounds -/

variable {tokens : List (Located Token)} {limit depth : Nat}

/-- A gauge that has come to a cursor with so many operands open, and never with more than
    `limit`. -/
structure AtMost (tokens : List (Located Token)) (limit depth : Nat) (c : Cursor) (g : Gauge) :
    Prop where
  session : Session.At tokens 0 depth g.session c
  peak_le : g.peak ≤ limit

/-- A complaint about nesting is excused when more than `limit` operands were open. -/
def Exceeded (limit : Nat) (e : ParseError) (g : Gauge) : Prop :=
  e.fault = .nestedTooDeeply ∧ limit < g.peak

theorem sameCursor_atMost : SameCursor (AtMost tokens limit depth) (Exceeded limit) where
  cursor := fun h => h.session.cursor_eq.symm
  moveTo := by
    intro c g rest h hrest
    obtain rfl := h.session.cursor_eq
    exact ⟨Session.sameCursor_at.moveTo h.session hrest, h.peak_le⟩
  keeps := fun he => he

/-- What is read with one more operand open keeps the peak. -/
theorem keeps_nested {α : Type} {q : ParserOn Gauge α}
    (h : ∀ {e g}, Exceeded limit e g → Exceeded limit e (endState (q g))) {e : ParseError}
    {g : Gauge} (he : e.fault = .nestedTooDeeply) (hg : limit < g.opened.peak) :
    Exceeded limit e (endState (nested q g)) := by
  have hread := h ⟨he, hg⟩
  unfold nested
  cases hq : q g.opened with
  | ok a g' =>
      rw [hq] at hread
      exact hread
  | error e' g' =>
      rw [hq] at hread
      exact hread

/-- Below the limit one more operand may be opened. -/
theorem alike_nested {α : Type} (hdepth : depth < limit) {p : Parser α} {q : ParserOn Gauge α}
    (h : Alike (AtMost tokens limit (depth + 1)) (Exceeded limit) p q) :
    Alike (AtMost tokens limit depth) (Exceeded limit) p (nested q) := by
  constructor
  · intro c g hg
    obtain ⟨⟨htokens, hopen, hstart, hread, hcursor⟩, hpeak⟩ := hg
    have hopened : AtMost tokens limit (depth + 1) c g.opened := by
      refine ⟨⟨htokens, congrArg (· + 1) hopen, hstart, hread, hcursor⟩, ?_⟩
      exact Nat.max_le.mpr ⟨hpeak, hopen ▸ hdepth⟩
    have hclosed {c' : Cursor} {g' : Gauge} (hg' : AtMost tokens limit (depth + 1) c' g') :
        AtMost tokens limit depth c' g'.closed := by
      obtain ⟨⟨htokens, hopen, hstart, hread, hcursor⟩, hpeak⟩ := hg'
      exact ⟨⟨htokens, congrArg (· - 1) hopen, hstart, hread, hcursor⟩, hpeak⟩
    have hpq := h.alike hopened
    unfold nested
    generalize p c = r at hpq
    generalize q g.opened = r' at hpq
    cases hpq with
    | ok a hg' => exact .ok a (hclosed hg')
    | error e hg' => exact .error e (hclosed hg')
    | excused he =>
        refine .excused ?_
        cases r' <;> exact he
  · rintro e g ⟨he, hg⟩
    exact keeps_nested h.keeps he (Nat.lt_of_lt_of_le hg (Nat.le_max_left ..))

/-- Where as many operands are open as the bound allows, the parser complains. -/
theorem operand_of_full {min : Nat} (h : limit ≤ depth) :
    Parser.operand (limit - depth) min = fail .nestedTooDeeply := by
  rw [Nat.sub_eq_zero_of_le h]
  rfl

/-- An operand is read as with a bound, or its peak is beyond the bound. -/
theorem alike_operand {fuel : Nat} (hlimit : limit ≤ maxNesting) (h : maxNesting ≤ fuel + depth)
    (min : Nat) :
    Alike (AtMost tokens limit depth) (Exceeded limit) (Parser.operand (limit - depth) min)
      (operand fuel min) := by
  -- on the operands that the gauge may still open
  induction fuel generalizing depth min with
  | zero =>
      rw [operand_of_full (by omega)]
      exact alike_fail sameCursor_atMost _
  | succ fuel ih =>
      have hinner : Alike (AtMost tokens limit (depth + 1)) (Exceeded limit)
          (unary (climb (Parser.operand (limit - (depth + 1)))) min)
          (unary (climb (operand fuel)) min) :=
        alike_unary sameCursor_atMost
          (fun p => alike_climb sameCursor_atMost (ih (by omega)) p) min
      have hstep (g : Gauge) : operand (fuel + 1) min g
          = (if maxNesting ≤ g.session.depth then fail .nestedTooDeeply
            else nested (unary (climb (operand fuel)) min)) g := rfl
      constructor
      · intro c g hg
        rw [hstep, hg.session.depth_eq]
        by_cases hmax : maxNesting ≤ depth
        · rw [if_pos hmax, operand_of_full (by omega)]
          exact (alike_fail sameCursor_atMost _).alike hg
        rw [if_neg hmax]
        by_cases hdepth : limit ≤ depth
        · -- the parser complains, and the gauge goes beyond the limit
          rw [operand_of_full hdepth]
          refine .excused (keeps_nested hinner.keeps rfl ?_)
          refine Nat.lt_of_lt_of_le ?_ (Nat.le_max_right ..)
          rw [hg.session.depth_eq]
          omega
        · have hleft : limit - depth = limit - (depth + 1) + 1 := by omega
          rw [hleft]
          exact (alike_nested (by omega) hinner).alike hg
      · intro e g he
        rw [hstep]
        split
        · exact he
        · exact keeps_nested hinner.keeps he.1 (Nat.lt_of_lt_of_le he.2 (Nat.le_max_left ..))

theorem alike_complete (hlimit : limit ≤ maxNesting) :
    Alike (AtMost tokens limit 0) (Exceeded limit) (completeWithin limit) complete :=
  alike_whole sameCursor_atMost <| alike_expression sameCursor_atMost
    fun p => alike_climb sameCursor_atMost (alike_operand hlimit (Nat.le_refl _)) p

/-- Tokens that are read with some bound are read with exactly the bounds from their peak on. -/
theorem peak_le_iff {t : Node} (h : Parser.complete.onTokens tokens = .ok t)
    (hlimit : limit ≤ maxNesting) :
    (completeWithin limit).onTokens tokens = .ok t ↔ peakOf tokens ≤ limit := by
  have hstart (limit : Nat) : AtMost tokens limit 0 (.ofTokens tokens) ⟨.ofTokens tokens, 0⟩ :=
    ⟨⟨rfl, rfl, Nat.le_refl _, Nat.zero_le _, rfl⟩, Nat.zero_le _⟩
  -- with the full bound nothing is excused, so the gauge reads the same tree
  have hgauge : ∃ g, complete ⟨.ofTokens tokens, 0⟩ = .ok t g := by
    have hfull := (alike_complete (Nat.le_refl maxNesting)).alike (hstart maxNesting)
    unfold Parser.onTokens at h
    rw [show Parser.complete = completeWithin maxNesting from rfl] at h
    generalize completeWithin maxNesting (.ofTokens tokens) = r at hfull h
    generalize complete ⟨.ofTokens tokens, 0⟩ = r' at hfull
    cases hfull with
    | ok a hg => exact ⟨_, by rw [Except.ok.inj h]⟩
    | error e hg => exact absurd h nofun
    | excused he => exact absurd h nofun
  obtain ⟨g, hg⟩ := hgauge
  have hread := (alike_complete hlimit).alike (hstart limit)
  unfold peakOf Parser.onTokens
  rw [hg] at hread ⊢
  generalize completeWithin limit (.ofTokens tokens) = r at hread
  cases hread with
  | ok a hg' => exact ⟨fun _ => hg'.peak_le, fun _ => rfl⟩
  | excused he =>
      constructor
      · exact nofun
      · intro hpeak
        exact absurd he.2 (Nat.not_lt.mpr hpeak)

end Gauge

end CallSite
