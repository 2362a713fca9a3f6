import CallSite.Proofs.Likeness

/-!
# Depth — what more depth changes for the parser

With less depth the parser does the same on every text, or it refuses the text as nested too deeply
(`shallower_completeWithin`): its operands are alike, where complaints about nesting are excused.
-/

namespace CallSite

namespace Parser

variable {α : Type}

/-- One parser does what another does, or complains about nesting. -/
def Shallower (p q : Parser α) : Prop :=
  ∀ c, p c = q c ∨ ∃ pos c', p c = .error ⟨.nestedTooDeeply, pos⟩ c'

/-- The first of two parsers complains about nesting. -/
def Complains : ParseError → Cursor → Prop := fun e _ => e.fault = .nestedTooDeeply

theorem sameCursor_eq : SameCursor Eq Complains where
  cursor := fun h => h
  moveTo := fun h _ => h ▸ rfl
  keeps := fun he => he

/-- Where only complaints about nesting are excused, the first of two like parsers is shallower. -/
theorem Alike.shallower {p q : Parser α}
    (h : Alike Eq Complains p q) : Shallower p q := by
  intro c
  have hc := h.alike (rfl : c = c)
  generalize p c = r at hc
  generalize q c = r' at hc
  cases hc with
  | ok a hst => exact Or.inl (congrArg (EStateM.Result.ok a) hst)
  | error e hst => exact Or.inl (congrArg (EStateM.Result.error e) hst)
  | @excused e c' _ he =>
      obtain ⟨fault, pos⟩ := e
      obtain rfl : fault = .nestedTooDeeply := he
      exact Or.inr ⟨pos, c', rfl⟩

/-! ## The parser of each depth -/

theorem alike_operand_add (depth more p : Nat) :
    Alike Eq Complains (operand depth p) (operand (depth + more) p) := by
  induction depth generalizing p with
  | zero => exact ⟨fun _ => .excused rfl, fun he => he⟩
  | succ depth ih =>
      rw [Nat.succ_add]
      exact alike_unary sameCursor_eq (fun p => alike_climb sameCursor_eq ih p) p

theorem shallower_completeWithin (depth more : Nat) :
    Shallower (completeWithin depth) (completeWithin (depth + more)) :=
  Alike.shallower <| alike_whole sameCursor_eq <| alike_expression sameCursor_eq
    fun p => alike_climb sameCursor_eq (alike_operand_add depth more) p

/-- A text that is read with more depth is read alike or refused as nested too deeply. -/
theorem completeWithin_of_deeper {depth more : Nat} {ts : List (Located Token)} {t : Node}
    (h : (completeWithin (depth + more)).onTokens ts = .ok t) :
    (completeWithin depth).onTokens ts = .ok t
      ∨ ∃ pos, (completeWithin depth).onTokens ts = .error ⟨.nestedTooDeeply, pos⟩ := by
  unfold Parser.onTokens at h ⊢
  rcases shallower_completeWithin depth more (.ofTokens ts) with heq | ⟨pos, c', herr⟩
  · rw [heq]
    exact Or.inl h
  · rw [herr]
    exact Or.inr ⟨pos, rfl⟩

end Parser

end CallSite
