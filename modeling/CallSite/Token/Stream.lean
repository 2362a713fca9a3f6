import CallSite.Token.Lexeme

/-!
# Token streams — the tokens of a source text

A text is cut into lexemes from its start to its end.  The tokens among them form the stream, each
with the position of its first character, and the end of the text closes it.
-/

namespace CallSite

/-- The tokens of the text from `pos` on, where the first `skip` characters belong to a lexeme that
    is already dealt with. -/
def tokensFrom : Nat → Position → List Char → Except ParseError (List (Located Token))
  | _, pos, [] => .ok [⟨.eof, pos⟩]
  | skip + 1, pos, c :: cs => tokensFrom skip (pos.next c) cs
  | 0, pos, c :: cs =>
    match Lexeme.ofText c cs with
    | .error refusal => .error ⟨refusal.fault, pos.after ((c :: cs).take refusal.offset)⟩
    | .ok ⟨none, size⟩ => tokensFrom (size - 1) (pos.next c) cs
    | .ok ⟨some token, size⟩ => (tokensFrom (size - 1) (pos.next c) cs).map (⟨token, pos⟩ :: ·)

/-- The tokens of a source text, the last of which is its end. -/
def tokenize (source : String) : Except ParseError (List (Located Token)) :=
  tokensFrom 0 .start source.toList

end CallSite
