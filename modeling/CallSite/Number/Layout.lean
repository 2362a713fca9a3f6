import CallSite.Number.Decimal

/-!
# Number layout — the two written forms of a double

As source (`Binary64.literal`) a finite number never has an exponent: an integral one is written
with all its digits and one decimal, any other with the fewest digits that read back.  In messages
(`Binary64.compact`) very large and very small numbers take an exponent instead.
-/

namespace CallSite

namespace Decimal

/-- Positional notation, with at least one digit on each side of the point. -/
def positional (d : Decimal) : String :=
  let digits := Nat.toDigits 10 d.digits
  match d.exponent with
  | .ofNat e => String.ofList (digits ++ List.replicate e '0' ++ ['.', '0'])
  | .negSucc e =>
    let padded := List.replicate (e + 2 - digits.length) '0' ++ digits
    let point := padded.length - (e + 1)
    String.ofList (padded.take point ++ '.' :: padded.drop point)

/-- Scientific notation: one digit in front of the point, and a point only before more digits. -/
def scientific (d : Decimal) : String :=
  match Nat.toDigits 10 d.digits with
  | [] => ""
  | lead :: more =>
    let mark := if more.isEmpty then [] else '.' :: more
    String.ofList (lead :: mark) ++ "e" ++ toString (d.exponent + more.length)

end Decimal

namespace Binary64

/-- The sign and the digits of a number; what is not finite has a name instead. -/
def written (x : Binary64) (digits : String) : String :=
  if x.isNaN then "NaN"
  else (if x.negative then "-" else "") ++ (if x.isFinite then digits else "inf")

/-- The form of source text: positional, exact when integral, else as short as can be. -/
def literal (x : Binary64) : String :=
  x.written <|
    if x.isIntegral then Decimal.positional ⟨x.units / unitsPerOne, 0⟩
    else x.shortest.positional

/-- Whether a message shows the number with an exponent: from 10¹⁶ on, and below 10⁻⁴. -/
def needsExponent (x : Binary64) : Bool :=
  10000000000000000 * unitsPerOne ≤ x.units || (x.units != 0 && x.units * 10000 < unitsPerOne)

/-- The form of messages: as short as can be, with an exponent at the far ends. -/
def compact (x : Binary64) : String :=
  x.written <|
    if x.units = 0 then "0.0"
    else if x.needsExponent then x.shortest.scientific else x.shortest.positional

end Binary64

end CallSite
