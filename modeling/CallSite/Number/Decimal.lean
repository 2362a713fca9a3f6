import CallSite.Number.Binary64

/-!
# Decimal — decimal numbers and the doubles nearest to them

A decimal number is a natural number of digits and a power of ten.  `Binary64.ofDecimal` rounds it
to the nearest double; `Binary64.shortest` goes the other way and chooses, among the decimals that
are read back as the given double, one with the fewest digits.  Reading back is tested by
`Binary64.ofDecimal` itself, and the full expansion is read back in any case (`ofDecimal_exact`), so
what is chosen is read back too (`ofDecimal_shortest`).
-/

namespace CallSite

/-- The number `digits · 10 ^ exponent`. -/
structure Decimal where
  digits : Nat
  exponent : Int
  deriving DecidableEq, Repr

/-- The value of a list of digits, the most significant first. -/
def valueOfDigits (base : Nat) (digits : List Nat) : Nat :=
  digits.foldl (fun value digit => value * base + digit) 0

/-- One more digit moves the others up by one place. -/
theorem valueOfDigits_concat (base : Nat) (digits : List Nat) (digit : Nat) :
    valueOfDigits base (digits ++ [digit]) = valueOfDigits base digits * base + digit := by
  simp [valueOfDigits]

/-- The value of a letter or digit as a digit. -/
def digitValue (c : Char) : Nat :=
  if c.isDigit then c.toNat - 48
  else if c.isLower then c.toNat - 87
  else c.toNat - 55

/-- The value of digits in a base. -/
def valueOfChars (base : Nat) (cs : List Char) : Nat := valueOfDigits base (cs.map digitValue)

namespace Binary64

/-- The double nearest to a decimal number.  A power of ten is cut off where the answer no longer
    depends on it: from 10³¹⁰ on every nonzero number is infinite, and with 400 more places than
    the digits have bits every number is zero. -/
def ofDecimal (negative : Bool) (d : Decimal) : Binary64 :=
  match d.exponent with
  | .ofNat e => ofUnits negative (d.digits * Nat.pow 10 (min e 310) * unitsPerOne) 1
  | .negSucc e =>
    ofUnits negative (d.digits * unitsPerOne) (Nat.pow 10 (min (e + 1) (d.digits.log2 + 400)))

/-- How many whole steps of `10 ^ exponent` fit into a number of units. -/
def stepsIn (units : Nat) : Int → Nat
  | .ofNat e => units / (unitsPerOne * Nat.pow 10 e)
  | .negSucc e => units * Nat.pow 10 (e + 1) / unitsPerOne

/-- The decade of a nonzero number: the least power of ten above it.  No nonzero double is below
    10⁻⁴⁰⁰, so the digits in front of that place tell it. -/
def decade (x : Binary64) : Int :=
  (Nat.toDigits 10 (stepsIn x.units (-400))).length - 400

/-- The neighbours of `x` among the decimals of `count` digits, the nearer one first; a tie goes to
    the larger.  The upper neighbour may be the decade itself, which one digit writes. -/
def neighbours (x : Binary64) (count : Nat) : List Decimal :=
  let exponent := x.decade - count
  let low := stepsIn x.units exponent
  let lower : Decimal := ⟨low, exponent⟩
  let upper : Decimal := if low + 1 = Nat.pow 10 count then ⟨1, x.decade⟩ else ⟨low + 1, exponent⟩
  if stepsIn (2 * x.units) exponent = 2 * low then [lower, upper] else [upper, lower]

/-- The digits of a finite number written out in full. -/
def exact (x : Binary64) : Decimal := ⟨x.units * Nat.pow 5 unitExponent, -unitExponent⟩

/-- The decimal with the fewest digits that is read back as `x`, and of those the nearest to `x`.
    Seventeen digits always suffice; the exact expansion stands behind them. -/
def shortest (x : Binary64) : Decimal :=
  let readsBack (d : Decimal) : Bool := ofDecimal x.negative d = x
  ((List.range 17).findSome? fun n => (x.neighbours (n + 1)).find? readsBack).getD x.exact

/-! ## Reading back -/

/-- A multiple of a power of two is written by as many decimal places. -/
theorem ofUnits_five_pow (negative : Bool) (units k : Nat) :
    ofUnits negative (units * Nat.pow 5 k * (1 <<< k))
        (Nat.pow 10 (min k ((units * Nat.pow 5 k).log2 + 400))) =
      ofUnits negative units 1 := by
  simp only [Nat.pow_eq, Nat.shiftLeft_eq, Nat.one_mul]
  by_cases hu : units = 0
  · simp only [hu, Nat.zero_mul]
    exact ofUnits_zero _ (Nat.pow_pos (by decide))
  · have hne : units * 5 ^ k ≠ 0 := Nat.mul_ne_zero hu (Nat.ne_of_gt (Nat.pow_pos (by decide)))
    have hlog : k ≤ (units * 5 ^ k).log2 := by
      rw [Nat.le_log2 hne]
      calc 2 ^ k ≤ 5 ^ k := Nat.pow_le_pow_left (by decide) _
        _ ≤ units * 5 ^ k := Nat.le_mul_of_pos_left _ (Nat.pos_of_ne_zero hu)
    rw [Nat.min_eq_left (by omega), Nat.mul_assoc, ← Nat.mul_pow, Nat.mul_comm units]
    simpa using ofUnits_mul_mul (Nat.pow_pos (show 0 < 10 by decide)) negative units 1

/-- The full expansion of a finite number is read back as the number. -/
theorem ofDecimal_exact {x : Binary64} (h : x.isFinite) : ofDecimal x.negative x.exact = x := by
  have := ofUnits_five_pow x.negative x.units unitExponent
  rw [ofUnits_units h] at this
  exact this

/-- The chosen digits of a finite number are read back as the number. -/
theorem ofDecimal_shortest {x : Binary64} (h : x.isFinite) :
    ofDecimal x.negative x.shortest = x := by
  unfold shortest
  simp only
  cases hfound : (List.range 17).findSome? fun n =>
      (x.neighbours (n + 1)).find? fun d => decide (ofDecimal x.negative d = x) with
  | none => exact ofDecimal_exact h
  | some d =>
    obtain ⟨_, _, hd⟩ := List.exists_of_findSome?_eq_some hfound
    simpa using List.find?_some hd

end Binary64

end CallSite
