/-!
# Binary64 — double-precision numbers in exact arithmetic

A double is a sign and a magnitude of 63 bits.  The magnitudes below `infinityMagnitude` are the
finite numbers in ascending order, and every finite number is a whole multiple of the smallest one,
2⁻¹⁰⁷⁴.  So its absolute value is a natural number of those units (`Binary64.units`), and rounding a
quotient of natural numbers to the nearest double (`Binary64.ofUnits`) needs no other arithmetic.
-/

namespace CallSite

/-- A double-precision number, given by its bits: the sign and the 63 bits below it. -/
structure Binary64 where
  negative : Bool
  magnitude : Fin 0x8000000000000000
  deriving DecidableEq, Repr

/-- The nearest natural number to a quotient; a half goes to the even neighbour. -/
def roundDiv (num den : Nat) : Nat :=
  let low := num / den
  let rest := 2 * (num % den)
  if rest < den ∨ (rest = den ∧ low % 2 = 0) then low else low + 1

/-- A whole number is its own rounding. -/
theorem roundDiv_mul (k : Nat) {d : Nat} (h : 0 < d) : roundDiv (k * d) d = k := by
  simp [roundDiv, Nat.mul_div_cancel k h, h]

/-- Rounding sees a quotient, not how it is written. -/
theorem roundDiv_mul_mul {k : Nat} (h : 0 < k) (n d : Nat) :
    roundDiv (k * n) (k * d) = roundDiv n d := by
  have hmul (r : Nat) : 2 * (k * r) = k * (2 * r) := Nat.mul_left_comm ..
  simp only [roundDiv, Nat.mul_div_mul_left _ _ h, Nat.mul_mod_mul_left, hmul,
    Nat.mul_lt_mul_left h, Nat.mul_right_inj (Nat.pos_iff_ne_zero.mp h)]

namespace Binary64

/-- The magnitude of the infinities: an exponent field of ones over a fraction of zeros. -/
def infinityMagnitude : Nat := 0x7ff0000000000000

/-- Neither infinite nor a NaN. -/
def isFinite (x : Binary64) : Bool := x.magnitude.val < infinityMagnitude

/-- Not a number: the magnitudes above infinity. -/
def isNaN (x : Binary64) : Bool := infinityMagnitude < x.magnitude.val

/-- The absolute value of a finite number, in units of 2⁻¹⁰⁷⁴.  An exponent field of zero marks the
    numbers without a leading one. -/
def units (x : Binary64) : Nat :=
  let exponent := x.magnitude.val / 0x10000000000000
  let fraction := x.magnitude.val % 0x10000000000000
  if exponent = 0 then fraction else (fraction + 0x10000000000000) <<< (exponent - 1)

/-- The smallest positive number is two to the power of minus this. -/
def unitExponent : Nat := 1074

/-- How many units make the number one. -/
def unitsPerOne : Nat := 1 <<< unitExponent

/-- A finite number without a fractional part. -/
def isIntegral (x : Binary64) : Bool := x.isFinite && x.units % unitsPerOne == 0

/-- Equality as numbers: a NaN equals nothing, and the two zeros are equal. -/
def eqv (x y : Binary64) : Bool :=
  !x.isNaN && (x == y || (x.magnitude.val == 0 && y.magnitude.val == 0))

/-- The magnitude nearest to `num / den` units.  The quotient keeps 53 significant bits, or all of
    its bits when there are fewer, and what is larger than every finite number becomes infinite. -/
def roundedMagnitude (num den : Nat) : Nat :=
  let shift := (num / den).log2 - 52
  min infinityMagnitude (shift * 0x10000000000000 + roundDiv num (den <<< shift))

theorem roundedMagnitude_lt (num den : Nat) : roundedMagnitude num den < 0x8000000000000000 :=
  Nat.lt_of_le_of_lt (Nat.min_le_left ..) (by decide)

/-- The number nearest to `num / den` units with the given sign; a tie goes to the neighbour whose
    last bit is zero. -/
def ofUnits (negative : Bool) (num den : Nat) : Binary64 :=
  ⟨negative, roundedMagnitude num den, roundedMagnitude_lt num den⟩

/-! ## Rounding what needs none -/

/-- Below 53 bits nothing is cut off. -/
theorem log2_sub_of_lt {n : Nat} (h : n < 0x20000000000000) : n.log2 - 52 = 0 := by
  by_cases hn : n = 0
  · simp [hn]
  · have : n.log2 < 53 := (Nat.log2_lt hn).mpr (Nat.lt_of_lt_of_eq h (by decide))
    omega

/-- Of a number with 53 bits and `k` zeros behind them, `k` bits are cut off. -/
theorem log2_shiftLeft_sub {m k : Nat} (h : 0x10000000000000 ≤ m) (h' : m < 0x20000000000000) :
    (m <<< k).log2 - 52 = k := by
  have hm : m * 2 ^ k ≠ 0 := Nat.mul_ne_zero (by omega) (Nat.ne_of_gt (Nat.two_pow_pos k))
  have : (m <<< k).log2 = 52 + k := by
    rw [Nat.shiftLeft_eq, Nat.log2_eq_iff hm]
    constructor
    · rw [Nat.pow_add]
      exact Nat.mul_le_mul_right _ h
    · rw [show 52 + k + 1 = 53 + k by omega, Nat.pow_add 2 53 k]
      exact Nat.mul_lt_mul_of_pos_right h' (Nat.two_pow_pos k)
  omega

/-- A finite number lies on the grid, so rounding gives its own magnitude. -/
theorem roundedMagnitude_units {x : Binary64} (h : x.isFinite) :
    roundedMagnitude x.units 1 = x.magnitude := by
  have hlt : x.magnitude.val < infinityMagnitude := by simpa [isFinite] using h
  have hsplit := Nat.div_add_mod x.magnitude.val 0x10000000000000
  have hfrac : x.magnitude.val % 0x10000000000000 < 0x10000000000000 := Nat.mod_lt _ (by decide)
  unfold roundedMagnitude units
  generalize x.magnitude.val / 0x10000000000000 = e at *
  generalize x.magnitude.val % 0x10000000000000 = f at *
  by_cases he : e = 0
  · simp only [he, if_true, Nat.div_one, log2_sub_of_lt (show f < 0x20000000000000 by omega)]
    have := roundDiv_mul f (show 0 < 1 by decide)
    simp at this ⊢
    omega
  · have hlow : 0x10000000000000 ≤ f + 0x10000000000000 := by omega
    have hhigh : f + 0x10000000000000 < 0x20000000000000 := by omega
    simp only [he, if_false, Nat.div_one, log2_shiftLeft_sub hlow hhigh]
    simp only [Nat.shiftLeft_eq, Nat.one_mul, roundDiv_mul _ (Nat.two_pow_pos _)]
    omega

/-- A finite number is the rounding of its own value. -/
theorem ofUnits_units {x : Binary64} (h : x.isFinite) : ofUnits x.negative x.units 1 = x := by
  cases x
  simp only [ofUnits, mk.injEq, true_and]
  exact Fin.ext (roundedMagnitude_units h)

/-- Rounding sees a quotient of units, not how it is written. -/
theorem ofUnits_mul_mul {k : Nat} (h : 0 < k) (negative : Bool) (n d : Nat) :
    ofUnits negative (k * n) (k * d) = ofUnits negative n d := by
  simp only [ofUnits, roundedMagnitude, Nat.mul_div_mul_left _ _ h, Nat.shiftLeft_eq,
    Nat.mul_assoc, roundDiv_mul_mul h]

/-- No units are zero, whatever they are divided by. -/
theorem ofUnits_zero (negative : Bool) {d : Nat} (h : 0 < d) :
    ofUnits negative 0 d = ofUnits negative 0 1 := by
  simpa using ofUnits_mul_mul h negative 0 1

end Binary64

end CallSite
