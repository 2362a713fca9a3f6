import CallSite.Number.Layout
import CallSite.Proofs.Lexing.Word

/-!
# Numbers — what is cut off at the head of a text as a number

Digits in front of something that no numeral takes in are an integer (`ofText_digits`); digits, a
point and digits are a floating-point number (`ofText_fraction`).  The canonical spelling of a
finite number is of the second form, and its digits denote the number (`literal_eq`).
-/

namespace CallSite

/-! ## Digits -/

/-- A digit goes on with a word and is nothing else than a digit. -/
structure PlainDigit (c : Char) : Prop where
  continues : continuesWord c = true
  blank : isBlank c = false
  slash : c ≠ '\\'
  hash : c ≠ '#'
  quote : isQuote c = false
  letter : c ∉ literalLetters
  point : c ≠ '.'
  underscore : c ≠ '_'
  base : baseOf? c = none

/-- The digits are ten characters in a row. -/
theorem toNat_mem_of_isDigit {c : Char} (h : c.isDigit = true) : c.toNat ∈ List.range' 48 10 := by
  simp only [Char.isDigit, Bool.and_eq_true, decide_eq_true_eq] at h
  have hlow : 48 ≤ c.val.toNat := UInt32.le_iff_toNat_le.mp h.1
  have hhigh : c.val.toNat ≤ 57 := UInt32.le_iff_toNat_le.mp h.2
  exact List.mem_range'_1.mpr ⟨hlow, Nat.lt_succ_of_le hhigh⟩

theorem plainDigit_of_isDigit {c : Char} (h : c.isDigit = true) : PlainDigit c := by
  have hc : continuesWord c = true ∧ isBlank c = false ∧ c ≠ '\\' ∧ c ≠ '#' ∧ isQuote c = false
      ∧ c ∉ literalLetters ∧ c ≠ '.' ∧ c ≠ '_' ∧ baseOf? c = none :=
    of_toNat_mem (toNat_mem_of_isDigit h) (by decide)
  obtain ⟨h1, h2, h3, h4, h5, h6, h7, h8, h9⟩ := hc
  exact ⟨h1, h2, h3, h4, h5, h6, h7, h8, h9⟩

theorem baseOf?_eq_none {c : Char} (h : continuesWord c = false) : baseOf? c = none := by
  have hne {d : Char} (hd : continuesWord d = true) : c ≠ d := by
    rintro rfl
    exact absurd h (by rw [hd]; exact nofun)
  unfold baseOf?
  rw [if_neg (not_or.mpr ⟨hne (by decide), hne (by decide)⟩),
    if_neg (not_or.mpr ⟨hne (by decide), hne (by decide)⟩),
    if_neg (not_or.mpr ⟨hne (by decide), hne (by decide)⟩)]

/-- The value of digits is what the library reads from them. -/
theorem valueOfChars_eq {ds : List Char} (h : ∀ c ∈ ds, c.isDigit = true) :
    valueOfChars 10 ds = Nat.ofDigitChars 10 ds 0 := by
  unfold valueOfChars valueOfDigits
  rw [List.foldl_map, Nat.ofDigitChars_eq_foldl]
  refine List.foldl_ext _ _ _ fun value c hc => ?_
  rw [digitValue, if_pos (h c hc), Nat.mul_comm]
  rfl

theorem withoutUnderscores_eq {ds : List Char} (h : ∀ c ∈ ds, c.isDigit = true) :
    withoutUnderscores ds = ds := by
  refine List.filter_eq_self.mpr fun c hc => ?_
  simpa using (plainDigit_of_isDigit (h c hc)).underscore

theorem isDigit_toDigits (n : Nat) : ∀ c ∈ Nat.toDigits 10 n, c.isDigit = true :=
  fun _ hc => Nat.isDigit_of_mem_toDigits (by decide) (by decide) hc

theorem valueOfChars_toDigits (n : Nat) : valueOfChars 10 (Nat.toDigits 10 n) = n := by
  rw [valueOfChars_eq (isDigit_toDigits n), Nat.ofDigitChars_ten_toDigits]

/-! ## Cutting off a number -/

theorem digitRun_of_stops {ds rest : List Char} (hds : ∀ c ∈ ds, c.isDigit = true)
    (hrest : Stops continuesWord rest) : digitRun (ds ++ rest) = ds := by
  refine takeWhile_of_stops (fun c hc => by rw [hds c hc, Bool.true_or]) (hrest.mono fun c hc => ?_)
  rcases Bool.or_eq_true_iff.mp hc with hdigit | hunderscore
  · exact (plainDigit_of_isDigit hdigit).continues
  · rw [beq_iff_eq] at hunderscore
    subst hunderscore
    decide

theorem digitRun_point {ds cs : List Char} (hds : ∀ c ∈ ds, c.isDigit = true) :
    digitRun (ds ++ '.' :: cs) = ds :=
  takeWhile_of_stops (fun c hc => by rw [hds c hc, Bool.true_or])
    (stops_cons.mpr (by decide))

theorem exponentPart_of_stops {rest : List Char} (hrest : Stops continuesWord rest) :
    exponentPart rest = [] := by
  cases rest with
  | nil => rfl
  | cons c cs =>
      have hc := stops_cons.mp hrest
      rw [exponentPart, if_neg]
      rintro (rfl | rfl) <;> exact absurd hc (by decide)

theorem signPart_of_stops {rest : List Char} (hrest : Stops (fun c => c == '+' || c == '-') rest) :
    signPart rest = [] := by
  unfold signPart
  split
  · exact absurd (stops_cons.mp hrest) (by decide)
  · exact absurd (stops_cons.mp hrest) (by decide)
  · rfl

theorem fractionPart_of_stops {rest : List Char} (hrest : Stops (· == '.') rest) :
    fractionPart rest = [] := by
  unfold fractionPart
  split
  · rfl
  · exact absurd (stops_cons.mp hrest) (by decide)
  · rfl

theorem fractionPart_point {places rest : List Char} (hplaces : ∀ c ∈ places, c.isDigit = true)
    (hne : places ≠ []) (hrest : Stops continuesWord rest) :
    fractionPart ('.' :: (places ++ rest)) = '.' :: places := by
  cases places with
  | nil => exact absurd rfl hne
  | cons c places =>
      have hpoint := (plainDigit_of_isDigit (hplaces c List.mem_cons_self)).point
      rw [fractionPart]
      · rw [digitRun_of_stops hplaces hrest]
      · intro _ h
        exact hpoint (List.cons.inj h).1

/-- Behind digits no base is announced where no letter follows. -/
theorem numberAt_decimal {ds tail : List Char} (hds : ∀ c ∈ ds, c.isDigit = true) (hne : ds ≠ [])
    (htail : Stops (fun c => (baseOf? c).isSome) tail) :
    numberAt (ds ++ tail) = (Numeral.ofText (ds ++ tail)).token.map
      (·, (Numeral.ofText (ds ++ tail)).chars.length) := by
  unfold numberAt
  split
  · rename_i letter rest heq
    have hbase : baseOf? letter = none := by
      cases ds with
      | nil => exact absurd rfl hne
      | cons c ds =>
          obtain ⟨-, hrest⟩ := List.cons.inj heq
          cases ds with
          | nil =>
              obtain rfl : tail = letter :: rest := hrest
              simpa using stops_cons.mp htail
          | cons d ds =>
              obtain ⟨rfl, -⟩ := List.cons.inj hrest
              exact (plainDigit_of_isDigit (hds d (by simp))).base
    rw [hbase]
  · rfl

/-- A text that begins with a digit begins with a number. -/
theorem Lexeme.ofText_digit {c : Char} {cs : List Char} (hc : c.isDigit = true) :
    Lexeme.ofText c cs = match numberAt (c :: cs) with
      | .error fault => .error ⟨fault, 0⟩
      | .ok (token, size) => .ok ⟨some token, size⟩ := by
  have hplain := plainDigit_of_isDigit hc
  have hopens : opensNumber (c :: cs) = true := by
    unfold opensNumber
    split
    · rename_i heq
      exact absurd (List.cons.inj heq).1 hplain.point
    · rename_i heq
      obtain ⟨rfl, -⟩ := List.cons.inj heq
      exact hc
    · rename_i heq
      exact absurd heq nofun
  unfold Lexeme.ofText
  rw [gapSize_eq_zero hplain.blank hplain.slash hplain.hash]
  show Lexeme.tokenAt c cs = _
  unfold Lexeme.tokenAt
  rw [LiteralOpening.ofText?_cons_eq_none hplain.quote hplain.letter]
  exact if_pos hopens

theorem Lexeme.ofText_number {c : Char} {cs : List Char} (hc : c.isDigit = true) {token : Token}
    {size : Nat} (h : numberAt (c :: cs) = .ok (token, size)) :
    Lexeme.ofText c cs = .ok ⟨some token, size⟩ := by
  rw [Lexeme.ofText_digit hc, h]

/-- Digits are cut off as an integer. -/
theorem numberAt_digits {ds rest : List Char} (hds : ∀ c ∈ ds, c.isDigit = true) (hne : ds ≠ [])
    (hvalue : valueOfChars 10 ds ≤ largestInt)
    (hrest : Stops (fun c => continuesWord c || c == '.') rest) :
    numberAt (ds ++ rest) = .ok (.int (valueOfChars 10 ds), ds.length) := by
  have hword : Stops continuesWord rest := hrest.mono fun c h => by rw [h, Bool.true_or]
  have hpoint : Stops (· == '.') rest := hrest.mono fun c h => by rw [h, Bool.or_true]
  have hnumeral : Numeral.ofText (ds ++ rest) = ⟨ds, [], []⟩ := by
    unfold Numeral.ofText
    simp [digitRun_of_stops hds hword, fractionPart_of_stops hpoint, exponentPart_of_stops hword]
  rw [numberAt_decimal hds hne, hnumeral]
  · simp [Numeral.token, Numeral.chars, withoutUnderscores_eq hds, hvalue, Except.map]
  · intro c hc
    simp [baseOf?_eq_none (hword c hc)]

/-- Digits, a point and digits are cut off as a floating-point number. -/
theorem numberAt_fraction {ds places rest : List Char} (hds : ∀ c ∈ ds, c.isDigit = true)
    (hne : ds ≠ []) (hplaces : ∀ c ∈ places, c.isDigit = true) (hplaces' : places ≠ [])
    (hrest : Stops continuesWord rest) :
    numberAt (ds ++ '.' :: (places ++ rest))
      = .ok (.float (Binary64.ofDecimal false ⟨valueOfChars 10 (ds ++ places), -places.length⟩),
        (ds ++ '.' :: places).length) := by
  have hnumeral : Numeral.ofText (ds ++ '.' :: (places ++ rest)) = ⟨ds, '.' :: places, []⟩ := by
    have hdrop : (ds ++ '.' :: (places ++ rest)).drop (ds.length + ('.' :: places).length)
        = rest := by
      rw [← List.drop_drop, List.drop_left, ← List.cons_append, List.drop_left]
    unfold Numeral.ofText
    rw [digitRun_point hds]
    simp only [List.drop_left, fractionPart_point hplaces hplaces' hrest, hdrop,
      exponentPart_of_stops hrest]
  have hpower : Numeral.power ⟨ds, '.' :: places, []⟩ = 0 := rfl
  rw [numberAt_decimal hds hne, hnumeral]
  · simp [Numeral.token, Numeral.chars, Numeral.decimal, hpower, withoutUnderscores_eq hds,
      withoutUnderscores_eq hplaces, Except.map]
  · exact stops_cons.mpr (by decide)

/-! ## The spelling of a number -/

/-- A text is digits, a point and digits, and denotes a number. -/
structure Fraction (cs : List Char) (d : Decimal) : Prop where
  split : ∃ ds places, cs = ds ++ '.' :: places ∧ (∀ c ∈ ds, c.isDigit = true) ∧ ds ≠ []
    ∧ (∀ c ∈ places, c.isDigit = true) ∧ places ≠ []
    ∧ d = ⟨valueOfChars 10 (ds ++ places), -places.length⟩

theorem valueOfChars_zeros {ds : List Char} (hds : ∀ c ∈ ds, c.isDigit = true) (n : Nat) :
    valueOfChars 10 (ds ++ List.replicate n '0') = valueOfChars 10 ds * 10 ^ n := by
  have hall : ∀ c ∈ ds ++ List.replicate n '0', c.isDigit = true := by
    intro c hc
    rcases List.mem_append.mp hc with hc | hc
    · exact hds c hc
    · rw [List.eq_of_mem_replicate hc]
      rfl
  rw [valueOfChars_eq hall, valueOfChars_eq hds, Nat.ofDigitChars_append,
    Nat.ofDigitChars_replicate_zero, Nat.mul_comm]

theorem valueOfChars_padded {ds : List Char} (hds : ∀ c ∈ ds, c.isDigit = true) (n : Nat) :
    valueOfChars 10 (List.replicate n '0' ++ ds) = valueOfChars 10 ds := by
  have hall : ∀ c ∈ List.replicate n '0' ++ ds, c.isDigit = true := by
    intro c hc
    rcases List.mem_append.mp hc with hc | hc
    · rw [List.eq_of_mem_replicate hc]
      rfl
    · exact hds c hc
  rw [valueOfChars_eq hall, valueOfChars_eq hds, Nat.ofDigitChars_append,
    Nat.ofDigitChars_replicate_zero, Nat.mul_zero]

/-- Positional notation of a number without places has one decimal. -/
theorem positional_whole (digits e : Nat) :
    Fraction (Decimal.positional ⟨digits, .ofNat e⟩).toList ⟨digits * 10 ^ (e + 1), -1⟩ := by
  have hdigits := isDigit_toDigits digits
  refine ⟨Nat.toDigits 10 digits ++ List.replicate e '0', ['0'], ?_, ?_, ?_, ?_, ?_, ?_⟩
  · simp [Decimal.positional]
  · intro c hc
    rcases List.mem_append.mp hc with hc | hc
    · exact hdigits c hc
    · rw [List.eq_of_mem_replicate hc]
      rfl
  · exact List.append_ne_nil_of_left_ne_nil Nat.toDigits_ne_nil _
  · intro c hc
    rw [List.mem_singleton.mp hc]
    rfl
  · exact List.cons_ne_nil _ _
  · have hzeros : List.replicate e '0' ++ ['0'] = List.replicate (e + 1) '0' :=
      (List.replicate_succ').symm
    rw [List.append_assoc, hzeros, valueOfChars_zeros hdigits, valueOfChars_toDigits]
    rfl

/-- Positional notation of a number with places is read as the same number. -/
theorem positional_places (digits e : Nat) :
    Fraction (Decimal.positional ⟨digits, .negSucc e⟩).toList ⟨digits, .negSucc e⟩ := by
  have hdigits := isDigit_toDigits digits
  generalize hpadded : List.replicate (e + 2 - (Nat.toDigits 10 digits).length) '0'
    ++ Nat.toDigits 10 digits = padded
  have hall : ∀ c ∈ padded, c.isDigit = true := by
    intro c hc
    rw [← hpadded] at hc
    rcases List.mem_append.mp hc with hc | hc
    · rw [List.eq_of_mem_replicate hc]
      rfl
    · exact hdigits c hc
  have hvalue : valueOfChars 10 padded = digits := by
    rw [← hpadded, valueOfChars_padded hdigits, valueOfChars_toDigits]
  have hlength : e + 2 ≤ padded.length := by
    rw [← hpadded, List.length_append, List.length_replicate]
    omega
  refine ⟨padded.take (padded.length - (e + 1)), padded.drop (padded.length - (e + 1)),
    ?_, ?_, ?_, ?_, ?_, ?_⟩
  · simp [Decimal.positional, hpadded]
  · exact fun c hc => hall c (List.mem_of_mem_take hc)
  · refine List.ne_nil_of_length_pos ?_
    rw [List.length_take]
    omega
  · exact fun c hc => hall c (List.mem_of_mem_drop hc)
  · refine List.ne_nil_of_length_pos ?_
    rw [List.length_drop]
    omega
  · rw [List.take_append_drop, hvalue, List.length_drop]
    have hplaces : padded.length - (padded.length - (e + 1)) = e + 1 := by omega
    rw [hplaces]
    rfl

namespace Binary64

/-- What is far above every finite number is rounded to infinity. -/
theorem roundedMagnitude_of_le {num j k : Nat} (hk : 2099 ≤ j + k) (h : 2 ^ j * 2 ^ k ≤ num) :
    roundedMagnitude num 1 = infinityMagnitude := by
  have hlog : j + k ≤ num.log2 := by
    rw [← Nat.pow_add] at h
    refine (Nat.le_log2 ?_).mpr h
    have := Nat.two_pow_pos (j + k)
    omega
  unfold roundedMagnitude
  rw [Nat.div_one]
  refine Nat.min_eq_left ?_
  have hshift : 2047 * 0x10000000000000 ≤ (num.log2 - 52) * 0x10000000000000 :=
    Nat.mul_le_mul_right _ (by omega)
  have hinfinity : infinityMagnitude = 2047 * 0x10000000000000 := rfl
  omega

/-- A decimal with one place more is the same number, as long as it is finite. -/
theorem ofDecimal_place {digits e : Nat} (h : (ofDecimal false ⟨digits, .ofNat e⟩).isFinite = true) :
    ofDecimal false ⟨digits * 10 ^ (e + 1), -1⟩ = ofDecimal false ⟨digits, .ofNat e⟩ := by
  have hplace : ofDecimal false ⟨digits * 10 ^ (e + 1), -1⟩
      = ofUnits false (digits * 10 ^ e * unitsPerOne) 1 := by
    show ofUnits false (digits * 10 ^ (e + 1) * unitsPerOne)
      (Nat.pow 10 (min 1 ((digits * 10 ^ (e + 1)).log2 + 400))) = _
    rw [Nat.min_eq_left (by omega), show Nat.pow 10 1 = 10 * 1 from rfl, Nat.pow_succ,
      show digits * (10 ^ e * 10) * unitsPerOne = 10 * (digits * 10 ^ e * unitsPerOne) by
        rw [← Nat.mul_assoc, Nat.mul_comm _ 10, Nat.mul_assoc]]
    exact ofUnits_mul_mul (by decide) _ _ _
  rw [hplace]
  show _ = ofUnits false (digits * 10 ^ min e 310 * unitsPerOne) 1
  rcases Nat.le_total e 310 with hle | hge
  · rw [Nat.min_eq_left hle]
  · cases digits with
    | zero => simp
    | succ digits =>
        -- a number so large is not finite
        have hlarge : 2 ^ 1025 * 2 ^ unitExponent
            ≤ (digits + 1) * 10 ^ min e 310 * unitsPerOne := by
          have hpow : 2 ^ 1025 ≤ 10 ^ 310 := by decide +kernel
          have hone : unitsPerOne = 2 ^ unitExponent := Nat.one_shiftLeft unitExponent
          rw [Nat.min_eq_right hge, hone]
          generalize 2 ^ 1025 = a at hpow ⊢
          generalize 10 ^ 310 = b at hpow ⊢
          refine Nat.mul_le_mul_right _ (Nat.le_trans hpow ?_)
          exact Nat.le_mul_of_pos_left _ (Nat.succ_pos _)
        have hinfinite := roundedMagnitude_of_le (by decide) hlarge
        have hfinite : roundedMagnitude ((digits + 1) * 10 ^ min e 310 * unitsPerOne) 1
            < infinityMagnitude := of_decide_eq_true h
        omega

/-- The spelling of a finite number that is not negative denotes the number. -/
theorem literal_eq {x : Binary64} (hfinite : x.isFinite = true) (hsign : x.negative = false) :
    ∃ d, Fraction x.literal.toList d ∧ ofDecimal false d = x := by
  have hlt : x.magnitude.val < infinityMagnitude := of_decide_eq_true hfinite
  have hnan : x.isNaN = false := decide_eq_false (by omega)
  have hwritten (digits : String) : x.written digits = digits := by
    simp [written, hnan, hsign, hfinite]
  have hwhole (digits e : Nat) (h : ofDecimal false ⟨digits, .ofNat e⟩ = x) :
      ∃ d, Fraction (Decimal.positional ⟨digits, .ofNat e⟩).toList d ∧ ofDecimal false d = x := by
    refine ⟨_, positional_whole digits e, ?_⟩
    rw [ofDecimal_place (by rw [h]; exact hfinite), h]
  unfold literal
  rw [hwritten]
  split
  · rename_i hintegral
    refine hwhole _ 0 ?_
    have hdvd : x.units % unitsPerOne = 0 := by
      simp only [isIntegral, Bool.and_eq_true, beq_iff_eq] at hintegral
      exact hintegral.2
    have hunits := ofUnits_units hfinite
    rw [hsign] at hunits
    show ofUnits false (x.units / unitsPerOne * 1 * unitsPerOne) 1 = x
    rw [Nat.mul_one, Nat.div_mul_cancel (Nat.dvd_of_mod_eq_zero hdvd), hunits]
  · have hshortest := ofDecimal_shortest hfinite
    rw [hsign] at hshortest
    generalize x.shortest = d at hshortest
    obtain ⟨digits, exponent⟩ := d
    cases exponent with
    | ofNat e => exact hwhole digits e hshortest
    | negSucc e => exact ⟨_, positional_places digits e, hshortest⟩

end Binary64

end CallSite
