import CallSite.Proofs.Tiling

/-!
# Exactness — integers are exact or refused

An integer is written with decimal digits, or behind a zero and a letter with the digits of another
base; underscores may stand anywhere behind the first character of the number.  What its digits
denote is said by the library's positional notation (`Denotes`), whatever their number.  A literal
is cut off as a whole, and it is read as exactly what its digits denote, or refused at its first
character when they denote nothing or too much (`IntegerText.tokenize_exact`).
-/

namespace CallSite

/-! ## What digits denote -/

/-- The character is the digit for `n` in a base.  Letters of either case stand for ten and more. -/
def IsDigitOf (base : Nat) (c : Char) (n : Nat) : Prop :=
  n < base ∧ c.toLower = Nat.digitChar n

/-- The characters are the digits of `n` in a base, the most significant first. -/
def Denotes (base : Nat) (ds : List Char) (n : Nat) : Prop :=
  ∃ ns, List.Forall₂ (IsDigitOf base) ds ns ∧ Nat.ofDigits base ns.reverse = n

/-- Digits are read from the left by multiplying and adding. -/
theorem valueOfDigits_eq (base : Nat) (ns : List Nat) :
    valueOfDigits base ns = Nat.ofDigits base ns.reverse := by
  induction ns using List.reverseRecOn with
  | nil => rfl
  | append_singleton ns n ih =>
      rw [valueOfDigits_concat, ih, List.reverse_concat, Nat.ofDigits_cons, Nat.mul_comm,
        Nat.add_comm]

/-- The letters and digits are three stretches of characters. -/
theorem toNat_mem_of_isAlphanum {c : Char} (h : c.isAlphanum = true) :
    c.toNat ∈ List.range' 48 10 ++ List.range' 65 26 ++ List.range' 97 26 := by
  simp only [Char.isAlphanum, Char.isAlpha, Char.isUpper, Char.isLower, Char.isDigit,
    Bool.or_eq_true, Bool.and_eq_true, decide_eq_true_eq, UInt32.le_iff_toNat_le] at h
  simp only [List.mem_append, List.mem_range'_1]
  have hcode : c.toNat = c.val.toNat := rfl
  simp at h
  omega

/-- Up to base 16 the value of a letter or digit tells which digit it is. -/
theorem isDigitOf_iff {base n : Nat} {c : Char} (hbase : base ≤ 16) (hc : c.isAlphanum = true) :
    IsDigitOf base c n ↔ n < base ∧ digitValue c = n := by
  have hdigit : ∀ n < 16, c.toLower = Nat.digitChar n ↔ digitValue c = n :=
    of_toNat_mem (toNat_mem_of_isAlphanum hc) (by decide)
  exact and_congr_right fun hn => hdigit n (Nat.lt_of_lt_of_le hn hbase)

/-- Letters and digits denote a number when their values are below the base, and only one. -/
theorem denotes_iff {base n : Nat} {ds : List Char} (hbase : base ≤ 16)
    (hds : ∀ c ∈ ds, c.isAlphanum = true) :
    Denotes base ds n ↔ (∀ c ∈ ds, digitValue c < base) ∧ valueOfChars base ds = n := by
  constructor
  · rintro ⟨ns, hns, rfl⟩
    have hvalues : (∀ c ∈ ds, digitValue c < base) ∧ ds.map digitValue = ns := by
      induction hns with
      | nil => exact ⟨fun _ hc => absurd hc List.not_mem_nil, rfl⟩
      | @cons c n ds ns hc _ ih =>
          obtain ⟨hn, hvalue⟩ := (isDigitOf_iff hbase (hds c List.mem_cons_self)).mp hc
          obtain ⟨hlt, rfl⟩ := ih fun d hd => hds d (List.mem_cons_of_mem c hd)
          exact ⟨List.forall_mem_cons.mpr ⟨hvalue ▸ hn, hlt⟩, congrArg (· :: _) hvalue⟩
    obtain ⟨hlt, rfl⟩ := hvalues
    exact ⟨hlt, valueOfDigits_eq base _⟩
  · rintro ⟨hlt, rfl⟩
    refine ⟨ds.map digitValue, ?_, (valueOfDigits_eq base _).symm⟩
    refine List.forall₂_map_right_iff.mpr (List.forall₂_same.mpr fun c hc => ?_)
    exact (isDigitOf_iff hbase (hds c hc)).mpr ⟨hlt c hc, rfl⟩

/-! ## Literals -/

/-- The letters behind a zero that announce a base. -/
def baseLetters : List (Char × Nat) :=
  [('x', 16), ('X', 16), ('o', 8), ('O', 8), ('b', 2), ('B', 2)]

/-- The literals of integers: the base, the characters of the number with the underscores between
    them, and the text of the literal. -/
inductive IntegerText : Nat → List Char → List Char → Prop where
  | decimal {c : Char} {cs : List Char} (hc : c.isDigit = true)
      (hcs : ∀ d ∈ cs, d.isDigit = true ∨ d = '_') : IntegerText 10 (c :: cs) (c :: cs)
  | based {letter : Char} {base : Nat} {cs : List Char} (hletter : (letter, base) ∈ baseLetters)
      (hcs : ∀ d ∈ cs, d.isAlphanum = true ∨ d = '_') :
      IntegerText base cs ('0' :: letter :: cs)

/-- How an integer is refused. -/
def integerFault (base : Nat) (ds : List Char) : Fault :=
  if base = 10 then .integerOutOfRange (String.ofList ds)
  else .invalidInteger base (String.ofList ds)

theorem baseOf?_of_mem {letter : Char} {base : Nat} (h : (letter, base) ∈ baseLetters) :
    baseOf? letter = some base := by
  have hall : baseLetters.all (fun l => baseOf? l.1 == some l.2) = true := by decide
  exact eq_of_beq (List.all_eq_true.mp hall _ h)

theorem base_le_of_mem {letter : Char} {base : Nat} (h : (letter, base) ∈ baseLetters) :
    base ≤ 16 ∧ base ≠ 10 := by
  have hall : baseLetters.all (fun l => l.2 ≤ 16 && l.2 != 10) = true := by decide
  simpa using List.all_eq_true.mp hall _ h

/-- What is left of digits or letters without the underscores. -/
theorem mem_withoutUnderscores {p : Char → Bool} {cs : List Char}
    (h : ∀ c ∈ cs, p c = true ∨ c = '_') : ∀ c ∈ withoutUnderscores cs, p c = true := by
  intro c hc
  obtain ⟨hmem, hne⟩ := List.mem_filter.mp hc
  exact (h c hmem).resolve_right (by simpa using hne)

theorem isAlphanum_of_isDigit {c : Char} (h : c.isDigit = true) : c.isAlphanum = true := by
  rw [Char.isAlphanum, h, Bool.or_true]

theorem digitValue_lt_of_isDigit {c : Char} (h : c.isDigit = true) : digitValue c < 10 :=
  of_toNat_mem (toNat_mem_of_isDigit h) (by decide)

/-- Whether digits denote an integer that a literal may denote, by their values. -/
def InRange (base : Nat) (ds : List Char) : Prop :=
  ds ≠ [] ∧ (∀ c ∈ ds, digitValue c < base) ∧ valueOfChars base ds ≤ largestInt

instance (base : Nat) (ds : List Char) : Decidable (InRange base ds) :=
  inferInstanceAs (Decidable (_ ∧ _ ∧ _))

/-- Digits and underscores that take up a whole text are cut off as one number. -/
theorem numberAt_run {c : Char} {cs : List Char} (hc : c.isDigit = true)
    (hcs : ∀ d ∈ cs, d.isDigit = true ∨ d = '_') :
    numberAt (c :: cs) = (Numeral.token ⟨c :: cs, [], []⟩).map (·, (c :: cs).length) := by
  have hrun : digitRun (c :: cs) = c :: cs := by
    refine List.takeWhile_eq_self_iff.mpr fun d hd => ?_
    rcases List.mem_cons.mp hd with rfl | hd
    · rw [hc, Bool.true_or]
    · simpa using hcs d hd
  have hnumeral : Numeral.ofText (c :: cs) = ⟨c :: cs, [], []⟩ := by
    unfold Numeral.ofText
    simp [hrun, fractionPart, exponentPart]
  rw [numberAt_unbased, hnumeral]
  · simp [Numeral.chars]
  · -- no letter stands in a run of digits
    intro letter rest htext
    obtain ⟨-, rfl⟩ := List.cons.inj htext
    rcases hcs letter List.mem_cons_self with hdigit | rfl
    · exact (plainDigit_of_isDigit hdigit).base
    · decide

/-- A run that begins with a digit is in range when its value is. -/
theorem token_run {c : Char} {cs : List Char} (hc : c.isDigit = true)
    (hcs : ∀ d ∈ cs, d.isDigit = true ∨ d = '_') :
    Numeral.token ⟨c :: cs, [], []⟩ = if InRange 10 (withoutUnderscores (c :: cs))
      then .ok (.int (valueOfChars 10 (withoutUnderscores (c :: cs))))
      else .error (integerFault 10 (withoutUnderscores (c :: cs))) := by
  have hmem : c ∈ withoutUnderscores (c :: cs) :=
    List.mem_filter.mpr ⟨List.mem_cons_self, by simpa using (plainDigit_of_isDigit hc).underscore⟩
  have hall : ∀ d ∈ withoutUnderscores (c :: cs), digitValue d < 10 := by
    refine fun d hd => digitValue_lt_of_isDigit (mem_withoutUnderscores ?_ d hd)
    exact List.forall_mem_cons.mpr ⟨Or.inl hc, hcs⟩
  have hrange : InRange 10 (withoutUnderscores (c :: cs))
      ↔ valueOfChars 10 (withoutUnderscores (c :: cs)) ≤ largestInt :=
    ⟨fun h => h.2.2, fun h => ⟨List.ne_nil_of_mem hmem, hall, h⟩⟩
  simp only [Numeral.token, Numeral.chars, List.append_nil, hrange]
  rfl

/-- Digits of a base are in range when the check of the base says so. -/
theorem basedToken_eq {base : Nat} (hbase : base ≠ 10) (run : List Char) :
    basedToken base run = if InRange base (withoutUnderscores run)
      then .ok (.int (valueOfChars base (withoutUnderscores run)))
      else .error (integerFault base (withoutUnderscores run)) := by
  have hrange : (!(withoutUnderscores run).isEmpty
        && (withoutUnderscores run).all (digitValue · < base)
        && valueOfChars base (withoutUnderscores run) ≤ largestInt) = true
      ↔ InRange base (withoutUnderscores run) := by
    simp [InRange, and_assoc]
  simp only [basedToken, hrange, integerFault, if_neg hbase]

namespace IntegerText

/-- No base is above 16. -/
theorem base_le {base : Nat} {run text : List Char} (h : IntegerText base run text) :
    base ≤ 16 := by
  cases h with
  | decimal _ _ => decide
  | based hletter _ => exact (base_le_of_mem hletter).1

/-- The digits of a literal are letters and digits. -/
theorem isAlphanum {base : Nat} {run text : List Char} (h : IntegerText base run text) :
    ∀ c ∈ withoutUnderscores run, c.isAlphanum = true := by
  cases h with
  | @decimal c cs hc hcs =>
      intro d hd
      exact isAlphanum_of_isDigit (mem_withoutUnderscores
        (List.forall_mem_cons.mpr ⟨Or.inl hc, hcs⟩) d hd)
  | based _ hcs => exact mem_withoutUnderscores hcs

/-- A literal begins with a digit and is cut off as a whole. -/
theorem numberAt_eq {base : Nat} {run text : List Char} (h : IntegerText base run text) :
    ∃ c cs, text = c :: cs ∧ c.isDigit = true
      ∧ numberAt (c :: cs) = if InRange base (withoutUnderscores run)
        then .ok (.int (valueOfChars base (withoutUnderscores run)), (c :: cs).length)
        else .error (integerFault base (withoutUnderscores run)) := by
  cases h with
  | @decimal c cs hc hcs =>
      refine ⟨c, cs, rfl, hc, ?_⟩
      rw [numberAt_run hc hcs, token_run hc hcs]
      split <;> rfl
  | @based letter base cs hletter hcs =>
      have hrun : basedRun run = run := List.takeWhile_eq_self_iff.mpr (by simpa using hcs)
      refine ⟨'0', letter :: run, rfl, rfl, ?_⟩
      rw [numberAt_based (baseOf?_of_mem hletter), hrun, basedToken_eq (base_le_of_mem hletter).2]
      split <;> rfl

/-- A literal of an integer is read as what its digits denote in their base when they denote
    something in the range of integers, and refused at its first character otherwise. -/
theorem tokenize_exact {base : Nat} {run text : List Char} (h : IntegerText base run text) :
    let ds := run.filter (· != '_')
    (∀ v : Nat, ds ≠ [] → Denotes base ds v → v ≤ Nat.pow 2 63 - 1 →
        tokenize (String.ofList text)
          = .ok [⟨.int v, .start⟩, ⟨.eof, .ofOffset text text.length⟩])
      ∧ ((¬ ∃ v, ds ≠ [] ∧ Denotes base ds v ∧ v ≤ Nat.pow 2 63 - 1) →
        tokenize (String.ofList text) = .error ⟨integerFault base ds, .start⟩) := by
  intro ds
  have hdenotes {v : Nat} := denotes_iff (n := v) h.base_le h.isAlphanum
  obtain ⟨c, cs, rfl, hc, hnumber⟩ := h.numberAt_eq
  have hlexeme := @Lexeme.ofText_digit c cs hc
  rw [hnumber] at hlexeme
  constructor
  · intro v hne hv hle
    obtain ⟨hlt, rfl⟩ := hdenotes.mp hv
    rw [if_pos ⟨hne, hlt, hle⟩] at hlexeme
    exact Token.isCutFrom_of_ofText hlexeme
  · intro hnone
    have hrange : ¬ InRange base (withoutUnderscores run) := by
      rintro ⟨hne, hlt, hle⟩
      exact hnone ⟨_, hne, hdenotes.mpr ⟨hlt, rfl⟩, hle⟩
    rw [if_neg hrange] at hlexeme
    rw [tokenize, String.toList_ofList, tokensFrom, hlexeme]
    rfl

/-- The largest integer in base 16, with digits of both cases, is read, and one more is refused. -/
theorem tokenize_exact_largest :
    let run := ['_', '7', 'f', 'F', 'f', '_', '_', 'F', 'F', 'F', 'F', 'f', 'f', 'f', 'f', 'F', 'F',
      'F', 'F', '_']
    let next := ['8', '0', '0', '0', '0', '0', '0', '0', '_', '0', '0', '0', '0', '0', '0', '0', '0']
    IntegerText 16 run ('0' :: 'X' :: run) ∧ run.filter (· != '_') ≠ []
      ∧ Denotes 16 (run.filter (· != '_')) 9223372036854775807
      ∧ tokenize "0X_7fFf__FFFFffffFFFF_"
        = .ok [⟨.int 9223372036854775807, ⟨1, 1⟩⟩, ⟨.eof, ⟨1, 23⟩⟩]
      ∧ IntegerText 16 next ('0' :: 'x' :: next)
      ∧ (¬ ∃ v, next.filter (· != '_') ≠ [] ∧ Denotes 16 (next.filter (· != '_')) v
        ∧ v ≤ Nat.pow 2 63 - 1)
      ∧ tokenize "0x80000000_00000000"
        = .error ⟨.invalidInteger 16 "8000000000000000", ⟨1, 1⟩⟩ := by
  intro run next
  have hplain : run.all (fun d => d.isAlphanum || d == '_') = true
      ∧ next.all (fun d => d.isAlphanum || d == '_') = true := by decide
  have hrun : IntegerText 16 run ('0' :: 'X' :: run) :=
    .based (by decide) (by simpa using List.all_eq_true.mp hplain.1)
  have hnext : IntegerText 16 next ('0' :: 'x' :: next) :=
    .based (by decide) (by simpa using List.all_eq_true.mp hplain.2)
  have hdigits : (run.filter (· != '_')).all (digitValue · < 16) = true := by decide
  have hvalue : Denotes 16 (run.filter (· != '_')) 9223372036854775807 :=
    (denotes_iff (by decide) hrun.isAlphanum).mpr
      ⟨fun c hc => of_decide_eq_true (List.all_eq_true.mp hdigits c hc), by decide⟩
  have hlarge : ¬ ∃ v, next.filter (· != '_') ≠ [] ∧ Denotes 16 (next.filter (· != '_')) v
      ∧ v ≤ Nat.pow 2 63 - 1 := by
    rintro ⟨v, -, hv, hle⟩
    obtain ⟨-, rfl⟩ := (denotes_iff (by decide) hnext.isAlphanum).mp hv
    exact absurd hle (by decide)
  refine ⟨hrun, by decide, hvalue, ?_, hnext, hlarge, ?_⟩
  · exact (tokenize_exact hrun).1 _ (by decide) hvalue (by decide)
  · exact (tokenize_exact hnext).2 hlarge

end IntegerText

end CallSite
