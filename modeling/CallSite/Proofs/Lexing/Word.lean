import Mathlib
import CallSite.Token.Lexeme

/-!
# Words — what is cut off at the head of a text as one word

A name or a reserved word ends where no character of a word follows.  It must not be taken for the
letters of a literal, so no quote may follow either (`tokenAt_word`).
-/

namespace CallSite

/-! ## Runs of characters -/

/-- The text does not go on with such a character. -/
def Stops (p : Char → Bool) (rest : List Char) : Prop := ∀ c ∈ rest.head?, p c = false

theorem Stops.mono {p q : Char → Bool} {rest : List Char} (h : Stops q rest)
    (hpq : ∀ c, p c = true → q c = true) : Stops p rest := by
  intro c hc
  refine Bool.eq_false_iff.mpr fun hp => ?_
  exact absurd (h c hc) (by rw [hpq c hp]; exact nofun)

theorem stops_nil {p : Char → Bool} : Stops p [] := nofun

theorem stops_cons {p : Char → Bool} {c : Char} {cs : List Char} :
    Stops p (c :: cs) ↔ p c = false := by
  simp [Stops]

/-- A run ends in front of the first character that does not belong to it. -/
theorem takeWhile_of_stops {p : Char → Bool} {ds rest : List Char} (hds : ∀ c ∈ ds, p c = true)
    (hrest : Stops p rest) : (ds ++ rest).takeWhile p = ds := by
  have hnil : rest.takeWhile p = [] := by
    cases rest with
    | nil => rfl
    | cons c cs => exact List.takeWhile_cons_of_neg (by rw [stops_cons.mp hrest]; exact nofun)
  rw [List.takeWhile_append_of_pos hds, hnil, List.append_nil]

/-- What is checked for some code points holds of the characters that have them. -/
@[elab_as_elim]
theorem of_toNat_mem {P : Char → Prop} {codes : List Nat} {c : Char} (hc : c.toNat ∈ codes)
    (h : ∀ n ∈ codes, P (Char.ofNat n)) : P c := by
  have hP := h c.toNat hc
  rwa [Char.ofNat_toNat] at hP

/-! ## Letters of literals -/

/-- The letters that may stand in front of a quote. -/
def literalLetters : List Char := ['u', 'U', 'r', 'R', 'b', 'B', 'f', 'F']

theorem mem_literalLetters {c : Char} (h : c.toLower ∈ ['u', 'r', 'b', 'f']) :
    c ∈ literalLetters := by
  by_cases hupper : c.val ≥ 'A'.val ∧ c.val ≤ 'Z'.val
  · -- one of the 26 capital letters
    have hval : c.toNat ∈ List.range' 65 26 := by
      rw [List.mem_range'_1]
      have hlow : 65 ≤ c.val.toNat := UInt32.le_iff_toNat_le.mp hupper.1
      have hhigh : c.val.toNat ≤ 90 := UInt32.le_iff_toNat_le.mp hupper.2
      exact ⟨hlow, Nat.lt_succ_of_le hhigh⟩
    revert h
    exact of_toNat_mem hval (by decide)
  · rw [Char.toLower, dif_neg hupper] at h
    have hall : ['u', 'r', 'b', 'f'].all literalLetters.contains = true := by decide
    exact List.contains_iff_mem.mp (List.all_eq_true.mp hall c h)

theorem continuesWord_of_mem {c : Char} (h : c ∈ literalLetters) : continuesWord c = true := by
  have hall : literalLetters.all continuesWord = true := by decide
  exact List.all_eq_true.mp hall c h

theorem not_continuesWord_of_isQuote {c : Char} (h : isQuote c = true) :
    continuesWord c = false := by
  simp only [isQuote, Bool.or_eq_true, beq_iff_eq] at h
  rcases h with rfl | rfl <;> decide

theorem ofLetters?_eq_some {cs : List Char} {kind : LiteralKind}
    (h : LiteralKind.ofLetters? cs = some kind) : ∀ c ∈ cs, c ∈ ['u', 'r', 'b', 'f'] := by
  unfold LiteralKind.ofLetters? at h
  split at h <;> first
    | (simp; done)
    | exact absurd h nofun

namespace LiteralOpening

/-- Where a literal opens, letters stand in front of a quote. -/
theorem withLetters?_eq_some {cs : List Char} {n : Nat} {opening : LiteralOpening}
    (h : withLetters? cs n = some opening) :
    (∃ q rest, cs.drop n = q :: rest ∧ isQuote q = true) ∧ ∀ c ∈ cs.take n, c ∈ literalLetters := by
  unfold withLetters? at h
  split at h
  · exact absurd h nofun
  · rename_i q rest hdrop
    by_cases hq : isQuote q = true
    · rw [if_pos hq] at h
      obtain ⟨kind, hkind, -⟩ := Option.map_eq_some_iff.mp h
      refine ⟨⟨q, rest, hdrop, hq⟩, fun c hc => ?_⟩
      exact mem_literalLetters (ofLetters?_eq_some hkind _ (List.mem_map_of_mem hc))
    · rw [if_neg hq] at h
      exact absurd h nofun

theorem withLetters?_eq_none {cs : List Char} {n : Nat} {c : Char} (hc : c ∈ cs.take n)
    (hletter : c ∉ literalLetters) : withLetters? cs n = none := by
  refine Option.eq_none_iff_forall_ne_some.mpr fun opening h => ?_
  exact hletter ((withLetters?_eq_some h).2 c hc)

theorem ofText?_eq_none {cs : List Char} (h : ∀ n opening, withLetters? cs n ≠ some opening) :
    ofText? cs = none := by
  refine List.findSome?_eq_none_iff.mpr fun n _ => ?_
  exact Option.eq_none_iff_forall_ne_some.mpr (h n)

/-- No literal opens with a character that is neither a letter of literals nor a quote. -/
theorem ofText?_cons_eq_none {c : Char} {cs : List Char} (hquote : isQuote c = false)
    (hletter : c ∉ literalLetters) : ofText? (c :: cs) = none := by
  refine ofText?_eq_none fun n opening h => ?_
  obtain ⟨⟨q, rest, hdrop, hq⟩, hletters⟩ := withLetters?_eq_some h
  cases n with
  | zero =>
      obtain ⟨rfl, -⟩ := List.cons.inj hdrop
      exact absurd hq (by rw [hquote]; exact nofun)
  | succ n => exact hletter (hletters c List.mem_cons_self)

/-- No literal opens with a word that ends in front of something else than a quote. -/
theorem ofText?_word_eq_none {ds rest : List Char} (hds : ∀ c ∈ ds, continuesWord c = true)
    (hrest : Stops (fun c => continuesWord c || isQuote c) rest) :
    ofText? (ds ++ rest) = none := by
  refine ofText?_eq_none fun n opening h => ?_
  obtain ⟨⟨q, behind, hdrop, hq⟩, hletters⟩ := withLetters?_eq_some h
  have hget : (ds ++ rest)[n]? = some q := by
    rw [← List.head?_drop, hdrop, List.head?_cons]
  rcases Nat.lt_trichotomy n ds.length with hlt | rfl | hgt
  · -- the quote would be a character of the word
    rw [List.getElem?_append_left hlt] at hget
    have := hds q (List.mem_of_getElem? hget)
    rw [not_continuesWord_of_isQuote hq] at this
    exact absurd this nofun
  · rw [List.getElem?_append_right (Nat.le_refl _), Nat.sub_self, ← List.head?_eq_getElem?] at hget
    have : (continuesWord q || isQuote q) = false := hrest q hget
    rw [hq, Bool.or_true] at this
    exact absurd this nofun
  · -- what follows the word would be a letter
    cases rest with
    | nil =>
        rw [List.append_nil] at hget
        rw [List.getElem?_eq_none (Nat.le_of_lt hgt)] at hget
        exact absurd hget nofun
    | cons c rest =>
        have hmem : c ∈ (ds ++ c :: rest).take n := by
          rw [List.take_append]
          refine List.mem_append_right _ ?_
          obtain ⟨k, hk⟩ : ∃ k, n - ds.length = k + 1 := ⟨n - ds.length - 1, by omega⟩
          rw [hk]
          exact List.mem_cons_self
        have : (continuesWord c || isQuote c) = false := stops_cons.mp hrest
        rw [continuesWord_of_mem (hletters c hmem), Bool.true_or] at this
        exact absurd this nofun

end LiteralOpening

/-! ## Cutting off a word -/

/-- A character that opens a word and nothing else. -/
structure OpensOnlyWord (c : Char) : Prop where
  opens : opensWord c = true
  blank : isBlank c = false
  digit : c.isDigit = false

theorem continuesWord_of_opensWord {c : Char} (h : opensWord c = true) :
    continuesWord c = true := by
  simp only [opensWord, Bool.or_eq_true] at h
  rcases h with h | h <;> simp [continuesWord, h]

theorem ne_of_opensWord {c d : Char} (h : opensWord c = true) (hd : opensWord d = false) :
    c ≠ d := by
  rintro rfl
  exact absurd h (by rw [hd]; exact nofun)

theorem gapSize_eq_zero {c : Char} {cs : List Char} (hblank : isBlank c = false) (hslash : c ≠ '\\')
    (hhash : c ≠ '#') : gapSize (c :: cs) = 0 := by
  unfold gapSize
  split
  · rename_i heq
    exact absurd (List.cons.inj heq).1 hslash
  · rename_i heq
    exact absurd (List.cons.inj heq).1 hhash
  · rename_i heq
    obtain ⟨rfl, -⟩ := List.cons.inj heq
    rw [hblank]
    rfl
  · rfl

theorem OpensOnlyWord.gapSize {c : Char} (h : OpensOnlyWord c) (cs : List Char) :
    gapSize (c :: cs) = 0 :=
  gapSize_eq_zero h.blank (ne_of_opensWord h.opens (by decide))
    (ne_of_opensWord h.opens (by decide))

theorem opensNumber_eq_false {c : Char} {cs : List Char} (hdot : c ≠ '.')
    (hdigit : c.isDigit = false) : opensNumber (c :: cs) = false := by
  unfold opensNumber
  split
  · rename_i heq
    exact absurd (List.cons.inj heq).1 hdot
  · rename_i heq
    obtain ⟨rfl, -⟩ := List.cons.inj heq
    exact hdigit
  · rfl

/-- A word is cut off where it ends. -/
theorem Lexeme.ofText_word {c : Char} {ds rest : List Char} (hc : OpensOnlyWord c)
    (hds : ∀ d ∈ ds, continuesWord d = true)
    (hrest : Stops (fun c => continuesWord c || isQuote c) rest) :
    Lexeme.ofText c (ds ++ rest) = .ok ⟨some (wordToken (c :: ds)), (c :: ds).length⟩ := by
  have hall : ∀ d ∈ c :: ds, continuesWord d = true := by
    intro d hd
    rcases List.mem_cons.mp hd with rfl | hd
    · exact continuesWord_of_opensWord hc.opens
    · exact hds d hd
  have hrun : (ds ++ rest).takeWhile continuesWord = ds :=
    takeWhile_of_stops hds (hrest.mono fun c h => by rw [h, Bool.true_or])
  unfold Lexeme.ofText
  rw [hc.gapSize]
  show Lexeme.tokenAt c (ds ++ rest) = _
  unfold Lexeme.tokenAt
  rw [show LiteralOpening.ofText? (c :: (ds ++ rest)) = none from
    LiteralOpening.ofText?_word_eq_none hall hrest]
  simp only [opensNumber_eq_false (ne_of_opensWord hc.opens (by decide)) hc.digit, hc.opens, hrun,
    Bool.false_eq_true, if_false, if_true]

end CallSite
