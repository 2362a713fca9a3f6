import CallSite.Proofs.Grammar.Operand

/-!
# Climbing — the loop over the operators reads the levels of the grammar

Soundness is carried by an invariant of the loop (`Climbed`): what was read so far is a phrase, and
the token that comes next cannot continue any part of it but the whole.  Completeness says that the
loop comes by every phrase on its way (`Phrase.reaches`).  Together they show that climbing turns
readers of nested operands into readers of phrases (`climb_recognizes`), so the parser of a given
depth reads the derivations of that depth (`operand_recognizes`).
-/

namespace CallSite

open Grammar

/-! ## Operators as tokens that follow -/

theorem BinaryOp.closes_token (op : BinaryOp) : op.token.closes = true := by
  cases op <;> rfl

/-- An operator follows what binds tighter. -/
theorem BinaryOp.below_token {op : BinaryOp} {p : Nat} (h : op.precedence < p) :
    Below p op.token := by
  intro op' hop'
  rw [op.ofToken?_token] at hop'
  exact Option.some.inj hop' ▸ h

/-- No binary operator shares its level with a unary one. -/
theorem UnaryOp.below_precedence {op : UnaryOp} {tok : Token}
    (h : Below (op.precedence + 1) tok) : Below op.precedence tok := by
  intro op' hop'
  have := h op' hop'
  cases op <;> cases op' <;> revert this <;> decide

/-- What groups to the left leaves its own level to the loop. -/
theorem BinaryOp.rightPrecedence_of_left {op : BinaryOp} (h : op.isRightAssoc = false) :
    op.rightPrecedence = op.precedence + 1 := by
  simp [rightPrecedence, h]

theorem BinaryOp.rightPrecedence_of_comparison {op : BinaryOp} (h : op.isComparison = true) :
    op.rightPrecedence = 5 := by
  rw [rightPrecedence_of_left (not_rightAssoc_of_comparison h), precedence_eq_four.mpr h]

theorem BinaryOp.precedence_ne_four {op : BinaryOp} (h : op.isComparison = false) :
    op.precedence ≠ 4 :=
  fun h4 => Bool.eq_false_iff.mp h (precedence_eq_four.mp h4)

namespace Parser

variable {sub : Nat → Parser Node} {inner : Nat → Language Node}

/-! ## The invariant of the loop -/

/-- What the loop has read before the token `next`, as its left operand and its open chain: a
    postfix expression, a phrase that the next operator cannot open, or a chain. -/
inductive Climbed (inner : Nat → Language Node) (p : Nat) (next : Token) :
    List Token → Node → List (Link Node) → Prop where
  | bare {ts : List Token} {t : Node} : Postfix inner ts t → Climbed inner p next ts t []
  | phrase {q : Nat} {ts : List Token} {t : Node} :
      Phrase inner q ts t → min p 11 ≤ q → q ≠ 4 → Below (min (q + 1) 12) next →
      Climbed inner p next ts t []
  | chain {ts : List Token} {t : Node} (steps : List (List Token × Link Node)) :
      Phrase inner 5 ts t → steps ≠ [] → (∀ s ∈ steps, s.2.op.isComparison = true) →
      (∀ s ∈ steps, Phrase inner 5 s.1 s.2.operand) → p ≤ 4 → Below 5 next →
      Climbed inner p next (ts ++ steps.flatMap fun s => s.2.op.token :: s.1) t
        (steps.map Prod.snd)

/-- A chain with links is a comparison. -/
theorem chain_of_ne_nil {left : Node} {links : List (Link Node)} (h : links ≠ []) :
    left.chain links = .compare left links := by
  cases links with
  | nil => exact absurd rfl h
  | cons link links => rfl

@[simp] theorem chain_nil (left : Node) : left.chain [] = left := rfl

theorem chain_steps {left : Node} {steps : List (List Token × Link Node)} (h : steps ≠ []) :
    left.chain (steps.map Prod.snd) = .compare left (steps.map Prod.snd) :=
  chain_of_ne_nil (by simpa using h)

section

variable {p : Nat} {next : Token} {us : List Token} {left : Node} {links : List (Link Node)}

/-- What is read is a phrase of the level that was asked for. -/
theorem Climbed.done (h : Climbed inner p next us left links) :
    Phrase inner (min p 11) us (left.chain links) := by
  cases h with
  | bare ht => exact (Phrase.operand ht).looser (by omega)
  | phrase ht hq _ _ => exact ht.looser hq
  | chain steps ht hne hcomp hsteps hp _ =>
      rw [chain_steps hne]
      exact (Phrase.compare steps ht hne hcomp hsteps).looser (by omega)

/-- What is read is a left operand of the next operator, if that groups to the left. -/
theorem Climbed.level (h : Climbed inner p next us left links) {op : BinaryOp}
    (hop : BinaryOp.ofToken? next = some op) (hleft : op.isRightAssoc = false) :
    Phrase inner op.precedence us (left.chain links) := by
  cases h with
  | bare ht => exact (Phrase.operand ht).looser (Nat.le_of_lt
      (Nat.lt_of_lt_of_le (BinaryOp.precedence_lt_eleven hleft) (by decide)))
  | phrase ht _ _ hbelow =>
      have := hbelow op hop
      exact ht.looser (by omega)
  | chain steps ht hne hcomp hsteps _ hbelow =>
      have := hbelow op hop
      rw [chain_steps hne]
      exact (Phrase.compare steps ht hne hcomp hsteps).looser (by omega)

/-- Only a postfix expression stands in front of an operator that groups to the right. -/
theorem Climbed.postfix (h : Climbed inner p next us left links) {op : BinaryOp}
    (hop : BinaryOp.ofToken? next = some op) (hright : op.isRightAssoc = true) :
    links = [] ∧ Postfix inner us left := by
  obtain rfl := BinaryOp.eq_pow hright
  cases h with
  | bare ht => exact ⟨rfl, ht⟩
  | phrase _ _ _ hbelow =>
      have := hbelow .pow hop
      simp only [BinaryOp.precedence] at this
      omega
  | chain _ _ _ _ _ _ hbelow => exact absurd (hbelow .pow hop) (by decide)

/-- A comparison opens a chain or makes it longer. -/
theorem Climbed.link (h : Climbed inner p next us left links) {op : BinaryOp}
    (hop : BinaryOp.ofToken? next = some op) (hcomp : op.isComparison = true)
    (hp : p ≤ op.precedence) {vs : List Token} {right : Node} (hright : Phrase inner 5 vs right)
    {next' : Token} (hbelow' : Below 5 next') :
    Climbed inner p next' (us ++ op.token :: vs) left (links ++ [⟨op, right⟩]) := by
  have hfour : op.precedence = 4 := BinaryOp.precedence_eq_four.mpr hcomp
  -- the first link, behind a left operand that binds tighter
  have hfirst (ht : Phrase inner 5 us left) :
      Climbed inner p next' (us ++ op.token :: vs) left ([] ++ [⟨op, right⟩]) := by
    have hchain := @Climbed.chain inner p next' us left [(vs, ⟨op, right⟩)] ht (by simp)
      (by simpa using hcomp) (by simpa using hright) (by omega) hbelow'
    simpa using hchain
  cases h with
  | bare ht => exact hfirst ((Phrase.operand ht).looser (by decide))
  | phrase ht _ hne hbelow =>
      have := hbelow op hop
      exact hfirst (ht.looser (by omega))
  | @chain ts _ steps ht hne hall hsteps hp' _ =>
      have hall' : ∀ s ∈ steps ++ [(vs, ⟨op, right⟩)], s.2.op.isComparison = true :=
        List.forall_mem_append.mpr ⟨hall, List.forall_mem_singleton.mpr hcomp⟩
      have hsteps' : ∀ s ∈ steps ++ [(vs, ⟨op, right⟩)], Phrase inner 5 s.1 s.2.operand :=
        List.forall_mem_append.mpr ⟨hsteps, List.forall_mem_singleton.mpr hright⟩
      have hchain : Climbed inner p next' _ left _ :=
        .chain (steps ++ [(vs, ⟨op, right⟩)]) ht (by simp) hall' hsteps' hp' hbelow'
      simpa [List.append_assoc] using hchain

/-- Any other operator makes a phrase of its own level. -/
theorem Climbed.join (h : Climbed inner p next us left links) {op : BinaryOp}
    (hop : BinaryOp.ofToken? next = some op) (hcomp : op.isComparison = false)
    (hp : p ≤ op.precedence) {vs : List Token} {right : Node}
    (hright : Phrase inner (min op.rightPrecedence 11) vs right) {next' : Token}
    (hbelow : Below op.rightPrecedence next') :
    Climbed inner p next' (us ++ op.token :: vs) (.binary (left.chain links) op right) [] := by
  have hne := BinaryOp.precedence_ne_four hcomp
  cases hassoc : op.isRightAssoc with
  | false =>
      have hlt := BinaryOp.precedence_lt_eleven hassoc
      rw [BinaryOp.rightPrecedence_of_left hassoc] at hright hbelow
      rw [Nat.min_eq_left (by omega)] at hright
      refine .phrase (.binary op hcomp hassoc (h.level hop hassoc) hright) (by omega) hne ?_
      exact hbelow.mono (by omega)
  | true =>
      obtain ⟨rfl, hpost⟩ := h.postfix hop hassoc
      obtain rfl := BinaryOp.eq_pow hassoc
      exact .phrase (.power hpost hright) (by omega) (by decide) hbelow

end

/-- An operand that was read starts the loop. -/
theorem unary_climbed (R : Recognizes sub inner) {p : Nat} {t : Node} {c c' : Cursor}
    (h : unary sub p c = .ok t c') :
    ∃ ts, c.Reads ts c' ∧ Climbed inner p c'.token ts t [] := by
  rcases unary_sound R h with ⟨ts, hts, hpost⟩ | ⟨op, ts, u, hts, rfl, hu, hnot, hbelow⟩
  · exact ⟨ts, hts, .bare hpost⟩
  · refine ⟨_, hts, .phrase (.unary op hu) ?_ ?_ (hbelow.mono ?_)⟩
    · -- `not` is read only where nothing tighter was asked for
      cases op with
      | not => exact Nat.le_trans (Nat.min_le_left _ _) (hnot rfl)
      | neg | pos | invert => exact Nat.min_le_right _ _
    · cases op <;> decide
    · cases op <;> decide

/-! ## Soundness -/

theorem climbWithin_sound (R : Recognizes sub inner) {fuel p : Nat} {left t : Node}
    {links : List (Link Node)} {us : List Token} {c c' : Cursor} (hfuel : c.rest.length ≤ fuel)
    (hinv : Climbed inner p c.token us left links)
    (h : climbWithin (unary sub) fuel p left links c = .ok t c') :
    ∃ ts, c.Reads ts c' ∧ Phrase inner (min p 11) (us ++ ts) t ∧ Below p c'.token := by
  induction fuel generalizing p left links us t c c' with
  | zero =>
      obtain ⟨rfl, rfl⟩ := pure_eq_ok.mp h
      refine ⟨[], rfl, by simpa using hinv.done, ?_⟩
      have hnil : c.rest = [] := List.eq_nil_of_length_eq_zero (Nat.le_zero.mp hfuel)
      have htok : c.token = .eof := by simp [Cursor.token, hnil]
      rw [htok]
      exact below_of_none rfl p
  | succ fuel ih =>
      simp only [climbWithin, peek_bind] at h
      -- where the loop stops, what was read is the phrase
      have hstop (h : (pure (left.chain links) : Parser Node) c = .ok t c')
          (hbelow : Below p c.token) :
          ∃ ts, c.Reads ts c' ∧ Phrase inner (min p 11) (us ++ ts) t ∧ Below p c'.token := by
        obtain ⟨rfl, rfl⟩ := pure_eq_ok.mp h
        exact ⟨[], rfl, by simpa using hinv.done, hbelow⟩
      cases hop : BinaryOp.ofToken? c.token with
      | none =>
          rw [hop] at h
          exact hstop h (below_of_none hop p)
      | some op =>
          rw [hop] at h
          by_cases hlt : op.precedence < p
          · simp only [if_pos hlt] at h
            exact hstop h fun op' hop' => Option.some.inj (hop.symm.trans hop') ▸ hlt
          simp only [if_neg hlt, advance_bind] at h
          have hp : p ≤ op.precedence := Nat.le_of_not_lt hlt
          have htok : c.token = op.token := (BinaryOp.token_of_ofToken? hop).symm
          have hlen := Cursor.length_next (c := c) (htok ▸ op.token_ne_eof)
          -- the right operand, by the invariant of its own loop
          obtain ⟨first, m, hfirst, h⟩ := bind_eq_ok.mp h
          obtain ⟨right, m', hright, h⟩ := bind_eq_ok.mp h
          obtain ⟨ts, hts, hinv'⟩ := unary_climbed R hfirst
          have hlen' := hts.length
          obtain ⟨vs, hvs, hphrase, hbelow⟩ := ih (by omega) hinv' hright
          have hlen'' := hvs.length
          have hreads : c.Reads (op.token :: (ts ++ vs)) m' :=
            ⟨op.token_ne_eof, htok, Cursor.reads_append.mpr ⟨m, hts, hvs⟩⟩
          -- the rest of the loop, behind the right operand
          have hloop {left' : Node} {links' : List (Link Node)}
              (hinv : Climbed inner p m'.token (us ++ op.token :: (ts ++ vs)) left' links')
              (h : climbWithin (unary sub) fuel p left' links' m' = .ok t c') :
              ∃ ts, c.Reads ts c' ∧ Phrase inner (min p 11) (us ++ ts) t ∧ Below p c'.token := by
            obtain ⟨ws, hws, ht, hstop⟩ := ih (by omega) hinv h
            refine ⟨op.token :: (ts ++ vs) ++ ws, Cursor.reads_append.mpr ⟨m', hreads, hws⟩, ?_,
              hstop⟩
            rwa [← List.append_assoc]
          by_cases hcomp : op.isComparison = true
          · rw [if_pos hcomp] at h
            rw [BinaryOp.rightPrecedence_of_comparison hcomp] at hphrase hbelow
            exact hloop (hinv.link hop hcomp hp hphrase hbelow) h
          · rw [if_neg hcomp] at h
            exact hloop (hinv.join hop (Bool.eq_false_iff.mpr hcomp) hp hphrase hbelow) h

theorem climb_sound (R : Recognizes sub inner) {p : Nat} {t : Node} {c c' : Cursor}
    (h : climb (unary sub) p c = .ok t c') :
    ∃ ts, c.Reads ts c' ∧ Phrase inner (min p 11) ts t ∧ Below p c'.token := by
  obtain ⟨left, m, hleft, h⟩ := bind_eq_ok.mp h
  rw [remaining_bind] at h
  obtain ⟨ts, hts, hinv⟩ := unary_climbed R hleft
  obtain ⟨us, hus, ht, hbelow⟩ := climbWithin_sound R (Nat.le_refl _) hinv h
  exact ⟨ts ++ us, Cursor.reads_append.mpr ⟨m, hts, hus⟩, ht, hbelow⟩

/-! ## Completeness -/

section

variable {operand : Nat → Parser Node}

/-- An operator that is not below the asked level is read with its right operand. -/
theorem climbWithin_step {fuel p : Nat} {left first right : Node} {links : List (Link Node)}
    {op : BinaryOp} {c m m' : Cursor} (htok : c.token = op.token) (hp : p ≤ op.precedence)
    (hfirst : operand op.rightPrecedence c.next = .ok first m)
    (hright : climbWithin operand fuel op.rightPrecedence first [] m = .ok right m') :
    climbWithin operand (fuel + 1) p left links c =
      if op.isComparison then climbWithin operand fuel p left (links ++ [⟨op, right⟩]) m'
      else climbWithin operand fuel p (.binary (left.chain links) op right) [] m' := by
  simp only [climbWithin, peek_bind, htok, BinaryOp.ofToken?_token,
    if_neg (Nat.not_lt.mpr hp), advance_bind]
  rw [bind_of_ok hfirst, bind_of_ok hright]
  exact ite_apply ..

/-- In front of a token below the asked level the loop stops. -/
theorem climbWithin_stop {fuel p : Nat} {left : Node} {links : List (Link Node)} {c : Cursor}
    (h : Below p c.token) :
    climbWithin operand fuel p left links c = .ok (left.chain links) c := by
  cases fuel with
  | zero => rfl
  | succ fuel =>
      simp only [climbWithin, peek_bind]
      cases hop : BinaryOp.ofToken? c.token with
      | none => rfl
      | some op =>
          simp only [if_pos (h op hop)]
          rfl

/-- In front of a token that does not make it longer, a chain is closed. -/
theorem climbWithin_chain {fuel p : Nat} {left : Node} {links : List (Link Node)} {c : Cursor}
    (h : Below 4 c.token) :
    climbWithin operand fuel p left links c
      = climbWithin operand fuel p (left.chain links) [] c := by
  cases fuel with
  | zero => rfl
  | succ fuel =>
      simp only [climbWithin, peek_bind]
      cases hop : BinaryOp.ofToken? c.token with
      | none => rfl
      | some op =>
          have hcomp : ¬ op.isComparison = true := by
            intro hcomp
            have := h op hop
            rw [BinaryOp.precedence_eq_four.mpr hcomp] at this
            exact Nat.lt_irrefl _ this
          simp only [if_neg hcomp, chain_nil]

/-- From `c` on, an operand is read and the loop behind it comes by `t` at `c'`. -/
def Reaches (operand : Nat → Parser Node) (p : Nat) (t : Node) (c c' : Cursor) : Prop :=
  ∃ first m, operand p c = .ok first m ∧ m.rest.length ≤ c.rest.length ∧
    ∀ fuel ≥ m.rest.length, ∃ fuel' ≥ c'.rest.length,
      climbWithin operand fuel p first [] m = climbWithin operand fuel' p t [] c'

/-- An operand that is read is reached before the loop begins. -/
theorem Reaches.of_operand {p : Nat} {t : Node} {c c' : Cursor} (h : operand p c = .ok t c')
    (hlen : c'.rest.length ≤ c.rest.length) : Reaches operand p t c c' :=
  ⟨t, c', h, hlen, fun fuel hfuel => ⟨fuel, hfuel, rfl⟩⟩

/-- What is reached is read, in front of a token below the asked level. -/
theorem Reaches.read {p : Nat} {t : Node} {c c' : Cursor} (h : Reaches operand p t c c')
    (hbelow : Below p c'.token) (fuel : Nat) (hfuel : c.rest.length ≤ fuel) :
    ∃ first m, operand p c = .ok first m
      ∧ climbWithin operand fuel p first [] m = .ok t c' := by
  obtain ⟨first, m, hfirst, hlen, hreach⟩ := h
  obtain ⟨fuel', -, hloop⟩ := hreach fuel (Nat.le_trans hlen hfuel)
  exact ⟨first, m, hfirst, hloop.trans (climbWithin_stop hbelow)⟩

theorem Reaches.climb {p : Nat} {t : Node} {c c' : Cursor} (h : Reaches operand p t c c')
    (hbelow : Below p c'.token) : climb operand p c = .ok t c' := by
  obtain ⟨first, m, hfirst, -, hreach⟩ := h
  obtain ⟨fuel', -, hloop⟩ := hreach _ (Nat.le_refl _)
  unfold Parser.climb
  rw [bind_of_ok hfirst, remaining_bind, hloop]
  exact climbWithin_stop hbelow

/-- Behind what is reached, one more operator that is no comparison and its right operand are
    reached. -/
theorem Reaches.join {p : Nat} {left right : Node} {op : BinaryOp} {c m c' : Cursor}
    (hleft : Reaches operand p left c m) (htok : m.token = op.token) (hp : p ≤ op.precedence)
    (hcomp : op.isComparison = false) (hright : Reaches operand op.rightPrecedence right m.next c')
    (hbelow : Below op.rightPrecedence c'.token) (hlen : c'.rest.length ≤ m.next.rest.length) :
    Reaches operand p (.binary left op right) c c' := by
  obtain ⟨first, d, hfirst, hle, hreach⟩ := hleft
  refine ⟨first, d, hfirst, hle, fun fuel hfuel => ?_⟩
  obtain ⟨fuel', hfuel', hloop⟩ := hreach fuel hfuel
  have hlen' := Cursor.length_next (c := m) (htok ▸ op.token_ne_eof)
  obtain ⟨fuel', rfl⟩ : ∃ n, fuel' = n + 1 := ⟨fuel' - 1, by omega⟩
  obtain ⟨r, d', hr, hclimb⟩ := hright.read hbelow fuel' (by omega)
  refine ⟨fuel', by omega, ?_⟩
  rw [hloop, climbWithin_step htok hp hr hclimb, if_neg (by simp [hcomp])]
  rfl

end

/-- The precedence that the operator behind a phrase stays below.  An operator that groups to the
    left may follow its own level. -/
def followBound (p : Nat) : Nat := if p = 4 ∨ p = 12 then p else p + 1

theorem followBound_tighter (p : Nat) : followBound p ≤ followBound (p + 1) := by
  unfold followBound
  split <;> split <;> omega

/-- The links of a chain are reached one by one. -/
theorem links_reach {p : Nat} (hp : p ≤ 4) (left : Node) {steps : List (List Token × Link Node)}
    (hcomp : ∀ s ∈ steps, s.2.op.isComparison = true)
    (hsteps : ∀ s ∈ steps, ∀ {c c' : Cursor}, c.Reads s.1 c' → Follows 5 c'.token →
      Reaches (unary sub) 5 s.2.operand c c')
    (links : List (Link Node)) {c c' : Cursor}
    (hc : c.Reads (steps.flatMap fun s => s.2.op.token :: s.1) c') (hc' : Follows 4 c'.token)
    (fuel : Nat) (hfuel : c.rest.length ≤ fuel) :
    ∃ fuel' ≥ c'.rest.length,
      climbWithin (unary sub) fuel p left links c
        = climbWithin (unary sub) fuel' p left (links ++ steps.map Prod.snd) c' := by
  induction steps generalizing links c fuel with
  | nil =>
      obtain rfl : c = c' := hc
      exact ⟨fuel, hfuel, by simp⟩
  | cons s steps ih =>
      obtain ⟨vs, ⟨op, right⟩⟩ := s
      rw [List.flatMap_cons] at hc
      obtain ⟨m, ⟨-, htok, hvs⟩, hrest⟩ := Cursor.reads_append.mp hc
      have hop : op.isComparison = true := hcomp _ List.mem_cons_self
      have hfour : op.precedence = 4 := BinaryOp.precedence_eq_four.mpr hop
      have hlen := Cursor.length_next (c := c) (htok ▸ op.token_ne_eof)
      have hlen' := hvs.length
      obtain ⟨fuel, rfl⟩ : ∃ n, fuel = n + 1 := ⟨fuel - 1, by omega⟩
      -- behind the operand comes the next comparison, or what follows the chain
      have hm : Follows 5 m.token := by
        cases steps with
        | nil =>
            obtain rfl : m = c' := hrest
            exact hc'.mono (by decide)
        | cons s' steps =>
            have htok' := hrest.2.1
            have hfour' := BinaryOp.precedence_eq_four.mpr
              (hcomp s' (List.mem_cons_of_mem _ List.mem_cons_self))
            rw [htok']
            exact ⟨BinaryOp.below_token (by omega), BinaryOp.closes_token _⟩
      obtain ⟨first, d, hfirst, hright⟩ :=
        (hsteps _ List.mem_cons_self hvs hm).read hm.below fuel (by omega)
      rw [← BinaryOp.rightPrecedence_of_comparison hop] at hfirst hright
      obtain ⟨fuel', hfuel', hloop⟩ :=
        ih (fun s hs => hcomp s (List.mem_cons_of_mem _ hs))
          (fun s hs => hsteps s (List.mem_cons_of_mem _ hs))
          (links ++ [⟨op, right⟩]) hrest fuel (by omega)
      refine ⟨fuel', hfuel', ?_⟩
      rw [climbWithin_step htok (show p ≤ op.precedence by omega) hfirst hright, if_pos hop, hloop]
      simp [List.append_assoc]

/-- The loop comes by every phrase that it can read. -/
theorem Phrase.reaches (R : Recognizes sub inner) {k : Nat} {ts : List Token} {t : Node}
    (ht : Phrase inner k ts t) {p : Nat} (hp : p ≤ 12) (hpk : min p 11 ≤ k) {c c' : Cursor}
    (hc : c.Reads ts c') (hbelow : Below (followBound k) c'.token)
    (hcloses : c'.token.closes = true) : Reaches (unary sub) p t c c' := by
  induction ht generalizing p c c' with
  | operand hpost =>
      have hread := unary_postfix R hpost hc hcloses p
      exact .of_operand hread hc.length_le
  | power hpost _ ih =>
      obtain ⟨m, hls, -, htok, hrs⟩ := Cursor.reads_append.mp hc
      have hread := unary_postfix R hpost hls (htok ▸ BinaryOp.closes_token _) p
      have hleft : Reaches (unary sub) p _ c m := .of_operand hread hls.length_le
      have hright := ih (p := 12) (by decide) (by decide) hrs hbelow hcloses
      exact hleft.join htok hp rfl hright hbelow hrs.length_le
  | @unary us u op hu =>
      have hfollows : Follows op.precedence c'.token := by
        refine ⟨UnaryOp.below_precedence ?_, hcloses⟩
        cases op <;> exact hbelow
      have hnot : op = .not → p ≤ 3 := by
        rintro rfl
        simp only [UnaryOp.precedence] at hpk
        omega
      have hread := unary_prefix R hu hc hfollows hnot
      exact .of_operand hread hc.length_le
  | @binary ls rs l r op hcomp hassoc _ _ ihl ihr =>
      have hlt := BinaryOp.precedence_lt_eleven hassoc
      have hne := BinaryOp.precedence_ne_four hcomp
      have hrp := BinaryOp.rightPrecedence_of_left hassoc
      have hbound : followBound op.precedence = op.precedence + 1 := by
        rw [followBound, if_neg (by omega)]
      rw [hbound] at hbelow
      obtain ⟨m, hls, -, htok, hrs⟩ := Cursor.reads_append.mp hc
      have hleft : Reaches (unary sub) p l c m := by
        refine ihl hp hpk hls ?_ (htok ▸ BinaryOp.closes_token _)
        rw [htok, hbound]
        exact BinaryOp.below_token (Nat.lt_succ_self _)
      have hright : Reaches (unary sub) op.rightPrecedence r m.next c' := by
        refine ihr (by omega) (by omega) hrs (hbelow.mono ?_) hcloses
        unfold followBound
        split <;> omega
      exact hleft.join htok (by omega) hcomp hright (hrp ▸ hbelow) hrs.length_le
  | @compare ls l steps _ hne hcomp _ ihl ihs =>
      obtain ⟨m, hls, hrest⟩ := Cursor.reads_append.mp hc
      have hleft : Reaches (unary sub) p l c m := by
        cases steps with
        | nil => exact absurd rfl hne
        | cons s steps =>
            have hfour := BinaryOp.precedence_eq_four.mpr (hcomp s List.mem_cons_self)
            refine ihl hp (by omega) hls ?_ (hrest.2.1 ▸ BinaryOp.closes_token _)
            rw [hrest.2.1]
            exact BinaryOp.below_token (by rw [hfour]; decide)
      obtain ⟨first, d, hfirst, hle, hreach⟩ := hleft
      refine ⟨first, d, hfirst, hle, fun fuel hfuel => ?_⟩
      obtain ⟨fuel', hfuel', hloop⟩ := hreach fuel hfuel
      obtain ⟨fuel'', hfuel'', hlinks⟩ :=
        links_reach (show p ≤ 4 by omega) l hcomp
          (fun s hs _ _ hc hc' => ihs s hs (by decide) (by decide) hc
            (hc'.below.mono (by decide)) hc'.closes)
          [] hrest ⟨hbelow, hcloses⟩ fuel' hfuel'
      refine ⟨fuel'', hfuel'', ?_⟩
      rw [hloop, hlinks, List.nil_append, climbWithin_chain hbelow, chain_steps hne]
  | tighter _ _ ih =>
      exact ih hp (by omega) hc (hbelow.mono (followBound_tighter _)) hcloses

/-! ## The parser of each depth -/

/-- Climbing turns readers of nested operands into readers of phrases. -/
theorem climb_recognizes (R : Recognizes sub inner) :
    Recognizes (climb (unary sub)) (Phrase inner) where
  opens := fun ht => ht.opens fun _ _ _ => R.opens
  unstarred := fun ht => ht.unstarred fun _ _ _ => R.unstarred
  sound := by
    intro p c c' t h
    obtain ⟨ts, hts, ht, -⟩ := climb_sound R h
    exact ⟨ts, hts, ht⟩
  stops := by
    intro p c c' t h
    obtain ⟨-, -, -, hbelow⟩ := climb_sound R h
    exact hbelow
  complete := by
    intro p c c' ts t hp ht hc hc'
    have hbound : p ≤ followBound (min p 11) := by
      unfold followBound
      split <;> omega
    exact (Phrase.reaches R ht hp (Nat.le_refl _) hc (hc'.below.mono hbound) hc'.closes).climb
      hc'.below

/-- The parser of a depth reads the derivations of that depth. -/
theorem operand_recognizes (depth : Nat) :
    Recognizes (climb (operand depth)) (Derives depth) := by
  induction depth with
  | zero =>
      have hfail {p : Nat} {t : Node} {c c' : Cursor} (h : climb (operand 0) p c = .ok t c') :
          False := by
        obtain ⟨_, _, hfail, -⟩ := bind_eq_ok.mp h
        exact fail_eq_ok.mp hfail
      exact {
        opens := fun ht => ht.elim
        unstarred := fun ht => ht.elim
        sound := fun p c c' t h => (hfail h).elim
        stops := fun h => (hfail h).elim
        complete := fun _ ht => ht.elim }
  | succ depth ih => exact climb_recognizes ih

/-- What the parser returns is the tree of a derivation of all the tokens, and every such tree is
    returned. -/
theorem completeWithin_iff (depth : Nat) {ts : List (Located Token)} {stop : Position} {t : Node}
    (hts : ∀ x ∈ ts, x.value ≠ .eof) :
    (completeWithin depth).onTokens (ts ++ [⟨.eof, stop⟩]) = .ok t
      ↔ Derives depth 0 (ts.map Located.value) t := by
  have R := operand_recognizes depth
  generalize hstart : Cursor.ofTokens (ts ++ [⟨.eof, stop⟩]) = c
  obtain ⟨last, rfl⟩ : ∃ last, c = ⟨ts ++ [⟨.eof, stop⟩], last⟩ := ⟨_, hstart.symm⟩
  have hreads : Cursor.Reads ⟨ts ++ [⟨.eof, stop⟩], last⟩ (ts.map Located.value)
      ⟨[⟨.eof, stop⟩], last⟩ := Cursor.reads_of_rest hts
  unfold Parser.onTokens
  rw [hstart]
  constructor
  · intro h
    cases hrun : completeWithin depth ⟨ts ++ [⟨.eof, stop⟩], last⟩ with
    | error e m =>
        rw [hrun] at h
        exact absurd h nofun
    | ok u c' =>
        rw [hrun] at h
        obtain rfl : u = t := Except.ok.inj h
        obtain ⟨read, m, hread, h⟩ := bind_eq_ok.mp hrun
        rw [peek_bind] at h
        by_cases heof : m.token = .eof
        · rw [if_pos heof] at h
          obtain ⟨rfl, rfl⟩ := pure_eq_ok.mp h
          obtain ⟨us, hus, ht⟩ := expression_sound R hread
          exact hus.eq_of_eof heof hreads rfl ▸ ht
        · rw [if_neg heof] at h
          exact absurd h (by simp)
  · intro ht
    have hread := expression_complete R ht hreads (follows_of_none rfl rfl 0)
    have hrun : completeWithin depth ⟨ts ++ [⟨.eof, stop⟩], last⟩
        = .ok t ⟨[⟨.eof, stop⟩], last⟩ := bind_of_ok hread
    rw [hrun]

/-- Reading a whole text is derivability in the grammar, with operands that nest at most
    `maxNesting` deep. -/
theorem complete_iff_derives {ts : List (Located Token)} {stop : Position} {t : Node}
    (hts : ∀ x ∈ ts, x.value ≠ .eof) :
    complete.onTokens (ts ++ [⟨.eof, stop⟩]) = .ok t
      ↔ Derives maxNesting 0 (ts.map Located.value) t := completeWithin_iff maxNesting hts

/-- The tokens of `-a * b ** c` derive the tree that the parser gives. -/
theorem derives_of_complete :
    Derives maxNesting 0
      [.mark .minus, .ident "a", .mark .star, .ident "b", .mark .doubleStar, .ident "c"]
      (.binary (.unary .neg (.name "a")) .mul (.binary (.name "b") .pow (.name "c"))) := by
  have hread : complete.onTokens ([⟨.mark .minus, ⟨1, 1⟩⟩, ⟨.ident "a", ⟨1, 2⟩⟩,
      ⟨.mark .star, ⟨1, 4⟩⟩, ⟨.ident "b", ⟨1, 6⟩⟩, ⟨.mark .doubleStar, ⟨1, 8⟩⟩,
      ⟨.ident "c", ⟨1, 11⟩⟩] ++ [⟨.eof, ⟨1, 13⟩⟩])
      = .ok (.binary (.unary .neg (.name "a")) .mul (.binary (.name "b") .pow (.name "c"))) := rfl
  exact (complete_iff_derives (by decide)).mp hread

end Parser

end CallSite
