import CallSite.Proofs.RoundTrip
import CallSite.Proofs.Spacing

/-!
# Dotted paths — names behind points, from the text to the canonical path

A dotted path is a name and the attributes behind it.  The tree of a path grows at its root with
every attribute, so all that is said about paths is shown from the last attribute inwards.  The text
of a path is read at any length, because attributes nest no operands (`Node.ofSource_ofPath`); the
tree is resolved while it is no deeper than resolution goes (`Node.resolveWithin_ofPath`).  Only
paths have a canonical path (`Expr.exists_ofPath`).
-/

namespace CallSite

open Grammar

/-- Names with points between them. -/
def dottedPath (first : String) (more : List String) : String := ".".intercalate (first :: more)

theorem dottedPath_concat (first : String) (more : List String) (attr : String) :
    dottedPath first (more ++ [attr]) = dottedPath first more ++ "." ++ attr := by
  rw [dottedPath, ← List.cons_append,
    String.intercalate_append_of_ne_nil (List.cons_ne_nil _ _) (List.cons_ne_nil _ _),
    String.intercalate_singleton]
  rfl

/-! ## Expressions -/

namespace Expr

/-- A name and the attributes behind it. -/
def ofPath (name canonical : String) (attrs : List String) : Expr :=
  attrs.foldl .attribute (.name name canonical)

theorem ofPath_concat (name canonical : String) (attrs : List String) (attr : String) :
    ofPath name canonical (attrs ++ [attr]) = .attribute (ofPath name canonical attrs) attr :=
  List.foldl_concat ..

theorem canonicalPath?_ofPath (name canonical : String) (attrs : List String) :
    (ofPath name canonical attrs).canonicalPath? = some (dottedPath canonical attrs) := by
  induction attrs using List.reverseRecOn with
  | nil => exact congrArg some String.intercalate_singleton.symm
  | append_singleton attrs attr ih =>
      rw [ofPath_concat, canonicalPath?, ih, dottedPath_concat]
      rfl

/-- Nothing else than a path has a canonical path. -/
theorem exists_ofPath {e : Expr} {path : String} (h : e.canonicalPath? = some path) :
    ∃ name canonical attrs, e = ofPath name canonical attrs := by
  fun_induction canonicalPath? e generalizing path with
  | case1 name canonical => exact ⟨name, canonical, [], rfl⟩
  | case2 value attr ih =>
      obtain ⟨base, hbase, -⟩ := Option.map_eq_some_iff.mp h
      obtain ⟨name, canonical, attrs, rfl⟩ := ih hbase
      exact ⟨name, canonical, attrs ++ [attr], (ofPath_concat ..).symm⟩
  | case3 => exact absurd h nofun

end Expr

/-! ## Trees -/

namespace Node

/-- The tree of a dotted path. -/
def ofPath (first : String) (more : List String) : Node := more.foldl .attribute (.name first)

theorem ofPath_concat (first : String) (more : List String) (attr : String) :
    ofPath first (more ++ [attr]) = .attribute (ofPath first more) attr :=
  List.foldl_concat ..

/-- A path needs no parentheses in front of a point. -/
theorem precedence_ofPath (first : String) (more : List String) :
    (ofPath first more).precedence = Expr.atomPrecedence := by
  cases more using List.reverseRecOn with
  | nil => rfl
  | append_singleton more attr =>
      rw [ofPath_concat]
      rfl

theorem pieces_ofPath_concat (first : String) (more : List String) (attr : String) :
    (ofPath first (more ++ [attr])).pieces
      = (ofPath first more).pieces ++ [.mark .dot, .token (.ident attr)] := by
  rw [ofPath_concat, pieces, precedence_ofPath]
  rfl

/-- A path is written with points between its names. -/
theorem source_ofPath (first : String) (more : List String) :
    (ofPath first more).source = dottedPath first more := by
  induction more using List.reverseRecOn with
  | nil =>
      have hchars : (ofPath first []).pieces.flatMap Piece.chars = first.toList :=
        List.flatMap_singleton ..
      rw [source, hchars, String.ofList_toList, dottedPath, String.intercalate_singleton]
  | append_singleton more attr ih =>
      have hchars : [Piece.mark .dot, .token (.ident attr)].flatMap Piece.chars
          = ".".toList ++ attr.toList := by
        simp [Piece.chars, Piece.mark, Piece.token?, Token.chars, Mark.chars]
      rw [source, pieces_ofPath_concat, List.flatMap_append, String.ofList_append, ← source, ih,
        hchars, String.ofList_append, String.ofList_toList, String.ofList_toList,
        dottedPath_concat, String.append_assoc]

theorem tokens_ofPath_concat (first : String) (more : List String) (attr : String) :
    (ofPath first (more ++ [attr])).tokens
      = (ofPath first more).tokens ++ [.mark .dot, .ident attr] := by
  rw [tokens, pieces_ofPath_concat, Piece.tokens_append]
  rfl

section

variable {first : String} {more : List String}

/-- The tokens of a path derive it, whatever may stand between brackets. -/
theorem postfix_ofPath {inner : Nat → Language Node} :
    Postfix inner (ofPath first more).tokens (ofPath first more) := by
  induction more using List.reverseRecOn with
  | nil => exact .atom (.name first)
  | append_singleton more attr ih =>
      rw [tokens_ofPath_concat, ofPath_concat]
      exact .member attr ih

theorem lexed_ofPath (h : ∀ name ∈ first :: more, isIdentifier name = true) :
    ∀ tok ∈ (ofPath first more).tokens, tok.Lexed := by
  induction more using List.reverseRecOn with
  | nil =>
      intro tok htok
      obtain rfl := List.mem_singleton.mp htok
      exact legible_of_isIdentifier (h first List.mem_cons_self)
  | append_singleton more attr ih =>
      rw [← List.cons_append, List.forall_mem_append] at h
      have hattr : (Token.ident attr).Lexed := legible_of_isIdentifier (h.2 attr (by simp))
      rw [tokens_ofPath_concat]
      exact List.forall_mem_append.mpr
        ⟨ih h.1, List.forall_mem_cons.mpr ⟨trivial, List.forall_mem_singleton.mpr hattr⟩⟩

theorem ofPath_ne_constant {value : Constant} : ofPath first more ≠ .constant value := by
  cases more using List.reverseRecOn with
  | nil => exact nofun
  | append_singleton more attr =>
      rw [ofPath_concat]
      exact nofun

theorem not_flawed_ofPath : ¬ (ofPath first more).Flawed := by
  induction more using List.reverseRecOn with
  | nil =>
      rintro ⟨u, hu, hflaw⟩
      cases hu with
      | refl => rcases hflaw with h | h | h <;> cases h
      | child hc _ => exact absurd hc List.not_mem_nil
  | append_singleton more attr ih =>
      rw [ofPath_concat]
      rintro ⟨u, hu, hflaw⟩
      cases hu with
      | refl =>
          rcases hflaw with h | h | h
          · -- the base is a path and no integer
            generalize hbase : ofPath first more = base at h
            cases h with
            | mk value => exact ofPath_ne_constant hbase
          · cases h
          · cases h
      | child hc hu =>
          obtain rfl := List.mem_singleton.mp hc
          exact ih ⟨u, hu, hflaw⟩

/-- The text of a path of identifiers is read as its tree. -/
theorem ofSource_ofPath (h : ∀ name ∈ first :: more, isIdentifier name = true) :
    ofSource (dottedPath first more) = .ok (ofPath first more) := by
  have hderives : Derives maxNesting 0 (ofPath first more).tokens (ofPath first more) :=
    Phrase.looser (.operand postfix_ofPath) (Nat.zero_le 12)
  have hsourced : (ofPath first more).Sourced := ⟨_, lexed_ofPath h, hderives⟩
  rw [← source_ofPath]
  exact (hsourced.ofSource_iff_derives_tokens not_flawed_ofPath).mpr hderives

end

/-! ## Resolution -/

theorem resolveWithin_attribute (scope : Scope) (depth : Nat) (value : Node) (attr : String) :
    (Node.attribute value attr).resolveWithin scope (depth + 1)
      = ((value.resolveWithin scope depth).within (.attributeBase attr)).map
          fun base => Expr.attribute base attr := by
  show ((value.resolveWithin scope depth).within (.attributeBase attr) >>= _) = _
  cases (value.resolveWithin scope depth).within (.attributeBase attr) with
  | ok base => rfl
  | error e => rfl

/-- Resolution within a depth meets the attributes from the last one on. -/
theorem resolveWithin_ofPath (scope : Scope) (depth : Nat) (first : String) (more : List String) :
    (ofPath first more).resolveWithin scope depth
      = if more.length < depth then .ok (.ofPath first (scope.resolve first) more)
        else .error ⟨(more.reverse.take depth).map .attributeBase, .nestedTooDeeply⟩ := by
  induction more using List.reverseRecOn generalizing depth with
  | nil =>
      cases depth with
      | zero => rfl
      | succ depth => rfl
  | append_singleton more attr ih =>
      cases depth with
      | zero => rfl
      | succ depth =>
          -- the last attribute is at the root, so it is met first and costs a level
          have hlength : (more ++ [attr]).length < depth + 1 ↔ more.length < depth := by simp
          rw [ofPath_concat, resolveWithin_attribute, ih, List.reverse_append]
          by_cases hdeep : more.length < depth
          · rw [if_pos hdeep, if_pos (hlength.mpr hdeep), Expr.ofPath_concat]
            rfl
          · rw [if_neg hdeep, if_neg (mt hlength.mp hdeep)]
            rfl

end Node

/-- The error about a path that is too long tells the attributes that were met. -/
theorem ResolutionError.chain_attributes (attrs : List String) :
    chain ⟨attrs.map .attributeBase, .nestedTooDeeply⟩
      = attrs.map ("in base of ." ++ ·) ++ ["expression nested too deeply"] := by
  rw [chain, List.map_map]
  rfl

/-- A dotted path of identifiers is read at any length.  Its tree resolves in a scope iff it has at
    most 200 names; the expression then has the canonical path that the scope gives to the first
    name, and its text is the one that was read.  Otherwise the error tells the last 200
    attributes, the last one first.  Other expressions than paths have no canonical path. -/
theorem dottedPath_resolves {first : String} {more : List String}
    (h : ∀ name ∈ first :: more, isIdentifier name = true) :
    (∃ t, Node.ofSource (dottedPath first more) = .ok t ∧ ∀ scope : Scope,
      ((∃ e, t.resolve scope = .ok e) ↔ more.length + 1 ≤ 200)
      ∧ (∀ e, t.resolve scope = .ok e →
          e.canonicalPath? = some (dottedPath (scope.resolve first) more)
            ∧ e.source = dottedPath first more)
      ∧ ∀ error, t.resolve scope = .error error →
          error.chain = (more.reverse.take 200).map ("in base of ." ++ ·)
              ++ ["expression nested too deeply"]
            ∧ error.chain.length = 201)
    ∧ ∀ e : Expr, (∀ name canonical attrs, e ≠ .ofPath name canonical attrs) →
        e.canonicalPath? = none := by
  refine ⟨⟨.ofPath first more, Node.ofSource_ofPath h, fun scope => ?_⟩, fun e hother => ?_⟩
  · have hresolve : (Node.ofPath first more).resolve scope = _ :=
      Node.resolveWithin_ofPath scope 200 first more
    by_cases hshort : more.length < 200
    · rw [if_pos hshort] at hresolve
      have hsource := (Node.source_of_resolve hresolve).trans (Node.source_ofPath first more)
      rw [hresolve]
      refine ⟨⟨fun _ => hshort, fun _ => ⟨_, rfl⟩⟩, fun e he => ?_, nofun⟩
      obtain rfl := Except.ok.inj he
      exact ⟨Expr.canonicalPath?_ofPath .., hsource⟩
    · rw [if_neg hshort] at hresolve
      have hlength : (more.reverse.take 200).length = 200 := by
        rw [List.length_take, List.length_reverse]
        exact Nat.min_eq_left (Nat.le_of_not_lt hshort)
      rw [hresolve]
      refine ⟨⟨fun ⟨e, he⟩ => absurd he nofun, fun h => absurd h hshort⟩, nofun, ?_⟩
      intro error herror
      obtain rfl := Except.error.inj herror
      rw [ResolutionError.chain_attributes, List.length_append, List.length_map, hlength]
      exact ⟨rfl, rfl⟩
  · refine Option.eq_none_iff_forall_ne_some.mpr fun path hpath => ?_
    obtain ⟨name, canonical, attrs, he⟩ := Expr.exists_ofPath hpath
    exact hother name canonical attrs he

/-- A path whose first name is imported, and one that is too long by one name. -/
theorem dottedPath_resolves_import :
    (∀ name ∈ ["np", "linalg", "norm"], isIdentifier name = true)
      ∧ (∃ t e, Node.ofSource "np.linalg.norm" = .ok t
          ∧ t.resolve ((Scope.ofModule "pkg").withImport "np" "numpy") = .ok e
          ∧ e.canonicalPath? = some "numpy.linalg.norm")
      ∧ ∃ t, Node.ofSource (dottedPath "a" (List.replicate 200 "b")) = .ok t
          ∧ ¬ ∃ e, t.resolve (Scope.ofModule "pkg") = .ok e := by
  have hnames : ∀ name ∈ ["np", "linalg", "norm"], isIdentifier name = true := by decide +kernel
  have hmany : ∀ name ∈ "a" :: List.replicate 200 "b", isIdentifier name = true := by
    decide +kernel
  obtain ⟨⟨t, hread, hscope⟩, -⟩ := dottedPath_resolves hnames
  obtain ⟨hresolves, hpath, -⟩ := hscope ((Scope.ofModule "pkg").withImport "np" "numpy")
  obtain ⟨e, he⟩ := hresolves.mpr (by decide)
  have htext : dottedPath "np" ["linalg", "norm"] = "np.linalg.norm" := by decide +kernel
  have hcanonical : dottedPath (((Scope.ofModule "pkg").withImport "np" "numpy").resolve "np")
      ["linalg", "norm"] = "numpy.linalg.norm" := by decide +kernel
  obtain ⟨⟨u, hlong, hdeep⟩, -⟩ := dottedPath_resolves hmany
  refine ⟨hnames, ⟨t, e, htext ▸ hread, he, hcanonical ▸ (hpath e he).1⟩, u, hlong, fun hok => ?_⟩
  have hle := (hdeep (Scope.ofModule "pkg")).1.mp hok
  rw [List.length_replicate] at hle
  exact absurd hle (by decide)

end CallSite
