import Mathlib
import CallSite.Proofs.Inquiry

/-!
# Insertions — what a keyword map shows after whatever was set in it

A keyword map is a list of entries, and nothing in its type keeps a name from being there twice.
What keeps names distinct is how maps come about: they are empty at first or extracted from a call,
and then names are set in them (`KeywordMap.Reached`).  One more insertion makes of the map of some
insertions the map of one insertion more (`KeywordMap.insert_ofAnswers`), and so a map that is
reached is the map of everything that was ever set in it (`KeywordMap.Reached.eq_ofAnswers`).

All that can be seen of a map follows from there (`KeywordMap.Ordered`).  Its entries say which
names were set, which of them came first, and what was set last for each.  The other questions that
a map answers stop at the first entry of a name, and they agree with the entries because there is no
other.  An insertion touches one entry in any map (`KeywordMap.entries_insert`), so the entries of
other names stay where they are (`KeywordMap.getElem?_insert`).
-/

namespace CallSite

namespace KeywordMap

/-- The maps that can be come by, each with all that was ever set in it, in order. -/
inductive Reached : List (String × Option Expr) → KeywordMap → Prop where
  /-- In the empty map nothing is set. -/
  | empty : Reached [] .empty
  /-- In the map of a call each argument with a name is set to the answer for its value, in order.
      The resolver, of which `Node.resolve?` is one, and whoever takes the messages may read and
      change a state. -/
  | extracted {σ : Type} (note : Message → StateM σ Unit)
      (resolver : Node → Scope → StateM σ (Option Expr)) (call : Call Node) (scope : Scope) (s : σ) :
      Reached
        (answered call.keywords
          ((call.keywords.mapM (Keyword.inquire note resolver scope)).run s).1)
        ((call.keywordMapWith note resolver scope).run s).1
  /-- A name is set, to a value or to none. -/
  | insert {given : List (String × Option Expr)} {map : KeywordMap} (h : Reached given map)
      (name : String) (value : Option Expr) :
      Reached (given ++ [(name, value)]) (map.insert name value)

/-- What was set last for a name. -/
def LastSet (given : List (String × Option Expr)) (name : String) (value : Option Expr) : Prop :=
  ∃ before behind, given = before ++ (name, value) :: behind ∧ name ∉ behind.map Prod.fst

/-- A map shows what was set in it: going through it meets each name that was set, in the order in
    which the names were set first, with what was set last for it.  Whatever else a map is asked
    agrees with its entries. -/
structure Ordered (given : List (String × Option Expr)) (map : KeywordMap) : Prop where
  nodup : map.names.Nodup
  /-- Of two names, the one that was set first comes first. -/
  order : map.names.Pairwise fun name other =>
    (given.map Prod.fst).idxOf name < (given.map Prod.fst).idxOf other
  /-- The names that are there are those that were set, with what was set last. -/
  mem_entries : ∀ name value, (name, value) ∈ map.entries ↔ LastSet given name value
  names_eq : map.names = map.entries.map Prod.fst
  contains_iff : ∀ name, map.contains name = true ↔ ∃ value, (name, value) ∈ map.entries
  /-- A value is found where there is one; a name without a value gives none. -/
  get?_iff : ∀ name e, map.get? name = some e ↔ (name, some e) ∈ map.entries
  size_eq : map.size = map.entries.length
  isEmpty_iff : map.isEmpty = true ↔ map.entries = []

/-! ## Look-ups -/

/-- When no name is there twice, the first entry of a name is its only one. -/
theorem lookup_entries_iff {map : KeywordMap} (hnodup : map.names.Nodup) {name : String}
    {value : Option Expr} :
    map.entries.lookup name = some value ↔ (name, value) ∈ map.entries := by
  rw [List.lookup_eq_some_iff]
  constructor
  · rintro ⟨before, behind, heq, -⟩
    rw [heq]
    exact List.mem_append_right _ List.mem_cons_self
  · intro h
    obtain ⟨before, behind, heq⟩ := List.append_of_mem h
    refine ⟨before, behind, heq, fun entry hentry => bne_iff_ne.mpr ?_⟩
    rintro rfl
    rw [names, heq, List.map_append] at hnodup
    exact List.disjoint_of_nodup_append hnodup (List.mem_map_of_mem hentry) List.mem_cons_self

/-! ## The map of everything that was set -/

/-- From the back, what was set last is met first. -/
theorem lastSet_iff {given : List (String × Option Expr)} {name : String} {value : Option Expr} :
    LastSet given name value ↔ given.reverse.lookup name = some value := by
  rw [List.lookup_eq_some_iff]
  constructor
  · rintro ⟨before, behind, rfl, hbehind⟩
    refine ⟨behind.reverse, before.reverse, by simp, fun entry hentry => bne_iff_ne.mpr ?_⟩
    rintro rfl
    exact hbehind (List.mem_map_of_mem (List.mem_reverse.mp hentry))
  · rintro ⟨behind, before, heq, hbehind⟩
    refine ⟨before.reverse, behind.reverse, ?_, ?_⟩
    · rw [← List.reverse_reverse given, heq]
      simp
    · rw [List.mem_map]
      rintro ⟨entry, hentry, rfl⟩
      exact bne_iff_ne.mp (hbehind entry (List.mem_reverse.mp hentry)) rfl

/-- A name that was set is there with what was set for it last. -/
theorem mem_entries_ofAnswers {given : List (String × Option Expr)} {name : String}
    {value : Option Expr} :
    (name, value) ∈ (ofAnswers given).entries ↔ LastSet given name value := by
  rw [lastSet_iff, ofAnswers, List.mem_map]
  constructor
  · rintro ⟨other, hother, heq⟩
    obtain ⟨rfl, rfl⟩ := Prod.mk.inj heq
    -- a name that was set was set for the last time
    obtain ⟨entry, hentry, rfl⟩ := List.mem_map.mp (List.mem_eraseDups.mp hother)
    have hfound : (given.reverse.lookup entry.1).isSome = true :=
      List.lookup_isSome_iff.mpr ⟨entry, List.mem_reverse.mpr hentry, beq_self_eq_true entry.1⟩
    obtain ⟨last, hlast⟩ := Option.isSome_iff_exists.mp hfound
    rw [latest, hlast]
    rfl
  · intro h
    obtain ⟨before, behind, rfl, -⟩ := lastSet_iff.mpr h
    refine ⟨name, List.mem_eraseDups.mpr ?_, ?_⟩
    · rw [List.map_append]
      exact List.mem_append_right _ List.mem_cons_self
    · rw [latest, h]
      rfl

/-- Every question to the map of some insertions can be answered from the insertions. -/
theorem ordered_ofAnswers (given : List (String × Option Expr)) : Ordered given (ofAnswers given) := by
  have hnames := names_ofAnswers given
  have hnodup : (ofAnswers given).names.Nodup := hnames ▸ nodup_eraseDups _
  refine ⟨hnodup, hnames ▸ pairwise_idxOf_eraseDups _, fun _ _ => mem_entries_ofAnswers, rfl, ?_, ?_,
    rfl, List.isEmpty_iff⟩
  · intro name
    rw [contains, List.any_eq_true]
    constructor
    · rintro ⟨⟨other, value⟩, hentry, hname⟩
      obtain rfl : other = name := beq_iff_eq.mp hname
      exact ⟨value, hentry⟩
    · rintro ⟨value, hentry⟩
      exact ⟨(name, value), hentry, beq_self_eq_true name⟩
  · intro name e
    rw [get?, Option.join_eq_some_iff]
    exact lookup_entries_iff hnodup

/-! ## Insertions -/

theorem getElem?_names {map : KeywordMap} {place : Nat} {name : String} :
    map.names[place]? = some name ↔ ∃ entry, map.entries[place]? = some entry ∧ entry.1 = name := by
  rw [names, List.getElem?_map, Option.map_eq_some_iff]

/-- The entries of other names stay where they are, and no others come. -/
theorem getElem?_insert {map : KeywordMap} {name : String} (value : Option Expr) (place : Nat)
    {entry : String × Option Expr} (hne : entry.1 ≠ name) :
    (map.insert name value).entries[place]? = some entry ↔ map.entries[place]? = some entry := by
  -- what is set is not the entry of another name
  have hset : ¬ some (name, value) = some entry := by
    rintro ⟨⟩
    exact hne rfl
  rw [entries_insert]
  by_cases h : name ∈ map.names
  · rw [if_pos h, List.getElem?_set]
    split
    · rename_i hplace
      obtain ⟨old, hold, hname⟩ := getElem?_names.mp (List.getElem?_idxOf h)
      rw [← hplace, hold, if_pos (List.getElem?_eq_some_iff.mp hold).1]
      refine iff_of_false hset ?_
      rintro ⟨⟩
      exact hne hname
    · rfl
  · rw [if_neg h, List.getElem?_append]
    split
    · rfl
    · rename_i hplace
      rw [List.getElem?_eq_none (Nat.le_of_not_lt hplace), List.getElem?_singleton]
      split
      · exact iff_of_false hset nofun
      · rfl

/-! ## Maps that are reached -/

namespace Reached

variable {given : List (String × Option Expr)} {map : KeywordMap}

/-- A map that is reached is the map of everything that was set in it. -/
theorem eq_ofAnswers (h : Reached given map) : map = ofAnswers given := by
  induction h with
  | empty => rfl
  | extracted note resolver call scope s =>
      show ((call.keywords.foldlM (Call.addKeyword note resolver scope) (.ofAnswers [])).run s).1 = _
      rw [Call.foldlM_addKeyword_eq]
      rfl
  | insert _ name value ih =>
      rw [ih]
      exact insert_ofAnswers _ name value

/-- What is seen of a map that is reached is what was set in it, each name in the place where it was
    set first and with what was set for it last.  One more insertion sets the name in its place, or
    comes behind the others if the name is new, and no entry of another name moves or changes. -/
theorem ordered (h : Reached given map) :
    Ordered given map
      ∧ ∀ (name : String) (value : Option Expr),
        (map.insert name value).entries = (if name ∈ map.names
          then map.entries.set (map.names.idxOf name) (name, value)
          else map.entries ++ [(name, value)])
        ∧ ∀ (place : Nat) (entry : String × Option Expr), entry.1 ≠ name →
          ((map.insert name value).entries[place]? = some entry
            ↔ map.entries[place]? = some entry) := by
  have hordered : Ordered given map := by
    rw [h.eq_ofAnswers]
    exact ordered_ofAnswers given
  refine ⟨hordered, fun name value => ⟨entries_insert map name value, ?_⟩⟩
  intro place entry hne
  exact getElem?_insert value place hne

/-- A value gives way to none and none to a value, behind a resolver that answers once only. -/
theorem ordered_overwritten :
    let call : Call Node := ⟨.name "f", [], [.named "k" (.name "a"), .named "l" (.name "b")]⟩
    let resolver : Node → Scope → StateM Nat (Option Expr) := fun _ _ => do
      let asked ← getModify (· + 1)
      return if asked = 0 then some (.name "a" "m.a") else none
    let extracted := ((call.keywordMapWith (fun _ => pure ()) resolver (.ofModule "m")).run 0).1
    let map := (extracted.insert "k" none).insert "l" (some (.name "c" "m.c"))
    extracted.entries = [("k", some (.name "a" "m.a")), ("l", none)]
      ∧ map.names.Nodup ∧ ("k", none) ∈ map.entries ∧ map.contains "k" = true
      ∧ map.get? "l" = some (.name "c" "m.c")
      ∧ (map.insert "n" none).entries[1]? = some ("l", some (.name "c" "m.c")) := by
  intro call resolver extracted map
  have hextracted : Reached [("k", some (.name "a" "m.a")), ("l", none)] extracted :=
    .extracted (fun _ => pure ()) resolver call (.ofModule "m") 0
  have hmap := (hextracted.insert "k" none).insert "l" (some (.name "c" "m.c"))
  obtain ⟨hordered, hinsert⟩ := ordered hmap
  have hk : ("k", none) ∈ map.entries :=
    (hordered.mem_entries _ _).mpr ⟨[("k", some (.name "a" "m.a")), ("l", none)],
      [("l", some (.name "c" "m.c"))], rfl, by decide⟩
  have hl : ("l", some (.name "c" "m.c")) ∈ map.entries :=
    (hordered.mem_entries _ _).mpr ⟨[("k", some (.name "a" "m.a")), ("l", none), ("k", none)],
      [], rfl, by decide⟩
  refine ⟨rfl, hordered.nodup, hk, (hordered.contains_iff "k").mpr ⟨none, hk⟩,
    (hordered.get?_iff _ _).mpr hl, ?_⟩
  exact ((hinsert "n" none).2 1 _ (by decide)).mpr rfl

end Reached

end KeywordMap

end CallSite
