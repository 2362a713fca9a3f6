import CallSite.Expr

/-!
# Keyword maps — names and their values in order

A keyword map holds for each name a value, or the fact that its value is unknown.  Setting a name
again replaces the value and keeps the place.
-/

namespace CallSite

/-- Names with values, in the order in which the names came.  Whoever goes through a map meets its
    entries. -/
structure KeywordMap where
  entries : List (String × Option Expr)

namespace KeywordMap

/-- No names. -/
def empty : KeywordMap := ⟨[]⟩

/-- Whether the name is there, with a value or without. -/
def contains (m : KeywordMap) (name : String) : Bool := m.entries.any (·.1 == name)

/-- Sets the value of a name: in the first entry that has the name, else in a new one at the end. -/
def insert (m : KeywordMap) (name : String) (value : Option Expr) : KeywordMap :=
  match m.entries.findIdx? (·.1 == name) with
  | some place => ⟨m.entries.modify place fun entry => (entry.1, value)⟩
  | none => ⟨m.entries ++ [(name, value)]⟩

/-- The value of a name; there is none when the name is missing or its value is unknown. -/
def get? (m : KeywordMap) (name : String) : Option Expr := (m.entries.lookup name).join

/-- The names in order. -/
def names (m : KeywordMap) : List String := m.entries.map (·.1)

/-- How many names there are. -/
def size (m : KeywordMap) : Nat := m.entries.length

/-- Whether there are no names. -/
def isEmpty (m : KeywordMap) : Bool := m.entries.isEmpty

/-- A name that is there is set where it comes first, and a new name comes behind the others. -/
theorem entries_insert (m : KeywordMap) (name : String) (value : Option Expr) :
    (m.insert name value).entries = if name ∈ m.names
      then m.entries.set (m.names.idxOf name) (name, value)
      else m.entries ++ [(name, value)] := by
  have hnames : m.names.findIdx? (· == name) = m.entries.findIdx? (·.1 == name) := List.findIdx?_map
  rw [insert]
  cases hplace : m.entries.findIdx? (·.1 == name) with
  | none =>
      rw [hplace, List.findIdx?_eq_none_iff] at hnames
      have hnew : name ∉ m.names := fun h => by simpa using hnames name h
      rw [if_neg hnew]
  | some place =>
      rw [hplace] at hnames
      obtain ⟨hlt, hfound⟩ := List.findIdx?_eq_some_iff_findIdx_eq.mp hnames
      obtain ⟨hmem, hname, -⟩ := List.findIdx?_eq_some_iff_getElem.mp hplace
      have hidx : m.names.idxOf name = place := hfound
      rw [if_pos (List.idxOf_lt_length_iff.mp (hidx ▸ hlt)), hidx]
      -- the entry keeps its name, which is the one that was looked for
      show m.entries.modify place (fun entry => (entry.1, value)) = _
      rw [List.modify_eq_set, List.getElem?_eq_getElem hmem, Option.getD_some, beq_iff_eq.mp hname]

end KeywordMap

end CallSite
