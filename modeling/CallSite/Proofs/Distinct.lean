import Mathlib.Data.List.Basic
import Mathlib.Data.List.Induction

/-!
# Distinct names — the names of a list, each where it comes first

Whoever keeps a table of names adds a name at the end when it is new.  So the names of a table are
`List.eraseDups` of all names that came, which is put together name by name (`eraseDups_concat`) and
has the names in the order in which they came first (`pairwise_idxOf_eraseDups`).
-/

namespace CallSite

/-- One more name comes behind the others if it is new. -/
theorem eraseDups_concat (names : List String) (name : String) :
    (names ++ [name]).eraseDups = names.eraseDups ++ if name ∈ names then [] else [name] := by
  rw [List.eraseDups_append]
  by_cases h : name ∈ names
  · simp [List.removeAll, h]
  · simp [List.removeAll, h, List.eraseDups_cons]

/-- Of two names that are kept, the first is the one that came first. -/
theorem pairwise_idxOf_eraseDups (names : List String) :
    names.eraseDups.Pairwise fun name other => names.idxOf name < names.idxOf other := by
  -- from the end of the list, since a name's first place does not depend on what comes behind it
  induction names using List.reverseRecOn with
  | nil => exact List.Pairwise.nil
  | append_singleton names last ih =>
      rw [eraseDups_concat]
      refine List.pairwise_append.mpr ⟨?_, ?_, ?_⟩
      · refine ih.imp_of_mem fun hname hother hlt => ?_
        rw [List.idxOf_append_of_mem (List.mem_eraseDups.mp hname),
          List.idxOf_append_of_mem (List.mem_eraseDups.mp hother)]
        exact hlt
      · split
        · exact List.Pairwise.nil
        · exact List.pairwise_singleton _ _
      · intro name hname other hother
        have hname := List.mem_eraseDups.mp hname
        split at hother
        · exact absurd hother List.not_mem_nil
        · rename_i hnew
          obtain rfl := List.mem_singleton.mp hother
          rw [List.idxOf_append_of_mem hname, List.idxOf_append_of_notMem hnew]
          exact Nat.lt_add_right _ (List.idxOf_lt_length_of_mem hname)

/-- No name is kept twice. -/
theorem nodup_eraseDups (names : List String) : names.eraseDups.Nodup :=
  (pairwise_idxOf_eraseDups names).imp fun hlt => ne_of_apply_ne names.idxOf (Nat.ne_of_lt hlt)

end CallSite
