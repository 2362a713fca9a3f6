import CallSite.Proofs.Logging.Run

/-!
# Failures — what a replacement leaves behind when its factory fails

A look-up builds the new backend before it touches the registry, so a failure there changes nothing
(`Registry.registry_of_get_error`).  A replacement binds the handles one by one and fails in
between.  The factory and the names stay, but the handles in front of the first name that the new
factory fails for are bound by the new factory, and the others stay as they were
(`Registry.patch_of_failing`).
-/

namespace CallSite

namespace Registry

variable {β : Type}

/-- A look-up that fails leaves the registry as it was. -/
theorem registry_of_get_error {r : Registry β} {name failure : String}
    (h : (r.get name).result = .error failure) : (r.get name).registry = r := by
  rcases r.get_cases name with ⟨_, _, heq⟩ | ⟨_, ⟨_, _, _, heq⟩ | ⟨_, _, _, heq⟩⟩
  · rw [heq]
  · rw [heq] at h
    exact absurd h nofun
  · rw [heq]

/-- Rebound handles stand at the places of the handles that they were. -/
theorem getElem?_of_rebinds {factory : Factory β} {hs hs' : List (Handle β)}
    (h : List.Forall₂ factory.Rebinds hs hs') {place : Nat} (hplace : place < hs.length) :
    ∃ g b, hs[place]? = some g ∧ (factory g.name).result = .ok b
      ∧ hs'[place]? = some (g.rebind b) := by
  induction h generalizing place with
  | nil => exact absurd hplace (Nat.not_lt_zero place)
  | @cons g g' _ _ hfirst _ ih =>
      cases place with
      | zero =>
          obtain ⟨b, hb, rfl⟩ := hfirst
          exact ⟨g, b, rfl, hb, rfl⟩
      | succ place => exact ih (Nat.lt_of_succ_lt_succ hplace)

/-- Handles are rebound only by a factory that makes a backend for every one of their names. -/
theorem isOk_of_rebinds {factory : Factory β} {hs hs' : List (Handle β)}
    (h : List.Forall₂ factory.Rebinds hs hs') {g : Handle β} (hg : g ∈ hs) :
    (factory g.name).result.isOk = true := by
  obtain ⟨place, hlt, rfl⟩ := List.getElem_of_mem hg
  obtain ⟨g, b, hplace, hb, -⟩ := getElem?_of_rebinds h hlt
  obtain ⟨_, rfl⟩ := List.getElem?_eq_some_iff.mp hplace
  rw [hb]
  rfl

/-- A replacement whose factory fails for a name of the registry fails at the first such name.  The
    factory and the names are kept.  The handles in front of that name are bound anew, and that name
    and those behind it are as they were.  So the registry is as it was if and only if that name is
    the first of all. -/
theorem patch_of_failing {start factory : Factory β} {requests : List (Request β)} {name : String}
    (hname : name ∈ ((ofFactory start).serveAll requests).names)
    (hfails : (factory name).result.isOk = false) :
    let r := (ofFactory start).serveAll requests
    let o := r.patch factory
    o.registry.factory = r.factory ∧ o.registry.names = r.names
      ∧ ∃ k h failure, r.handles[k]? = some h ∧ (factory h.name).result = .error failure
        ∧ o.result = .error failure
        ∧ (∀ place < k, ∃ g b, r.handles[place]? = some g ∧ (factory g.name).result = .ok b
          ∧ o.registry.handles[place]? = some (g.rebind b))
        ∧ (∀ place, k ≤ place → o.registry.handles[place]? = r.handles[place]?)
        ∧ (o.registry = r ↔ k = 0) := by
  intro r o
  obtain ⟨g, hg, rfl⟩ := List.mem_map.mp hname
  rcases r.patch_cases factory with
    ⟨hs, hbound, heq⟩ | ⟨bound, h, more, bound', failure, hsplit, hbound, hfailure, heq⟩
  · -- the new factory would have made a backend for every name
    exact absurd (hfails.symm.trans (isOk_of_rebinds hbound hg)) (by decide)
  · have hlength := hbound.length_eq
    have hfront {place : Nat} (hplace : place < bound.length) : ∃ g b, r.handles[place]? = some g
        ∧ (factory g.name).result = .ok b ∧ o.registry.handles[place]? = some (g.rebind b) := by
      obtain ⟨g, b, hold, hb, hnew⟩ := getElem?_of_rebinds hbound hplace
      refine ⟨g, b, ?_, hb, ?_⟩
      · rw [hsplit, List.getElem?_append_left hplace, hold]
      · rw [show o = _ from heq, List.getElem?_append_left (hlength ▸ hplace), hnew]
    refine ⟨by rw [show o = _ from heq], r.names_patch factory, bound.length, h, failure, ?_,
      hfailure, ?_, fun _ => hfront, ?_, ?_⟩
    · rw [hsplit, List.getElem?_append_right (Nat.le_refl _), Nat.sub_self]
      rfl
    · rw [show o = _ from heq]
    · intro place hplace
      rw [show o = _ from heq, hsplit, List.getElem?_append_right hplace,
        List.getElem?_append_right (hlength ▸ hplace), hlength]
    · constructor
      · -- a handle that is bound anew shows it
        intro hsame
        refine Nat.eq_zero_of_not_pos fun hpos => ?_
        obtain ⟨g, b, hold, -, hnew⟩ := hfront hpos
        rw [hsame, hold] at hnew
        exact absurd (congrArg Handle.revision (Option.some.inj hnew)) (Nat.succ_ne_self _).symm
      · intro hempty
        obtain rfl := List.eq_nil_of_length_eq_zero hempty
        obtain rfl := List.eq_nil_of_length_eq_zero hlength.symm
        rw [show o = _ from heq, ← hsplit]

/-- A factory that fails for the second of two names binds the first one anew. -/
theorem patch_of_failing_second :
    let old : Factory Backend := fun name => ⟨[name], .ok (.recorder ("old:" ++ name) .trace)⟩
    let new : Factory Backend := fun name =>
      ⟨[name], if name = "b" then .error "refused" else .ok (.recorder ("new:" ++ name) .trace)⟩
    let r := (ofFactory old).serveAll [.get "a", .get "b"]
    "b" ∈ r.names ∧ (new "b").result.isOk = false
      ∧ (r.patch new).registry.names = ["a", "b"] ∧ (r.patch new).registry ≠ r := by
  intro old new r
  have hname : "b" ∈ r.names := List.mem_cons_of_mem _ List.mem_cons_self
  obtain ⟨-, hnames, k, h, failure, hplace, hfails, -, -, -, hsame⟩ := patch_of_failing hname
    (rfl : (new "b").result.isOk = false)
  refine ⟨hname, rfl, hnames, fun heq => ?_⟩
  -- the first name is none that the factory fails for
  obtain rfl := hsame.mp heq
  obtain rfl : (⟨"a", .recorder "old:a" .trace, 0⟩ : Handle Backend) = h := Option.some.inj hplace
  exact absurd hfails nofun

/-- It does not hold that a replacement which fails leaves all handles with their backends: of the
    handles for "a" and "b" the first one logs to the new backend when the factory fails for "b". -/
theorem not_patch_atomic :
    ¬ ∀ (start factory : Factory Backend) (requests : List (Request Backend)) (name : String),
      name ∈ ((ofFactory start).serveAll requests).names → (factory name).result.isOk = false →
        ∀ place, (((ofFactory start).serveAll requests).patch factory).registry.backend? place
          = ((ofFactory start).serveAll requests).backend? place := by
  intro h
  have := h (fun name => ⟨[name], .ok (.recorder ("old:" ++ name) .trace)⟩)
    (fun name =>
      ⟨[name], if name = "b" then .error "refused" else .ok (.recorder ("new:" ++ name) .trace)⟩)
    [.get "a", .get "b"] "b" (List.mem_cons_of_mem _ List.mem_cons_self) rfl 0
  have : some (Backend.recorder "new:a" .trace) = some (.recorder "old:a" .trace) := this
  exact absurd this (by decide)

end Registry

end CallSite
