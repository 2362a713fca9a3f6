import CallSite.Proofs.Distinct
import CallSite.Proofs.Logging.Run

/-!
# The table of names — what a registry is for those who ask

To those who ask, a registry is a table of names to which names are only ever added: a name comes to
the table when a look-up of it is granted for the first time, and its place there is that of its
handle (`Registry.RefinesTable`).  This holds after whatever has happened to the registry, also when
factories have failed in between, since a factory is asked before the table is touched.

Factories need not be functions.  One that keeps a state is a function between the changes of that
state, as it is asked for a name once at most by every request, so its changes are events of their
own (`Event.drift`).  What it is asked shows in the calls of an outcome: they are the calls of the
builds that it made, in their order.
-/

namespace CallSite

/-- What happens to a registry: a request, or its factory begins to act differently. -/
inductive Event (β : Type) where
  | request (request : Request β)
  | drift (factory : Factory β)

namespace Registry

variable {β : Type}

/-- The registry behind an event. -/
def undergo (r : Registry β) : Event β → Registry β
  | .request request => r.serve request
  | .drift factory => ⟨factory, r.handles, r.index⟩

/-- The registry behind some events. -/
def undergoAll (r : Registry β) (events : List (Event β)) : Registry β := events.foldl undergo r

/-- The name that an event is a granted look-up of. -/
def grantedBy (r : Registry β) : Event β → List String
  | .request (.get name) => if (r.get name).result.isOk then [name] else []
  | .request (.patch _) | .drift _ => []

/-- The names of the look-ups that are granted, in their order. -/
def granted (r : Registry β) : List (Event β) → List String
  | [] => []
  | event :: more => r.grantedBy event ++ (r.undergo event).granted more

/-- Some look-up of a name is granted and comes to a place. -/
inductive HandedOut : Registry β → List (Event β) → String → Nat → Prop where
  | here {r : Registry β} {name : String} {place : Nat} {more : List (Event β)}
      (h : (r.get name).result = .ok place) :
      HandedOut r (.request (.get name) :: more) name place
  | later {r : Registry β} {event : Event β} {name : String} {place : Nat} {more : List (Event β)}
      (h : HandedOut (r.undergo event) more name place) : HandedOut r (event :: more) name place

/-! ## Events -/

namespace Indexed

variable {r : Registry β}

/-- An event keeps the index right. -/
theorem undergo (hr : r.Indexed) (event : Event β) : (r.undergo event).Indexed := by
  cases event with
  | request request => exact hr.serve request
  | drift factory => exact hr.of_eq rfl rfl

/-- Behind some events the index is right, and the names are at their places. -/
theorem undergoAll (hr : r.Indexed) (events : List (Event β)) :
    (r.undergoAll events).Indexed ∧ r.names <+: (r.undergoAll events).names := by
  refine hr.foldl (fun r event h => ⟨h.undergo event, ?_⟩) events
  cases event with
  | request request => exact h.prefix_serve request
  | drift factory => exact List.prefix_rfl

/-- The name of a granted look-up comes behind the others if it is new, and nothing else changes the
    names. -/
theorem names_undergo (hr : r.Indexed) (event : Event β) :
    (r.grantedBy event = [] ∧ (r.undergo event).names = r.names)
    ∨ ∃ name, r.grantedBy event = [name]
      ∧ (r.undergo event).names = if name ∈ r.names then r.names else r.names ++ [name] := by
  match event with
  | .request (.get name) =>
      rw [grantedBy, Registry.undergo, Registry.serve]
      rcases hr.get_cases name with ⟨place, hname, heq⟩ | ⟨hnew, ⟨_, b, _, heq⟩ | ⟨_, _, _, heq⟩⟩
      · rw [heq]
        exact .inr ⟨name, rfl, (if_pos (List.mem_of_getElem? hname)).symm⟩
      · rw [heq]
        exact .inr ⟨name, rfl, (r.names_register name b).trans (if_neg hnew).symm⟩
      · -- the factory has failed, so the look-up is not granted
        rw [heq]
        exact .inl ⟨rfl, rfl⟩
  | .request (.patch factory) => exact .inl ⟨rfl, r.names_patch factory⟩
  | .drift _ => exact .inl ⟨rfl, rfl⟩

/-- The names are those of the granted look-ups, each where it came first. -/
theorem names_undergoAll (hr : r.Indexed) {before : List String}
    (hnames : r.names = before.eraseDups) (events : List (Event β)) :
    (r.undergoAll events).names = (before ++ r.granted events).eraseDups := by
  -- on the events, with the names that were granted before them in front
  induction events generalizing r before with
  | nil => exact hnames.trans (congrArg List.eraseDups (List.append_nil before).symm)
  | cons event more ih =>
      rw [granted, ← List.append_assoc]
      refine ih (hr.undergo event) ?_
      rcases hr.names_undergo event with ⟨hnone, heq⟩ | ⟨name, hone, heq⟩
      · rw [hnone, heq, List.append_nil, hnames]
      · rw [hone, heq, hnames, eraseDups_concat]
        simp only [List.mem_eraseDups]
        split
        · exact (List.append_nil _).symm
        · rfl

/-- Where a name was handed out it stands ever after. -/
theorem names_of_handedOut (hr : r.Indexed) {events : List (Event β)} {name : String} {place : Nat}
    (h : HandedOut r events name place) : (r.undergoAll events).names[place]? = some name := by
  induction h with
  | @here r name place more h =>
      -- it is put there by the look-up itself, and what comes later keeps it
      have hname := hr.names_of_get h
      obtain ⟨hlt, heq⟩ := List.getElem?_eq_some_iff.mp hname
      obtain ⟨-, hkept⟩ := (hr.undergo (.request (.get name))).undergoAll more
      exact (List.prefix_iff_getElem?.mp hkept place hlt).trans (congrArg some heq)
  | @later r event name place more _ ih => exact ih (hr.undergo event)

end Indexed

/-- A granted look-up comes to a place. -/
theorem exists_handedOut {r : Registry β} {events : List (Event β)} {name : String}
    (h : name ∈ r.granted events) : ∃ place, HandedOut r events name place := by
  induction events generalizing r with
  | nil => exact absurd h List.not_mem_nil
  | cons event more ih =>
      rcases List.mem_append.mp h with h | h
      · match event, h with
        | .request (.get name'), h =>
            rw [grantedBy] at h
            cases hresult : (r.get name').result with
            | ok place =>
                rw [hresult] at h
                obtain rfl := List.mem_singleton.mp h
                exact ⟨place, .here hresult⟩
            | error failure =>
                rw [hresult] at h
                exact absurd h List.not_mem_nil
        | .request (.patch _), h | .drift _, h => exact absurd h List.not_mem_nil
      · obtain ⟨place, hplace⟩ := ih h
        exact ⟨place, .later hplace⟩

/-! ## The table -/

/-- A registry is the table of the names that look-ups in some events were granted for, and goes on
    to be one, whatever its factory does. -/
structure RefinesTable (start : Factory β) (events : List (Event β)) (r : Registry β) : Prop where
  /-- The names are those that were granted, each where it came first. -/
  names_eq : r.names = ((ofFactory start).granted events).eraseDups
  nodup : r.names.Nodup
  size_eq : r.size = r.names.length
  isEmpty_eq : r.isEmpty = r.names.isEmpty
  /-- The names are those that were handed out. -/
  mem_names : ∀ name, name ∈ r.names ↔ ∃ place, HandedOut (ofFactory start) events name place
  /-- A name that was handed out is found where it was, and no factory is asked. -/
  get_known : ∀ name place, HandedOut (ofFactory start) events name place →
    r.get name = ⟨r, [], .ok place⟩ ∧ ∃ h, r.handle? place = some h ∧ h.name = name
  /-- Places are the same for the same names only. -/
  place_iff : ∀ name place name' place', HandedOut (ofFactory start) events name place →
    HandedOut (ofFactory start) events name' place' → (place = place' ↔ name = name')
  /-- For a new name the factory is asked once.  The name comes behind the others, or nothing
      changes if the factory fails. -/
  get_new : ∀ name, name ∉ r.names → (r.get name).calls = (r.factory name).calls
    ∧ (r.get name).registry.factory = r.factory
    ∧ (∀ b, (r.factory name).result = .ok b → (r.get name).result = .ok r.size
      ∧ (r.get name).registry.names = r.names ++ [name])
    ∧ ∀ failure, (r.factory name).result = .error failure →
      (r.get name).result = .error failure ∧ (r.get name).registry = r
  /-- A replacement keeps the names and their places. -/
  patch_keeps : ∀ factory, (r.patch factory).registry.names = r.names
    ∧ ∀ name place, HandedOut (ofFactory start) events name place →
      (r.patch factory).registry.get name = ⟨(r.patch factory).registry, [], .ok place⟩
  /-- A replacement that comes to its end has asked the new factory once for each name in order. -/
  patch_ok : ∀ factory, (r.patch factory).result = .ok () →
    (r.patch factory).calls = r.names.flatMap (fun name => (factory name).calls)
      ∧ (r.patch factory).registry.factory = factory
  /-- A replacement that fails keeps the factory. -/
  patch_error : ∀ factory failure, (r.patch factory).result = .error failure →
    (r.patch factory).registry.factory = r.factory

/-- Where a name stands is a handle of that name. -/
theorem handle?_of_names {r : Registry β} {name : String} {place : Nat}
    (h : r.names[place]? = some name) : ∃ g, r.handle? place = some g ∧ g.name = name := by
  rw [names, List.getElem?_map] at h
  exact Option.map_eq_some_iff.mp h

namespace Indexed

variable {r : Registry β} {name : String}

/-- A name stands at one place. -/
theorem place_iff (hr : r.Indexed) {place place' : Nat} {name' : String}
    (h : r.names[place]? = some name) (h' : r.names[place']? = some name') :
    place = place' ↔ name = name' := by
  constructor
  · rintro rfl
    exact Option.some.inj (h.symm.trans h')
  · rintro rfl
    have hfind := (hr name place).mpr h
    have hfind' := (hr name place').mpr h'
    exact Option.some.inj (hfind.symm.trans hfind')

theorem get_new (hr : r.Indexed) (hnew : name ∉ r.names) :
    (r.get name).calls = (r.factory name).calls ∧ (r.get name).registry.factory = r.factory
    ∧ (∀ b, (r.factory name).result = .ok b → (r.get name).result = .ok r.size
      ∧ (r.get name).registry.names = r.names ++ [name])
    ∧ ∀ failure, (r.factory name).result = .error failure →
      (r.get name).result = .error failure ∧ (r.get name).registry = r := by
  rcases hr.get_cases name with
    ⟨place, hname, -⟩ | ⟨-, ⟨calls, b, hbuild, heq⟩ | ⟨calls, failure, hbuild, heq⟩⟩
  · exact absurd (List.mem_of_getElem? hname) hnew
  · rw [heq, hbuild]
    refine ⟨rfl, rfl, ?_, nofun⟩
    intro _ _
    exact ⟨rfl, r.names_register name b⟩
  · rw [heq, hbuild]
    refine ⟨rfl, rfl, nofun, ?_⟩
    intro _ hfailure
    cases hfailure
    exact ⟨rfl, rfl⟩

end Indexed

theorem patch_ok {r : Registry β} {factory : Factory β} (h : (r.patch factory).result = .ok ()) :
    (r.patch factory).calls = r.names.flatMap (fun name => (factory name).calls)
      ∧ (r.patch factory).registry.factory = factory := by
  rcases r.patch_cases factory with ⟨_, _, heq⟩ | ⟨_, _, _, _, _, _, _, _, heq⟩
  · rw [heq, names, List.flatMap_map]
    exact ⟨rfl, rfl⟩
  · rw [heq] at h
    cases h

theorem patch_error {r : Registry β} {factory : Factory β} {failure : String}
    (h : (r.patch factory).result = .error failure) :
    (r.patch factory).registry.factory = r.factory := by
  rcases r.patch_cases factory with ⟨_, _, heq⟩ | ⟨_, _, _, _, _, _, _, _, heq⟩
  · rw [heq] at h
    cases h
  · rw [heq]

/-- Whatever happens to a registry, it is a table of names. -/
theorem refinesTable_undergoAll (start : Factory β) (events : List (Event β)) :
    RefinesTable start events ((ofFactory start).undergoAll events) := by
  have hstart := indexed_ofFactory start
  obtain ⟨hr, -⟩ := hstart.undergoAll events
  have hnames := @Indexed.names_undergoAll β _ hstart [] rfl events
  have hplace {name : String} {place : Nat} (h : HandedOut (ofFactory start) events name place) :=
    hstart.names_of_handedOut h
  -- how the registry came about does not matter from here on
  generalize (ofFactory start).undergoAll events = r at hr hnames hplace
  refine ⟨hnames, hr.nodup_names, r.length_names.symm, List.isEmpty_map.symm, ?_, ?_, ?_,
    fun name => hr.get_new, ?_, fun factory => patch_ok, fun factory failure => patch_error⟩
  · intro name
    constructor
    · intro hname
      rw [hnames, List.mem_eraseDups] at hname
      exact exists_handedOut hname
    · rintro ⟨place, h⟩
      exact List.mem_of_getElem? (hplace h)
  · intro name place h
    exact ⟨hr.get_of_names (hplace h), handle?_of_names (hplace h)⟩
  · intro name place name' place' h h'
    exact hr.place_iff (hplace h) (hplace h')
  · intro factory
    have hkept := r.names_patch factory
    refine ⟨hkept, ?_⟩
    intro name place h
    -- the index is still right, and the name still at its place
    have hpatched : (r.patch factory).registry.Indexed := hr.serve (.patch factory)
    exact hpatched.get_of_names (hkept ▸ hplace h)

/-- A name that the factory refused at first comes behind one that it did not, and both keep their
    places when a replacement refuses it again. -/
theorem refinesTable_undergoAll_refused :
    let refusing : Factory Backend := fun name =>
      ⟨[name], if name = "a" then .error "refused" else .ok (.recorder name .trace)⟩
    let willing : Factory Backend := fun name => ⟨[name], .ok (.recorder name .trace)⟩
    let events : List (Event Backend) := [.request (.get "a"), .drift willing,
      .request (.get "b"), .request (.get "a"), .request (.patch refusing)]
    let r := (ofFactory refusing).undergoAll events
    r.names = ["b", "a"] ∧ r.get "a" = ⟨r, [], .ok 1⟩ ∧ (r.get "c").calls = ["c"]
      ∧ (r.patch willing).calls = ["b", "a"] ∧ (r.patch refusing).registry.factory = r.factory := by
  intro refusing willing events r
  have htable := refinesTable_undergoAll refusing events
  have hhanded : HandedOut (ofFactory refusing) events "a" 1 :=
    .later (.later (.later (.here rfl)))
  have hnames : r.names = ["b", "a"] := htable.names_eq.trans (by decide)
  have hnew : "c" ∉ r.names := by
    rw [hnames]
    decide
  refine ⟨hnames, (htable.get_known "a" 1 hhanded).1, (htable.get_new "c" hnew).1, ?_,
    htable.patch_error refusing "refused" rfl⟩
  exact (htable.patch_ok willing rfl).1

end Registry

end CallSite
