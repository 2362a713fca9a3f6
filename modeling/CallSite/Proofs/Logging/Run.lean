import Mathlib.Data.List.Forall2
import Mathlib.Data.List.Nodup
import CallSite.Logging.Registry

/-!
# Runs — requests that a registry serves one after the other

A registry is asked for handles and is given other factories.  What one request does is said once,
for a look-up (`Registry.get_cases`) and for a replacement (`Registry.patch_cases`), failures
included.  All laws of runs follow from these: the index has the places of the names and no others
(`Registry.Indexed`), names keep their places (`Registry.Indexed.serveAll`), and as long as no
factory fails, every handle is bound to what the factory of the registry makes of its name
(`Registry.Bound`).  So a message never goes to a backend of a factory that was replaced
(`Registry.log_granted`).

No name comes twice (`Registry.Indexed.nodup_names`), so a factory is asked for a name once while it
is installed: when the name is registered, or when the factory comes in.  This is why it may be
taken for a function of the name.
-/

namespace CallSite

/-- What a registry is asked: the handle for a name, or to work with another factory. -/
inductive Request (β : Type) where
  | get (name : String)
  | patch (factory : Factory β)

/-- A handle bound to what a factory makes of its name. -/
def Factory.Rebinds {β : Type} (factory : Factory β) (h h' : Handle β) : Prop :=
  ∃ b, (factory h.name).result = .ok b ∧ h' = h.rebind b

/-- Rebinding comes to its end, or it stops at the first name that the factory fails for. -/
theorem Factory.rebindAll_cases {β : Type} (factory : Factory β) (hs : List (Handle β)) :
    (∃ hs', List.Forall₂ factory.Rebinds hs hs'
      ∧ factory.rebindAll hs = (hs', hs.flatMap fun h => (factory h.name).calls, .ok ()))
    ∨ ∃ bound h more bound' failure, hs = bound ++ h :: more
      ∧ List.Forall₂ factory.Rebinds bound bound' ∧ (factory h.name).result = .error failure
      ∧ factory.rebindAll hs = (bound' ++ h :: more,
        (bound ++ [h]).flatMap fun h => (factory h.name).calls, .error failure) := by
  induction hs with
  | nil => exact .inl ⟨[], .nil, rfl⟩
  | cons h hs ih =>
      rw [rebindAll]
      cases hbuild : factory h.name with
      | mk calls result =>
          cases result with
          | error failure =>
              refine .inr ⟨[], h, hs, [], failure, rfl, .nil, by rw [hbuild], ?_⟩
              simp [hbuild]
          | ok b =>
              have hfirst : factory.Rebinds h (h.rebind b) := ⟨b, by rw [hbuild], rfl⟩
              rcases ih with
                ⟨hs', hmore, heq⟩ | ⟨bound, g, more, bound', failure, rfl, hmore, hg, heq⟩
              · refine .inl ⟨h.rebind b :: hs', .cons hfirst hmore, ?_⟩
                simp [heq, hbuild]
              · refine .inr ⟨h :: bound, g, more, h.rebind b :: bound', failure, rfl,
                  .cons hfirst hmore, hg, ?_⟩
                simp [heq, hbuild]

namespace Registry

variable {β : Type}

/-! ## Single requests -/

/-- A look-up goes by the index, or it registers the name or fails with the factory. -/
theorem get_cases (r : Registry β) (name : String) :
    (∃ place, r.find? name = some place ∧ r.get name = ⟨r, [], r.lookUp place⟩)
    ∨ r.find? name = none ∧ ((∃ calls b, r.factory name = ⟨calls, .ok b⟩
        ∧ r.get name = ⟨r.register name b, calls, .ok r.handles.length⟩)
      ∨ ∃ calls failure, r.factory name = ⟨calls, .error failure⟩
        ∧ r.get name = ⟨r, calls, .error failure⟩) := by
  unfold get
  cases r.find? name with
  | some place => exact .inl ⟨place, rfl, rfl⟩
  | none =>
      refine .inr ⟨rfl, ?_⟩
      cases r.factory name with
      | mk calls result =>
          cases result with
          | error failure => exact .inr ⟨calls, failure, rfl, rfl⟩
          | ok b => exact .inl ⟨calls, b, rfl, rfl⟩

/-- A replacement rebinds all handles, or it rebinds those in front of the first name that the new
    factory fails for and keeps the old one. -/
theorem patch_cases (r : Registry β) (factory : Factory β) :
    (∃ hs, List.Forall₂ factory.Rebinds r.handles hs ∧ r.patch factory
      = ⟨⟨factory, hs, r.index⟩, r.handles.flatMap fun h => (factory h.name).calls, .ok ()⟩)
    ∨ ∃ bound h more bound' failure, r.handles = bound ++ h :: more
      ∧ List.Forall₂ factory.Rebinds bound bound' ∧ (factory h.name).result = .error failure
      ∧ r.patch factory = ⟨⟨r.factory, bound' ++ h :: more, r.index⟩,
        (bound ++ [h]).flatMap fun h => (factory h.name).calls, .error failure⟩ := by
  unfold patch
  rcases factory.rebindAll_cases r.handles with
    ⟨hs, hbound, heq⟩ | ⟨bound, h, more, bound', failure, hsplit, hbound, hfails, heq⟩
  · rw [heq]
    exact .inl ⟨hs, hbound, rfl⟩
  · rw [heq]
    exact .inr ⟨bound, h, more, bound', failure, hsplit, hbound, hfails, rfl⟩

/-! ## Runs -/

/-- The registry behind a request. -/
def serve (r : Registry β) : Request β → Registry β
  | .get name => (r.get name).registry
  | .patch factory => (r.patch factory).registry

/-- Whether no factory fails at a request. -/
def grants (r : Registry β) : Request β → Bool
  | .get name => (r.get name).result.isOk
  | .patch factory => (r.patch factory).result.isOk

/-- The registry behind some requests. -/
def serveAll (r : Registry β) (requests : List (Request β)) : Registry β :=
  requests.foldl serve r

/-- Whether no factory fails at any of some requests. -/
def grantsAll (r : Registry β) : List (Request β) → Bool
  | [] => true
  | request :: more => r.grants request && (r.serve request).grantsAll more

theorem serveAll_append (r : Registry β) (before after : List (Request β)) :
    r.serveAll (before ++ after) = (r.serveAll before).serveAll after := List.foldl_append

/-- What every granted request preserves, a granted run preserves. -/
theorem serveAll_induction {P : Registry β → Prop}
    (hserve : ∀ r request, P r → r.grants request = true → P (r.serve request)) {r : Registry β}
    {requests : List (Request β)} (hr : P r) (hgrants : r.grantsAll requests = true) :
    P (r.serveAll requests) := by
  induction requests generalizing r with
  | nil => exact hr
  | cons request more ih =>
      obtain ⟨hgrant, hmore⟩ := Bool.and_eq_true_iff.mp hgrants
      exact ih (hserve r request hr hgrant) hmore

/-! ## Names -/

/-- Rebinding keeps the names. -/
theorem map_name_of_rebinds {factory : Factory β} {hs hs' : List (Handle β)}
    (h : List.Forall₂ factory.Rebinds hs hs') : hs'.map (·.name) = hs.map (·.name) := by
  induction h with
  | nil => rfl
  | cons hfirst _ ih =>
      obtain ⟨b, -, rfl⟩ := hfirst
      rw [List.map_cons, List.map_cons, ih]
      rfl

/-- A replacement keeps the names, also when it fails. -/
theorem names_patch (r : Registry β) (factory : Factory β) :
    (r.patch factory).registry.names = r.names := by
  rcases r.patch_cases factory with
    ⟨hs, hbound, heq⟩ | ⟨bound, h, more, bound', _, hsplit, hbound, _, heq⟩
  · rw [heq, names, names, map_name_of_rebinds hbound]
  · rw [heq, names, names, hsplit, List.map_append, List.map_append, map_name_of_rebinds hbound]

theorem length_names (r : Registry β) : r.names.length = r.handles.length := List.length_map _

theorem names_register (r : Registry β) (name : String) (b : β) :
    (r.register name b).names = r.names ++ [name] := List.map_append

/-- The index has every name at its place among the names, and has nothing else. -/
def Indexed (r : Registry β) : Prop :=
  ∀ name place, r.find? name = some place ↔ r.names[place]? = some name

theorem indexed_ofFactory (factory : Factory β) : (ofFactory factory).Indexed :=
  fun _ _ => iff_of_false nofun nofun

namespace Indexed

variable {r : Registry β}

theorem nodup_names (hr : r.Indexed) : r.names.Nodup := by
  refine List.nodup_iff_getElem?_ne_getElem?.mpr fun i j hij hj heq => ?_
  have hname := List.getElem?_eq_getElem hj
  have hi := (hr _ i).mpr (heq.trans hname)
  have hj := (hr _ j).mpr hname
  exact absurd (Option.some.inj (hi.symm.trans hj)) (Nat.ne_of_lt hij)

theorem find?_eq_none (hr : r.Indexed) {name : String} : r.find? name = none ↔ name ∉ r.names := by
  constructor
  · intro hnone hmem
    obtain ⟨place, hplace⟩ := List.mem_iff_getElem?.mp hmem
    exact absurd (hnone.symm.trans ((hr name place).mpr hplace)) nofun
  · intro hnew
    refine Option.eq_none_iff_forall_ne_some.mpr fun place hplace => hnew ?_
    exact List.mem_of_getElem? ((hr name place).mp hplace)

/-- A look-up of a name finds its place, where there is a handle. -/
theorem get_of_names (hr : r.Indexed) {name : String} {place : Nat}
    (h : r.names[place]? = some name) : r.get name = ⟨r, [], .ok place⟩ := by
  have hplace : place < r.handles.length := by
    rw [← length_names]
    exact (List.getElem?_eq_some_iff.mp h).1
  have hlook : r.lookUp place = .ok place := if_pos hplace
  rw [get, (hr name place).mpr h]
  exact congrArg (Outcome.mk r []) hlook

/-- A look-up finds the name at its place, adds it behind the others, or fails with the factory. -/
theorem get_cases (hr : r.Indexed) (name : String) :
    (∃ place, r.names[place]? = some name ∧ r.get name = ⟨r, [], .ok place⟩)
    ∨ name ∉ r.names ∧ ((∃ calls b, r.factory name = ⟨calls, .ok b⟩
        ∧ r.get name = ⟨r.register name b, calls, .ok r.handles.length⟩)
      ∨ ∃ calls failure, r.factory name = ⟨calls, .error failure⟩
        ∧ r.get name = ⟨r, calls, .error failure⟩) := by
  rcases r.get_cases name with ⟨place, hfind, -⟩ | ⟨hnone, h⟩
  · have hname := (hr name place).mp hfind
    exact .inl ⟨place, hname, hr.get_of_names hname⟩
  · exact .inr ⟨hr.find?_eq_none.mp hnone, h⟩

/-- The index of a registry with the same names and places is right as well. -/
theorem of_eq (hr : r.Indexed) {r' : Registry β} (hnames : r'.names = r.names)
    (hindex : r'.index = r.index) : r'.Indexed := by
  intro name place
  rw [hnames, find?, hindex]
  exact hr name place

/-- A new name is put into the index with the place that it gets. -/
theorem register (hr : r.Indexed) {name : String} (hnew : name ∉ r.names) (b : β) :
    (r.register name b).Indexed := by
  intro name' place
  have hfind : (r.register name b).find? name'
      = if name' == name then some r.names.length else r.find? name' := by
    rw [find?, Registry.register, List.lookup_cons, length_names]
    cases name' == name <;> rfl
  rw [hfind, names_register, List.getElem?_append]
  by_cases hplace : place < r.names.length
  · -- in front, where the new name does not stand
    rw [if_pos hplace, ← hr name' place]
    split
    · rename_i hname
      refine iff_of_false (fun h => ?_) (fun h => hnew ?_)
      · exact absurd (Option.some.inj h) (Nat.ne_of_gt hplace)
      · exact eq_of_beq hname ▸ List.mem_of_getElem? ((hr name' place).mp h)
    · exact Iff.rfl
  · rw [if_neg hplace]
    split
    · rename_i hname
      obtain rfl := eq_of_beq hname
      rw [Option.some_inj, List.getElem?_singleton]
      split <;> simp <;> omega
    · rename_i hname
      refine iff_of_false (fun h => hplace ?_) (fun h => hname ?_)
      · exact (List.getElem?_eq_some_iff.mp ((hr name' place).mp h)).1
      · exact beq_iff_eq.mpr (List.mem_singleton.mp (List.mem_of_getElem? h))

/-- A request keeps the index right. -/
theorem serve (hr : r.Indexed) (request : Request β) : (r.serve request).Indexed := by
  cases request with
  | get name =>
      rw [Registry.serve]
      rcases hr.get_cases name with ⟨_, _, heq⟩ | ⟨hnew, ⟨_, b, _, heq⟩ | ⟨_, _, _, heq⟩⟩
      · rwa [heq]
      · rw [heq]
        exact hr.register hnew b
      · rwa [heq]
  | patch factory =>
      refine hr.of_eq (r.names_patch factory) ?_
      rw [Registry.serve]
      rcases r.patch_cases factory with ⟨_, _, heq⟩ | ⟨_, _, _, _, _, _, _, _, heq⟩
      all_goals rw [heq]

/-- A request keeps the names at their places. -/
theorem prefix_serve (hr : r.Indexed) (request : Request β) :
    r.names <+: (r.serve request).names := by
  cases request with
  | get name =>
      rw [Registry.serve]
      rcases hr.get_cases name with ⟨_, _, heq⟩ | ⟨_, ⟨_, b, _, heq⟩ | ⟨_, _, _, heq⟩⟩
      · exact heq ▸ List.prefix_rfl
      · -- only here the names grow
        have hnames : (r.get name).registry.names = r.names ++ [name] :=
          heq ▸ r.names_register name b
        exact hnames ▸ List.prefix_append r.names [name]
      · exact heq ▸ List.prefix_rfl
  | patch factory => exact r.names_patch factory ▸ List.prefix_rfl

/-- When every step keeps the index right and the names at their places, all of them do. -/
theorem foldl {ε : Type} {step : Registry β → ε → Registry β}
    (hstep : ∀ (r : Registry β) (x : ε), r.Indexed →
      (step r x).Indexed ∧ r.names <+: (step r x).names)
    (hr : r.Indexed) (xs : List ε) :
    (xs.foldl step r).Indexed ∧ r.names <+: (xs.foldl step r).names := by
  induction xs generalizing r with
  | nil => exact ⟨hr, List.prefix_rfl⟩
  | cons x xs ih =>
      obtain ⟨hnext, hkept⟩ := hstep r x hr
      obtain ⟨hlast, hmore⟩ := ih hnext
      exact ⟨hlast, hkept.trans hmore⟩

/-- Behind some requests the index is right, and the names are at their places. -/
theorem serveAll (hr : r.Indexed) (requests : List (Request β)) :
    (r.serveAll requests).Indexed ∧ r.names <+: (r.serveAll requests).names :=
  hr.foldl (fun _ request h => ⟨h.serve request, h.prefix_serve request⟩) requests

/-- The place that a look-up comes to is that of the name. -/
theorem names_of_get (hr : r.Indexed) {name : String} {place : Nat}
    (h : (r.get name).result = .ok place) : (r.get name).registry.names[place]? = some name := by
  rcases hr.get_cases name with ⟨place', hname, heq⟩ | ⟨_, ⟨_, b, _, heq⟩ | ⟨_, _, _, heq⟩⟩
  · rw [heq] at h ⊢
    cases h
    exact hname
  · rw [heq] at h ⊢
    cases h
    rw [names_register, ← length_names, List.getElem?_concat_length]
  · rw [heq] at h
    exact absurd h nofun

end Indexed

/-! ## Backends -/

/-- Every handle is bound to what the factory of the registry makes of its name. -/
def Bound (r : Registry β) : Prop :=
  ∀ h ∈ r.handles, (r.factory h.name).result = .ok h.backend

/-- Rebound handles are bound to what the factory makes of their names. -/
theorem result_of_rebinds {factory : Factory β} {hs hs' : List (Handle β)}
    (h : List.Forall₂ factory.Rebinds hs hs') :
    ∀ h' ∈ hs', (factory h'.name).result = .ok h'.backend := by
  induction h with
  | nil => exact fun _ hmem => absurd hmem List.not_mem_nil
  | cons hfirst _ ih =>
      obtain ⟨b, hb, rfl⟩ := hfirst
      exact List.forall_mem_cons.mpr ⟨hb, ih⟩

theorem bound_ofFactory (factory : Factory β) : (ofFactory factory).Bound :=
  fun _ hmem => absurd hmem List.not_mem_nil

/-- A request at which no factory fails leaves all handles bound to what the factory makes. -/
theorem Bound.serve {r : Registry β} (hr : r.Bound) {request : Request β}
    (hgrant : r.grants request = true) : (r.serve request).Bound := by
  cases request with
  | get name =>
      rw [Registry.serve]
      rcases r.get_cases name with ⟨_, _, heq⟩ | ⟨_, ⟨calls, b, hbuild, heq⟩ | ⟨_, _, _, heq⟩⟩
      · rwa [heq]
      · rw [heq]
        refine List.forall_mem_append.mpr ⟨hr, List.forall_mem_singleton.mpr ?_⟩
        show (r.factory name).result = .ok b
        rw [hbuild]
      · rwa [heq]
  | patch factory =>
      rw [grants] at hgrant
      rw [Registry.serve]
      rcases r.patch_cases factory with ⟨hs, hbound, heq⟩ | ⟨_, _, _, _, _, _, _, _, heq⟩
      · rw [heq]
        exact result_of_rebinds hbound
      · rw [heq] at hgrant
        exact absurd hgrant nofun

end Registry

/-- The factory that a request brings along. -/
def Request.factory? {β : Type} : Request β → Option (Factory β)
  | .get _ => none
  | .patch factory => some factory

namespace Registry

variable {β δ : Type}

/-- Behind a run the factory is the last that was brought along, or the one at the start. -/
theorem factory_serveAll {r : Registry β} {requests : List (Request β)}
    (hgrants : r.grantsAll requests = true) :
    (r.serveAll requests).factory = (requests.filterMap Request.factory?).getLastD r.factory := by
  induction requests generalizing r with
  | nil => rfl
  | cons request more ih =>
      obtain ⟨hgrant, hmore⟩ := Bool.and_eq_true_iff.mp hgrants
      refine (ih hmore).trans ?_
      cases request with
      | get name =>
          have : (r.serve (.get name)).factory = r.factory := by
            rw [serve]
            rcases r.get_cases name with ⟨_, _, heq⟩ | ⟨_, ⟨_, _, _, heq⟩ | ⟨_, _, _, heq⟩⟩
            · rw [heq]
            · rw [heq]
              rfl
            · rw [heq]
          rw [this]
          rfl
      | patch factory =>
          have : (r.serve (.patch factory)).factory = factory := by
            rw [grants] at hgrant
            rw [serve]
            rcases r.patch_cases factory with ⟨_, _, heq⟩ | ⟨_, _, _, _, _, _, _, _, heq⟩
            · rw [heq]
            · rw [heq] at hgrant
              exact absurd hgrant nofun
          rw [this]
          exact (List.getLastD_cons ..).symm

/-- Behind a run at which no factory fails, a handle that was handed out in it is bound to what the
    last factory makes of its name. -/
theorem backend_of_granted {start : Factory β} {before after : List (Request β)} {name : String}
    {place : Nat}
    (hrun : (ofFactory start).grantsAll (before ++ .get name :: after) = true)
    (hget : (((ofFactory start).serveAll before).get name).result = .ok place) :
    ∃ b, ((((before ++ .get name :: after).filterMap Request.factory?).getLastD start) name).result
        = .ok b
      ∧ ((ofFactory start).serveAll (before ++ .get name :: after)).backend? place = some b := by
  have hbound := serveAll_induction (fun _ _ hr => hr.serve) (bound_ofFactory start) hrun
  have hfactory := factory_serveAll hrun
  -- the name stands at its place since it was handed out
  have hname : ((ofFactory start).serveAll (before ++ .get name :: after)).names[place]?
      = some name := by
    rw [serveAll_append]
    obtain ⟨hindexed, -⟩ := (indexed_ofFactory start).serveAll before
    obtain ⟨-, hkept⟩ := (hindexed.serve (.get name)).serveAll after
    obtain ⟨hlt, hname⟩ := List.getElem?_eq_some_iff.mp (hindexed.names_of_get hget)
    have hkept := List.prefix_iff_getElem?.mp hkept place hlt
    exact hkept.trans (congrArg some hname)
  generalize (ofFactory start).serveAll (before ++ .get name :: after) = r at *
  rw [names, List.getElem?_map] at hname
  obtain ⟨h, hh, rfl⟩ := Option.map_eq_some_iff.mp hname
  refine ⟨h.backend, ?_, by rw [backend?, handle?, hh, Option.map_some]⟩
  rw [show start = (ofFactory start).factory from rfl, ← hfactory]
  exact hbound h (List.mem_of_getElem? hh)

/-- The backends that a message through a handle reaches, each with what it is handed. -/
def sent (takes : β → Level → Bool) (r : Registry β) (place : Nat) (level : Level) (text : String) :
    List (β × Level × String) :=
  r.log takes (fun b level text => [(b, level, text)]) place level text

end Registry

namespace Labelled

variable {β δ : Type}

/-- Labels do not change which messages are taken. -/
theorem enabled_withLabels (takes : β → Level → Bool) (b : Labelled β) (labels : List String)
    (level : Level) : (b.withLabels labels).enabled takes level = b.enabled takes level := by
  induction labels generalizing b with
  | nil => rfl
  | cons label labels ih => exact ih (.labelled label b)

/-- The label that was put on first comes first in the text. -/
theorem deliver_withLabels (send : β → Level → String → List δ) (b : Labelled β)
    (labels : List String) (level : Level) (text : String) :
    (b.withLabels labels).deliver send level text
      = b.deliver send level (labels.foldr (fun label text => label ++ ": " ++ text) text) := by
  induction labels generalizing b with
  | nil => rfl
  | cons label labels ih => exact ih (.labelled label b)

end Labelled

namespace Registry

variable {β δ : Type}

/-- No message goes to a backend of a factory that was replaced.  Behind a run at which no factory
    fails, a message through a handle that was handed out in it reaches the backend that the last
    factory makes of the handle's name, once if that takes the level and not at all otherwise.  Under
    labels it reaches the base with all of them in front, the innermost first. -/
theorem log_granted {start : Factory (Labelled β)} {before after : List (Request (Labelled β))}
    {name : String} {place : Nat} {takes : β → Level → Bool} {send : β → Level → String → List δ}
    (hrun : (ofFactory start).grantsAll (before ++ .get name :: after) = true)
    (hget : (((ofFactory start).serveAll before).get name).result = .ok place) :
    let patches := (before ++ .get name :: after).filterMap Request.factory?
    let r := (ofFactory start).serveAll (before ++ .get name :: after)
    ∃ b, ((patches.getLastD start) name).result = .ok b
      ∧ (∀ level text, r.sent (Labelled.enabled takes) place level text
        = if b.enabled takes level then [(b, level, text)] else [])
      ∧ (∀ factory ∈ (start :: patches).dropLast, ∀ name' b', (factory name').result = .ok b' →
        b' ≠ b → ∀ level text,
          ∀ x ∈ r.sent (Labelled.enabled takes) place level text, x.1 ≠ b')
      ∧ ∀ (base : β) (labels : List String), b = (Labelled.plain base).withLabels labels →
        (∀ level, b.enabled takes level = takes base level)
        ∧ ∀ level text, r.log (Labelled.enabled takes) (Labelled.deliver send) place level text
          = if takes base level
            then send base level (labels.foldr (fun label text => label ++ ": " ++ text) text)
            else [] := by
  intro patches r
  -- the handle is bound to one backend, and logging asks no other
  obtain ⟨b, hb, hbackend⟩ := backend_of_granted hrun hget
  have hlog {ε : Type} (send : Labelled β → Level → String → List ε) (level : Level)
      (text : String) : r.log (Labelled.enabled takes) send place level text
        = if b.enabled takes level then send b level text else [] := by
    rw [log, hbackend]
    rfl
  refine ⟨b, hb, hlog _, ?_, ?_⟩
  · intro _ _ _ b' _ hne level text x hx
    rw [sent, hlog] at hx
    split at hx
    · rw [List.mem_singleton.mp hx]
      exact hne.symm
    · exact absurd hx List.not_mem_nil
  · rintro base labels rfl
    refine ⟨fun level => Labelled.enabled_withLabels takes (.plain base) labels level, ?_⟩
    intro level text
    rw [hlog, Labelled.enabled_withLabels, Labelled.deliver_withLabels]
    rfl

/-- A handle from before the replacement logs to the new sink, with both labels in front. -/
theorem log_granted_relabelled :
    let old : Factory Backend := fun name => ⟨[], .ok (.recorder ("old:" ++ name) .trace)⟩
    let new : Factory Backend := fun name =>
      ⟨[], .ok ((Backend.recorder ("new:" ++ name) .warning).withLabels ["p", "q"])⟩
    let requests : List (Request Backend) := [.get "b", .get "a", .patch new, .get "c"]
    (ofFactory old).grantsAll requests = true
      ∧ (((ofFactory old).serveAll [.get "b"]).get "a").result = .ok 1
      ∧ ∀ text, ((ofFactory old).serveAll requests).log
        (Labelled.enabled (Endpoint.enabled .silent))
        (Labelled.deliver (Endpoint.deliver .silent fun _ _ => [])) 1 .error text
        = [.sink "new:a" .error ("p: " ++ ("q: " ++ text))] := by
  intro old new requests
  refine ⟨rfl, rfl, fun text => ?_⟩
  obtain ⟨b, hb, -, -, hlabelled⟩ := @log_granted Endpoint Delivery old [.get "b"]
    [.patch new, .get "c"] "a" 1 (Endpoint.enabled .silent)
    (Endpoint.deliver .silent fun _ _ => []) rfl rfl
  obtain rfl : (Backend.recorder "new:a" .warning).withLabels ["p", "q"] = b := by
    injection hb
  exact (hlabelled (.recorder "new:a" .warning) ["p", "q"] rfl).2 .error text

end Registry

end CallSite
