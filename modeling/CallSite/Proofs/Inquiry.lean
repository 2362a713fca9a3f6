import Mathlib
import CallSite.KeywordMap.Extraction
import CallSite.Proofs.Distinct

/-!
# Inquiries — what a resolver is asked for, and what becomes of its answers

The keyword arguments of a call are gone through once, in order.  For an argument with a name its
value is asked for, for an expansion a message is left (`Keyword.inquire`), and nothing else happens,
whatever the resolver does besides answering: it may leave messages of its own, keep a state or give
up.  So two things are said for every lawful monad (`keywordMapWith_inquires`).  The extraction is
these inquiries in a row and then a map that is put together from the answers alone.  And when every
inquiry is written down beside what happens otherwise, what is written down depends on the call and
the scope alone.
-/

namespace CallSite

/-! ## Maps of answers -/

namespace KeywordMap

/-- The answer that was given last for a name. -/
def latest (given : List (String × Option Expr)) (name : String) : Option Expr :=
  (given.reverse.lookup name).join

/-- The names in order of their first answers, each with its last answer. -/
def ofAnswers (given : List (String × Option Expr)) : KeywordMap :=
  ⟨(given.map Prod.fst).eraseDups.map fun name => (name, latest given name)⟩

/-- One more answer changes the last answer for its name alone. -/
theorem latest_snoc (given : List (String × Option Expr)) (name : String) (value : Option Expr) :
    latest (given ++ [(name, value)]) = Function.update (latest given) name value := by
  funext other
  rw [latest, List.reverse_append, Function.update_apply]
  show (((name, value) :: given.reverse).lookup other).join = _
  rw [List.lookup_cons]
  by_cases h : other = name
  · rw [beq_iff_eq.mpr h, if_pos h]
    rfl
  · rw [beq_eq_false_iff_ne.mpr h, if_neg h]
    rfl

theorem names_ofAnswers (given : List (String × Option Expr)) :
    (ofAnswers given).names = (given.map Prod.fst).eraseDups := by
  rw [names, ofAnswers, List.map_map]
  exact List.map_id _

/-- One more answer sets its name: in its place when there was an answer for it, else at the end. -/
theorem insert_ofAnswers (given : List (String × Option Expr)) (name : String)
    (value : Option Expr) :
    (ofAnswers given).insert name value = ofAnswers (given ++ [(name, value)]) := by
  have hupdate : (fun other => (other, latest (given ++ [(name, value)]) other))
      = Function.update (fun other => (other, latest given other)) name (name, value) := by
    funext other
    rw [latest_snoc]
    exact Function.apply_update (fun other value => (other, value)) (latest given) name value other
  have hmap := (nodup_eraseDups (given.map Prod.fst)).map_update
    (fun other => (other, latest given other)) name (name, value)
  refine congrArg KeywordMap.mk ((entries_insert _ name value).trans ?_)
  show _ = List.map (fun other => (other, latest (given ++ [(name, value)]) other)) _
  rw [hupdate, names_ofAnswers, List.map_append]
  show _ = List.map _ (given.map Prod.fst ++ [name]).eraseDups
  rw [eraseDups_concat]
  by_cases h : name ∈ given.map Prod.fst
  · rw [if_pos (List.mem_eraseDups.mpr h)] at hmap ⊢
    rw [if_pos h, List.append_nil, hmap]
    rfl
  · rw [if_neg (mt List.mem_eraseDups.mp h)] at hmap ⊢
    rw [if_neg h, List.map_append, hmap, List.map_singleton, Function.update_self]
    rfl

end KeywordMap

/-! ## Inquiries -/

variable {m : Type → Type} [Monad m]

/-- What can be seen of an extraction from outside. -/
inductive Inquiry where
  /-- The resolver is asked for the value of a node in a scope. -/
  | asked (value : Node) (scope : Scope)
  | noted (message : Message)

namespace Keyword

/-- The name of the argument; an expansion has none. -/
def name? : Keyword Node → Option String
  | .named name _ => some name
  | .unpacked _ => none

/-- The inquiry that an argument gives rise to. -/
def inquiry (scope : Scope) : Keyword Node → Inquiry
  | .named _ value => .asked value scope
  | .unpacked _ => .noted ⟨"scry_engine::nodes::keywords", .debug,
    "skipping ** expansion in call inside " ++ scope.inner.path⟩

/-- The inquiry made: the answer is the resolver's, and there is none for an expansion. -/
def inquire (note : Message → m Unit) (resolver : Node → Scope → m (Option Expr)) (scope : Scope) :
    Keyword Node → m (Option Expr)
  | .named _ value => resolver value scope
  | .unpacked _ => do
    note (skippedMessage scope)
    return none

end Keyword

/-- The names of arguments with the answers for them. -/
def answered : List (Keyword Node) → List (Option Expr) → List (String × Option Expr)
  | .named name _ :: keywords, answer :: answers => (name, answer) :: answered keywords answers
  | .unpacked _ :: keywords, _ :: answers => answered keywords answers
  | _, _ => []

/-- When all inquiries are answered, there is an answer for every argument with a name. -/
theorem map_fst_answered {keywords : List (Keyword Node)} {answers : List (Option Expr)}
    (h : answers.length = keywords.length) :
    (answered keywords answers).map Prod.fst = keywords.filterMap Keyword.name? := by
  fun_induction answered keywords answers with
  | case1 name value keywords answer answers ih =>
      show name :: _ = name :: _
      rw [ih (Nat.succ.inj h)]
  | case2 value keywords answer answers ih =>
      exact ih (Nat.succ.inj h)
  | case3 keywords answers hnamed hunpacked =>
      cases keywords with
      | nil => rfl
      | cons k keywords =>
          cases answers with
          | nil => exact absurd h nofun
          | cons answer answers =>
              cases k with
              | named name value => exact (hnamed name value keywords answer answers rfl rfl).elim
              | unpacked value => exact (hunpacked value keywords answer answers rfl rfl).elim

/-- What is done with the results of a row of actions depends on as many results as there are
    actions. -/
theorem mapM_bind_congr [LawfulMonad m] {α β γ : Type} {action : α → m β} {xs : List α}
    {f g : List β → m γ} (h : ∀ ys, ys.length = xs.length → f ys = g ys) :
    xs.mapM action >>= f = xs.mapM action >>= g := by
  induction xs generalizing f g with
  | nil =>
      rw [List.mapM_nil, pure_bind, pure_bind]
      exact h [] rfl
  | cons x xs ih =>
      simp only [List.mapM_cons, bind_assoc, pure_bind]
      refine bind_congr fun y => ih fun ys hys => ?_
      exact h (y :: ys) (congrArg Nat.succ hys)

namespace Call

variable {note : Message → m Unit} {resolver : Node → Scope → m (Option Expr)} {scope : Scope}

/-- The arguments are inquired after one by one, and their answers set one by one. -/
theorem foldlM_addKeyword_eq [LawfulMonad m] (keywords : List (Keyword Node))
    (given : List (String × Option Expr)) :
    keywords.foldlM (addKeyword note resolver scope) (.ofAnswers given) = (do
      let answers ← keywords.mapM (Keyword.inquire note resolver scope)
      return .ofAnswers (given ++ answered keywords answers)) := by
  -- on the arguments, whatever answers were given for those in front of them
  induction keywords generalizing given with
  | nil =>
      rw [List.foldlM_nil, List.mapM_nil, pure_bind]
      show pure (KeywordMap.ofAnswers given) = pure (KeywordMap.ofAnswers (given ++ []))
      rw [List.append_nil]
  | cons k keywords ih =>
      rw [List.foldlM_cons, List.mapM_cons]
      cases k with
      | named name value =>
          simp only [addKeyword, Keyword.inquire, bind_assoc, pure_bind, answered,
            KeywordMap.insert_ofAnswers, ih, List.append_assoc, List.singleton_append]
      | unpacked value =>
          simp only [addKeyword, Keyword.inquire, bind_assoc, pure_bind, answered, ih]

/-! ## Records -/

/-- Leaves a message and writes it down. -/
def recordNote (note : Message → m Unit) (message : Message) : StateT (List Inquiry) m Unit :=
  fun log => do
    note message
    return ((), log ++ [.noted message])

/-- Asks the resolver and writes the question down. -/
def recordResolver (resolver : Node → Scope → m (Option Expr)) (value : Node) (scope : Scope) :
    StateT (List Inquiry) m (Option Expr) :=
  fun log => do
    let answer ← resolver value scope
    return (answer, log ++ [.asked value scope])

/-- One argument is written down as the one inquiry it gives rise to. -/
theorem run_addKeyword [LawfulMonad m] (map : KeywordMap) (k : Keyword Node) (log : List Inquiry) :
    (addKeyword (recordNote note) (recordResolver resolver) scope map k).run log = (do
      let map ← addKeyword note resolver scope map k
      return (map, log ++ [k.inquiry scope])) := by
  cases k with
  | named name value =>
      show (do
        let answered ← recordResolver resolver value scope log
        pure (map.insert name answered.1, answered.2)) = _
      simp only [recordResolver, addKeyword, bind_assoc, pure_bind]
      rfl
  | unpacked value =>
      show (do
        let noted ← recordNote note (skippedMessage scope) log
        pure (map, noted.2)) = _
      simp only [recordNote, addKeyword, bind_assoc, pure_bind]
      rfl

theorem run_foldlM_addKeyword [LawfulMonad m] (keywords : List (Keyword Node)) (map : KeywordMap)
    (log : List Inquiry) :
    (keywords.foldlM (addKeyword (recordNote note) (recordResolver resolver) scope) map).run log
      = (do
        let map ← keywords.foldlM (addKeyword note resolver scope) map
        return (map, log ++ keywords.map (Keyword.inquiry scope))) := by
  induction keywords generalizing map log with
  | nil =>
      rw [List.foldlM_nil, List.foldlM_nil, pure_bind, List.map_nil, List.append_nil]
      rfl
  | cons k keywords ih =>
      rw [List.foldlM_cons, List.foldlM_cons, StateT.run_bind, run_addKeyword]
      simp only [bind_assoc, pure_bind, ih, List.append_assoc]
      rfl

/-- Whatever a resolver does: the keyword arguments of a call are found by one inquiry for each of
    them, in order, and the answers alone make up the map.  Its names are those of the arguments in
    the order in which they come first, each with the answer for its last argument.  If the
    inquiries are written down, then for every argument with a name the value and the scope that the
    resolver is asked for, and for every expansion the message that it is skipped. -/
theorem keywordMapWith_inquires [LawfulMonad m] (note : Message → m Unit)
    (resolver : Node → Scope → m (Option Expr)) (call : Call Node) (scope : Scope) :
    call.keywordMapWith note resolver scope = (do
        let answers ← call.keywords.mapM (Keyword.inquire note resolver scope)
        return ⟨(call.keywords.filterMap Keyword.name?).eraseDups.map fun name =>
          (name, KeywordMap.latest (answered call.keywords answers) name)⟩)
      ∧ ∀ log, (call.keywordMapWith (recordNote note) (recordResolver resolver) scope).run log = (do
        let map ← call.keywordMapWith note resolver scope
        return (map, log ++ call.keywords.map (Keyword.inquiry scope))) := by
  constructor
  · show call.keywords.foldlM (addKeyword note resolver scope) (.ofAnswers []) = _
    rw [foldlM_addKeyword_eq]
    refine mapM_bind_congr fun answers hanswers => ?_
    rw [List.nil_append, KeywordMap.ofAnswers, map_fst_answered hanswers]
  · intro log
    exact run_foldlM_addKeyword call.keywords .empty log

/-- The name that comes first has its last answer, though that is none. -/
theorem keywordMapWith_inquires_repeated :
    let call : Call Node := ⟨.name "f", [.name "x"],
      [.named "k" (.name "a"), .unpacked (.name "d"), .named "l" (.name "a"),
        .named "k" (.name "b")]⟩
    let note : Message → StateM (List Message) Unit := fun message => modify (· ++ [message])
    let resolver : Node → Scope → StateM (List Message) (Option Expr) := fun
      | .name "a", _ => return some (.name "a" "m.a")
      | _, scope => do
        note ⟨"resolver", .info, scope.inner.path⟩
        return none
    (call.keywordMapWith note resolver (.ofModule "m")).run []
        = (⟨[("k", none), ("l", some (.name "a" "m.a"))]⟩,
          [skippedMessage (.ofModule "m"), ⟨"resolver", .info, "m"⟩])
      ∧ ((call.keywordMapWith (recordNote note) (recordResolver resolver) (.ofModule "m")).run []).run []
        = ((⟨[("k", none), ("l", some (.name "a" "m.a"))]⟩,
            [.asked (.name "a") (.ofModule "m"), .noted (skippedMessage (.ofModule "m")),
              .asked (.name "a") (.ofModule "m"), .asked (.name "b") (.ofModule "m")]),
          [skippedMessage (.ofModule "m"), ⟨"resolver", .info, "m"⟩]) := by
  intro call note resolver
  obtain ⟨hmap, hlog⟩ := keywordMapWith_inquires note resolver call (.ofModule "m")
  rw [hlog, hmap]
  exact ⟨rfl, rfl⟩

end Call

end CallSite
