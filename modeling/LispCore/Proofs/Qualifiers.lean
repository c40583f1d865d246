import LispCore.Proofs.Sessions

/-! # Qualified names

A qualifier denotes what it is short for in the namespace where it is used, or else the namespace of that name
(`World.denoted`). What it is short for is fixed by the alias that was made last (`Action.alias?_run`), and an alias is
kept whether or not there is a namespace of that name. So a name can have a qualifier that denotes nothing in two ways:
a plain qualifier is an error, and one that is short for something leads to no var. -/

namespace LispCore

namespace World
variable {w w' : World}

/-! ### What a qualifier denotes -/

/-- What a name is short for in `ns`. -/
def alias? (w : World) (ns short : String) : Option String :=
  Table.get? (w.namespaceAt ns).aliases short

/-- The name of the namespace that a qualifier denotes in `ns`, whether it exists or not. -/
def denoted (w : World) (ns qualifier : String) : String :=
  (w.alias? ns qualifier).getD qualifier

theorem lookup_of_missing {ns : String} (h : w.hasNs ns = false) (name : String) : w.lookup ns name = none := by
  have hnone : Table.get? w.namespaces ns = none := by simpa [hasNs, Table.contains] using h
  rw [lookup, namespaceAt, hnone]
  rfl

/-- A namespace in which something is short for something exists. -/
theorem hasNs_of_alias? {ns short target : String} (h : w.alias? ns short = some target) : w.hasNs ns = true := by
  unfold hasNs Table.contains
  cases hns : Table.get? w.namespaces ns with
  | some data => rfl
  | none =>
    rw [alias?, namespaceAt, hns] at h
    cases h

/-- A qualifier is known if it is short for something or the name of a namespace. -/
def Knows (w : World) (ns qualifier : String) : Prop :=
  w.alias? ns qualifier ≠ none ∨ w.hasNs (w.denoted ns qualifier) = true

theorem not_knows_iff {ns qualifier : String} :
    ¬w.Knows ns qualifier ↔ w.alias? ns qualifier = none ∧ w.hasNs (w.denoted ns qualifier) = false := by
  simp [Knows]

theorem resolveNs_of_knows {ns qualifier : String} (h : w.Knows ns qualifier) :
    w.resolveNs ns qualifier = some (w.denoted ns qualifier) := by
  unfold Knows denoted alias? at h
  unfold resolveNs denoted alias?
  cases halias : Table.get? (w.namespaceAt ns).aliases qualifier with
  | some target => rfl
  | none =>
    rw [halias] at h
    exact if_pos (h.resolve_left fun hne => hne rfl)

theorem resolveNs_of_not_knows {ns qualifier : String} (h : ¬w.Knows ns qualifier) :
    w.resolveNs ns qualifier = none := by
  obtain ⟨halias, hns⟩ := not_knows_iff.mp h
  rw [denoted, halias, Option.getD_none] at hns
  unfold alias? at halias
  rw [resolveNs, halias, hns]
  rfl

/-! ### Resolution -/

/-- The cases of resolving a qualified name: its qualifier is not known, or it is at home where it is used and may be
made there, or it is what the denoted namespace maps it to. -/
theorem resolveVar_qualified_cases (w : World) (ns : String) {sym : Symbol} {qualifier : String}
    (hsym : sym.ns = some qualifier) (create : Bool) :
    (¬w.Knows ns qualifier ∧ w.resolveVar ns sym create = .error (.lookup (.noNamespace qualifier))) ∨
    (w.Knows ns qualifier ∧ (w.denoted ns qualifier = ns ∧ create = true) ∧
      w.resolveVar ns sym create = .ok (some (w.intern ns sym.name).1, (w.intern ns sym.name).2)) ∨
    (w.Knows ns qualifier ∧ ¬(w.denoted ns qualifier = ns ∧ create = true) ∧
      w.resolveVar ns sym create = .ok (w.lookup (w.denoted ns qualifier) sym.name, w)) := by
  by_cases hknows : w.Knows ns qualifier
  · have hresolve := resolveNs_of_knows hknows
    by_cases hhome : w.denoted ns qualifier = ns ∧ create = true
    · exact .inr (.inl ⟨hknows, hhome, by simp only [resolveVar, hsym, hresolve, if_pos hhome]⟩)
    · exact .inr (.inr ⟨hknows, hhome, by simp only [resolveVar, hsym, hresolve, if_neg hhome]⟩)
  · exact .inl ⟨hknows, by simp only [resolveVar, hsym, resolveNs_of_not_knows hknows]⟩

section Resolution
variable {ns qualifier : String} {sym : Symbol} {create : Bool}

theorem resolveVar_eq_error_iff (hsym : sym.ns = some qualifier) {fault : Fault} :
    w.resolveVar ns sym create = .error fault ↔
      fault = .lookup (.noNamespace qualifier) ∧ ¬w.Knows ns qualifier := by
  rcases w.resolveVar_qualified_cases ns hsym create with ⟨hknows, h⟩ | ⟨hknows, -, h⟩ | ⟨hknows, -, h⟩ <;> rw [h]
  · simp [hknows, eq_comm]
  · simp [hknows]
  · simp [hknows]

theorem resolveVar_eq_none_iff (hsym : sym.ns = some qualifier) :
    w.resolveVar ns sym create = .ok (none, w') ↔
      w' = w ∧ w.Knows ns qualifier ∧ w.lookup (w.denoted ns qualifier) sym.name = none ∧
        ¬(w.denoted ns qualifier = ns ∧ create = true) := by
  rcases w.resolveVar_qualified_cases ns hsym create with ⟨hknows, h⟩ | ⟨-, hhome, h⟩ | ⟨hknows, hhome, h⟩ <;> rw [h]
  · simp [hknows]
  · simp [hhome]
  · rw [Except.ok.injEq, Prod.mk.injEq, eq_comm (a := w)]
    tauto

theorem resolveVar_eq_some_iff (hsym : sym.ns = some qualifier) {v : Var} :
    w.resolveVar ns sym create = .ok (some v, w') ↔
      (w.denoted ns qualifier = ns ∧ create = true ∧ w.hasNs ns = true ∧ (v, w') = w.intern ns sym.name) ∨
      (¬(w.denoted ns qualifier = ns ∧ create = true) ∧ w.lookup (w.denoted ns qualifier) sym.name = some v ∧
        w' = w) := by
  rcases w.resolveVar_qualified_cases ns hsym create with ⟨hknows, h⟩ | ⟨hknows, hhome, h⟩ | ⟨-, hhome, h⟩ <;> rw [h]
  · -- a qualifier that is not known denotes no namespace, so nothing is found there
    obtain ⟨-, hmissing⟩ := not_knows_iff.mp hknows
    have hnone := lookup_of_missing hmissing sym.name
    rw [hnone]
    constructor
    · rintro ⟨⟩
    · rintro (⟨hdenoted, -, hns, -⟩ | ⟨-, ⟨⟩, -⟩)
      rw [hdenoted, hns] at hmissing
      cases hmissing
  · have hns : w.hasNs ns = true := by
      rcases hknows with halias | hns
      · obtain ⟨target, htarget⟩ := Option.ne_none_iff_exists'.mp halias
        exact hasNs_of_alias? htarget
      · rwa [hhome.1] at hns
    simp only [hhome, hns, Except.ok.injEq, Option.some.injEq, true_and, and_true, not_true, false_and, or_false,
      Prod.ext_iff]
    exact and_congr eq_comm eq_comm
  · rw [Except.ok.injEq, Prod.mk.injEq, eq_comm (a := w)]
    tauto

end Resolution

/-! ### What changes an alias -/

/-- Every namespace has the same short names in both worlds. -/
def SameAliases (w w' : World) : Prop :=
  ∀ ns, (w'.namespaceAt ns).aliases = (w.namespaceAt ns).aliases

theorem sameAliases_of_namespaces (h : w'.namespaces = w.namespaces) : w.SameAliases w' :=
  fun ns => congrArg Namespace.aliases (namespaceAt_congr h ns)

theorem sameAliases_intern (w : World) (ns name : String) : w.SameAliases (w.intern ns name).2 := by
  rcases w.intern_cases ns name with ⟨v, -, -, h⟩ | ⟨-, notes, -, h⟩ <;> rw [h]
  · exact fun _ => rfl
  · exact aliases_refer w ns name _

theorem sameAliases_ensureNs (w : World) (ns : String) : w.SameAliases (w.ensureNs ns) := by
  intro m
  rcases w.ensureNs_eq ns with h | h <;> rw [h]
  rw [namespaceAt_setNs]
  split
  · next hm => rw [hm]
  · rfl

theorem Confined.sameAliases {ns : String} {opened : List (Symbol × Var)} (h : w.Confined ns opened w') :
    w.SameAliases w' := by
  intro m
  by_cases hm : m = ns
  · rw [hm]
    exact h.aliases
  · rw [namespaceAt, namespaceAt, h.elsewhere m hm]

theorem sameAliases_of_steps (h : Relation.ReflTransGen SameAliases w w') : w.SameAliases w' := by
  induction h with
  | refl => exact fun _ => rfl
  | tail _ hstep ih => exact fun ns => (hstep ns).trans (ih ns)

end World

namespace Action

/-- What the action makes `short` stand for in `ns`. -/
def alias? (ns short : String) : Action → Option String
  | .addAlias ns' short' target => if ns' = ns ∧ short' = short then some target else none
  | _ => none

theorem sameAliases_acts :
    World.ActsBy (fun action => ∀ ns short, action.alias? ns short = none) World.SameAliases where
  ensureNs := World.sameAliases_ensureNs
  current _ _ _ := rfl
  intern := World.sameAliases_intern
  refer w ns name v _ := World.aliases_refer w ns name v
  addAlias _ ns short _ h := by simpa [alias?] using h ns short
  rebind _ _ _ _ _ _ := rfl
  step h := World.sameAliases_of_namespaces (World.runStep_keeps h).1
  note _ _ _ _ := rfl
  native _ _ _ _ _ := rfl
  analyze ctx form w := by
    obtain ⟨opened, -, hconfined, -⟩ := confined_of_analyze ctx form w
    exact .single hconfined.sameAliases

/-- One action. Nothing but an alias changes what a name is short for. -/
theorem alias?_perform (w : World) (action : Action) (ns short : String) :
    (perform w action).alias? ns short = (action.alias? ns short).or (w.alias? ns short) := by
  have hsame : (∀ m name, action.alias? m name = none) →
      (perform w action).alias? ns short = w.alias? ns short := fun h =>
    congrArg (Table.get? · short) (World.sameAliases_of_steps (sameAliases_acts.steps h w) ns)
  cases action with
  | addAlias m name target =>
    rw [perform, World.alias?, World.addAlias, World.namespaceAt_setNs, alias?]
    by_cases hm : ns = m
    · subst hm
      rw [if_pos rfl, Table.get?_insert]
      by_cases hname : short = name
      · simp [hname]
      · simp [hname, Ne.symm hname, World.alias?]
    · simp [hm, Ne.symm hm, World.alias?]
  | _ => exact hsame fun _ _ => rfl

/-- After a run, a name is short for what the last alias made it stand for. -/
theorem alias?_run (w : World) (actions : List Action) (ns short : String) :
    (run w actions).alias? ns short =
      (actions.filterMap (alias? ns short)).getLast?.or (w.alias? ns short) := by
  induction actions generalizing w with
  | nil => rfl
  | cons action rest ih =>
    have hrun : run w (action :: rest) = run (perform w action) rest := rfl
    rw [hrun, ih, alias?_perform, List.filterMap_cons]
    cases action.alias? ns short with
    | none => rfl
    | some target =>
      rw [List.getLast?_cons, Option.some_or]
      cases (rest.filterMap (alias? ns short)).getLast? <;> rfl

end Action

/-! ### Main result -/

/-- In every state that a session can reach, a qualified name is resolved as its qualifier says. The qualifier denotes
what it was made to stand for last, or else the namespace of its name. It is an error exactly if it stands for nothing
and there is no such namespace. Otherwise the name is what the denoted namespace maps it to, and it is interned, and
the state changed, just where that is the namespace itself and names may be made. A qualifier that stands for a
namespace which does not exist leads to no var; where no such alias was made, a name is refused exactly if
the denoted namespace does not exist. -/
theorem qualified_name_resolved (w₀ : World) (actions : List Action) (ns : String) {sym : Symbol} {qualifier : String}
    (hsym : sym.ns = some qualifier) (create : Bool) :
    let w := Action.run w₀ actions
    let home := w.denoted ns qualifier
    let resolved := w.resolveVar ns sym create
    home = ((actions.filterMap (Action.alias? ns qualifier)).getLast?.or (w₀.alias? ns qualifier)).getD qualifier ∧
    (∀ fault, resolved = .error fault ↔ fault = .lookup (.noNamespace qualifier) ∧
      w.alias? ns qualifier = none ∧ w.hasNs home = false) ∧
    (∀ w', resolved = .ok (none, w') ↔ w' = w ∧ (w.alias? ns qualifier ≠ none ∨ w.hasNs home = true) ∧
      w.lookup home sym.name = none ∧ ¬(home = ns ∧ create = true)) ∧
    (∀ v w', resolved = .ok (some v, w') ↔
      (home = ns ∧ create = true ∧ w.hasNs ns = true ∧ (v, w') = w.intern ns sym.name) ∨
      (¬(home = ns ∧ create = true) ∧ w.lookup home sym.name = some v ∧ w' = w)) ∧
    (w.alias? ns qualifier ≠ none → w.hasNs home = false → resolved = .ok (none, w)) ∧
    ((∀ target, w₀.alias? ns qualifier = some target ∨ .addAlias ns qualifier target ∈ actions →
        w.hasNs target = true) →
      (resolved = .error (.lookup (.noNamespace qualifier)) ↔ w.hasNs home = false) ∧
      ∀ w', resolved = .ok (none, w') → w.hasNs home = true) := by
  intro w home resolved
  have halias : w.alias? ns qualifier = _ := Action.alias?_run w₀ actions ns qualifier
  have hnone : ∀ w', resolved = .ok (none, w') ↔ _ := fun w' => World.resolveVar_eq_none_iff hsym
  have herror : ∀ fault, resolved = .error fault ↔ _ := fun fault => World.resolveVar_eq_error_iff hsym
  refine ⟨by rw [← halias]; rfl, fun fault => ?_, hnone, fun v w' => World.resolveVar_eq_some_iff hsym, ?_, ?_⟩
  · rw [herror, World.not_knows_iff]
  · intro hshort hmissing
    refine (hnone w).mpr ⟨rfl, .inl hshort, World.lookup_of_missing hmissing _, ?_⟩
    rintro ⟨hhome, -⟩
    -- the namespace in which the qualifier is short for something exists
    obtain ⟨target, htarget⟩ := Option.ne_none_iff_exists'.mp hshort
    have hns := World.hasNs_of_alias? htarget
    rw [← hhome, hmissing] at hns
    cases hns
  · intro hmade
    have hexists : ∀ target, w.alias? ns qualifier = some target → w.hasNs target = true := by
      intro target htarget
      rw [halias, Option.or_eq_some_iff] at htarget
      rcases htarget with hlast | ⟨-, hbefore⟩
      · obtain ⟨action, haction, htarget⟩ := List.mem_filterMap.mp (List.mem_of_getLast? hlast)
        cases action with
        | addAlias m short target' =>
          obtain ⟨⟨rfl, rfl⟩, rfl⟩ : (m = ns ∧ short = qualifier) ∧ target' = target := by
            simpa [Action.alias?] using htarget
          exact hmade target' (.inr haction)
        | _ => cases htarget
      · exact hmade target (.inl hbefore)
    have hknown : w.Knows ns qualifier ↔ w.hasNs home = true := by
      refine ⟨fun hknows => ?_, .inr⟩
      rcases hknows with hshort | hhome
      · obtain ⟨target, htarget⟩ := Option.ne_none_iff_exists'.mp hshort
        have hdenoted : home = target := congrArg (Option.getD · qualifier) htarget
        rw [hdenoted]
        exact hexists target htarget
      · exact hhome
    refine ⟨?_, fun w' h => hknown.mp ((hnone w').mp h).2.1⟩
    rw [herror, hknown, Bool.not_eq_true]
    exact and_iff_right rfl

/-- A namespace has a short name for one that does not exist: a name under it is not refused, but leads to no var. -/
theorem alias_of_missing_namespace :
    let w := Action.run (World.start {} .watching) [.addAlias "user" "short" "nowhere"]
    let sym : Symbol := ⟨some "short", "x", none⟩
    w.denoted "user" "short" = "nowhere" ∧ w.hasNs "nowhere" = false ∧
      ∀ create, w.resolveVar "user" sym create = .ok (none, w) := by
  refine ⟨by decide +kernel, by decide +kernel, fun create => ?_⟩
  cases create <;> rfl

/-- A short name that hides a namespace of that name, made before what it stands for exists: the name is found there. -/
theorem qualified_name_resolved_through_alias :
    let x : Var := { id := 1, ns := "other", name := "x" }
    let actions : List Action := [.intern "short" "x", .addAlias "user" "short" "other", .intern "other" "x"]
    let w := Action.run (World.start {} .watching) actions
    let sym : Symbol := ⟨some "short", "x", none⟩
    w.hasNs "short" = true ∧ w.denoted "user" "short" = "other" ∧ w.resolveVar "user" sym true = .ok (some x, w) := by
  intro x actions w sym
  obtain ⟨hhome, -, -, hsome, -, -⟩ :=
    qualified_name_resolved (World.start {} .watching) actions "user" (show sym.ns = some "short" from rfl) true
  have hdenoted : w.denoted "user" "short" = "other" := hhome.trans (by decide +kernel)
  refine ⟨by decide +kernel, hdenoted, (hsome x w).mpr (.inr ⟨?_, ?_, rfl⟩)⟩
  · rintro ⟨hns, -⟩
    exact absurd (hdenoted.symm.trans hns) (by decide)
  · rw [hdenoted]
    decide +kernel

end LispCore
