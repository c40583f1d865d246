import LispCore.Proofs.Residue
import LispCore.Proofs.Runs

/-! # Namespaces are isolated

A top-level form can define names in the current namespace only. Analysis opens its definitions there, and the run
writes to the vars that were opened and maps no name. So whatever a form does, and wherever it fails, the other
namespaces and all vars that it does not define are as they were. -/

namespace LispCore

namespace World

/-- Between the two worlds only the given definitions in `ns` were made: they have vars that `ns` owns, and nothing but
the mappings of their names and the cells of their vars is new. -/
structure Confined (ns : String) (opened : List (Symbol × Var)) (w w' : World) : Prop where
  elsewhere : ∀ m, m ≠ ns → Table.get? w'.namespaces m = Table.get? w.namespaces m
  aliases : (w'.namespaceAt ns).aliases = (w.namespaceAt ns).aliases
  names : ∀ name, (∀ d ∈ opened, d.1.name ≠ name) → w'.lookup ns name = w.lookup ns name
  targets : ∀ d ∈ opened, d.2.ns = ns ∧ w'.Names ns d.1 d.2
  cells : ∀ v, (∀ d ∈ opened, d.2 ≠ v) → w'.cell v = w.cell v

variable {ns : String} {opened : List (Symbol × Var)} {w w₁ w' : World}

/-! ### Analysis -/

theorem lastAttached_eq_none {v : Var} (h : ∀ d ∈ opened, d.2 ≠ v) : lastAttached v opened = none := by
  have hnone : (opened.filterMap fun d => if d.2 = v then d.1.attachment? else none) = [] := by
    rw [List.filterMap_eq_nil_iff]
    intro d hd
    exact if_neg (h d hd)
  rw [lastAttached, hnone, List.getLast?_nil]

theorem Residue.cell_eq (h : w.Residue ns opened w') (hsilent : w.Silent w') {v : Var} (hv : ∀ d ∈ opened, d.2 ≠ v) :
    w'.cell v = w.cell v := by
  have hext : ∀ {c c' : Cell}, c.root = c'.root → c.metadata = c'.metadata → c.dynamic = c'.dynamic → c = c' := by
    rintro ⟨⟩ ⟨⟩ rfl rfl rfl
    rfl
  have hmetadata : (w'.cell v).metadata = (w.cell v).metadata := by
    rw [h.metadata, lastAttached_eq_none hv]
    rfl
  have hdynamic : (w'.cell v).dynamic = (w.cell v).dynamic := by
    have hany : (opened.any fun d => decide (d.2 = v) && d.1.declaresDynamic) = false := by
      rw [List.any_eq_false]
      intro d hd
      simp [hv d hd]
    rw [h.flags, hany, Bool.or_false]
  exact hext (hsilent.root v) hmetadata hdynamic

theorem Residue.confined (h : w.Residue ns opened w') (hsilent : w.Silent w') : w.Confined ns opened w' where
  elsewhere := h.elsewhere
  aliases := h.aliases
  names := by
    intro name hname
    rcases h.names name with hsame | ⟨-, d, hd, hd', -⟩
    · exact hsame
    · exact (hname d hd hd').elim
  targets := h.targets
  cells := fun _ hv => h.cell_eq hsilent hv

/-! ### Runs -/

/-- A step of a run writes to the cell of a var of `D`, if to any, and maps no name. -/
theorem runStep_keeps {D : Var → Prop} (h : Expr.RunStep D w w') :
    w'.namespaces = w.namespaces ∧ ∀ v, ¬D v → w'.cell v = w.cell v := by
  have hcell : ∀ {u : Var} (c : Cell), D u → ∀ v, ¬D v → (w.setCell u c).cell v = w.cell v := by
    intro u c hu v hv
    rw [cell_setCell, if_neg]
    rintro rfl
    exact hv hu
  cases h with
  | host | enter => exact ⟨rfl, fun _ _ => rfl⟩
  | bind _ hu | store _ hu | flag hu => exact ⟨rfl, hcell _ hu⟩

theorem runSteps_keep {D : Var → Prop} (h : Relation.ReflTransGen (Expr.RunStep D) w w') :
    w'.namespaces = w.namespaces ∧ ∀ v, ¬D v → w'.cell v = w.cell v := by
  induction h with
  | refl => exact ⟨rfl, fun _ _ => rfl⟩
  | tail _ hstep ih =>
    obtain ⟨hnamespaces, hcells⟩ := runStep_keeps hstep
    exact ⟨hnamespaces.trans ih.1, fun v hv => (hcells v hv).trans (ih.2 v hv)⟩

/-- A run after analysis that writes to the defined vars only. -/
theorem Confined.run {log : List LogRecord} (h : w.Confined ns opened w₁)
    (hrun : Relation.ReflTransGen (Expr.RunStep (· ∈ opened.map (·.2))) { w₁ with log } w') :
    w.Confined ns opened w' := by
  have hkept := runSteps_keep hrun
  obtain ⟨hnamespaces, hcells⟩ : w'.namespaces = w₁.namespaces ∧
    ∀ v, v ∉ opened.map (·.2) → w'.cell v = w₁.cell v := hkept
  have haliases := congrArg Namespace.aliases (namespaceAt_congr hnamespaces ns)
  have hlookup := lookup_congr hnamespaces
  exact {
    elsewhere := fun m hm => by rw [hnamespaces, h.elsewhere m hm]
    aliases := haliases.trans h.aliases
    names := fun name hname => by rw [hlookup, h.names name hname]
    targets := by
      intro d hd
      obtain ⟨hns, hnames⟩ := h.targets d hd
      obtain ⟨home, hhome, hfound⟩ := names_iff.mp hnames
      refine ⟨hns, names_iff.mpr ⟨home, ?_, ?_⟩⟩
      · rw [homeOf_congr haliases (hasNs_congr hnamespaces), hhome]
      · rw [hlookup, hfound]
    cells := by
      intro v hv
      rw [hcells v, h.cells v hv]
      intro hmem
      obtain ⟨d, hd, hd'⟩ := List.mem_map.mp hmem
      exact hv d hd hd' }

end World

theorem confined_of_analyze (ctx : Context) (form : Form) (w : World) : ∃ opened,
    opened.map (·.1) <+: form.definitions ∧ w.Confined ctx.ns opened (Exec.finalWorld (analyze ctx form) w) ∧
      ∀ e w', analyze ctx form w = .ok e w' → opened.map (·.2) = e.targets := by
  have hsilent := World.silent_of_steps ((silent_analysis ctx).analyze form) w
  obtain ⟨opened, hds, hopens, hall⟩ := opened_by_analyze ctx form w
  exact ⟨opened, hds, (World.residue_of_opens hopens).confined hsilent, fun e w' h => (hall e w' h).2⟩

theorem confined_of_evalFormWith (options : Options) (engine : Engine) (form : Form) (w : World) : ∃ opened,
    opened.map (·.1) <+: form.definitions ∧
      w.Confined w.current opened (Exec.finalWorld (evalFormWith options engine form) w) := by
  obtain ⟨opened, hds, hconfined, htargets⟩ :=
    confined_of_analyze (topLevelContext options w form.span.line) form w
  refine ⟨opened, hds, ?_⟩
  cases h : analyzeTopLevel options form w with
  | error err w₁ =>
    rw [Exec.finalWorld_of_error (evalFormWith_of_analyze_error h engine)]
    rwa [Exec.finalWorld_of_error (x := analyze (topLevelContext options w form.span.line) form) h] at hconfined
  | ok e w₁ =>
    rw [Exec.finalWorld_of_ok (x := analyze (topLevelContext options w form.span.line) form) h] at hconfined
    obtain ⟨log, hrun⟩ := evalFormWith_of_analyze h engine
    have hend : Exec.finalWorld (evalFormWith options engine form) w =
        Exec.finalWorld (e.bareIn engine.order) { w₁ with log } :=
      (Exec.finalWorld_congr hrun).trans (Exec.finalWorld_adapt _ _ _)
    -- the node defines the opened vars, so the run writes to no others
    have hevery : e.Every fun d => ∀ v ∈ d.target?, v ∈ opened.map (·.2) :=
      Expr.every_of_targets fun v hv => by rwa [htargets e w₁ h]
    rw [hend]
    exact hconfined.run (hevery.steps_bareIn engine.order _)

/-! ### Main result -/

/-- However a top-level form runs and wherever it fails, it defines names in the current namespace only: there is an
initial segment of its definitions that has vars of this namespace and to which the change is confined. In particular
no var of another namespace is written to. -/
theorem run_confined_to_namespace (options : Options) (engine : Engine) (form : Form) (w : World) :
    let w' := Exec.finalWorld (evalFormWith options engine form) w
    (∃ opened, opened.map (·.1) <+: form.definitions ∧ w.Confined w.current opened w') ∧
      ∀ v, v.ns ≠ w.current → w'.cell v = w.cell v := by
  intro w'
  obtain ⟨opened, hds, hconfined⟩ := confined_of_evalFormWith options engine form w
  refine ⟨⟨opened, hds, hconfined⟩, fun v hv => hconfined.cells v fun d hd => ?_⟩
  rintro rfl
  exact hv (hconfined.targets d hd).1

/-- The name of a var of `other` that `user` refers to is defined in `user`: the definition gets a var of its own. -/
theorem run_confined_to_namespace_referral :
    let home := (World.start {} .watching).intern "other" "x"
    let w := home.2.refer "user" "x" home.1
    let form : Form := .list [.symbol (.unqualified "def"), .symbol (.unqualified "x"), .int 5]
    let w' := Exec.finalWorld (evalFormWith {} .machine form) w
    home.1.ns ≠ w.current ∧ w'.cell home.1 = w.cell home.1 ∧ w'.lookup "other" "x" = some home.1 ∧
      w'.lookup "user" "x" = some { id := 1, ns := "user", name := "x" } := by
  intro home w form w'
  obtain ⟨⟨opened, -, hconfined⟩, hcells⟩ := run_confined_to_namespace {} .machine form w
  have hother : w'.lookup "other" "x" = some home.1 := by
    have helsewhere := hconfined.elsewhere "other" (by decide)
    rw [World.lookup, World.namespaceAt, helsewhere]
    decide +kernel
  exact ⟨by decide, hcells home.1 (by decide), hother, by decide +kernel⟩

end LispCore
