import LispCore.Proofs.Residue

/-! # Analysing twice

The first analysis changes the namespaces against which the second resolves. It only adds to them, and what it adds are
vars that the namespace owns, so every step that succeeded succeeds again: a definition is resolved to the var that it
was resolved to, and nothing new is made. A step that failed has stopped the analysis, so when the second analysis comes
to it the names are just as they were, and it fails again (`Exec.Repeats`). Flags and argument lists are then set to
what they are already. -/

namespace LispCore

/-! ### Worlds that differ in records -/

namespace World

/-- Nothing is different but what was recorded: names, cells and all else are the same. -/
structure Unchanged (w u : World) : Prop where
  frame : ∃ cells warnings log, u = { w with cells, warnings, log }
  cell : ∀ v, u.cell v = w.cell v

theorem Unchanged.refl (w : World) : w.Unchanged w :=
  ⟨⟨_, _, _, rfl⟩, fun _ => rfl⟩

theorem Unchanged.sameNames {w u : World} (h : w.Unchanged u) : w.SameNames u := by
  obtain ⟨cells, warnings, log, rfl⟩ := h.frame
  exact ⟨rfl, rfl⟩

theorem SameNames.trans {w u u' : World} (h : w.SameNames u) (h' : u.SameNames u') : w.SameNames u' :=
  ⟨h'.namespaces.trans h.namespaces, h'.nextId.trans h.nextId⟩

theorem sameNames_declared (ctx : Context) (sym : Symbol) (v : Var) (w : World) :
    w.SameNames (ctx.declared sym v w) := by
  obtain ⟨cells, warnings, log, h⟩ := ctx.declared_eq sym v w
  rw [h]
  exact ⟨rfl, rfl⟩

/-- Where the same definitions are opened again and no name is mapped, nothing changes: flags are set already, and the
argument lists that are attached last are there already. -/
theorem unchanged_of_opens_again {ctx : Context} {opened : List (Symbol × Var)} {w w' u u' : World}
    (h : ctx.Opens w opened w') (hu : w'.Unchanged u) (h' : ctx.Opens u opened u') (hnames : u.SameNames u')
    (hsilent : u.Silent u') : u.Unchanged u' := by
  have hfirst := residue_of_opens h
  have hsecond := residue_of_opens h'
  have hdynamic : ∀ v, (u'.cell v).dynamic = (u.cell v).dynamic := by
    intro v
    rw [hsecond.flags, hu.cell, hfirst.flags, Bool.or_assoc, Bool.or_self]
  have hmetadata : ∀ v, (u'.cell v).metadata = (u.cell v).metadata := by
    intro v
    rw [hsecond.metadata, hu.cell, hfirst.metadata]
    cases lastAttached v opened with
    | none => rfl
    | some value => exact Table.insert_insert _ (by decide) value value
  constructor
  · obtain ⟨namespaces, nextId, cells, warnings, log, rfl⟩ := hsecond.frame
    obtain ⟨hnamespaces, hnextId⟩ := hnames
    exact ⟨cells, warnings, log, by rw [← hnamespaces, ← hnextId]⟩
  · intro v
    have hroot := hsilent.root v
    have hdynamic := hdynamic v
    have hmetadata := hmetadata v
    cases hcell : u'.cell v
    cases hcell' : u.cell v
    simp_all

end World

/-! ### Names that are found again -/

section Again
variable {ctx : Context} {sym : Symbol} {span : Span} {w w' u : World}

/-- A definition of a name that is mapped to an owned var maps nothing. -/
theorem resolveTarget_of_names {v : Var} (h : u.Names ctx.ns sym v) (hv : v.ns = ctx.ns) (span : Span) :
    resolveTarget ctx sym span u = .ok v u := by
  obtain ⟨home, hhome, hlookup⟩ := World.names_iff.mp h
  rcases resolveTarget_cases ctx sym span u with
    ⟨hns, heq⟩ | ⟨home', v', hhome', -, hlookup', -, heq⟩ | ⟨hnone, -⟩
  · rw [hhome] at hns
    cases hns
    rw [heq]
    rcases u.intern_cases ctx.ns sym.name with ⟨v', hlookup', -, hintern⟩ | ⟨hforeign, -⟩
    · rw [hlookup] at hlookup'
      cases hlookup'
      rw [hintern]
    · exact (hforeign v hlookup hv).elim
  · rw [hhome] at hhome'
    cases hhome'
    rw [hlookup] at hlookup'
    cases hlookup'
    exact heq
  · exact ((hnone home hhome).2 v hlookup hv).elim

/-- A symbol that could be resolved still can be, if perhaps to another var. -/
theorem analyzeSymbol_of_mapped {e : Expr} {later : List (Symbol × Var)} (h : analyzeSymbol ctx sym span w = .ok e w')
    (hlater : w'.Mapped ctx.ns later u) : ∃ e', analyzeSymbol ctx sym span u = .ok e' u := by
  rcases analyzeSymbol_cases ctx sym span w with ⟨home, v, hhome, hlookup, heq⟩ | ⟨-, err, heq⟩ <;> rw [heq] at h <;>
    cases h
  have hhome' := hlater.homeOf hhome
  have hfound : ∃ v', u.lookup home sym.name = some v' := by
    by_cases hne : home = ctx.ns
    · subst hne
      rcases hlater.names sym.name with hsame | ⟨-, d, -, -, hlookup', -⟩
      · exact ⟨v, hsame.trans hlookup⟩
      · exact ⟨d.2, hlookup'⟩
    · exact ⟨v, (hlater.lookup_elsewhere hne sym.name).trans hlookup⟩
  obtain ⟨v', hlookup'⟩ := hfound
  rcases analyzeSymbol_cases ctx sym span u with ⟨_, v'', -, -, heq⟩ | ⟨hnone, -⟩
  · exact ⟨_, heq⟩
  · rw [hnone home hhome'] at hlookup'
    cases hlookup'

end Again

/-- Analysis reads names only, so it fails alike where names are the same. -/
theorem sameNames_analysis (ctx : Context) : AnalysisEffects ctx fun _ x y =>
    Exec.Couples World.SameNames World.SameNames (fun err err' w u => err = err' ∧ World.SameNames w u) x y := by
  have hkept : ∀ {w u : World} {f : World → World}, (∀ w : World, w.SameNames (f w)) → w.SameNames u →
      (f w).SameNames (f u) := by
    intro w u f hf h
    exact ⟨(hf u).namespaces.trans (h.namespaces.trans (hf w).namespaces.symm),
      (hf u).nextId.trans (h.nextId.trans (hf w).nextId.symm)⟩
  have hcoupling : AnalysisCoupling World.SameNames := {
    names := fun h => h
    intern := fun ns name h => by
      rw [World.intern_following h]
      exact ⟨rfl, rfl⟩
    flag := fun v => hkept (f := fun w => w.setDynamic v) fun _ => ⟨rfl, rfl⟩
    warn := fun warning => hkept (f := fun w => w.warn warning) fun w => by
      unfold World.warn
      split <;> exact ⟨rfl, rfl⟩
    addTag := fun v k value => hkept (f := fun w => w.addTag v k value) fun _ => ⟨rfl, rfl⟩ }
  exact hcoupling.effects (fun _ _ _ h => ⟨rfl, h⟩) ctx

/-! ### Computations that repeat -/

/-- What succeeded succeeds again in any world that the names have come to since, and what failed fails again in any
world with the names that it left. Both times the same definitions are opened, and the second time no name is mapped. -/
structure Exec.Repeats {α : Type} (ctx : Context) (x : Exec α) : Prop where
  ok : ∀ {w a w'}, x w = .ok a w' → ∃ opened, ctx.Opens w opened w' ∧ ∀ {later u}, w'.Mapped ctx.ns later u →
    ∃ a' u', x u = .ok a' u' ∧ ctx.Opens u opened u' ∧ u.SameNames u'
  error : ∀ {w err w'}, x w = .error err w' → ∃ opened, ctx.Opens w opened w' ∧ ∀ {u}, w'.SameNames u →
    ∃ u', x u = .error err u' ∧ ctx.Opens u opened u' ∧ u.SameNames u'

namespace Exec.Repeats
variable {α β : Type} {ctx : Context} {x : Exec α} {y : Exec β}

theorem pure (a : α) : Repeats ctx (Pure.pure a : Exec α) where
  ok h := by
    cases h
    exact ⟨[], .nil, fun {_ u} _ => ⟨a, u, rfl, .nil, ⟨rfl, rfl⟩⟩⟩
  error h := by cases h

/-- What comes second must not depend on the value of the first: it may be another the second time. -/
theorem seq (hx : Repeats ctx x) (hy : Repeats ctx y) : Repeats ctx (x >>= fun _ => y) where
  ok h := by
    obtain ⟨_, w₁, h₁, h₂⟩ := bind_eq_ok h
    obtain ⟨opened₁, hopens₁, hagain₁⟩ := hx.ok h₁
    obtain ⟨opened₂, hopens₂, hagain₂⟩ := hy.ok h₂
    refine ⟨opened₁ ++ opened₂, hopens₁.append hopens₂, fun {later u} hlater => ?_⟩
    -- what the second part has mapped has come since
    obtain ⟨_, u₁, hu₁, hopened₁, hnames₁⟩ := hagain₁ ((World.residue_of_opens hopens₂).toMapped.trans hlater)
    obtain ⟨b, u₂, hu₂, hopened₂, hnames₂⟩ := hagain₂ (hlater.congr hnames₁)
    exact ⟨b, u₂, by rw [bind_of_ok hu₁, hu₂], hopened₁.append hopened₂, hnames₁.trans hnames₂⟩
  error h := by
    rcases bind_eq_error h with h₁ | ⟨_, w₁, h₁, h₂⟩
    · obtain ⟨opened, hopens, hagain⟩ := hx.error h₁
      refine ⟨opened, hopens, fun {u} hu => ?_⟩
      obtain ⟨u', hu', hrest⟩ := hagain hu
      exact ⟨u', bind_of_error hu', hrest⟩
    · obtain ⟨opened₁, hopens₁, hagain₁⟩ := hx.ok h₁
      obtain ⟨opened₂, hopens₂, hagain₂⟩ := hy.error h₂
      refine ⟨opened₁ ++ opened₂, hopens₁.append hopens₂, fun {u} hu => ?_⟩
      obtain ⟨_, u₁, hu₁, hopened₁, hnames₁⟩ := hagain₁ ((World.residue_of_opens hopens₂).toMapped.congr hu)
      obtain ⟨u₂, hu₂, hopened₂, hnames₂⟩ := hagain₂ (hu.trans hnames₁)
      exact ⟨u₂, by rw [bind_of_ok hu₁, hu₂], hopened₁.append hopened₂, hnames₁.trans hnames₂⟩

theorem forget (hx : Repeats ctx x) : Repeats ctx ((fun _ => ()) <$> x) := by
  rw [map_eq_pure_bind]
  exact hx.seq (pure ())

/-- What neither reads nor changes the world. -/
theorem of_constant (h : (∃ a, ∀ w, x w = .ok a w) ∨ ∃ err, ∀ w, x w = .error err w) : Repeats ctx x where
  ok {w a w'} hx := by
    rcases h with ⟨a, h⟩ | ⟨err, h⟩
    · rw [h] at hx
      cases hx
      exact ⟨[], .nil, fun {_ u} _ => ⟨a, u, h u, .nil, ⟨rfl, rfl⟩⟩⟩
    · rw [h] at hx
      cases hx
  error {w err w'} hx := by
    rcases h with ⟨a, h⟩ | ⟨err, h⟩
    · rw [h] at hx
      cases hx
    · rw [h] at hx
      cases hx
      exact ⟨[], .nil, fun {u} _ => ⟨u, h u, .nil, ⟨rfl, rfl⟩⟩⟩

end Exec.Repeats

section Steps
variable (ctx : Context)

theorem repeats_analyzeSymbol (sym : Symbol) (span : Span) : Exec.Repeats ctx (analyzeSymbol ctx sym span) where
  ok {w e w'} h := by
    have hsame := finalWorld_analyzeSymbol ctx sym span w
    rw [Exec.finalWorld_of_ok h] at hsame
    subst hsame
    refine ⟨[], .nil, fun {later u} hlater => ?_⟩
    obtain ⟨e', h'⟩ := analyzeSymbol_of_mapped h hlater
    exact ⟨e', u, h', .nil, ⟨rfl, rfl⟩⟩
  error {w err w'} h := by
    have hsame := finalWorld_analyzeSymbol ctx sym span w
    rw [Exec.finalWorld_of_error h] at hsame
    subst hsame
    refine ⟨[], .nil, fun {u} hu => ?_⟩
    have hfails := (sameNames_analysis ctx).analyzeSymbol sym span w' u hu
    rw [h] at hfails
    obtain ⟨_, u', hu', rfl, -⟩ := hfails.of_error
    have hsame' := finalWorld_analyzeSymbol ctx sym span u
    rw [Exec.finalWorld_of_error hu'] at hsame'
    subst hsame'
    exact ⟨u', hu', .nil, ⟨rfl, rfl⟩⟩

/-- A definition that was opened is opened again with the var that it got, and one that could not be resolved is
not. -/
theorem repeats_openDefinition (sym : Symbol) (span : Span) : Exec.Repeats ctx (openDefinition ctx sym span) := by
  have hagain : ∀ {w w₁ v}, resolveTarget ctx sym span w = .ok v w₁ → ∀ {later u},
      (ctx.declared sym v w₁).Mapped ctx.ns later u → resolveTarget ctx sym span u = .ok v u := by
    intro w w₁ v hresolve later u hlater
    obtain ⟨hv, hnames⟩ := ((World.mapped_resolveTarget hresolve).declared ctx sym v).targets (sym, v) (by simp)
    exact resolveTarget_of_names (hlater.names_owned hv hnames) hv span
  have hopens : ∀ {w w₁ v}, resolveTarget ctx sym span w = .ok v w₁ →
      ctx.Opens w [(sym, v)] (ctx.declared sym v w₁) := fun hresolve => .cons hresolve .nil
  refine { ok := fun {w v w'} h => ?_, error := fun {w err w'} h => ?_ }
  · obtain ⟨v, w₁, hresolve, -⟩ := Exec.bind_eq_ok h
    rcases openDefinition_cases ctx sym with hopen | ⟨err, hopen⟩ <;> rw [hopen span w v w₁ hresolve] at h <;> cases h
    refine ⟨[(sym, v)], hopens hresolve, fun {later u} hlater => ?_⟩
    have hresolve' := hagain hresolve hlater
    exact ⟨v, _, hopen span u v u hresolve', hopens hresolve', World.sameNames_declared ctx sym v u⟩
  · cases hresolve : resolveTarget ctx sym span w with
    | ok v w₁ =>
      rcases openDefinition_cases ctx sym with hopen | ⟨err, hopen⟩ <;> rw [hopen span w v w₁ hresolve] at h <;> cases h
      refine ⟨[(sym, v)], hopens hresolve, fun {u} hu => ?_⟩
      have hresolve' := hagain hresolve ((World.Mapped.refl ctx.ns _).congr hu)
      exact ⟨_, hopen span u v u hresolve', hopens hresolve', World.sameNames_declared ctx sym v u⟩
    | error err₁ w₁ =>
      have hsame := resolveTarget_of_error hresolve
      rw [openDefinition, Exec.bind_of_error hresolve] at h
      cases h
      refine ⟨[], hsame ▸ .nil, fun {u} hu => ?_⟩
      have hfails := (sameNames_analysis ctx).resolveTarget sym span w u (hsame ▸ hu)
      rw [hresolve] at hfails
      obtain ⟨_, u', hu', rfl, -⟩ := hfails.of_error
      obtain rfl := resolveTarget_of_error hu'
      exact ⟨u', Exec.bind_of_error hu', .nil, ⟨rfl, rfl⟩⟩

theorem repeats_perform (step : AnalysisStep) : Exec.Repeats ctx (step.perform ctx) := by
  cases step with
  | refer sym span => exact (repeats_analyzeSymbol ctx sym span).forget
  | define sym span => exact (repeats_openDefinition ctx sym span).forget
  | take data =>
    refine Exec.Repeats.forget (.of_constant ?_)
    cases data.toValue with
    | ok value => exact .inl ⟨value, fun _ => rfl⟩
    | error failure => exact .inr ⟨.plain failure, fun _ => rfl⟩
  | reject span fault => exact .of_constant (.inr ⟨_, fun _ => rfl⟩)

theorem repeats_walk (steps : List AnalysisStep) : Exec.Repeats ctx (walk ctx steps) := by
  induction steps with
  | nil => exact .pure ()
  | cons step rest ih => exact (repeats_perform ctx step).seq ih

end Steps

/-- The second analysis starts from what the first has left, or from a world that differs from it in records. -/
theorem analyze_again {ctx : Context} {form : Form} {w u : World}
    (hu : (Exec.finalWorld (analyze ctx form) w).Unchanged u) :
    (∀ e w', analyze ctx form w = .ok e w' → ∃ e' u', analyze ctx form u = .ok e' u' ∧ u.Unchanged u') ∧
    ∀ err w', analyze ctx form w = .error err w' → ∃ u', analyze ctx form u = .error err u' ∧ u.Unchanged u' := by
  have hsilent := World.silent_of_steps ((silent_analysis ctx).analyze form) u
  constructor
  · intro e w' h
    rw [Exec.finalWorld_of_ok h] at hu
    obtain ⟨opened, hopens, hagain⟩ := (repeats_walk ctx form.steps).ok (walk_of_ok h)
    obtain ⟨_, u', hwalk, hopens', hnames⟩ := hagain ((World.Mapped.refl ctx.ns w').congr hu.sameNames)
    obtain ⟨e', he'⟩ := analyze_of_walk_ok hwalk
    rw [Exec.finalWorld_of_ok he'] at hsilent
    exact ⟨e', u', he', World.unchanged_of_opens_again hopens hu hopens' hnames hsilent⟩
  · intro err w' h
    rw [Exec.finalWorld_of_error h] at hu
    obtain ⟨opened, hopens, hagain⟩ := (repeats_walk ctx form.steps).error (walk_of_error h)
    obtain ⟨u', hwalk, hopens', hnames⟩ := hagain hu.sameNames
    have herr := analyze_of_walk_error hwalk
    rw [Exec.finalWorld_of_error herr] at hsilent
    exact ⟨u', herr, World.unchanged_of_opens_again hopens hu hopens' hnames hsilent⟩

theorem analyze_twice (ctx : Context) (form : Form) (w : World) :
    let w₁ := Exec.finalWorld (analyze ctx form) w
    (∃ e e' w₂, analyze ctx form w = .ok e w₁ ∧ analyze ctx form w₁ = .ok e' w₂ ∧ w₁.Unchanged w₂) ∨
    ∃ err w₂, analyze ctx form w = .error err w₁ ∧ analyze ctx form w₁ = .error err w₂ ∧ w₁.Unchanged w₂ := by
  intro w₁
  obtain ⟨hok, herror⟩ := analyze_again (World.Unchanged.refl w₁)
  cases h : analyze ctx form w with
  | ok e w' =>
    obtain ⟨e', w₂, h', hunchanged⟩ := hok e w' h
    exact .inl ⟨e, e', w₂, by rw [← Exec.finalWorld_of_ok h], h', hunchanged⟩
  | error err w' =>
    obtain ⟨w₂, h', hunchanged⟩ := herror err w' h
    exact .inr ⟨err, w₂, by rw [← Exec.finalWorld_of_error h], h', hunchanged⟩

/-! ### Sessions -/

section Sessions
variable {options : Options} {form : Form} {w w₁ : World}

theorem analyzeTopLevel_apply (options : Options) (form : Form) (w : World) :
    analyzeTopLevel options form w = analyze (topLevelContext options w form.span.line) form w :=
  rfl

/-- A form is analysed in the same context after it has been analysed. -/
theorem topLevelContext_finalWorld (options : Options) (form : Form) (ctx : Context) (w : World) (line : Nat) :
    topLevelContext options (Exec.finalWorld (analyze ctx form) w) line = topLevelContext options w line := by
  obtain ⟨opened, -, hopens, -⟩ := opened_by_analyze ctx form w
  obtain ⟨_, _, _, _, _, hframe⟩ := (World.residue_of_opens hopens).frame
  rw [hframe]
  rfl

theorem analyzeTopLevel_again {u : World} (hu : (Exec.finalWorld (analyzeTopLevel options form) w).Unchanged u) :
    (∀ e w', analyzeTopLevel options form w = .ok e w' →
      ∃ e' u', analyzeTopLevel options form u = .ok e' u' ∧ u.Unchanged u') ∧
    ∀ err w', analyzeTopLevel options form w = .error err w' →
      ∃ u', analyzeTopLevel options form u = .error err u' ∧ u.Unchanged u' := by
  have hfinal := Exec.finalWorld_congr (analyzeTopLevel_apply options form w)
  have hcontext : topLevelContext options u form.span.line = topLevelContext options w form.span.line := by
    rw [hfinal] at hu
    obtain ⟨_, _, _, rfl⟩ := hu.frame
    exact topLevelContext_finalWorld options form _ w _
  rw [hfinal] at hu
  simp only [analyzeTopLevel_apply, hcontext]
  exact analyze_again hu

end Sessions

/-- Analysing a form again right after it was analysed succeeds just when it did, fails just with the error that it
failed with, and changes nothing. So it is in a session in which the form is compiled and then evaluated. -/
theorem analysis_is_idempotent (ctx : Context) (form : Form) (w : World) :
    let w₁ := Exec.finalWorld (analyze ctx form) w
    ((∃ e, analyze ctx form w = .ok e w₁) ↔ ∃ e w₂, analyze ctx form w₁ = .ok e w₂) ∧
    (∀ err, analyze ctx form w = .error err w₁ ↔ ∃ w₂, analyze ctx form w₁ = .error err w₂) ∧
    w₁.Unchanged (Exec.finalWorld (analyze ctx form) w₁) ∧
    ∀ options,
      (∀ err w₁, compileForm options form w = .error err w₁ → ∀ engine,
        ∃ w₂, evalFormWith options engine form w₁ = .error err w₂ ∧ w₁.Unchanged w₂) ∧
      ∀ code w₁, compileForm options form w = .ok code w₁ →
        ∃ e w₂, analyzeTopLevel options form w₁ = .ok e w₂ ∧ w₁.Unchanged w₂ := by
  intro w₁
  refine ⟨?_, ?_, ?_, fun options => ⟨fun err w' h engine => ?_, fun code w' h => ?_⟩⟩
  · rcases analyze_twice ctx form w with ⟨e, e', w₂, h, h', -⟩ | ⟨err, w₂, h, h', -⟩ <;> simp [w₁, h, h']
  · intro err
    rcases analyze_twice ctx form w with ⟨e, e', w₂, h, h', -⟩ | ⟨err, w₂, h, h', -⟩ <;> simp [w₁, h, h']
  · rcases analyze_twice ctx form w with ⟨e, e', w₂, -, h', hunchanged⟩ | ⟨err, w₂, -, h', hunchanged⟩
    · rwa [Exec.finalWorld_of_ok h']
    · rwa [Exec.finalWorld_of_error h']
  · have hanalyze : analyzeTopLevel options form w = .error err w' := by
      rcases Exec.bind_eq_error h with h | ⟨e, w₀, -, h⟩
      · exact h
      · cases h
    have hsame : (Exec.finalWorld (analyzeTopLevel options form) w).Unchanged w' := by
      rw [Exec.finalWorld_of_error hanalyze]
      exact .refl w'
    obtain ⟨w₂, h₂, hunchanged⟩ := (analyzeTopLevel_again hsame).2 err w' hanalyze
    exact ⟨w₂, Exec.bind_of_error h₂, hunchanged⟩
  · obtain ⟨e, w₀, hanalyze, hcompile⟩ := Exec.bind_eq_ok h
    have hrecords : (Exec.finalWorld (analyzeTopLevel options form) w).Unchanged w' := by
      rw [Exec.finalWorld_of_ok hanalyze]
      cases hcompile
      exact ⟨⟨_, _, _, rfl⟩, fun _ => rfl⟩
    exact (analyzeTopLevel_again hrecords).1 e w₀ hanalyze

/-- In `(do (def ^{:arglists '([a])} x) (def ^{:arglists '([b])} x) y)` the second definition gives the var other argument
lists, and `y` is not there. Evaluating the form after it could not be compiled fails likewise, and `x` keeps the argument
lists that it has. -/
theorem analysis_is_idempotent_unresolved :
    let w := World.start {} .watching
    let name (text : String) : Form := .symbol (.unqualified text)
    let x (arg : String) : Symbol :=
      ⟨none, "x", some [(.keyword "arglists", .list [name "quote", .list [.vector [name arg]]])]⟩
    let form : Form := .list [name "do", .list [name "def", .symbol (x "a")], .list [name "def", .symbol (x "b")],
      name "y"]
    ∃ err w₁ w₂, compileForm {} form w = .error err w₁ ∧ evalFormWith {} .machine form w₁ = .error err w₂ ∧
      w₁.Unchanged w₂ ∧ w₁.lookup "user" "x" = some { id := 0, ns := "user", name := "x" } := by
  intro w name x form
  have hfails : Exec.errorWith (fun _ w₁ => w₁.lookup "user" "x" = some { id := 0, ns := "user", name := "x" })
      (compileForm {} form w) = true := by
    decide +kernel
  obtain ⟨err, w₁, hcompile, hlookup⟩ := Exec.exists_of_errorWith hfails
  obtain ⟨w₂, heval, hunchanged⟩ :=
    ((analysis_is_idempotent { ns := "user" } form w).2.2.2 {}).1 err w₁ hcompile .machine
  exact ⟨err, w₁, w₂, hcompile, heval, hunchanged, of_decide_eq_true hlookup⟩

end LispCore
