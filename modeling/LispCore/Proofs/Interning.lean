import LispCore.Proofs.Definitions
import LispCore.Proofs.Sessions
import Mathlib.Data.List.Nodup

/-! # Definitions and the names they define

A namespace that owns a var has it under its own name, since names are given only when vars are made (`World.NameStep`).
The one exception is a referral of another name to the var. Interning such a name finds the var, and so does a
definition of it. -/

namespace LispCore

/-! ### Tables whose keys are distinct -/

namespace Table
variable {κ α : Type} [BEq κ] [LawfulBEq κ]

theorem nodup_keys_insert {t : Table κ α} (h : (t.map (·.1)).Nodup) (k : κ) (a : α) :
    ((insert t k a).map (·.1)).Nodup := by
  induction t with
  | nil => exact List.nodup_singleton k
  | cons e rest ih =>
    obtain ⟨hfirst, hrest⟩ := List.nodup_cons.mp h
    unfold insert
    split
    · next heq =>
      obtain rfl : k = e.1 := by simpa using heq
      exact h
    · next hne =>
      refine List.nodup_cons.mpr ⟨fun hmem => ?_, ih hrest⟩
      obtain ⟨e', he', hkey⟩ := List.mem_map.mp hmem
      rcases eq_or_mem_of_mem_insert he' with rfl | he'
      · exact hne (by simp [← hkey])
      · exact hfirst (hkey ▸ List.mem_map_of_mem he')

theorem get?_eq_some_iff {t : Table κ α} (h : (t.map (·.1)).Nodup) {k : κ} {a : α} :
    get? t k = some a ↔ (k, a) ∈ t := by
  induction t with
  | nil => simp [get?]
  | cons e rest ih =>
    obtain ⟨hfirst, hrest⟩ := List.nodup_cons.mp h
    rw [get?_cons, List.mem_cons]
    split
    · next heq =>
      obtain rfl : k = e.1 := by simpa using heq
      have hother : (e.1, a) ∉ rest := fun hmem => hfirst (List.mem_map_of_mem (f := (·.1)) hmem)
      obtain ⟨k, b⟩ := e
      simp [hother, eq_comm]
    · next hne =>
      have hother : (k, a) ≠ e := by
        rintro rfl
        exact hne (beq_self_eq_true k)
      rw [ih hrest]
      simp [hother]

end Table

namespace World
variable {w w' : World} {R : String → String → Var → Prop}

/-! ### Steps of the registry -/

/-- What happens to the mappings of namespaces in one step, referrals apart: nothing, or a var is mapped to its own name
in the namespace that owns it. -/
inductive NameStep : World → World → Prop where
  | same {w w' : World} : w'.namespaces = w.namespaces → NameStep w w'
  | data {w w' : World} (ns : String) {data : Namespace} : w'.namespaces = (w.setNs ns data).namespaces →
      data.mappings = (w.namespaceAt ns).mappings → NameStep w w'
  | own {w w' : World} (v : Var) : w'.namespaces = (w.refer v.ns v.name v).namespaces → NameStep w w'

theorem nameStep_intern (w : World) (ns name : String) : w.NameStep (w.intern ns name).2 := by
  rcases w.intern_cases ns name with ⟨v, -, -, h⟩ | ⟨-, notes, -, h⟩
  · rw [h]
    exact .same rfl
  · rw [h]
    exact .own (w.nextVar ns name) rfl

theorem nameStep_ensureNs (w : World) (ns : String) : w.NameStep (w.ensureNs ns) := by
  rcases w.ensureNs_eq ns with h | h <;> rw [h]
  · exact .same rfl
  · exact .data ns rfl rfl

end World

theorem nameStep_analysis (ctx : Context) : AnalysisEffects ctx fun _ x _ => Exec.Steps World.NameStep x := {
  Exec.steps_congruence World.NameStep with
  fail := fun _ _ _ => .refl
  data := fun result w => by cases result <;> exact .refl
  resolve := fun span sym create => by
    refine Exec.steps_adapt _ fun w => .single ?_
    rcases finalWorld_resolveVar ctx.ns sym create w with h | h <;> rw [h]
    · exact .same rfl
    · exact w.nameStep_intern ctx.ns sym.name
  intern := fun name w => .single (w.nameStep_intern ctx.ns name)
  flag := fun v => Exec.steps_modify fun w => .same rfl
  warn := fun warning => Exec.steps_modify fun w => by
    unfold World.warn
    split <;> exact .same rfl
  addTag := fun v k value => Exec.steps_modify fun w => .same rfl }

/-- Nothing but a referral does more to mappings. -/
theorem World.nameStep_acts : World.ActsBy (·.referral? = none) World.NameStep where
  ensureNs := nameStep_ensureNs
  current _ _ := .same rfl
  intern := nameStep_intern
  refer _ _ _ _ h := by cases h
  addAlias _ ns _ _ _ := .data ns rfl rfl
  rebind _ _ _ _ _ := .same rfl
  step h := .same (runStep_keeps h).1
  note _ _ _ := .same rfl
  native _ _ _ _ := .same rfl
  analyze ctx form := (nameStep_analysis ctx).analyze form

/-! ### What the steps keep -/

namespace World
variable {w w' : World} {R : String → String → Var → Prop}

/-- Each namespace has a name once, and a var that it owns under the var's name, unless `R` says that another name was
referred to the var. -/
structure Tidy (R : String → String → Var → Prop) (w : World) : Prop where
  keys : ∀ ns, ((w.namespaceAt ns).mappings.map (·.1)).Nodup
  named : ∀ ns name v, w.lookup ns name = some v → v.ns = ns → v.name = name ∨ R ns name v

theorem Tidy.of_namespaces (h : w.Tidy R) (hsame : w'.namespaces = w.namespaces) : w'.Tidy R where
  keys := fun ns => by rw [namespaceAt_congr hsame]; exact h.keys ns
  named := fun ns name v hlookup => h.named ns name v (lookup_congr hsame ns name ▸ hlookup)

theorem keys_setNs (h : ∀ ns, ((w.namespaceAt ns).mappings.map (·.1)).Nodup) {ns : String} {data : Namespace}
    (hdata : (data.mappings.map (·.1)).Nodup) (m : String) :
    (((w.setNs ns data).namespaceAt m).mappings.map (·.1)).Nodup := by
  rw [namespaceAt_setNs]
  split
  · exact hdata
  · exact h m

theorem Tidy.refer (h : w.Tidy R) {ns name : String} {v : Var} (hv : v.ns = ns → v.name = name ∨ R ns name v) :
    (w.refer ns name v).Tidy R where
  keys := keys_setNs h.keys (Table.nodup_keys_insert (h.keys ns) name v)
  named := by
    intro m n u hlookup hu
    rw [lookup_refer] at hlookup
    split at hlookup
    · next hmn =>
      obtain ⟨rfl, rfl⟩ := hmn
      cases hlookup
      exact hv hu
    · exact h.named m n u hlookup hu

theorem Tidy.step (h : w.Tidy R) (hstep : w.NameStep w') : w'.Tidy R := by
  cases hstep with
  | same hsame => exact h.of_namespaces hsame
  | data ns hsame hdata =>
    refine Tidy.of_namespaces ⟨keys_setNs h.keys (hdata ▸ h.keys ns), fun m name v hlookup => ?_⟩ hsame
    refine h.named m name v ?_
    rw [lookup, namespaceAt_setNs] at hlookup
    split at hlookup
    · next hm => rw [lookup, hm, ← hdata, hlookup]
    · exact hlookup
  | own v hsame => exact (h.refer fun _ => .inl rfl).of_namespaces hsame

theorem tidy_start (options : Options) (audience : Audience) : (World.start options audience).Tidy R := by
  have hempty : ({ current := options.ns, audience } : World).Tidy R :=
    ⟨fun _ => List.nodup_nil, fun _ _ _ hlookup => by cases hlookup⟩
  exact hempty.step (nameStep_ensureNs _ options.ns)

end World

theorem Action.tidy_perform {R : String → String → Var → Prop} {w : World} (h : w.Tidy R) {action : Action}
    (haction : ∀ ns name v, action = .refer ns name v → R ns name v) : (perform w action).Tidy R := by
  cases hreferral : action.referral? with
  | none =>
    have hsteps := World.nameStep_acts.steps hreferral w
    generalize perform w action = w' at hsteps
    induction hsteps with
    | refl => exact h
    | tail _ hstep ih => exact ih.step hstep
  | some r =>
    cases action with
    | refer ns name v => exact h.refer fun _ => .inr (haction ns name v rfl)
    | _ => cases hreferral

theorem Action.tidy_run {R : String → String → Var → Prop} {w : World} (h : w.Tidy R) {actions : List Action}
    (hactions : ∀ ns name v, .refer ns name v ∈ actions → R ns name v) : (run w actions).Tidy R := by
  induction actions generalizing w with
  | nil => exact h
  | cons action rest ih =>
    refine ih (tidy_perform h fun ns name v haction => ?_) fun ns name v hmem => ?_
    · exact hactions ns name v (haction ▸ List.mem_cons_self)
    · exact hactions ns name v (List.mem_cons_of_mem _ hmem)

namespace World
variable {w : World} {R : String → String → Var → Prop}

/-! ### Interning in a tidy world -/

/-- Interning gives a var of another name exactly if the namespace has the name for such a var of its own. -/
theorem name_intern_ne_iff (w : World) (ns name : String) :
    (w.intern ns name).1.name ≠ name ↔ ∃ v, w.lookup ns name = some v ∧ v.ns = ns ∧ v.name ≠ name := by
  rcases w.intern_cases ns name with ⟨v, hlookup, hv, h⟩ | ⟨hforeign, notes, -, h⟩
  · rw [h, hlookup]
    constructor
    · intro hname
      exact ⟨v, rfl, hv, hname⟩
    · rintro ⟨_, ⟨⟩, -, hname⟩
      exact hname
  · rw [h]
    constructor
    · intro hname
      exact (hname rfl).elim
    · rintro ⟨v, hlookup, hv, -⟩
      exact (hforeign v hlookup hv).elim

/-- The vars of a namespace are listed once each exactly if it has no two names for one of them. -/
theorem Tidy.nodup_interned_iff (h : w.Tidy R) (ns : String) : (w.interned ns).Nodup ↔
    ∀ name name' v, w.lookup ns name = some v → w.lookup ns name' = some v → v.ns = ns → name = name' := by
  have hmem : ∀ name v, w.lookup ns name = some v ↔ (name, v) ∈ (w.namespaceAt ns).mappings :=
    fun name v => Table.get?_eq_some_iff (h.keys ns)
  have hinterned : w.interned ns = ((w.namespaceAt ns).mappings.filter fun e => e.2.ns == ns).map (·.2) :=
    List.filter_map
  rw [hinterned]
  constructor
  · intro hnodup name name' v hname hname' hv
    have hentry : ∀ n, w.lookup ns n = some v → (n, v) ∈ (w.namespaceAt ns).mappings.filter fun e => e.2.ns == ns :=
      fun n hn => List.mem_filter.mpr ⟨(hmem n v).mp hn, by simpa using hv⟩
    have heq := List.inj_on_of_nodup_map hnodup (hentry name hname) (hentry name' hname') rfl
    exact congrArg (·.1) heq
  · intro hinj
    refine List.Nodup.map_on (fun e he e' he' hvar => ?_) ((List.Nodup.of_map _ (h.keys ns)).filter _)
    obtain ⟨he, hns⟩ := List.mem_filter.mp he
    obtain ⟨he', -⟩ := List.mem_filter.mp he'
    obtain ⟨name, v⟩ := e
    obtain ⟨name', v'⟩ := e'
    obtain rfl : v = v' := hvar
    rw [hinj name name' v ((hmem name v).mpr he) ((hmem name' v).mpr he') (by simpa using hns)]

end World

/-! ### Running a definition -/

namespace Expr
variable {v : Var} {dynamic : Bool} {tags : List (Key × Expr)} {e : Expr} {pos : SourcePos} {order : DefOrder}
  {w w' : World} {value : Value}

theorem namespaces_bareIn (h : e.bareIn order w = .ok value w') : w'.namespaces = w.namespaces := by
  have hsteps := (every_of_targets (e := e) (D := fun _ => True) fun _ _ => trivial).steps_bareIn order w
  rw [Exec.finalWorld_of_ok h] at hsteps
  exact (World.runSteps_keep hsteps).1

theorem writes_bareIn_nothing (h : e.targets = []) (order : DefOrder) :
    Exec.Writes (fun _ => False) (e.bareIn order) := by
  have hnone : ∀ v ∈ e.targets, False := by simp [h]
  exact .of_steps ((every_of_targets hnone).steps_bareIn order)

theorem writes_metadataIn_nothing (h : targetsOfTags tags = []) (order : DefOrder) :
    Exec.Writes (fun _ => False) (metadataIn order tags) := by
  have hC := Exec.steps_congruence (RunStep fun _ => False)
  have htag : ∀ t ∈ tags, Exec.Steps (RunStep fun _ => False) (t.2.bareIn order) := by
    intro t ht
    have hnone : ∀ v ∈ t.2.targets, False := by
      intro v hv
      have hmem := mem_targetsOfTags ht hv
      rw [h] at hmem
      cases hmem
    exact (every_of_targets hnone).steps_bareIn order
  have htags := @evalTags_congr _ _ (fun _ error => error) _ order hC tags htag
  exact .of_steps (hC.map (y := pure []) _ htags)

/-- A definition that has no other inside gives its var the value of its initial node, and changes no other root. -/
theorem root_of_define (htargets : (Expr.define v dynamic tags (some e) pos).targets = [v])
    (h : (Expr.define v dynamic tags (some e) pos).bareIn order w = .ok value w') :
    value = .var v ∧ ∃ u u' x, (∀ z, (u.cell z).root = (w.cell z).root) ∧ e.bareIn order u = .ok x u' ∧
      ∀ z, (w'.cell z).root = if z = v then some x else (w.cell z).root := by
  obtain ⟨htags, hinit⟩ : targetsOfTags tags = [] ∧ e.targets = [] := by
    simpa [targets_define, targetsOfInit] using htargets
  have hquiet : ∀ {α : Type} {x : Exec α}, Exec.Writes (fun _ => False) x →
      ∀ {u a u'}, x u = .ok a u' → ∀ z, u'.cell z = u.cell z := by
    intro α x hx u a u' hok z
    rw [← Exec.finalWorld_of_ok hok]
    exact hx u z not_false
  rw [bareIn_define] at h
  cases order with
  | initFirst =>
    rw [runDefinition_initFirst] at h
    obtain ⟨found, w₁, hfound, h⟩ := Exec.bind_eq_ok h
    obtain ⟨x, hx, rfl⟩ := Exec.map_eq_ok hfound
    obtain ⟨_, w₂, hbind, h⟩ := Exec.bind_eq_ok h
    cases hbind
    obtain ⟨metadata, w₃, hmetadata, h⟩ := Exec.bind_eq_ok h
    cases h
    refine ⟨rfl, w, w₁, x, fun _ => rfl, hx, fun z => ?_⟩
    have hstored := hquiet (writes_metadataIn_nothing htags _) hmetadata z
    have hkept := hquiet (writes_bareIn_nothing hinit _) hx z
    rw [World.root_markDynamic, World.root_setMetadata, hstored]
    exact (World.root_bindRoot w₁ v x z).trans (by rw [hkept])
  | tagsFirst =>
    rw [runDefinition_tagsFirst] at h
    obtain ⟨_, w₁, hmark, h⟩ := Exec.bind_eq_ok h
    cases hmark
    obtain ⟨metadata, w₂, hmetadata, h⟩ := Exec.bind_eq_ok h
    obtain ⟨_, w₃, hstore, h⟩ := Exec.bind_eq_ok h
    cases hstore
    obtain ⟨found, w₄, hfound, h⟩ := Exec.bind_eq_ok h
    obtain ⟨x, hx, rfl⟩ := Exec.map_eq_ok hfound
    cases h
    have hroot : ∀ z, ((w₂.setMetadata v metadata).cell z).root = (w.cell z).root := by
      intro z
      rw [World.root_setMetadata, hquiet (writes_metadataIn_nothing htags _) hmetadata, World.root_markDynamic]
    refine ⟨rfl, _, w₄, x, hroot, hx, fun z => ?_⟩
    have hkept := hquiet (writes_bareIn_nothing hinit _) hx z
    exact (World.root_bindRoot w₄ v x z).trans (by rw [hkept, hroot])

end Expr

/-- The form defines an unqualified symbol with an initial value, and there is no other definition in it. -/
structure Form.DefinesOnly (form : Form) (sym : Symbol) : Prop where
  shape : ∃ head symSpan parts span, form = .list (head :: .symbol sym symSpan :: parts) span ∧
    SpecialForm.ofHead? head = some .define ∧ parts ≠ []
  unqualified : sym.ns = none
  alone : form.definitions = [sym]

namespace Form.DefinesOnly
variable {form : Form} {sym : Symbol} {ctx : Context} {node : Expr} {w w' : World}

/-- The node is a definition with an initial node. -/
theorem node_eq (h : form.DefinesOnly sym) (hnode : analyze ctx form w = .ok node w') :
    ∃ v dynamic tags e, node = .define v dynamic tags (some e) ctx.pos := by
  have hdefinition : ∀ {own symSpan tags init},
      analyzeDefinition ctx own (.symbol sym symSpan) tags (some <$> analyze ctx init) w = .ok node w' →
      ∃ v dynamic tags e, node = .define v dynamic tags (some e) ctx.pos := by
    intro own symSpan tags init hok
    obtain ⟨v, _, _, _, initial, -, -, hinitial, rfl⟩ := analyzeDefinition_eq_ok hok
    obtain ⟨e, -, rfl⟩ := Exec.map_eq_ok hinitial
    exact ⟨v, _, _, e, rfl⟩
  obtain ⟨head, symSpan, parts, span, rfl, hhead, hparts⟩ := h.shape
  simp only [analyze, hhead] at hnode
  match parts, hparts with
  | [init], _ | [.string doc _, init], _ =>
    simp only [analyzeDef] at hnode
    exact hdefinition hnode
  | [.nil _, _], _ | [.bool _ _, _], _ | [.int _ _, _], _ | [.float _ _, _], _ | [.keyword _ _, _], _
  | [.symbol _ _, _], _ | [.list _ _, _], _ | [.vector _ _, _], _ | [.map _ _, _], _ | [.set _ _, _], _
  | _ :: _ :: _ :: _, _ =>
    simp only [analyzeDef] at hnode
    cases hnode

/-- The node defines the var that interning the symbol's name gives, and the name is mapped to it. -/
theorem target_eq (h : form.DefinesOnly sym) (hnode : analyze ctx form w = .ok node w') :
    node.targets = [(w.intern ctx.ns sym.name).1] ∧
      w'.lookup ctx.ns sym.name = some (w.intern ctx.ns sym.name).1 := by
  obtain ⟨opened, -, hopens, hall⟩ := opened_by_analyze ctx form w
  obtain ⟨hsyms, htargets⟩ := hall node w' hnode
  rw [h.alone] at hsyms
  rw [Exec.finalWorld_of_ok hnode] at hopens
  cases hopens with
  | nil => cases hsyms
  | @cons _ w₁ _ first _ v _ hresolve hrest =>
    cases hrest with
    | cons _ _ => cases hsyms
    | nil =>
      obtain rfl : first = sym := (List.cons.inj hsyms).1
      rw [resolveTarget_at_home (World.homeOf_unqualified h.unqualified)] at hresolve
      injection hresolve with hv hw
      subst hv hw
      refine ⟨htargets.symm, ?_⟩
      obtain ⟨cells, warnings, log, hdeclared⟩ :=
        ctx.declared_eq first (w.intern ctx.ns first.name).1 (w.intern ctx.ns first.name).2
      rw [hdeclared]
      exact w.lookup_intern ctx.ns _

/-- After a success, the definition has given its var the value of its initial node, and changed no other root. -/
theorem eval_eq_ok (h : form.DefinesOnly sym) {options : Options} {engine : Engine} {value : Value}
    (hrun : evalFormWith options engine form w = .ok value w') :
    let v := (w.intern w.current sym.name).1
    value = .var v ∧ w'.lookup w.current sym.name = some v ∧ ∃ dynamic tags e pos w₁ u u' x,
      analyzeTopLevel options form w = .ok (.define v dynamic tags (some e) pos) w₁ ∧
      (∀ z, (u.cell z).root = (w.cell z).root) ∧ e.bareIn engine.order u = .ok x u' ∧
      ∀ z, (w'.cell z).root = if z = v then some x else (w.cell z).root := by
  intro v
  cases hnode : analyzeTopLevel options form w with
  | error err w₁ =>
    rw [evalFormWith_of_analyze_error hnode] at hrun
    cases hrun
  | ok node w₁ =>
    have hanalyze : analyze (topLevelContext options w form.span.line) form w = .ok node w₁ := hnode
    obtain ⟨htargets, hlookup⟩ := h.target_eq hanalyze
    obtain ⟨target, dynamic, tags, e, rfl⟩ := h.node_eq hanalyze
    obtain rfl : target = v := by
      rw [Expr.targets_define] at htargets
      exact (List.cons.inj htargets).1
    obtain ⟨log, heq⟩ := evalFormWith_of_analyze hnode engine
    rw [heq] at hrun
    have hbare := Exec.adapt_eq_ok hrun
    have hsilent := World.silent_of_steps ((silent_analysis (topLevelContext options w form.span.line)).analyze form) w
    rw [Exec.finalWorld_of_ok hanalyze] at hsilent
    obtain ⟨hvalue, u, u', x, hsame, hx, hroots⟩ := Expr.root_of_define htargets hbare
    refine ⟨hvalue, ?_, dynamic, tags, e, _, w₁, u, u', x, rfl, fun z => ?_, hx, fun z => ?_⟩
    · rw [World.lookup_congr (Expr.namespaces_bareIn hbare)]
      exact hlookup
    · exact (hsame z).trans (hsilent.root z)
    · refine (hroots z).trans ?_
      rw [← hsilent.root z]
      rfl

end Form.DefinesOnly

/-! ### Main result -/

/-- In every session, interning a name gives a var of the namespace that has this name, unless the name was referred to
one of its own vars that has another, and a namespace lists a var as often as it has names for it. A definition
defines the var that interning gives: the name is mapped to it, it is the value, and its root is the only one that
changes. So in a namespace in which no name was referred in this way, a definition defines the var of the name it has,
and no var is listed twice. -/
theorem definition_defines_interned (options : Options) (audience : Audience) (actions : List Action) :
    let w := Action.run (World.start options audience) actions
    (∀ ns name, (w.intern ns name).1.ns = ns ∧ (w.intern ns name).2.lookup ns name = some (w.intern ns name).1 ∧
      ((w.intern ns name).1.name ≠ name ↔ ∃ v, w.lookup ns name = some v ∧ v.ns = ns ∧ v.name ≠ name) ∧
      ((w.intern ns name).1.name ≠ name → .refer ns name (w.intern ns name).1 ∈ actions)) ∧
    (∀ ns, (w.interned ns).Nodup ↔
      ∀ name name' v, w.lookup ns name = some v → w.lookup ns name' = some v → v.ns = ns → name = name') ∧
    (∀ ns, (∀ name v, .refer ns name v ∈ actions → v.ns = ns → v.name = name) →
      (∀ name, (w.intern ns name).1.name = name) ∧ (w.interned ns).Nodup) ∧
    ∀ form sym options engine value w', form.DefinesOnly sym → evalFormWith options engine form w = .ok value w' →
      let v := (w.intern w.current sym.name).1
      value = .var v ∧ w'.lookup w.current sym.name = some v ∧ ∃ dynamic tags e pos w₁ u u' x,
        analyzeTopLevel options form w = .ok (.define v dynamic tags (some e) pos) w₁ ∧
        (∀ z, (u.cell z).root = (w.cell z).root) ∧ e.bareIn engine.order u = .ok x u' ∧
        ∀ z, (w'.cell z).root = if z = v then some x else (w.cell z).root := by
  intro w
  have htidy : w.Tidy fun ns name v => .refer ns name v ∈ actions :=
    Action.tidy_run (World.tidy_start options audience) fun _ _ _ => id
  have hreferred : ∀ ns name, (w.intern ns name).1.name ≠ name → .refer ns name (w.intern ns name).1 ∈ actions := by
    intro ns name hname
    rcases w.intern_cases ns name with ⟨v, hlookup, hv, h⟩ | ⟨-, notes, -, h⟩
    · rw [h] at hname ⊢
      exact (htidy.named ns name v hlookup hv).resolve_left hname
    · rw [h] at hname
      exact (hname rfl).elim
  refine ⟨fun ns name => ⟨w.ns_intern ns name, w.lookup_intern ns name, w.name_intern_ne_iff ns name,
    hreferred ns name⟩, htidy.nodup_interned_iff, fun ns hactions => ⟨fun name => ?_, ?_⟩,
    fun form sym options engine value w' h => h.eval_eq_ok⟩
  · by_contra hname
    exact hname (hactions name _ (hreferred ns name hname) (w.ns_intern ns name))
  · rw [htidy.nodup_interned_iff]
    have hnamed : ∀ name v, w.lookup ns name = some v → v.ns = ns → v.name = name := by
      intro name v hlookup hv
      rcases htidy.named ns name v hlookup hv with hname | hmem
      · exact hname
      · exact hactions name v hmem hv
    intro name name' v hname hname' hv
    rw [← hnamed name v hname hv, ← hnamed name' v hname' hv]

/-- A name is referred to a var of its own namespace that has another name. The namespace lists the var twice, and a
definition of the name gives it another root, with either engine. -/
theorem definition_of_referred_name :
    let x : Var := { id := 0, ns := "user", name := "x" }
    let define (name : String) (n : Int64) : Form :=
      .list [.symbol (.unqualified "def"), .symbol (.unqualified name), .int n]
    let w := Action.run (World.start {} .watching) [.eval {} .direct (define "x" 1), .refer "user" "y" x]
    (w.intern "user" "y").1 = x ∧ w.interned "user" = [x, x] ∧ (w.cell x).root.any (· == .int 1) = true ∧
      ∀ engine ∈ [Engine.direct, .machine], Exec.okWith (fun value w' => value == .var x &&
        (w'.cell x).root.any (· == .int 5)) (evalFormWith {} engine (define "y" 5) w) = true := by
  decide +kernel

/-- The name is referred to a var of another namespace. Its definition gets a var of its own, which has the name, and
leaves the other var alone. -/
theorem definition_defines_interned_replacing :
    let there : Var := { id := 0, ns := "other", name := "x" }
    let actions : List Action := [.intern "other" "x", .refer "user" "x" there]
    let form : Form := .list [.symbol (.unqualified "def"), .symbol (.unqualified "x"), .int 5]
    let w := Action.run (World.start {} .watching) actions
    form.DefinesOnly (.unqualified "x") ∧ w.lookup "user" "x" = some there ∧ (w.interned "user").Nodup ∧
      ∃ v w', evalFormWith {} .machine form w = .ok (.var v) w' ∧ v.ns = "user" ∧ v.name = "x" ∧
        w'.lookup "user" "x" = some v ∧ (w'.cell there).root = (w.cell there).root := by
  intro there actions form w
  obtain ⟨hintern, -, hnamed, hdefinition⟩ := definition_defines_interned {} .watching actions
  have hactions : ∀ name v, .refer "user" name v ∈ actions → v.ns = "user" → v.name = name := by
    intro name v hmem hv
    obtain ⟨rfl, rfl⟩ : name = "x" ∧ v = there := by simpa [actions] using hmem
    exact absurd hv (by decide)
  obtain ⟨hname, hnodup⟩ := hnamed "user" hactions
  have hform : form.DefinesOnly (.unqualified "x") := ⟨⟨_, _, _, _, rfl, by decide, by simp⟩, rfl, rfl⟩
  have hruns : Exec.okWith (fun _ _ => true) (evalFormWith {} .machine form w) = true := by decide +kernel
  obtain ⟨value, w', hrun, -⟩ := Exec.exists_of_okWith hruns
  have hcurrent : w.current = "user" := by decide +kernel
  obtain ⟨hvalue, hlookup, _, _, _, _, _, _, _, _, -, -, -, hroots⟩ :=
    hdefinition form _ {} .machine value w' hform hrun
  rw [hcurrent] at hvalue hlookup hroots
  have hns : (w.intern "user" "x").1.ns = "user" := (hintern "user" "x").1
  have hother : there ≠ (w.intern "user" "x").1 := by
    intro heq
    rw [← heq] at hns
    exact absurd hns (by decide)
  exact ⟨hform, by decide +kernel, hnodup, _, w', hvalue ▸ hrun, hns, hname "x", hlookup,
    (hroots there).trans (if_neg hother)⟩

end LispCore
