import LispCore.Proofs.Analysis
import LispCore.Proofs.Names

/-! # What analysis opens

All that analysis does to the world it does when it opens a definition: the target is resolved, declared and
gets its argument lists. So analysis is described by the list of the definitions that it opens, each with
its var (`Context.Opens`). Their targets can be read off the form (`Form.definitions`): analysis opens them from
left to right, all of them if it succeeds and an initial segment if it fails (`opens_analyze`). The nodes that
it makes define just the vars that it opened. -/

namespace LispCore

/-! ### Definitions in forms -/

mutual

/-- The targets of the definitions in a form, in the order in which analysis comes to them. Quoted data defines
nothing, and nor does metadata in whose place a definition puts its own. -/
def Form.definitions : Form → List Symbol
  | .list (head :: args) _ =>
    match SpecialForm.ofHead? head with
    | some .define => Form.definitionsOfDef args
    | some .quote => []
    | some .enter | some .body => Form.definitionsOfAll args
    | none => Form.definitions head ++ Form.definitionsOfAll args
  | .vector items _ | .set items _ => Form.definitionsOfAll items
  | .map entries _ => Form.definitionsOfEntries entries
  | _ => []

/-- A definition comes before those in its metadata, and these before those in its initial value. With too few or
too many arguments there is no definition. -/
def Form.definitionsOfDef : List Form → List Symbol
  | [target] => Form.definitionsOfTarget false target
  | [target, init] => Form.definitionsOfTarget false target ++ Form.definitions init
  | [target, .string _ _, init] => Form.definitionsOfTarget true target ++ Form.definitions init
  | _ => []

def Form.definitionsOfTarget (documented : Bool) : Form → List Symbol
  | .symbol ⟨ns, name, some entries⟩ _ => ⟨ns, name, some entries⟩ :: Form.definitionsOfTags documented entries
  | .symbol sym _ => [sym]
  | _ => []

def Form.definitionsOfTags (documented : Bool) : List (Key × Form) → List Symbol
  | [] => []
  | (k, form) :: rest =>
    if (ownKeys documented).contains k then Form.definitionsOfTags documented rest
    else Form.definitions form ++ Form.definitionsOfTags documented rest

def Form.definitionsOfAll : List Form → List Symbol
  | [] => []
  | form :: rest => Form.definitions form ++ Form.definitionsOfAll rest

def Form.definitionsOfEntries : List (Form × Form) → List Symbol
  | [] => []
  | (k, form) :: rest => Form.definitions k ++ (Form.definitions form ++ Form.definitionsOfEntries rest)

end

/-! ### Definitions in nodes -/

namespace Expr

mutual

/-- The vars that a node defines, in the order in which analysis came to them. -/
def targets : Expr → List Var
  | .define target _ tags init _ =>
    target :: (targetsOfTags tags ++ match init with
      | some e => targets e
      | none => [])
  | .enter target => targets target
  | .vector items | .set items | .body items => targetsOfAll items
  | .map entries => targetsOfEntries entries
  | .invoke callee args _ => targets callee ++ targetsOfAll args
  | .empty _ | .const _ | .ref _ => []

def targetsOfTags : List (Key × Expr) → List Var
  | [] => []
  | (_, e) :: rest => targets e ++ targetsOfTags rest

def targetsOfAll : List Expr → List Var
  | [] => []
  | e :: rest => targets e ++ targetsOfAll rest

def targetsOfEntries : List (Expr × Expr) → List Var
  | [] => []
  | (k, e) :: rest => targets k ++ (targets e ++ targetsOfEntries rest)

end

/-- The vars that an initial value defines. -/
def targetsOfInit : Option Expr → List Var
  | some e => targets e
  | none => []

theorem targets_define (target : Var) (dynamic : Bool) (tags : List (Key × Expr)) (init : Option Expr)
    (pos : SourcePos) : (Expr.define target dynamic tags init pos).targets =
      target :: (targetsOfTags tags ++ targetsOfInit init) := by
  cases init <;> simp only [targets, targetsOfInit]

theorem targetsOfTags_append (tags tags' : List (Key × Expr)) :
    targetsOfTags (tags ++ tags') = targetsOfTags tags ++ targetsOfTags tags' := by
  induction tags with
  | nil => rfl
  | cons t rest ih => simp only [List.cons_append, targetsOfTags, ih, List.append_assoc]

theorem targetsOfTags_const (own : Table Key Value) :
    targetsOfTags (own.map fun t => (t.1, Expr.const t.2)) = [] := by
  induction own with
  | nil => rfl
  | cons t rest ih => simpa only [List.map_cons, targetsOfTags, targets, List.nil_append] using ih

section Every
variable {D : Var → Prop}

theorem mem_targetsOfTags {tags : List (Key × Expr)} {t : Key × Expr} (ht : t ∈ tags) {v : Var}
    (hv : v ∈ t.2.targets) : v ∈ targetsOfTags tags := by
  induction tags with
  | nil => cases ht
  | cons s rest ih =>
    simp only [targetsOfTags, List.mem_append]
    rcases List.mem_cons.mp ht with rfl | ht
    · exact .inl hv
    · exact .inr (ih ht)

theorem mem_targetsOfAll {items : List Expr} {e : Expr} (he : e ∈ items) {v : Var} (hv : v ∈ e.targets) :
    v ∈ targetsOfAll items := by
  induction items with
  | nil => cases he
  | cons d rest ih =>
    simp only [targetsOfAll, List.mem_append]
    rcases List.mem_cons.mp he with rfl | he
    · exact .inl hv
    · exact .inr (ih he)

theorem mem_targetsOfEntries {entries : List (Expr × Expr)} {p : Expr × Expr} (hp : p ∈ entries) {v : Var}
    (hv : v ∈ p.1.targets ∨ v ∈ p.2.targets) : v ∈ targetsOfEntries entries := by
  induction entries with
  | nil => cases hp
  | cons q rest ih =>
    simp only [targetsOfEntries, List.mem_append]
    rcases List.mem_cons.mp hp with rfl | hp
    · exact hv.imp_right .inl
    · exact .inr (.inr (ih hp))

/-- The definitions in a tree have their vars among its targets. -/
theorem every_of_targets {e : Expr} (h : ∀ v ∈ e.targets, D v) : e.Every fun d => ∀ v ∈ d.target?, D v := by
  induction e using nodeInduction with
  | define target dynamic tags init pos ihtags ihinit =>
    rw [targets_define] at h
    obtain ⟨htarget, hparts⟩ := List.forall_mem_cons.mp h
    have hparts := List.forall_mem_append.mp hparts
    refine .define ?_ (fun t ht => ihtags t ht fun v hv => hparts.1 v (mem_targetsOfTags ht hv)) ?_
    · rintro _ ⟨⟩
      exact htarget
    · rintro e ⟨⟩
      exact ihinit e rfl hparts.2
  | empty kind => exact .empty (by simp [target?])
  | enter target ih => exact .enter (by simp [target?]) (ih (by simpa only [targets] using h))
  | const value => exact .const (by simp [target?])
  | ref v => exact .ref (by simp [target?])
  | vector items ih =>
    simp only [targets] at h
    exact .vector (by simp [target?]) fun e he => ih e he fun v hv => h v (mem_targetsOfAll he hv)
  | set items ih =>
    simp only [targets] at h
    exact .set (by simp [target?]) fun e he => ih e he fun v hv => h v (mem_targetsOfAll he hv)
  | map entries ih =>
    simp only [targets] at h
    exact .map (by simp [target?])
      (fun p hp => (ih p hp).1 fun v hv => h v (mem_targetsOfEntries hp (.inl hv)))
      fun p hp => (ih p hp).2 fun v hv => h v (mem_targetsOfEntries hp (.inr hv))
  | invoke callee args pos ihcallee ihargs =>
    simp only [targets] at h
    have h := List.forall_mem_append.mp h
    exact .invoke (by simp [target?]) (ihcallee h.1) fun e he => ihargs e he fun v hv => h.2 v (mem_targetsOfAll he hv)
  | body exprs ih =>
    simp only [targets] at h
    exact .body (by simp [target?]) fun e he => ih e he fun v hv => h v (mem_targetsOfAll he hv)

end Every

end Expr

/-! ### Opening definitions one after the other -/

/-- The argument lists that analysis attaches to the var of a definition of this symbol: those in its metadata,
if they are data. -/
def Symbol.attachment? (sym : Symbol) : Option Value :=
  sym.arglists?.bind fun form => form.toValue.toOption

/-- The world after the var of a definition has been declared dynamic, or a warning given that it is not. -/
def Context.announced (ctx : Context) (sym : Symbol) (v : Var) (w : World) : World :=
  if sym.declaresDynamic then w.setDynamic v
  else if ctx.warnOnEarmuffs && sym.isEarmuffed then w.warn { symbol := sym.text, pos := ctx.pos }
  else w

/-- The world after the var of a definition has moreover got its argument lists. -/
def Context.declared (ctx : Context) (sym : Symbol) (v : Var) (w : World) : World :=
  sym.attachment?.elim (ctx.announced sym v w) ((ctx.announced sym v w).addTag v (.keyword "arglists"))

/-- From the first world to the second by opening definitions, each of which is resolved to its var in the world
that those before it have left. -/
inductive Context.Opens (ctx : Context) : World → List (Symbol × Var) → World → Prop where
  | nil {w} : ctx.Opens w [] w
  | cons {w w₁ w' sym span v opened} : resolveTarget ctx sym span w = .ok v w₁ →
      ctx.Opens (ctx.declared sym v w₁) opened w' → ctx.Opens w ((sym, v) :: opened) w'

theorem Context.Opens.append {ctx : Context} {w w₁ w₂ : World} {opened opened' : List (Symbol × Var)}
    (h : ctx.Opens w opened w₁) (h' : ctx.Opens w₁ opened' w₂) : ctx.Opens w (opened ++ opened') w₂ := by
  induction h with
  | nil => exact h'
  | cons hresolve _ ih => exact .cons hresolve (ih h')

/-- `x` opens the definitions `ds`, or an initial segment of them if it fails. Of the opened vars and the value, `Q`
is true. -/
def Exec.Opens {α : Type} (ctx : Context) (ds : List Symbol) (Q : List Var → α → Prop) (x : Exec α) : Prop :=
  ∀ w, match x w with
    | .ok a w' => ∃ opened, opened.map (·.1) = ds ∧ Q (opened.map (·.2)) a ∧ ctx.Opens w opened w'
    | .error _ w' => ∃ opened, opened.map (·.1) <+: ds ∧ ctx.Opens w opened w'

namespace Exec.Opens
variable {α β : Type} {ctx : Context} {ds ds' : List Symbol} {Q : List Var → α → Prop} {x : Exec α} {w w' : World}

theorem of_ok (h : Opens ctx ds Q x) {a : α} (hx : x w = .ok a w') :
    ∃ opened, opened.map (·.1) = ds ∧ Q (opened.map (·.2)) a ∧ ctx.Opens w opened w' := by
  have hw := h w
  rwa [hx] at hw

theorem of_error (h : Opens ctx ds Q x) {err : Error} (hx : x w = .error err w') :
    ∃ opened, opened.map (·.1) <+: ds ∧ ctx.Opens w opened w' := by
  have hw := h w
  rwa [hx] at hw

theorem pure {a : α} (h : Q [] a) : Opens ctx [] Q (Pure.pure a) :=
  fun _ => ⟨[], rfl, h, .nil⟩

theorem fail (span : Span) (fault : Fault) : Opens ctx ds Q (ctx.fail span fault : Exec α) :=
  fun _ => ⟨[], List.nil_prefix, .nil⟩

theorem bind {f : α → Exec β} {Q' : List Var → β → Prop} (hx : Opens ctx ds Q x)
    (hf : ∀ a, Opens ctx ds' (fun vs' b => ∀ vs, Q vs a → Q' (vs ++ vs') b) (f a)) :
    Opens ctx (ds ++ ds') Q' (x >>= f) := by
  intro w
  cases h : x w with
  | error err w₁ =>
    obtain ⟨opened, hds, hopens⟩ := hx.of_error h
    rw [Exec.bind_of_error h]
    exact ⟨opened, hds.trans (List.prefix_append ds ds'), hopens⟩
  | ok a w₁ =>
    obtain ⟨opened, rfl, hQ, hopens⟩ := hx.of_ok h
    rw [Exec.bind_of_ok h]
    cases h' : f a w₁ with
    | error err w₂ =>
      obtain ⟨opened', hds', hopens'⟩ := (hf a).of_error h'
      refine ⟨opened ++ opened', ?_, hopens.append hopens'⟩
      rw [List.map_append]
      exact (List.prefix_append_right_inj _).mpr hds'
    | ok b w₂ =>
      obtain ⟨opened', rfl, hQ', hopens'⟩ := (hf a).of_ok h'
      refine ⟨opened ++ opened', List.map_append, ?_, hopens.append hopens'⟩
      rw [List.map_append]
      exact hQ' _ hQ

/-- A last step that opens nothing. -/
theorem bind_pure {f : α → β} {Q' : List Var → β → Prop} (hx : Opens ctx ds Q x) (hQ : ∀ vs a, Q vs a → Q' vs (f a)) :
    Opens ctx ds Q' (x >>= fun a => Pure.pure (f a)) := by
  rw [← List.append_nil ds]
  refine hx.bind fun a => pure fun vs h => ?_
  rw [List.append_nil]
  exact hQ vs a h

/-- What opens nothing in any world, however it ends. -/
theorem of_still (hx : ∀ w, finalWorld x w = w) (hQ : ∀ w a w', x w = .ok a w' → Q [] a) : Opens ctx [] Q x := by
  intro w
  have hw := hx w
  cases h : x w with
  | ok a w' =>
    rw [finalWorld_of_ok h] at hw
    subst hw
    exact ⟨[], rfl, hQ _ a _ h, .nil⟩
  | error err w' =>
    rw [finalWorld_of_error h] at hw
    subst hw
    exact ⟨[], List.prefix_rfl, .nil⟩

end Exec.Opens

/-- Analysis of a symbol opens nothing. -/
theorem opens_analyzeSymbol (ctx : Context) (sym : Symbol) (span : Span) :
    Exec.Opens ctx [] (fun vs e => e.targets = vs) (analyzeSymbol ctx sym span) := by
  have hcases := analyzeSymbol_cases ctx sym span
  refine .of_still (fun w => ?_) fun w e w' h => ?_
  · rcases hcases w with ⟨home, v, -, -, h⟩ | ⟨-, err, h⟩
    · exact Exec.finalWorld_of_ok h
    · exact Exec.finalWorld_of_error h
  · rcases hcases w with ⟨home, v, -, -, hv⟩ | ⟨-, err, hv⟩ <;> rw [hv] at h <;> cases h
    rfl

theorem declareDynamic_apply (ctx : Context) (sym : Symbol) (v : Var) (w : World) :
    declareDynamic ctx sym v w = .ok () (ctx.announced sym v w) := by
  unfold declareDynamic Context.announced
  split
  · rfl
  · split <;> rfl

/-- Argument lists that are not data are not attached, and the analysis of the definition ends there, in every world
with the same error. -/
theorem attachArglists_cases (sym : Symbol) :
    (∀ v w, attachArglists sym v w = .ok () (sym.attachment?.elim w (w.addTag v (.keyword "arglists")))) ∨
    sym.attachment? = none ∧ ∃ err, ∀ v w, attachArglists sym v w = .error err w := by
  unfold attachArglists Symbol.attachment?
  cases sym.arglists? with
  | none => exact .inl fun _ _ => rfl
  | some form =>
    dsimp only [Option.bind_some]
    cases form.toValue with
    | ok value => exact .inl fun _ _ => rfl
    | error failure => exact .inr ⟨rfl, .plain failure, fun _ _ => rfl⟩

/-- Once its target is resolved, a definition is declared. What it then fails with depends on its symbol only. -/
theorem openDefinition_cases (ctx : Context) (sym : Symbol) :
    (∀ span w v w₁, resolveTarget ctx sym span w = .ok v w₁ →
      openDefinition ctx sym span w = .ok v (ctx.declared sym v w₁)) ∨
    ∃ err, ∀ span w v w₁, resolveTarget ctx sym span w = .ok v w₁ →
      openDefinition ctx sym span w = .error err (ctx.declared sym v w₁) := by
  have hannounced : ∀ span w v w₁, resolveTarget ctx sym span w = .ok v w₁ → openDefinition ctx sym span w =
      (do attachArglists sym v; return v) (ctx.announced sym v w₁) := by
    intro span w v w₁ hresolve
    rw [openDefinition, Exec.bind_of_ok hresolve, Exec.bind_of_ok (declareDynamic_apply ctx sym v w₁)]
  rcases attachArglists_cases sym with h | ⟨hnone, err, h⟩
  · refine .inl fun span w v w₁ hresolve => ?_
    rw [hannounced span w v w₁ hresolve, Exec.bind_of_ok (h v _)]
    rfl
  · refine .inr ⟨err, fun span w v w₁ hresolve => ?_⟩
    rw [hannounced span w v w₁ hresolve, Exec.bind_of_error (h v _), Context.declared, hnone]
    rfl

theorem resolveTarget_of_error {ctx : Context} {sym : Symbol} {span : Span} {w w' : World} {err : Error}
    (h : resolveTarget ctx sym span w = .error err w') : w' = w := by
  rcases resolveTarget_cases ctx sym span w with ⟨-, heq⟩ | ⟨_, _, -, -, -, -, heq⟩ | ⟨-, _, heq⟩ <;>
    rw [heq] at h <;> cases h
  rfl

theorem opens_openDefinition (ctx : Context) (sym : Symbol) (span : Span) :
    Exec.Opens ctx [sym] (fun vs v => vs = [v]) (openDefinition ctx sym span) := by
  intro w
  cases hresolve : resolveTarget ctx sym span w with
  | error err w₁ =>
    rw [openDefinition, Exec.bind_of_error hresolve, resolveTarget_of_error hresolve]
    exact ⟨[], List.nil_prefix, .nil⟩
  | ok v w₁ =>
    rcases openDefinition_cases ctx sym with h | ⟨err, h⟩
    · rw [h span w v w₁ hresolve]
      exact ⟨[(sym, v)], rfl, rfl, .cons hresolve .nil⟩
    · -- the definition counts as opened, though its argument lists could not be attached
      rw [h span w v w₁ hresolve]
      exact ⟨[(sym, v)], List.prefix_rfl, .cons hresolve .nil⟩

/-! ### The traversal -/

section Traversal
variable (ctx : Context)

theorem opens_quote (span : Span) (args : List Form) :
    Exec.Opens ctx [] (fun vs e => e.targets = vs) (analyzeQuote ctx span args) := by
  have hliteral : ∀ value, (Expr.ofLiteral value).targets = [] := by
    intro value
    unfold Expr.ofLiteral
    split <;> rfl
  unfold analyzeQuote
  split
  · next data =>
    have hdata : Exec.Opens ctx [] (fun vs _ => vs = []) (Exec.ofResult data.toValue) := by
      refine .of_still (fun w => ?_) fun _ _ _ _ => rfl
      cases data.toValue <;> rfl
    refine hdata.bind_pure fun vs value hvs => ?_
    rw [hliteral, hvs]
  · exact .fail _ _

theorem opens_definition {own : Table Key Value} {target : Form} {documented : Bool} {ds : List Symbol}
    {tags : Exec (List (Key × Expr))} {init : Exec (Option Expr)}
    (htags : ∀ sym span, target = .symbol sym span → ∃ ds', Form.definitionsOfTarget documented target = sym :: ds' ∧
      Exec.Opens ctx ds' (fun vs tags => Expr.targetsOfTags tags = vs) tags)
    (hinit : Exec.Opens ctx ds (fun vs init => Expr.targetsOfInit init = vs) init) :
    Exec.Opens ctx (Form.definitionsOfTarget documented target ++ ds) (fun vs e => e.targets = vs)
      (analyzeDefinition ctx own target tags init) := by
  cases target with
  | symbol sym span =>
    obtain ⟨ds', hds', htags⟩ := htags sym span rfl
    rw [hds', analyzeDefinition_symbol, List.cons_append, ← List.singleton_append]
    refine (opens_openDefinition ctx sym span).bind fun v => htags.bind fun tags => hinit.bind_pure ?_
    rintro vs init rfl _ rfl _ rfl
    rw [Expr.targets_define, Expr.targetsOfTags_append, Expr.targetsOfTags_const, List.append_nil]
    rfl
  | _ => exact .fail _ _

mutual

/-- Analysis opens the definitions of a form from left to right, and its node defines the opened vars. -/
theorem opens_analyze : ∀ form : Form,
    Exec.Opens ctx form.definitions (fun vs e => e.targets = vs) (analyze ctx form)
  | .nil _ | .bool _ _ | .int _ _ | .float _ _ | .string _ _ | .keyword _ _ | .list [] _ | .vector [] _ | .set [] _
  | .map [] _ => by
    simp only [analyze, Form.definitions, Form.definitionsOfAll, Form.definitionsOfEntries]
    exact .pure (by simp only [Expr.targets])
  | .symbol sym span => by
    simp only [analyze, Form.definitions]
    exact opens_analyzeSymbol ctx sym span
  | .list (head :: args) span => by
    simp only [analyze, Form.definitions]
    cases SpecialForm.ofHead? head with
    | none =>
      refine (opens_analyze head).bind fun callee => (opens_analyzeAll args).bind_pure ?_
      rintro _ es rfl _ rfl
      simp only [Expr.targets]
    | some special =>
      cases special with
      | define => exact opens_analyzeDef span args
      | enter => exact opens_analyzeEnter span args
      | quote => exact opens_quote ctx span args
      | body =>
        refine (opens_analyzeAll args).bind_pure ?_
        rintro _ es rfl
        simp only [Expr.targets]
  | .vector (item :: items) _ => by
    simp only [analyze, Form.definitions, Form.definitionsOfAll]
    refine (opens_analyze item).bind fun e => (opens_analyzeAll items).bind_pure ?_
    rintro _ es rfl _ rfl
    simp only [Expr.targets, Expr.targetsOfAll]
  | .set (item :: items) _ => by
    simp only [analyze, Form.definitions, Form.definitionsOfAll]
    refine (opens_analyze item).bind fun e => (opens_analyzeAll items).bind_pure ?_
    rintro _ es rfl _ rfl
    simp only [Expr.targets, Expr.targetsOfAll]
  | .map ((k, form) :: entries) _ => by
    simp only [analyze, Form.definitions, Form.definitionsOfEntries]
    refine (opens_analyze k).bind fun key => (opens_analyze form).bind fun e =>
      (opens_analyzeEntries entries).bind_pure ?_
    rintro _ ps rfl _ rfl _ rfl
    simp only [Expr.targets, Expr.targetsOfEntries]

theorem opens_analyzeDef (span : Span) : ∀ args : List Form,
    Exec.Opens ctx (Form.definitionsOfDef args) (fun vs e => e.targets = vs) (analyzeDef ctx span args)
  | [target] => by
    simp only [analyzeDef, Form.definitionsOfDef]
    rw [← List.append_nil (Form.definitionsOfTarget false target)]
    exact opens_definition ctx (fun sym s h => opens_analyzeTarget none target sym s h) (.pure rfl)
  | [target, init] => by
    simp only [analyzeDef, Form.definitionsOfDef, map_eq_pure_bind]
    refine opens_definition ctx (fun sym s h => opens_analyzeTarget none target sym s h)
      ((opens_analyze init).bind_pure ?_)
    rintro _ e rfl
    rfl
  | [target, .string doc _, init] => by
    simp only [analyzeDef, Form.definitionsOfDef, map_eq_pure_bind]
    refine opens_definition ctx (fun sym s h => opens_analyzeTarget (some doc) target sym s h)
      ((opens_analyze init).bind_pure ?_)
    rintro _ e rfl
    rfl
  | [] | [_, .nil _, _] | [_, .bool _ _, _] | [_, .int _ _, _] | [_, .float _ _, _] | [_, .keyword _ _, _]
  | [_, .symbol _ _, _] | [_, .list _ _, _] | [_, .vector _ _, _] | [_, .map _ _, _] | [_, .set _ _, _]
  | _ :: _ :: _ :: _ :: _ => by
    simp only [analyzeDef]
    exact .fail _ _

theorem opens_analyzeEnter (span : Span) : ∀ args : List Form,
    Exec.Opens ctx (Form.definitionsOfAll args) (fun vs e => e.targets = vs) (analyzeEnter ctx span args)
  | [target] => by
    simp only [analyzeEnter, Form.definitionsOfAll, List.append_nil]
    refine (opens_analyze target).bind_pure ?_
    rintro _ e rfl
    simp only [Expr.targets]
  | [] | _ :: _ :: _ => by
    simp only [analyzeEnter]
    exact .fail _ _

theorem opens_analyzeTarget (doc : Option String) : ∀ (target : Form) (sym : Symbol) (span : Span),
    target = .symbol sym span → ∃ ds, Form.definitionsOfTarget doc.isSome target = sym :: ds ∧
      Exec.Opens ctx ds (fun vs tags => Expr.targetsOfTags tags = vs) (analyzeTarget ctx (ctx.ownTags doc) target)
  | .symbol ⟨ns, name, some entries⟩ _, _, _, h => by
    cases h
    simp only [analyzeTarget, Form.definitionsOfTarget]
    exact ⟨_, rfl, opens_analyzeTags doc entries⟩
  | .symbol ⟨ns, name, none⟩ _, _, _, h => by
    cases h
    simp only [analyzeTarget, Form.definitionsOfTarget]
    exact ⟨_, rfl, .pure rfl⟩
  | .nil _, _, _, h | .bool _ _, _, _, h | .int _ _, _, _, h | .float _ _, _, _, h | .string _ _, _, _, h
  | .keyword _ _, _, _, h | .list _ _, _, _, h | .vector _ _, _, _, h | .map _ _, _, _, h | .set _ _, _, _, h => by
    cases h

theorem opens_analyzeTags (doc : Option String) : ∀ entries : List (Key × Form),
    Exec.Opens ctx (Form.definitionsOfTags doc.isSome entries) (fun vs tags => Expr.targetsOfTags tags = vs)
      (analyzeTags ctx (ctx.ownTags doc) entries)
  | [] => by
    simp only [analyzeTags, Form.definitionsOfTags]
    exact .pure rfl
  | (k, form) :: rest => by
    simp only [analyzeTags, Form.definitionsOfTags, contains_ownTags]
    split
    · exact opens_analyzeTags doc rest
    · refine (opens_analyze form).bind fun e => (opens_analyzeTags doc rest).bind_pure ?_
      rintro _ tags rfl _ rfl
      simp only [Expr.targetsOfTags]

theorem opens_analyzeAll : ∀ forms : List Form,
    Exec.Opens ctx (Form.definitionsOfAll forms) (fun vs es => Expr.targetsOfAll es = vs) (analyzeAll ctx forms)
  | [] => by
    simp only [analyzeAll, Form.definitionsOfAll]
    exact .pure rfl
  | form :: rest => by
    simp only [analyzeAll, Form.definitionsOfAll]
    refine (opens_analyze form).bind fun e => (opens_analyzeAll rest).bind_pure ?_
    rintro _ es rfl _ rfl
    simp only [Expr.targetsOfAll]

theorem opens_analyzeEntries : ∀ entries : List (Form × Form),
    Exec.Opens ctx (Form.definitionsOfEntries entries) (fun vs ps => Expr.targetsOfEntries ps = vs)
      (analyzeEntries ctx entries)
  | [] => by
    simp only [analyzeEntries, Form.definitionsOfEntries]
    exact .pure rfl
  | (k, form) :: rest => by
    simp only [analyzeEntries, Form.definitionsOfEntries]
    refine (opens_analyze k).bind fun key => (opens_analyze form).bind fun e => (opens_analyzeEntries rest).bind_pure ?_
    rintro _ ps rfl _ rfl _ rfl
    simp only [Expr.targetsOfEntries]

end

end Traversal

end LispCore
