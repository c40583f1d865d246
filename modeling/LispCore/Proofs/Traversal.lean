import LispCore.Analysis
import LispCore.Proofs.Cells
import LispCore.Proofs.Nodes

/-! # The traversal

Analysis comes to the parts of a form in an order that the form fixes, and at each of them it does one of four things:
it resolves a name, opens a definition, takes quoted data, or rejects the form (`Form.steps`). What is said of analysis
is proved by one induction over forms (`AnalysisLogic.analyze`), for any way of speaking about computations that has a
rule for sequencing and one for each of these things. It may speak of two analyses that differ in whether they warn.

The first reading is that analysis does just what these steps do, one after the other (`analyze_eq_walk`). -/

namespace LispCore

/-! ### Definitions in forms -/

mutual

/-- `M` holds of every metadata value of every definition in the form. Quoted data defines nothing. -/
def Form.EveryTag (M : Form → Prop) : Form → Prop
  | .list (head :: args) _ =>
    match SpecialForm.ofHead? head with
    | some .define => Form.EveryTagOfDef M args
    | some .quote => True
    | some .enter | some .body => Form.EveryTagOfAll M args
    | none => Form.EveryTag M head ∧ Form.EveryTagOfAll M args
  | .vector items _ | .set items _ => Form.EveryTagOfAll M items
  | .map entries _ => Form.EveryTagOfEntries M entries
  | _ => True

/-- The arguments of a definition: its target and what comes after. -/
def Form.EveryTagOfDef (M : Form → Prop) : List Form → Prop
  | [] => True
  | target :: parts => Form.EveryTagOfTarget M target ∧ Form.EveryTagOfAll M parts

def Form.EveryTagOfTarget (M : Form → Prop) : Form → Prop
  | .symbol ⟨_, _, some entries⟩ _ => Form.EveryTagOfMetadata M entries
  | _ => True

def Form.EveryTagOfMetadata (M : Form → Prop) : List (Key × Form) → Prop
  | [] => True
  | (_, form) :: rest => M form ∧ Form.EveryTag M form ∧ Form.EveryTagOfMetadata M rest

def Form.EveryTagOfAll (M : Form → Prop) : List Form → Prop
  | [] => True
  | form :: rest => Form.EveryTag M form ∧ Form.EveryTagOfAll M rest

def Form.EveryTagOfEntries (M : Form → Prop) : List (Form × Form) → Prop
  | [] => True
  | (k, form) :: rest => Form.EveryTag M k ∧ Form.EveryTag M form ∧ Form.EveryTagOfEntries M rest

end

mutual

/-- What holds of all forms holds of every metadata value. -/
theorem Form.everyTag_of_forall {M : Form → Prop} (h : ∀ form, M form) : ∀ form : Form, form.EveryTag M
  | .list (head :: args) _ => by
    simp only [Form.EveryTag]
    split
    · exact Form.everyTagOfDef_of_forall h args
    · trivial
    · exact Form.everyTagOfAll_of_forall h args
    · exact Form.everyTagOfAll_of_forall h args
    · exact ⟨Form.everyTag_of_forall h head, Form.everyTagOfAll_of_forall h args⟩
  | .vector items _ | .set items _ => Form.everyTagOfAll_of_forall h items
  | .map entries _ => Form.everyTagOfEntries_of_forall h entries
  | .nil _ | .bool _ _ | .int _ _ | .float _ _ | .string _ _ | .keyword _ _ | .symbol _ _ | .list [] _ => trivial

theorem Form.everyTagOfDef_of_forall {M : Form → Prop} (h : ∀ form, M form) :
    ∀ args : List Form, Form.EveryTagOfDef M args
  | [] => trivial
  | target :: parts => ⟨Form.everyTagOfTarget_of_forall h target, Form.everyTagOfAll_of_forall h parts⟩

theorem Form.everyTagOfTarget_of_forall {M : Form → Prop} (h : ∀ form, M form) :
    ∀ target : Form, Form.EveryTagOfTarget M target
  | .symbol ⟨_, _, some entries⟩ _ => Form.everyTagOfMetadata_of_forall h entries
  | .nil _ | .bool _ _ | .int _ _ | .float _ _ | .string _ _ | .keyword _ _ | .symbol ⟨_, _, none⟩ _ | .list _ _
  | .vector _ _ | .map _ _ | .set _ _ => trivial

theorem Form.everyTagOfMetadata_of_forall {M : Form → Prop} (h : ∀ form, M form) :
    ∀ entries : List (Key × Form), Form.EveryTagOfMetadata M entries
  | [] => trivial
  | (_, form) :: rest => ⟨h form, Form.everyTag_of_forall h form, Form.everyTagOfMetadata_of_forall h rest⟩

theorem Form.everyTagOfAll_of_forall {M : Form → Prop} (h : ∀ form, M form) :
    ∀ forms : List Form, Form.EveryTagOfAll M forms
  | [] => trivial
  | form :: rest => ⟨Form.everyTag_of_forall h form, Form.everyTagOfAll_of_forall h rest⟩

theorem Form.everyTagOfEntries_of_forall {M : Form → Prop} (h : ∀ form, M form) :
    ∀ entries : List (Form × Form), Form.EveryTagOfEntries M entries
  | [] => trivial
  | (k, form) :: rest =>
    ⟨Form.everyTag_of_forall h k, Form.everyTag_of_forall h form, Form.everyTagOfEntries_of_forall h rest⟩

end

/-! ### Opening a definition -/

/-- All that a definition does to the world before its parts are analysed: its var is resolved, declared, and gets
its argument lists. -/
def openDefinition (ctx : Context) (sym : Symbol) (span : Span) : Exec Var := do
  let v ← resolveTarget ctx sym span
  declareDynamic ctx sym v
  attachArglists sym v
  return v

theorem analyzeDefinition_symbol (ctx : Context) (own : Table Key Value) (sym : Symbol) (span : Span)
    (tags : Exec (List (Key × Expr))) (init : Exec (Option Expr)) :
    analyzeDefinition ctx own (.symbol sym span) tags init = (do
      let v ← openDefinition ctx sym span
      let tags ← tags
      let init ← init
      return .define v sym.declaresDynamic (tags ++ own.map fun t => (t.1, .const t.2)) init ctx.pos) := by
  simp only [analyzeDefinition, openDefinition, bind_assoc, pure_bind]

theorem analyzeDefinition_eq_ok {ctx : Context} {own : Table Key Value} {sym : Symbol} {span : Span}
    {tags : Exec (List (Key × Expr))} {init : Exec (Option Expr)} {w w' : World} {node : Expr}
    (h : analyzeDefinition ctx own (.symbol sym span) tags init w = .ok node w') : ∃ v w₁ found w₂ initial,
      openDefinition ctx sym span w = .ok v w₁ ∧ tags w₁ = .ok found w₂ ∧ init w₂ = .ok initial w' ∧
      node = .define v sym.declaresDynamic (found ++ own.map fun t => (t.1, .const t.2)) initial ctx.pos := by
  rw [analyzeDefinition_symbol] at h
  obtain ⟨v, w₁, hopen, h⟩ := Exec.bind_eq_ok h
  obtain ⟨found, w₂, hfound, h⟩ := Exec.bind_eq_ok h
  obtain ⟨initial, w₃, hinitial, h⟩ := Exec.bind_eq_ok h
  cases h
  exact ⟨v, w₁, found, w₂, initial, hopen, hfound, hinitial, rfl⟩

/-! ### Nodes -/

/-- What analysis in `ctx` makes: every position is that of the context, a definition that declares its var
dynamic has a var of `D`, and `K` holds of the metadata expressions. -/
def Expr.Analyzed (ctx : Context) (D : Var → Prop) (K : Expr → Prop) : Expr → Prop
  | .define target dynamic tags _ pos => pos = ctx.pos ∧ (dynamic = true → D target) ∧ ∀ t ∈ tags, K t.2
  | .invoke _ _ pos => pos = ctx.pos
  | _ => True

/-! ### Steps -/

/-- The keys of the metadata that every definition gets, and of the docstring. -/
def ownKeys (documented : Bool) : List Key :=
  [.keyword "line", .keyword "file"] ++ if documented then [.keyword "doc"] else []

theorem contains_ownTags (ctx : Context) (doc : Option String) (k : Key) :
    Table.contains (ctx.ownTags doc) k = (ownKeys doc.isSome).contains k := by
  cases doc with
  | none =>
    simp only [Table.contains, Context.ownTags, ownKeys, Option.toList_none, List.map_nil, List.append_nil,
      Table.get?_cons, Option.isSome_none, Bool.false_eq_true, if_false, List.contains_cons]
    cases k == .keyword "line" <;> cases k == .keyword "file" <;> rfl
  | some text =>
    simp only [Table.contains, Context.ownTags, ownKeys, Option.toList_some, List.map_cons, List.map_nil,
      List.cons_append, List.nil_append, Table.get?_cons, Option.isSome_some, if_true, List.contains_cons]
    cases k == .keyword "line" <;> cases k == .keyword "file" <;> cases k == .keyword "doc" <;> rfl

/-- What analysis does when it comes to a part of a form. -/
inductive AnalysisStep where
  | refer (sym : Symbol) (span : Span)
  | define (sym : Symbol) (span : Span)
  | take (data : Form)
  | reject (span : Span) (fault : ParseFault)

/-- The data of a quotation. -/
def Form.stepsOfQuote (span : Span) : List Form → List AnalysisStep
  | [data] => [.take data]
  | _ => [.reject span .quoteCount]

mutual

/-- The steps of analysis, in order. In what comes after a form that is rejected there are steps that are never
made. -/
def Form.steps : Form → List AnalysisStep
  | .symbol sym span => [.refer sym span]
  | .list (head :: args) span =>
    match SpecialForm.ofHead? head with
    | some .define => Form.stepsOfDef span args
    | some .enter => Form.stepsOfEnter span args
    | some .quote => Form.stepsOfQuote span args
    | some .body => Form.stepsOfAll args
    | none => Form.steps head ++ Form.stepsOfAll args
  | .vector items _ | .set items _ => Form.stepsOfAll items
  | .map entries _ => Form.stepsOfEntries entries
  | _ => []

/-- A definition is opened before its metadata is analysed, and this before its initial value. -/
def Form.stepsOfDef (span : Span) : List Form → List AnalysisStep
  | [target] => Form.stepsOfTarget false target
  | [target, init] => Form.stepsOfTarget false target ++ Form.steps init
  | [target, .string _ _, init] => Form.stepsOfTarget true target ++ Form.steps init
  | [] => [.reject span .defTooFew]
  | _ => [.reject span .defTooMany]

def Form.stepsOfEnter (span : Span) : List Form → List AnalysisStep
  | [target] => Form.steps target
  | args => [.reject span (.enterCount args.length)]

def Form.stepsOfTarget (documented : Bool) : Form → List AnalysisStep
  | .symbol ⟨ns, name, some entries⟩ span =>
    .define ⟨ns, name, some entries⟩ span :: Form.stepsOfTags documented entries
  | .symbol sym span => [.define sym span]
  | other => [.reject other.span .defTarget]

def Form.stepsOfTags (documented : Bool) : List (Key × Form) → List AnalysisStep
  | [] => []
  | (k, form) :: rest =>
    if (ownKeys documented).contains k then Form.stepsOfTags documented rest
    else Form.steps form ++ Form.stepsOfTags documented rest

def Form.stepsOfAll : List Form → List AnalysisStep
  | [] => []
  | form :: rest => Form.steps form ++ Form.stepsOfAll rest

def Form.stepsOfEntries : List (Form × Form) → List AnalysisStep
  | [] => []
  | (k, form) :: rest => Form.steps k ++ (Form.steps form ++ Form.stepsOfEntries rest)

end

/-! ### The rules -/

/-- The context with its warnings on or off. -/
def Context.warning (ctx : Context) (on : Bool) : Context :=
  { ctx with warnOnEarmuffs := on }

/-- A constant in the node satisfies `C`. -/
def Expr.HasConst (C : Value → Prop) : Expr → Prop
  | .const value => C value
  | _ => True

/-- What analysis makes where all that it takes as data satisfies `C`. -/
def Expr.Made (ctx : Context) (D : Var → Prop) (K : Expr → Prop) (C : Value → Prop) (e : Expr) : Prop :=
  e.Analyzed ctx D K ∧ e.HasConst C

/-- Rules for judging computations by their steps and by what is true of their values. In the rule for sequencing,
what is known of the first value is only used in the end. -/
structure AnalysisLogic (ctx : Context) (on : Bool) (M : Form → Prop) (D : Var → Prop) (K : Expr → Prop)
    (C : Value → Prop) (T : (α : Type) → List AnalysisStep → Exec α → Exec α → (α → Prop) → Prop) : Prop where
  pure : ∀ {α : Type} {Q : α → Prop} {a : α}, Q a → T α [] (Pure.pure a) (Pure.pure a) Q
  bind : ∀ {α β : Type} {s s' : List AnalysisStep} {x y : Exec α} {f g : α → Exec β} {Q : α → Prop} {Q' : β → Prop},
    T α s x y Q → (∀ a, T β s' (f a) (g a) fun b => Q a → Q' b) → T β (s ++ s') (x >>= f) (y >>= g) Q'
  reject : ∀ {α : Type} {Q : α → Prop} span fault rest,
    T α (.reject span fault :: rest) (ctx.fail span (.parse fault)) ((ctx.warning on).fail span (.parse fault)) Q
  take : ∀ data : Form, T Value [.take data] (Exec.ofResult data.toValue) (Exec.ofResult data.toValue) C
  symbol : ∀ sym span, T Expr [.refer sym span] (analyzeSymbol ctx sym span) (analyzeSymbol (ctx.warning on) sym span)
    fun e => ∃ v, e = .ref v
  opening : ∀ sym span, T Var [.define sym span] (openDefinition ctx sym span)
    (openDefinition (ctx.warning on) sym span) fun v => sym.declaresDynamic = true → D v
  tag : ∀ {form s Q}, M form → T Expr s (analyze ctx form) (analyze (ctx.warning on) form) Q →
    T Expr s (analyze ctx form) (analyze (ctx.warning on) form) fun e => K e ∧ Q e
  const : ∀ value, K (.const value)
  atom : ∀ value : Value, value.collKind? = none → C value

namespace AnalysisLogic
variable {ctx : Context} {on : Bool} {M : Form → Prop} {D : Var → Prop} {K : Expr → Prop} {C : Value → Prop}
  {T : (α : Type) → List AnalysisStep → Exec α → Exec α → (α → Prop) → Prop}

/-- What is done with a value in the end makes no step. -/
theorem last (L : AnalysisLogic ctx on M D K C T) {α β : Type} {s : List AnalysisStep} {x y : Exec α} {f : α → β}
    {Q : α → Prop} {Q' : β → Prop} (hx : T α s x y Q) (hQ : ∀ a, Q a → Q' (f a)) :
    T β s (x >>= fun a => Pure.pure (f a)) (y >>= fun a => Pure.pure (f a)) Q' := by
  rw [← List.append_nil s]
  exact L.bind hx fun a => L.pure (hQ a)

theorem quote (L : AnalysisLogic ctx on M D K C T) (span : Span) : ∀ args : List Form,
    T Expr (Form.stepsOfQuote span args) (analyzeQuote ctx span args) (analyzeQuote (ctx.warning on) span args)
      (Expr.Every (Expr.Made ctx D K C))
  | [data] => by
    refine L.last (L.take data) fun value hvalue => ?_
    unfold Expr.ofLiteral
    split
    · exact .empty ⟨trivial, trivial⟩
    · exact .const ⟨trivial, hvalue⟩
  | [] | _ :: _ :: _ => L.reject span .quoteCount []

theorem definition (L : AnalysisLogic ctx on M D K C T) (doc : Option String) {target : Form} {s : List AnalysisStep}
    {tags tags' : Exec (List (Key × Expr))} {init init' : Exec (Option Expr)}
    (htags : ∀ sym span, target = .symbol sym span →
      ∃ s', Form.stepsOfTarget doc.isSome target = .define sym span :: s' ∧
      T _ s' tags tags' fun tags => ∀ t ∈ tags, K t.2 ∧ Expr.Every (Expr.Made ctx D K C) t.2)
    (hinit : T _ s init init' fun init => ∀ e ∈ init, Expr.Every (Expr.Made ctx D K C) e) :
    T Expr (Form.stepsOfTarget doc.isSome target ++ s) (analyzeDefinition ctx (ctx.ownTags doc) target tags init)
      (analyzeDefinition (ctx.warning on) ((ctx.warning on).ownTags doc) target tags' init')
      (Expr.Every (Expr.Made ctx D K C)) := by
  cases target with
  | symbol sym span =>
    obtain ⟨s', hs', htags⟩ := htags sym span rfl
    rw [hs', analyzeDefinition_symbol, analyzeDefinition_symbol, List.cons_append, ← List.singleton_append]
    refine L.bind (L.opening sym span) fun v => L.bind htags fun tags => L.last hinit ?_
    intro init hinit htags hdynamic
    have hown : ∀ t ∈ ctx.ownTags doc, t.2.collKind? = none := by
      intro t ht
      cases doc <;> simp [Context.ownTags] at ht <;> rcases ht with rfl | rfl | rfl <;> rfl
    have hall : ∀ t ∈ tags ++ (ctx.ownTags doc).map fun t => (t.1, Expr.const t.2),
        K t.2 ∧ Expr.Every (Expr.Made ctx D K C) t.2 := by
      intro t ht
      rcases List.mem_append.mp ht with ht | ht
      · exact htags t ht
      · obtain ⟨entry, hentry, rfl⟩ := List.mem_map.mp ht
        exact ⟨L.const _, .const ⟨trivial, L.atom _ (hown entry hentry)⟩⟩
    exact .define ⟨⟨rfl, hdynamic, fun t ht => (hall t ht).1⟩, trivial⟩ (fun t ht => (hall t ht).2) hinit
  | _ => exact L.reject _ _ _

mutual

/-- Whatever the rules judge, they judge analysis: it makes the steps of the form, and its nodes are as they should
be. -/
theorem analyze (L : AnalysisLogic ctx on M D K C T) : ∀ {form : Form}, form.EveryTag M →
    T Expr form.steps (LispCore.analyze ctx form) (LispCore.analyze (ctx.warning on) form)
      (Expr.Every (Expr.Made ctx D K C))
  | .nil _, _ | .bool _ _, _ | .int _ _, _ | .float _ _, _ | .string _ _, _ | .keyword _ _, _ => by
    simp only [LispCore.analyze, Form.steps]
    exact L.pure (.const ⟨trivial, L.atom _ rfl⟩)
  | .symbol sym span, _ => by
    simp only [LispCore.analyze, Form.steps]
    rw [← bind_pure (analyzeSymbol ctx sym span), ← bind_pure (analyzeSymbol (ctx.warning on) sym span)]
    refine L.last (L.symbol sym span) ?_
    rintro _ ⟨v, rfl⟩
    exact .ref ⟨trivial, trivial⟩
  | .list [] _, _ | .vector [] _, _ | .set [] _, _ | .map [] _, _ => by
    simp only [LispCore.analyze, Form.steps, Form.stepsOfAll, Form.stepsOfEntries]
    exact L.pure (.empty ⟨trivial, trivial⟩)
  | .list (head :: args) span, h => by
    simp only [LispCore.analyze, Form.EveryTag, Form.steps] at h ⊢
    generalize SpecialForm.ofHead? head = special at h ⊢
    cases special with
    | none =>
      refine L.bind (L.analyze h.1) fun callee => L.last (L.all h.2) ?_
      exact fun es hes hcallee => .invoke ⟨rfl, trivial⟩ hcallee hes
    | some special =>
      cases special with
      | define => exact L.definitionForm h
      | enter => exact L.enterForm h
      | quote => exact L.quote span args
      | body => exact L.last (L.all h) fun es hes => .body ⟨trivial, trivial⟩ hes
  | .vector (item :: items) _, h => by
    simp only [LispCore.analyze, Form.EveryTag, Form.EveryTagOfAll, Form.steps, Form.stepsOfAll] at h ⊢
    refine L.bind (L.analyze h.1) fun e => L.last (L.all h.2) ?_
    exact fun es hes he => .vector ⟨trivial, trivial⟩ (List.forall_mem_cons.mpr ⟨he, hes⟩)
  | .set (item :: items) _, h => by
    simp only [LispCore.analyze, Form.EveryTag, Form.EveryTagOfAll, Form.steps, Form.stepsOfAll] at h ⊢
    refine L.bind (L.analyze h.1) fun e => L.last (L.all h.2) ?_
    exact fun es hes he => .set ⟨trivial, trivial⟩ (List.forall_mem_cons.mpr ⟨he, hes⟩)
  | .map ((k, form) :: entries) _, h => by
    simp only [LispCore.analyze, Form.EveryTag, Form.EveryTagOfEntries, Form.steps, Form.stepsOfEntries] at h ⊢
    refine L.bind (L.analyze h.1) fun key => L.bind (L.analyze h.2.1) fun e => L.last (L.entries h.2.2) ?_
    intro ps hps he hkey
    exact .map ⟨trivial, trivial⟩ (List.forall_mem_cons.mpr ⟨hkey, fun p hp => (hps p hp).1⟩)
      (List.forall_mem_cons.mpr ⟨he, fun p hp => (hps p hp).2⟩)

theorem definitionForm (L : AnalysisLogic ctx on M D K C T) {span : Span} : ∀ {args : List Form},
    Form.EveryTagOfDef M args → T Expr (Form.stepsOfDef span args) (analyzeDef ctx span args)
      (analyzeDef (ctx.warning on) span args) (Expr.Every (Expr.Made ctx D K C))
  | [], _ => by
    simp only [analyzeDef, Form.stepsOfDef]
    exact L.reject _ _ _
  | [target], h => by
    simp only [analyzeDef, Form.stepsOfDef]
    rw [← List.append_nil (Form.stepsOfTarget false target)]
    exact L.definition none (fun sym span => L.target none h.1 sym span) (L.pure (by simp))
  | [target, init], h => by
    simp only [analyzeDef, Form.stepsOfDef, map_eq_pure_bind]
    exact L.definition none (fun sym span => L.target none h.1 sym span) (L.last (L.analyze h.2.1) (by simp))
  | [target, .string doc _, init], h => by
    simp only [analyzeDef, Form.stepsOfDef, map_eq_pure_bind]
    exact L.definition (some doc) (fun sym span => L.target (some doc) h.1 sym span)
      (L.last (L.analyze h.2.2.1) (by simp))
  | [_, .nil _, _], _ | [_, .bool _ _, _], _ | [_, .int _ _, _], _ | [_, .float _ _, _], _ | [_, .keyword _ _, _], _
  | [_, .symbol _ _, _], _ | [_, .list _ _, _], _ | [_, .vector _ _, _], _ | [_, .map _ _, _], _
  | [_, .set _ _, _], _ | _ :: _ :: _ :: _ :: _, _ => by
    simp only [analyzeDef, Form.stepsOfDef]
    exact L.reject _ _ _

theorem enterForm (L : AnalysisLogic ctx on M D K C T) {span : Span} : ∀ {args : List Form},
    Form.EveryTagOfAll M args → T Expr (Form.stepsOfEnter span args) (analyzeEnter ctx span args)
      (analyzeEnter (ctx.warning on) span args) (Expr.Every (Expr.Made ctx D K C))
  | [target], h => by
    simp only [analyzeEnter, Form.stepsOfEnter]
    exact L.last (L.analyze h.1) fun e he => .enter ⟨trivial, trivial⟩ he
  | [], _ | _ :: _ :: _, _ => by
    simp only [analyzeEnter, Form.stepsOfEnter]
    exact L.reject _ _ _

theorem target (L : AnalysisLogic ctx on M D K C T) (doc : Option String) : ∀ {target : Form},
    Form.EveryTagOfTarget M target → ∀ sym span, target = .symbol sym span →
      ∃ s, Form.stepsOfTarget doc.isSome target = .define sym span :: s ∧
        T _ s (analyzeTarget ctx (ctx.ownTags doc) target)
          (analyzeTarget (ctx.warning on) ((ctx.warning on).ownTags doc) target)
          fun tags => ∀ t ∈ tags, K t.2 ∧ Expr.Every (Expr.Made ctx D K C) t.2
  | .symbol ⟨_, _, some entries⟩ _, h, _, _, heq => by
    cases heq
    simp only [analyzeTarget, Form.stepsOfTarget]
    exact ⟨_, rfl, L.metadata doc h⟩
  | .symbol ⟨_, _, none⟩ _, _, _, _, heq => by
    cases heq
    simp only [analyzeTarget, Form.stepsOfTarget]
    exact ⟨_, rfl, L.pure (by simp)⟩
  | .nil _, _, _, _, heq | .bool _ _, _, _, _, heq | .int _ _, _, _, _, heq | .float _ _, _, _, _, heq
  | .string _ _, _, _, _, heq | .keyword _ _, _, _, _, heq | .list _ _, _, _, _, heq | .vector _ _, _, _, _, heq
  | .map _ _, _, _, _, heq | .set _ _, _, _, _, heq => by
    cases heq

theorem metadata (L : AnalysisLogic ctx on M D K C T) (doc : Option String) : ∀ {entries : List (Key × Form)},
    Form.EveryTagOfMetadata M entries → T _ (Form.stepsOfTags doc.isSome entries)
      (analyzeTags ctx (ctx.ownTags doc) entries) (analyzeTags (ctx.warning on) ((ctx.warning on).ownTags doc) entries)
      fun tags => ∀ t ∈ tags, K t.2 ∧ Expr.Every (Expr.Made ctx D K C) t.2
  | [], _ => by
    simp only [analyzeTags, Form.stepsOfTags]
    exact L.pure (by simp)
  | (k, form) :: rest, h => by
    simp only [analyzeTags, Form.stepsOfTags, contains_ownTags]
    split
    · exact L.metadata doc h.2.2
    · refine L.bind (L.tag h.1 (L.analyze h.2.1)) fun e => L.last (L.metadata doc h.2.2) ?_
      exact fun tags htags he => List.forall_mem_cons.mpr ⟨he, htags⟩

theorem all (L : AnalysisLogic ctx on M D K C T) : ∀ {forms : List Form}, Form.EveryTagOfAll M forms →
    T _ (Form.stepsOfAll forms) (analyzeAll ctx forms) (analyzeAll (ctx.warning on) forms)
      fun es => ∀ e ∈ es, Expr.Every (Expr.Made ctx D K C) e
  | [], _ => by
    simp only [analyzeAll, Form.stepsOfAll]
    exact L.pure (by simp)
  | form :: rest, h => by
    simp only [analyzeAll, Form.stepsOfAll]
    refine L.bind (L.analyze h.1) fun e => L.last (L.all h.2) ?_
    exact fun es hes he => List.forall_mem_cons.mpr ⟨he, hes⟩

theorem entries (L : AnalysisLogic ctx on M D K C T) : ∀ {pairs : List (Form × Form)},
    Form.EveryTagOfEntries M pairs →
      T _ (Form.stepsOfEntries pairs) (analyzeEntries ctx pairs) (analyzeEntries (ctx.warning on) pairs) fun ps =>
        ∀ p ∈ ps, Expr.Every (Expr.Made ctx D K C) p.1 ∧ Expr.Every (Expr.Made ctx D K C) p.2
  | [], _ => by
    simp only [analyzeEntries, Form.stepsOfEntries]
    exact L.pure (by simp)
  | (k, form) :: rest, h => by
    simp only [analyzeEntries, Form.stepsOfEntries]
    refine L.bind (L.analyze h.1) fun key => L.bind (L.analyze h.2.1) fun e => L.last (L.entries h.2.2) ?_
    exact fun ps hps he hkey => List.forall_mem_cons.mpr ⟨⟨hkey, he⟩, hps⟩

end

end AnalysisLogic

/-! ### Walking through the steps -/

/-- Makes a step, and forgets what comes of it. -/
def AnalysisStep.perform (ctx : Context) : AnalysisStep → Exec Unit
  | .refer sym span => (fun _ => ()) <$> analyzeSymbol ctx sym span
  | .define sym span => (fun _ => ()) <$> openDefinition ctx sym span
  | .take data => (fun _ => ()) <$> Exec.ofResult data.toValue
  | .reject span fault => ctx.fail span (.parse fault)

/-- Makes the steps one after the other, until one of them fails. -/
def walk (ctx : Context) : List AnalysisStep → Exec Unit
  | [] => pure ()
  | step :: rest => do
    step.perform ctx
    walk ctx rest

section Cons
variable {ctx : Context} {step : AnalysisStep} {w w' : World}

theorem walk_cons_of_ok (h : step.perform ctx w = .ok () w') (rest : List AnalysisStep) :
    walk ctx (step :: rest) w = walk ctx rest w' :=
  Exec.bind_of_ok h

theorem walk_cons_of_error {err : Error} (h : step.perform ctx w = .error err w') (rest : List AnalysisStep) :
    walk ctx (step :: rest) w = .error err w' :=
  Exec.bind_of_error h

end Cons

theorem walk_append (ctx : Context) (s s' : List AnalysisStep) :
    walk ctx (s ++ s') = walk ctx s >>= fun _ => walk ctx s' := by
  induction s with
  | nil => rw [List.nil_append, walk, pure_bind]
  | cons step rest ih => rw [List.cons_append, walk, walk, bind_assoc, ih]

theorem walk_singleton (ctx : Context) (step : AnalysisStep) : walk ctx [step] = step.perform ctx :=
  bind_pure (step.perform ctx)

/-- Analysis does what its steps do. -/
theorem analyze_eq_walk (ctx : Context) (form : Form) : (fun _ => ()) <$> analyze ctx form = walk ctx form.steps := by
  have L : AnalysisLogic ctx ctx.warnOnEarmuffs (fun _ => True) (fun _ => True) (fun _ => True) (fun _ => True)
      fun _ s x _ _ => (fun _ => ()) <$> x = walk ctx s := {
    pure := fun _ => rfl
    bind := fun {α β s s' x y f g Q Q'} hx hf => by
      have hlast : ∀ a, (fun _ => ()) <$> f a = walk ctx s' := hf
      rw [walk_append, ← hx, map_bind, bind_map_left]
      simp only [hlast]
    reject := fun _ _ _ => rfl
    take := fun data => (walk_singleton ctx (.take data)).symm
    symbol := fun sym span => (walk_singleton ctx (.refer sym span)).symm
    opening := fun sym span => (walk_singleton ctx (.define sym span)).symm
    tag := fun _ h => h
    const := fun _ => trivial
    atom := fun _ _ => trivial }
  exact L.analyze (Form.everyTag_of_forall (fun _ => trivial) form)

section Walk
variable {ctx : Context} {form : Form} {w w' : World}

theorem walk_of_ok {e : Expr} (h : analyze ctx form w = .ok e w') : walk ctx form.steps w = .ok () w' := by
  rw [← analyze_eq_walk]
  exact Exec.map_of_ok _ h

theorem walk_of_error {err : Error} (h : analyze ctx form w = .error err w') :
    walk ctx form.steps w = .error err w' := by
  rw [← analyze_eq_walk]
  exact Exec.map_of_error _ h

theorem analyze_of_walk_ok (h : walk ctx form.steps w = .ok () w') : ∃ e, analyze ctx form w = .ok e w' := by
  rw [← analyze_eq_walk] at h
  obtain ⟨e, he, -⟩ := Exec.map_eq_ok h
  exact ⟨e, he⟩

theorem analyze_of_walk_error {err : Error} (h : walk ctx form.steps w = .error err w') :
    analyze ctx form w = .error err w' := by
  rw [← analyze_eq_walk] at h
  exact Exec.map_eq_error h

end Walk

end LispCore
