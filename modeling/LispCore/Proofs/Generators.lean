import LispCore.Proofs.Emission

/-! # Emission with a stack of spans

A generator is a chunk under construction, with a stack of the spans of the definitions and calls whose code is not
complete. Such a node puts its span on the stack and takes the topmost one away when it is done; an instruction gets
the span that is on top when the node asks for it. `Expr.emit` has no stack: it hands the span down to the parts of
a node. The two agree (`Expr.generates`), because the code of a part leaves the stack as it was.

What becomes of a node's value is decided after all of its code (`Expr.finishes`), in a body by the last node. -/

namespace LispCore

/-- A chunk under construction, and the spans that are open, the innermost first. -/
structure Generator where
  chunk : Chunk
  spans : List Span

namespace Generator

/-- The span on top of the stack. -/
def span (g : Generator) : Span :=
  g.spans.headD {}

/-- Appends an instruction. -/
def push (g : Generator) (op : Op) (span : Span) : Generator :=
  { g with chunk := g.chunk.push op span }

/-- Appends code that pushes a constant. -/
def pushConst (g : Generator) (value : Value) : Generator :=
  { g with chunk := g.chunk.pushConst value g.span }

/-- Appends an instruction that names a var. -/
def pushVarOp (g : Generator) (op : Nat → Op) (v : Var) (span : Span) : Generator :=
  { g with chunk := g.chunk.pushVarOp op v span }

/-- Drops the value that the code before leaves if it is not used. -/
def finish (g : Generator) (usage : Usage) : Generator :=
  match usage with
  | .discarded => g.push .pop g.span
  | .value | .tailReturn => g

/-- Adds code with the span of a position on the stack, and takes what is then on top away. -/
def withPos (g : Generator) (pos : SourcePos) (add : Generator → Generator) : Generator :=
  let done := add { g with spans := pos.span :: g.spans }
  { done with spans := done.spans.tail }

section
variable (c : Chunk) (spans : List Span)

@[simp]
theorem span_mk : span ⟨c, spans⟩ = spans.headD {} := rfl

@[simp]
theorem push_mk (op : Op) (span : Span) : push ⟨c, spans⟩ op span = ⟨c.push op span, spans⟩ := rfl

@[simp]
theorem pushConst_mk (value : Value) : pushConst ⟨c, spans⟩ value = ⟨c.pushConst value (spans.headD {}), spans⟩ := rfl

@[simp]
theorem pushVarOp_mk (op : Nat → Op) (v : Var) (span : Span) :
    pushVarOp ⟨c, spans⟩ op v span = ⟨c.pushVarOp op v span, spans⟩ := rfl

@[simp]
theorem finish_mk (usage : Usage) : finish ⟨c, spans⟩ usage = ⟨c.finish usage (spans.headD {}), spans⟩ := by
  cases usage <;> rfl

end

/-- After code that leaves the stack as it was, the span of the position is what is taken away. -/
theorem withPos_mk {pos : SourcePos} {add : Generator → Generator} {c d : Chunk} {spans : List Span}
    (h : add ⟨c, pos.span :: spans⟩ = ⟨d, pos.span :: spans⟩) : withPos ⟨c, spans⟩ pos add = ⟨d, spans⟩ := by
  simp only [withPos, h, List.tail_cons]

end Generator

namespace Expr

mutual

/-- Adds the code of a node. -/
def generate (usage : Usage) : Expr → Generator → Generator
  | .define target dynamic tags init pos, g =>
    g.withPos pos fun g =>
      let span := g.span
      let g := g.pushVarOp .pushVar target span
      let g := if dynamic then g.push .setDynamic span else g
      let g := generateTags tags (g.push .dup span)
      let g := (g.push (.makeMap tags.length) g.span).push .setMetadata span
      let g :=
        match init with
        | some e => (generate .value e (g.push .dup span)).push .bindRoot span
        | none => g
      g.finish usage
  | .empty kind, g => (g.push (.emptyCollection kind) g.span).finish usage
  | .enter target, g =>
    let g := generate .value target g
    ((g.push .monitorEnter g.span).push .constNil g.span).finish usage
  | .const value, g => (g.pushConst value).finish usage
  | .ref v, g => (g.pushVarOp .derefVar v g.span).finish usage
  | .vector items, g =>
    let g := generateAll items g
    (g.push (.makeVector items.length) g.span).finish usage
  | .set items, g =>
    let g := generateAll items g
    (g.push (.makeSet items.length) g.span).finish usage
  | .map entries, g =>
    let g := generateEntries entries g
    (g.push (.makeMap entries.length) g.span).finish usage
  | .invoke callee args pos, g =>
    g.withPos pos fun g =>
      let g := generateAll args (generate .value callee g)
      (g.push (.call args.length) g.span).finish usage
  | .body exprs, g => generateBody usage exprs g

/-- Adds the code of several nodes whose values are all used. -/
def generateAll : List Expr → Generator → Generator
  | [], g => g
  | e :: rest, g => generateAll rest (generate .value e g)

/-- Adds the code of the entries of a map. -/
def generateEntries : List (Expr × Expr) → Generator → Generator
  | [], g => g
  | (k, e) :: rest, g => generateEntries rest (generate .value e (generate .value k g))

/-- Adds the code of the entries of a definition's metadata. -/
def generateTags : List (Key × Expr) → Generator → Generator
  | [], g => g
  | (k, e) :: rest, g => generateTags rest (generate .value e (g.pushConst k.toValue))

/-- Adds the code of several nodes of which only the value of the last may be used. -/
def generateBody (usage : Usage) : List Expr → Generator → Generator
  | [], g => (g.pushConst .nil).finish usage
  | [e], g => generate usage e g
  | e :: rest, g => generateBody usage rest (generate .discarded e g)

end

/-! ### The stack against the span that is handed down -/

/-- A generator that adds the node adds what the node emits, and has the stack it had. -/
def Generates (e : Expr) : Prop :=
  ∀ usage c spans, e.generate usage ⟨c, spans⟩ = ⟨e.emit usage (spans.headD {}) c, spans⟩

theorem generateAll_eq {items : List Expr} (h : ∀ e ∈ items, e.Generates) (c : Chunk) (spans : List Span) :
    generateAll items ⟨c, spans⟩ = ⟨emitAll (spans.headD {}) items c, spans⟩ := by
  induction items generalizing c with
  | nil => rfl
  | cons e rest ih =>
    obtain ⟨he, hrest⟩ := List.forall_mem_cons.mp h
    rw [generateAll, emitAll, he, ih hrest]

theorem generateEntries_eq {entries : List (Expr × Expr)} (h : ∀ p ∈ entries, p.1.Generates ∧ p.2.Generates)
    (c : Chunk) (spans : List Span) :
    generateEntries entries ⟨c, spans⟩ = ⟨emitEntries (spans.headD {}) entries c, spans⟩ := by
  induction entries generalizing c with
  | nil => rfl
  | cons p rest ih =>
    obtain ⟨⟨hk, he⟩, hrest⟩ := List.forall_mem_cons.mp h
    rw [generateEntries, emitEntries, hk, he, ih hrest]

theorem generateTags_eq {tags : List (Key × Expr)} (h : ∀ t ∈ tags, t.2.Generates) (c : Chunk) (spans : List Span) :
    generateTags tags ⟨c, spans⟩ = ⟨emitTags (spans.headD {}) tags c, spans⟩ := by
  induction tags generalizing c with
  | nil => rfl
  | cons t rest ih =>
    obtain ⟨he, hrest⟩ := List.forall_mem_cons.mp h
    rw [generateTags, emitTags, Generator.pushConst_mk, he, ih hrest]

theorem generateBody_eq (usage : Usage) (spans : List Span) : ∀ {exprs : List Expr}, (∀ e ∈ exprs, e.Generates) →
    ∀ c : Chunk, generateBody usage exprs ⟨c, spans⟩ = ⟨emitBody usage (spans.headD {}) exprs c, spans⟩
  | [], _, c => Generator.finish_mk _ spans usage
  | [e], h, c => h e List.mem_cons_self usage c spans
  | e :: e' :: rest, h, c => by
    obtain ⟨he, hrest⟩ := List.forall_mem_cons.mp h
    simp only [generateBody, emitBody, he _ _ _, generateBody_eq usage spans hrest]

/-- By induction over the node. A definition or a call has its own span on top while its parts are added, and each of
them leaves it there. -/
theorem generates (e : Expr) : e.Generates := by
  induction e using nodeInduction with
  | define target dynamic tags init pos ihtags ihinit =>
    intro usage c spans
    rw [generate]
    refine Generator.withPos_mk ?_
    have htags := generateTags_eq ihtags
    cases init with
    | none => cases dynamic <;> simp [emit, htags]
    | some e =>
      have hinit := ihinit e rfl
      cases dynamic <;> simp [emit, htags, hinit _ _ _]
  | empty | const | ref => exact fun usage c spans => Generator.finish_mk _ spans usage
  | enter target ih =>
    intro usage c spans
    rw [generate, emit, ih]
    exact Generator.finish_mk _ spans usage
  | vector items ih | set items ih =>
    intro usage c spans
    rw [generate, emit, generateAll_eq ih]
    exact Generator.finish_mk _ spans usage
  | map entries ih =>
    intro usage c spans
    rw [generate, emit, generateEntries_eq ih]
    exact Generator.finish_mk _ spans usage
  | invoke callee args pos ihcallee ihargs =>
    intro usage c spans
    rw [generate, emit]
    refine Generator.withPos_mk ?_
    rw [ihcallee, generateAll_eq ihargs]
    exact Generator.finish_mk _ _ usage
  | body exprs ih => exact fun usage c spans => generateBody_eq usage spans ih c

/-! ### What becomes of the value -/

mutual

/-- The span of a node's last instruction, where `span` is the one that the node was given. -/
def resultSpan (span : Span) : Expr → Span
  | .define _ _ _ _ pos | .invoke _ _ pos => pos.span
  | .body exprs => lastSpan span exprs
  | .empty _ | .enter _ | .const _ | .ref _ | .vector _ | .set _ | .map _ => span

/-- The span of the last node's last instruction. -/
def lastSpan (span : Span) : List Expr → Span
  | [] => span
  | [e] => resultSpan span e
  | _ :: rest => lastSpan span rest

end

/-- The code of the node is the same whatever becomes of its value, up to an instruction at its end. -/
def Finishes (e : Expr) : Prop :=
  ∀ usage span c, e.emit usage span c = (e.emit .value span c).finish usage (e.resultSpan span)

theorem emitBody_eq_finish (usage : Usage) (span : Span) : ∀ {exprs : List Expr}, (∀ e ∈ exprs, e.Finishes) →
    ∀ c : Chunk, emitBody usage span exprs c = (emitBody .value span exprs c).finish usage (lastSpan span exprs)
  | [], _, c => rfl
  | [e], h, c => h e List.mem_cons_self usage span c
  | e :: e' :: rest, h, c => by
    -- all but the last are discarded in any case
    simp only [emitBody, lastSpan]
    exact emitBody_eq_finish usage span (List.forall_mem_cons.mp h).2 _

theorem finishes (e : Expr) : e.Finishes := by
  induction e using nodeInduction with
  | define target dynamic tags init pos =>
    intro usage span c
    cases init <;> rfl
  | empty | enter | const | ref | vector | set | map | invoke => exact fun usage span c => rfl
  | body exprs ih => exact fun usage span c => emitBody_eq_finish usage span ih c

/-! ### Main result -/

/-- Adding a node only appends: the instructions, constants and vars of the generator stay in their places, and its
open spans are the same afterwards; what is appended is what the node emits. A value that is returned takes the same
code as one that is used. A value that is not used takes one pop more, after all the other code, and nothing more in
the tables. -/
theorem emission_only_appends (e : Expr) (g : Generator) :
    (∀ usage, (e.generate usage g).chunk = e.emit usage g.span g.chunk ∧ (e.generate usage g).spans = g.spans ∧
      g.chunk.code <+: (e.generate usage g).chunk.code ∧ g.chunk.constants <+: (e.generate usage g).chunk.constants ∧
      g.chunk.vars <+: (e.generate usage g).chunk.vars) ∧
    e.generate .tailReturn g = e.generate .value g ∧
    e.generate .discarded g = (e.generate .value g).push .pop (e.resultSpan g.span) := by
  obtain ⟨c, spans⟩ := g
  refine ⟨fun usage => ?_, ?_, ?_⟩
  · obtain ⟨k, hadds⟩ := e.emits usage (spans.headD {}) c
    rw [e.generates]
    exact ⟨rfl, rfl, hadds.begins, hadds.within.constants, hadds.within.vars⟩
  · rw [e.generates, e.generates, e.finishes .tailReturn]
    rfl
  · rw [e.generates, e.generates, e.finishes .discarded]
    rfl

/-- Two calls in a body that is not used: each is popped once, with its own span, and the span of the form is still
the one that is open. -/
example :
    let call (line : Nat) : Expr := .invoke (.const .nil) [] { file := "a.clv", line }
    let g := (Expr.body [call 2, call 3]).generate .discarded ⟨{ source := "a.clv" }, [{ line := 1 }]⟩
    g.chunk.code.map (fun i => (i.op, i.span.line)) =
        [(.constNil, 2), (.call 0, 2), (.pop, 2), (.constNil, 3), (.call 0, 3), (.pop, 3)] ∧
      g.spans = [{ line := 1 }] := by
  decide

end Expr
end LispCore
