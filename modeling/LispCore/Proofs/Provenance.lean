import LispCore.Proofs.Engines
import LispCore.Proofs.Halting

/-! # Which node an instruction belongs to

Emitting a node emits its parts on the way, each in between some instructions of the node's own. So the code of a
node lies inside the code of every node around it, and an instruction has the span of the innermost definition or
call in whose code it lies (`Emission.span_of_innermost`), or else the one that was given for the whole. -/

namespace LispCore

/-- The parts of a node, in the order in which their code is emitted. -/
def Expr.children : Expr → List Expr
  | .define _ _ tags init _ => tags.map (·.2) ++ init.toList
  | .enter target => [target]
  | .vector items | .set items | .body items => items
  | .map entries => entries.flatMap fun p => [p.1, p.2]
  | .invoke callee args _ => callee :: args
  | .empty _ | .const _ | .ref _ => []

namespace Expr

theorem mem_children_map {entries : List (Expr × Expr)} {d : Expr} :
    d ∈ (Expr.map entries).children ↔ ∃ p ∈ entries, d = p.1 ∨ d = p.2 := by
  simp [children, List.mem_flatMap]

theorem mem_children_define {target : Var} {dynamic : Bool} {tags : List (Key × Expr)} {init : Option Expr}
    {pos : SourcePos} {d : Expr} :
    d ∈ (Expr.define target dynamic tags init pos).children ↔ (∃ t ∈ tags, t.2 = d) ∨ d ∈ init := by
  simp [children, List.mem_append, List.mem_map]

/-- Induction over a node, with the hypothesis for its parts. -/
@[elab_as_elim]
theorem childInduction {P : Expr → Prop} (h : ∀ e, (∀ d ∈ e.children, P d) → P e) (e : Expr) : P e := by
  induction e using nodeInduction with
  | define target dynamic tags init pos ihtags ihinit =>
    refine h _ fun d hd => ?_
    rcases mem_children_define.mp hd with ⟨t, ht, rfl⟩ | hd
    · exact ihtags t ht
    · exact ihinit d hd
  | empty | const | ref => exact h _ fun d hd => (List.not_mem_nil hd).elim
  | enter target ih => exact h _ (List.forall_mem_singleton.mpr ih)
  | vector items ih | set items ih | body exprs ih => exact h _ ih
  | map entries ih =>
    refine h _ fun d hd => ?_
    obtain ⟨p, hp, rfl | rfl⟩ := mem_children_map.mp hd
    · exact (ih p hp).1
    · exact (ih p hp).2
  | invoke callee args pos ihcallee ihargs => exact h _ (List.forall_mem_cons.mpr ⟨ihcallee, ihargs⟩)

theorem Every.of_mem_children {P : Expr → Prop} {e d : Expr} (h : Every P e) (hd : d ∈ e.children) : Every P d := by
  cases h with
  | define _ htags hinit =>
    rcases mem_children_define.mp hd with ⟨t, ht, rfl⟩ | hd
    · exact htags t ht
    · exact hinit d hd
  | empty | const | ref => exact (List.not_mem_nil hd).elim
  | enter _ htarget => rwa [List.mem_singleton.mp hd]
  | vector _ hitems | set _ hitems | body _ hitems => exact hitems d hd
  | map _ hkeys hvalues =>
    obtain ⟨p, hp, rfl | rfl⟩ := mem_children_map.mp hd
    · exact hkeys p hp
    · exact hvalues p hp
  | invoke _ hcallee hargs =>
    rcases List.mem_cons.mp hd with rfl | hd
    · exact hcallee
    · exact hargs d hd

end Expr

/-- One use of `Expr.emit`: a node, what it is given, and the chunk to whose code it adds. -/
structure Emission where
  usage : Usage
  span : Span
  node : Expr
  before : Chunk

namespace Emission
open LispCore.Expr

/-- The chunk with the node's code. -/
def after (m : Emission) : Chunk :=
  m.node.emit m.usage m.span m.before

/-- The instruction at this place is in the node's code. -/
def Holds (m : Emission) (n : Nat) : Prop :=
  m.before.code.length ≤ n ∧ n < m.after.code.length

/-- The span that the node gives to its own instructions and to its parts. -/
def ownSpan (m : Emission) : Span :=
  m.node.pos?.elim m.span SourcePos.span

/-! ### The emissions of parts -/

def ofAll (span : Span) : List Expr → Chunk → List Emission
  | [], _ => []
  | e :: rest, c => { usage := .value, span, node := e, before := c } :: ofAll span rest (e.emit .value span c)

def ofEntries (span : Span) : List (Expr × Expr) → Chunk → List Emission
  | [], _ => []
  | (k, e) :: rest, c =>
    { usage := .value, span, node := k, before := c } ::
      { usage := .value, span, node := e, before := k.emit .value span c } ::
        ofEntries span rest (e.emit .value span (k.emit .value span c))

def ofTags (span : Span) : List (Key × Expr) → Chunk → List Emission
  | [], _ => []
  | (k, e) :: rest, c =>
    { usage := .value, span, node := e, before := c.pushConst k.toValue span } ::
      ofTags span rest (e.emit .value span (c.pushConst k.toValue span))

def ofBody (usage : Usage) (span : Span) : List Expr → Chunk → List Emission
  | [], _ => []
  | [e], c => [{ usage, span, node := e, before := c }]
  | e :: rest, c =>
    { usage := .discarded, span, node := e, before := c } :: ofBody usage span rest (e.emit .discarded span c)

/-- The emissions of its parts that the emission of a node makes. -/
def parts (m : Emission) : List Emission :=
  match m.node with
  | .define target dynamic tags init pos =>
    let c := m.before.pushVarOp .pushVar target pos.span
    let c := (if dynamic then c.push .setDynamic pos.span else c).push .dup pos.span
    let stored := ((emitTags pos.span tags c).push (.makeMap tags.length) pos.span).push .setMetadata pos.span
    ofTags pos.span tags c ++
      init.toList.map fun e => { usage := .value, span := pos.span, node := e, before := stored.push .dup pos.span }
  | .enter target => [{ usage := .value, span := m.span, node := target, before := m.before }]
  | .vector items | .set items => ofAll m.span items m.before
  | .map entries => ofEntries m.span entries m.before
  | .invoke callee args pos =>
    { usage := .value, span := pos.span, node := callee, before := m.before } ::
      ofAll pos.span args (callee.emit .value pos.span m.before)
  | .body exprs => ofBody m.usage m.span exprs m.before
  | .empty _ | .const _ | .ref _ => []

theorem node_ofAll (span : Span) (items : List Expr) (c : Chunk) : (ofAll span items c).map (·.node) = items := by
  induction items generalizing c with
  | nil => rfl
  | cons e rest ih => simp only [ofAll, List.map_cons, ih]

theorem node_ofEntries (span : Span) (entries : List (Expr × Expr)) (c : Chunk) :
    (ofEntries span entries c).map (·.node) = entries.flatMap fun p => [p.1, p.2] := by
  induction entries generalizing c with
  | nil => rfl
  | cons p rest ih => simp only [ofEntries, List.map_cons, ih, List.flatMap_cons, List.cons_append, List.nil_append]

theorem node_ofTags (span : Span) (tags : List (Key × Expr)) (c : Chunk) :
    (ofTags span tags c).map (·.node) = tags.map (·.2) := by
  induction tags generalizing c with
  | nil => rfl
  | cons t rest ih => simp only [ofTags, List.map_cons, ih]

theorem node_ofBody (usage : Usage) (span : Span) : ∀ (exprs : List Expr) (c : Chunk),
    (ofBody usage span exprs c).map (·.node) = exprs
  | [], _ => rfl
  | [_], _ => rfl
  | e :: e' :: rest, c => by
    simp only [ofBody, List.map_cons, node_ofBody usage span (e' :: rest)]

theorem node_parts (m : Emission) : m.parts.map (·.node) = m.node.children := by
  obtain ⟨usage, span, node, before⟩ := m
  cases node with
  | define target dynamic tags init pos =>
    simp only [parts, children, List.map_append, node_ofTags, List.map_map]
    congr 1
    exact List.map_id _
  | enter | empty | const | ref => rfl
  | vector items | set items => exact node_ofAll span items before
  | map entries => exact node_ofEntries span entries before
  | invoke callee args pos => simp only [parts, children, List.map_cons, node_ofAll]
  | body exprs => exact node_ofBody usage span exprs before

theorem node_mem_children {m d : Emission} (h : d ∈ m.parts) : d.node ∈ m.node.children := by
  rw [← node_parts]
  exact List.mem_map_of_mem h

/-- Induction over an emission, with the hypothesis for those of its parts. -/
@[elab_as_elim]
theorem partInduction {P : Emission → Prop} (h : ∀ m, (∀ d ∈ m.parts, P d) → P m) (m : Emission) : P m := by
  suffices hnode : ∀ e : Expr, ∀ m : Emission, m.node = e → P m from hnode m.node m rfl
  intro e
  induction e using childInduction with
  | _ e ih =>
    rintro m rfl
    exact h m fun d hd => ih d.node (node_mem_children hd) d rfl

/-! ### Own instructions and those of parts -/

/-- The code that `d` has after that of `c` is made of instructions with this span and of the code of the emissions,
which were given this span. -/
structure Composed (span : Span) (c : Chunk) (ms : List Emission) (d : Chunk) : Prop where
  code : c.code <+: d.code
  parts : ∀ m ∈ ms, m.span = span ∧ c.code <+: m.before.code ∧ m.after.code <+: d.code
  own : ∀ n i, c.code.length ≤ n → d.code[n]? = some i → i.span = span ∨ ∃ m ∈ ms, m.Holds n

section Composed
variable {span : Span} {c d d' : Chunk} {ms ms' : List Emission}

theorem composed_own {own : List Instruction} (hcode : d.code = c.code ++ own) (hown : ∀ i ∈ own, i.span = span) :
    Composed span c [] d := by
  refine ⟨⟨own, hcode.symm⟩, fun m hm => (List.not_mem_nil hm).elim, fun n i hn hi => .inl (hown i ?_)⟩
  rw [hcode, List.getElem?_append_right hn] at hi
  exact List.mem_of_getElem? hi

theorem Composed.append (h : Composed span c ms d) (h' : Composed span d ms' d') :
    Composed span c (ms ++ ms') d' := by
  refine ⟨h.code.trans h'.code, fun m hm => ?_, fun n i hn hi => ?_⟩
  · rcases List.mem_append.mp hm with hm | hm
    · obtain ⟨hspan, hbefore, hafter⟩ := h.parts m hm
      exact ⟨hspan, hbefore, hafter.trans h'.code⟩
    · obtain ⟨hspan, hbefore, hafter⟩ := h'.parts m hm
      exact ⟨hspan, h.code.trans hbefore, hafter⟩
  · by_cases hlt : n < d.code.length
    · have hsame : d.code[n]? = some i := by
        rw [← hi, List.getElem?_eq_getElem hlt]
        exact (Chunk.getElem?_of_prefix h'.code (List.getElem?_eq_getElem hlt)).symm
      exact (h.own n i hn hsame).imp_right fun ⟨m, hm, hholds⟩ => ⟨m, List.mem_append_left _ hm, hholds⟩
    · exact (h'.own n i (Nat.not_lt.mp hlt) hi).imp_right fun ⟨m, hm, hholds⟩ =>
        ⟨m, List.mem_append_right _ hm, hholds⟩

theorem composed_emission (m : Emission) : Composed m.span m.before [m] m.after := by
  obtain ⟨k, hadds⟩ := m.node.emits m.usage m.span m.before
  refine ⟨hadds.begins, fun d hd => ?_, fun n i hn hi => .inr ⟨m, List.mem_singleton_self m, hn, ?_⟩⟩
  · rw [List.mem_singleton.mp hd]
    exact ⟨rfl, List.prefix_refl _, List.prefix_refl _⟩
  · exact (List.getElem?_eq_some_iff.mp hi).1

theorem composed_nothing (span : Span) (c : Chunk) : Composed span c [] c :=
  composed_own (List.append_nil _).symm fun _ hi => (List.not_mem_nil hi).elim

/-- New entries in the tables are no code. -/
theorem Composed.tables (h : Composed span c ms d) (hcode : d'.code = d.code) : Composed span c ms d' := by
  obtain ⟨code, parts, own⟩ := h
  rw [← hcode] at code parts own
  exact ⟨code, parts, own⟩

theorem Composed.push (h : Composed span c ms d) (op : Op) : Composed span c ms (d.push op span) := by
  have hpush : Composed span d [] (d.push op span) :=
    composed_own rfl fun i hi => by rw [List.mem_singleton.mp hi]
  simpa only [List.append_nil] using h.append hpush

theorem Composed.finish (h : Composed span c ms d) (usage : Usage) : Composed span c ms (d.finish usage span) := by
  cases usage with
  | discarded => exact h.push .pop
  | value | tailReturn => exact h

theorem Composed.pushConst (h : Composed span c ms d) (value : Value) :
    Composed span c ms (d.pushConst value span) := by
  unfold Chunk.pushConst
  have hconst : Composed span c ms (d.addConst value) := h.tables rfl
  split
  · exact h.push .constNil
  · exact hconst.push (.const d.constants.length)

theorem Composed.pushVarOp (h : Composed span c ms d) (op : Nat → Op) (v : Var) :
    Composed span c ms (d.pushVarOp op v span) :=
  (h.tables (d.code_addVar v)).push (op (d.varIndex v))

theorem composed_ofAll (span : Span) (items : List Expr) (c : Chunk) :
    Composed span c (ofAll span items c) (emitAll span items c) := by
  induction items generalizing c with
  | nil => exact composed_nothing span c
  | cons e rest ih => exact (composed_emission { usage := .value, span, node := e, before := c }).append (ih _)

theorem composed_ofEntries (span : Span) (entries : List (Expr × Expr)) (c : Chunk) :
    Composed span c (ofEntries span entries c) (emitEntries span entries c) := by
  induction entries generalizing c with
  | nil => exact composed_nothing span c
  | cons p rest ih =>
    exact (composed_emission { usage := .value, span, node := p.1, before := c }).append
      ((composed_emission { usage := .value, span, node := p.2, before := _ }).append (ih _))

theorem composed_ofTags (span : Span) (tags : List (Key × Expr)) (c : Chunk) :
    Composed span c (ofTags span tags c) (emitTags span tags c) := by
  induction tags generalizing c with
  | nil => exact composed_nothing span c
  | cons t rest ih =>
    exact ((composed_nothing span c).pushConst t.1.toValue).append
      ((composed_emission { usage := .value, span, node := t.2, before := _ }).append (ih _))

theorem composed_ofBody (usage : Usage) (span : Span) : ∀ (exprs : List Expr) (c : Chunk),
    Composed span c (ofBody usage span exprs c) (emitBody usage span exprs c)
  | [], c => ((composed_nothing span c).pushConst .nil).finish usage
  | [e], c => composed_emission { usage, span, node := e, before := c }
  | e :: e' :: rest, c =>
    (composed_emission { usage := .discarded, span, node := e, before := c }).append
      (composed_ofBody usage span (e' :: rest) _)

end Composed

/-- The code of a node is made of its own instructions and of the code of its parts. -/
theorem composed (m : Emission) : Composed m.ownSpan m.before m.parts m.after := by
  obtain ⟨usage, span, node, before⟩ := m
  cases node with
  | define target dynamic tags init pos =>
    have hstart := (composed_nothing pos.span before).pushVarOp .pushVar target
    have hmarked : Composed pos.span before []
        (let c := before.pushVarOp .pushVar target pos.span
          if dynamic then c.push .setDynamic pos.span else c) := by
      cases dynamic with
      | false => exact hstart
      | true => exact hstart.push .setDynamic
    have hstored := (((hmarked.push .dup).append (composed_ofTags pos.span tags _)).push
      (.makeMap tags.length)).push .setMetadata
    cases init with
    | none => exact (hstored.append (composed_nothing pos.span _)).finish usage
    | some e =>
      exact (((hstored.push .dup).append (composed_emission
        { usage := .value, span := pos.span, node := e, before := _ })).push .bindRoot).finish usage
  | empty kind => exact ((composed_nothing span before).push (.emptyCollection kind)).finish usage
  | enter target =>
    exact (((composed_emission { usage := .value, span, node := target, before }).push .monitorEnter).push
      .constNil).finish usage
  | const value => exact ((composed_nothing span before).pushConst value).finish usage
  | ref v => exact ((composed_nothing span before).pushVarOp .derefVar v).finish usage
  | vector items => exact ((composed_ofAll span items before).push (.makeVector items.length)).finish usage
  | set items => exact ((composed_ofAll span items before).push (.makeSet items.length)).finish usage
  | map entries => exact ((composed_ofEntries span entries before).push (.makeMap entries.length)).finish usage
  | invoke callee args pos =>
    have hcallee := composed_emission { usage := .value, span := pos.span, node := callee, before }
    exact ((hcallee.append (composed_ofAll pos.span args _)).push (.call args.length)).finish usage
  | body exprs => exact composed_ofBody usage span exprs before

/-! ### Innermost definitions and calls -/

/-- The second emission was made directly by the first. -/
def Part (m d : Emission) : Prop :=
  d ∈ m.parts

/-- Of the definitions and calls in whose code the instruction lies, `d` is the innermost. -/
structure Innermost (m : Emission) (n : Nat) (d : Emission) : Prop where
  within : Relation.ReflTransGen Part m d
  holds : d.Holds n
  positioned : d.node.pos?.isSome = true
  least : ∀ d', Relation.TransGen Part d d' → d'.Holds n → d'.node.pos? = none

/-- The instruction lies in the code of no definition and of no call. -/
def Outside (m : Emission) (n : Nat) : Prop :=
  ∀ d, Relation.ReflTransGen Part m d → d.Holds n → d.node.pos? = none

section Innermost
variable {m d : Emission} {n : Nat} {i : Instruction}

/-- The code of a node around has the code of the node at the same place. -/
theorem prefix_of_within (h : Relation.ReflTransGen Part m d) : d.after.code <+: m.after.code := by
  induction h with
  | refl => exact List.prefix_refl _
  | tail _ hpart ih => exact (((composed _).parts _ hpart).2.2).trans ih

theorem getElem?_of_holds (hd : d.Holds n) (hbegins : d.after.code <+: m.after.code)
    (hi : m.after.code[n]? = some i) : d.after.code[n]? = some i := by
  have hsame := List.getElem?_eq_getElem hd.2
  rw [← hi, hsame, Chunk.getElem?_of_prefix hbegins hsame]

/-- Where no definition or call is nearer, an instruction has the span of the node's own instructions. -/
theorem span_of_least (hm : m.Holds n) (hi : m.after.code[n]? = some i)
    (hleast : ∀ d, Relation.TransGen Part m d → d.Holds n → d.node.pos? = none) : i.span = m.ownSpan := by
  induction m using partInduction with
  | _ m ih =>
    rcases m.composed.own n i hm.1 hi with hown | ⟨d, hd, hholds⟩
    · exact hown
    · -- a part has no position of its own, so it passes on the span that it was given
      obtain ⟨hspan, -, hafter⟩ := m.composed.parts d hd
      have hpos : d.node.pos? = none := hleast d (.single hd) hholds
      have hd' := ih d hd hholds (getElem?_of_holds hholds hafter hi) fun d' hd' => hleast d' (.head hd hd')
      rw [hd', ownSpan, hpos]
      exact hspan

theorem span_of_innermost (h : m.Innermost n d) (hi : m.after.code[n]? = some i) {pos : SourcePos}
    (hpos : d.node.pos? = some pos) : i.span = pos.span := by
  have hspan := span_of_least h.holds (getElem?_of_holds h.holds (prefix_of_within h.within) hi) h.least
  rw [hspan, ownSpan, hpos]
  rfl

theorem Innermost.not_outside (h : m.Innermost n d) : ¬m.Outside n := by
  intro hout
  have hpos := h.positioned
  rw [hout d h.within h.holds] at hpos
  cases hpos

theorem span_of_outside (h : m.Outside n) (hm : m.Holds n) (hi : m.after.code[n]? = some i) : i.span = m.span := by
  have hspan := span_of_least hm hi fun d hd => h d hd.to_reflTransGen
  rw [hspan, ownSpan, h m .refl hm]
  rfl

/-- An instruction lies in the code of an innermost definition or call, or of none at all. -/
theorem innermost_or_outside (m : Emission) (n : Nat) : (∃ d, m.Innermost n d) ∨ m.Outside n := by
  induction m using partInduction with
  | _ m ih =>
    by_cases hinner : ∃ p ∈ m.parts, ∃ d, p.Innermost n d
    · obtain ⟨p, hp, d, hd⟩ := hinner
      exact .inl ⟨d, hd.within.head hp, hd.holds, hd.positioned, hd.least⟩
    · have hparts : ∀ d, Relation.TransGen Part m d → d.Holds n → d.node.pos? = none := by
        intro d hd hholds
        obtain ⟨p, hp, hpd⟩ := Relation.TransGen.head'_iff.mp hd
        exact (ih p hp).resolve_left (fun ⟨d, hd⟩ => hinner ⟨p, hp, d, hd⟩) d hpd hholds
      by_cases hself : m.Holds n ∧ m.node.pos?.isSome = true
      · exact .inl ⟨m, .refl, hself.1, hself.2, hparts⟩
      · refine .inr fun d hd hholds => ?_
        rcases hd.cases_head with rfl | ⟨p, hp, hpd⟩
        · simpa using not_and.mp hself hholds
        · exact hparts d (.head' hp hpd) hholds

end Innermost

end Emission

/-! ### The same code with other spans -/

/-- The chunks differ in their sources and in spans at most. -/
structure Chunk.SameOps (c c' : Chunk) : Prop where
  code : c.code.map (·.op) = c'.code.map (·.op)
  constants : c.constants = c'.constants
  vars : c.vars = c'.vars

namespace Chunk.SameOps
variable {c c' : Chunk}

theorem symm (h : c.SameOps c') : c'.SameOps c :=
  ⟨h.code.symm, h.constants.symm, h.vars.symm⟩

theorem length (h : c.SameOps c') : c.code.length = c'.code.length := by
  simpa only [List.length_map] using congrArg List.length h.code

theorem push (h : c.SameOps c') (op : Op) (span span' : Span) : (c.push op span).SameOps (c'.push op span') := by
  refine ⟨?_, h.constants, h.vars⟩
  simp only [Chunk.push, List.map_append, h.code, List.map_cons, List.map_nil]

theorem finish (h : c.SameOps c') (usage : Usage) (span span' : Span) :
    (c.finish usage span).SameOps (c'.finish usage span') := by
  cases usage with
  | discarded => exact h.push .pop span span'
  | value | tailReturn => exact h

theorem pushConst (h : c.SameOps c') (value : Value) (span span' : Span) :
    (c.pushConst value span).SameOps (c'.pushConst value span') := by
  have hconst : (c.addConst value).SameOps (c'.addConst value) :=
    ⟨h.code, congrArg (· ++ [value]) h.constants, h.vars⟩
  unfold Chunk.pushConst
  split
  · exact h.push .constNil span span'
  · rw [h.constants]
    exact hconst.push _ span span'

theorem pushVarOp (h : c.SameOps c') (op : Nat → Op) (v : Var) (span span' : Span) :
    (c.pushVarOp op v span).SameOps (c'.pushVarOp op v span') := by
  have hvar : (c.addVar v).SameOps (c'.addVar v) := by
    refine ⟨by rw [c.code_addVar, c'.code_addVar, h.code], ?_, ?_⟩
    · unfold addVar
      split <;> split <;> exact h.constants
    · unfold addVar
      rw [h.vars]
      split
      · exact h.vars
      · rfl
  have hindex : c.varIndex v = c'.varIndex v := by rw [varIndex, varIndex, h.vars]
  unfold Chunk.pushVarOp
  rw [hindex]
  exact hvar.push _ span span'

end Chunk.SameOps

/-- The code of the node is the same but for its spans, whatever spans are given. -/
def Expr.Uniform (e : Expr) : Prop :=
  ∀ usage span span' {c c' : Chunk}, c.SameOps c' → (e.emit usage span c).SameOps (e.emit usage span' c')

namespace Emission
open LispCore.Expr

/-- The emissions are of the same node, to chunks that differ in their sources and in spans at most. -/
structure Alike (m m' : Emission) : Prop where
  usage : m.usage = m'.usage
  node : m.node = m'.node
  before : m.before.SameOps m'.before

section Alike
variable {c c' : Chunk}

theorem alike_ofAll {items : List Expr} (h : ∀ e ∈ items, e.Uniform) (hc : c.SameOps c') (span span' : Span) :
    (emitAll span items c).SameOps (emitAll span' items c') ∧
      List.Forall₂ Alike (ofAll span items c) (ofAll span' items c') := by
  induction items generalizing c c' with
  | nil => exact ⟨hc, .nil⟩
  | cons e rest ih =>
    obtain ⟨he, hrest⟩ := List.forall_mem_cons.mp h
    obtain ⟨hcode, halike⟩ := ih hrest (he .value span span' hc)
    exact ⟨hcode, .cons ⟨rfl, rfl, hc⟩ halike⟩

theorem alike_ofEntries {entries : List (Expr × Expr)} (h : ∀ p ∈ entries, p.1.Uniform ∧ p.2.Uniform)
    (hc : c.SameOps c') (span span' : Span) :
    (emitEntries span entries c).SameOps (emitEntries span' entries c') ∧
      List.Forall₂ Alike (ofEntries span entries c) (ofEntries span' entries c') := by
  induction entries generalizing c c' with
  | nil => exact ⟨hc, .nil⟩
  | cons p rest ih =>
    obtain ⟨⟨hk, he⟩, hrest⟩ := List.forall_mem_cons.mp h
    have hkey := hk .value span span' hc
    obtain ⟨hcode, halike⟩ := ih hrest (he .value span span' hkey)
    exact ⟨hcode, .cons ⟨rfl, rfl, hc⟩ (.cons ⟨rfl, rfl, hkey⟩ halike)⟩

theorem alike_ofTags {tags : List (Key × Expr)} (h : ∀ t ∈ tags, t.2.Uniform) (hc : c.SameOps c')
    (span span' : Span) : (emitTags span tags c).SameOps (emitTags span' tags c') ∧
      List.Forall₂ Alike (ofTags span tags c) (ofTags span' tags c') := by
  induction tags generalizing c c' with
  | nil => exact ⟨hc, .nil⟩
  | cons t rest ih =>
    obtain ⟨he, hrest⟩ := List.forall_mem_cons.mp h
    have hkey := hc.pushConst t.1.toValue span span'
    obtain ⟨hcode, halike⟩ := ih hrest (he .value span span' hkey)
    exact ⟨hcode, .cons ⟨rfl, rfl, hkey⟩ halike⟩

theorem alike_ofBody (usage : Usage) (span span' : Span) : ∀ {exprs : List Expr}, (∀ e ∈ exprs, e.Uniform) →
    ∀ {c c' : Chunk}, c.SameOps c' → (emitBody usage span exprs c).SameOps (emitBody usage span' exprs c') ∧
      List.Forall₂ Alike (ofBody usage span exprs c) (ofBody usage span' exprs c')
  | [], _, _, _, hc => ⟨(hc.pushConst .nil span span').finish usage span span', .nil⟩
  | [e], h, _, _, hc => ⟨h e List.mem_cons_self usage span span' hc, .cons ⟨rfl, rfl, hc⟩ .nil⟩
  | e :: e' :: rest, h, c, c', hc => by
    obtain ⟨he, hrest⟩ := List.forall_mem_cons.mp h
    obtain ⟨hcode, halike⟩ := alike_ofBody usage span span' hrest (he .discarded span span' hc)
    exact ⟨hcode, .cons ⟨rfl, rfl, hc⟩ halike⟩

end Alike

/-- Emissions of the same node add the same code, and their parts are again of the same nodes, if the code of the
parts is uniform. -/
theorem Alike.of_uniform {m m' : Emission} (h : Alike m m') (hchildren : ∀ d ∈ m.node.children, d.Uniform) :
    m.after.SameOps m'.after ∧ List.Forall₂ Alike m.parts m'.parts := by
  obtain ⟨usage, span, node, c⟩ := m
  obtain ⟨_, span', _, c'⟩ := m'
  obtain ⟨rfl, rfl, hc⟩ := h
  have hc : c.SameOps c' := hc
  cases node with
  | define target dynamic tags init pos =>
    have htags : ∀ t ∈ tags, t.2.Uniform := fun t ht => hchildren t.2 (mem_children_define.mpr (.inl ⟨t, ht, rfl⟩))
    have hstart := hc.pushVarOp .pushVar target pos.span pos.span
    have hmarked : Chunk.SameOps
        (let c := c.pushVarOp .pushVar target pos.span
          if dynamic then c.push .setDynamic pos.span else c)
        (let c := c'.pushVarOp .pushVar target pos.span
          if dynamic then c.push .setDynamic pos.span else c) := by
      cases dynamic with
      | false => exact hstart
      | true => exact hstart.push .setDynamic pos.span pos.span
    obtain ⟨hcode, halike⟩ := alike_ofTags htags (hmarked.push .dup pos.span pos.span) pos.span pos.span
    have hstored := (hcode.push (.makeMap tags.length) pos.span pos.span).push .setMetadata pos.span pos.span
    cases init with
    | none => exact ⟨hstored.finish usage pos.span pos.span, List.rel_append halike .nil⟩
    | some e =>
      have hdup := hstored.push .dup pos.span pos.span
      have hinit := hchildren e (mem_children_define.mpr (.inr rfl)) .value pos.span pos.span hdup
      exact ⟨(hinit.push .bindRoot pos.span pos.span).finish usage pos.span pos.span,
        List.rel_append halike (.cons ⟨rfl, rfl, hdup⟩ .nil)⟩
  | empty kind => exact ⟨(hc.push (.emptyCollection kind) span span').finish usage span span', .nil⟩
  | enter target =>
    have htarget := hchildren target List.mem_cons_self .value span span' hc
    have hentered := (htarget.push .monitorEnter span span').push .constNil span span'
    exact ⟨hentered.finish usage span span', .cons ⟨rfl, rfl, hc⟩ .nil⟩
  | const value => exact ⟨(hc.pushConst value span span').finish usage span span', .nil⟩
  | ref v => exact ⟨(hc.pushVarOp .derefVar v span span').finish usage span span', .nil⟩
  | vector items | set items =>
    obtain ⟨hcode, halike⟩ := alike_ofAll hchildren hc span span'
    exact ⟨(hcode.push _ span span').finish usage span span', halike⟩
  | map entries =>
    have hentries : ∀ p ∈ entries, p.1.Uniform ∧ p.2.Uniform := fun p hp =>
      ⟨hchildren p.1 (mem_children_map.mpr ⟨p, hp, .inl rfl⟩), hchildren p.2 (mem_children_map.mpr ⟨p, hp, .inr rfl⟩)⟩
    obtain ⟨hcode, halike⟩ := alike_ofEntries hentries hc span span'
    exact ⟨(hcode.push _ span span').finish usage span span', halike⟩
  | invoke callee args pos =>
    obtain ⟨hcallee, hargs⟩ := List.forall_mem_cons.mp hchildren
    have hcode := hcallee .value pos.span pos.span hc
    obtain ⟨hcode, halike⟩ := alike_ofAll hargs hcode pos.span pos.span
    exact ⟨(hcode.push _ pos.span pos.span).finish usage pos.span pos.span, .cons ⟨rfl, rfl, hc⟩ halike⟩
  | body exprs => exact alike_ofBody usage span span' hchildren hc

theorem uniform (e : Expr) : e.Uniform := by
  induction e using childInduction with
  | _ e ih =>
    intro usage span span' c c' hc
    have halike : Alike ⟨usage, span, e, c⟩ ⟨usage, span', e, c'⟩ := ⟨rfl, rfl, hc⟩
    exact (halike.of_uniform ih).1

section Alike
variable {m m' d : Emission} {n : Nat}

theorem Alike.symm (h : Alike m m') : Alike m' m :=
  ⟨h.usage.symm, h.node.symm, h.before.symm⟩

theorem Alike.after (h : Alike m m') : m.after.SameOps m'.after :=
  (h.of_uniform fun d _ => uniform d).1

theorem Alike.holds (h : Alike m m') (hm : m.Holds n) : m'.Holds n := by
  rwa [Holds, ← h.before.length, ← h.after.length]

/-- What is emitted within the one is emitted within the other. -/
theorem Alike.within (h : Alike m m') (hd : Relation.ReflTransGen Part m d) :
    ∃ d', Relation.ReflTransGen Part m' d' ∧ Alike d d' := by
  induction hd with
  | refl => exact ⟨m', .refl, h⟩
  | tail _ hpart ih =>
    obtain ⟨d₁, hwithin, halike⟩ := ih
    have hparts := (halike.symm.of_uniform fun d _ => uniform d).2
    obtain ⟨d₂, hd₂, halike₂⟩ := exists_mem_of_forall₂ hparts _ hpart
    exact ⟨d₂, hwithin.tail hd₂, halike₂.symm⟩

theorem Alike.outside (h : Alike m m') (hout : m.Outside n) : m'.Outside n := by
  intro d hd hholds
  obtain ⟨d', hd', halike⟩ := h.symm.within hd
  rw [halike.node]
  exact hout d' hd' (halike.holds hholds)

end Alike

end Emission
end LispCore
