import LispCore.Code.Emit
import LispCore.Proofs.Machine
import LispCore.Proofs.Nodes

/-! # Compiled code does what its node does

`Chunk.Adds c d x top kinds` says that `d` is `c` with code appended that runs `x` and leaves `top a` on the
stack for its value `a`. The tables of a chunk keep growing while code is appended, so the statement is about
every chunk whose tables begin with those of `d`. Each way of appending code keeps it, and by induction over
nodes the code of a node runs the node, its definitions metadata first (`Expr.emits`). -/

namespace LispCore

open Machine

/-- Both chunks have one source, and the tables of the second begin with those of the first. -/
structure Chunk.Within (c d : Chunk) : Prop where
  source : d.source = c.source
  constants : c.constants <+: d.constants
  vars : c.vars <+: d.vars

/-- What is kept of the value of a node. -/
def Usage.keep {α : Type} (usage : Usage) (a : α) : List α :=
  match usage with
  | .discarded => []
  | .value | .tailReturn => [a]

namespace Chunk

theorem Within.refl (c : Chunk) : c.Within c :=
  ⟨rfl, List.prefix_refl _, List.prefix_refl _⟩

theorem Within.trans {c d d' : Chunk} (h : c.Within d) (h' : d.Within d') : c.Within d' :=
  ⟨h'.source.trans h.source, h.constants.trans h'.constants, h.vars.trans h'.vars⟩

/-- The code that `d` has after that of `c` runs `x` and leaves `top a` on the stack for the value `a`, in every
chunk that has the tables of `d`; `kinds` are the kinds of the values left. -/
structure Adds {α : Type} (c d : Chunk) (x : Exec α) (top : α → Stack) (kinds : Kinds) : Prop where
  within : c.Within d
  code : ∃ fragment, d.code = c.code ++ fragment ∧ ∀ c', d.Within c' →
    (∀ stack, exec c' fragment stack = (fun a => top a ++ stack) <$> x) ∧
    ∀ ks, retypeAll c' fragment ks = some (kinds ++ ks)

variable {α β : Type} {c d d' : Chunk} {x : Exec α} {y : Exec β} {top : α → Stack} {top' : β → Stack}
  {kinds kinds' : Kinds}

theorem Adds.begins (h : Adds c d x top kinds) : c.code <+: d.code := by
  obtain ⟨fragment, hcode, -⟩ := h.code
  exact ⟨fragment, hcode.symm⟩

/-! ### Putting code together -/

/-- New entries in the tables are no code. -/
theorem adds_of_tables (h : c.Within d) (hcode : d.code = c.code) : Adds c d (pure ()) (fun _ => []) [] := by
  refine ⟨h, [], by rw [hcode, List.append_nil], fun c' _ => ⟨fun stack => ?_, fun ks => rfl⟩⟩
  simp only [exec, List.nil_append, map_pure]

theorem adds_nothing (c : Chunk) : Adds c c (pure ()) (fun _ => []) [] :=
  adds_of_tables (.refl c) rfl

/-- The same code, with its value seen through `f`. -/
theorem Adds.map (f : α → β) (h : Adds c d x top kinds) (hx : f <$> x = y) (htop : ∀ a, top a = top' (f a))
    (hkinds : kinds = kinds') : Adds c d y top' kinds' := by
  subst hx hkinds
  obtain ⟨within, fragment, hcode, hrun⟩ := h
  refine ⟨within, fragment, hcode, fun c' hc' => ⟨fun stack => ?_, (hrun c' hc').2⟩⟩
  rw [(hrun c' hc').1, Functor.map_map]
  simp only [htop]

/-- Code after code: what the second leaves is on top. -/
theorem Adds.append (h : Adds c d x top kinds) (h' : Adds d d' y top' kinds') :
    Adds c d' (do let a ← x; let b ← y; return (a, b)) (fun p => top' p.2 ++ top p.1) (kinds' ++ kinds) := by
  obtain ⟨within, fragment, hcode, hrun⟩ := h
  obtain ⟨within', fragment', hcode', hrun'⟩ := h'
  refine ⟨within.trans within', fragment ++ fragment', ?_, fun c' hc' => ?_⟩
  · rw [hcode', hcode, List.append_assoc]
  · obtain ⟨hexec, hkinds⟩ := hrun c' (within'.trans hc')
    obtain ⟨hexec', hkinds'⟩ := hrun' c' hc'
    refine ⟨fun stack => ?_, fun ks => ?_⟩
    · rw [exec_append, hexec]
      simp only [map_eq_pure_bind, bind_assoc, pure_bind, hexec', List.append_assoc]
    · rw [retypeAll_append, hkinds, Option.bind_some, hkinds', List.append_assoc]

/-- One more instruction, described by what it does to the values that the code before it leaves. -/
theorem Adds.push {op : Op} {span : Span} {z : α → Exec β} (h : Adds c d x top kinds)
    (hstep : ∀ c', d.Within c' → ∀ w a w', x w = .ok a w' → ∀ stack,
      step c' op (top a ++ stack) = (fun b => top' b ++ stack) <$> z a)
    (hkinds : ∀ c', d.Within c' → ∀ ks, retype c' op (kinds ++ ks) = some (kinds' ++ ks)) :
    Adds c (d.push op span) (x >>= fun a => Exec.locating { file := c.source, line := span.line } (z a))
      top' kinds' := by
  obtain ⟨within, fragment, hcode, hrun⟩ := h
  refine ⟨within.trans ⟨rfl, List.prefix_refl _, List.prefix_refl _⟩, fragment ++ [⟨op, span⟩], ?_, ?_⟩
  · rw [Chunk.push, hcode, List.append_assoc]
  · intro c' hc'
    have hd : d.Within c' := ⟨hc'.source, hc'.constants, hc'.vars⟩
    have hsource : c'.source = c.source := hd.source.trans within.source
    obtain ⟨hexec, hkinds₁⟩ := hrun c' hd
    refine ⟨fun stack => ?_, fun ks => ?_⟩
    · -- the instruction is only known to work on values that `x` can give
      rw [exec_append, hexec, map_bind, seq_bind_eq]
      refine Exec.bind_congr_of_ok fun w a w' ha => ?_
      simp only [Function.comp_apply, exec, bind_pure, hsource, hstep c' hd w a w' ha, Exec.locating_eq_adapt,
        Exec.adapt_map]
    · rw [retypeAll_append, hkinds₁, Option.bind_some]
      simp only [retypeAll, hkinds c' hd, Option.bind_some]

/-- An instruction that only rearranges the values on top. -/
theorem Adds.pushPure {op : Op} {span : Span} {f : α → β} (h : Adds c d x top kinds)
    (hstep : ∀ c', d.Within c' → ∀ w a w', x w = .ok a w' → ∀ stack,
      step c' op (top a ++ stack) = pure (top' (f a) ++ stack))
    (hkinds : ∀ c', d.Within c' → ∀ ks, retype c' op (kinds ++ ks) = some (kinds' ++ ks)) :
    Adds c (d.push op span) (f <$> x) top' kinds' := by
  rw [map_eq_pure_bind]
  exact h.push (z := fun a => pure (f a))
    (fun c' hc' w a w' ha stack => by rw [map_pure, hstep c' hc' w a w' ha stack]) hkinds

/-! ### Tables -/

theorem getElem?_of_prefix {table table' : List α} (h : table <+: table') {i : Nat} {a : α}
    (hi : table[i]? = some a) : table'[i]? = some a := by
  obtain ⟨more, rfl⟩ := h
  rw [List.getElem?_append_left (List.getElem?_eq_some_iff.mp hi).1, hi]

theorem within_addConst (c : Chunk) (value : Value) : c.Within (c.addConst value) :=
  ⟨rfl, List.prefix_append _ _, List.prefix_refl _⟩

theorem within_addVar (c : Chunk) (v : Var) : c.Within (c.addVar v) := by
  unfold addVar
  split
  · exact Within.refl c
  · exact ⟨rfl, List.prefix_refl _, List.prefix_append _ _⟩

theorem code_addVar (c : Chunk) (v : Var) : (c.addVar v).code = c.code := by
  unfold addVar
  split <;> rfl

theorem getElem?_varIndex (c : Chunk) (v : Var) : (c.addVar v).vars[c.varIndex v]? = some v := by
  unfold addVar varIndex
  split
  · next h => exact List.getElem?_idxOf h
  · next h => simp only [List.idxOf_eq_length h, List.getElem?_concat_length]

/-- The index of a var stays valid in the chunks that come after. -/
theorem Within.getElem?_varIndex {c c' : Chunk} {v : Var} (h : (c.addVar v).Within c') :
    c'.vars[c.varIndex v]? = some v :=
  getElem?_of_prefix h.vars (c.getElem?_varIndex v)

theorem adds_pushConst (c : Chunk) (value : Value) (span : Span) :
    Adds c (c.pushConst value span) (pure ()) (fun _ => [value]) [some value.kind] := by
  unfold Chunk.pushConst
  split
  · exact (adds_nothing c).pushPure (f := id) (fun _ _ _ _ _ _ _ => rfl) fun _ _ _ => rfl
  · have hindex : ∀ c', (c.addConst value).Within c' → c'.constants[c.constants.length]? = some value :=
      fun c' hc' => getElem?_of_prefix hc'.constants List.getElem?_concat_length
    refine (adds_of_tables (within_addConst c value) rfl).pushPure (f := id) ?_ ?_
    · intro c' hc' w a w' ha stack
      simp only [step, constant, hindex c' hc']
      rfl
    · intro c' hc' ks
      simp only [List.nil_append, retype, hindex c' hc']
      rfl

theorem adds_pushVar (c : Chunk) (v : Var) (span : Span) :
    Adds c (c.pushVarOp .pushVar v span) (pure ()) (fun _ => [.var v]) [some .var] := by
  refine (adds_of_tables (within_addVar c v) (code_addVar c v)).pushPure (f := id) ?_ ?_
  · intro c' hc' w a w' ha stack
    simp only [step, varAt, hc'.getElem?_varIndex]
    rfl
  · intro c' hc' ks
    simp only [List.nil_append, retype, hc'.getElem?_varIndex]
    rfl

theorem adds_derefVar (c : Chunk) (v : Var) (span : Span) :
    Adds c (c.pushVarOp .derefVar v span) (Exec.locating { file := c.source, line := span.line } (deref v))
      (fun value => [value]) [none] := by
  refine (adds_of_tables (within_addVar c v) (code_addVar c v)).push (z := fun _ => deref v) ?_ ?_
  · intro c' hc' w a w' ha stack
    simp only [step, varAt, hc'.getElem?_varIndex, Exec.ofExcept_bind_apply_ok rfl, map_eq_pure_bind]
    rfl
  · intro c' hc' ks
    simp only [List.nil_append, retype, hc'.getElem?_varIndex]
    rfl

end Chunk

/-! ### Lists of operands -/

namespace Machine

/-- Pairs as they lie on the stack, read from below. -/
def flat {α : Type} (pairs : List (α × α)) : List α :=
  pairs.flatMap fun p => [p.1, p.2]

theorem flat_cons {α : Type} (a b : α) (rest : List (α × α)) : flat ((a, b) :: rest) = a :: b :: flat rest := rfl

theorem length_flat {α : Type} (pairs : List (α × α)) : (flat pairs).length = pairs.length * 2 := by
  induction pairs with
  | nil => rfl
  | cons p rest ih =>
    rw [flat_cons, List.length_cons, List.length_cons, ih, List.length_cons]
    omega

theorem pairUp_flat (pairs : List (Value × Value)) : pairUp (flat pairs) = pairs := by
  induction pairs with
  | nil => rfl
  | cons p rest ih => rw [flat_cons, pairUp, ih]

theorem popMany_reverse {n : Nat} {items : List Value} (h : items.length = n) (stack : Stack) :
    popMany n (items.reverse ++ stack) = .ok (items, stack) := by
  rw [popMany_append (Nat.le_of_eq (List.length_reverse.trans h).symm)]
  rw [← h, ← List.length_reverse, List.take_length, List.drop_length, List.reverse_reverse, List.nil_append]

end Machine

/-! ### One instruction -/

namespace Chunk

variable {α : Type} {c d : Chunk} {x : Exec α} {kinds : Kinds} {k : Option ValueKind}

theorem Adds.constNil (h : Adds c d x (fun _ => []) []) (span : Span) :
    Adds c (d.push .constNil span) ((fun _ => Value.nil) <$> x) (fun value => [value]) [some .nil] :=
  h.pushPure (fun _ _ _ _ _ _ _ => rfl) fun _ _ _ => rfl

theorem Adds.dup {value : Value} (h : Adds c d x (fun _ => [value]) [k]) (span : Span) :
    Adds c (d.push .dup span) x (fun _ => [value, value]) [k, k] := by
  rw [← id_map x]
  exact h.pushPure (f := id) (fun _ _ _ _ _ _ _ => rfl) fun _ _ _ => rfl

theorem Adds.setDynamic {v : Var} (h : Adds c d x (fun _ => [.var v]) [some .var]) (span : Span) :
    Adds c (d.push .setDynamic span) (x >>= fun _ => modify (·.setDynamic v)) (fun _ => [.var v]) [some .var] :=
  h.push (z := fun _ => modify (·.setDynamic v)) (fun _ _ _ _ _ _ _ => rfl) fun _ _ _ => rfl

theorem Adds.setMetadata {x : Exec (Table Key Value)} {v : Var} {base : Stack}
    (h : Adds c d x (fun entries => .map entries :: .var v :: base) (some .map :: some .var :: kinds)) (span : Span) :
    Adds c (d.push .setMetadata span) (x >>= fun entries => modify (·.setMetadata v entries)) (fun _ => base)
      kinds :=
  h.push (z := fun entries => modify (·.setMetadata v entries)) (fun _ _ _ _ _ _ _ => rfl) fun _ _ _ => rfl

theorem Adds.bindRoot {value : α → Value} {v : Var} {base : Stack}
    (h : Adds c d x (fun a => value a :: .var v :: base) (k :: some .var :: kinds)) (span : Span) :
    Adds c (d.push .bindRoot span) (x >>= fun a => modify (·.bindRoot v (value a))) (fun _ => base) kinds :=
  h.push (z := fun a => modify (·.bindRoot v (value a))) (fun _ _ _ _ _ _ _ => rfl) fun _ _ _ => rfl

theorem Adds.monitorEnter {x : Exec Value} (h : Adds c d x (fun value => [value]) [k]) (span : Span) :
    Adds c (d.push .monitorEnter span)
      (x >>= fun value => Exec.locating { file := c.source, line := span.line } (enterMonitor value))
      (fun _ => []) [] := by
  refine h.push (fun c' _ w value w' _ stack => ?_) fun _ _ _ => rfl
  rw [map_eq_pure_bind]
  rfl

/-- Instructions that make one value of the `n` topmost ones. -/
theorem Adds.collect {x : Exec (List Value)} {op : Op} {n : Nat} {f : List Value → Value} {kind : ValueKind}
    (h : Adds c d x List.reverse kinds) (hx : ∀ {w items w'}, x w = .ok items w' → items.length = n)
    (hkinds : kinds.length = n)
    (hstep : ∀ c' items stack, items.length = n → step c' op (items.reverse ++ stack) = pure (f items :: stack))
    (hop : ∀ c' ks, n ≤ ks.length → retype c' op ks = some (some kind :: ks.drop n)) (span : Span) :
    Adds c (d.push op span) (f <$> x) (fun value => [value]) [some kind] := by
  refine h.pushPure (fun c' _ w items w' hitems stack => hstep c' items stack (hx hitems)) fun c' _ ks => ?_
  rw [hop c' _ (by rw [List.length_append]; omega), ← hkinds, List.drop_left]
  rfl

theorem Adds.makeVector {x : Exec (List Value)} {n : Nat} (h : Adds c d x List.reverse kinds)
    (hx : ∀ {w items w'}, x w = .ok items w' → items.length = n) (hkinds : kinds.length = n) (span : Span) :
    Adds c (d.push (.makeVector n) span) (Value.vector <$> x) (fun value => [value]) [some .vector] := by
  refine h.collect hx hkinds (fun c' items stack hn => ?_) (fun c' ks hks => ?_) span
  · simp only [step, popMany_reverse hn]
    rfl
  · exact if_pos hks

theorem Adds.makeSet {x : Exec (List Value)} {n : Nat} (h : Adds c d x List.reverse kinds)
    (hx : ∀ {w items w'}, x w = .ok items w' → items.length = n) (hkinds : kinds.length = n) (span : Span) :
    Adds c (d.push (.makeSet n) span) ((fun items => Value.set (Value.setOf items)) <$> x) (fun value => [value])
      [some .set] := by
  refine h.collect hx hkinds (fun c' items stack hn => ?_) (fun c' ks hks => ?_) span
  · simp only [step, popMany_reverse hn]
    rfl
  · exact if_pos hks

theorem Adds.makeMap {pairs : α → List (Value × Value)} {base : Stack} {baseKinds : Kinds} {n : Nat}
    (h : Adds c d x (fun a => (flat (pairs a)).reverse ++ base) (kinds ++ baseKinds))
    (hx : ∀ {w a w'}, x w = .ok a w' → (pairs a).length = n) (hkinds : kinds.length = n * 2) (span : Span) :
    Adds c (d.push (.makeMap n) span)
      (x >>= fun a => Exec.locating { file := c.source, line := span.line } (Exec.ofExcept (Value.mapOf (pairs a))))
      (fun entries => .map entries :: base) (some .map :: baseKinds) := by
  refine h.push (fun c' _ w a w' ha stack => ?_) fun c' _ ks => ?_
  · have hn : (flat (pairs a)).length = n * 2 := by rw [length_flat, hx ha]
    simp only [step, List.append_assoc, popMany_reverse hn, Exec.ofExcept_bind_apply_ok rfl, pairUp_flat,
      map_eq_pure_bind, List.cons_append]
  · rw [retype, if_pos (by simp only [List.length_append]; omega), List.append_assoc, ← hkinds, List.drop_left]
    rfl

theorem Adds.call {x : Exec (Value × List Value)} {n : Nat}
    (h : Adds c d x (fun p => p.2.reverse ++ [p.1]) (kinds ++ [k]))
    (hx : ∀ {w p w'}, x w = .ok p w' → p.2.length = n) (hkinds : kinds.length = n) (span : Span) :
    Adds c (d.push (.call n) span)
      (x >>= fun p => Exec.locating { file := c.source, line := span.line } (apply p.1 p.2))
      (fun value => [value]) [none] := by
  refine h.push (fun c' _ w p w' hp stack => ?_) fun c' _ ks => ?_
  · simp only [step, List.append_assoc, popMany_reverse (hx hp), Exec.ofExcept_bind_apply_ok rfl,
      List.singleton_append, pop, map_eq_pure_bind]
  · rw [retype, if_pos (by simp only [List.length_append, List.length_singleton]; omega), ← hkinds]
    rw [show kinds.length + 1 = (kinds ++ [k]).length by simp, List.drop_left]
    rfl

/-- The value is dropped if it is not used. -/
theorem Adds.finish {x : Exec Value} {k : Option ValueKind} (h : Adds c d x (fun value => [value]) [k])
    (usage : Usage) (span : Span) : Adds c (d.finish usage span) x usage.keep (usage.keep k) := by
  cases usage with
  | discarded =>
    rw [← id_map x]
    exact h.pushPure (f := id) (fun _ _ _ _ _ _ _ => rfl) fun _ _ _ => rfl
  | value => exact h
  | tailReturn => exact h

end Chunk

namespace Expr

variable {blame : SourcePos → Error → Error} {order : DefOrder} {w w' : World}

theorem length_evalAll {items : List Expr} {values : List Value}
    (h : evalAll blame order items w = .ok values w') : values.length = items.length := by
  induction items generalizing values w with
  | nil =>
    cases h
    rfl
  | cons e rest ih =>
    obtain ⟨value, w₁, -, h⟩ := Exec.bind_eq_ok h
    obtain ⟨values', w₂, hrest, h⟩ := Exec.bind_eq_ok h
    cases h
    rw [List.length_cons, List.length_cons, ih hrest]

theorem length_evalEntries {entries : List (Expr × Expr)} {values : List (Value × Value)}
    (h : evalEntries blame order entries w = .ok values w') : values.length = entries.length := by
  induction entries generalizing values w with
  | nil =>
    cases h
    rfl
  | cons p rest ih =>
    obtain ⟨key, w₁, -, h⟩ := Exec.bind_eq_ok h
    obtain ⟨value, w₂, -, h⟩ := Exec.bind_eq_ok h
    obtain ⟨values', w₃, hrest, h⟩ := Exec.bind_eq_ok h
    cases h
    rw [List.length_cons, List.length_cons, ih hrest]

theorem length_evalTags {tags : List (Key × Expr)} {values : List (Key × Value)}
    (h : evalTags blame order tags w = .ok values w') : values.length = tags.length := by
  induction tags generalizing values w with
  | nil =>
    cases h
    rfl
  | cons t rest ih =>
    obtain ⟨value, w₁, -, h⟩ := Exec.bind_eq_ok h
    obtain ⟨values', w₂, hrest, h⟩ := Exec.bind_eq_ok h
    cases h
    rw [List.length_cons, List.length_cons, ih hrest]

/-! ### The code of nodes -/

/-- What compiled code does with an error that leaves a definition or a call. -/
def blameIn (source : String) (pos : SourcePos) : Error → Error :=
  Error.locate { file := source, line := pos.line }

theorem rootCause_blameIn (source : String) (pos : SourcePos) (err : Error) :
    (blameIn source pos err).rootCause = err.rootCause :=
  Error.rootCause_locate _ err

theorem locating_adapt_blameIn (p : SourcePos) (source : String) (pos : SourcePos) (x : Exec Value) :
    Exec.locating p (Exec.adapt (blameIn source pos) x) =
      Exec.locating { file := source, line := pos.span.line } x :=
  Exec.adapt_locate_locate _ p x

/-- The code of a node runs the node, its definitions metadata first. -/
def Emits (e : Expr) : Prop :=
  ∀ (usage : Usage) (span : Span) (c : Chunk), ∃ k, c.Adds (e.emit usage span c)
    (Exec.locating { file := c.source, line := span.line } (e.evalWith (blameIn c.source) .tagsFirst))
    usage.keep (usage.keep k)

theorem adds_emitAll {items : List Expr} (h : ∀ e ∈ items, e.Emits) (span : Span) (c : Chunk) :
    ∃ kinds, kinds.length = items.length ∧ c.Adds (emitAll span items c)
      (Exec.locating { file := c.source, line := span.line } (evalAll (blameIn c.source) .tagsFirst items))
      List.reverse kinds := by
  induction items generalizing c with
  | nil => exact ⟨[], rfl, c.adds_nothing.map (fun _ => []) rfl (fun _ => rfl) rfl⟩
  | cons e rest ih =>
    obtain ⟨he, hrest⟩ := List.forall_mem_cons.mp h
    obtain ⟨k, hfirst⟩ := he .value span c
    obtain ⟨ks, hlength, hmore⟩ := ih hrest (e.emit .value span c)
    rw [hfirst.within.source] at hmore
    refine ⟨ks ++ [k], by simp [hlength], ?_⟩
    refine (hfirst.append hmore).map (fun p => p.1 :: p.2) ?_ (fun p => List.reverse_cons.symm) rfl
    simp only [evalAll, Exec.locating_eq_adapt, Exec.adapt_bind, Exec.adapt_pure, map_bind, map_pure]

theorem adds_emitEntries {entries : List (Expr × Expr)} (h : ∀ p ∈ entries, p.1.Emits ∧ p.2.Emits) (span : Span)
    (c : Chunk) :
    ∃ kinds, kinds.length = entries.length * 2 ∧ c.Adds (emitEntries span entries c)
      (Exec.locating { file := c.source, line := span.line } (evalEntries (blameIn c.source) .tagsFirst entries))
      (fun values => (flat values).reverse) kinds := by
  induction entries generalizing c with
  | nil => exact ⟨[], rfl, c.adds_nothing.map (fun _ => []) rfl (fun _ => rfl) rfl⟩
  | cons p rest ih =>
    obtain ⟨key, e⟩ := p
    obtain ⟨⟨hk, he⟩, hrest⟩ := List.forall_mem_cons.mp h
    obtain ⟨k₁, hkey⟩ := hk .value span c
    obtain ⟨k₂, hvalue⟩ := he .value span (key.emit .value span c)
    obtain ⟨ks, hlength, hmore⟩ := ih hrest (e.emit .value span (key.emit .value span c))
    rw [hvalue.within.source, hkey.within.source] at hmore
    rw [hkey.within.source] at hvalue
    refine ⟨ks ++ [k₂, k₁], by simp [hlength]; omega, ?_⟩
    refine ((hkey.append hvalue).append hmore).map (fun p => p.1 :: p.2) ?_ (fun p => ?_) rfl
    · simp only [evalEntries, Exec.locating_eq_adapt, Exec.adapt_bind, Exec.adapt_pure, map_bind, map_pure,
        bind_assoc, pure_bind]
    · rw [flat_cons, List.reverse_cons, List.reverse_cons, List.append_assoc]
      rfl

theorem adds_emitTags {tags : List (Key × Expr)} (h : ∀ t ∈ tags, t.2.Emits) (span : Span) (c : Chunk) :
    ∃ kinds, kinds.length = tags.length * 2 ∧ c.Adds (emitTags span tags c)
      (Exec.locating { file := c.source, line := span.line } (evalTags (blameIn c.source) .tagsFirst tags))
      (fun values => (flat (values.map fun t => (t.1.toValue, t.2))).reverse) kinds := by
  induction tags generalizing c with
  | nil => exact ⟨[], rfl, c.adds_nothing.map (fun _ => []) rfl (fun _ => rfl) rfl⟩
  | cons t rest ih =>
    obtain ⟨key, e⟩ := t
    obtain ⟨he, hrest⟩ := List.forall_mem_cons.mp h
    have hkey := c.adds_pushConst key.toValue span
    obtain ⟨k, hvalue⟩ := he .value span (c.pushConst key.toValue span)
    obtain ⟨ks, hlength, hmore⟩ := ih hrest (e.emit .value span (c.pushConst key.toValue span))
    rw [hvalue.within.source, hkey.within.source] at hmore
    rw [hkey.within.source] at hvalue
    refine ⟨ks ++ [k, some key.toValue.kind], by simp [hlength]; omega, ?_⟩
    refine ((hkey.append hvalue).append hmore).map (fun p => (key, p.1.2) :: p.2) ?_ (fun p => ?_) rfl
    · simp only [evalTags, Exec.locating_eq_adapt, Exec.adapt_bind, Exec.adapt_pure, map_bind, map_pure,
        bind_assoc, pure_bind]
    · rw [List.map_cons, flat_cons, List.reverse_cons, List.reverse_cons, List.append_assoc]
      rfl

theorem adds_emitBody (usage : Usage) (span : Span) : ∀ {exprs : List Expr}, (∀ e ∈ exprs, e.Emits) →
    ∀ c : Chunk, ∃ k, c.Adds (emitBody usage span exprs c)
      (Exec.locating { file := c.source, line := span.line } (evalBody (blameIn c.source) .tagsFirst exprs))
      usage.keep (usage.keep k)
  | [], _, c => by
    simp only [emitBody, evalBody]
    exact ⟨_, ((c.adds_pushConst .nil span).map (fun _ => Value.nil) rfl (fun _ => rfl) rfl).finish usage span⟩
  | [e], h, c => by
    simp only [emitBody, evalBody]
    exact h e List.mem_cons_self usage span c
  | e :: e' :: rest, h, c => by
    obtain ⟨he, hrest⟩ := List.forall_mem_cons.mp h
    obtain ⟨_, hfirst⟩ := he .discarded span c
    obtain ⟨k, hmore⟩ := adds_emitBody usage span hrest (e.emit .discarded span c)
    rw [hfirst.within.source] at hmore
    simp only [emitBody, evalBody]
    refine ⟨k, (hfirst.append hmore).map Prod.snd ?_ (fun p => List.append_nil _) (List.append_nil _)⟩
    simp only [Exec.locating_eq_adapt, Exec.adapt_bind, map_bind, map_pure, bind_pure]

/-- The code of a definition up to its metadata leaves the var. -/
theorem adds_tags (target : Var) (dynamic : Bool) {tags : List (Key × Expr)} (h : ∀ t ∈ tags, t.2.Emits)
    (pos : SourcePos) (c : Chunk) :
    let c₁ := c.pushVarOp .pushVar target pos.span
    let c₂ := if dynamic then c₁.push .setDynamic pos.span else c₁
    let c₃ := emitTags pos.span tags (c₂.push .dup pos.span)
    c.Adds ((c₃.push (.makeMap tags.length) pos.span).push .setMetadata pos.span)
      (do
        modify (·.markDynamic target dynamic)
        let values ← Exec.locating { file := c.source, line := pos.line } (evalTags (blameIn c.source) .tagsFirst tags)
        modify (·.setMetadata target (Table.ofList values)))
      (fun _ => [.var target]) [some .var] := by
  intro c₁ c₂ c₃
  have hvar : c.Adds c₁ (pure ()) (fun _ => [.var target]) [some .var] := c.adds_pushVar target pos.span
  have hmark : c.Adds c₂ (modify (·.markDynamic target dynamic)) (fun _ => [.var target]) [some .var] := by
    cases dynamic with
    | false => exact hvar
    | true => exact hvar.setDynamic pos.span
  have hdup := hmark.dup pos.span
  obtain ⟨kinds, hlength, htags⟩ := adds_emitTags h pos.span (c₂.push .dup pos.span)
  rw [hdup.within.source] at htags
  have hmap := (hdup.append htags).makeMap (fun h => ?_) hlength pos.span
  · refine (hmap.setMetadata pos.span).map id ?_ (fun _ => rfl) rfl
    simp only [id_map, bind_assoc, pure_bind, Value.mapOf_tags]
    rfl
  · obtain ⟨_, w₁, -, h⟩ := Exec.bind_eq_ok h
    obtain ⟨values, w₂, hvalues, h⟩ := Exec.bind_eq_ok h
    cases h
    rw [List.length_map]
    exact length_evalTags (Exec.adapt_eq_ok hvalues)

/-- By induction over the node. Each case puts the code of the parts together and then follows the instructions
that the node adds to it. -/
theorem emits (e : Expr) : e.Emits := by
  induction e using nodeInduction with
  | define target dynamic tags init pos ihtags ihinit =>
    intro usage span c
    have htags := adds_tags target dynamic ihtags pos c
    rw [evalWith_define, locating_adapt_blameIn, runDefinition_tagsFirst]
    cases init with
    | none =>
      refine ⟨_, Chunk.Adds.finish (htags.map (fun _ => .var target) ?_ (fun _ => rfl) rfl) usage pos.span⟩
      simp only [Exec.locating_eq_adapt, Exec.adapt_bind, Exec.adapt_modify, Exec.adapt_pure, evalInit, pure_bind,
        map_eq_pure_bind, bind_assoc]
      rfl
    | some e =>
      -- the var once for the root, and once as the value of the definition
      have hdup := htags.dup pos.span
      obtain ⟨k, hinit⟩ := ihinit e rfl .value pos.span _
      rw [hdup.within.source] at hinit
      have hbind := (hdup.append hinit).bindRoot pos.span
      refine ⟨_, Chunk.Adds.finish (hbind.map (fun _ => .var target) ?_ (fun _ => rfl) rfl) usage pos.span⟩
      simp only [Exec.locating_eq_adapt, Exec.adapt_bind, Exec.adapt_modify, Exec.adapt_pure, evalInit, pure_bind,
        map_eq_pure_bind, bind_assoc]
      rfl
  | empty kind =>
    intro usage span c
    simp only [emit, evalWith]
    exact ⟨_, (c.adds_nothing.pushPure (f := fun _ => kind.empty) (fun _ _ _ _ _ _ _ => rfl)
      fun _ _ _ => rfl).finish usage span⟩
  | enter target ih =>
    intro usage span c
    obtain ⟨k, htarget⟩ := ih .value span c
    have hnil := ((htarget.monitorEnter span).constNil span).finish usage span
    simp only [emit, evalWith, Exec.locating_eq_adapt, Exec.adapt_bind, Exec.adapt_pure, map_bind] at hnil ⊢
    simp only [map_eq_pure_bind] at hnil
    exact ⟨_, hnil⟩
  | const value =>
    intro usage span c
    simp only [emit, evalWith]
    exact ⟨_, ((c.adds_pushConst value span).map (fun _ => value) rfl (fun _ => rfl) rfl).finish usage span⟩
  | ref v =>
    intro usage span c
    simp only [emit, evalWith]
    exact ⟨_, (c.adds_derefVar v span).finish usage span⟩
  | vector items ih =>
    intro usage span c
    obtain ⟨kinds, hlength, hitems⟩ := adds_emitAll ih span c
    simp only [emit, evalWith, ← map_eq_pure_bind, Exec.locating_eq_adapt, Exec.adapt_map]
    exact ⟨_, (hitems.makeVector (fun h => length_evalAll (Exec.adapt_eq_ok h)) hlength span).finish usage span⟩
  | set items ih =>
    intro usage span c
    obtain ⟨kinds, hlength, hitems⟩ := adds_emitAll ih span c
    simp only [emit, evalWith, ← map_eq_pure_bind, Exec.locating_eq_adapt, Exec.adapt_map]
    exact ⟨_, (hitems.makeSet (fun h => length_evalAll (Exec.adapt_eq_ok h)) hlength span).finish usage span⟩
  | map entries ih =>
    intro usage span c
    obtain ⟨kinds, hlength, hentries⟩ := adds_emitEntries ih span c
    -- here nothing lies below the entries
    have hentries' : c.Adds (emitEntries span entries c)
        (Exec.locating { file := c.source, line := span.line } (evalEntries (blameIn c.source) .tagsFirst entries))
        (fun values => (flat values).reverse ++ []) (kinds ++ []) := by
      simpa only [List.append_nil] using hentries
    have hmap := hentries'.makeMap (fun h => length_evalEntries (Exec.adapt_eq_ok h)) hlength span
    refine ⟨_, Chunk.Adds.finish (hmap.map .map ?_ (fun _ => rfl) rfl) usage span⟩
    simp only [evalWith, Exec.locating_eq_adapt, Exec.adapt_bind, Exec.adapt_pure, map_bind]
    simp only [map_eq_pure_bind]
  | invoke callee args pos ihcallee ihargs =>
    intro usage span c
    obtain ⟨k, hcallee⟩ := ihcallee .value pos.span c
    obtain ⟨kinds, hlength, hargs⟩ := adds_emitAll ihargs pos.span (callee.emit .value pos.span c)
    rw [hcallee.within.source] at hargs
    have hcall := (hcallee.append hargs).call (fun h => ?_) hlength pos.span
    · refine ⟨_, Chunk.Adds.finish (hcall.map id ?_ (fun _ => rfl) rfl) usage pos.span⟩
      rw [id_map, evalWith, locating_adapt_blameIn]
      simp only [Exec.locating_eq_adapt, Exec.adapt_bind, bind_assoc, pure_bind]
    · obtain ⟨f, w₁, -, h⟩ := Exec.bind_eq_ok h
      obtain ⟨values, w₂, hvalues, h⟩ := Exec.bind_eq_ok h
      cases h
      exact length_evalAll (Exec.adapt_eq_ok hvalues)
  | body exprs ih =>
    intro usage span c
    simp only [emit, evalWith]
    exact adds_emitBody usage span ih c

/-! ### Main results -/

/-- Running the chunk of a form is running its node, definitions metadata first. -/
theorem run_toChunk (e : Expr) (source : String) (span : Span) :
    (e.toChunk source span).run = (do
      modify (·.note (.running source (e.toChunk source span).code.length))
      Exec.locating { file := source, line := span.line } (e.evalWith (blameIn source) .tagsFirst)) := by
  obtain ⟨k, within, fragment, hcode, hrun⟩ := e.emits .tailReturn span { source }
  obtain ⟨hexec, hkinds⟩ := hrun (e.toChunk source span) ⟨rfl, List.prefix_refl _, List.prefix_refl _⟩
  have hall : (e.toChunk source span).code = fragment ++ [⟨.ret, span⟩] := by
    rw [toChunk, Chunk.push, Expr.fragment, hcode, List.nil_append]
  have hsource : (e.toChunk source span).source = source := within.source
  rw [Chunk.run, hsource]
  congr 1
  funext _
  rw [hall, runCode_append (not_ret_of_retypeAll (hkinds [])), hexec, seq_bind_eq]
  exact bind_pure _

/-- The code of a node, in any chunk that has its tables and on any stack, does what the node does when its
definitions run metadata first: it ends with the value above the stack (or just the stack, if the value is not
used), or fails in the same world for the same cause. On the way every operation finds what it takes above the
stack. -/
theorem emitted_code_runs_node (e : Expr) (usage : Usage) (span : Span) (c : Chunk) :
    ∃ fragment, (e.emit usage span c).code = c.code ++ fragment ∧
      ∀ c', (e.emit usage span c).Within c' → ∀ stack w,
        (∀ rest, runCode c' (fragment ++ rest) stack = exec c' fragment stack >>= runCode c' rest) ∧
        (match e.evalIn .tagsFirst w with
          | .ok value w' => exec c' fragment stack w = .ok (usage.keep value ++ stack) w'
          | .error err w' => ∃ err', exec c' fragment stack w = .error err' w' ∧ err'.rootCause = err.rootCause) ∧
        ∀ before i after, fragment = before ++ i :: after → ∀ stack' w', exec c' before stack w = .ok stack' w' →
          ∃ top, stack' = top ++ stack ∧ Supplied c' i.op top := by
  obtain ⟨k, within, fragment, hcode, hrun⟩ := e.emits usage span c
  refine ⟨fragment, hcode, fun c' hc' stack w => ?_⟩
  obtain ⟨hexec, hkinds⟩ := hrun c' hc'
  refine ⟨fun rest => runCode_append (not_ret_of_retypeAll (hkinds [])) rest stack, ?_, ?_⟩
  · have hsame : Exec.Corresponds Eq SameCause (e.evalIn .tagsFirst w)
        (e.evalWith (blameIn c.source) .tagsFirst w) :=
      evalWith_sameCause Error.rootCause_locate (fun _ => Error.rootCause_locate _) .tagsFirst e w w rfl
    rw [hexec, map_eq_pure_bind]
    cases hR : e.evalIn .tagsFirst w with
    | ok value w' =>
      rw [hR] at hsame
      obtain ⟨_, hvalue, rfl⟩ := hsame.of_ok
      exact Exec.bind_of_ok (Exec.adapt_of_ok _ hvalue)
    | error err w' =>
      rw [hR] at hsame
      obtain ⟨err', _, herr, hcause, rfl⟩ := hsame.of_error
      refine ⟨_, Exec.bind_of_error (Exec.adapt_of_error _ herr), ?_⟩
      rw [Error.rootCause_locate, hcause]
  · intro before i after hsplit stack' w' hbefore
    have hchecked := hkinds []
    rw [hsplit] at hchecked
    rw [← List.nil_append stack] at hbefore
    exact supplied_of_retypeAll hchecked .nil hbefore

/-- A definition whose initial value calls the var that is being defined, which is unbound: the code fails with
the var twice on the stack, above what was there, and in a chunk with one more constant. -/
theorem emitted_code_runs_node_unbound :
    let v : Var := { id := 0, ns := "user", name := "x" }
    let pos : SourcePos := { file := "f", line := 3 }
    let e : Expr := .define v true [(.keyword "k", .vector [.const (.int 1)])] (some (.invoke (.ref v) [] pos)) pos
    let d := e.emit .discarded {} { source := "f" }
    d.Within (d.addConst .nil) ∧ ∃ err w', exec (d.addConst .nil) d.code [.nil] {} = .error err w' ∧
      err.rootCause = { fault := .runtime (.unbound v) } ∧ (w'.cell v).dynamic = true := by
  intro v pos e d
  have hwithin : d.Within (d.addConst .nil) := d.within_addConst .nil
  obtain ⟨fragment, hcode, hruns⟩ := emitted_code_runs_node e .discarded {} { source := "f" }
  obtain ⟨err, herr, hcause⟩ := (hruns (d.addConst .nil) hwithin [.nil] {}).2.1
  rw [← show d.code = fragment from hcode] at herr
  exact ⟨hwithin, err, _, herr, hcause, rfl⟩

end Expr

end LispCore
