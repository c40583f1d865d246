import LispCore.Proofs.Provenance
import Mathlib.Data.Fintype.EquivFin

/-! # Where compiled code reports errors

An error that an instruction raises is reported at the chunk's source and the instruction's line. The line is the one
that the innermost definition or call around the instruction has recorded, and direct evaluation gives an error the
position of that same node. To see that it is the same one, the code is compared with the code of the node for another
source and another span, which cannot be taken for the recorded position (`evalIn_of_step_error`). -/

namespace LispCore

open Machine

/-! ### Positions that cannot be taken for others -/

namespace Error

theorem locate_of_position? {err : Error} (h : err.position? ≠ none) (pos : SourcePos) : err.locate pos = err := by
  cases err with
  | plain failure => exact absurd rfl h
  | located p cause => rfl

theorem mem_position?_locate {err : Error} {p : SourcePos} (h : p ∈ err.position?) (pos : SourcePos) :
    p ∈ (err.locate pos).position? := by
  cases err with
  | plain failure => cases h
  | located q cause => exact h

/-- Located in a file that neither names, two errors are the same only if they were. -/
theorem locate_inj {err err' : Error} {file : String} {a b : Nat} (h : ∀ p ∈ err.position?, p.file ≠ file)
    (h' : ∀ p ∈ err'.position?, p.file ≠ file)
    (heq : err.locate { file, line := a } = err'.locate { file, line := b }) :
    err = err' ∧ (err.position? = none → a = b) := by
  cases err with
  | plain failure =>
    cases err' with
    | plain failure' =>
      cases heq
      exact ⟨rfl, fun _ => rfl⟩
    | located q cause =>
      cases heq
      exact absurd rfl (h' _ rfl)
  | located p cause =>
    cases err' with
    | plain failure' =>
      cases heq
      exact absurd rfl (h _ rfl)
    | located q cause' => exact ⟨heq, fun hnone => by cases hnone⟩

theorem exists_unnamed (err err' : Error) :
    ∃ file : String, (∀ p ∈ err.position?, p.file ≠ file) ∧ ∀ p ∈ err'.position?, p.file ≠ file := by
  let files := (err.position?.toList ++ err'.position?.toList).map (·.file)
  obtain ⟨file, hfile⟩ := Infinite.exists_notMem_finset files.toFinset
  rw [List.mem_toFinset, List.mem_map] at hfile
  refine ⟨file, fun p hp heq => hfile ⟨p, ?_, heq⟩, fun p hp heq => hfile ⟨p, ?_, heq⟩⟩
  · exact List.mem_append_left _ (Option.mem_toList.mpr hp)
  · exact List.mem_append_right _ (Option.mem_toList.mpr hp)

end Error

/-! ### Code with other spans -/

namespace Machine
variable {c c' : Chunk} {stack stack' : Stack} {w w' w₀ : World}

theorem step_of_sameOps (h : c.SameOps c') (op : Op) (stack : Stack) : step c op stack = step c' op stack := by
  cases op <;> simp only [step, constant, varAt, h.constants, h.vars]

/-- Code that succeeds does not depend on its spans. -/
theorem exec_of_sameOps (h : c.SameOps c') {code code' : List Instruction}
    (hcode : code.map (·.op) = code'.map (·.op)) (hexec : exec c code stack w = .ok stack' w') :
    exec c' code' stack w = .ok stack' w' := by
  induction code generalizing code' stack w with
  | nil =>
    rw [List.map_nil, List.nil_eq, List.map_eq_nil_iff] at hcode
    rw [hcode]
    exact hexec
  | cons i rest ih =>
    obtain ⟨i', rest', rfl, hop, hrest⟩ := List.map_eq_cons_iff.mp hcode.symm
    obtain ⟨stack₁, w₁, hstep, hexec⟩ := Exec.bind_eq_ok hexec
    have hstep' : step c' i'.op stack w = .ok stack₁ w₁ := by
      rw [← step_of_sameOps h, hop]
      exact Exec.adapt_eq_ok hstep
    rw [exec, Exec.locating_eq_adapt, Exec.bind_of_ok (Exec.adapt_of_ok _ hstep')]
    exact ih hrest.symm hexec

/-- Code fails as its first instruction that fails. -/
theorem exec_of_error {before : List Instruction} {i : Instruction} {err : Error}
    (hbefore : exec c before stack w = .ok stack' w') {w'' : World} (hstep : step c i.op stack' w' = .error err w'')
    (after : List Instruction) :
    exec c (before ++ i :: after) stack w = .error (err.locate { file := c.source, line := i.span.line }) w'' := by
  rw [exec_append, Exec.bind_of_ok hbefore, exec, Exec.locating_eq_adapt,
    Exec.bind_of_error (Exec.adapt_of_error _ hstep)]

theorem Reaches.exec_eq {n : Nat} (h : Reaches c w₀ n stack w) :
    exec c (c.code.take n) [] (w₀.note (.running c.source c.code.length)) = .ok stack w := by
  induction h with
  | start => rfl
  | next _ hi _ hstep ih =>
    rw [List.take_add_one, hi, exec_append, Exec.bind_of_ok ih]
    simp only [Option.toList_some, exec, Exec.locating_eq_adapt, bind_pure]
    exact Exec.adapt_of_ok _ hstep

theorem Reaches.ne_ret {n k : Nat} {i : Instruction} (h : Reaches c w₀ n stack w) (hk : k < n)
    (hi : c.code[k]? = some i) : i.op ≠ .ret := by
  induction h with
  | start => cases hk
  | next _ hn hret _ ih =>
    rcases Nat.lt_succ_iff_lt_or_eq.mp hk with hk | rfl
    · exact ih hk
    · rw [hn] at hi
      cases hi
      exact hret

end Machine

namespace Expr

/-- The emission of a whole form. -/
def whole (e : Expr) (source : String) (span : Span) : Emission :=
  { usage := .tailReturn, span, node := e, before := { source } }

theorem alike_whole (e : Expr) (source source' : String) (span span' : Span) :
    (e.whole source span).Alike (e.whole source' span') :=
  ⟨rfl, rfl, rfl, rfl, rfl⟩

theorem sameOps_toChunk (e : Expr) (source source' : String) (span span' : Span) :
    (e.toChunk source span).SameOps (e.toChunk source' span') :=
  (e.alike_whole source source' span span').after.push .ret span span'

theorem code_toChunk (e : Expr) (source : String) (span : Span) :
    (e.toChunk source span).code = (e.whole source span).after.code ++ [⟨.ret, span⟩] := rfl

theorem source_toChunk (e : Expr) (source : String) (span : Span) : (e.toChunk source span).source = source := by
  obtain ⟨k, hadds⟩ := e.emits .tailReturn span { source }
  exact hadds.within.source

/-- The code of a form up to its return, run on an empty stack. -/
theorem exec_whole (e : Expr) (source : String) (span : Span) :
    exec (e.toChunk source span) (e.whole source span).after.code [] = (fun value => [value]) <$>
      Exec.locating { file := source, line := span.line } (e.evalWith (blameIn source) .tagsFirst) := by
  obtain ⟨k, -, fragment, hcode, hrun⟩ := e.emits .tailReturn span { source }
  have hfragment : (e.whole source span).after.code = fragment := hcode
  rw [hfragment]
  exact (hrun (e.toChunk source span) ⟨rfl, List.prefix_refl _, List.prefix_refl _⟩).1 []

/-! ### Positions of errors -/

/-- The same error, or one that was located at `pos` on the one side and `here` on the other. -/
def Placed (pos here : SourcePos) (err err' : Error) (w w' : World) : Prop :=
  w = w' ∧ (err = err' ∨ ∃ raised : Error, err = raised.locate pos ∧ err' = raised.locate here)

/-- Where all positions are one, evaluations that locate errors in two ways differ in that position only. -/
theorem At.couples_evalWith {pos here : SourcePos} {e : Expr} (h : e.At pos) (blame : SourcePos → Error → Error)
    (hblame : blame pos = Error.locate here) (order : DefOrder) :
    Exec.Couples Eq Eq (Placed pos here) (e.evalIn order) (e.evalWith blame order) := by
  have hrefl : ∀ {α : Type} (x : Exec α), Exec.Couples Eq Eq (Placed pos here) x x :=
    fun x => .refl x fun _ _ => ⟨rfl, .inl rfl⟩
  have hC : Respects fun _ x y => Exec.Couples Eq Eq (Placed pos here) x y := {
    Exec.Couples.congruence Eq (Placed pos here) with
    deref := fun v => hrefl _
    apply := fun callee args => hrefl _
    enter := fun target => hrefl _
    mapOf := fun entries => hrefl _ }
  refine h.evalWith_congr hC ?_ ?_
  · intro d hd p hp x y hxy
    rw [hd p hp, hblame]
    refine hxy.adapt fun err err' w w' hplaced => ⟨hplaced.1, .inr ?_⟩
    rcases hplaced.2 with rfl | ⟨raised, rfl, rfl⟩
    · exact ⟨err, rfl, rfl⟩
    · exact ⟨raised, Error.locate_locate pos pos raised, Error.locate_locate here here raised⟩
  · intro target dynamic tags init p _ htags hinit
    exact runDefinition_congr hC.toCongruence (fun _ => hrefl _) (fun _ => hrefl _) (hrefl _)
      (hC.toCongruence.map _ htags) hinit

theorem Every.of_within {P : Expr → Prop} {m d : Emission} (h : Every P m.node)
    (hd : Relation.ReflTransGen Emission.Part m d) : Every P d.node := by
  induction hd with
  | refl => exact h
  | tail _ hpart ih => exact ih.of_mem_children (Emission.node_mem_children hpart)

theorem At.pos?_of_innermost {pos : SourcePos} {m d : Emission} {n : Nat} (h : m.node.At pos)
    (hd : m.Innermost n d) : d.node.pos? = some pos := by
  obtain ⟨p, hp⟩ := Option.isSome_iff_exists.mp hd.positioned
  rw [hp, (Every.of_within h hd.within).self p hp]

section Failing
variable {e : Expr} {pos : SourcePos} {source : String} {span : Span} {w₀ w w' : World} {n : Nat} {i : Instruction}
  {stack : Stack} {raised : Error}

/-- The only instruction that is in no node's code is the return at the end. -/
theorem getElem?_whole (hi : (e.toChunk source span).code[n]? = some i) (hret : i.op ≠ .ret) :
    (e.whole source span).Holds n ∧ (e.whole source span).after.code[n]? = some i := by
  rw [code_toChunk] at hi
  by_cases hlt : n < (e.whole source span).after.code.length
  · rw [List.getElem?_append_left hlt] at hi
    exact ⟨⟨Nat.zero_le n, hlt⟩, hi⟩
  · rw [List.getElem?_append_right (Nat.not_lt.mp hlt)] at hi
    exact absurd (by rw [List.mem_singleton.mp (List.mem_of_getElem? hi)]) hret

/-- The same instruction fails in the code for any other source and span. So evaluation fails, and where this code
reports its error tells whether the instruction is in the code of a definition or call. -/
theorem exists_error_of_step_error (hat : e.At pos) (hreach : Reaches (e.toChunk source span) w₀ n stack w)
    (hi : (e.toChunk source span).code[n]? = some i)
    (hstep : step (e.toChunk source span) i.op stack w = .error raised w') (source' : String) (span' : Span) :
    ∃ err line, e.evalWith (blameIn source') .tagsFirst
        (w₀.note (.running source (e.toChunk source span).code.length)) = .error err w' ∧
      err.locate { file := source', line := span'.line } = raised.locate { file := source', line } ∧
      ((e.whole source span).Outside n ∧ line = span'.line ∨ ¬(e.whole source span).Outside n ∧ line = pos.line) := by
  have hsame := e.sameOps_toChunk source source' span span'
  have halike := e.alike_whole source source' span span'
  -- the instruction that stands at this place in the other code
  obtain ⟨i', hi', hop⟩ : ∃ i', (e.toChunk source' span').code[n]? = some i' ∧ i'.op = i.op := by
    have hops := congrArg (·[n]?) hsame.code
    simp only [List.getElem?_map, hi, Option.map_some] at hops
    exact Option.map_eq_some_iff.mp hops.symm
  obtain ⟨hholds, hcode⟩ := getElem?_whole hi' (hop ▸ ne_ret_of_error hstep)
  have hops : ((e.toChunk source span).code.take n).map (·.op) =
      ((e.whole source' span').after.code.take n).map (·.op) := by
    rw [List.map_take, hsame.code, ← List.map_take, code_toChunk, List.take_append_of_le_length (Nat.le_of_lt hholds.2)]
  have hbefore := exec_of_sameOps hsame hops hreach.exec_eq
  rw [source_toChunk] at hbefore
  rw [step_of_sameOps hsame, ← hop] at hstep
  have hfails := exec_of_error hbefore hstep ((e.whole source' span').after.code.drop (n + 1))
  rw [← drop_of_getElem? hcode, List.take_append_drop, exec_whole, source_toChunk] at hfails
  obtain ⟨err, herr, hlocated⟩ := Exec.adapt_eq_error (Exec.map_eq_error hfails)
  refine ⟨err, i'.span.line, herr, hlocated.symm, ?_⟩
  rcases (e.whole source' span').innermost_or_outside n with ⟨d, hd⟩ | hout
  · have hpos := At.pos?_of_innermost (m := e.whole source' span') hat hd
    refine .inr ⟨fun hout => hd.not_outside (halike.outside hout), ?_⟩
    rw [Emission.span_of_innermost hd hcode hpos]
    rfl
  · exact .inl ⟨halike.symm.outside hout, by rw [Emission.span_of_outside hout hholds hcode]; rfl⟩

/-- Direct evaluation in the order of the code fails where the instruction does, with the same error. It gives the
error the recorded position just when the instruction is in the code of a definition or call. -/
theorem evalIn_of_step_error (hat : e.At pos) (hreach : Reaches (e.toChunk source span) w₀ n stack w)
    (hi : (e.toChunk source span).code[n]? = some i)
    (hstep : step (e.toChunk source span) i.op stack w = .error raised w') :
    let start := w₀.note (.running source (e.toChunk source span).code.length)
    ((e.whole source span).Outside n → e.evalIn .tagsFirst start = .error raised w') ∧
    (¬(e.whole source span).Outside n → e.evalIn .tagsFirst start = .error (raised.locate pos) w') := by
  intro start
  have hfails := exists_error_of_step_error hat hreach hi hstep
  have hcouples := fun file => hat.couples_evalWith (blameIn file) rfl .tagsFirst start start rfl
  cases heval : e.evalIn .tagsFirst start with
  | ok value w₁ =>
    obtain ⟨err, line, herr, -⟩ := hfails source span
    have hcouple := hcouples source
    rw [heval, herr] at hcouple
    exact hcouple.elim
  | error err w₁ =>
    obtain ⟨file, hfresh, hfresh'⟩ := Error.exists_unnamed err raised
    obtain ⟨err', line, herr', hlocated, hline⟩ := hfails file { line := pos.line + 1 }
    have hcouple := hcouples file
    rw [heval, herr'] at hcouple
    obtain ⟨rfl, hplaced⟩ := hcouple
    rcases hplaced with rfl | ⟨first, rfl, rfl⟩
    · -- evaluation left the error as it was raised
      obtain ⟨rfl, hplain⟩ := Error.locate_inj hfresh hfresh' hlocated
      rcases hline with ⟨hout, -⟩ | ⟨hin, hline⟩
      · exact ⟨fun _ => rfl, fun hin => absurd hout hin⟩
      · refine ⟨fun hout => absurd hout hin, fun _ => ?_⟩
        rw [Error.locate_of_position? fun hnone => Nat.succ_ne_self pos.line ((hplain hnone).trans hline)]
    · -- evaluation gave it the position, if it had none
      rw [Error.locate_locate] at hlocated
      obtain ⟨rfl, hplain⟩ :=
        Error.locate_inj (fun p hp => hfresh p (Error.mem_position?_locate hp pos)) hfresh' hlocated
      rcases hline with ⟨hout, hline⟩ | ⟨hin, -⟩
      · refine ⟨fun _ => ?_, fun hin => absurd hout hin⟩
        rw [Error.locate_of_position? fun hnone => Nat.succ_ne_self pos.line ((hplain hnone).trans hline).symm]
      · exact ⟨fun hout => absurd hout hin, fun _ => rfl⟩

end Failing

/-- Code that a node was compiled to fails by an instruction that fails. -/
theorem exists_step_error_of_run {e : Expr} {source : String} {span : Span} {w₀ w' : World} {err : Error}
    (h : (e.toChunk source span).run w₀ = .error err w') : ∃ n i stack w raised,
      Reaches (e.toChunk source span) w₀ n stack w ∧ (e.toChunk source span).code[n]? = some i ∧
        step (e.toChunk source span) i.op stack w = .error raised w' := by
  have hstart : Reaches (e.toChunk source span) w₀ 0 [] _ := .start
  obtain ⟨n, stack, w, hreach, hstop⟩ := hstart.exists_stop
  cases hi : (e.toChunk source span).code[n]? with
  | none =>
    -- it would have gone past the return at the end
    have hlt : (e.whole source span).after.code.length < n := by
      have hle := List.getElem?_eq_none_iff.mp hi
      rw [code_toChunk, List.length_append, List.length_singleton] at hle
      exact hle
    have hlast : (e.toChunk source span).code[(e.whole source span).after.code.length]? = some ⟨.ret, span⟩ := by
      rw [code_toChunk, List.getElem?_concat_length]
    exact absurd rfl (hreach.ne_ret hlt hlast)
  | some i =>
    rcases hstop i hi with hret | ⟨raised, w₁, hstep⟩
    · rw [hreach.run_of_ret hi hret] at h
      cases h
    · rw [hreach.run_of_error hi hstep] at h
      cases h
      exact ⟨n, i, stack, w, raised, hreach, hi, hstep⟩

/-! ### The other order -/

/-- Whatever the order of its parts, the definition fails alike: its metadata is constant, and its var has the flag
already if the definition sets it. -/
def Steady (w : World) : Expr → Prop
  | .define target dynamic tags _ _ => (dynamic = true → (w.cell target).dynamic = true) ∧ ∀ t ∈ tags, t.2.Constant
  | _ => True

theorem Every.couples_evalIn {e : Expr} {w : World} (h : e.Every (Steady w)) :
    Exec.Couples (World.AlikeBut (fun _ => True) fun v => (w.cell v).dynamic = true)
      (World.AlikeBut (fun _ => True) fun v => (w.cell v).dynamic = true) FailAlike
      (e.evalIn .initFirst) (e.evalIn .tagsFirst) := by
  let D : Var → Prop := fun v => (w.cell v).dynamic = true
  -- metadata plays no part, but how this is said changes inside definitions
  let C : (α : Type) → Exec α → Exec α → Prop := fun α x y => ∀ Y : Var → Prop, (∀ v, Y v) →
    Exec.Couples (World.AlikeBut Y D) (World.AlikeBut Y D) FailAlike x y
  have hC : Respects C := {
    pure := fun a Y _ => .pure a fun _ _ h => h
    bind := fun hx hf Y hY => (hx Y hY).bind fun a => hf a Y hY
    deref := fun v Y _ => couples_deref Y D v
    apply := fun callee args Y _ => couples_apply Y D callee args
    enter := fun target Y _ => couples_enterMonitor Y D target
    mapOf := fun entries Y _ => couples_ofExcept Y D _ }
  suffices hall : C Value (e.evalIn .initFirst) (e.evalIn .tagsFirst) from hall _ fun _ => trivial
  refine h.evalWith_congr hC ?_ ?_
  · intro d _ pos _ x y hxy Y hY
    exact (hxy Y hY).adapt fun err err' w w' hfail => ⟨congrArg _ hfail.1, hfail.2⟩
  · rintro target dynamic tags init pos ⟨hdynamic, htags⟩ - hinit Y hY
    obtain ⟨values, hvalues⟩ := evalTags_constant htags
    rw [hvalues, hvalues, map_pure]
    exact couples_runDefinition hdynamic (hinit _ fun v => .inl (hY v)) (.inl (hY target))

theorem Every.eval_eq_error {e : Expr} {w w' : World} {record : LogRecord} {err : Error} (h : e.Every (Steady w))
    (herr : e.evalIn .tagsFirst (w.note record) = .error err w') : ∃ w'', e.eval w = .error err w'' := by
  have halike : World.AlikeBut (fun _ => True) (fun v => (w.cell v).dynamic = true) w (w.note record) :=
    ⟨rfl, fun _ => rfl, fun _ => rfl, fun _ h => (h trivial).elim, fun _ h => h⟩
  have hcouple := h.couples_evalIn w _ halike
  rw [herr] at hcouple
  cases heval : e.evalIn .initFirst w with
  | ok value w₁ =>
    rw [heval] at hcouple
    exact hcouple.elim
  | error err₁ w₁ =>
    rw [heval] at hcouple
    exact ⟨w₁, by rw [eval, heval, hcouple.1]⟩

end Expr

/-! ### Main result -/

/-- Compiled code fails by an instruction that fails. Inside the code of a definition or call the error is reported at
the line that the innermost one has recorded, but in the file that was given for the code; direct evaluation reports
the same error in the recorded file, so the two agree just when that file was given. Outside, the error is reported at
the given source and line, and direct evaluation leaves it without a position. -/
theorem errors_report_recorded_line {ctx : Context} {form : Form} {e : Expr} {u u' : World}
    (h : analyze ctx form u = .ok e u') (source : String) (span : Span) (w₀ : World) :
    let c := e.toChunk source span
    let start := w₀.note (.running source c.code.length)
    (∀ err w', c.run w₀ = .error err w' → ∃ n i stack w raised, Reaches c w₀ n stack w ∧ c.code[n]? = some i ∧
      step c i.op stack w = .error raised w') ∧
    ∀ n i stack w raised w', Reaches c w₀ n stack w → c.code[n]? = some i → step c i.op stack w = .error raised w' →
      ((∃ d, (e.whole source span).Innermost n d) ∨ (e.whole source span).Outside n) ∧
      (∀ d, (e.whole source span).Innermost n d → d.node.pos? = some ctx.pos ∧
        c.run w₀ = .error (raised.locate { file := source, line := ctx.pos.line }) w' ∧
        e.evalIn .tagsFirst start = .error (raised.locate ctx.pos) w' ∧
        (∀ failure, raised = .plain failure → (c.run w₀ = e.evalIn .tagsFirst start ↔ source = ctx.pos.file)) ∧
        (e.Every (Expr.Steady w₀) → ∃ w'', e.eval w₀ = .error (raised.locate ctx.pos) w'')) ∧
      ((e.whole source span).Outside n →
        c.run w₀ = .error (raised.locate { file := source, line := span.line }) w' ∧
        e.evalIn .tagsFirst start = .error raised w' ∧
        (e.Every (Expr.Steady w₀) → ∃ w'', e.eval w₀ = .error raised w'')) := by
  intro c start
  have hat := at_of_analyze h
  refine ⟨fun err w' hrun => Expr.exists_step_error_of_run hrun, ?_⟩
  intro n i stack w raised w' hreach hi hstep
  have hrun := hreach.run_of_error hi hstep
  rw [e.source_toChunk source span] at hrun
  obtain ⟨hholds, hcode⟩ := Expr.getElem?_whole hi (ne_ret_of_error hstep)
  obtain ⟨houtside, hinside⟩ := Expr.evalIn_of_step_error hat hreach hi hstep
  refine ⟨(e.whole source span).innermost_or_outside n, fun d hd => ?_, fun hout => ?_⟩
  · have hpos := Expr.At.pos?_of_innermost (m := e.whole source span) hat hd
    have heval := hinside hd.not_outside
    rw [Emission.span_of_innermost hd hcode hpos] at hrun
    refine ⟨hpos, hrun, heval, fun failure hfailure => ?_, fun hsteady => hsteady.eval_eq_error heval⟩
    subst hfailure
    rw [heval, hrun]
    constructor
    · intro hsame
      cases hsame
      rfl
    · rintro rfl
      rfl
  · rw [Emission.span_of_outside hout hholds hcode] at hrun
    exact ⟨hrun, houtside hout, fun hsteady => hsteady.eval_eq_error (houtside hout)⟩

/-- A call inside a vector, analysed at one place and compiled for another: both of its reports. -/
theorem errors_report_recorded_line_in_vector :
    let w := World.start {} .watching
    let pos : SourcePos := { file := "a.clv", line := 3 }
    let e : Expr := .vector [.invoke (.const (.int 1)) [] pos]
    let failure : Failure := { fault := .typeMismatch "function" "number" }
    analyze { ns := "user", source := some "a.clv", line := 3 } (.vector [.list [.int 1]]) w = .ok e w ∧
    (∃ d, (e.whole "b.clv" { line := 7 }).Innermost 1 d ∧ d.node.pos? = some pos) ∧
    (∃ w', (e.toChunk "b.clv" { line := 7 }).run w = .error (.located { file := "b.clv", line := 3 } failure) w') ∧
    ∃ w', e.eval w = .error (.located pos failure) w' := by
  intro w pos e failure
  have h : analyze { ns := "user", source := some "a.clv", line := 3 } (.vector [.list [.int 1]]) w = .ok e w := rfl
  have hreach : Reaches (e.toChunk "b.clv" { line := 7 }) w 1 [.int 1] _ := .next .start rfl (by decide) rfl
  obtain ⟨hwhere, hinside, houtside⟩ :=
    (errors_report_recorded_line h "b.clv" { line := 7 } w).2 1 _ _ _ (.of failure.fault) _ hreach rfl rfl
  have hcall : (Expr.invoke (.const (.int 1)) [] pos).Every (Expr.Steady w) :=
    .invoke trivial (.const trivial) fun _ harg => (List.not_mem_nil harg).elim
  have hsteady : e.Every (Expr.Steady w) := .vector trivial (List.forall_mem_singleton.mpr hcall)
  rcases hwhere with ⟨d, hd⟩ | hout
  · obtain ⟨hpos, hrun, -, -, heval⟩ := hinside d hd
    exact ⟨h, ⟨d, hd, hpos⟩, ⟨_, hrun⟩, heval hsteady⟩
  · -- the run itself reports line 3, not 7
    have hline : Exec.errorWith (fun err _ => err.position? = some { file := "b.clv", line := 3 })
        ((e.toChunk "b.clv" { line := 7 }).run w) = true := by
      decide +kernel
    obtain ⟨err, w', hrun, herr⟩ := Exec.exists_of_errorWith hline
    rw [(houtside hout).1] at hrun
    cases hrun
    exact absurd herr (by decide)

/-- The file that is reported need not be the recorded one: code for another file reports that file. -/
theorem report_names_given_file :
    let w := World.start {} .watching
    let e : Expr := .invoke (.const (.int 1)) [] { file := "a.clv", line := 3 }
    let failure : Failure := { fault := .typeMismatch "function" "number" }
    analyze { ns := "user", source := some "a.clv", line := 3 } (.list [.int 1]) w = .ok e w ∧
    (∃ w', e.eval w = .error (.located { file := "a.clv", line := 3 } failure) w') ∧
    ∃ w', (e.toChunk "b.clv" { line := 7 }).run w = .error (.located { file := "b.clv", line := 3 } failure) w' :=
  ⟨rfl, ⟨_, rfl⟩, ⟨_, rfl⟩⟩

end LispCore
