import LispCore.Code.Machine
import LispCore.Proofs.Exec
import Mathlib.Data.List.Forall2

/-! # Pieces of code and what they need on the stack

`Machine.exec` runs a piece of code that has no return in it. Its static side is `Machine.retype`: from the
kinds of the topmost values, as far as they are known, it finds the kinds that the code leaves, or that an
operation would not find what it takes. Code that passes this check never reaches below the values it was
checked with (`supplied_of_retypeAll`). -/

namespace LispCore.Machine

/-! ### Running a piece of code -/

/-- Runs instructions in turn, none of them a return; the outcome is the stack. -/
def exec (c : Chunk) : List Instruction → Stack → Exec Stack
  | [], stack => pure stack
  | i :: rest, stack => do
    let stack ← Exec.locating { file := c.source, line := i.span.line } (step c i.op stack)
    exec c rest stack

theorem exec_append (c : Chunk) (code code' : List Instruction) (stack : Stack) :
    exec c (code ++ code') stack = exec c code stack >>= exec c code' := by
  induction code generalizing stack with
  | nil => simp only [List.nil_append, exec, pure_bind]
  | cons i rest ih => simp only [List.cons_append, exec, bind_assoc, ih]

/-- The machine runs code up to its end and goes on with the rest. -/
theorem runCode_append {c : Chunk} {code : List Instruction} (h : ∀ i ∈ code, i.op ≠ .ret)
    (rest : List Instruction) (stack : Stack) :
    runCode c (code ++ rest) stack = exec c code stack >>= runCode c rest := by
  induction code generalizing stack with
  | nil => simp only [List.nil_append, exec, pure_bind]
  | cons i code ih =>
    obtain ⟨hi, hcode⟩ := List.forall_mem_cons.mp h
    simp only [List.cons_append, runCode, exec, bind_assoc, ih hcode]

/-! ### Kinds on the stack -/

/-- The kinds of the topmost values, where they are known. -/
abbrev Kinds := List (Option ValueKind)

/-- The kinds that an operation leaves, if it finds what it takes. -/
def retype (c : Chunk) : Op → Kinds → Option Kinds
  | .const index, ks => c.constants[index]?.map fun value => some value.kind :: ks
  | .constNil, ks => some (some .nil :: ks)
  | .emptyCollection kind, ks => some (some kind.valueKind :: ks)
  | .pushVar index, ks => c.vars[index]?.map fun _ => some .var :: ks
  | .derefVar index, ks => c.vars[index]?.map fun _ => none :: ks
  | .setDynamic, some .var :: ks => some (some .var :: ks)
  | .setMetadata, some .map :: some .var :: ks => some ks
  | .bindRoot, _ :: some .var :: ks => some ks
  | .makeVector count, ks => if count ≤ ks.length then some (some .vector :: ks.drop count) else none
  | .makeSet count, ks => if count ≤ ks.length then some (some .set :: ks.drop count) else none
  | .makeMap pairs, ks => if pairs * 2 ≤ ks.length then some (some .map :: ks.drop (pairs * 2)) else none
  | .call argCount, ks => if argCount + 1 ≤ ks.length then some (none :: ks.drop (argCount + 1)) else none
  | .monitorEnter, _ :: ks => some ks
  | .dup, k :: ks => some (k :: k :: ks)
  | .pop, _ :: ks => some ks
  | _, _ => none

/-- The kinds that a piece of code leaves. -/
def retypeAll (c : Chunk) : List Instruction → Kinds → Option Kinds
  | [], ks => some ks
  | i :: rest, ks => (retype c i.op ks).bind (retypeAll c rest)

theorem retypeAll_append (c : Chunk) (code code' : List Instruction) (ks : Kinds) :
    retypeAll c (code ++ code') ks = (retypeAll c code ks).bind (retypeAll c code') := by
  induction code generalizing ks with
  | nil => rfl
  | cons i rest ih =>
    simp only [List.cons_append, retypeAll]
    cases retype c i.op ks with
    | none => rfl
    | some ks' => exact ih ks'

theorem not_ret_of_retypeAll {c : Chunk} {code : List Instruction} {ks ks' : Kinds}
    (h : retypeAll c code ks = some ks') : ∀ i ∈ code, i.op ≠ .ret := by
  induction code generalizing ks with
  | nil => simp
  | cons i rest ih =>
    obtain ⟨ks₁, hi, hrest⟩ := Option.bind_eq_some_iff.mp h
    refine List.forall_mem_cons.mpr ⟨?_, ih hrest⟩
    intro hret
    simp [hret, retype] at hi

/-- A value is of a kind, if the kind is known. -/
def Fits (k : Option ValueKind) (value : Value) : Prop :=
  ∀ kind ∈ k, value.kind = kind

/-- Among the values `top` an operation finds all it takes: indices in range, as many values as it pops, and a
var (and a map) where it needs one. -/
def Supplied (c : Chunk) : Op → Stack → Prop
  | .const index, _ => index < c.constants.length
  | .constNil, _ | .emptyCollection _, _ => True
  | .pushVar index, _ | .derefVar index, _ => index < c.vars.length
  | .setDynamic, top => ∃ v rest, top = .var v :: rest
  | .setMetadata, top => ∃ entries v rest, top = .map entries :: .var v :: rest
  | .bindRoot, top => ∃ value v rest, top = value :: .var v :: rest
  | .makeVector count, top | .makeSet count, top => count ≤ top.length
  | .makeMap pairs, top => pairs * 2 ≤ top.length
  | .call argCount, top => argCount + 1 ≤ top.length
  | .monitorEnter, top | .dup, top | .pop, top => ∃ value rest, top = value :: rest
  | .ret, _ => False

theorem fits_var {value : Value} (h : Fits (some .var) value) : ∃ v, value = .var v := by
  have := h .var rfl
  cases value <;> simp [Value.kind] at this
  exact ⟨_, rfl⟩

theorem fits_map {value : Value} (h : Fits (some .map) value) : ∃ entries, value = .map entries := by
  have := h .map rfl
  cases value <;> simp [Value.kind] at this
  exact ⟨_, rfl⟩

theorem fits_none (value : Value) : Fits none value := fun _ h => by cases h

theorem fits_of_kind {kind : ValueKind} {value : Value} (h : value.kind = kind) : Fits (some kind) value :=
  fun _ hk => h.trans (Option.some.inj hk)

theorem popMany_of_le {n : Nat} {stack : Stack} (h : n ≤ stack.length) :
    popMany n stack = .ok ((stack.take n).reverse, stack.drop n) := by
  rw [popMany, if_neg (Nat.not_lt.mpr h)]

theorem drop_eq_cons {n : Nat} {stack : Stack} (h : n < stack.length) :
    ∃ value rest, stack.drop n = value :: rest :=
  List.exists_cons_of_ne_nil (by rw [ne_eq, List.drop_eq_nil_iff]; exact Nat.not_le.mpr h)

/-- An operation that passes the check finds what it takes, and leaves values of the kinds that the check
finds. -/
theorem retype_sound {c : Chunk} {op : Op} {ks ks' : Kinds} {top : Stack} (h : retype c op ks = some ks')
    (hfit : List.Forall₂ Fits ks top) :
    Supplied c op top ∧ ∀ {w stack w'}, step c op top w = .ok stack w' → List.Forall₂ Fits ks' stack := by
  have htake : ∀ {n : Nat} {ks₁ : Kinds}, (if n ≤ ks.length then some ks₁ else none) = some ks' →
      n ≤ top.length ∧ ks' = ks₁ := by
    intro n ks₁ hn
    obtain ⟨hle, hks⟩ := Option.ite_none_right_eq_some.mp hn
    exact ⟨Nat.le_trans hle (Nat.le_of_eq hfit.length_eq), (Option.some.inj hks).symm⟩
  -- a case for each line of the check, in its order
  unfold retype at h
  split at h
  -- one value more: a constant, nil, an empty collection, a var, the value of a var
  · obtain ⟨value, hvalue, rfl⟩ := Option.map_eq_some_iff.mp h
    refine ⟨(List.getElem?_eq_some_iff.mp hvalue).1, fun hs => ?_⟩
    simp only [step, constant, hvalue] at hs
    cases hs
    exact .cons (fits_of_kind rfl) hfit
  · cases h
    exact ⟨trivial, fun hs => by cases hs; exact .cons (fits_of_kind rfl) hfit⟩
  · next kind =>
    cases h
    exact ⟨trivial, fun hs => by cases hs; exact .cons (fits_of_kind (by cases kind <;> rfl)) hfit⟩
  · obtain ⟨v, hv, rfl⟩ := Option.map_eq_some_iff.mp h
    refine ⟨(List.getElem?_eq_some_iff.mp hv).1, fun hs => ?_⟩
    simp only [step, varAt, hv] at hs
    cases hs
    exact .cons (fits_of_kind rfl) hfit
  · obtain ⟨v, hv, rfl⟩ := Option.map_eq_some_iff.mp h
    refine ⟨(List.getElem?_eq_some_iff.mp hv).1, fun hs => ?_⟩
    simp only [step, varAt, hv, Exec.ofExcept_bind_apply_ok rfl] at hs
    obtain ⟨value, w₁, -, hvalue⟩ := Exec.bind_eq_ok hs
    cases hvalue
    exact .cons (fits_none value) hfit
  -- a var is needed: under nothing, under a map, under any value
  · cases h
    have hall := hfit
    obtain _ | ⟨hvar, -⟩ := hfit
    obtain ⟨v, rfl⟩ := fits_var hvar
    exact ⟨⟨v, _, rfl⟩, fun hs => by cases hs; exact hall⟩
  · cases h
    obtain _ | ⟨hmap, _ | ⟨hvar, hrest⟩⟩ := hfit
    obtain ⟨entries, rfl⟩ := fits_map hmap
    obtain ⟨v, rfl⟩ := fits_var hvar
    exact ⟨⟨entries, v, _, rfl⟩, fun hs => by cases hs; exact hrest⟩
  · cases h
    obtain _ | ⟨-, _ | ⟨hvar, hrest⟩⟩ := hfit
    obtain ⟨v, rfl⟩ := fits_var hvar
    exact ⟨⟨_, v, _, rfl⟩, fun hs => by cases hs; exact hrest⟩
  -- as many values as the operation says: a vector, a set, a map, a call
  · next count =>
    obtain ⟨hle, rfl⟩ := htake h
    refine ⟨hle, fun hs => ?_⟩
    simp only [step, popMany_of_le hle] at hs
    cases hs
    exact .cons (fits_of_kind rfl) (List.forall₂_drop count hfit)
  · next count =>
    obtain ⟨hle, rfl⟩ := htake h
    refine ⟨hle, fun hs => ?_⟩
    simp only [step, popMany_of_le hle] at hs
    cases hs
    exact .cons (fits_of_kind rfl) (List.forall₂_drop count hfit)
  · next pairs =>
    obtain ⟨hle, rfl⟩ := htake h
    refine ⟨hle, fun hs => ?_⟩
    simp only [step, popMany_of_le hle, Exec.ofExcept_bind_apply_ok rfl] at hs
    obtain ⟨entries, w₁, -, hvalue⟩ := Exec.bind_eq_ok hs
    cases hvalue
    exact .cons (fits_of_kind rfl) (List.forall₂_drop (pairs * 2) hfit)
  · next argCount =>
    obtain ⟨hle, rfl⟩ := htake h
    refine ⟨hle, fun hs => ?_⟩
    obtain ⟨callee, rest, hrest⟩ := drop_eq_cons hle
    simp only [step, popMany_of_le (Nat.le_of_succ_le hle), hrest, Exec.ofExcept_bind_apply_ok rfl, pop] at hs
    obtain ⟨value, w₁, -, hvalue⟩ := Exec.bind_eq_ok hs
    cases hvalue
    have hdrop := List.forall₂_drop (argCount + 1) hfit
    rw [← List.tail_drop (l := top), hrest] at hdrop
    exact .cons (fits_none value) hdrop
  -- one value of any kind: entered, doubled, dropped
  · cases h
    obtain _ | ⟨-, hrest⟩ := hfit
    refine ⟨⟨_, _, rfl⟩, fun hs => ?_⟩
    simp only [step, pop, Exec.ofExcept_bind_apply_ok rfl] at hs
    obtain ⟨_, w₁, -, hrest'⟩ := Exec.bind_eq_ok hs
    cases hrest'
    exact hrest
  · cases h
    have hall := hfit
    obtain _ | ⟨htop, hrest⟩ := hfit
    exact ⟨⟨_, _, rfl⟩, fun hs => by cases hs; exact .cons htop hall⟩
  · cases h
    obtain _ | ⟨-, hrest⟩ := hfit
    exact ⟨⟨_, _, rfl⟩, fun hs => by cases hs; exact hrest⟩
  · cases h

/-! ### What lies below -/

theorem popMany_append {n : Nat} {top : Stack} (h : n ≤ top.length) (floor : Stack) :
    popMany n (top ++ floor) = .ok ((top.take n).reverse, top.drop n ++ floor) := by
  rw [popMany_of_le (by rw [List.length_append]; omega), List.take_append_of_le_length h,
    List.drop_append_of_le_length h]

/-- An operation that finds what it takes leaves alone what lies below. -/
theorem step_append {c : Chunk} {op : Op} {top : Stack} (h : Supplied c op top) (floor : Stack) :
    step c op (top ++ floor) = (· ++ floor) <$> step c op top := by
  cases op with
  | const | constNil | emptyCollection | pushVar | derefVar =>
    simp only [step, map_bind, map_pure, List.cons_append]
  | setDynamic =>
    obtain ⟨v, rest, rfl⟩ := h
    rfl
  | setMetadata =>
    obtain ⟨entries, v, rest, rfl⟩ := h
    rfl
  | bindRoot =>
    obtain ⟨value, v, rest, rfl⟩ := h
    rfl
  | makeVector count | makeSet count =>
    simp only [step, popMany_append h, popMany_of_le h]
    rfl
  | makeMap pairs =>
    simp only [step, popMany_append h, popMany_of_le h]
    simp only [Exec.ofExcept_bind_apply_ok rfl, map_bind, map_pure, List.cons_append]
  | call argCount =>
    obtain ⟨callee, rest, hrest⟩ := drop_eq_cons h
    have hle := Nat.le_of_succ_le h
    simp only [step, popMany_append hle, popMany_of_le hle, hrest]
    simp only [Exec.ofExcept_bind_apply_ok rfl, pop, map_bind, map_pure, List.cons_append]
  | monitorEnter =>
    obtain ⟨target, rest, rfl⟩ := h
    simp only [step, List.cons_append, pop]
    simp only [Exec.ofExcept_bind_apply_ok rfl, map_bind, map_pure]
  | dup | pop =>
    obtain ⟨value, rest, rfl⟩ := h
    rfl
  | ret => exact h.elim

/-- Code that passes the check runs the same whatever lies below, and leaves values of the kinds found. -/
theorem exec_sound {c : Chunk} {code : List Instruction} {ks ks' : Kinds} {top : Stack}
    (h : retypeAll c code ks = some ks') (hfit : List.Forall₂ Fits ks top) {floor : Stack} {w w' : World}
    {stack : Stack} (hrun : exec c code (top ++ floor) w = .ok stack w') :
    ∃ top', stack = top' ++ floor ∧ List.Forall₂ Fits ks' top' := by
  induction code generalizing ks top w with
  | nil =>
    cases h
    cases hrun
    exact ⟨top, rfl, hfit⟩
  | cons i rest ih =>
    obtain ⟨ks₁, hi, hrest⟩ := Option.bind_eq_some_iff.mp h
    obtain ⟨hsupplied, hfits⟩ := retype_sound hi hfit
    obtain ⟨stack₁, w₁, hstep, hrun⟩ := Exec.bind_eq_ok hrun
    rw [step_append hsupplied] at hstep
    obtain ⟨top₁, htop, rfl⟩ := Exec.map_eq_ok (Exec.adapt_eq_ok hstep)
    exact ih hrest (hfits htop) hrun

/-- Wherever a run of checked code arrives, the next operation finds what it takes above the floor. -/
theorem supplied_of_retypeAll {c : Chunk} {before after : List Instruction} {i : Instruction} {ks ks' : Kinds}
    {top : Stack} (h : retypeAll c (before ++ i :: after) ks = some ks') (hfit : List.Forall₂ Fits ks top)
    {floor : Stack} {w w' : World} {stack : Stack} (hrun : exec c before (top ++ floor) w = .ok stack w') :
    ∃ top', stack = top' ++ floor ∧ Supplied c i.op top' := by
  rw [retypeAll_append] at h
  obtain ⟨ks₁, hbefore, hrest⟩ := Option.bind_eq_some_iff.mp h
  obtain ⟨ks₂, hi, -⟩ := Option.bind_eq_some_iff.mp hrest
  obtain ⟨top', rfl, hfit'⟩ := exec_sound hbefore hfit hrun
  exact ⟨top', rfl, (retype_sound hi hfit').1⟩

end LispCore.Machine
