import LispCore.Eval
import LispCore.Proofs.Cells
import Mathlib.Data.Finset.Card

/-! # Calls through vars

A call follows vars to their current values (`World.follow`). Every var that is followed has a cell, so a
chain with more vars than there are cells comes back to one of them, and then it has no end. So the bound
under which `World.callee` searches never decides the answer (`callee_eq_of_cells_lt`): it may be any number
above the number of cells.

What a call gives without a bound is said by `Applies`: it goes on from var to var, and stops at an unbound var or at a
value that is no var. It has an answer unless the chain comes back to a var, and `apply` gives the answer. -/

namespace LispCore

namespace World
variable {w : World}

/-- Where a call goes on to: from a var to its current value. -/
def next? (w : World) : Value → Option Value
  | .var v => (w.deref v).toOption
  | _ => none

/-- The value that a call has come to after following `n` vars. -/
def follow (w : World) : Nat → Value → Option Value
  | 0, x => some x
  | n + 1, x => (w.next? x).bind (w.follow n)

theorem follow_add (w : World) (m n : Nat) (x : Value) : w.follow (m + n) x = (w.follow m x).bind (w.follow n) := by
  induction m generalizing x with
  | zero => simp [follow]
  | succ m ih =>
    rw [Nat.succ_add]
    simp only [follow]
    cases w.next? x with
    | none => rfl
    | some y => simp [ih]

theorem next?_of_deref_ok {v : Var} {y : Value} (h : w.deref v = .ok y) : w.next? (.var v) = some y := by
  rw [next?, h, Except.toOption]

theorem next?_of_deref_error {v : Var} {fault : Fault} (h : w.deref v = .error fault) : w.next? (.var v) = none := by
  rw [next?, h, Except.toOption]

theorem next?_eq_some {x y : Value} (h : w.next? x = some y) : ∃ v, x = .var v ∧ w.deref v = .ok y := by
  cases x with
  | var v =>
    refine ⟨v, rfl, ?_⟩
    cases hd : w.deref v with
    | ok z =>
      rw [next?_of_deref_ok hd] at h
      cases h
      rfl
    | error fault =>
      rw [next?_of_deref_error hd] at h
      cases h
  | _ => cases h

theorem deref_eq_error {v : Var} {fault : Fault} (h : w.deref v = .error fault) : fault = .runtime (.unbound v) := by
  unfold deref at h
  dsimp only at h
  generalize (if (w.cell v).dynamic then w.binding? v else none) = bound at h
  cases bound <;> cases hr : (w.cell v).root <;> simp_all

/-- A var with a value has a cell. -/
theorem mem_cells_of_deref {v : Var} {y : Value} (h : w.deref v = .ok y) : v ∈ w.cells.map (·.1) := by
  cases hc : Table.get? w.cells v with
  | some c => exact Table.mem_keys_of_get? hc
  | none => simp [deref, cell, hc] at h

/-- Along a chain that goes on, all that is met before is a var that has a cell. -/
theorem follow_var_of_lt {x y : Value} {n i : Nat} (h : w.follow n x = some y) (hi : i < n) :
    ∃ v, w.follow i x = some (.var v) ∧ v ∈ w.cells.map (·.1) := by
  obtain ⟨t, rfl⟩ := Nat.exists_eq_add_of_lt hi
  rw [show i + t + 1 = i + (t + 1) by omega, follow_add] at h
  obtain ⟨z, hz, hnext⟩ := Option.bind_eq_some_iff.mp h
  simp only [follow] at hnext
  obtain ⟨z', hz', -⟩ := Option.bind_eq_some_iff.mp hnext
  obtain ⟨v, rfl, hd⟩ := next?_eq_some hz'
  exact ⟨v, hz, mem_cells_of_deref hd⟩

/-- The chain from a value comes to some var twice. -/
def Revisits (w : World) (x : Value) : Prop :=
  ∃ v i j, i < j ∧ w.follow i x = some (.var v) ∧ w.follow j x = some (.var v)

/-- The vars that have a cell. Any other was never written and is unbound. -/
def writtenVars (w : World) : Finset Var :=
  (w.cells.map (·.1)).toFinset

theorem card_writtenVars_le (w : World) : w.writtenVars.card ≤ w.cells.length := by
  simpa only [writtenVars, List.length_map] using List.toFinset_card_le (w.cells.map (·.1))

/-- A chain with more vars than there are cells comes to one of them twice. -/
theorem revisits_of_card_lt {x y : Value} {n : Nat} (h : w.follow n x = some y) (hn : w.writtenVars.card < n) :
    w.Revisits x := by
  have hkeys : ∀ i ∈ Finset.range n,
      (w.follow i x).elim default (fun z => if let .var v := z then v else default) ∈ w.writtenVars := by
    intro i hi
    obtain ⟨v, hv, hmem⟩ := follow_var_of_lt h (Finset.mem_range.mp hi)
    simpa [hv, writtenVars] using hmem
  have hcard : w.writtenVars.card < (Finset.range n).card := by rwa [Finset.card_range]
  obtain ⟨i, hi, j, hj, hij, heq⟩ := Finset.exists_ne_map_eq_of_card_lt_of_maps_to hcard hkeys
  rw [Finset.mem_range] at hi hj
  obtain ⟨u, hu, -⟩ := follow_var_of_lt h hi
  obtain ⟨v, hv, -⟩ := follow_var_of_lt h hj
  obtain rfl : u = v := by simpa [hu, hv] using heq
  rcases Nat.lt_or_gt_of_ne hij with hlt | hlt
  · exact ⟨u, i, j, hlt, hu, hv⟩
  · exact ⟨u, j, i, hlt, hv, hu⟩

/-- Such a chain has no end: it goes round between the two places. -/
theorem Revisits.endless {x : Value} (h : w.Revisits x) (m : Nat) : ∃ v, w.follow m x = some (.var v) := by
  obtain ⟨v, i, j, hij, hi, hj⟩ := h
  induction m using Nat.strong_induction_on with
  | _ m ih =>
    rcases Nat.lt_trichotomy m j with hm | rfl | hm
    · obtain ⟨u, hu, -⟩ := follow_var_of_lt hj hm
      exact ⟨u, hu⟩
    · exact ⟨v, hj⟩
    · -- Beyond `j` the chain repeats what it did from `i` on.
      have hback : w.follow m x = w.follow (i + (m - j)) x := by
        rw [show m = j + (m - j) by omega, follow_add, hj, ← hi, ← follow_add]
        congr 1
        omega
      rw [hback]
      exact ih (i + (m - j)) (by omega)

theorem follow_endless {x y : Value} {n : Nat} (h : w.follow n x = some y) (hn : w.cells.length < n) (m : Nat) :
    ∃ v, w.follow m x = some (.var v) :=
  (revisits_of_card_lt h (Nat.lt_of_le_of_lt w.card_writtenVars_le hn)).endless m

/-! ### The bound of the search -/

/-- The search gives up exactly where the chain is at a var after as many steps as it may take. -/
theorem callee_eq_stalled_iff {n : Nat} {x : Value} :
    w.callee n x = .error (.stalled .varCycle) ↔ ∃ v, w.follow n x = some (.var v) := by
  induction n generalizing x with
  | zero => cases x <;> simp [callee, follow]
  | succ n ih =>
    cases x with
    | var v =>
      cases hd : w.deref v with
      | ok y => simp [callee, follow, next?_of_deref_ok hd, hd, bind, Except.bind, ih]
      | error fault =>
        rw [deref_eq_error hd] at hd
        simp [callee, follow, next?_of_deref_error hd, hd, bind, Except.bind]
    | _ => simp [callee, follow, next?]

theorem callee_succ_of_ne {n : Nat} {x : Value} (h : w.callee n x ≠ .error (.stalled .varCycle)) :
    w.callee (n + 1) x = w.callee n x := by
  induction n generalizing x with
  | zero =>
    cases x with
    | var v => simp [callee] at h
    | _ => rfl
  | succ n ih =>
    cases x with
    | var v =>
      simp only [callee] at h ⊢
      cases hd : w.deref v with
      | ok y =>
        simp only [hd, bind, Except.bind] at h ⊢
        exact ih h
      | error fault => rfl
    | _ => rfl

/-- Any bound above the number of cells gives the same answer. -/
theorem callee_eq_of_cells_lt {m n : Nat} (hm : w.cells.length < m) (hn : w.cells.length < n) (x : Value) :
    w.callee m x = w.callee n x := by
  suffices hall : ∀ k, w.callee (w.cells.length + 1 + k) x = w.callee (w.cells.length + 1) x by
    obtain ⟨a, rfl⟩ := Nat.exists_eq_add_of_lt hm
    obtain ⟨b, rfl⟩ := Nat.exists_eq_add_of_lt hn
    rw [show w.cells.length + a + 1 = w.cells.length + 1 + a by omega,
      show w.cells.length + b + 1 = w.cells.length + 1 + b by omega, hall, hall]
  intro k
  by_cases hs : w.callee (w.cells.length + 1) x = .error (.stalled .varCycle)
  · obtain ⟨v, hv⟩ := callee_eq_stalled_iff.mp hs
    rw [hs, callee_eq_stalled_iff]
    exact follow_endless hv (Nat.lt_succ_self _) _
  · induction k with
    | zero => rfl
    | succ k ih =>
      rw [← Nat.add_assoc, callee_succ_of_ne (by rwa [ih]), ih]

/-! ### Where a chain ends -/

theorem exists_end_of_follow_eq_none {n : Nat} {x : Value} (h : w.follow n x = none) :
    ∃ m last, m < n ∧ w.follow m x = some last ∧ w.next? last = none := by
  induction n generalizing x with
  | zero => cases h
  | succ n ih =>
    simp only [follow] at h
    cases hnext : w.next? x with
    | none => exact ⟨0, x, Nat.succ_pos n, rfl, hnext⟩
    | some y =>
      rw [hnext] at h
      obtain ⟨m, last, hm, hfollow, hlast⟩ := ih h
      exact ⟨m + 1, last, Nat.succ_lt_succ hm, by rwa [follow, hnext], hlast⟩

/-- A chain that comes to no var twice ends, after no more vars than there are. -/
theorem exists_end_of_not_revisits {x : Value} (h : ¬w.Revisits x) :
    ∃ n last, n ≤ w.writtenVars.card ∧ w.follow n x = some last ∧ w.next? last = none := by
  have hnone : w.follow (w.writtenVars.card + 1) x = none := by
    by_contra hsome
    obtain ⟨y, hy⟩ := Option.ne_none_iff_exists'.mp hsome
    exact h (revisits_of_card_lt hy (Nat.lt_succ_self _))
  obtain ⟨n, last, hn, hfollow, hlast⟩ := exists_end_of_follow_eq_none hnone
  exact ⟨n, last, Nat.lt_succ_iff.mp hn, hfollow, hlast⟩

theorem not_revisits_of_end {n : Nat} {x last : Value} (h : w.follow n x = some last) (hlast : w.next? last = none) :
    ¬w.Revisits x := by
  intro hrevisits
  obtain ⟨v, hv⟩ := hrevisits.endless (n + 1)
  rw [follow_add, h] at hv
  simp [follow, hlast] at hv

end World

/-! ### Calls without a bound -/

/-- What a call gives when it has come to a value from which it does not go on: at a function what the function gives
for the arguments, at an unbound var the error that names it, at any other value the error that names its kind. -/
inductive Stops (args : List Value) (w : World) : Value → EStateM.Result Error World Value → Prop where
  | func (f : Native) : Stops args w (.func f) (callNative f args w)
  | unbound (v : Var) : w.deref v = .error (.runtime (.unbound v)) →
      Stops args w (.var v) (.error (.of (.runtime (.unbound v))) w)
  | other (x : Value) : (∀ f, x ≠ .func f) → (∀ v, x ≠ .var v) →
      Stops args w x (.error (.of (.typeMismatch "function" x.kind.name)) w)

/-- What a call gives, found by going on from var to var as long as there is a next value. -/
inductive Applies (args : List Value) (w : World) : Value → EStateM.Result Error World Value → Prop where
  | stop {x : Value} {r : EStateM.Result Error World Value} : Stops args w x r → Applies args w x r
  | var {v : Var} {y : Value} {r : EStateM.Result Error World Value} : w.deref v = .ok y → Applies args w y r →
      Applies args w (.var v) r

section Applies
variable {args : List Value} {w : World} {x y : Value} {r : EStateM.Result Error World Value}

theorem Stops.next?_eq_none (h : Stops args w x r) : w.next? x = none := by
  cases h with
  | func f => rfl
  | unbound v h => exact World.next?_of_deref_error h
  | other x hfunc hvar =>
    cases x with
    | var v => exact absurd rfl (hvar v)
    | _ => rfl

theorem exists_stops (args : List Value) (h : w.next? x = none) : ∃ r, Stops args w x r := by
  cases x with
  | func f => exact ⟨_, .func f⟩
  | var v =>
    cases hderef : w.deref v with
    | ok y =>
      rw [World.next?_of_deref_ok hderef] at h
      cases h
    | error fault =>
      rw [World.deref_eq_error hderef] at hderef
      exact ⟨_, .unbound v hderef⟩
  | _ => exact ⟨_, .other _ nofun nofun⟩

theorem Applies.exists_end (h : Applies args w x r) : ∃ n last, w.follow n x = some last ∧ w.next? last = none := by
  induction h with
  | @stop x r h => exact ⟨0, x, rfl, h.next?_eq_none⟩
  | @var v y r h _ ih =>
    obtain ⟨n, last, hfollow, hlast⟩ := ih
    exact ⟨n + 1, last, by rwa [World.follow, World.next?_of_deref_ok h], hlast⟩

theorem applies_of_follow {n : Nat} (h : w.follow n x = some y) (hy : Stops args w y r) : Applies args w x r := by
  induction n generalizing x with
  | zero =>
    cases h
    exact .stop hy
  | succ n ih =>
    obtain ⟨z, hnext, hfollow⟩ := Option.bind_eq_some_iff.mp h
    obtain ⟨v, rfl, hderef⟩ := World.next?_eq_some hnext
    exact .var hderef (ih hfollow)

/-! ### What `apply` gives -/

theorem apply_eq_callee (x : Value) (args : List Value) (w : World) :
    apply x args w = (Exec.ofExcept (w.callee (w.cells.length + 1) x) >>= (callNative · args)) w := rfl

theorem Stops.apply_eq (h : Stops args w x r) : apply x args w = r := by
  cases h with
  | func f => rfl
  | unbound v h =>
    simp only [apply_eq_callee, World.callee, h, bind, Except.bind]
    rfl
  | other x hfunc hvar =>
    cases x with
    | func f => exact absurd rfl (hfunc f)
    | var v => exact absurd rfl (hvar v)
    | _ => rfl

theorem apply_of_deref {v : Var} (h : w.deref v = .ok y) : apply (.var v) args w = apply y args w := by
  have hstep : w.callee (w.cells.length + 1 + 1) (.var v) = w.callee (w.cells.length + 1) y := by
    simp only [World.callee, h, bind, Except.bind]
  have hbound : w.callee (w.cells.length + 1) (.var v) = w.callee (w.cells.length + 1 + 1) (.var v) :=
    World.callee_eq_of_cells_lt (by omega) (by omega) _
  rw [apply_eq_callee, apply_eq_callee, hbound, hstep]

theorem Applies.apply_eq (h : Applies args w x r) : apply x args w = r := by
  induction h with
  | stop h => exact h.apply_eq
  | var h _ ih => rw [apply_of_deref h, ih]

end Applies

/-- A call has an answer exactly if the chain of vars from what is called comes to no var twice, and it gives its
answer. Then the chain ends after no more vars than there are, and the answer is that of its last value. On a chain
that comes to a var twice the call has no end, and `apply` says so. -/
theorem calls_end_off_cycles (w : World) (callee : Value) (args : List Value) :
    ((∃ r, Applies args w callee r) ↔ ¬w.Revisits callee) ∧
    (∀ r, Applies args w callee r → apply callee args w = r) ∧
    (¬w.Revisits callee → ∃ n last, n ≤ w.writtenVars.card ∧ w.follow n callee = some last ∧
      Stops args w last (apply callee args w)) ∧
    (w.Revisits callee → apply callee args w = .error (.of (.stalled .varCycle)) w) := by
  have hends : ¬w.Revisits callee → ∃ n last r, n ≤ w.writtenVars.card ∧ w.follow n callee = some last ∧
      Stops args w last r ∧ Applies args w callee r := by
    intro h
    obtain ⟨n, last, hn, hfollow, hlast⟩ := World.exists_end_of_not_revisits h
    obtain ⟨r, hr⟩ := exists_stops args hlast
    exact ⟨n, last, r, hn, hfollow, hr, applies_of_follow hfollow hr⟩
  refine ⟨⟨fun ⟨r, hr⟩ => ?_, fun h => ?_⟩, fun r hr => hr.apply_eq, fun h => ?_, fun h => ?_⟩
  · obtain ⟨n, last, hfollow, hlast⟩ := hr.exists_end
    exact World.not_revisits_of_end hfollow hlast
  · obtain ⟨n, last, r, -, -, -, hr⟩ := hends h
    exact ⟨r, hr⟩
  · obtain ⟨n, last, r, hn, hfollow, hstops, hr⟩ := hends h
    exact ⟨n, last, hn, hfollow, hr.apply_eq ▸ hstops⟩
  · rw [apply_eq_callee, World.callee_eq_stalled_iff.mpr (h.endless _)]
    rfl

/-- `(def f (def f 1))` makes the var `f` its own value, in a world where the value of `g` is a dynamic var that the
running thread binds to a native function. -/
theorem calls_end_off_cycles_defined :
    let f : Var := { id := 0, ns := "user", name := "f" }
    let g : Var := { id := 1, ns := "user", name := "g" }
    let d : Var := { id := 2, ns := "user", name := "*d*" }
    let native : Native := { id := 3, name := "list", arity := .atLeast 0 }
    let define (init : Expr) : Expr := .define f false [] (some init) { file := "a.clv", line := 1 }
    let before : World :=
      { cells := [(g, { root := some (.var d) }), (d, { root := some .nil, dynamic := true })]
        bindings := [(d, [.func native])]
        natives := [(3, fun args => pure (.list args))] }
    let w := Exec.finalWorld (define (define (.const (.int 1)))).eval before
    w.Revisits (.var f) ∧ apply (.var f) [] w = .error (.of (.stalled .varCycle)) w ∧
      ¬w.Revisits (.var g) ∧ ∃ w', apply (.var g) [.nil] w = .ok (.list [.nil]) w' := by
  intro f g d native define before w
  have hcycle : w.Revisits (.var f) := ⟨f, 0, 1, Nat.zero_lt_one, rfl, rfl⟩
  have hchain : Applies [.nil] w (.var g) (callNative native [.nil] w) := .var rfl (.var rfl (.stop (.func native)))
  obtain ⟨-, -, -, hstalled⟩ := calls_end_off_cycles w (.var f) []
  obtain ⟨hends, hanswer, -, -⟩ := calls_end_off_cycles w (.var g) [.nil]
  exact ⟨hcycle, hstalled hcycle, hends.mp ⟨_, hchain⟩, _, hanswer _ hchain⟩

end LispCore
