import LispCore.Proofs.Sessions
import Mathlib.Data.List.ReduceOption

/-! # Overrides of vars on one thread

A thread may put overrides over the values of dynamic vars, and each push gives it a guard that takes them off again. A
guard knows vars and no values, and dropping it takes off whatever is innermost, so all that ties overrides to guards
is their number. It is kept along every run, over whatever the guards that are already there hold in place
(`ThreadState.Above`), as long as none of these is dropped. -/

namespace LispCore

namespace World
variable {w w' : World}

/-! ### Stacks of overrides -/

/-- The running thread's overrides of a var, the innermost first. -/
def overrides (w : World) (v : Var) : List Value :=
  (Table.get? w.bindings v).getD []

theorem binding?_eq (w : World) (v : Var) : w.binding? v = (w.overrides v).head? := by
  unfold binding? overrides
  cases Table.get? w.bindings v <;> rfl

theorem overrides_congr (h : w'.bindings = w.bindings) (v : Var) : w'.overrides v = w.overrides v := by
  rw [overrides, overrides, h]

theorem deref_congr {v : Var} (hcell : w'.cell v = w.cell v) (h : w'.overrides v = w.overrides v) :
    w'.deref v = w.deref v := by
  rw [World.deref, World.deref, binding?_eq, binding?_eq, h, hcell]

theorem overrides_pushBinding (w : World) (v : Var) (value : Value) (u : Var) :
    (w.pushBinding v value).overrides u = if u = v then value :: w.overrides u else w.overrides u := by
  unfold overrides pushBinding
  rw [Table.get?_insert]
  split
  · next huv => rw [huv]; rfl
  · rfl

theorem overrides_popBinding (w : World) (v u : Var) :
    (w.popBinding v).overrides u = if u = v then (w.overrides u).tail else w.overrides u := by
  unfold overrides popBinding
  split
  · next value next rest hstack =>
    rw [Table.get?_insert]
    split
    · next huv => rw [huv, hstack]; rfl
    · rfl
  · next hstack =>
    rw [Table.get?_erase]
    split
    · next huv =>
      -- the stack has at most one value, so nothing is left of it
      subst huv
      cases hget : Table.get? w.bindings u with
      | none => rfl
      | some values =>
        match values with
        | [] | [_] => rfl
        | value :: next :: rest => exact (hstack value next rest hget).elim
    · rfl

/-- The values that bindings give to a var, the last one first. -/
def given (bindings : List (Var × Value)) (v : Var) : List Value :=
  ((bindings.filter fun b => b.1 = v).map (·.2)).reverse

theorem given_cons (b : Var × Value) (rest : List (Var × Value)) (v : Var) :
    given (b :: rest) v = given rest v ++ if b.1 = v then [b.2] else [] := by
  by_cases h : b.1 = v <;> simp [given, h]

theorem length_given (bindings : List (Var × Value)) (v : Var) :
    (given bindings v).length = (bindings.map (·.1)).count v := by
  induction bindings with
  | nil => rfl
  | cons b rest ih =>
    rw [given_cons, List.length_append, ih, List.map_cons, List.count_cons]
    by_cases h : b.1 = v <;> simp [h]

/-- Binds vars in order, whether they are dynamic or not. -/
def pushAll (w : World) (bindings : List (Var × Value)) : World :=
  bindings.foldl (fun w b => w.pushBinding b.1 b.2) w

theorem overrides_pushAll (w : World) (bindings : List (Var × Value)) (v : Var) :
    (w.pushAll bindings).overrides v = given bindings v ++ w.overrides v := by
  induction bindings generalizing w with
  | nil => rfl
  | cons b rest ih =>
    have hrest : (w.pushAll (b :: rest)).overrides v = _ := ih (w.pushBinding b.1 b.2)
    rw [hrest, overrides_pushBinding, given_cons, List.append_assoc]
    by_cases h : v = b.1
    · rw [if_pos h, if_pos h.symm, List.singleton_append]
    · rw [if_neg h, if_neg (Ne.symm h), List.nil_append]

theorem cell_pushAll (w : World) (bindings : List (Var × Value)) (v : Var) :
    (w.pushAll bindings).cell v = w.cell v := by
  obtain ⟨_, h⟩ := foldl_rebinds (f := fun w b => w.pushBinding b.1 b.2) (fun _ _ => ⟨_, rfl⟩) w bindings
  rw [pushAll, h]
  rfl

theorem cell_dropGuard (w : World) (guard : Guard) (v : Var) : (w.dropGuard guard).cell v = w.cell v := by
  obtain ⟨_, h⟩ := w.dropGuard_eq guard
  rw [h]
  rfl

theorem overrides_dropGuard (w : World) (guard : Guard) (v : Var) :
    (w.dropGuard guard).overrides v = (w.overrides v).drop (guard.vars.count v) := by
  obtain ⟨vars⟩ := guard
  unfold dropGuard
  induction vars generalizing w with
  | nil => rfl
  | cons u rest ih =>
    have hrest : (rest.foldl popBinding (w.popBinding u)).overrides v =
        ((w.popBinding u).overrides v).drop (rest.count v) := ih (w.popBinding u)
    rw [List.foldl_cons, hrest, overrides_popBinding, List.count_cons]
    by_cases h : v = u
    · rw [if_pos h, h, beq_self_eq_true, if_pos rfl, ← List.drop_one, List.drop_drop, Nat.add_comm]
    · have hne : (u == v) = false := by simpa using Ne.symm h
      rw [if_neg h, hne, if_neg Bool.false_ne_true, Nat.add_zero]

/-! ### What is kept of them -/

/-- No var without overrides is kept among the bindings, and every var with overrides is dynamic. -/
structure Sound (w : World) : Prop where
  stacked : ∀ e ∈ w.bindings, e.2 ≠ []
  dynamic : ∀ v, w.overrides v ≠ [] → (w.cell v).dynamic = true

theorem stacked_pushAll (h : ∀ e ∈ w.bindings, e.2 ≠ []) (bindings : List (Var × Value)) :
    ∀ e ∈ (w.pushAll bindings).bindings, e.2 ≠ [] := by
  induction bindings generalizing w with
  | nil => exact h
  | cons b rest ih =>
    refine ih (w := w.pushBinding b.1 b.2) fun e he => ?_
    rcases Table.eq_or_mem_of_mem_insert he with rfl | he
    · exact List.cons_ne_nil _ _
    · exact h e he

theorem stacked_dropGuard (h : ∀ e ∈ w.bindings, e.2 ≠ []) (guard : Guard) :
    ∀ e ∈ (w.dropGuard guard).bindings, e.2 ≠ [] := by
  obtain ⟨vars⟩ := guard
  unfold dropGuard
  induction vars generalizing w with
  | nil => exact h
  | cons v rest ih =>
    refine ih (w := w.popBinding v) fun e he => ?_
    unfold popBinding at he
    split at he
    · rcases Table.eq_or_mem_of_mem_insert he with rfl | he
      · exact List.cons_ne_nil _ _
      · exact h e he
    · exact h e (List.mem_of_mem_filter he)

theorem bindings_eq_nil (hstacked : ∀ e ∈ w.bindings, e.2 ≠ []) (h : ∀ v, w.overrides v = []) : w.bindings = [] := by
  cases hbindings : w.bindings with
  | nil => rfl
  | cons e rest =>
    have hfirst : w.overrides e.1 = e.2 := by
      rw [overrides, hbindings, Table.get?_cons, beq_self_eq_true, if_pos rfl]
      rfl
    have hne := hstacked e (hbindings ▸ List.mem_cons_self)
    exact (hne (hfirst.symm.trans (h e.1))).elim

/-- With overrides the innermost is the value, and the root counts without. -/
theorem Sound.deref (h : w.Sound) (v : Var) :
    w.deref v = ((w.overrides v).head?.or (w.cell v).root).elim (.error (.runtime (.unbound v))) .ok := by
  have hbound : (if (w.cell v).dynamic = true then w.binding? v else none) = (w.overrides v).head? := by
    rw [binding?_eq]
    split
    · rfl
    · next hstatic =>
      cases hstack : w.overrides v with
      | nil => rfl
      | cons value rest => exact (hstatic (h.dynamic v (hstack ▸ List.cons_ne_nil _ _))).elim
  unfold World.deref
  rw [hbound]
  cases (w.overrides v).head? <;> cases (w.cell v).root <;> rfl

/-! ### What leaves overrides alone -/

/-- The thread's overrides are as they were, and no dynamic flag was taken back. -/
structure Undisturbed (w w' : World) : Prop where
  bindings : w'.bindings = w.bindings
  dynamic : ∀ v, (w.cell v).dynamic = true → (w'.cell v).dynamic = true

theorem Undisturbed.refl (w : World) : w.Undisturbed w :=
  ⟨rfl, fun _ => id⟩

theorem Undisturbed.sound (h : w.Undisturbed w') (hw : w.Sound) : w'.Sound where
  stacked := h.bindings ▸ hw.stacked
  dynamic := fun v hv => h.dynamic v (hw.dynamic v (overrides_congr h.bindings v ▸ hv))

end World

theorem World.sameBindings_acts : World.ActsBy (·.binds = false) (World.Same World.bindings) where
  ensureNs w ns := by rcases w.ensureNs_eq ns with h | h <;> rw [h] <;> rfl
  current _ _ := rfl
  intern w ns name := by
    obtain ⟨namespaces, nextId, log, h⟩ := w.intern_eq ns name
    rw [h]
    rfl
  refer _ _ _ _ _ := rfl
  addAlias _ _ _ _ _ := rfl
  rebind _ _ _ hbinds hallowed := by
    rw [hbinds] at hallowed
    cases hallowed
  step h := by cases h <;> rfl
  note _ _ _ := rfl
  native _ _ _ _ := rfl
  analyze ctx form := ((silent_analysis ctx).analyze form).mono fun _ _ h => h.bindings

namespace Action

theorem bindings_perform {action : Action} (h : action.binds = false) (w : World) :
    (perform w action).bindings = w.bindings :=
  World.Same.of_steps (World.sameBindings_acts.steps h w)

theorem undisturbed {action : Action} (h : action.binds = false) (w : World) : w.Undisturbed (perform w action) := by
  obtain ⟨made, hgrows⟩ := grows w action
  exact ⟨bindings_perform h w, hgrows.dynamic⟩

end Action

/-- All bindings are made and give a guard for their vars, or one of the vars is not dynamic and nothing is done. -/
theorem pushBindings_cases (bindings : List (Var × Value)) (w : World) :
    ((∀ b ∈ bindings, (w.cell b.1).dynamic = true) ∧
      pushBindings bindings w = .ok ⟨bindings.map (·.1)⟩ (w.pushAll bindings)) ∨
    ∃ b ∈ bindings, (w.cell b.1).dynamic = false ∧
      pushBindings bindings w = .error (.of (.runtime (.notDynamic b.1))) w := by
  unfold pushBindings World.pushBindings
  cases hfind : bindings.find? fun b => !(w.cell b.1).dynamic with
  | none =>
    refine .inl ⟨fun b hb => ?_, rfl⟩
    simpa using List.find?_eq_none.mp hfind b hb
  | some b =>
    have hstatic := List.find?_some hfind
    exact .inr ⟨b, List.mem_of_find?_eq_some hfind, by simpa using hstatic, rfl⟩

/-! ### Runs of a thread -/

/-- A guard, with the bindings that it was given for. -/
structure HeldGuard where
  guard : Guard
  bindings : List (Var × Value)

/-- The guard that bindings give when they are pushed. -/
def HeldGuard.of (bindings : List (Var × Value)) : HeldGuard :=
  { guard := ⟨bindings.map (·.1)⟩, bindings }

/-- The world of a thread, with the guards that the thread was given: each in its place, and nothing in the place of
one that was dropped. -/
structure ThreadState where
  world : World
  guards : List (Option HeldGuard) := []

/-- What a thread can do, and what can happen on other threads meanwhile. A guard is dropped by its place, and there is
nothing to drop where none is left. -/
inductive ThreadAction where
  | push (bindings : List (Var × Value))
  | drop (place : Nat)
  | act (action : Action) (h : action.binds = false)
  | bindRoot (v : Var) (value : Value)
  | setMetadata (v : Var) (metadata : Table Key Value)
  | setDynamic (v : Var)
  | enter (target : Value)
  | elsewhere (actions : List Action)

namespace ThreadState

/-- The guard in a place, if it was not dropped. -/
def guard? (s : ThreadState) (place : Nat) : Option HeldGuard :=
  s.guards[place]?.join

def perform (s : ThreadState) : ThreadAction → ThreadState
  | .push bindings =>
    match pushBindings bindings s.world with
    | .ok guard w => { world := w, guards := s.guards ++ [some { guard, bindings }] }
    | .error _ w => { s with world := w }
  | .drop place =>
    match s.guard? place with
    | some held => { world := s.world.dropGuard held.guard, guards := s.guards.set place none }
    | none => s
  | .act action _ => { s with world := action.perform s.world }
  | .bindRoot v value => { s with world := s.world.bindRoot v value }
  | .setMetadata v metadata => { s with world := s.world.setMetadata v metadata }
  | .setDynamic v => { s with world := s.world.setDynamic v }
  | .enter target => { s with world := Exec.finalWorld (enterMonitor target) s.world }
  | .elsewhere actions => { s with world := (Action.run s.world.startThread actions).resumeThread s.world }

def run (s : ThreadState) (actions : List ThreadAction) : ThreadState :=
  actions.foldl perform s

/-- The guards that were not dropped, in the order in which they were given. -/
def live (s : ThreadState) : List HeldGuard :=
  s.guards.reduceOption

/-- The state after a push that succeeds. -/
def pushed (s : ThreadState) (bindings : List (Var × Value)) : ThreadState :=
  { world := s.world.pushAll bindings, guards := s.guards ++ [some (.of bindings)] }

variable {base s : ThreadState} {action : ThreadAction}

theorem guard?_eq_some {place : Nat} {held : HeldGuard} (h : s.guard? place = some held) :
    ∃ before after, s.guards = before ++ some held :: after ∧ before.length = place ∧
      s.guards.set place none = before ++ none :: after := by
  have hget : s.guards[place]? = some (some held) := Option.join_eq_some_iff.mp h
  obtain ⟨hlt, hget⟩ := List.getElem?_eq_some_iff.mp hget
  have hlength : (s.guards.take place).length = place := List.length_take_of_le (Nat.le_of_lt hlt)
  have hsplit : s.guards = s.guards.take place ++ some held :: s.guards.drop (place + 1) := by
    rw [← hget, ← List.drop_eq_getElem_cons hlt, List.take_append_drop]
  exact ⟨_, _, hsplit, hlength, List.set_eq_take_append_cons_drop.trans (if_pos hlt)⟩

theorem guard?_of_split {before after : List (Option HeldGuard)} {held : HeldGuard}
    (h : s.guards = before ++ some held :: after) : s.guard? before.length = some held := by
  rw [guard?, h, List.getElem?_append_right (Nat.le_refl _), Nat.sub_self, List.getElem?_cons_zero]
  rfl

theorem perform_push {bindings : List (Var × Value)} (h : ∀ b ∈ bindings, (s.world.cell b.1).dynamic = true) :
    s.perform (.push bindings) = s.pushed bindings := by
  rcases pushBindings_cases bindings s.world with ⟨-, hpush⟩ | ⟨b, hb, hstatic, -⟩
  · rw [perform, hpush]
    rfl
  · rw [h b hb] at hstatic
    cases hstatic

theorem perform_drop {place : Nat} {held : HeldGuard} (h : s.guard? place = some held) :
    s.perform (.drop place) = { world := s.world.dropGuard held.guard, guards := s.guards.set place none } := by
  rw [perform, h]

theorem undisturbed_elsewhere (w : World) (actions : List Action) :
    w.Undisturbed ((Action.run w.startThread actions).resumeThread w) := by
  obtain ⟨made, hgrows⟩ := Action.run_grows w.startThread actions
  exact ⟨rfl, hgrows.dynamic⟩

/-- An action pushes bindings of dynamic vars, or drops a guard, or leaves guards and overrides alone. -/
theorem perform_cases (s : ThreadState) (action : ThreadAction) :
    (∃ bindings, action = .push bindings ∧ (∀ b ∈ bindings, (s.world.cell b.1).dynamic = true) ∧
      s.perform action = s.pushed bindings) ∨
    (∃ before held after, action = .drop before.length ∧ s.guards = before ++ some held :: after ∧ s.perform action =
      { world := s.world.dropGuard held.guard, guards := before ++ none :: after }) ∨
    ((s.perform action).guards = s.guards ∧ s.world.Undisturbed (s.perform action).world) := by
  have hgrows : ∀ {made w}, w.bindings = s.world.bindings → s.world.Grows [] made w → s.world.Undisturbed w :=
    fun hbindings h => ⟨hbindings, h.dynamic⟩
  cases action with
  | push bindings =>
    rcases pushBindings_cases bindings s.world with ⟨hdynamic, -⟩ | ⟨b, -, -, hpush⟩
    · exact .inl ⟨bindings, rfl, hdynamic, perform_push hdynamic⟩
    · refine .inr (.inr ?_)
      rw [perform, hpush]
      exact ⟨rfl, .refl _⟩
  | drop place =>
    cases hplace : s.guard? place with
    | none =>
      refine .inr (.inr ?_)
      rw [perform, hplace]
      exact ⟨rfl, .refl _⟩
    | some held =>
      obtain ⟨before, after, hguards, rfl, hset⟩ := guard?_eq_some hplace
      exact .inr (.inl ⟨before, held, after, rfl, hguards, by rw [perform_drop hplace, ← hset]⟩)
  | act action h => exact .inr (.inr ⟨rfl, Action.undisturbed h s.world⟩)
  | bindRoot v value => exact .inr (.inr ⟨rfl, hgrows rfl (s.world.grows_bindRoot v value)⟩)
  | setMetadata v metadata => exact .inr (.inr ⟨rfl, hgrows rfl (s.world.grows_setMetadata v metadata)⟩)
  | setDynamic v => exact .inr (.inr ⟨rfl, hgrows rfl (s.world.grows_setDynamic v)⟩)
  | enter target =>
    have hsteps := Expr.steps_enterMonitor (fun _ => True) target
    obtain ⟨made, h⟩ := World.growsTo_of_steps (hsteps.mono (fun _ _ => World.growsTo_acts.step) s.world)
    have hsame := World.Same.of_steps (hsteps.mono (fun _ _ => World.sameBindings_acts.step) s.world)
    exact .inr (.inr ⟨rfl, hgrows hsame h⟩)
  | elsewhere actions => exact .inr (.inr ⟨rfl, undisturbed_elsewhere s.world actions⟩)

/-! ### Soundness along a run -/

theorem sound_perform (h : s.world.Sound) (action : ThreadAction) : (s.perform action).world.Sound := by
  rcases s.perform_cases action with ⟨bindings, -, hdynamic, hs⟩ | ⟨before, held, after, -, -, hs⟩ | ⟨-, hs⟩
  · rw [hs]
    refine ⟨World.stacked_pushAll h.stacked bindings, fun v hv => ?_⟩
    rw [pushed, World.cell_pushAll]
    rw [pushed, World.overrides_pushAll] at hv
    by_cases hold : s.world.overrides v = []
    · -- a var that had no override before is one of those that were pushed
      have hgiven : World.given bindings v ≠ [] := by simpa [hold] using hv
      have hmem : v ∈ bindings.map (·.1) := by
        rw [← List.count_pos_iff, ← World.length_given]
        exact List.length_pos_iff.mpr hgiven
      obtain ⟨b, hb, rfl⟩ := List.mem_map.mp hmem
      exact hdynamic b hb
    · exact h.dynamic v hold
  · rw [hs]
    refine ⟨World.stacked_dropGuard h.stacked held.guard, fun v hv => ?_⟩
    rw [World.cell_dropGuard]
    refine h.dynamic v fun hnone => hv ?_
    rw [World.overrides_dropGuard, hnone, List.drop_nil]
  · exact hs.sound h

theorem sound_run (h : s.world.Sound) (actions : List ThreadAction) : (s.run actions).world.Sound := by
  induction actions generalizing s with
  | nil => exact h
  | cons action rest ih => exact ih (sound_perform h action)

theorem sound_start {w : World} (hw : w.bindings = []) : w.Sound := by
  have hnone : ∀ v, w.overrides v = [] := fun v => by rw [World.overrides, hw]; rfl
  exact ⟨by simp [hw], fun v hv => (hv (hnone v)).elim⟩

/-! ### Counting -/

/-- How often the guards that are left in some places name a var. -/
def occurrences (guards : List (Option HeldGuard)) (v : Var) : Nat :=
  (guards.reduceOption.flatMap (·.guard.vars)).count v

theorem occurrences_append (guards guards' : List (Option HeldGuard)) (v : Var) :
    occurrences (guards ++ guards') v = occurrences guards v + occurrences guards' v := by
  simp [occurrences, List.reduceOption_append]

theorem occurrences_some (held : HeldGuard) (guards : List (Option HeldGuard)) (v : Var) :
    occurrences (some held :: guards) v = held.guard.vars.count v + occurrences guards v := by
  simp [occurrences]

theorem occurrences_none (guards : List (Option HeldGuard)) (v : Var) :
    occurrences (none :: guards) v = occurrences guards v := by
  simp [occurrences]

/-- The guards of the first state are in their places still, and over its overrides there are as many more as the
guards in later places name. -/
def Above (base s : ThreadState) : Prop :=
  ∃ later, s.guards = base.guards ++ later ∧
    ∀ v, ∃ above, s.world.overrides v = above ++ base.world.overrides v ∧ above.length = occurrences later v

theorem Above.refl (s : ThreadState) : s.Above s :=
  ⟨[], (List.append_nil _).symm, fun _ => ⟨[], rfl, rfl⟩⟩

theorem Above.perform (h : base.Above s) (haction : ∀ place < base.guards.length, action ≠ .drop place) :
    base.Above (s.perform action) := by
  obtain ⟨later, hguards, hstacks⟩ := h
  rcases s.perform_cases action with ⟨bindings, -, -, hs⟩ | ⟨before, held, after, rfl, hsplit, hs⟩ | ⟨hsame, hs⟩
  · rw [hs]
    refine ⟨later ++ [some (.of bindings)], by rw [pushed, hguards, List.append_assoc], fun v => ?_⟩
    obtain ⟨above, habove, hlength⟩ := hstacks v
    refine ⟨World.given bindings v ++ above, ?_, ?_⟩
    · rw [pushed, World.overrides_pushAll, habove, List.append_assoc]
    · rw [List.length_append, hlength, World.length_given, occurrences_append, occurrences_some, Nat.add_comm]
      rfl
  · -- the dropped guard is in a later place, so there is enough above to take off
    have hbefore : base.guards.length ≤ before.length := by
      by_contra hlt
      exact haction before.length (Nat.lt_of_not_le hlt) rfl
    rw [hsplit] at hguards
    obtain ⟨between, rfl, rfl⟩ :
        ∃ between, before = base.guards ++ between ∧ later = between ++ some held :: after := by
      rcases List.append_eq_append_iff.mp hguards with ⟨between, hbase, hrest⟩ | ⟨between, hbetween, hrest⟩
      · have hnil : between = [] := by
          rw [hbase, List.length_append] at hbefore
          exact List.length_eq_zero_iff.mp (by omega)
        subst hnil
        exact ⟨[], by simpa using hbase.symm, by simpa using hrest.symm⟩
      · exact ⟨between, hbetween, hrest⟩
    rw [hs]
    refine ⟨between ++ none :: after, List.append_assoc _ _ _, fun v => ?_⟩
    obtain ⟨above, habove, hlength⟩ := hstacks v
    rw [occurrences_append, occurrences_some] at hlength
    have hcount : held.guard.vars.count v ≤ above.length := by omega
    refine ⟨above.drop (held.guard.vars.count v), ?_, ?_⟩
    · rw [World.overrides_dropGuard, habove, List.drop_append_of_le_length hcount]
    · rw [List.length_drop, hlength, occurrences_append, occurrences_none]
      omega
  · refine ⟨later, hsame.trans hguards, fun v => ?_⟩
    rw [World.overrides_congr hs.bindings]
    exact hstacks v

theorem Above.run (h : base.Above s) {actions : List ThreadAction}
    (hactions : ∀ place < base.guards.length, .drop place ∉ actions) : base.Above (s.run actions) := by
  induction actions generalizing s with
  | nil => exact h
  | cons action rest ih =>
    refine ih (h.perform fun place hplace haction => ?_) fun place hplace hmem => ?_
    · exact hactions place hplace (haction ▸ List.mem_cons_self)
    · exact hactions place hplace (List.mem_cons_of_mem _ hmem)

/-- From a thread's start on, a var has as many overrides as the guards that are left name it. -/
theorem length_overrides_run {w : World} (hw : w.bindings = []) (actions : List ThreadAction) (v : Var) :
    ((run { world := w } actions).world.overrides v).length = occurrences (run { world := w } actions).guards v := by
  have hnone : ∀ place < ({ world := w } : ThreadState).guards.length, .drop place ∉ actions := by simp
  obtain ⟨later, hguards, hstacks⟩ := (Above.refl { world := w }).run hnone
  obtain ⟨above, habove, hlength⟩ := hstacks v
  have hnone : w.overrides v = [] := by rw [World.overrides, hw]; rfl
  have hlater : (run { world := w } actions).guards = later := hguards
  rw [hlater, habove, hnone, List.append_nil, hlength]

theorem occurrences_eq_zero {guards : List (Option HeldGuard)} (h : ∀ held, some held ∉ guards) (v : Var) :
    occurrences guards v = 0 := by
  have hnone : guards.reduceOption = [] := by
    rw [List.eq_nil_iff_forall_not_mem]
    intro held hheld
    exact h held (List.reduceOption_mem_iff.mp hheld)
  rw [occurrences, hnone]
  rfl

/-- What was pushed under guards that are gone by now, and over those that are left, is taken off by its guard. -/
theorem restored_by_drop {bindings : List (Var × Value)} (h : ∀ b ∈ bindings, (s.world.cell b.1).dynamic = true)
    {later : List ThreadAction} (hlater : ∀ place ≤ s.guards.length, .drop place ∉ later)
    (hgone : ∀ place > s.guards.length, ((s.perform (.push bindings)).run later).guard? place = none) (v : Var) :
    (((s.perform (.push bindings)).run later).perform (.drop s.guards.length)).world.overrides v =
      s.world.overrides v := by
  rw [perform_push h] at hgone ⊢
  have hkept : ∀ place < (s.pushed bindings).guards.length, .drop place ∉ later := by
    intro place hplace
    rw [pushed, List.length_append, List.length_singleton] at hplace
    exact hlater place (Nat.le_of_lt_succ hplace)
  have habove := (Above.refl (s.pushed bindings)).run hkept
  generalize (s.pushed bindings).run later = t at habove hgone ⊢
  obtain ⟨rest, hguards, hstacks⟩ := habove
  have hguards : t.guards = s.guards ++ some (.of bindings) :: rest := by
    rw [hguards, pushed, List.append_assoc]
    rfl
  -- nothing is left in the later places, so the guard finds its own overrides innermost
  have hrest : occurrences rest v = 0 := by
    refine occurrences_eq_zero (fun held hheld => ?_) v
    obtain ⟨i, hi⟩ := List.mem_iff_getElem?.mp hheld
    have hplace := hgone (s.guards.length + (i + 1)) (by omega)
    rw [guard?, hguards, List.getElem?_append_right (Nat.le_add_right _ _), Nat.add_sub_cancel_left,
      List.getElem?_cons_succ, hi] at hplace
    cases hplace
  have hheld : t.guard? s.guards.length = some (.of bindings) := guard?_of_split hguards
  obtain ⟨above, hoverrides, hlength⟩ := hstacks v
  have hnone : above = [] := List.length_eq_zero_iff.mp (hlength.trans hrest)
  have hlength : (HeldGuard.of bindings).guard.vars.count v = (World.given bindings v).length :=
    (World.length_given bindings v).symm
  rw [perform_drop hheld, World.overrides_dropGuard, hoverrides, hnone, List.nil_append, pushed,
    World.overrides_pushAll, hlength, List.drop_left]

/-- A var that is neither pushed nor named by the dropped guard has the overrides and the value that it had. -/
theorem other_var_kept (s : ThreadState) (v : Var) :
    (∀ bindings : List (Var × Value), (∀ b ∈ bindings, b.1 ≠ v) →
      (s.perform (.push bindings)).world.overrides v = s.world.overrides v ∧
        (s.perform (.push bindings)).world.deref v = s.world.deref v) ∧
    ∀ place, (∀ held, s.guard? place = some held → v ∉ held.guard.vars) →
      (s.perform (.drop place)).world.overrides v = s.world.overrides v ∧
        (s.perform (.drop place)).world.deref v = s.world.deref v := by
  refine ⟨fun bindings hbindings => ?_, fun place hplace => ?_⟩
  · rcases pushBindings_cases bindings s.world with ⟨hdynamic, -⟩ | ⟨b, -, -, hpush⟩
    · have hgiven : World.given bindings v = [] := by
        rw [← List.length_eq_zero_iff, World.length_given, List.count_eq_zero]
        intro hmem
        obtain ⟨b, hb, hbv⟩ := List.mem_map.mp hmem
        exact hbindings b hb hbv
      have hkept : (s.pushed bindings).world.overrides v = s.world.overrides v := by
        rw [pushed, World.overrides_pushAll, hgiven, List.nil_append]
      rw [perform_push hdynamic]
      exact ⟨hkept, World.deref_congr (World.cell_pushAll s.world bindings v) hkept⟩
    · rw [perform, hpush]
      exact ⟨rfl, rfl⟩
  · cases hheld : s.guard? place with
    | none =>
      rw [perform, hheld]
      exact ⟨rfl, rfl⟩
    | some held =>
      have hkept : (s.world.dropGuard held.guard).overrides v = s.world.overrides v := by
        rw [World.overrides_dropGuard, List.count_eq_zero.mpr (hplace held hheld), List.drop_zero]
      rw [perform_drop hheld]
      exact ⟨hkept, World.deref_congr (World.cell_dropGuard s.world held.guard v) hkept⟩

end ThreadState

/-! ### Main result -/

/-- Along every run of a thread, with guards dropped in any order: a push succeeds exactly if all its vars are dynamic,
and changes nothing otherwise. A var has as many overrides as the live guards name it, so none is left without live
guards, and its value is the innermost override, or else the root. A guard that is dropped after all later ones, and
before any earlier one, leaves every var with the overrides it had before the push. Other vars are not concerned. -/
theorem overrides_follow_guards (w : World) (hw : w.bindings = []) (actions : List ThreadAction) :
    let s := ThreadState.run { world := w } actions
    (∀ bindings, ((∃ guard w', pushBindings bindings s.world = .ok guard w') ↔
        ∀ b ∈ bindings, (s.world.cell b.1).dynamic = true) ∧
      ∀ err w', pushBindings bindings s.world = .error err w' → w' = s.world) ∧
    (∀ v, (s.world.overrides v).length = (s.live.flatMap (·.guard.vars)).count v) ∧ s.world.Sound ∧
    (∀ v, s.world.deref v =
      ((s.world.overrides v).head?.or (s.world.cell v).root).elim (.error (.runtime (.unbound v))) .ok) ∧
    (s.live = [] → s.world.bindings = []) ∧
    (∀ bindings later, (∀ b ∈ bindings, (s.world.cell b.1).dynamic = true) →
      let t := (s.perform (.push bindings)).run later
      (∀ place ≤ s.guards.length, .drop place ∉ later) → (∀ place > s.guards.length, t.guard? place = none) →
        ∀ v, (t.perform (.drop s.guards.length)).world.overrides v = s.world.overrides v) ∧
    ∀ v, (∀ bindings : List (Var × Value), (∀ b ∈ bindings, b.1 ≠ v) →
        (s.perform (.push bindings)).world.overrides v = s.world.overrides v ∧
          (s.perform (.push bindings)).world.deref v = s.world.deref v) ∧
      ∀ place, (∀ held, s.guard? place = some held → v ∉ held.guard.vars) →
        (s.perform (.drop place)).world.overrides v = s.world.overrides v ∧
          (s.perform (.drop place)).world.deref v = s.world.deref v := by
  intro s
  have hsound : s.world.Sound := ThreadState.sound_run (ThreadState.sound_start hw) actions
  have hcounts := ThreadState.length_overrides_run hw actions
  refine ⟨fun bindings => ?_, hcounts, hsound, hsound.deref, fun hlive => ?_, ?_, s.other_var_kept⟩
  · rcases pushBindings_cases bindings s.world with ⟨hdynamic, hpush⟩ | ⟨b, hb, hstatic, hpush⟩
    · rw [hpush]
      refine ⟨⟨fun _ => hdynamic, fun _ => ⟨_, _, rfl⟩⟩, ?_⟩
      rintro err w' ⟨⟩
    · rw [hpush]
      refine ⟨⟨?_, fun hdynamic => ?_⟩, ?_⟩
      · rintro ⟨guard, w', ⟨⟩⟩
      · rw [hdynamic b hb] at hstatic
        cases hstatic
      · rintro err w' ⟨⟩
        rfl
  · refine World.bindings_eq_nil hsound.stacked fun v => ?_
    have hlength : (s.world.overrides v).length = (s.live.flatMap (·.guard.vars)).count v := hcounts v
    rw [hlive] at hlength
    exact List.length_eq_zero_iff.mp hlength
  · intro bindings later hdynamic t hlater hgone v
    exact ThreadState.restored_by_drop hdynamic hlater hgone v

/-- Two vars of one name. The later guards are dropped in the order of their pushes, and one of them binds the other
var; then the first guard takes its two overrides off. -/
theorem overrides_follow_guards_same_name :
    let x : Var := { id := 0, ns := "user", name := "*x*" }
    let y : Var := { id := 1, ns := "user", name := "*x*" }
    let w := World.start {} .watching
    let opening : List ThreadAction := [.setDynamic x, .setDynamic y]
    let bindings : List (Var × Value) := [(x, .int 1), (x, .int 2)]
    let later : List ThreadAction := [.push [(y, .int 3), (x, .int 4)], .push [(x, .int 5)], .drop 1, .drop 2]
    let s := ThreadState.run { world := w } opening
    let t := (s.perform (.push bindings)).run later
    x.qualifiedName = y.qualifiedName ∧ w.bindings = [] ∧ (t.world.overrides x).length = 2 ∧
      (t.perform (.drop 0)).world.overrides x = s.world.overrides x := by
  intro x y w opening bindings later s t
  obtain ⟨-, -, -, -, -, hrestored, -⟩ := overrides_follow_guards w rfl opening
  have hdynamic : ∀ b ∈ bindings, (s.world.cell b.1).dynamic = true := by decide +kernel
  have hstart : s.guards.length = 0 := by decide +kernel
  have hlater : ∀ place ≤ s.guards.length, ThreadAction.drop place ∉ later := by
    intro place hplace
    obtain rfl : place = 0 := by omega
    simp [later]
  have hgone : ∀ place > s.guards.length, t.guard? place = none := by
    intro place hplace
    have hdropped : (t.guard? 1).isNone = true ∧ (t.guard? 2).isNone = true := by decide +kernel
    have hlength : t.guards.length = 3 := by decide +kernel
    rcases Nat.lt_or_ge place 3 with hlt | hge
    · obtain rfl | rfl : place = 1 ∨ place = 2 := by omega
      · exact Option.isNone_iff_eq_none.mp hdropped.1
      · exact Option.isNone_iff_eq_none.mp hdropped.2
    · rw [ThreadState.guard?, List.getElem?_eq_none (by omega), Option.join_none]
  have hback : (t.perform (.drop s.guards.length)).world.overrides x = s.world.overrides x :=
    hrestored bindings later hdynamic hlater hgone x
  rw [hstart] at hback
  exact ⟨rfl, rfl, by decide +kernel, hback⟩

end LispCore
