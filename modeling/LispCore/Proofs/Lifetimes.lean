import LispCore.Proofs.Overrides

/-! # How long an override lasts

A guard takes off as many overrides of a var as it put on, but it takes the innermost ones. So the value of a var is
that of the latest live guard as long as the guards that name the var are dropped innermost first
(`ThreadState.nested`). The first guard that is dropped under a later one takes the later one's overrides and leaves
its own. -/

namespace LispCore
namespace ThreadState
variable {s : ThreadState} {v : Var} {action : ThreadAction} {guards : List (Option HeldGuard)}

/-- The value that a var was given by the latest guard that was not dropped and binds it. -/
def promised? (s : ThreadState) (v : Var) : Option Value :=
  s.live.reverse.findSome? fun held => (World.given held.bindings v).head?

/-- The action drops no guard that names the var while one in a later place does. -/
def dropsInnermost (s : ThreadState) (v : Var) : ThreadAction → Bool
  | .drop place =>
    (s.guard? place).all fun held =>
      !held.guard.vars.contains v || occurrences (s.guards.drop (place + 1)) v == 0
  | _ => true

/-- Of the guards that name the var, the actions drop the innermost first. -/
def nested (s : ThreadState) (v : Var) : List ThreadAction → Bool
  | [] => true
  | action :: rest => s.dropsInnermost v action && (s.perform action).nested v rest

/-! ### What the live guards stand for -/

/-- The values that the guards left in some places gave to a var, the latest first. -/
def lasting (guards : List (Option HeldGuard)) (v : Var) : List Value :=
  guards.reduceOption.reverse.flatMap fun held => World.given held.bindings v

theorem promised?_eq (s : ThreadState) (v : Var) : s.promised? v = (lasting s.guards v).head? :=
  List.head?_flatMap.symm

theorem lasting_append (guards guards' : List (Option HeldGuard)) (v : Var) :
    lasting (guards ++ guards') v = lasting guards' v ++ lasting guards v := by
  simp [lasting, List.reduceOption_append]

theorem lasting_some (held : HeldGuard) (guards : List (Option HeldGuard)) (v : Var) :
    lasting (some held :: guards) v = lasting guards v ++ World.given held.bindings v := by
  simp [lasting]

theorem lasting_none (guards : List (Option HeldGuard)) (v : Var) : lasting (none :: guards) v = lasting guards v := by
  simp [lasting]

/-- Each guard names the vars of the bindings that it was given for. -/
def Honest (guards : List (Option HeldGuard)) : Prop :=
  ∀ held, some held ∈ guards → held.guard.vars = held.bindings.map (·.1)

theorem honest_perform (h : Honest s.guards) (action : ThreadAction) : Honest (s.perform action).guards := by
  rcases s.perform_cases action with ⟨bindings, -, -, hs⟩ | ⟨before, held, after, -, hsplit, hs⟩ | ⟨hsame, -⟩
  · rw [hs]
    intro other hother
    rcases List.mem_append.mp hother with hold | hnew
    · exact h other hold
    · obtain rfl : other = .of bindings := by simpa using hnew
      rfl
  · rw [hs]
    rw [hsplit] at h
    intro other hother
    refine h other ?_
    simp only [List.mem_append, List.mem_cons] at hother ⊢
    rcases hother with hbefore | hnone | hafter
    · exact .inl hbefore
    · cases hnone
    · exact .inr (.inr hafter)
  · rw [hsame]
    exact h

theorem honest_run (h : Honest s.guards) (actions : List ThreadAction) : Honest (s.run actions).guards := by
  induction actions generalizing s with
  | nil => exact h
  | cons action rest ih => exact ih (honest_perform h action)

theorem length_lasting (h : Honest guards) (v : Var) : (lasting guards v).length = occurrences guards v := by
  induction guards with
  | nil => rfl
  | cons guard rest ih =>
    have hrest := ih fun held hheld => h held (List.mem_cons_of_mem _ hheld)
    cases guard with
    | none => rw [lasting_none, occurrences_none, hrest]
    | some held =>
      have hvars := h held List.mem_cons_self
      rw [lasting_some, occurrences_some, List.length_append, hrest, World.length_given, hvars, Nat.add_comm]

theorem occurrences_eq_zero_iff (s : ThreadState) (v : Var) :
    occurrences s.guards v = 0 ↔ ∀ held ∈ s.live, v ∉ held.guard.vars := by
  rw [occurrences, List.count_eq_zero, List.mem_flatMap]
  constructor
  · intro h held hheld hv
    exact h ⟨held, hheld, hv⟩
  · rintro h ⟨held, hheld, hv⟩
    exact h held hheld hv

/-! ### Guards dropped innermost first -/

theorem dropsInnermost_drop {before after : List (Option HeldGuard)} {held : HeldGuard}
    (hguards : s.guards = before ++ some held :: after) : s.dropsInnermost v (.drop before.length) = true ↔
      held.guard.vars.count v = 0 ∨ occurrences after v = 0 := by
  have hafter : s.guards.drop (before.length + 1) = after := by
    rw [hguards, ← List.drop_drop, List.drop_left, List.drop_one, List.tail_cons]
  rw [dropsInnermost, guard?_of_split hguards, hafter]
  simp [List.count_eq_zero]

/-- One action keeps the overrides of a var what the live guards stand for, unless it drops a guard under a later
one. -/
theorem overrides_eq_lasting_perform (hhonest : Honest s.guards) (h : s.world.overrides v = lasting s.guards v)
    (hinnermost : s.dropsInnermost v action = true) :
    (s.perform action).world.overrides v = lasting (s.perform action).guards v := by
  rcases s.perform_cases action with ⟨bindings, -, -, hs⟩ | ⟨before, held, after, rfl, hsplit, hs⟩ | ⟨hsame, hs⟩
  · rw [hs, pushed, World.overrides_pushAll, h, lasting_append, lasting_some]
    rfl
  · rw [hsplit] at hhonest
    have hcount : held.guard.vars.count v = (World.given held.bindings v).length := by
      rw [World.length_given, hhonest held (by simp)]
    rw [hs, World.overrides_dropGuard, h, hsplit, lasting_append, lasting_some, lasting_append, lasting_none, hcount]
    rcases (dropsInnermost_drop hsplit).mp hinnermost with hzero | hzero
    · -- the guard does not name the var
      rw [hcount] at hzero
      rw [hzero, List.length_eq_zero_iff.mp hzero, List.append_nil, List.drop_zero]
    · have hafter : lasting after v = [] := by
        rw [← List.length_eq_zero_iff, length_lasting (fun other hother => hhonest other (by simp [hother])), hzero]
      rw [hafter, List.nil_append, List.nil_append, List.drop_left]
  · rw [hsame, World.overrides_congr hs.bindings, h]

theorem overrides_eq_lasting_run {actions : List ThreadAction} (hhonest : Honest s.guards)
    (h : s.world.overrides v = lasting s.guards v) (hnested : s.nested v actions = true) :
    (s.run actions).world.overrides v = lasting (s.run actions).guards v := by
  induction actions generalizing s with
  | nil => exact h
  | cons action rest ih =>
    obtain ⟨hfirst, hrest⟩ := Bool.and_eq_true_iff.mp hnested
    exact ih (honest_perform hhonest action) (overrides_eq_lasting_perform hhonest h hfirst) hrest

/-- A guard that is dropped under a later one leaves another value innermost, if no two overrides are equal. -/
theorem binding_ne_promised (hhonest : Honest s.guards) (h : s.world.overrides v = lasting s.guards v)
    (hdistinct : (lasting s.guards v).Nodup) (hunder : s.dropsInnermost v action = false) :
    (s.perform action).world.binding? v ≠ (s.perform action).promised? v := by
  obtain ⟨place, rfl⟩ : ∃ place, action = .drop place := by
    cases action with
    | drop place => exact ⟨place, rfl⟩
    | _ => cases hunder
  cases hplace : s.guard? place with
  | none =>
    rw [dropsInnermost, hplace] at hunder
    cases hunder
  | some held =>
    obtain ⟨before, after, hsplit, rfl, hset⟩ := guard?_eq_some hplace
    have hlater : ¬(held.guard.vars.count v = 0 ∨ occurrences after v = 0) := by
      rw [← dropsInnermost_drop hsplit, hunder]
      exact Bool.false_ne_true
    rw [hsplit] at hhonest
    have hcount : held.guard.vars.count v = (World.given held.bindings v).length := by
      rw [World.length_given, hhonest held (by simp)]
    have hafter : (lasting after v).length = occurrences after v :=
      length_lasting (fun other hother => hhonest other (by simp [hother])) v
    rw [perform_drop hplace, hset, World.binding?_eq, promised?_eq, World.overrides_dropGuard, h, lasting_append,
      lasting_none, List.head?_drop]
    rw [hsplit, lasting_append, lasting_some] at hdistinct ⊢
    generalize World.given held.bindings v = own at hcount hdistinct ⊢
    generalize lasting after v = latest at hafter hdistinct ⊢
    -- the guard's own number of overrides is gone, so the first of the later ones is
    have hbound : held.guard.vars.count v < (latest ++ own ++ lasting before v).length := by
      rw [List.length_append, List.length_append]
      omega
    have hfirst : (latest ++ lasting before v).head? = (latest ++ own ++ lasting before v)[0]? := by
      obtain ⟨value, rest, rfl⟩ := List.exists_cons_of_length_pos (l := latest) (by omega)
      rfl
    rw [hfirst]
    intro heq
    have hzero := (List.getElem?_inj hbound hdistinct).mp heq
    omega

end ThreadState

/-! ### Main result -/

/-- In whatever order a thread drops its guards, a var has an override as long as a live guard names it. Its value is
the one that the latest of these guards gave it, provided that the guards that name it have been dropped innermost first
since a time at which there were none. With distinct overrides, the first guard that is dropped under a later one makes
it another. -/
theorem binding_of_latest_guard (w : World) (hw : w.bindings = []) (earlier : List ThreadAction) (v : Var) :
    let s := ThreadState.run { world := w } earlier
    (s.world.binding? v = none ↔ ∀ held ∈ s.live, v ∉ held.guard.vars) ∧
      ((∀ held ∈ s.live, v ∉ held.guard.vars) → ∀ later, s.nested v later = true →
        let t := s.run later
        t.world.binding? v = t.promised? v ∧
          ∀ action, t.dropsInnermost v action = false → (t.world.overrides v).Nodup →
            (t.perform action).world.binding? v ≠ (t.perform action).promised? v) := by
  intro s
  have hhonest : ThreadState.Honest s.guards := ThreadState.honest_run (by simp [ThreadState.Honest]) earlier
  have hcount : (s.world.overrides v).length = ThreadState.occurrences s.guards v :=
    ThreadState.length_overrides_run hw earlier v
  rw [← ThreadState.occurrences_eq_zero_iff]
  constructor
  · rw [World.binding?_eq, List.head?_eq_none_iff, ← List.length_eq_zero_iff, hcount]
  · intro hnone later hnested t
    -- nothing is left of earlier overrides, and nothing is to be left
    have hstart : s.world.overrides v = ThreadState.lasting s.guards v := by
      have hlasting := ThreadState.length_lasting hhonest v
      rw [List.length_eq_zero_iff.mp (hcount.trans hnone), List.length_eq_zero_iff.mp (hlasting.trans hnone)]
    have ht : t.world.overrides v = ThreadState.lasting t.guards v :=
      ThreadState.overrides_eq_lasting_run hhonest hstart hnested
    refine ⟨by rw [World.binding?_eq, ThreadState.promised?_eq, ht], fun action hunder hdistinct => ?_⟩
    rw [ht] at hdistinct
    exact ThreadState.binding_ne_promised (ThreadState.honest_run hhonest later) ht hdistinct hunder

/-- The earlier of two guards is dropped first. The value is that of the dropped guard then, and what the live one gave
is gone. -/
theorem binding_of_dropped_guard :
    let x : Var := { id := 0, ns := "user", name := "*x*" }
    let s := ThreadState.run { world := World.start {} .watching }
      [.setDynamic x, .push [(x, .int 1)], .push [(x, .int 2)], .drop 0]
    s.live.length = 1 ∧ (s.promised? x).any (· == .int 2) = true ∧ (s.world.binding? x).any (· == .int 1) = true ∧
      s.world.binding? x ≠ s.promised? x := by
  intro x s
  have hpromised : (s.promised? x).any (· == .int 1) = false := by decide +kernel
  have hbinding : (s.world.binding? x).any (· == .int 1) = true := by decide +kernel
  refine ⟨by decide +kernel, by decide +kernel, hbinding, fun heq => ?_⟩
  rw [heq, hpromised] at hbinding
  cases hbinding

/-- A guard of another var may be dropped under the later guards, and the value is that of the latest guard. -/
theorem binding_of_latest_guard_nested :
    let x : Var := { id := 0, ns := "user", name := "*x*" }
    let y : Var := { id := 1, ns := "user", name := "*y*" }
    let w := World.start {} .watching
    let earlier : List ThreadAction := [.setDynamic x, .setDynamic y]
    let later : List ThreadAction :=
      [.push [(x, .int 1)], .push [(y, .int 2)], .push [(x, .int 3), (x, .int 4)], .drop 1]
    let s := ThreadState.run { world := w } earlier
    let t := s.run later
    w.bindings = [] ∧ s.nested x later = true ∧ t.world.binding? x = t.promised? x ∧
      (t.promised? x).any (· == .int 4) = true ∧
      (t.perform (.drop 0)).world.binding? x ≠ (t.perform (.drop 0)).promised? x := by
  intro x y w earlier later s t
  obtain ⟨hnone, hlatest⟩ := binding_of_latest_guard w rfl earlier x
  have hstart : ∀ held ∈ s.live, x ∉ held.guard.vars := by
    have hlive : s.live.isEmpty = true := by decide +kernel
    rw [List.isEmpty_iff.mp hlive]
    simp
  have hnested : s.nested x later = true := by decide +kernel
  obtain ⟨hvalue, hunder⟩ := hlatest hstart later hnested
  have hdistinct : (t.world.overrides x).Nodup := by
    let marks : Value → List Bool := fun value => [1, 3, 4].map fun n => value == .int n
    have hmarks : ((t.world.overrides x).map marks).Nodup := by decide +kernel
    exact List.Pairwise.of_map marks (fun _ _ hne heq => hne (congrArg marks heq)) hmarks
  exact ⟨rfl, hnested, hvalue, by decide +kernel, hunder _ (by decide +kernel) hdistinct⟩

end LispCore
