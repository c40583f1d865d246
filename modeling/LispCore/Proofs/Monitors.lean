import LispCore.Proofs.Equality
import LispCore.Monitor

/-! # Monitors and threads

Threads call to enter monitors, and a call comes to its end when the monitor is free or the thread's own. Whatever the
order, the table of monitors is an account of the enters that were completed (`MonitorState.Accounted`): for each value,
those on values equal to it are all by the owner of its monitor, and their number is its depth. -/

namespace LispCore

namespace Table
variable {κ α : Type} [BEq κ]

theorem exists_mem_of_mem_modify {t : Table κ α} {k : κ} {f : α → α} {e : κ × α} (h : e ∈ modify t k f) :
    ∃ e' ∈ t, e'.1 = e.1 := by
  induction t with
  | nil => cases h
  | cons first rest ih =>
    unfold modify at h
    split at h
    · rcases List.mem_cons.mp h with rfl | h
      · exact ⟨first, List.mem_cons_self, rfl⟩
      · exact ⟨e, List.mem_cons_of_mem _ h, rfl⟩
    · rcases List.mem_cons.mp h with rfl | h
      · exact ⟨e, List.mem_cons_self, rfl⟩
      · obtain ⟨e', he', hkey⟩ := ih h
        exact ⟨e', List.mem_cons_of_mem _ he', hkey⟩

end Table

namespace Monitors
variable {ms ms' : Monitors} {thread : ThreadId} {target v : Value}

/-- Nil has no monitor. Another value's monitor is entered if it is free or the thread's own, and is kept otherwise. -/
theorem enter_cases (ms : Monitors) (thread : ThreadId) (target : Value) :
    (target = .nil ∧ enter ms thread target = .error .nilTarget) ∨
    target ≠ .nil ∧
      ((Table.get? ms target = none ∧
        enter ms thread target = .ok (Table.insert ms target { owner := thread, depth := 1 })) ∨
      ∃ m, Table.get? ms target = some m ∧
        ((m.owner = thread ∧
          enter ms thread target = .ok (Table.modify ms target fun m => { m with depth := m.depth + 1 })) ∨
        (m.owner ≠ thread ∧ enter ms thread target = .error .kept))) := by
  unfold enter
  split
  · exact .inl ⟨rfl, rfl⟩
  · next hne =>
    refine .inr ⟨hne, ?_⟩
    cases hget : Table.get? ms target with
    | none => exact .inl ⟨rfl, rfl⟩
    | some m =>
      refine .inr ⟨m, rfl, ?_⟩
      by_cases howner : m.owner = thread
      · exact .inl ⟨howner, if_pos howner⟩
      · exact .inr ⟨howner, if_neg howner⟩

/-- The monitor of a value after an enter: that of an equal value is the thread's, one deeper, and the others are as
they were. -/
theorem get?_enter (hms : ∀ e ∈ ms, e.1.Proper) (htarget : target.Proper) (h : enter ms thread target = .ok ms')
    (hv : v.Proper) : Table.get? ms' v =
      if v == target then some { owner := thread, depth := depth ms target + 1 } else Table.get? ms v := by
  rcases enter_cases ms thread target with
    ⟨-, henter⟩ | ⟨-, ⟨hget, henter⟩ | ⟨m, hget, ⟨howner, henter⟩ | ⟨-, henter⟩⟩⟩ <;>
    rw [henter] at h <;> cases h
  · rw [Value.beqOn_proper.get?_insert hms htarget _ hv, depth, hget]
    rfl
  · rw [Value.beqOn_proper.get?_modify hms htarget _ hv, depth, hget]
    split
    · next heq =>
      rw [Value.beqOn_proper.get?_congr hms hv htarget heq, hget, ← howner]
      rfl
    · rfl

theorem proper_enter (hms : ∀ e ∈ ms, e.1.Proper) (htarget : target.Proper) (h : enter ms thread target = .ok ms') :
    ∀ e ∈ ms', e.1.Proper := by
  intro e he
  rcases enter_cases ms thread target with ⟨-, henter⟩ | ⟨-, ⟨-, henter⟩ | ⟨m, -, ⟨-, henter⟩ | ⟨-, henter⟩⟩⟩ <;>
    rw [henter] at h <;> cases h
  · rcases Table.eq_or_mem_of_mem_insert he with rfl | he
    · exact htarget
    · exact hms e he
  · obtain ⟨e', he', hkey⟩ := Table.exists_mem_of_mem_modify he
    exact hkey ▸ hms e' he'

/-- The monitor of a value other than nil can be entered unless another thread holds it. -/
theorem enter_isOk_iff (ms : Monitors) (thread : ThreadId) (target : Value) :
    (∃ ms', enter ms thread target = .ok ms') ↔
      target ≠ .nil ∧ ∀ other, heldBy ms other target = true → other = thread := by
  rcases enter_cases ms thread target with
    ⟨hnil, henter⟩ | ⟨hne, ⟨hget, henter⟩ | ⟨m, hget, ⟨howner, henter⟩ | ⟨howner, henter⟩⟩⟩ <;>
    rw [henter]
  · simp [hnil]
  · simp [hne, heldBy, hget]
  · simp [hne, heldBy, hget, ← howner]
  · simp [hne, heldBy, hget, howner]

end Monitors

/-! ### Threads -/

/-- Monitors that threads enter, with the calls that have not come to an end and the enters that were completed, in
order. -/
structure MonitorState where
  monitors : Monitors := []
  waiting : List (ThreadId × Value) := []
  entered : List (ThreadId × Value) := []

/-- A thread that does not wait calls, or a call comes to its end: the monitor is entered, or there is none. -/
inductive MonitorStep : MonitorState → MonitorState → Prop where
  | call (s : MonitorState) (thread : ThreadId) (target : Value) : (∀ c ∈ s.waiting, c.1 ≠ thread) → target.Proper →
      MonitorStep s { s with waiting := s.waiting ++ [(thread, target)] }
  | complete (s : MonitorState) {thread : ThreadId} {target : Value} {monitors : Monitors} :
      (thread, target) ∈ s.waiting → Monitors.enter s.monitors thread target = .ok monitors →
      MonitorStep s
        { monitors, waiting := s.waiting.filter (·.1 != thread), entered := s.entered ++ [(thread, target)] }
  | fail (s : MonitorState) {thread : ThreadId} {target : Value} :
      (thread, target) ∈ s.waiting → Monitors.enter s.monitors thread target = .error .nilTarget →
      MonitorStep s { s with waiting := s.waiting.filter (·.1 != thread) }

namespace MonitorState
variable {s s' : MonitorState} {v : Value} {thread : ThreadId}

/-- The threads that entered the monitors of values equal to `v`, in order. -/
def enters (s : MonitorState) (v : Value) : List ThreadId :=
  (s.entered.filter fun c => v == c.2).map (·.1)

/-- The monitor of a value is an account of the enters on values equal to it. -/
structure Accounted (s : MonitorState) : Prop where
  keys : ∀ e ∈ s.monitors, e.1.Proper
  calls : ∀ c ∈ s.waiting, c.2.Proper
  account : ∀ v : Value, v.Proper → (Table.get? s.monitors v = none ∧ s.enters v = []) ∨
    ∃ m, Table.get? s.monitors v = some m ∧ 0 < m.depth ∧ s.enters v = List.replicate m.depth m.owner

theorem mem_enters : thread ∈ s.enters v ↔ ∃ c ∈ s.entered, c.1 = thread ∧ (v == c.2) = true := by
  simp only [enters, List.mem_map, List.mem_filter, and_assoc, and_comm]

theorem accounted_start : Accounted {} where
  keys := by simp
  calls := by simp
  account := fun _ _ => .inl ⟨rfl, rfl⟩

theorem Accounted.depth_eq (h : s.Accounted) (hv : v.Proper) : Monitors.depth s.monitors v = (s.enters v).length := by
  rcases h.account v hv with ⟨hget, henters⟩ | ⟨m, hget, -, henters⟩ <;> rw [Monitors.depth, hget, henters]
  · rfl
  · rw [List.length_replicate]
    rfl

theorem Accounted.heldBy_iff (h : s.Accounted) (hv : v.Proper) (thread : ThreadId) :
    Monitors.heldBy s.monitors thread v = true ↔ thread ∈ s.enters v := by
  rcases h.account v hv with ⟨hget, henters⟩ | ⟨m, hget, hdepth, henters⟩ <;> rw [Monitors.heldBy, hget, henters]
  · simp
  · rw [List.mem_replicate, Option.any_some, beq_iff_eq, eq_comm]
    exact (and_iff_right (Nat.pos_iff_ne_zero.mp hdepth)).symm

theorem Accounted.eq_of_mem (h : s.Accounted) (hv : v.Proper) {first second : ThreadId} (hfirst : first ∈ s.enters v)
    (hsecond : second ∈ s.enters v) : first = second := by
  rcases h.account v hv with ⟨-, henters⟩ | ⟨m, -, -, henters⟩ <;> rw [henters] at hfirst hsecond
  · cases hfirst
  · rw [List.eq_of_mem_replicate hfirst, List.eq_of_mem_replicate hsecond]

theorem enters_append (s : MonitorState) (thread : ThreadId) (target v : Value) (monitors : Monitors)
    (waiting : List (ThreadId × Value)) :
    enters { monitors, waiting, entered := s.entered ++ [(thread, target)] } v =
      s.enters v ++ if v == target then [thread] else [] := by
  rw [enters, enters, List.filter_append, List.map_append]
  cases heq : v == target <;> simp [heq]

theorem Accounted.step (h : s.Accounted) (hstep : MonitorStep s s') : s'.Accounted := by
  have hfewer : ∀ thread, ∀ c ∈ s.waiting.filter (·.1 != thread), c.2.Proper :=
    fun thread c hc => h.calls c (List.mem_of_mem_filter hc)
  cases hstep with
  | call thread target hfree htarget =>
    refine ⟨h.keys, fun c hc => ?_, h.account⟩
    rcases List.mem_append.mp hc with hc | hc
    · exact h.calls c hc
    · rw [List.mem_singleton.mp hc]
      exact htarget
  | @complete thread target monitors hcall henter =>
    have htarget : target.Proper := h.calls _ hcall
    refine ⟨Monitors.proper_enter h.keys htarget henter, hfewer thread, fun v hv => ?_⟩
    rw [enters_append, Monitors.get?_enter h.keys htarget henter hv]
    by_cases heq : (v == target) = true
    · -- the enters so far are the owner's, and the thread is the owner if there are any
      have hsame : Table.get? s.monitors v = Table.get? s.monitors target :=
        Value.beqOn_proper.get?_congr h.keys hv htarget heq
      refine .inr ⟨_, if_pos heq, Nat.succ_pos _, ?_⟩
      rw [if_pos heq, List.replicate_succ']
      congr 1
      rcases h.account v hv with ⟨hget, henters⟩ | ⟨m, hget, -, henters⟩
      · rw [henters, Monitors.depth, ← hsame, hget]
        rfl
      · obtain ⟨-, hheld⟩ := (Monitors.enter_isOk_iff s.monitors thread target).mp ⟨monitors, henter⟩
        have howner : m.owner = thread := hheld m.owner (by simp [Monitors.heldBy, ← hsame, hget])
        rw [henters, Monitors.depth, ← hsame, hget, howner]
        rfl
    · rw [if_neg heq, if_neg heq, List.append_nil]
      exact h.account v hv
  | @fail thread target hcall henter => exact ⟨h.keys, hfewer thread, h.account⟩

theorem Accounted.run (h : s.Accounted) (hsteps : Relation.ReflTransGen MonitorStep s s') : s'.Accounted := by
  induction hsteps with
  | refl => exact h
  | tail _ hstep ih => exact ih.step hstep

/-- Completed enters are never taken back. -/
theorem entered_prefix (h : Relation.ReflTransGen MonitorStep s s') : s.entered <+: s'.entered := by
  induction h with
  | refl => exact List.prefix_rfl
  | tail _ hstep ih =>
    refine ih.trans ?_
    cases hstep with
    | call | fail => exact List.prefix_rfl
    | complete => exact List.prefix_append _ _

end MonitorState

/-! ### Main result -/

/-- Whatever threads call and in whatever order their calls come to an end: the depth of a value's monitor is the number
of completed enters on values equal to it, all of them by one thread, and this thread holds the monitor, from then on
and alone. A monitor can be entered just when no other thread holds it, and this concerns equal values only. A list and
a vector of the same items share a monitor, a handle has its own, and nil has none. -/
theorem monitors_account_for_enters {s : MonitorState} (h : Relation.ReflTransGen MonitorStep {} s) :
    (∀ v : Value, v.Proper →
      Monitors.depth s.monitors v = s.entered.countP (fun c => v == c.2) ∧
      (∀ thread, Monitors.heldBy s.monitors thread v = true ↔ ∃ c ∈ s.entered, c.1 = thread ∧ (v == c.2) = true) ∧
      (∀ c ∈ s.entered, ∀ c' ∈ s.entered, (v == c.2) = true → (v == c'.2) = true → c.1 = c'.1) ∧
      ((∃ thread, Monitors.heldBy s.monitors thread v = true) ↔ 0 < Monitors.depth s.monitors v) ∧
      ∀ s', Relation.ReflTransGen MonitorStep s s' → ∀ thread, Monitors.heldBy s.monitors thread v = true →
        Monitors.heldBy s'.monitors thread v = true) ∧
    (∀ thread (target : Value), target.Proper →
      ((∃ ms, Monitors.enter s.monitors thread target = .ok ms) ↔
        target ≠ .nil ∧ ∀ other, Monitors.heldBy s.monitors other target = true → other = thread) ∧
      ∀ ms, Monitors.enter s.monitors thread target = .ok ms → ∀ v : Value, v.Proper → (v == target) = false →
        Monitors.depth ms v = Monitors.depth s.monitors v ∧
          ∀ other, Monitors.heldBy ms other v = Monitors.heldBy s.monitors other v) ∧
    (∀ thread, Monitors.enter s.monitors thread .nil = .error .nilTarget) ∧
    (∀ w : World, enterMonitor .nil w = .error (.of (.runtime .nilMonitor)) w) ∧
    (∀ items, Table.get? s.monitors (.list items) = Table.get? s.monitors (.vector items)) ∧
    ∀ v : Value, (∀ x : Var, (.var x == v) = true ↔ v = .var x) ∧ (∀ f : Native, (.func f == v) = true ↔ v = .func f) ∧
      ∀ o : HostObject, (.object o == v) = true ↔ v = .object o := by
  have haccount := MonitorState.accounted_start.run h
  refine ⟨fun v hv => ⟨?_, fun thread => ?_, fun c hc c' hc' heq heq' => ?_, ?_, fun s' hsteps thread hheld => ?_⟩,
    fun thread target htarget => ⟨Monitors.enter_isOk_iff _ _ _, fun ms henter v hv hne => ?_⟩, fun _ => rfl,
    fun _ => rfl, fun items => ?_, fun v => ⟨fun x => ?_, fun f => ?_, fun o => ?_⟩⟩
  · rw [haccount.depth_eq hv, MonitorState.enters, List.length_map, List.countP_eq_length_filter]
  · rw [haccount.heldBy_iff hv, MonitorState.mem_enters]
  · exact haccount.eq_of_mem hv (MonitorState.mem_enters.mpr ⟨c, hc, rfl, heq⟩)
      (MonitorState.mem_enters.mpr ⟨c', hc', rfl, heq'⟩)
  · simp only [haccount.heldBy_iff hv, haccount.depth_eq hv, List.length_pos_iff_exists_mem]
  · rw [haccount.heldBy_iff hv, MonitorState.mem_enters] at hheld
    rw [(haccount.run hsteps).heldBy_iff hv, MonitorState.mem_enters]
    obtain ⟨c, hc, hthread, heq⟩ := hheld
    exact ⟨c, (MonitorState.entered_prefix hsteps).subset hc, hthread, heq⟩
  · have hsame : Table.get? ms v = Table.get? s.monitors v := by
      rw [Monitors.get?_enter haccount.keys htarget henter hv, hne, if_neg Bool.false_ne_true]
    exact ⟨by rw [Monitors.depth, Monitors.depth, hsame], fun other => by rw [Monitors.heldBy, Monitors.heldBy, hsame]⟩
  · exact Table.get?_of_beq_eq fun e _ => (Value.beq_vector items e.1).symm
  · exact Value.beq_iff_eq_of_atom rfl (by simp)
  · exact Value.beq_iff_eq_of_atom rfl (by simp)
  · exact Value.beq_iff_eq_of_atom rfl (by simp)

/-- A list and a vector whose items are equal, though not the same. A thread enters the monitor with the one, another
thread waits for it with the other, and the first enters once more. -/
theorem monitors_account_for_enters_waiting :
    let items (first second : Int64) : List Value :=
      [.set (Value.setOf [.int first, .int second]), .map (Table.ofList [(.int first, .nil), (.int second, .nil)])]
    let a : Value := .list (items 1 2)
    let b : Value := .vector (items 2 1)
    (a == b) = true ∧ ∃ s, Relation.ReflTransGen MonitorStep {} s ∧ s.waiting = [(2, b)] ∧
      Monitors.depth s.monitors b = 2 ∧ Monitors.heldBy s.monitors 1 b = true ∧
      ¬∃ ms, Monitors.enter s.monitors 2 b = .ok ms := by
  intro items a b
  have hitems : ∀ first second, ∀ v ∈ items first second, v.Proper := by
    intro first second v hv
    simp only [items, List.mem_cons, List.not_mem_nil, or_false] at hv
    rcases hv with rfl | rfl
    · refine Value.proper_setOf fun v hv => ?_
      simp only [List.mem_cons, List.not_mem_nil, or_false] at hv
      rcases hv with rfl | rfl <;> exact .atom rfl
    · refine Value.proper_mapOf fun e he => ?_
      simp only [List.mem_cons, List.not_mem_nil, or_false] at he
      rcases he with rfl | rfl <;> exact .atom rfl
  have ha : a.Proper := .list (hitems 1 2)
  have hb : b.Proper := .vector (hitems 2 1)
  have hequal : (b == a) = true ∧ (b == b) = true := by decide +kernel
  obtain ⟨ms₁, henter₁⟩ := (Monitors.enter_isOk_iff [] 1 a).mpr ⟨by simp [a], by simp [Monitors.heldBy, Table.get?]⟩
  let s₁ : MonitorState := { monitors := ms₁, waiting := [(2, b), (1, b)], entered := [(1, a)] }
  have hcalled := Relation.ReflTransGen.single (MonitorStep.call {} 1 a (by simp) ha)
  have hentered := hcalled.tail (.complete _ (by simp) henter₁)
  have hfirst : Relation.ReflTransGen MonitorStep {} s₁ :=
    (hentered.tail (.call _ 2 b (by simp) hb)).tail (.call _ 1 b (by simp) hb)
  obtain ⟨hmonitors₁, henters₁, -⟩ := monitors_account_for_enters hfirst
  have hheld₁ : ∀ other, Monitors.heldBy ms₁ other b = true → other = 1 := by
    intro other hheld
    obtain ⟨c, hc, rfl, -⟩ := ((hmonitors₁ b hb).2.1 other).mp hheld
    rw [List.mem_singleton.mp hc]
  obtain ⟨ms₂, henter₂⟩ := ((henters₁ 1 b hb).1).mpr ⟨by simp [b], hheld₁⟩
  have hsecond := hfirst.tail (.complete s₁ (by simp [s₁]) henter₂)
  obtain ⟨hmonitors₂, henters₂, -⟩ := monitors_account_for_enters hsecond
  have hheld₂ : Monitors.heldBy ms₂ 1 b = true :=
    ((hmonitors₂ b hb).2.1 1).mpr ⟨(1, b), by simp, rfl, hequal.2⟩
  refine ⟨by decide +kernel, _, hsecond, rfl, ?_, hheld₂, fun hcompleted => ?_⟩
  · rw [(hmonitors₂ b hb).1]
    simp [s₁, hequal]
  · have hother := ((henters₂ 2 b hb).1.mp hcompleted).2 1 hheld₂
    cases hother

end LispCore
