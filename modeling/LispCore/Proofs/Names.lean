import LispCore.Analysis
import LispCore.Proofs.Cells

/-! # Names and namespaces

What a namespace maps a name to, after each update that can change it, and the cases of the two operations
that look names up. A symbol is looked up in its home (`World.homeOf`): the namespace itself, or the one that
its qualifier denotes. The target of a definition is interned if the symbol is at home in the namespace, and
elsewhere it has to be there already, as a var that the namespace owns. Both read nothing but the namespaces and the
number of the next var (`World.SameNames`). -/

namespace LispCore

namespace World
variable {w w' : World} {ns : String}

/-! ### Namespaces that are the same -/

theorem namespaceAt_congr (h : w'.namespaces = w.namespaces) (ns : String) : w'.namespaceAt ns = w.namespaceAt ns := by
  rw [namespaceAt, namespaceAt, h]

theorem hasNs_congr (h : w'.namespaces = w.namespaces) (ns : String) : w'.hasNs ns = w.hasNs ns := by
  rw [hasNs, hasNs, h]

theorem lookup_congr (h : w'.namespaces = w.namespaces) (ns name : String) : w'.lookup ns name = w.lookup ns name := by
  rw [lookup, lookup, namespaceAt_congr h]

/-! ### Namespaces after an update -/

theorem get?_setNs (w : World) (ns : String) (data : Namespace) (m : String) :
    Table.get? (w.setNs ns data).namespaces m = if m = ns then some data else Table.get? w.namespaces m :=
  Table.get?_insert _ _ _ _

theorem namespaceAt_setNs (w : World) (ns : String) (data : Namespace) (m : String) :
    (w.setNs ns data).namespaceAt m = if m = ns then data else w.namespaceAt m := by
  unfold namespaceAt
  rw [get?_setNs]
  split <;> rfl

theorem hasNs_setNs (w : World) (ns : String) (data : Namespace) (m : String) :
    (w.setNs ns data).hasNs m = (decide (m = ns) || w.hasNs m) := by
  unfold hasNs Table.contains
  rw [get?_setNs]
  by_cases hm : m = ns <;> simp [hm]

theorem lookup_refer (w : World) (ns name : String) (v : Var) (m n : String) :
    (w.refer ns name v).lookup m n = if m = ns ∧ n = name then some v else w.lookup m n := by
  unfold refer lookup
  rw [namespaceAt_setNs]
  by_cases hm : m = ns
  · subst hm
    rw [if_pos rfl, Table.get?_insert]
    simp
  · simp [hm]

theorem aliases_refer (w : World) (ns name : String) (v : Var) (m : String) :
    ((w.refer ns name v).namespaceAt m).aliases = (w.namespaceAt m).aliases := by
  unfold refer
  rw [namespaceAt_setNs]
  split
  · next hm => rw [hm]
  · rfl

/-! ### Interning -/

/-- The var that is made next, if it is made now. -/
def nextVar (w : World) (ns name : String) : Var :=
  { id := w.nextId, ns, name }

/-- The world with a new var under its name, and with the given log. -/
def withNextVar (w : World) (ns name : String) (log : List LogRecord) : World :=
  { w.refer ns name (w.nextVar ns name) with nextId := w.nextId + 1, log }

/-- Interning finds the var that the namespace owns, or else makes a new one and logs it. -/
theorem intern_cases (w : World) (ns name : String) :
    (∃ v, w.lookup ns name = some v ∧ v.ns = ns ∧ w.intern ns name = (v, w)) ∨
    (∀ v, w.lookup ns name = some v → v.ns ≠ ns) ∧ ∃ notes, (∀ r ∈ notes, ∃ old, r = .replaced name old ns) ∧
      w.intern ns name = (w.nextVar ns name,
        w.withNextVar ns name (w.log ++ notes ++ [.interned (w.nextVar ns name)])) := by
  unfold intern
  cases hlookup : w.lookup ns name with
  | none => exact .inr ⟨by simp, [], by simp, by rw [List.append_nil]; rfl⟩
  | some v =>
    dsimp only
    by_cases hv : v.ns = ns
    · exact .inl ⟨v, rfl, hv, by rw [if_pos hv]⟩
    · refine .inr ⟨?_, [.replaced name v ns], by simp, by rw [if_neg hv]; rfl⟩
      rintro _ ⟨⟩
      exact hv

theorem ns_intern (w : World) (ns name : String) : (w.intern ns name).1.ns = ns := by
  rcases w.intern_cases ns name with ⟨v, -, hv, h⟩ | ⟨-, notes, -, h⟩
  · rw [h]
    exact hv
  · rw [h]
    rfl

/-- The interned var is what the name is mapped to. -/
theorem lookup_intern (w : World) (ns name : String) :
    (w.intern ns name).2.lookup ns name = some (w.intern ns name).1 := by
  rcases w.intern_cases ns name with ⟨v, hlookup, -, h⟩ | ⟨-, notes, -, h⟩
  · rw [h]
    exact hlookup
  · rw [h]
    exact (lookup_refer w ns name _ ns name).trans (if_pos ⟨rfl, rfl⟩)

/-- Interning leaves records of its own. -/
theorem log_intern (w : World) (ns name : String) :
    ∃ notes, (w.intern ns name).2.log = w.log ++ notes ∧ ∀ r ∈ notes, r.source = .namespaces := by
  rcases w.intern_cases ns name with ⟨v, -, -, h⟩ | ⟨-, notes, hnotes, h⟩
  · exact ⟨[], by rw [h, List.append_nil], by simp⟩
  · refine ⟨notes ++ [.interned (w.nextVar ns name)], by rw [h, ← List.append_assoc]; rfl, fun r hr => ?_⟩
    rcases List.mem_append.mp hr with hr | hr
    · obtain ⟨old, rfl⟩ := hnotes r hr
      rfl
    · rw [List.mem_singleton.mp hr]
      rfl

/-! ### Where a symbol is looked up -/

/-- The namespace in which a symbol is looked up, if it denotes one. -/
def homeOf (w : World) (ns : String) (sym : Symbol) : Option String :=
  match sym.ns with
  | none => some ns
  | some qualifier => w.resolveNs ns qualifier

theorem homeOf_unqualified {sym : Symbol} (h : sym.ns = none) : w.homeOf ns sym = some ns := by
  simp only [homeOf, h]

theorem homeOf_qualified {sym : Symbol} {qualifier : String} (h : sym.ns = some qualifier) :
    w.homeOf ns sym = w.resolveNs ns qualifier := by
  simp only [homeOf, h]

theorem homeOf_congr (haliases : (w'.namespaceAt ns).aliases = (w.namespaceAt ns).aliases)
    (hhas : ∀ m, w'.hasNs m = w.hasNs m) (sym : Symbol) : w'.homeOf ns sym = w.homeOf ns sym := by
  simp only [homeOf, resolveNs, haliases, hhas]

/-- Only a qualified symbol is at home elsewhere. -/
theorem isQualified_of_homeOf {sym : Symbol} {home : String} (h : w.homeOf ns sym = some home) (hne : home ≠ ns) :
    ∃ qualifier, sym.ns = some qualifier ∧ w.resolveNs ns qualifier = some home := by
  cases hq : sym.ns with
  | none =>
    rw [homeOf_unqualified hq] at h
    cases h
    exact (hne rfl).elim
  | some qualifier => exact ⟨qualifier, rfl, (homeOf_qualified hq).symm.trans h⟩

theorem resolveVar_of_homeless {sym : Symbol} (h : w.homeOf ns sym = none) (create : Bool) :
    ∃ fault, w.resolveVar ns sym create = .error fault := by
  cases hq : sym.ns with
  | none =>
    rw [homeOf_unqualified hq] at h
    cases h
  | some qualifier =>
    rw [homeOf_qualified hq] at h
    exact ⟨.lookup (.noNamespace qualifier), by simp only [resolveVar, hq, h]⟩

/-- A symbol that must exist is what its home maps its name to. -/
theorem resolveVar_of_homeOf {sym : Symbol} {home : String} (h : w.homeOf ns sym = some home) :
    w.resolveVar ns sym false = .ok (w.lookup home sym.name, w) := by
  cases hq : sym.ns with
  | none =>
    rw [homeOf_unqualified hq] at h
    cases h
    simp only [resolveVar, hq]
    cases w.lookup ns sym.name <;> rfl
  | some qualifier =>
    rw [homeOf_qualified hq] at h
    simp [resolveVar, hq, h]

theorem resolveVar_abroad {sym : Symbol} {home : String} (h : w.homeOf ns sym = some home) (hne : home ≠ ns) :
    w.resolveVar ns sym true = .ok (w.lookup home sym.name, w) := by
  obtain ⟨qualifier, hq, hresolve⟩ := isQualified_of_homeOf h hne
  simp [resolveVar, hq, hresolve, hne]

/-- A symbol at home in the namespace is found there, whoever owns the var, or else interned. -/
theorem resolveVar_at_home {sym : Symbol} (h : w.homeOf ns sym = some ns) :
    (∃ v, sym.ns = none ∧ w.lookup ns sym.name = some v ∧ w.resolveVar ns sym true = .ok (some v, w)) ∨
    w.resolveVar ns sym true = .ok (some (w.intern ns sym.name).1, (w.intern ns sym.name).2) := by
  cases hq : sym.ns with
  | none =>
    simp only [resolveVar, hq]
    cases hlookup : w.lookup ns sym.name with
    | none => exact .inr (by simp)
    | some v => exact .inl ⟨v, trivial, rfl, rfl⟩
  | some qualifier =>
    rw [homeOf_qualified hq] at h
    exact .inr (by simp only [resolveVar, hq, h, and_self, if_true])

/-! ### What resolution reads -/

variable {u : World}

/-- The same namespaces, and the same number for the next var. -/
structure SameNames (w u : World) : Prop where
  namespaces : u.namespaces = w.namespaces
  nextId : u.nextId = w.nextId

/-- What happened to names from `w` to `w'`, done to `u`. -/
def following (u w w' : World) : World :=
  { u with namespaces := w'.namespaces, nextId := w'.nextId, log := u.log ++ w'.log.drop w.log.length }

theorem following_self (h : w.SameNames u) : u.following w w = u := by
  rw [following, List.drop_length, List.append_nil, ← h.namespaces, ← h.nextId]

theorem intern_following (h : w.SameNames u) (ns name : String) :
    u.intern ns name = ((w.intern ns name).1, u.following w (w.intern ns name).2) := by
  unfold intern
  rw [lookup_congr h.namespaces]
  cases w.lookup ns name with
  | none => simp [createVar, note, refer, setNs, following, namespaceAt, h.namespaces, h.nextId]
  | some v =>
    dsimp only
    split
    · rw [following_self h]
    · simp [createVar, note, refer, setNs, following, namespaceAt, h.namespaces, h.nextId]

theorem resolveVar_following (h : w.SameNames u) (ns : String) (sym : Symbol) (create : Bool) :
    u.resolveVar ns sym create = (w.resolveVar ns sym create).map fun p => (p.1, u.following w p.2) := by
  have hresolve : u.resolveNs = w.resolveNs := by
    funext ns qualifier
    rw [resolveNs, resolveNs, namespaceAt_congr h.namespaces, hasNs_congr h.namespaces]
  have hself : ∀ found : Option Var, (.ok (found, u) : Except Fault (Option Var × World)) =
      (Except.ok (found, w)).map fun p => (p.1, u.following w p.2) := by
    intro found
    rw [Except.map, following_self h]
  unfold resolveVar
  simp only [lookup_congr h.namespaces, hresolve, intern_following h]
  cases sym.ns with
  | none =>
    dsimp only
    cases w.lookup ns sym.name with
    | some v => exact hself _
    | none =>
      cases create with
      | true => rfl
      | false => exact hself _
  | some qualifier =>
    dsimp only
    cases w.resolveNs ns qualifier with
    | none => rfl
    | some target =>
      dsimp only
      split
      · rfl
      · exact hself _

end World

/-! ### The cases of resolution -/

theorem Exec.blaming_of_ok {α : Type} (ctx : Context) (span : Span) {x : Exec α} {w w' : World} {a : α}
    (h : x w = .ok a w') : ctx.blaming span x w = .ok a w' :=
  adapt_of_ok _ h

theorem Exec.blaming_of_error {α : Type} (ctx : Context) (span : Span) {x : Exec α} {w w' : World} {err : Error}
    (h : x w = .error err w') : ∃ err', ctx.blaming span x w = .error err' w' :=
  ⟨_, adapt_of_error _ h⟩

/-- A symbol is the var that its home maps its name to. Otherwise its analysis fails. -/
theorem analyzeSymbol_cases (ctx : Context) (sym : Symbol) (span : Span) (w : World) :
    (∃ home v, w.homeOf ctx.ns sym = some home ∧ w.lookup home sym.name = some v ∧
      analyzeSymbol ctx sym span w = .ok (.ref v) w) ∨
    (∀ home, w.homeOf ctx.ns sym = some home → w.lookup home sym.name = none) ∧
      ∃ err, analyzeSymbol ctx sym span w = .error err w := by
  unfold analyzeSymbol
  cases hhome : w.homeOf ctx.ns sym with
  | none =>
    obtain ⟨fault, hfault⟩ := World.resolveVar_of_homeless hhome false
    obtain ⟨err, herr⟩ := Exec.blaming_of_error ctx span (resolveVar_of_error hfault)
    exact .inr ⟨by simp, err, Exec.bind_of_error herr⟩
  | some home =>
    have hresolve := Exec.blaming_of_ok ctx span
      (resolveVar_of_ok (World.resolveVar_of_homeOf hhome))
    cases hlookup : w.lookup home sym.name with
    | none =>
      rw [hlookup] at hresolve
      refine .inr ⟨?_, _, Exec.bind_of_ok hresolve⟩
      rintro _ ⟨⟩
      exact hlookup
    | some v =>
      rw [hlookup] at hresolve
      exact .inl ⟨home, v, rfl, hlookup, Exec.bind_of_ok hresolve⟩

theorem finalWorld_analyzeSymbol (ctx : Context) (sym : Symbol) (span : Span) (w : World) :
    Exec.finalWorld (analyzeSymbol ctx sym span) w = w := by
  rcases analyzeSymbol_cases ctx sym span w with ⟨_, _, -, -, h⟩ | ⟨-, _, h⟩
  · exact Exec.finalWorld_of_ok h
  · exact Exec.finalWorld_of_error h

theorem resolveTarget_at_home {ctx : Context} {sym : Symbol} {w : World} (h : w.homeOf ctx.ns sym = some ctx.ns)
    (span : Span) :
    resolveTarget ctx sym span w = .ok (w.intern ctx.ns sym.name).1 (w.intern ctx.ns sym.name).2 := by
  unfold resolveTarget
  rcases World.resolveVar_at_home h with ⟨v, hq, hlookup, hresolve⟩ | hresolve
  · rw [Exec.bind_of_ok (Exec.blaming_of_ok ctx span (resolveVar_of_ok hresolve))]
    dsimp only
    by_cases hv : v.ns = ctx.ns
    · rw [if_pos hv]
      -- an owned var is what interning finds too
      rcases w.intern_cases ctx.ns sym.name with ⟨u, hu, -, hintern⟩ | ⟨hnone, -⟩
      · rw [hlookup] at hu
        cases hu
        rw [hintern]
        rfl
      · exact (hnone v hlookup hv).elim
    · rw [if_neg hv, if_neg (by simp [Symbol.isQualified, hq])]
      rfl
  · rw [Exec.bind_of_ok (Exec.blaming_of_ok ctx span (resolveVar_of_ok hresolve))]
    dsimp only
    rw [if_pos (w.ns_intern ctx.ns sym.name)]
    rfl

/-- The target of a definition is interned at home, or found elsewhere as a var that the namespace owns. Otherwise
its resolution fails and changes nothing. -/
theorem resolveTarget_cases (ctx : Context) (sym : Symbol) (span : Span) (w : World) :
    (w.homeOf ctx.ns sym = some ctx.ns ∧
      resolveTarget ctx sym span w = .ok (w.intern ctx.ns sym.name).1 (w.intern ctx.ns sym.name).2) ∨
    (∃ home v, w.homeOf ctx.ns sym = some home ∧ home ≠ ctx.ns ∧ w.lookup home sym.name = some v ∧ v.ns = ctx.ns ∧
      resolveTarget ctx sym span w = .ok v w) ∨
    (∀ home, w.homeOf ctx.ns sym = some home →
      home ≠ ctx.ns ∧ ∀ v, w.lookup home sym.name = some v → v.ns ≠ ctx.ns) ∧
      ∃ err, resolveTarget ctx sym span w = .error err w := by
  cases hhome : w.homeOf ctx.ns sym with
  | none =>
    obtain ⟨fault, hfault⟩ := World.resolveVar_of_homeless hhome true
    obtain ⟨err, herr⟩ := Exec.blaming_of_error ctx span (resolveVar_of_error hfault)
    exact .inr (.inr ⟨by simp, err, Exec.bind_of_error herr⟩)
  | some home =>
    by_cases hne : home = ctx.ns
    · subst hne
      exact .inl ⟨rfl, resolveTarget_at_home hhome span⟩
    · have hresolve := Exec.blaming_of_ok ctx span
        (resolveVar_of_ok (World.resolveVar_abroad hhome hne))
      unfold resolveTarget
      rw [Exec.bind_of_ok hresolve]
      cases hlookup : w.lookup home sym.name with
      | none =>
        refine .inr (.inr ⟨?_, _, rfl⟩)
        rintro _ ⟨⟩
        exact ⟨hne, by simp [hlookup]⟩
      | some v =>
        dsimp only
        by_cases hv : v.ns = ctx.ns
        · exact .inr (.inl ⟨home, v, rfl, hne, hlookup, hv, by rw [if_pos hv]; rfl⟩)
        · obtain ⟨qualifier, hq, -⟩ := World.isQualified_of_homeOf hhome hne
          refine .inr (.inr ⟨?_, _, by rw [if_neg hv, if_pos (by simp [Symbol.isQualified, hq])]; rfl⟩)
          rintro _ ⟨⟩
          refine ⟨hne, fun u hu => ?_⟩
          rw [hlookup] at hu
          cases hu
          exact hv

end LispCore
