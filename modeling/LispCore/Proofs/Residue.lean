import LispCore.Session
import LispCore.Proofs.Openings

/-! # What analysis leaves behind

Analysis runs nothing, but it is not without effect: it maps names, sets flags and attaches argument lists, and what
it has done stays when it fails. `World.Residue` says exactly what this can be, given the definitions that were
opened. It is proved for one opening and composed along the list. -/

namespace LispCore

namespace World

/-! ### Symbols and their vars -/

/-- The symbol is resolved to `v` in the namespace. -/
def Names (w : World) (ns : String) (sym : Symbol) (v : Var) : Prop :=
  w.resolveVar ns sym false = .ok (some v, w)

theorem names_iff {w : World} {ns : String} {sym : Symbol} {v : Var} :
    w.Names ns sym v ↔ ∃ home, w.homeOf ns sym = some home ∧ w.lookup home sym.name = some v := by
  unfold Names
  cases hhome : w.homeOf ns sym with
  | none =>
    obtain ⟨fault, hfault⟩ := resolveVar_of_homeless hhome false
    simp [hfault]
  | some home => simp [resolveVar_of_homeOf hhome]

/-- The next number is new: names are mapped to vars with lower ones, and no var with this one or a higher one was
ever written to. -/
structure Numbered (w : World) : Prop where
  mapped : ∀ ns name v, w.lookup ns name = some v → v.id < w.nextId
  cells : ∀ v, w.nextId ≤ v.id → w.cell v = {}

/-! ### The residue -/

/-- The argument lists that were attached last to `v`. -/
def lastAttached (v : Var) (opened : List (Symbol × Var)) : Option Value :=
  (opened.filterMap fun d => if d.2 = v then d.1.attachment? else none).getLast?

/-- The namespaces after the given definitions have been opened in `ns`. Names that are not their targets are mapped as
before, and so is a name that was mapped to a var of `ns`; another name may be mapped to a new var. -/
structure Mapped (ns : String) (opened : List (Symbol × Var)) (w w' : World) : Prop where
  numbers : w.nextId ≤ w'.nextId
  elsewhere : ∀ m, m ≠ ns → Table.get? w'.namespaces m = Table.get? w.namespaces m
  aliases : (w'.namespaceAt ns).aliases = (w.namespaceAt ns).aliases
  still : w.hasNs ns = true → w'.hasNs ns = true
  names : ∀ name, w'.lookup ns name = w.lookup ns name ∨ (∀ v, w.lookup ns name = some v → v.ns ≠ ns) ∧
    ∃ d ∈ opened, d.1.name = name ∧ w'.lookup ns name = some d.2 ∧ d.2.name = name ∧
      w.nextId ≤ d.2.id ∧ d.2.id < w'.nextId
  targets : ∀ d ∈ opened, d.2.ns = ns ∧ w'.Names ns d.1 d.2

/-- What is left when the given definitions have been opened in `ns`: the mapped names, the flags of those that declare
their var dynamic, the argument lists that were attached last, and records. -/
structure Residue (ns : String) (opened : List (Symbol × Var)) (w w' : World) : Prop extends Mapped ns opened w w' where
  frame : ∃ namespaces nextId cells warnings log, w' = { w with namespaces, nextId, cells, warnings, log }
  flags : ∀ v, (w'.cell v).dynamic =
    ((w.cell v).dynamic || opened.any fun d => decide (d.2 = v) && d.1.declaresDynamic)
  metadata : ∀ v, (w'.cell v).metadata = (lastAttached v opened).elim (w.cell v).metadata
    (Table.insert (w.cell v).metadata (.keyword "arglists"))

/-! ### Composition -/

theorem homeOf_of_kept {w w' : World} {ns : String}
    (haliases : (w'.namespaceAt ns).aliases = (w.namespaceAt ns).aliases)
    (hhas : ∀ m, w.hasNs m = true → w'.hasNs m = true) {sym : Symbol} {home : String}
    (hhome : w.homeOf ns sym = some home) : w'.homeOf ns sym = some home := by
  cases hq : sym.ns with
  | none =>
    rw [homeOf_unqualified hq] at hhome ⊢
    exact hhome
  | some qualifier =>
    rw [homeOf_qualified hq] at hhome ⊢
    unfold resolveNs at hhome ⊢
    rw [haliases]
    cases halias : Table.get? (w.namespaceAt ns).aliases qualifier with
    | some target =>
      rw [halias] at hhome
      exact hhome
    | none =>
      rw [halias] at hhome
      by_cases hns : w.hasNs qualifier = true
      · rw [if_pos hns] at hhome
        rw [if_pos (hhas qualifier hns)]
        exact hhome
      · rw [if_neg hns] at hhome
        cases hhome

section Mapped
variable {ns : String} {opened opened' : List (Symbol × Var)} {w w₁ w₂ w' : World}

theorem Mapped.lookup_elsewhere (h : w.Mapped ns opened w') {m : String} (hm : m ≠ ns) (name : String) :
    w'.lookup m name = w.lookup m name := by
  simp only [lookup, namespaceAt, h.elsewhere m hm]

theorem Mapped.hasNs (h : w.Mapped ns opened w') {m : String} (hm : w.hasNs m = true) : w'.hasNs m = true := by
  by_cases hne : m = ns
  · rw [hne] at hm ⊢
    exact h.still hm
  · unfold World.hasNs Table.contains
    rw [h.elsewhere m hne]
    exact hm

/-- What a symbol's qualifier denotes it goes on to denote. -/
theorem Mapped.homeOf (h : w.Mapped ns opened w') {sym : Symbol} {home : String}
    (hhome : w.homeOf ns sym = some home) : w'.homeOf ns sym = some home :=
  homeOf_of_kept h.aliases (fun _ => h.hasNs) hhome

theorem Mapped.lookup_owned (h : w.Mapped ns opened w') {name : String} {v : Var}
    (hlookup : w.lookup ns name = some v) (hv : v.ns = ns) : w'.lookup ns name = some v := by
  rcases h.names name with hsame | ⟨hforeign, -⟩
  · rw [hsame, hlookup]
  · exact (hforeign v hlookup hv).elim

/-- A symbol that is resolved to an owned var stays so: the mapping is elsewhere, or it is one that no opening
replaces. -/
theorem Mapped.names_owned (h : w.Mapped ns opened w') {sym : Symbol} {v : Var} (hv : v.ns = ns)
    (hnames : w.Names ns sym v) : w'.Names ns sym v := by
  obtain ⟨home, hhome, hlookup⟩ := names_iff.mp hnames
  refine names_iff.mpr ⟨home, h.homeOf hhome, ?_⟩
  by_cases hne : home = ns
  · rw [hne] at hlookup ⊢
    exact h.lookup_owned hlookup hv
  · rw [h.lookup_elsewhere hne, hlookup]

theorem Mapped.refl (ns : String) (w : World) : w.Mapped ns [] w where
  numbers := Nat.le_refl _
  elsewhere := fun _ _ => rfl
  aliases := rfl
  still := id
  names := fun _ => .inl rfl
  targets := by simp

theorem Mapped.trans (h : w.Mapped ns opened w₁) (h' : w₁.Mapped ns opened' w₂) :
    w.Mapped ns (opened ++ opened') w₂ where
  numbers := Nat.le_trans h.numbers h'.numbers
  elsewhere := fun m hm => (h'.elsewhere m hm).trans (h.elsewhere m hm)
  aliases := h'.aliases.trans h.aliases
  still := h'.still ∘ h.still
  names := by
    intro name
    rcases h.names name with hsame | ⟨hforeign, d, hd, hname, hlookup, hvar, hlow, hhigh⟩
    · rcases h'.names name with hsame' | ⟨hforeign, d, hd, hname, hlookup, hvar, hlow, hhigh⟩
      · exact .inl (hsame'.trans hsame)
      · rw [hsame] at hforeign
        exact .inr ⟨hforeign, d, List.mem_append_right _ hd, hname, hlookup, hvar, Nat.le_trans h.numbers hlow, hhigh⟩
    · -- the new mapping is to an owned var, so it is not replaced again
      have howned := (h.targets d hd).1
      exact .inr ⟨hforeign, d, List.mem_append_left _ hd, hname, h'.lookup_owned hlookup howned, hvar, hlow,
        Nat.lt_of_lt_of_le hhigh h'.numbers⟩
  targets := by
    intro d hd
    rcases List.mem_append.mp hd with hd | hd
    · obtain ⟨howned, hnames⟩ := h.targets d hd
      exact ⟨howned, h'.names_owned howned hnames⟩
    · exact h'.targets d hd

/-- How names are mapped is seen in the namespaces and in the next number. -/
theorem Mapped.congr {u : World} (h : w.Mapped ns opened w') (hu : w'.SameNames u) : w.Mapped ns opened u where
  numbers := by rw [hu.nextId]; exact h.numbers
  elsewhere := by rw [hu.namespaces]; exact h.elsewhere
  aliases := by rw [namespaceAt_congr hu.namespaces]; exact h.aliases
  still := by rw [hasNs_congr hu.namespaces]; exact h.still
  names := by
    intro name
    rw [lookup_congr hu.namespaces, hu.nextId]
    exact h.names name
  targets := by
    intro d hd
    obtain ⟨hns, hnames⟩ := h.targets d hd
    obtain ⟨home, hhome, hlookup⟩ := names_iff.mp hnames
    refine ⟨hns, names_iff.mpr ⟨home, ?_, ?_⟩⟩
    · rwa [homeOf_congr (by rw [namespaceAt_congr hu.namespaces]) (hasNs_congr hu.namespaces)]
    · rwa [lookup_congr hu.namespaces]

theorem lastAttached_append (v : Var) (opened opened' : List (Symbol × Var)) :
    lastAttached v (opened ++ opened') = (lastAttached v opened').or (lastAttached v opened) := by
  unfold lastAttached
  rw [List.filterMap_append, List.getLast?_append]

theorem Residue.refl (ns : String) (w : World) : w.Residue ns [] w where
  toMapped := .refl ns w
  frame := ⟨_, _, _, _, _, rfl⟩
  flags := by simp
  metadata := fun _ => rfl

theorem Residue.trans (h : w.Residue ns opened w₁) (h' : w₁.Residue ns opened' w₂) :
    w.Residue ns (opened ++ opened') w₂ where
  toMapped := h.toMapped.trans h'.toMapped
  frame := by
    obtain ⟨_, _, _, _, _, hw₁⟩ := h.frame
    obtain ⟨_, _, _, _, _, hw₂⟩ := h'.frame
    exact ⟨_, _, _, _, _, by rw [hw₂, hw₁]⟩
  flags := fun v => by rw [h'.flags, h.flags, List.any_append, Bool.or_assoc]
  metadata := by
    intro v
    rw [h'.metadata, h.metadata, lastAttached_append]
    cases lastAttached v opened' with
    | none => rfl
    | some value =>
      -- what was attached before is overwritten
      cases lastAttached v opened with
      | none => rfl
      | some old => exact Table.insert_insert _ (by decide) old value

end Mapped

/-! ### One opening -/

theorem mapped_intern {w : World} {ns : String} {sym : Symbol} (hhome : w.homeOf ns sym = some ns) :
    w.Mapped ns [(sym, (w.intern ns sym.name).1)] (w.intern ns sym.name).2 := by
  rcases w.intern_cases ns sym.name with ⟨v, hlookup, hv, h⟩ | ⟨hforeign, notes, -, h⟩
  · rw [h]
    refine { Mapped.refl ns w with names := fun _ => .inl rfl, targets := ?_ }
    simpa using ⟨hv, names_iff.mpr ⟨ns, hhome, hlookup⟩⟩
  · rw [h]
    dsimp only
    generalize w.log ++ notes ++ [.interned (w.nextVar ns sym.name)] = log
    have haliases : ((w.withNextVar ns sym.name log).namespaceAt ns).aliases = (w.namespaceAt ns).aliases :=
      aliases_refer w ns sym.name _ ns
    have hhas : ∀ m, w.hasNs m = true → (w.withNextVar ns sym.name log).hasNs m = true := by
      intro m hm
      refine (hasNs_setNs w ns _ m).trans ?_
      rw [hm, Bool.or_true]
    have hlookup : ∀ name, (w.withNextVar ns sym.name log).lookup ns name =
        if name = sym.name then some (w.nextVar ns sym.name) else w.lookup ns name := by
      intro name
      refine (lookup_refer w ns sym.name _ ns name).trans ?_
      simp
    exact {
      numbers := Nat.le_succ _
      elsewhere := fun m hm => (get?_setNs w ns _ m).trans (if_neg hm)
      aliases := haliases
      still := hhas ns
      names := by
        intro name
        rw [hlookup]
        split
        · next hname =>
          subst hname
          exact .inr ⟨hforeign, _, List.mem_singleton_self _, rfl, rfl, rfl, Nat.le_refl _, Nat.lt_succ_self _⟩
        · exact .inl rfl
      targets := by
        intro d hd
        rw [List.mem_singleton.mp hd]
        refine ⟨rfl, names_iff.mpr ⟨ns, homeOf_of_kept haliases hhas hhome, ?_⟩⟩
        rw [hlookup, if_pos rfl] }

/-- Resolving the target of a definition. -/
theorem mapped_resolveTarget {ctx : Context} {sym : Symbol} {span : Span} {w w' : World} {v : Var}
    (h : resolveTarget ctx sym span w = .ok v w') : w.Mapped ctx.ns [(sym, v)] w' := by
  rcases resolveTarget_cases ctx sym span w with
    ⟨hhome, heq⟩ | ⟨home, u, hhome, -, hlookup, hu, heq⟩ | ⟨-, err, heq⟩ <;> rw [heq] at h <;> cases h
  · exact mapped_intern hhome
  · refine { Mapped.refl ctx.ns w with names := fun _ => .inl rfl, targets := ?_ }
    simpa using ⟨hu, names_iff.mpr ⟨home, hhome, hlookup⟩⟩

theorem cell_warn (w : World) (warning : Warning) (v : Var) : (w.warn warning).cell v = w.cell v := by
  unfold warn
  split <;> rfl

theorem resolveTarget_eq {ctx : Context} {sym : Symbol} {span : Span} {w w' : World} {v : Var}
    (h : resolveTarget ctx sym span w = .ok v w') : ∃ namespaces nextId log,
      w' = { w with namespaces, nextId, log } := by
  rcases resolveTarget_cases ctx sym span w with
    ⟨-, heq⟩ | ⟨home, u, -, -, -, -, heq⟩ | ⟨-, err, heq⟩ <;> rw [heq] at h <;> cases h
  · exact w.intern_eq ctx.ns sym.name
  · exact ⟨_, _, _, rfl⟩

end World

namespace Context
variable (ctx : Context) (sym : Symbol) (v : Var) (w : World)

theorem announced_eq : ∃ cells warnings log, ctx.announced sym v w = { w with cells, warnings, log } := by
  unfold announced
  split
  · exact ⟨_, _, _, rfl⟩
  · split
    · unfold World.warn
      split <;> exact ⟨_, _, _, rfl⟩
    · exact ⟨_, _, _, rfl⟩

/-- A declaration changes cells and what is recorded. -/
theorem declared_eq : ∃ cells warnings log, ctx.declared sym v w = { w with cells, warnings, log } := by
  obtain ⟨cells, warnings, log, h⟩ := ctx.announced_eq sym v w
  unfold declared
  rw [h]
  cases sym.attachment? <;> exact ⟨_, _, _, rfl⟩

theorem dynamic_declared (u : Var) : ((ctx.declared sym v w).cell u).dynamic =
    ((w.cell u).dynamic || (decide (v = u) && sym.declaresDynamic)) := by
  have hannounced : ((ctx.announced sym v w).cell u).dynamic =
      ((w.cell u).dynamic || (decide (v = u) && sym.declaresDynamic)) := by
    unfold announced
    cases sym.declaresDynamic with
    | true =>
      by_cases hu : u = v
      · simp [hu]
      · simp [hu, Ne.symm hu]
    | false =>
      rw [if_neg Bool.false_ne_true, Bool.and_false, Bool.or_false]
      split
      · rw [World.cell_warn]
      · rfl
  unfold declared
  cases sym.attachment? with
  | none => exact hannounced
  | some value => exact (World.dynamic_setMetadata _ v _ u).trans hannounced

theorem metadata_declared (u : Var) : ((ctx.declared sym v w).cell u).metadata =
    (if v = u then sym.attachment? else none).elim (w.cell u).metadata
      (Table.insert (w.cell u).metadata (.keyword "arglists")) := by
  have hannounced : ∀ u, ((ctx.announced sym v w).cell u).metadata = (w.cell u).metadata := by
    intro u
    unfold announced
    split
    · exact World.metadata_setDynamic w v u
    · split
      · rw [World.cell_warn]
      · rfl
  unfold declared
  cases sym.attachment? with
  | none =>
    rw [ite_self]
    exact hannounced u
  | some value =>
    dsimp only [Option.elim_some]
    rw [World.addTag, World.metadata_setMetadata, hannounced, hannounced]
    by_cases hu : u = v
    · simp [hu]
    · simp [hu, Ne.symm hu]

end Context

namespace World

/-- A declaration maps no name. -/
theorem Mapped.declared {ns : String} {opened : List (Symbol × Var)} {w w' : World} (h : w.Mapped ns opened w')
    (ctx : Context) (sym : Symbol) (v : Var) : w.Mapped ns opened (ctx.declared sym v w') := by
  obtain ⟨cells, warnings, log, heq⟩ := ctx.declared_eq sym v w'
  rw [heq]
  exact h.congr ⟨rfl, rfl⟩

theorem residue_opening {ctx : Context} {sym : Symbol} {span : Span} {w w' : World} {v : Var}
    (h : resolveTarget ctx sym span w = .ok v w') : w.Residue ctx.ns [(sym, v)] (ctx.declared sym v w') := by
  have hmapped := (mapped_resolveTarget h).declared ctx sym v
  obtain ⟨namespaces, nextId, log, rfl⟩ := resolveTarget_eq h
  have hcell : ∀ u, ({ w with namespaces, nextId, log } : World).cell u = w.cell u := fun _ => rfl
  exact {
    toMapped := hmapped
    frame := by
      obtain ⟨_, _, _, hdeclared⟩ := ctx.declared_eq sym v { w with namespaces, nextId, log }
      exact ⟨_, _, _, _, _, hdeclared⟩
    flags := fun u => by
      rw [Context.dynamic_declared, hcell, List.any_cons, List.any_nil, Bool.or_false]
    metadata := fun u => by
      rw [Context.metadata_declared, hcell]
      unfold lastAttached
      by_cases hu : v = u
      · cases hvalue : sym.attachment? <;> simp [hu, hvalue]
      · simp [hu] }

/-- What is left after opening definitions one after the other. -/
theorem residue_of_opens {ctx : Context} {opened : List (Symbol × Var)} {w w' : World}
    (h : ctx.Opens w opened w') : w.Residue ctx.ns opened w' := by
  induction h with
  | nil => exact .refl ctx.ns _
  | cons hresolve _ ih => exact (residue_opening hresolve).trans ih

end World

/-! ### Main result -/

/-- However analysis ends, it has opened an initial segment of the form's definitions, and all of them if it
succeeds. -/
theorem opened_by_analyze (ctx : Context) (form : Form) (w : World) : ∃ opened,
    opened.map (·.1) <+: form.definitions ∧ ctx.Opens w opened (Exec.finalWorld (analyze ctx form) w) ∧
      ∀ e w', analyze ctx form w = .ok e w' → opened.map (·.1) = form.definitions ∧ opened.map (·.2) = e.targets := by
  cases h : analyze ctx form w with
  | ok e w' =>
    obtain ⟨opened, hds, htargets, hopens⟩ := (opens_analyze ctx form).of_ok h
    rw [Exec.finalWorld_of_ok h]
    refine ⟨opened, hds ▸ List.prefix_rfl, hopens, ?_⟩
    rintro _ _ ⟨⟩
    exact ⟨hds, htargets.symm⟩
  | error err w' =>
    obtain ⟨opened, hds, hopens⟩ := (opens_analyze ctx form).of_error h
    rw [Exec.finalWorld_of_error h]
    exact ⟨opened, hds, hopens, fun _ _ h => by cases h⟩

/-- Analysis runs nothing, and however it ends, it leaves no more than the residue of the definitions that it has
opened: an initial segment of those in the form, and all of them if it succeeds. A var that it has made is unbound. -/
theorem analysis_leaves_residue (ctx : Context) (form : Form) (w : World) :
    let w' := Exec.finalWorld (analyze ctx form) w
    w.Silent w' ∧ ∃ opened, opened.map (·.1) <+: form.definitions ∧ w.Residue ctx.ns opened w' ∧
      (∀ e u, analyze ctx form w = .ok e u → opened.map (·.1) = form.definitions) ∧
      (w.Numbered → ∀ v, w.nextId ≤ v.id → (w'.cell v).root = none) := by
  intro w'
  have hsilent : w.Silent w' := World.silent_of_steps ((silent_analysis ctx).analyze form) w
  obtain ⟨opened, hds, hopens, hall⟩ := opened_by_analyze ctx form w
  refine ⟨hsilent, opened, hds, World.residue_of_opens hopens, fun e u h => (hall e u h).1, fun hw v hv => ?_⟩
  rw [hsilent.root, hw.cells v hv]

/-- Nothing is numbered when a session starts. -/
theorem World.numbered_start (options : Options) (audience : Audience) : (World.start options audience).Numbered := by
  have hlookup : ∀ ns name, (World.start options audience).lookup ns name = none := by
    intro ns name
    have hns := World.namespaceAt_setNs { current := options.ns, audience } options.ns {} ns
    have hstart : World.start options audience = World.setNs { current := options.ns, audience } options.ns {} := rfl
    rw [World.lookup, hstart, hns]
    split <;> rfl
  exact {
    mapped := fun ns name v h => by
      rw [hlookup] at h
      cases h
    cells := fun _ _ => rfl }

/-- The analysis of `(do (def ^:dynamic x) (def ^{:arglists '([a])} y x) z)` fails at the end, and its two vars stay,
unbound. -/
theorem analysis_leaves_residue_unresolved :
    let w := World.start {} .watching
    let ctx : Context := { ns := "user" }
    let name (text : String) : Form := .symbol (.unqualified text)
    let x : Symbol := ⟨none, "x", some [(.keyword "dynamic", .bool true)]⟩
    let y : Symbol := ⟨none, "y", some [(.keyword "arglists", .list [name "quote", .list [.vector [name "a"]]])]⟩
    let form : Form := .list [name "do", .list [name "def", .symbol x],
      .list [name "def", .symbol y, name "x"], name "z"]
    let w' := Exec.finalWorld (analyze ctx form) w
    let v (n : Nat) (text : String) : Var := { id := n, ns := "user", name := text }
    ∃ opened, opened.map (·.1) <+: [x, y] ∧ w.Residue "user" opened w' ∧
      w'.lookup "user" "x" = some (v 0 "x") ∧ w'.lookup "user" "y" = some (v 1 "y") ∧
      (w'.cell (v 0 "x")).root = none ∧ (w'.cell (v 1 "y")).root = none := by
  intro w ctx name x y form w' v
  obtain ⟨-, opened, hds, hresidue, -, hunbound⟩ := analysis_leaves_residue ctx form w
  have hroot := hunbound (World.numbered_start {} .watching)
  exact ⟨opened, hds, hresidue, by decide +kernel, by decide +kernel, hroot _ (Nat.zero_le _), hroot _ (Nat.zero_le _)⟩

end LispCore
