import LispCore.Proofs.Grammar
import LispCore.Proofs.Kinds

/-! # Errors of analysis point into the source

Analysis fails in one of its steps, and every step belongs to a form that stands somewhere in the form that is analysed
(`AnalysisStep.StandsIn`). A step that resolves a name or rejects a form gives its error the span of that form and the
context's source. A step that takes data fails at a map key in the data that cannot be one. -/

namespace LispCore

/-! ### Forms inside forms -/

namespace Form

/-- A form stands directly in another one as data: as an item, or as a key or a value of a map. -/
inductive HasDatum : Form → Form → Prop where
  | list {items span item} : item ∈ items → HasDatum (.list items span) item
  | vector {items span item} : item ∈ items → HasDatum (.vector items span) item
  | set {items span item} : item ∈ items → HasDatum (.set items span) item
  | key {entries span entry} : entry ∈ entries → HasDatum (.map entries span) entry.1
  | value {entries span entry} : entry ∈ entries → HasDatum (.map entries span) entry.2

/-- A form stands directly in another one: as data, or in the metadata of a symbol. -/
inductive HasPart : Form → Form → Prop where
  | datum {form part} : HasDatum form part → HasPart form part
  | tag {ns name entries span entry} : entry ∈ entries → HasPart (.symbol ⟨ns, name, some entries⟩ span) entry.2

/-- `part` is the form itself or nested in it. -/
def Nests (form part : Form) : Prop :=
  Relation.ReflTransGen HasPart form part

/-- `key` stands as a map key in the data. -/
def HasKey (data key : Form) : Prop :=
  ∃ entries span, Relation.ReflTransGen HasDatum data (.map entries span) ∧ ∃ entry ∈ entries, entry.1 = key

/-- `(quote data)` is nested in the form. -/
def Quotes (form data : Form) : Prop :=
  ∃ head span, SpecialForm.quote.Heads head ∧ form.Nests (.list [head, data] span)

/-- A definition nested in the form has `data` as its argument lists. -/
def HasArglists (form data : Form) : Prop :=
  ∃ head sym inner rest span, SpecialForm.define.Heads head ∧
    form.Nests (.list (head :: .symbol sym inner :: rest) span) ∧ sym.arglists? = some data

theorem HasDatum.hasKey {form part key : Form} (h : HasDatum form part) (hkey : part.HasKey key) : form.HasKey key := by
  obtain ⟨entries, span, hmap, hentry⟩ := hkey
  exact ⟨entries, span, hmap.head h, hentry⟩

end Form

/-! ### Data -/

namespace Form

/-- The failure at a map key that cannot be one. -/
def badKey (key : Form) : Failure :=
  { fault := .typeMismatch "map key" key.kindName, span := some key.span }

/-- The failure is that some map key in the data cannot be one. -/
def FailsWith (data : Form) (failure : Failure) : Prop :=
  ∃ key, data.HasKey key ∧ key.isKeyData = false ∧ failure = key.badKey

theorem HasDatum.failsWith {form part : Form} {failure : Failure} (h : HasDatum form part)
    (hpart : part.FailsWith failure) : form.FailsWith failure := by
  obtain ⟨key, hkey, hfailure⟩ := hpart
  exact ⟨key, h.hasKey hkey, hfailure⟩

theorem ofValue_eq_error {k : Form} {value : Value} {fault : Fault} (h : k.toValue = .ok value)
    (hkey : Key.ofValue value = .error fault) : k.isKeyData = false ∧ fault = .typeMismatch "map key" k.kindName := by
  have hkind := kind_toValue h
  cases value <;> cases hkey <;> cases k <;> cases hkind <;> exact ⟨rfl, rfl⟩

theorem bind_eq_error_iff {α β : Type} {r : Except Failure α} {f : α → Except Failure β} {failure : Failure} :
    r >>= f = .error failure ↔ r = .error failure ∨ ∃ a, r = .ok a ∧ f a = .error failure := by
  cases r <;> simp [bind, Except.bind]

mutual

/-- Data is refused at a map key only. -/
theorem toValue_eq_error : ∀ {data : Form} {failure : Failure}, data.toValue = .error failure → data.FailsWith failure
  | .list items _, failure, h => by
    simp only [toValue] at h
    rcases bind_eq_error_iff.mp h with h | ⟨_, -, ⟨⟩⟩
    obtain ⟨item, hitem, hfails⟩ := toValues_eq_error h
    exact (HasDatum.list hitem).failsWith hfails
  | .vector items _, failure, h => by
    simp only [toValue] at h
    rcases bind_eq_error_iff.mp h with h | ⟨_, -, ⟨⟩⟩
    obtain ⟨item, hitem, hfails⟩ := toValues_eq_error h
    exact (HasDatum.vector hitem).failsWith hfails
  | .set items _, failure, h => by
    simp only [toValue] at h
    rcases bind_eq_error_iff.mp h with h | ⟨_, -, ⟨⟩⟩
    obtain ⟨item, hitem, hfails⟩ := toValues_eq_error h
    exact (HasDatum.set hitem).failsWith hfails
  | .map entries span, failure, h => by
    simp only [toValue] at h
    rcases bind_eq_error_iff.mp h with h | ⟨_, -, ⟨⟩⟩
    obtain ⟨entry, hentry, hkey | hbad | hvalue⟩ := toEntries_eq_error h
    · exact (HasDatum.key hentry).failsWith hkey
    · exact ⟨entry.1, ⟨entries, span, .refl, entry, hentry, rfl⟩, hbad⟩
    · exact (HasDatum.value hentry).failsWith hvalue
  | .nil _, _, h | .bool _ _, _, h | .int _ _, _, h | .float _ _, _, h | .string _ _, _, h | .keyword _ _, _, h
  | .symbol _ _, _, h => by
    cases h

theorem toValues_eq_error : ∀ {items : List Form} {failure : Failure}, toValues items = .error failure →
    ∃ item ∈ items, item.FailsWith failure
  | [], _, h => by cases h
  | form :: rest, failure, h => by
    simp only [toValues] at h
    rcases bind_eq_error_iff.mp h with h | ⟨_, -, h⟩
    · exact ⟨form, List.mem_cons_self, toValue_eq_error h⟩
    · rcases bind_eq_error_iff.mp h with h | ⟨_, -, ⟨⟩⟩
      obtain ⟨item, hitem, hfails⟩ := toValues_eq_error h
      exact ⟨item, List.mem_cons_of_mem _ hitem, hfails⟩

/-- A key that has a value may still be none that a map can have. -/
theorem toEntries_eq_error : ∀ {entries : List (Form × Form)} {failure : Failure}, toEntries entries = .error failure →
    ∃ entry ∈ entries, entry.1.FailsWith failure ∨ (entry.1.isKeyData = false ∧ failure = entry.1.badKey) ∨
      entry.2.FailsWith failure
  | [], _, h => by cases h
  | (k, form) :: rest, failure, h => by
    simp only [toEntries] at h
    rcases bind_eq_error_iff.mp h with h | ⟨value, hvalue, h⟩
    · exact ⟨(k, form), List.mem_cons_self, .inl (toValue_eq_error h)⟩
    rcases bind_eq_error_iff.mp h with h | ⟨_, -, h⟩
    · refine ⟨(k, form), List.mem_cons_self, .inr (.inl ?_)⟩
      cases hkey : Key.ofValue value with
      | ok key =>
        rw [hkey] at h
        cases h
      | error fault =>
        rw [hkey] at h
        cases h
        obtain ⟨hbad, rfl⟩ := ofValue_eq_error hvalue hkey
        exact ⟨hbad, rfl⟩
    rcases bind_eq_error_iff.mp h with h | ⟨_, -, h⟩
    · exact ⟨(k, form), List.mem_cons_self, .inr (.inr (toValue_eq_error h))⟩
    rcases bind_eq_error_iff.mp h with h | ⟨_, -, ⟨⟩⟩
    obtain ⟨entry, hentry, hfails⟩ := toEntries_eq_error h
    exact ⟨entry, List.mem_cons_of_mem _ hentry, hfails⟩

end

end Form

/-! ### Steps and where they stand -/

/-- The step is made for a form that is nested in `form`: a name, a definition of a name, quoted data, or a form that is
rejected. -/
def AnalysisStep.StandsIn (form : Form) : AnalysisStep → Prop
  | .refer sym span => form.Nests (.symbol sym span)
  | .define sym span => ∃ head rest outer, SpecialForm.define.Heads head ∧
      form.Nests (.list (head :: .symbol sym span :: rest) outer)
  | .take data => form.Quotes data
  | .reject span _ => ∃ part, form.Nests part ∧ part.span = span

theorem Form.HasPart.standsIn {form part : Form} {step : AnalysisStep} (h : form.HasPart part)
    (hstep : step.StandsIn part) : step.StandsIn form := by
  cases step with
  | refer sym span => exact hstep.head h
  | define sym span =>
    obtain ⟨head, rest, outer, hhead, hnests⟩ := hstep
    exact ⟨head, rest, outer, hhead, hnests.head h⟩
  | take data =>
    obtain ⟨head, span, hhead, hnests⟩ := hstep
    exact ⟨head, span, hhead, hnests.head h⟩
  | reject span fault =>
    obtain ⟨inner, hnests, hspan⟩ := hstep
    exact ⟨inner, hnests.head h, hspan⟩

theorem standsIn_of_mem_stepsOfQuote {head : Form} {span : Span} {args : List Form} {step : AnalysisStep}
    (hhead : SpecialForm.quote.Heads head) (h : step ∈ Form.stepsOfQuote span args) :
    step.StandsIn (.list (head :: args) span) := by
  unfold Form.stepsOfQuote at h
  split at h <;> cases List.mem_singleton.mp h
  · exact ⟨head, span, hhead, .refl⟩
  · exact ⟨_, .refl, rfl⟩

/-- What is done for the target of a definition is done for the definition. -/
theorem standsIn_of_target {head target : Form} {rest : List Form} {span : Span} {step : AnalysisStep}
    (hhead : SpecialForm.define.Heads head)
    (h : (∃ sym inner, target = .symbol sym inner ∧ step = .define sym inner) ∨ step.StandsIn target) :
    step.StandsIn (.list (head :: target :: rest) span) := by
  rcases h with ⟨sym, inner, rfl, rfl⟩ | h
  · exact ⟨head, rest, span, hhead, .refl⟩
  · exact (Form.HasPart.datum (.list (by simp))).standsIn h

mutual

/-- Every step of analysis is made for a form that is nested in the form. -/
theorem standsIn_of_mem_steps {step : AnalysisStep} : ∀ {form : Form}, step ∈ form.steps → step.StandsIn form
  | .symbol sym span, h => by
    simp only [Form.steps] at h
    cases List.mem_singleton.mp h
    exact .refl
  | .list (head :: args) span, h => by
    simp only [Form.steps] at h
    have hitem : ∀ {item}, item ∈ args → step.StandsIn item → step.StandsIn (.list (head :: args) span) :=
      fun hitem => (Form.HasPart.datum (.list (List.mem_cons_of_mem head hitem))).standsIn
    cases hspecial : SpecialForm.ofHead? head with
    | none =>
      rw [hspecial] at h
      rcases List.mem_append.mp h with h | h
      · exact (Form.HasPart.datum (.list List.mem_cons_self)).standsIn (standsIn_of_mem_steps h)
      · obtain ⟨item, hmem, hstands⟩ := exists_standsIn_of_mem_all h
        exact hitem hmem hstands
    | some special =>
      rw [hspecial] at h
      have hhead := SpecialForm.ofHead?_eq_some_iff.mp hspecial
      cases special with
      | define => exact standsIn_of_mem_stepsOfDef hhead h
      | enter =>
        rcases exists_standsIn_of_mem_enter h with ⟨item, hmem, hstands⟩ | ⟨fault, rfl⟩
        · exact hitem hmem hstands
        · exact ⟨_, .refl, rfl⟩
      | quote => exact standsIn_of_mem_stepsOfQuote hhead h
      | body =>
        obtain ⟨item, hmem, hstands⟩ := exists_standsIn_of_mem_all h
        exact hitem hmem hstands
  | .vector items span, h => by
    simp only [Form.steps] at h
    obtain ⟨item, hmem, hstands⟩ := exists_standsIn_of_mem_all h
    exact (Form.HasPart.datum (.vector hmem)).standsIn hstands
  | .set items span, h => by
    simp only [Form.steps] at h
    obtain ⟨item, hmem, hstands⟩ := exists_standsIn_of_mem_all h
    exact (Form.HasPart.datum (.set hmem)).standsIn hstands
  | .map entries span, h => by
    simp only [Form.steps] at h
    obtain ⟨entry, hmem, hkey | hvalue⟩ := exists_standsIn_of_mem_entries h
    · exact (Form.HasPart.datum (.key hmem)).standsIn hkey
    · exact (Form.HasPart.datum (.value hmem)).standsIn hvalue
  | .nil _, h | .bool _ _, h | .int _ _, h | .float _ _, h | .string _ _, h | .keyword _ _, h | .list [] _, h => by
    simp [Form.steps] at h

theorem standsIn_of_mem_stepsOfDef {step : AnalysisStep} {head : Form} {span : Span}
    (hhead : SpecialForm.define.Heads head) :
    ∀ {args : List Form}, step ∈ Form.stepsOfDef span args → step.StandsIn (.list (head :: args) span)
  | [target], h => by
    simp only [Form.stepsOfDef] at h
    exact standsIn_of_target hhead (standsIn_of_mem_target h)
  | [target, init], h => by
    simp only [Form.stepsOfDef] at h
    rcases List.mem_append.mp h with h | h
    · exact standsIn_of_target hhead (standsIn_of_mem_target h)
    · exact (Form.HasPart.datum (.list (by simp))).standsIn (standsIn_of_mem_steps h)
  | [target, .string _ _, init], h => by
    simp only [Form.stepsOfDef] at h
    rcases List.mem_append.mp h with h | h
    · exact standsIn_of_target hhead (standsIn_of_mem_target h)
    · exact (Form.HasPart.datum (.list (by simp))).standsIn (standsIn_of_mem_steps h)
  | [], h | [_, .nil _, _], h | [_, .bool _ _, _], h | [_, .int _ _, _], h | [_, .float _ _, _], h
  | [_, .keyword _ _, _], h | [_, .symbol _ _, _], h | [_, .list _ _, _], h | [_, .vector _ _, _], h
  | [_, .map _ _, _], h | [_, .set _ _, _], h | _ :: _ :: _ :: _ :: _, h => by
    simp only [Form.stepsOfDef] at h
    cases List.mem_singleton.mp h
    exact ⟨_, .refl, rfl⟩

theorem standsIn_of_mem_target {step : AnalysisStep} {documented : Bool} : ∀ {target : Form},
    step ∈ Form.stepsOfTarget documented target →
      (∃ sym inner, target = .symbol sym inner ∧ step = .define sym inner) ∨ step.StandsIn target
  | .symbol ⟨ns, name, some entries⟩ span, h => by
    simp only [Form.stepsOfTarget] at h
    rcases List.mem_cons.mp h with rfl | h
    · exact .inl ⟨_, _, rfl, rfl⟩
    · obtain ⟨entry, hmem, hstands⟩ := exists_standsIn_of_mem_tags h
      exact .inr ((Form.HasPart.tag hmem).standsIn hstands)
  | .symbol ⟨ns, name, none⟩ span, h => by
    simp only [Form.stepsOfTarget] at h
    exact .inl ⟨_, _, rfl, List.mem_singleton.mp h⟩
  | .nil _, h | .bool _ _, h | .int _ _, h | .float _ _, h | .string _ _, h | .keyword _ _, h | .list _ _, h
  | .vector _ _, h | .map _ _, h | .set _ _, h => by
    simp only [Form.stepsOfTarget] at h
    cases List.mem_singleton.mp h
    exact .inr ⟨_, .refl, rfl⟩

theorem exists_standsIn_of_mem_tags {step : AnalysisStep} {documented : Bool} : ∀ {entries : List (Key × Form)},
    step ∈ Form.stepsOfTags documented entries → ∃ entry ∈ entries, step.StandsIn entry.2
  | [], h => by simp [Form.stepsOfTags] at h
  | (k, form) :: rest, h => by
    have hrest : step ∈ Form.stepsOfTags documented rest → ∃ entry ∈ (k, form) :: rest, step.StandsIn entry.2 := by
      intro h
      obtain ⟨entry, hmem, hstands⟩ := exists_standsIn_of_mem_tags h
      exact ⟨entry, List.mem_cons_of_mem _ hmem, hstands⟩
    simp only [Form.stepsOfTags] at h
    split at h
    · exact hrest h
    · rcases List.mem_append.mp h with h | h
      · exact ⟨(k, form), List.mem_cons_self, standsIn_of_mem_steps h⟩
      · exact hrest h

theorem exists_standsIn_of_mem_enter {step : AnalysisStep} {span : Span} :
    ∀ {args : List Form}, step ∈ Form.stepsOfEnter span args →
      (∃ item ∈ args, step.StandsIn item) ∨ ∃ fault, step = .reject span fault
  | [target], h => by
    simp only [Form.stepsOfEnter] at h
    exact .inl ⟨target, List.mem_singleton_self target, standsIn_of_mem_steps h⟩
  | [], h | _ :: _ :: _, h => by
    simp only [Form.stepsOfEnter] at h
    exact .inr ⟨_, List.mem_singleton.mp h⟩

theorem exists_standsIn_of_mem_all {step : AnalysisStep} : ∀ {forms : List Form}, step ∈ Form.stepsOfAll forms →
    ∃ form ∈ forms, step.StandsIn form
  | [], h => by simp [Form.stepsOfAll] at h
  | form :: rest, h => by
    simp only [Form.stepsOfAll] at h
    rcases List.mem_append.mp h with h | h
    · exact ⟨form, List.mem_cons_self, standsIn_of_mem_steps h⟩
    · obtain ⟨item, hmem, hstands⟩ := exists_standsIn_of_mem_all h
      exact ⟨item, List.mem_cons_of_mem _ hmem, hstands⟩

theorem exists_standsIn_of_mem_entries {step : AnalysisStep} : ∀ {entries : List (Form × Form)},
    step ∈ Form.stepsOfEntries entries → ∃ entry ∈ entries, step.StandsIn entry.1 ∨ step.StandsIn entry.2
  | [], h => by simp [Form.stepsOfEntries] at h
  | (k, form) :: rest, h => by
    simp only [Form.stepsOfEntries] at h
    rcases List.mem_append.mp h with h | h
    · exact ⟨(k, form), List.mem_cons_self, .inl (standsIn_of_mem_steps h)⟩
    rcases List.mem_append.mp h with h | h
    · exact ⟨(k, form), List.mem_cons_self, .inr (standsIn_of_mem_steps h)⟩
    · obtain ⟨entry, hmem, hstands⟩ := exists_standsIn_of_mem_entries h
      exact ⟨entry, List.mem_cons_of_mem _ hmem, hstands⟩

end

/-! ### The error of a step -/

/-- The error is a malformed form or a name without meaning, at a span of the context's source. -/
def Context.Blames (ctx : Context) (span : Span) (err : Error) : Prop :=
  ∃ fault, ((∃ cause, fault = .parse cause) ∨ ∃ cause, fault = .lookup cause) ∧
    err = .plain { fault, span := some span, file := some ctx.sourcePath }

theorem exists_step_of_walk_error {ctx : Context} {steps : List AnalysisStep} {w w' : World} {err : Error}
    (h : walk ctx steps w = .error err w') : ∃ step ∈ steps, ∃ w₁, step.perform ctx w₁ = .error err w' := by
  induction steps generalizing w with
  | nil => cases h
  | cons step rest ih =>
    rcases Exec.bind_eq_error h with h | ⟨_, w₁, -, h⟩
    · exact ⟨step, List.mem_cons_self, w, h⟩
    · obtain ⟨later, hmem, hlater⟩ := ih h
      exact ⟨later, List.mem_cons_of_mem _ hmem, hlater⟩

section Errors
variable {ctx : Context} {sym : Symbol} {span : Span} {w w' : World} {err : Error}

theorem World.resolveVar_eq_error {ns : String} {create : Bool} {fault : Fault}
    (h : w.resolveVar ns sym create = .error fault) : ∃ qualifier, fault = .lookup (.noNamespace qualifier) := by
  unfold World.resolveVar at h
  split at h
  · next qualifier _ =>
    split at h
    · cases h
      exact ⟨qualifier, rfl⟩
    · split at h <;> cases h
  · split at h
    · cases h
    · split at h <;> cases h

theorem blames_of_fail {fault : LookupFault} {α : Type}
    (h : (ctx.fail span (.lookup fault) : Exec α) w = .error err w') : ctx.Blames span err := by
  cases h
  exact ⟨_, .inr ⟨fault, rfl⟩, rfl⟩

/-- Resolution has no span of its own, so it gets the one that it is given. -/
theorem blames_of_resolveVar {create : Bool} (h : ctx.blaming span (resolveVar ctx.ns sym create) w = .error err w') :
    ctx.Blames span err := by
  obtain ⟨err₀, h₀, rfl⟩ := Exec.adapt_eq_error h
  cases hresolve : w.resolveVar ctx.ns sym create with
  | ok p =>
    rw [resolveVar_of_ok hresolve] at h₀
    cases h₀
  | error fault =>
    rw [resolveVar_of_error hresolve] at h₀
    cases h₀
    obtain ⟨qualifier, rfl⟩ := World.resolveVar_eq_error hresolve
    exact ⟨_, .inr ⟨_, rfl⟩, rfl⟩

theorem blames_of_analyzeSymbol (h : analyzeSymbol ctx sym span w = .error err w') : ctx.Blames span err := by
  rcases Exec.bind_eq_error h with h | ⟨found, w₁, -, h⟩
  · exact blames_of_resolveVar h
  · cases found with
    | none => exact blames_of_fail h
    | some v => cases h

theorem blames_of_resolveTarget (h : resolveTarget ctx sym span w = .error err w') : ctx.Blames span err := by
  rcases Exec.bind_eq_error h with h | ⟨found, w₁, -, h⟩
  · exact blames_of_resolveVar h
  · cases found with
    | none => exact blames_of_fail h
    | some v =>
      dsimp only at h
      split at h
      · cases h
      · split at h
        · exact blames_of_fail h
        · cases h

theorem failsWith_of_ofResult {data : Form} (h : Exec.ofResult data.toValue w = .error err w') :
    ∃ failure, data.FailsWith failure ∧ err = .plain failure := by
  cases hdata : data.toValue with
  | ok value =>
    rw [hdata] at h
    cases h
  | error failure =>
    rw [hdata] at h
    cases h
    exact ⟨failure, Form.toValue_eq_error hdata, rfl⟩

theorem attachArglists_eq_error {v : Var} (h : attachArglists sym v w = .error err w') :
    ∃ data failure, sym.arglists? = some data ∧ data.FailsWith failure ∧ err = .plain failure := by
  unfold attachArglists at h
  cases harglists : sym.arglists? with
  | none =>
    rw [harglists] at h
    cases h
  | some data =>
    rw [harglists] at h
    rcases Exec.bind_eq_error h with h | ⟨value, w₁, -, h⟩
    · obtain ⟨failure, hfails, rfl⟩ := failsWith_of_ofResult h
      exact ⟨data, failure, rfl, hfails, rfl⟩
    · cases h

theorem openDefinition_eq_error (h : openDefinition ctx sym span w = .error err w') :
    ctx.Blames span err ∨
      ∃ data failure, sym.arglists? = some data ∧ data.FailsWith failure ∧ err = .plain failure := by
  rcases Exec.bind_eq_error h with h | ⟨v, w₁, -, h⟩
  · exact .inl (blames_of_resolveTarget h)
  rcases Exec.bind_eq_error h with h | ⟨_, w₂, -, h⟩
  · rw [declareDynamic_apply] at h
    cases h
  rcases Exec.bind_eq_error h with h | ⟨_, w₃, -, h⟩
  · exact .inr (attachArglists_eq_error h)
  · cases h

/-- A step for a form nested in `form` fails at the span of such a form, or at a key of data in it. -/
theorem AnalysisStep.StandsIn.error {form : Form} {step : AnalysisStep} (hstep : step.StandsIn form)
    (h : step.perform ctx w = .error err w') :
    (∃ part, form.Nests part ∧ ctx.Blames part.span err) ∨
      ∃ data failure, (form.Quotes data ∨ form.HasArglists data) ∧ data.FailsWith failure ∧ err = .plain failure := by
  cases step with
  | refer sym span => exact .inl ⟨_, hstep, blames_of_analyzeSymbol (Exec.map_eq_error h)⟩
  | define sym span =>
    obtain ⟨head, rest, outer, hhead, hnests⟩ := hstep
    rcases openDefinition_eq_error (Exec.map_eq_error h) with hblames | ⟨data, failure, harglists, hfails⟩
    · refine .inl ⟨.symbol sym span, hnests.tail (.datum (.list ?_)), hblames⟩
      exact List.mem_cons_of_mem _ List.mem_cons_self
    · exact .inr ⟨data, failure, .inr ⟨head, sym, span, rest, outer, hhead, hnests, harglists⟩, hfails⟩
  | take data =>
    obtain ⟨failure, hfails⟩ := failsWith_of_ofResult (Exec.map_eq_error h)
    exact .inr ⟨data, failure, .inl hstep, hfails⟩
  | reject span fault =>
    obtain ⟨part, hnests, rfl⟩ := hstep
    cases h
    exact .inl ⟨part, hnests, _, .inl ⟨fault, rfl⟩, rfl⟩

end Errors

/-! ### Empty collections -/

/-- The checked constructor of empty collections refuses none of those that analysis comes to. -/
theorem Expr.ofEmpty_eq_ofLiteral {value : Value} (h : value.count? = some 0) :
    Expr.ofEmpty value = .ok (.ofLiteral value) := by
  cases value <;> simp [Value.count?] at h <;> subst h <;> rfl

/-! ### Main result -/

/-- An error of analysis has no position of a running construct. It is a malformed form or a name without meaning, with
the context's source and the span of the form or of one nested in it; or it is the type error that some map key of
quoted data or of argument lists cannot be a key, with the span of that key. The nodes of empty collections are those
that their checked constructor makes, so this never fails. -/
theorem analysis_errors_point_into_source (ctx : Context) (form : Form) (w : World) :
    (∀ err w', analyze ctx form w = .error err w' →
      (∃ fault part, ((∃ cause, fault = .parse cause) ∨ ∃ cause, fault = .lookup cause) ∧ form.Nests part ∧
        err = .plain { fault, span := some part.span, file := some ctx.sourcePath }) ∨
      ∃ data key, (form.Quotes data ∨ form.HasArglists data) ∧ data.HasKey key ∧ key.isKeyData = false ∧
        err = .plain { fault := .typeMismatch "map key" key.kindName, span := some key.span }) ∧
    (∀ kind : CollKind, Expr.ofEmpty kind.empty = .ok (.empty kind)) ∧
    ∀ value : Value, value.count? = some 0 → Expr.ofEmpty value = .ok (.ofLiteral value) := by
  refine ⟨fun err w' h => ?_, fun kind => by cases kind <;> rfl, fun value => Expr.ofEmpty_eq_ofLiteral⟩
  obtain ⟨step, hmem, w₁, hstep⟩ := exists_step_of_walk_error (walk_of_error h)
  rcases (standsIn_of_mem_steps hmem).error hstep with
    ⟨part, hnests, fault, hfault, rfl⟩ | ⟨data, failure, hdata, ⟨key, hkey, hbad, rfl⟩, rfl⟩
  · exact .inl ⟨fault, part, hfault, hnests, rfl⟩
  · exact .inr ⟨data, key, hdata, hkey, hbad, rfl⟩

/-- A definition in the metadata of another one, with a vector as a map key in its argument lists: the error has the
vector's span and no file. -/
theorem analysis_errors_point_into_source_arglists :
    let place : Span := { line := 5, col := 2, index := 40 }
    let inner : Symbol :=
      { ns := none, name := "g"
        metadata := some [(.keyword "arglists", .quote (.list [.map [(.vector [] place, .int 1)]]))] }
    let outer : Symbol :=
      { ns := none, name := "f"
        metadata := some [(.keyword "k", .list [.symbol (.unqualified "def"), .symbol inner])] }
    let form : Form := .list [.symbol (.unqualified "def"), .symbol outer]
    ∃ err w', analyze { ns := "user", source := some "a.clv" } form (World.start {} .watching) = .error err w' ∧
      err.span? = some place ∧ err.file? = none ∧
      ∃ data key, (form.Quotes data ∨ form.HasArglists data) ∧ data.HasKey key ∧ key.isKeyData = false ∧
        key.span = place := by
  intro place inner outer form
  have hfails : Exec.errorWith (fun err _ => err.span? == some place && err.file? == none)
      (analyze { ns := "user", source := some "a.clv" } form (World.start {} .watching)) = true := by
    decide +kernel
  obtain ⟨err, w', h, htest⟩ := Exec.exists_of_errorWith hfails
  obtain ⟨hspan, hfile⟩ : err.span? = some place ∧ err.file? = none := by simpa using htest
  refine ⟨err, w', h, hspan, hfile, ?_⟩
  rcases (analysis_errors_point_into_source { ns := "user", source := some "a.clv" } form _).1 err w' h with
    ⟨fault, part, -, -, rfl⟩ | ⟨data, key, hdata, hkey, hbad, rfl⟩
  · cases hfile
  · exact ⟨data, key, hdata, hkey, hbad, Option.some.inj hspan⟩

end LispCore
