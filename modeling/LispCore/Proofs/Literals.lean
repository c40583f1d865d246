import LispCore.Proofs.Grammar
import LispCore.Proofs.Runs

/-! # Literal data

Atoms, empty lists, and vectors, sets and maps of such forms stand for themselves. Analysis always takes them, and
their nodes compute what the form is as data, or fail where it is none (`Form.Means`). So does quoted data of any
shape. Whoever runs such a form, the value is the one that the form is as data and nothing happens but what is logged
(`Exec.Gives`): of equal items and keys the same one stays, and lists and vectors are told apart to any depth. -/

namespace LispCore

/-! ### Results without their failures -/

section Results
variable {ε ε' α β : Type}

@[simp]
theorem toOption_pure (a : α) : (pure a : Except ε α).toOption = some a := rfl

@[simp]
theorem toOption_bind (r : Except ε α) (f : α → Except ε β) :
    (r >>= f).toOption = r.toOption >>= fun a => (f a).toOption := by
  cases r <;> rfl

@[simp]
theorem toOption_mapError (r : Except ε α) (f : ε → ε') : (r.mapError f).toOption = r.toOption := by
  cases r <;> rfl

theorem toOption_eq_some_iff {r : Except ε α} {a : α} : r.toOption = some a ↔ r = .ok a := by
  cases r <;> simp [Except.toOption]

@[simp]
theorem Exec.ofExcept_pure (a : α) : Exec.ofExcept (pure a) = pure a := rfl

@[simp]
theorem Exec.ofExcept_bind (r : Except Fault α) (f : α → Except Fault β) :
    Exec.ofExcept (r >>= f) = Exec.ofExcept r >>= fun a => Exec.ofExcept (f a) := by
  cases r <;> rfl

end Results

/-! ### Map entries -/

/-- The entries of a map with their keys as keys. -/
def Value.keyed (entries : List (Value × Value)) : Except Fault (List (Key × Value)) :=
  entries.mapM fun p => do return (← Key.ofValue p.1, p.2)

theorem Value.mapOf_eq (entries : List (Value × Value)) :
    Value.mapOf entries = (do return Table.ofList (← Value.keyed entries)) := rfl

theorem Value.keyed_cons (k v : Value) (rest : List (Value × Value)) :
    Value.keyed ((k, v) :: rest) = (do
      let key ← Key.ofValue k
      let keyed ← Value.keyed rest
      return (key, v) :: keyed) := by
  simp only [keyed, List.mapM_cons, bind_assoc, pure_bind]

/-! ### Nodes that compute data -/

namespace Expr

/-- Whatever the world, the node computes what the form is as data, or fails where it is none. -/
def IsData (data : Form) (e : Expr) : Prop :=
  ∃ r : Except Fault Value, (∀ blame order, e.evalWith blame order = Exec.ofExcept r) ∧
    r.toOption = data.toValue.toOption

def AreData (data : List Form) (es : List Expr) : Prop :=
  ∃ r : Except Fault (List Value), (∀ blame order, evalAll blame order es = Exec.ofExcept r) ∧
    r.toOption = (Form.toValues data).toOption

/-- The keys are made of their values after all values are computed. -/
def AreDataEntries (data : List (Form × Form)) (ps : List (Expr × Expr)) : Prop :=
  ∃ r : Except Fault (List (Value × Value)), (∀ blame order, evalEntries blame order ps = Exec.ofExcept r) ∧
    (r >>= Value.keyed).toOption = (Form.toEntries data).toOption

theorem isData_of_pure {e : Expr} {data : Form} {value : Value}
    (he : ∀ blame order, e.evalWith blame order = pure value) (h : data.toValue = .ok value) : e.IsData data :=
  ⟨.ok value, he, by rw [h]; rfl⟩

/-- An empty collection has a node of its own, with the same value. -/
theorem evalWith_ofLiteral (value : Value) (blame : SourcePos → Error → Error) (order : DefOrder) :
    (Expr.ofLiteral value).evalWith blame order = pure value := by
  unfold ofLiteral
  split
  · next kind hkind hcount =>
    have hempty : kind.empty = value := by
      cases value with
      | list items | vector items | set items | map items =>
        cases hkind
        rw [List.length_eq_zero_iff.mp (Option.some.inj hcount)]
        rfl
      | _ => cases hkind
    simp only [evalWith, hempty]
  · simp only [evalWith]

theorem IsData.cons {form : Form} {rest : List Form} {e : Expr} {es : List Expr} (he : e.IsData form)
    (hes : AreData rest es) : AreData (form :: rest) (e :: es) := by
  obtain ⟨r, heval, hr⟩ := he
  obtain ⟨rs, hevals, hrs⟩ := hes
  refine ⟨do return (← r) :: (← rs), fun blame order => ?_, ?_⟩
  · simp only [evalAll, heval, hevals, Exec.ofExcept_bind, Exec.ofExcept_pure]
  · simp only [Form.toValues, toOption_bind, toOption_pure, hr, hrs]

theorem AreData.vector {items : List Form} {es : List Expr} (h : AreData items es) (span : Span) :
    (Expr.vector es).IsData (.vector items span) := by
  obtain ⟨rs, hevals, hrs⟩ := h
  refine ⟨do return .vector (← rs), fun blame order => ?_, ?_⟩
  · simp only [evalWith, hevals, Exec.ofExcept_bind, Exec.ofExcept_pure]
  · simp only [Form.toValue, toOption_bind, toOption_pure, hrs]

theorem AreData.set {items : List Form} {es : List Expr} (h : AreData items es) (span : Span) :
    (Expr.set es).IsData (.set items span) := by
  obtain ⟨rs, hevals, hrs⟩ := h
  refine ⟨do return .set (Value.setOf (← rs)), fun blame order => ?_, ?_⟩
  · simp only [evalWith, hevals, Exec.ofExcept_bind, Exec.ofExcept_pure]
  · simp only [Form.toValue, toOption_bind, toOption_pure, hrs]

theorem AreDataEntries.cons {k form : Form} {rest : List (Form × Form)} {key e : Expr} {ps : List (Expr × Expr)}
    (hkey : key.IsData k) (he : e.IsData form) (hps : AreDataEntries rest ps) :
    AreDataEntries ((k, form) :: rest) ((key, e) :: ps) := by
  obtain ⟨rk, hevalKey, hrk⟩ := hkey
  obtain ⟨r, heval, hr⟩ := he
  obtain ⟨rs, hevals, hrs⟩ := hps
  refine ⟨do return (← rk, ← r) :: (← rs), fun blame order => ?_, ?_⟩
  · simp only [evalEntries, hevalKey, heval, hevals, Exec.ofExcept_bind, Exec.ofExcept_pure]
  · rw [toOption_bind] at hrs
    simp only [Form.toEntries, Value.keyed_cons, toOption_bind, toOption_pure, toOption_mapError, bind_assoc, pure_bind,
      hrk, hr, ← hrs]
    -- neither order of the steps has a value unless all of them have one
    rcases k.toValue.toOption with _ | value
    · rfl
    · rcases hkeyed : (Key.ofValue value).toOption with _ | key <;> rcases form.toValue.toOption with _ | value' <;>
        rcases rs.toOption with _ | values <;> simp [hkeyed]

theorem AreDataEntries.map {entries : List (Form × Form)} {ps : List (Expr × Expr)} (h : AreDataEntries entries ps)
    (span : Span) : (Expr.map ps).IsData (.map entries span) := by
  obtain ⟨rs, hevals, hrs⟩ := h
  refine ⟨do return .map (← Value.mapOf (← rs)), fun blame order => ?_, ?_⟩
  · simp only [evalWith, hevals, Exec.ofExcept_bind, Exec.ofExcept_pure]
  · rw [toOption_bind] at hrs
    simp only [Form.toValue, Value.mapOf_eq, toOption_bind, toOption_pure, ← hrs, bind_assoc, pure_bind]

end Expr

/-! ### Literals -/

mutual

/-- The form is literal data: neither a symbol nor a list with something in it is part of it. -/
def Form.isLiteral : Form → Bool
  | .nil _ | .bool _ _ | .int _ _ | .float _ _ | .string _ _ | .keyword _ _ | .list [] _ => true
  | .vector items _ | .set items _ => Form.areLiteral items
  | .map entries _ => Form.areLiteralEntries entries
  | _ => false

def Form.areLiteral : List Form → Bool
  | [] => true
  | form :: rest => Form.isLiteral form && Form.areLiteral rest

def Form.areLiteralEntries : List (Form × Form) → Bool
  | [] => true
  | (k, form) :: rest => Form.isLiteral k && (Form.isLiteral form && Form.areLiteralEntries rest)

end

theorem analyze_vector_cons (ctx : Context) (item : Form) (items : List Form) (span : Span) :
    analyze ctx (.vector (item :: items) span) = Expr.vector <$> analyzeAll ctx (item :: items) := by
  simp only [analyze, analyzeAll, map_eq_pure_bind, bind_assoc, pure_bind]

theorem analyze_set_cons (ctx : Context) (item : Form) (items : List Form) (span : Span) :
    analyze ctx (.set (item :: items) span) = Expr.set <$> analyzeAll ctx (item :: items) := by
  simp only [analyze, analyzeAll, map_eq_pure_bind, bind_assoc, pure_bind]

theorem analyze_map_cons (ctx : Context) (entry : Form × Form) (entries : List (Form × Form)) (span : Span) :
    analyze ctx (.map (entry :: entries) span) = Expr.map <$> analyzeEntries ctx (entry :: entries) := by
  simp only [analyze, analyzeEntries, map_eq_pure_bind, bind_assoc, pure_bind]

mutual

/-- Analysis makes of literal data one node, whatever the context and the world, and the node computes the data. -/
theorem Form.exists_node_of_isLiteral : ∀ {form : Form}, form.isLiteral = true →
    ∃ e, (∀ ctx, analyze ctx form = pure e) ∧ e.IsData form
  | .nil _, _ | .bool _ _, _ | .int _ _, _ | .float _ _, _ | .string _ _, _ | .keyword _ _, _ => by
    refine ⟨.const _, fun ctx => by simp only [analyze]; rfl, Expr.isData_of_pure (fun blame order => ?_) rfl⟩
    simp only [Expr.evalWith]
  | .list [] _, _ | .vector [] _, _ | .set [] _, _ | .map [] _, _ => by
    refine ⟨.empty _, fun ctx => by simp only [analyze]; rfl, Expr.isData_of_pure (fun blame order => ?_) rfl⟩
    simp only [Expr.evalWith]
    rfl
  | .vector (item :: items) span, h => by
    have hitems : Form.areLiteral (item :: items) = true := h
    obtain ⟨es, hes, hdata⟩ := Form.exists_nodes_of_areLiteral hitems
    exact ⟨.vector es, fun ctx => by rw [analyze_vector_cons, hes, map_pure], hdata.vector span⟩
  | .set (item :: items) span, h => by
    have hitems : Form.areLiteral (item :: items) = true := h
    obtain ⟨es, hes, hdata⟩ := Form.exists_nodes_of_areLiteral hitems
    exact ⟨.set es, fun ctx => by rw [analyze_set_cons, hes, map_pure], hdata.set span⟩
  | .map (entry :: entries) span, h => by
    have hentries : Form.areLiteralEntries (entry :: entries) = true := h
    obtain ⟨ps, hps, hdata⟩ := Form.exists_nodes_of_areLiteralEntries hentries
    exact ⟨.map ps, fun ctx => by rw [analyze_map_cons, hps, map_pure], hdata.map span⟩
  | .symbol _ _, h | .list (_ :: _) _, h => by
    simp only [Form.isLiteral, Bool.false_eq_true] at h

theorem Form.exists_nodes_of_areLiteral : ∀ {forms : List Form}, Form.areLiteral forms = true →
    ∃ es, (∀ ctx, analyzeAll ctx forms = pure es) ∧ Expr.AreData forms es
  | [], _ => ⟨[], fun _ => by simp only [analyzeAll], .ok [], fun _ _ => by simp only [Expr.evalAll]; rfl, rfl⟩
  | form :: rest, h => by
    obtain ⟨hform, hrest⟩ := Bool.and_eq_true_iff.mp h
    obtain ⟨e, he, hdata⟩ := Form.exists_node_of_isLiteral hform
    obtain ⟨es, hes, hrest⟩ := Form.exists_nodes_of_areLiteral hrest
    exact ⟨e :: es, fun ctx => by simp only [analyzeAll, he, hes, pure_bind], hdata.cons hrest⟩

theorem Form.exists_nodes_of_areLiteralEntries : ∀ {entries : List (Form × Form)},
    Form.areLiteralEntries entries = true → ∃ ps, (∀ ctx, analyzeEntries ctx entries = pure ps) ∧
      Expr.AreDataEntries entries ps
  | [], _ => ⟨[], fun _ => by simp only [analyzeEntries], .ok [], fun _ _ => by simp only [Expr.evalEntries]; rfl, rfl⟩
  | (k, form) :: rest, h => by
    obtain ⟨hk, h⟩ := Bool.and_eq_true_iff.mp h
    obtain ⟨hform, hrest⟩ := Bool.and_eq_true_iff.mp h
    obtain ⟨key, hkey, hkeyData⟩ := Form.exists_node_of_isLiteral hk
    obtain ⟨e, he, hdata⟩ := Form.exists_node_of_isLiteral hform
    obtain ⟨ps, hps, hrest⟩ := Form.exists_nodes_of_areLiteralEntries hrest
    exact ⟨(key, e) :: ps, fun ctx => by simp only [analyzeEntries, hkey, he, hps, pure_bind],
      .cons hkeyData hdata hrest⟩

end

/-! ### Ways to write data -/

/-- The source is a way to write the data: analysis makes of it a node that computes the data, and fails only if there
is none. -/
def Form.Means (source data : Form) : Prop :=
  ∀ ctx w, (∃ e, analyze ctx source w = .ok e w ∧ e.IsData data) ∨
    ∃ err, analyze ctx source w = .error err w ∧ data.toValue.toOption = none

theorem Form.means_self {form : Form} (h : form.isLiteral = true) : form.Means form := by
  obtain ⟨e, he, hdata⟩ := Form.exists_node_of_isLiteral h
  exact fun ctx w => .inl ⟨e, by rw [he]; rfl, hdata⟩

theorem Form.means_quoted {head : Form} (hhead : SpecialForm.quote.Heads head) (data : Form) (span : Span) :
    (Form.list [head, data] span).Means data := by
  intro ctx w
  rw [analyze_quoted (by rw [SpecialForm.ofHead?_eq_some_iff.mpr hhead]; rfl), analyzeQuote]
  cases hdata : data.toValue with
  | ok value =>
    exact .inl ⟨.ofLiteral value, rfl, Expr.isData_of_pure (Expr.evalWith_ofLiteral value) hdata⟩
  | error failure => exact .inr ⟨.plain failure, rfl, rfl⟩

/-! ### Running them -/

/-- Whatever the world, the run has the value that the form is as data, or fails where it is none, and in either case
nothing happens but what is logged. -/
def Exec.Gives (data : Form) (x : Exec Value) : Prop :=
  ∀ w, (∀ value, (∃ w', x w = .ok value w') ↔ data.toValue = .ok value) ∧ ∃ log, x.finalWorld w = { w with log }

section Gives
variable {data : Form} {x : Exec Value}

theorem Expr.IsData.gives {e : Expr} (h : e.IsData data) (blame : SourcePos → Error → Error) (order : DefOrder) :
    Exec.Gives data (e.evalWith blame order) := by
  obtain ⟨r, heval, hr⟩ := h
  intro w
  rw [heval]
  refine ⟨fun value => ?_, w.log, ?_⟩
  · rw [← toOption_eq_some_iff, ← hr, toOption_eq_some_iff]
    constructor
    · rintro ⟨w', hvalue⟩
      cases r with
      | ok a =>
        cases hvalue
        rfl
      | error fault => cases hvalue
    · rintro rfl
      exact ⟨w, rfl⟩
  · cases r <;> rfl

theorem Exec.Gives.adapt (h : Exec.Gives data x) (f : Error → Error) : Exec.Gives data (Exec.adapt f x) := by
  intro w
  obtain ⟨hvalue, hworld⟩ := h w
  refine ⟨fun value => ?_, by rwa [Exec.finalWorld_adapt]⟩
  rw [← hvalue]
  exact ⟨fun ⟨w', h⟩ => ⟨w', Exec.adapt_eq_ok h⟩, fun ⟨w', h⟩ => ⟨w', Exec.adapt_of_ok f h⟩⟩

theorem Exec.Gives.noted (h : Exec.Gives data x) (r : LogRecord) :
    Exec.Gives data (do modify (·.note r); x) :=
  fun w => h (w.note r)

theorem Expr.IsData.gives_toChunk {e : Expr} (h : e.IsData data) (file : String) (span : Span) :
    Exec.Gives data (e.toChunk file span).run := by
  rw [Expr.run_toChunk]
  exact ((h.gives _ _).adapt _).noted _

theorem Expr.IsData.gives_runNode {e : Expr} (h : e.IsData data) (options : Options) (engine : Engine) (span : Span) :
    Exec.Gives data (runNode options engine span e) := by
  cases engine with
  | direct => exact h.gives _ _
  | machine =>
    simp only [runNode, compileTopLevel, bind_assoc, pure_bind]
    exact (h.gives_toChunk _ _).noted _

theorem Form.Means.gives {source : Form} (h : source.Means data) {run : Expr → Exec Value}
    (hrun : ∀ e, e.IsData data → Exec.Gives data (run e)) (ctx : Context) :
    Exec.Gives data (analyze ctx source >>= run) := by
  intro w
  rcases h ctx w with ⟨e, hanalyze, he⟩ | ⟨err, hanalyze, hnone⟩
  · have hbind := Exec.bind_of_ok (f := run) hanalyze
    rw [Exec.finalWorld_congr hbind, hbind]
    exact hrun e he w
  · have hbind := Exec.bind_of_error (f := run) hanalyze
    refine ⟨fun value => ?_, w.log, Exec.finalWorld_of_error hbind⟩
    rw [hbind, ← toOption_eq_some_iff, hnone]
    simp

theorem Form.Means.gives_evalFormWith {source : Form} (h : source.Means data) (options : Options) (engine : Engine) :
    Exec.Gives data (evalFormWith options engine source) := by
  intro w
  have hrun : ∀ e : Expr, e.IsData data → Exec.Gives data (do
      modify (·.note (.evaluating e.kindName source.span.line engine))
      Exec.locating { file := options.sourcePath, line := source.span.line }
        (runNode options engine source.span e)) :=
    fun e he => ((he.gives_runNode options engine source.span).adapt _).noted _
  exact h.gives hrun (topLevelContext options w source.span.line) w

end Gives

/-! ### Main result -/

/-- Literal data means the same with a quote and without: analysis takes it in every context, and both forms, run by
either engine, have the value that the form is as data, or fail where it is none. -/
theorem literals_agree_with_quoted {form head : Form} (hform : form.isLiteral = true)
    (hhead : SpecialForm.quote.Heads head) (span : Span) :
    (∃ e, ∀ ctx, analyze ctx form = pure e) ∧
    ∀ source ∈ [form, .list [head, form] span],
      (∀ ctx, Exec.Gives form (analyze ctx source >>= Expr.eval)) ∧
      (∀ ctx file span', Exec.Gives form (analyze ctx source >>= fun e => (e.toChunk file span').run)) ∧
      ∀ options engine, Exec.Gives form (evalFormWith options engine source) := by
  obtain ⟨e, he, -⟩ := Form.exists_node_of_isLiteral hform
  have hmeans : ∀ source ∈ [form, .list [head, form] span], source.Means form := by
    simp only [List.forall_mem_cons, List.not_mem_nil, false_imp_iff, implies_true, and_true]
    exact ⟨Form.means_self hform, Form.means_quoted hhead form span⟩
  refine ⟨⟨e, he⟩, fun source hsource => ⟨fun ctx => ?_, fun ctx file span' => ?_, fun options engine => ?_⟩⟩
  · exact (hmeans source hsource).gives (fun e he => he.gives _ _) ctx
  · exact (hmeans source hsource).gives (fun e he => he.gives_toChunk file span') ctx
  · exact (hmeans source hsource).gives_evalFormWith options engine

/-- A key twice, and under it a set of two vectors that are equal, one with a list in it and one with a vector: the last
of each stays, with the quote and without. -/
theorem literals_agree_with_quoted_repeated :
    let form : Form := .map [(.keyword "a", .int 1), (.keyword "a", .set [.vector [.list []], .vector [.vector []]])]
    let value : Value := .map [(.keyword "a", .set [.vector [.vector []]])]
    form.isLiteral = true ∧
      ∀ source ∈ [form, form.quote],
        ∃ w', evalFormWith {} .machine source (World.start {} .watching) = .ok value w' := by
  intro form value
  have hform : form.isLiteral = true := rfl
  refine ⟨hform, fun source hsource => ?_⟩
  have hvalue : form.toValue = .ok value := by with_unfolding_all rfl
  obtain ⟨-, hruns⟩ := literals_agree_with_quoted hform ⟨none, {}, rfl⟩ {}
  exact (((hruns source hsource).2.2 {} .machine (World.start {} .watching)).1 value).mpr hvalue

end LispCore
