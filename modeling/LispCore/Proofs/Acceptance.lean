import LispCore.Proofs.Grammar
import LispCore.Proofs.Residue

/-! # Analysis accepts the grammar

Analysis and the judgment of the grammar go through a form in the same order. At each point the world of the analysis
is the one that it started in, but for the names in its own namespace (`World.Scoped`), and these are the names that
the judgment has come to. So each part of analysis recognizes what a part of the judgment says
(`Exec.Recognizes`), and this is closed under sequencing. -/

namespace LispCore

namespace World

/-! ### What is in scope during analysis -/

/-- During an analysis in `ns` that started in `w`: symbols denote what they did, and the other namespaces map their
names as they did. -/
structure Scoped (w : World) (ns : String) (u : World) : Prop where
  here : u.hasNs ns = true
  homes : ∀ sym, u.homeOf ns sym = w.homeOf ns sym
  elsewhere : ∀ m, m ≠ ns → ∀ name, u.lookup m name = w.lookup m name

variable {w u u' : World} {ns : String} {sym : Symbol}

theorem denotes_iff {home : String} : w.Denotes ns sym home ↔ w.homeOf ns sym = some home := by
  constructor
  · rintro (h | ⟨h, halias⟩ | ⟨h, halias, hns⟩)
    · exact homeOf_unqualified h
    · rw [homeOf_qualified h, resolveNs, halias]
    · rw [homeOf_qualified h, resolveNs, halias]
      exact if_pos hns
  · intro h
    cases hq : sym.ns with
    | none =>
      rw [homeOf_unqualified hq] at h
      cases h
      exact .unqualified hq
    | some qualifier =>
      rw [homeOf_qualified hq, resolveNs] at h
      cases halias : Table.get? (w.namespaceAt ns).aliases qualifier with
      | some target =>
        rw [halias] at h
        cases h
        exact .short hq halias
      | none =>
        rw [halias] at h
        by_cases hns : w.hasNs qualifier = true
        · rw [if_pos hns] at h
          cases h
          exact .full hq halias hns
        · rw [if_neg hns] at h
          cases h

theorem Scoped.denotes_iff (hu : w.Scoped ns u) {home : String} :
    w.Denotes ns sym home ↔ u.homeOf ns sym = some home := by
  rw [hu.homes, World.denotes_iff]

/-- A symbol is in scope iff its home maps its name. -/
theorem Scoped.inScope_iff (hu : w.Scoped ns u) : w.InScope ns (u.names ns) sym ↔
    ∃ home, u.homeOf ns sym = some home ∧ (u.lookup home sym.name).isSome = true := by
  constructor
  · rintro (⟨hhome, hname⟩ | ⟨hhome, hne, hname⟩)
    · exact ⟨ns, hu.denotes_iff.mp hhome, hname⟩
    · refine ⟨_, hu.denotes_iff.mp hhome, ?_⟩
      rw [hu.elsewhere _ hne]
      exact hname
  · rintro ⟨home, hhome, hname⟩
    by_cases hne : home = ns
    · subst hne
      exact .here (hu.denotes_iff.mpr hhome) hname
    · refine .abroad (hu.denotes_iff.mpr hhome) hne ?_
      rw [hu.elsewhere home hne] at hname
      exact hname

theorem Scoped.of_namespaces (hu : w.Scoped ns u) (h : u'.namespaces = u.namespaces) : w.Scoped ns u' where
  here := by rw [hasNs_congr h, hu.here]
  homes := fun sym => by
    have haliases := congrArg Namespace.aliases (namespaceAt_congr h ns)
    rw [homeOf_congr haliases (hasNs_congr h), hu.homes]
  elsewhere := fun m hm name => by rw [lookup_congr h, hu.elsewhere m hm]

theorem names_congr (h : u'.namespaces = u.namespaces) : u'.names ns = u.names ns := by
  simp only [names, lookup_congr h]

theorem Scoped.of_mapped {opened : List (Symbol × Var)} (hu : w.Scoped ns u) (h : u.Mapped ns opened u') :
    w.Scoped ns u' := by
  have hhas : ∀ m, u'.hasNs m = u.hasNs m := by
    intro m
    by_cases hm : m = ns
    · rw [hm, hu.here, h.still hu.here]
    · rw [World.hasNs, World.hasNs, Table.contains, Table.contains, h.elsewhere m hm]
  exact {
    here := h.still hu.here
    homes := fun sym => by rw [homeOf_congr h.aliases hhas, hu.homes]
    elsewhere := fun m hm name => by rw [h.lookup_elsewhere hm, hu.elsewhere m hm] }

theorem names_intern (u : World) (ns : String) (sym : Symbol) (hhome : u.homeOf ns sym = some ns) :
    (u.intern ns sym.name).2.names ns = insert sym.name (u.names ns) := by
  ext name
  by_cases hname : name = sym.name
  · subst hname
    simp [names, lookup_intern]
  · rcases (mapped_intern hhome).names name with hsame | ⟨-, d, hd, hd', -⟩
    · simp [names, hsame, hname]
    · rw [List.mem_singleton.mp hd] at hd'
      exact (hname hd'.symm).elim

end World

/-! ### Recognizing -/

/-- `x` succeeds where `R` takes the mapped names to some names, and these are mapped afterwards. -/
def Exec.Recognizes {α : Type} (w : World) (ns : String) (R : Set String → Set String → Prop) (x : Exec α) : Prop :=
  ∀ u, w.Scoped ns u → match x u with
    | .ok _ u' => w.Scoped ns u' ∧ ∀ M', R (u.names ns) M' ↔ M' = u'.names ns
    | .error _ _ => ∀ M', ¬R (u.names ns) M'

namespace Exec.Recognizes
variable {α β : Type} {w u u' : World} {ns : String} {R S : Set String → Set String → Prop} {x : Exec α}

theorem of_ok (h : Recognizes w ns R x) (hu : w.Scoped ns u) {a : α} (hx : x u = .ok a u') :
    w.Scoped ns u' ∧ ∀ M', R (u.names ns) M' ↔ M' = u'.names ns := by
  have hscoped := h u hu
  rwa [hx] at hscoped

theorem of_error (h : Recognizes w ns R x) (hu : w.Scoped ns u) {err : Error} (hx : x u = .error err u') :
    ∀ M', ¬R (u.names ns) M' := by
  have hscoped := h u hu
  rwa [hx] at hscoped

theorem congr (h : Recognizes w ns R x) (hRS : ∀ M M', R M M' ↔ S M M') : Recognizes w ns S x := by
  have hRS : R = S := by
    funext M M'
    exact propext (hRS M M')
  rwa [← hRS]

theorem pure (a : α) : Recognizes w ns (fun M M' => M' = M) (Pure.pure a) :=
  fun _ hu => ⟨hu, fun _ => .rfl⟩

theorem fail (ctx : Context) (span : Span) (fault : Fault) (h : ∀ M M', ¬R M M') :
    Recognizes w ns R (ctx.fail span fault : Exec α) :=
  fun _ _ => h _

theorem bind {f : α → Exec β} (hx : Recognizes w ns R x) (hf : ∀ a, Recognizes w ns S (f a)) :
    Recognizes w ns (fun M M' => ∃ M₁, R M M₁ ∧ S M₁ M') (x >>= f) := by
  intro u hu
  cases h : x u with
  | error err u₁ =>
    rw [bind_of_error h]
    rintro M' ⟨M₁, hR, -⟩
    exact hx.of_error hu h M₁ hR
  | ok a u₁ =>
    obtain ⟨hu₁, hR⟩ := hx.of_ok hu h
    rw [bind_of_ok h]
    -- the names after `x` are determined, so `S` goes on from them
    cases h' : f a u₁ with
    | error err u₂ =>
      rintro M' ⟨M₁, hM₁, hS⟩
      rw [hR] at hM₁
      subst hM₁
      exact (hf a).of_error hu₁ h' M' hS
    | ok b u₂ =>
      obtain ⟨hu₂, hS⟩ := (hf a).of_ok hu₁ h'
      refine ⟨hu₂, fun M' => ?_⟩
      simp only [hR, exists_eq_left, hS]

theorem bind_pure {f : α → β} (hx : Recognizes w ns R x) : Recognizes w ns R (x >>= fun a => Pure.pure (f a)) :=
  (hx.bind fun a => pure (f a)).congr fun M M' => by simp

/-- A step that maps no name and that succeeds where `P` holds of the mapped names. -/
theorem test {P : Set String → Prop} (hx : ∀ u, w.Scoped ns u →
      (P (u.names ns) ∧ ∃ a u', x u = .ok a u' ∧ u'.namespaces = u.namespaces) ∨
      ¬P (u.names ns) ∧ ∃ err u', x u = .error err u') :
    Recognizes w ns (fun M M' => P M ∧ M' = M) x := by
  intro u hu
  rcases hx u hu with ⟨hP, a, u', h, hnamespaces⟩ | ⟨hP, err, u', h⟩
  · rw [h]
    refine ⟨hu.of_namespaces hnamespaces, fun M' => ?_⟩
    rw [World.names_congr hnamespaces]
    exact and_iff_right hP
  · rw [h]
    exact fun M' hM' => hP hM'.1

end Exec.Recognizes

/-! ### Names and data -/

section Traversal
variable (ctx : Context) (w : World)

theorem recognizes_symbol (sym : Symbol) (span : Span) :
    Exec.Recognizes w ctx.ns (fun M M' => w.InScope ctx.ns M sym ∧ M' = M) (analyzeSymbol ctx sym span) := by
  refine .test fun u hu => ?_
  rw [hu.inScope_iff]
  rcases analyzeSymbol_cases ctx sym span u with ⟨home, v, hhome, hlookup, h⟩ | ⟨hnone, err, h⟩
  · exact .inl ⟨⟨home, hhome, by rw [hlookup, Option.isSome_some]⟩, _, _, h, rfl⟩
  · refine .inr ⟨?_, _, _, h⟩
    rintro ⟨home, hhome, hsome⟩
    rw [hnone home hhome] at hsome
    cases hsome

theorem recognizes_data (data : Form) :
    Exec.Recognizes w ctx.ns (fun M M' => data.isData = true ∧ M' = M) (Exec.ofResult data.toValue) := by
  refine .test fun u _ => ?_
  rw [← data.isOk_toValue]
  cases data.toValue with
  | ok value => exact .inl ⟨rfl, _, _, rfl, rfl⟩
  | error failure => exact .inr ⟨Bool.false_ne_true, _, _, rfl⟩

theorem recognizes_quote (span : Span) (args : List Form) :
    Exec.Recognizes w ctx.ns (fun M M' => w.AcceptsArgs ctx.ns .quote M args M') (analyzeQuote ctx span args) := by
  unfold analyzeQuote
  split
  · next data =>
    refine (recognizes_data ctx w data).bind_pure.congr fun M M' => ?_
    simp [World.AcceptsArgs]
  · next hargs =>
    refine .fail ctx _ _ ?_
    rintro M M' ⟨data, rfl, -⟩
    exact hargs data rfl

/-! ### Definitions -/

theorem recognizes_resolveTarget (sym : Symbol) (span : Span) :
    Exec.Recognizes w ctx.ns (fun M M' => w.Defines ctx.ns M sym M') (resolveTarget ctx sym span) := by
  intro u hu
  rcases resolveTarget_cases ctx sym span u with
    ⟨hhome, h⟩ | ⟨home, v, hhome, hne, hlookup, hv, h⟩ | ⟨hnone, err, h⟩ <;> rw [h]
  · refine ⟨hu.of_mapped (World.mapped_resolveTarget h), fun M' => ?_⟩
    rw [World.names_intern u ctx.ns sym hhome]
    constructor
    -- a symbol denotes one namespace, so only one of the rules applies
    · rintro (_ | ⟨hhome', hne, -, -⟩)
      · rfl
      · rw [hu.denotes_iff, hhome] at hhome'
        cases hhome'
        exact (hne rfl).elim
    · rintro rfl
      exact .here (hu.denotes_iff.mpr hhome)
  · refine ⟨hu, fun M' => ?_⟩
    constructor
    · rintro (hhome' | _)
      · rw [hu.denotes_iff, hhome] at hhome'
        cases hhome'
        exact (hne rfl).elim
      · rfl
    · rintro rfl
      rw [hu.elsewhere home hne] at hlookup
      exact .abroad (hu.denotes_iff.mpr hhome) hne hlookup hv
  · rintro M' (hhome | ⟨hhome, hne, hlookup, hv⟩)
    · exact (hnone ctx.ns (hu.denotes_iff.mp hhome)).1 rfl
    · rw [← hu.elsewhere _ hne] at hlookup
      exact (hnone _ (hu.denotes_iff.mp hhome)).2 _ hlookup hv

theorem recognizes_opening (sym : Symbol) (span : Span) :
    Exec.Recognizes w ctx.ns
      (fun M M' => w.Defines ctx.ns M sym M' ∧ ∀ form ∈ sym.arglists?, form.isData = true)
      (openDefinition ctx sym span) := by
  have hdeclare : ∀ v, Exec.Recognizes w ctx.ns (fun M M' => True ∧ M' = M) (declareDynamic ctx sym v) := by
    refine fun v => .test fun u _ => .inl ⟨trivial, (), _, declareDynamic_apply ctx sym v u, ?_⟩
    obtain ⟨_, _, _, h⟩ := ctx.announced_eq sym v u
    rw [h]
  have hattach : ∀ v, Exec.Recognizes w ctx.ns
      (fun M M' => (∀ form ∈ sym.arglists?, form.isData = true) ∧ M' = M) (attachArglists sym v) := by
    intro v
    unfold attachArglists
    cases sym.arglists? with
    | none => exact (Exec.Recognizes.pure ()).congr (by simp)
    | some form =>
      have hadd : ∀ value, Exec.Recognizes w ctx.ns (fun M M' => True ∧ M' = M)
          (modify (·.addTag v (.keyword "arglists") value) : Exec Unit) :=
        fun value => .test fun u _ => .inl ⟨trivial, (), _, rfl, rfl⟩
      exact ((recognizes_data ctx w form).bind hadd).congr (by simp)
  refine ((recognizes_resolveTarget ctx w sym span).bind fun v => (hdeclare v).bind fun _ =>
    (hattach v).bind fun _ => .pure v).congr fun M M' => ?_
  simp

theorem recognizes_definition {own : Table Key Value} {target : Form} {documented : Bool}
    {S : Set String → Set String → Prop} {tags : Exec (List (Key × Expr))} {init : Exec (Option Expr)}
    (htags : ∀ sym span, target = .symbol sym span → Exec.Recognizes w ctx.ns
      (fun M M' => w.AcceptsTags ctx.ns documented M (sym.metadata.getD []) M') tags)
    (hinit : Exec.Recognizes w ctx.ns S init) :
    Exec.Recognizes w ctx.ns (fun M M' => ∃ M₁, w.AcceptsTarget ctx.ns documented M target M₁ ∧ S M₁ M')
      (analyzeDefinition ctx own target tags init) := by
  cases target with
  | symbol sym span =>
    rw [analyzeDefinition_symbol]
    refine ((recognizes_opening ctx w sym span).bind fun v => (htags sym span rfl).bind fun tags =>
      hinit.bind_pure).congr fun M M' => ?_
    constructor
    · rintro ⟨M₁, ⟨hdefines, hdata⟩, M₂, htags, hS⟩
      exact ⟨M₂, .symbol hdefines hdata htags, hS⟩
    · rintro ⟨M₂, ⟨hdefines, hdata, htags⟩, hS⟩
      exact ⟨_, ⟨hdefines, hdata⟩, M₂, htags, hS⟩
  | _ =>
    refine .fail ctx _ _ ?_
    rintro M M' ⟨M₁, ⟨⟩, -⟩

/-! ### The traversal -/

mutual

theorem recognizes_analyze : ∀ form : Form,
    Exec.Recognizes w ctx.ns (fun M M' => w.Accepts ctx.ns M form M') (analyze ctx form)
  | .nil _ | .bool _ _ | .int _ _ | .float _ _ | .string _ _ | .keyword _ _ => by
    simp only [analyze]
    exact (Exec.Recognizes.pure _).congr fun M M' => (World.accepts_atom_iff rfl).symm
  | .symbol sym span => by
    simp only [analyze]
    exact (recognizes_symbol ctx w sym span).congr fun M M' => World.accepts_symbol_iff.symm
  | .list [] _ => by
    simp only [analyze]
    exact (Exec.Recognizes.pure _).congr fun M M' => World.accepts_empty_iff.symm
  | .list (head :: args) span => by
    simp only [analyze]
    cases hhead : SpecialForm.ofHead? head with
    | none =>
      have hnone := SpecialForm.ofHead?_eq_none_iff.mp hhead
      exact ((recognizes_analyze head).bind fun callee => (recognizes_analyzeAll args).bind_pure).congr
        fun M M' => (World.accepts_call_iff hnone).symm
    | some special =>
      have hspecial := SpecialForm.ofHead?_eq_some_iff.mp hhead
      simp only [World.accepts_special_iff hspecial]
      cases special with
      | define => exact recognizes_analyzeDef span args
      | enter => exact recognizes_analyzeEnter span args
      | quote => exact recognizes_quote ctx w span args
      | body => exact (recognizes_analyzeAll args).bind_pure
  | .vector [] _ | .set [] _ => by
    simp only [analyze, World.accepts_vector_iff, World.accepts_set_iff, World.acceptsAll_nil_iff]
    exact .pure _
  | .map [] _ => by
    simp only [analyze, World.accepts_map_iff, World.acceptsEntries_nil_iff]
    exact .pure _
  | .vector (item :: items) _ | .set (item :: items) _ => by
    simp only [analyze, World.accepts_vector_iff, World.accepts_set_iff, World.acceptsAll_cons_iff]
    exact (recognizes_analyze item).bind fun e => (recognizes_analyzeAll items).bind_pure
  | .map ((k, form) :: entries) _ => by
    simp only [analyze, World.accepts_map_iff, World.acceptsEntries_cons_iff]
    exact (recognizes_analyze k).bind fun key => (recognizes_analyze form).bind fun e =>
      (recognizes_analyzeEntries entries).bind_pure

theorem recognizes_analyzeDef (span : Span) : ∀ args : List Form,
    Exec.Recognizes w ctx.ns (fun M M' => w.AcceptsArgs ctx.ns .define M args M') (analyzeDef ctx span args)
  | [target] => by
    simp only [analyzeDef]
    refine (recognizes_definition ctx w (fun sym s h => recognizes_analyzeTarget none target sym s h)
      (.pure none)).congr fun M M' => ?_
    simp [World.AcceptsArgs]
  | [target, init] => by
    simp only [analyzeDef, map_eq_pure_bind]
    refine (recognizes_definition ctx w (fun sym s h => recognizes_analyzeTarget none target sym s h)
      (recognizes_analyze init).bind_pure).congr fun M M' => ?_
    simp [World.AcceptsArgs]
  | [target, .string doc _, init] => by
    simp only [analyzeDef, map_eq_pure_bind]
    refine (recognizes_definition ctx w (fun sym s h => recognizes_analyzeTarget (some doc) target sym s h)
      (recognizes_analyze init).bind_pure).congr fun M M' => ?_
    simp [World.AcceptsArgs]
  | [] | [_, .nil _, _] | [_, .bool _ _, _] | [_, .int _ _, _] | [_, .float _ _, _] | [_, .keyword _ _, _]
  | [_, .symbol _ _, _] | [_, .list _ _, _] | [_, .vector _ _, _] | [_, .map _ _, _] | [_, .set _ _, _]
  | _ :: _ :: _ :: _ :: _ => by
    simp only [analyzeDef]
    exact .fail ctx _ _ fun M M' => by simp [World.AcceptsArgs]

theorem recognizes_analyzeEnter (span : Span) : ∀ args : List Form,
    Exec.Recognizes w ctx.ns (fun M M' => w.AcceptsArgs ctx.ns .enter M args M') (analyzeEnter ctx span args)
  | [target] => by
    simp only [analyzeEnter]
    refine (recognizes_analyze target).bind_pure.congr fun M M' => ?_
    simp [World.AcceptsArgs]
  | [] | _ :: _ :: _ => by
    simp only [analyzeEnter]
    exact .fail ctx _ _ fun M M' => by simp [World.AcceptsArgs]

theorem recognizes_analyzeTarget (doc : Option String) : ∀ (target : Form) (sym : Symbol) (span : Span),
    target = .symbol sym span → Exec.Recognizes w ctx.ns
      (fun M M' => w.AcceptsTags ctx.ns doc.isSome M (sym.metadata.getD []) M')
      (analyzeTarget ctx (ctx.ownTags doc) target)
  | .symbol ⟨ns, name, some entries⟩ _, _, _, h => by
    cases h
    simp only [analyzeTarget]
    exact recognizes_analyzeTags doc entries
  | .symbol ⟨ns, name, none⟩ _, _, _, h => by
    cases h
    simp only [analyzeTarget]
    exact (Exec.Recognizes.pure _).congr fun M M' => World.acceptsTags_nil_iff.symm
  | .nil _, _, _, h | .bool _ _, _, _, h | .int _ _, _, _, h | .float _ _, _, _, h | .string _ _, _, _, h
  | .keyword _ _, _, _, h | .list _ _, _, _, h | .vector _ _, _, _, h | .map _ _, _, _, h | .set _ _, _, _, h => by
    cases h

theorem recognizes_analyzeTags (doc : Option String) : ∀ entries : List (Key × Form),
    Exec.Recognizes w ctx.ns (fun M M' => w.AcceptsTags ctx.ns doc.isSome M entries M')
      (analyzeTags ctx (ctx.ownTags doc) entries)
  | [] => by
    simp only [analyzeTags, World.acceptsTags_nil_iff]
    exact .pure _
  | (k, form) :: rest => by
    simp only [analyzeTags, contains_ownTags]
    cases hk : (ownKeys doc.isSome).contains k with
    | true =>
      simp only [if_true, World.acceptsTags_own_iff hk]
      exact recognizes_analyzeTags doc rest
    | false =>
      simp only [Bool.false_eq_true, if_false, World.acceptsTags_cons_iff hk]
      exact (recognizes_analyze form).bind fun e => (recognizes_analyzeTags doc rest).bind_pure

theorem recognizes_analyzeAll : ∀ forms : List Form,
    Exec.Recognizes w ctx.ns (fun M M' => w.AcceptsAll ctx.ns M forms M') (analyzeAll ctx forms)
  | [] => by
    simp only [analyzeAll, World.acceptsAll_nil_iff]
    exact .pure _
  | form :: rest => by
    simp only [analyzeAll, World.acceptsAll_cons_iff]
    exact (recognizes_analyze form).bind fun e => (recognizes_analyzeAll rest).bind_pure

theorem recognizes_analyzeEntries : ∀ entries : List (Form × Form),
    Exec.Recognizes w ctx.ns (fun M M' => w.AcceptsEntries ctx.ns M entries M') (analyzeEntries ctx entries)
  | [] => by
    simp only [analyzeEntries, World.acceptsEntries_nil_iff]
    exact .pure _
  | (k, form) :: rest => by
    simp only [analyzeEntries, World.acceptsEntries_cons_iff]
    exact (recognizes_analyze k).bind fun key => (recognizes_analyze form).bind fun e =>
      (recognizes_analyzeEntries rest).bind_pure

end

end Traversal

/-! ### Main result -/

/-- Analysis in a namespace that exists accepts the grammar and nothing else: it succeeds and leaves the names `M'`
mapped iff the form takes the names that are mapped before to `M'`. -/
theorem analyze_accepts_grammar (ctx : Context) (form : Form) (w : World) (hns : w.hasNs ctx.ns = true)
    (M' : Set String) : (∃ e w', analyze ctx form w = .ok e w' ∧ w'.names ctx.ns = M') ↔
      w.Accepts ctx.ns (w.names ctx.ns) form M' := by
  have hstart : w.Scoped ctx.ns w := ⟨hns, fun _ => rfl, fun _ _ _ => rfl⟩
  have hrecognizes := recognizes_analyze ctx w form
  cases h : analyze ctx form w with
  | ok e w' =>
    obtain ⟨-, hnames⟩ := hrecognizes.of_ok hstart h
    rw [hnames]
    constructor
    · rintro ⟨_, _, ⟨⟩, rfl⟩
      rfl
    · rintro rfl
      exact ⟨e, w', rfl, rfl⟩
  | error err w' =>
    have hnone := hrecognizes.of_error hstart h M'
    constructor
    · rintro ⟨_, _, ⟨⟩, -⟩
    · exact fun haccepts => (hnone haccepts).elim

/-- A definition may refer to itself, and what stands to its right may refer to it, but nothing to its left. -/
theorem analyze_accepts_grammar_in_order :
    let w := World.start {} .watching
    let x : Form := .symbol (.unqualified "x")
    let define : Form := .list [.symbol (.unqualified "def"), x, x]
    w.hasNs "user" = true ∧ (∃ M', w.Accepts "user" (w.names "user") (.vector [define, x]) M') ∧
      ¬∃ M', w.Accepts "user" (w.names "user") (.vector [x, define]) M' := by
  intro w x define
  have hns : w.hasNs "user" = true := by decide
  have hgrammar := fun form => analyze_accepts_grammar { ns := "user" } form w hns
  refine ⟨hns, ?_, ?_⟩
  · obtain ⟨e, w', h⟩ : ∃ e w', analyze { ns := "user" } (.vector [define, x]) w = .ok e w' := ⟨_, _, rfl⟩
    exact ⟨_, (hgrammar _ _).mp ⟨e, w', h, rfl⟩⟩
  · rintro ⟨M', haccepts⟩
    obtain ⟨e, w', h, -⟩ := (hgrammar _ _).mpr haccepts
    have hfails : Exec.errorWith (fun _ _ => true) (analyze { ns := "user" } (.vector [x, define]) w) = true := by
      decide +kernel
    rw [h] at hfails
    cases hfails

end LispCore
