import LispCore.Proofs.Equality
import Mathlib.Data.List.TakeDrop
import Mathlib.Data.List.TakeWhile

/-! # The spelling of symbols

A text is read as a symbol by cutting it at its first slash, if there is something on both sides of it
(`Symbol.Cut`). No text is lost that way, so different texts are read as different symbols. A symbol that was not read
may be spelled like another one: it is read back just when the cut that its text asks for is the one that it has. -/

namespace LispCore.Symbol
variable {t : String} {cs ns name : List Char}

/-- The characters are cut at their first slash, and there are some on both sides of it. -/
structure Cut (cs ns name : List Char) : Prop where
  eq_append : cs = ns ++ '/' :: name
  not_mem : '/' ∉ ns
  ns_ne_nil : ns ≠ []
  name_ne_nil : name ≠ []

theorem idxOf?_slash (h : '/' ∉ ns) (name : List Char) : (ns ++ '/' :: name).idxOf? '/' = some ns.length := by
  rw [List.idxOf?_eq_some_iff]
  refine ⟨by simp, by simp, fun j hj => ?_⟩
  rw [List.getElem_append_left hj]
  exact fun heq => h (heq ▸ List.getElem_mem hj)

/-- There is a cut unless the first slash is missing, or the first or the last character. -/
theorem exists_cut_iff : (∃ ns name, Cut cs ns name) ↔ ∃ i, cs.idxOf? '/' = some i ∧ i ≠ 0 ∧ i + 1 ≠ cs.length := by
  constructor
  · rintro ⟨ns, name, rfl, hslash, hns, hname⟩
    refine ⟨ns.length, idxOf?_slash hslash name, by simpa using hns, ?_⟩
    simpa using hname
  · rintro ⟨i, hi, hfirst, hlast⟩
    have hmem : '/' ∈ cs := by
      by_contra hnone
      rw [List.idxOf?_eq_none_iff.mpr hnone] at hi
      cases hi
    obtain ⟨ns, name, rfl, hslash⟩ := List.eq_append_cons_of_mem hmem
    rw [idxOf?_slash hslash] at hi
    cases hi
    exact ⟨ns, name, rfl, hslash, by simpa using hfirst, by simpa using hlast⟩

/-! ### Reading -/

theorem span_slash (h : '/' ∉ ns) (name : List Char) :
    (ns ++ '/' :: name).span (· != '/') = (ns, '/' :: name) := by
  have hne : ∀ c ∈ ns, (c != '/') = true := fun c hc => bne_iff_ne.mpr fun heq => h (heq ▸ hc)
  rw [List.span_eq_takeWhile_dropWhile, List.takeWhile_append_of_pos hne, List.dropWhile_append_of_pos hne]
  simp

theorem parse_of_cut (h : Cut t.toList ns name) :
    parse t = { ns := some (String.ofList ns), name := String.ofList name } := by
  obtain ⟨heq, hslash, hns, hname⟩ := h
  obtain ⟨c, ns, rfl⟩ := List.exists_cons_of_ne_nil hns
  obtain ⟨d, name, rfl⟩ := List.exists_cons_of_ne_nil hname
  simp only [parse, heq, span_slash hslash]

theorem parse_of_uncut (h : ¬∃ ns name, Cut t.toList ns name) : parse t = unqualified t := by
  by_cases hmem : '/' ∈ t.toList
  · obtain ⟨ns, name, heq, hslash⟩ := List.eq_append_cons_of_mem hmem
    cases ns with
    | nil => simp only [parse, heq, span_slash hslash]
    | cons c ns =>
      cases name with
      | nil => simp only [parse, heq, span_slash hslash]
      | cons d name => exact (h ⟨_, _, heq, hslash, by simp, by simp⟩).elim
  · have hspan : t.toList.span (· != '/') = (t.toList, []) := by
      have hne : ∀ c ∈ t.toList, (c != '/') = true := fun c hc => bne_iff_ne.mpr fun heq => hmem (heq ▸ hc)
      rw [List.span_eq_takeWhile_dropWhile, List.takeWhile_eq_self_iff.mpr hne, List.dropWhile_eq_nil_iff.mpr hne]
    simp only [parse, hspan]
    cases t.toList <;> rfl

/-- What is read is spelled as it was written. -/
theorem text_parse (t : String) : (parse t).text = t := by
  by_cases h : ∃ ns name, Cut t.toList ns name
  · obtain ⟨ns, name, hcut⟩ := h
    rw [parse_of_cut hcut, ← String.toList_inj, hcut.eq_append]
    simp [text]
  · rw [parse_of_uncut h]
    rfl

/-- Only the same text is read as an equal symbol. -/
theorem parse_beq_iff {t' : String} : (parse t == parse t') = true ↔ t = t' := by
  rw [beq_iff]
  constructor
  · rintro ⟨hns, hname⟩
    rw [← text_parse t, ← text_parse t', text, text, hns, hname]
  · rintro rfl
    exact ⟨rfl, rfl⟩

/-! ### Reading back -/

/-- The text of a qualified symbol is cut where it was put together, unless its namespace has a slash. -/
theorem parse_text_of_qualified {qualifier name : String} :
    parse (text ⟨some qualifier, name, none⟩) = ⟨some qualifier, name, none⟩ ↔
      qualifier ≠ "" ∧ '/' ∉ qualifier.toList ∧ name ≠ "" := by
  constructor
  · intro h
    by_cases hcut : ∃ ns name', Cut (text ⟨some qualifier, name, none⟩).toList ns name'
    · obtain ⟨ns, name', hcut⟩ := hcut
      rw [parse_of_cut hcut] at h
      cases h
      exact ⟨by simpa using hcut.ns_ne_nil, by simpa using hcut.not_mem, by simpa using hcut.name_ne_nil⟩
    · rw [parse_of_uncut hcut] at h
      cases h
  · rintro ⟨hqualifier, hslash, hname⟩
    have hcut : Cut (text ⟨some qualifier, name, none⟩).toList qualifier.toList name.toList :=
      ⟨by simp [text], hslash, by simpa using hqualifier, by simpa using hname⟩
    rw [parse_of_cut hcut, String.ofList_toList, String.ofList_toList]

theorem parse_text_of_unqualified {name : String} :
    parse (text ⟨none, name, none⟩) = ⟨none, name, none⟩ ↔
      ∀ i, name.toList.idxOf? '/' = some i → i = 0 ∨ i + 1 = name.length := by
  have huncut : (¬∃ ns name', Cut name.toList ns name') ↔
      ∀ i, name.toList.idxOf? '/' = some i → i = 0 ∨ i + 1 = name.length := by
    rw [exists_cut_iff, ← String.length_toList]
    grind
  rw [← huncut]
  constructor
  · rintro h ⟨ns, name', hcut⟩
    rw [text, parse_of_cut hcut] at h
    cases h
  · exact parse_of_uncut

/-- Reading a text and spelling it gives the text, so different texts are read as different symbols. Spelling a symbol
without metadata and reading it gives the symbol just when it is qualified, with a name and with a namespace that is
neither empty nor has a slash in it, or when it is unqualified and the first slash of its name, if there is one, stands
at the beginning or at the end. -/
theorem symbol_text_round_trips :
    (∀ t, (parse t).text = t) ∧ (∀ t t', (parse t == parse t') = true ↔ t = t') ∧
    ∀ sym : Symbol, sym.metadata = none → (parse sym.text = sym ↔
      (∃ qualifier, sym.ns = some qualifier ∧ qualifier ≠ "" ∧ '/' ∉ qualifier.toList ∧ sym.name ≠ "") ∨
      (sym.ns = none ∧ ∀ i, sym.name.toList.idxOf? '/' = some i → i = 0 ∨ i + 1 = sym.name.length)) := by
  refine ⟨text_parse, fun _ _ => parse_beq_iff, ?_⟩
  rintro ⟨_ | qualifier, name, _ | _⟩ hmetadata
  · rw [parse_text_of_unqualified]
    simp
  · cases hmetadata
  · rw [parse_text_of_qualified]
    simp
  · cases hmetadata

/-- A name with two slashes is read back under a namespace, but not without one. -/
theorem symbol_text_round_trips_slashes :
    let qualified : Symbol := { ns := some "α", name := "b/c/" }
    let bare : Symbol := { ns := none, name := "b/c/" }
    parse qualified.text = qualified ∧ parse bare.text ≠ bare := by
  intro qualified bare
  constructor
  · refine (symbol_text_round_trips.2.2 qualified rfl).mpr (.inl ⟨"α", rfl, ?_⟩)
    decide
  · intro h
    rcases (symbol_text_round_trips.2.2 bare rfl).mp h with ⟨_, hns, -⟩ | ⟨-, hslash⟩
    · cases hns
    · have := hslash 1 (by decide)
      revert this
      decide

end LispCore.Symbol
