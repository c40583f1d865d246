import LispCore.Binding
import LispCore.Namespace
import LispCore.Proofs.Exec

/-! # Tables, cells and namespaces after an update

Each update of the world has one lemma for each part that is read from it later: the cell of a var, the var
that a namespace maps a name to. -/

namespace LispCore

/-! ### Tables -/

namespace Table
variable {κ α : Type} [BEq κ]

theorem get?_cons (e : κ × α) (t : Table κ α) (k : κ) :
    get? (e :: t) k = if k == e.1 then some e.2 else get? t k := by
  obtain ⟨k', a⟩ := e
  unfold get?
  rw [List.lookup_cons]
  cases k == k' <;> rfl

/-- Keys that are equal to the same keys find the same. -/
theorem get?_of_beq_eq {t : Table κ α} {k k' : κ} (h : ∀ e ∈ t, (k == e.1) = (k' == e.1)) : get? t k = get? t k' := by
  induction t with
  | nil => rfl
  | cons e rest ih =>
    obtain ⟨he, hrest⟩ := List.forall_mem_cons.mp h
    rw [get?_cons, get?_cons, he, ih hrest]

/-- Of two insertions under one key the second counts. -/
theorem insert_insert (t : Table κ α) {k : κ} (hk : (k == k) = true) (a b : α) :
    insert (insert t k a) k b = insert t k b := by
  induction t with
  | nil => simp [insert, hk]
  | cons e rest ih =>
    by_cases he : (k == e.1) = true
    · simp [insert, he, hk]
    · simp [insert, he, ih]

theorem eq_or_mem_of_mem_insert {t : Table κ α} {k : κ} {a : α} {e : κ × α} (h : e ∈ insert t k a) :
    e = (k, a) ∨ e ∈ t := by
  induction t with
  | nil => exact .inl (List.mem_singleton.mp h)
  | cons e' rest ih =>
    unfold insert at h
    split at h
    · rcases List.mem_cons.mp h with h | h
      · exact .inl h
      · exact .inr (List.mem_cons_of_mem _ h)
    · rcases List.mem_cons.mp h with h | h
      · exact .inr (h ▸ List.mem_cons_self)
      · rcases ih h with h | h
        · exact .inl h
        · exact .inr (List.mem_cons_of_mem _ h)

theorem mem_of_mem_ofList {entries : List (κ × α)} {e : κ × α} (h : e ∈ ofList entries) : e ∈ entries := by
  have hfold : ∀ built : Table κ α, e ∈ entries.foldl (fun t e => insert t e.1 e.2) built →
      e ∈ built ∨ e ∈ entries := by
    clear h
    induction entries with
    | nil => exact fun built => .inl
    | cons first rest ih =>
      intro built h
      rcases ih _ h with h | h
      · rcases eq_or_mem_of_mem_insert h with rfl | h
        · exact .inr List.mem_cons_self
        · exact .inl h
      · exact .inr (List.mem_cons_of_mem _ h)
  rcases hfold [] h with h | h
  · cases h
  · exact h

theorem get?_append (t t' : Table κ α) (k : κ) : get? (t ++ t') k = (get? t k).or (get? t' k) := by
  induction t with
  | nil => rfl
  | cons e rest ih =>
    rw [List.cons_append, get?_cons, get?_cons, ih]
    split <;> rfl

theorem exists_mem_of_get? {t : Table κ α} {k : κ} {a : α} (h : get? t k = some a) :
    ∃ e ∈ t, (k == e.1) = true ∧ e.2 = a := by
  induction t with
  | nil => cases h
  | cons e rest ih =>
    rw [get?_cons] at h
    split at h
    · next hk => exact ⟨e, List.mem_cons_self, hk, Option.some.inj h⟩
    · obtain ⟨e', he', hk, ha⟩ := ih h
      exact ⟨e', List.mem_cons_of_mem _ he', hk, ha⟩

variable [LawfulBEq κ]

theorem get?_insert_self (t : Table κ α) (k : κ) (a : α) : get? (insert t k a) k = some a := by
  induction t with
  | nil => simp [insert, get?_cons]
  | cons e rest ih =>
    unfold insert
    split
    · simp [get?_cons]
    · next hne => rw [get?_cons, if_neg hne, ih]

theorem get?_insert_of_ne (t : Table κ α) {k k' : κ} (a : α) (h : k' ≠ k) : get? (insert t k a) k' = get? t k' := by
  have hk : (k' == k) = false := by simpa using h
  induction t with
  | nil => rw [insert, get?_cons, hk, if_neg Bool.false_ne_true]
  | cons e rest ih =>
    unfold insert
    split
    · next heq =>
      have hke : k = e.1 := by simpa using heq
      rw [get?_cons, get?_cons, ← hke]
      simp [hk]
    · rw [get?_cons, get?_cons, ih]

theorem get?_insert [DecidableEq κ] (t : Table κ α) (k k' : κ) (a : α) :
    get? (insert t k a) k' = if k' = k then some a else get? t k' := by
  by_cases h : k' = k
  · rw [if_pos h, h, get?_insert_self]
  · rw [if_neg h, get?_insert_of_ne t a h]

theorem get?_erase [DecidableEq κ] (t : Table κ α) (k k' : κ) :
    get? (erase t k) k' = if k' = k then none else get? t k' := by
  induction t with
  | nil => exact (ite_self none).symm
  | cons e rest ih =>
    unfold erase at ih ⊢
    by_cases he : k = e.1
    · have hdropped : (!(k == e.1)) = false := by simp [he]
      rw [List.filter_cons, hdropped, if_neg Bool.false_ne_true, ih, get?_cons]
      split
      · rfl
      · next hne =>
        have hother : (k' == e.1) = false := by simpa [← he] using hne
        rw [hother, if_neg Bool.false_ne_true]
    · have hkept : (!(k == e.1)) = true := by simpa using he
      rw [List.filter_cons, hkept, if_pos rfl, get?_cons, get?_cons, ih]
      by_cases hk : k' = k
      · have hother : (k' == e.1) = false := by simpa [hk] using he
        rw [if_pos hk, if_pos hk, hother, if_neg Bool.false_ne_true]
      · rw [if_neg hk, if_neg hk]

theorem mem_keys_of_get? {t : Table κ α} {k : κ} {a : α} (h : get? t k = some a) : k ∈ t.map (·.1) := by
  induction t with
  | nil => cases h
  | cons e rest ih =>
    rw [get?_cons] at h
    split at h
    · next heq =>
      have hke : k = e.1 := by simpa using heq
      simp [hke]
    · simp [ih h]

end Table

/-! ### Cells -/

namespace World
variable {w : World} {u v : Var}

theorem cell_setCell (w : World) (v : Var) (c : Cell) (u : Var) :
    (w.setCell v c).cell u = if u = v then c else w.cell u := by
  unfold cell setCell
  rw [Table.get?_insert]
  split <;> rfl

/-- What the new cell of `v` has in common with the old one, every cell keeps. -/
theorem cell_setCell_keeps {β : Type} (f : Cell → β) {c : Cell} (h : f c = f (w.cell v)) (u : Var) :
    f ((w.setCell v c).cell u) = f (w.cell u) := by
  rw [cell_setCell]
  split
  · next huv => rw [huv, h]
  · rfl

@[simp]
theorem root_bindRoot (w : World) (v : Var) (value : Value) (u : Var) :
    ((w.bindRoot v value).cell u).root = if u = v then some value else (w.cell u).root := by
  rw [bindRoot, cell_setCell]
  split <;> rfl

@[simp]
theorem metadata_bindRoot (w : World) (v : Var) (value : Value) (u : Var) :
    ((w.bindRoot v value).cell u).metadata = (w.cell u).metadata :=
  cell_setCell_keeps Cell.metadata (by rfl) u

@[simp]
theorem dynamic_bindRoot (w : World) (v : Var) (value : Value) (u : Var) :
    ((w.bindRoot v value).cell u).dynamic = (w.cell u).dynamic :=
  cell_setCell_keeps Cell.dynamic (by rfl) u

@[simp]
theorem root_setMetadata (w : World) (v : Var) (metadata : Table Key Value) (u : Var) :
    ((w.setMetadata v metadata).cell u).root = (w.cell u).root :=
  cell_setCell_keeps Cell.root (by rfl) u

@[simp]
theorem metadata_setMetadata (w : World) (v : Var) (metadata : Table Key Value) (u : Var) :
    ((w.setMetadata v metadata).cell u).metadata = if u = v then metadata else (w.cell u).metadata := by
  rw [setMetadata, cell_setCell]
  split <;> rfl

@[simp]
theorem dynamic_setMetadata (w : World) (v : Var) (metadata : Table Key Value) (u : Var) :
    ((w.setMetadata v metadata).cell u).dynamic = (w.cell u).dynamic :=
  cell_setCell_keeps Cell.dynamic (by rfl) u

@[simp]
theorem root_setDynamic (w : World) (v u : Var) : ((w.setDynamic v).cell u).root = (w.cell u).root :=
  cell_setCell_keeps Cell.root (by rfl) u

@[simp]
theorem metadata_setDynamic (w : World) (v u : Var) : ((w.setDynamic v).cell u).metadata = (w.cell u).metadata :=
  cell_setCell_keeps Cell.metadata (by rfl) u

@[simp]
theorem dynamic_setDynamic (w : World) (v u : Var) :
    ((w.setDynamic v).cell u).dynamic = if u = v then true else (w.cell u).dynamic := by
  rw [setDynamic, cell_setCell]
  split <;> rfl

@[simp]
theorem root_markDynamic (w : World) (v : Var) (dynamic : Bool) (u : Var) :
    ((w.markDynamic v dynamic).cell u).root = (w.cell u).root := by
  cases dynamic
  · rfl
  · exact root_setDynamic w v u

@[simp]
theorem metadata_markDynamic (w : World) (v : Var) (dynamic : Bool) (u : Var) :
    ((w.markDynamic v dynamic).cell u).metadata = (w.cell u).metadata := by
  cases dynamic
  · rfl
  · exact metadata_setDynamic w v u

/-- A flag is set by being marked, and never taken back. -/
@[simp]
theorem dynamic_markDynamic (w : World) (v : Var) (dynamic : Bool) (u : Var) :
    ((w.markDynamic v dynamic).cell u).dynamic = ((decide (u = v) && dynamic) || (w.cell u).dynamic) := by
  cases dynamic
  · simp [markDynamic]
  · by_cases h : u = v <;> simp [markDynamic, h]

/-! ### Names -/

/-- Interning a name changes namespaces, the supply of numbers and the log, and nothing else. -/
theorem intern_eq (w : World) (ns name : String) : ∃ namespaces nextId log,
    (w.intern ns name).2 = { w with namespaces, nextId, log } := by
  unfold intern
  split
  · split
    · exact ⟨_, _, _, rfl⟩
    · exact ⟨_, _, _, rfl⟩
  · exact ⟨_, _, _, rfl⟩

/-- Resolving a symbol changes nothing, or interns its name. -/
theorem eq_or_eq_intern_of_resolveVar {w w' : World} {ns : String} {sym : Symbol} {create : Bool} {found : Option Var}
    (h : w.resolveVar ns sym create = .ok (found, w')) : w' = w ∨ w' = (w.intern ns sym.name).2 := by
  unfold resolveVar at h
  split at h
  · split at h
    · cases h
    · split at h <;> cases h
      · exact .inr rfl
      · exact .inl rfl
  · split at h
    · cases h
      exact .inl rfl
    · split at h <;> cases h
      · exact .inr rfl
      · exact .inl rfl

/-- A namespace is made by writing what looking it up gave before. -/
theorem ensureNs_eq (w : World) (ns : String) :
    w.ensureNs ns = w ∨ w.ensureNs ns = w.setNs ns (w.namespaceAt ns) := by
  unfold ensureNs
  split
  · exact .inl rfl
  · next hns =>
    have hnone : Table.get? w.namespaces ns = none := by simpa [hasNs, Table.contains] using hns
    rw [namespaceAt, hnone]
    exact .inr rfl

/-! ### Thread bindings -/

theorem foldl_rebinds {α : Type} {f : World → α → World} (h : ∀ w a, ∃ bindings, f w a = { w with bindings })
    (w : World) (items : List α) : ∃ bindings, items.foldl f w = { w with bindings } := by
  induction items generalizing w with
  | nil => exact ⟨w.bindings, rfl⟩
  | cons item rest ih =>
    obtain ⟨_, hfirst⟩ := h w item
    obtain ⟨bindings, hrest⟩ := ih (f w item)
    exact ⟨bindings, by rw [List.foldl_cons, hrest, hfirst]⟩

/-- Dropping a guard changes bindings and nothing else. -/
theorem dropGuard_eq (w : World) (guard : Guard) : ∃ bindings, w.dropGuard guard = { w with bindings } := by
  refine foldl_rebinds (fun w v => ?_) w guard.vars
  unfold popBinding
  split <;> exact ⟨_, rfl⟩

end World

theorem resolveVar_of_ok {w w' : World} {ns : String} {sym : Symbol} {create : Bool} {found : Option Var}
    (h : w.resolveVar ns sym create = .ok (found, w')) : resolveVar ns sym create w = .ok found w' := by
  simp only [resolveVar, h]

theorem resolveVar_of_error {w : World} {ns : String} {sym : Symbol} {create : Bool} {fault : Fault}
    (h : w.resolveVar ns sym create = .error fault) : resolveVar ns sym create w = .error (.of fault) w := by
  simp only [resolveVar, h]

theorem finalWorld_resolveVar (ns : String) (sym : Symbol) (create : Bool) (w : World) :
    Exec.finalWorld (resolveVar ns sym create) w = w ∨
      Exec.finalWorld (resolveVar ns sym create) w = (w.intern ns sym.name).2 := by
  cases h : w.resolveVar ns sym create with
  | error fault => exact .inl (Exec.finalWorld_of_error (resolveVar_of_error h))
  | ok p =>
    rw [Exec.finalWorld_of_ok (resolveVar_of_ok h)]
    exact World.eq_or_eq_intern_of_resolveVar h

/-- All bindings are made, or none. -/
theorem finalWorld_pushBindings (bindings : List (Var × Value)) (w : World) :
    Exec.finalWorld (pushBindings bindings) w = w ∨
      Exec.finalWorld (pushBindings bindings) w = bindings.foldl (fun w b => w.pushBinding b.1 b.2) w := by
  unfold Exec.finalWorld pushBindings World.pushBindings
  cases bindings.find? fun b => !(w.cell b.1).dynamic with
  | some b => exact .inl rfl
  | none => exact .inr rfl

/-- Making bindings changes bindings and nothing else. -/
theorem finalWorld_pushBindings_eq (given : List (Var × Value)) (w : World) :
    ∃ bindings, Exec.finalWorld (pushBindings given) w = { w with bindings } := by
  rcases finalWorld_pushBindings given w with h | h <;> rw [h]
  · exact ⟨w.bindings, rfl⟩
  · exact World.foldl_rebinds (fun _ _ => ⟨_, rfl⟩) w given

end LispCore
