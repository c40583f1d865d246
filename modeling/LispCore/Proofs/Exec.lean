import LispCore.World
import Mathlib.Logic.Relation

/-! # Laws of computations in the world

A computation is a function of the world, so what it does is said by its results. This file holds the
equations for sequencing and for locating errors, and three ways to speak of a whole computation:
`Exec.Steps` (its world changes only by steps of a given kind), `Exec.Raises` (which errors it ends
with), and `Exec.Couples` (two computations keep two worlds related and end alike). Each is closed
under `pure` and `>>=`, so it holds of a program as soon as it holds of the program's own effects. -/

namespace LispCore

variable {α β : Type}

@[simp]
theorem Error.locate_locate (p q : SourcePos) (e : Error) : (e.locate p).locate q = e.locate p := by
  cases e <;> rfl

@[simp]
theorem Error.rootCause_locate (p : SourcePos) (e : Error) : (e.locate p).rootCause = e.rootCause := by
  cases e <;> rfl

namespace Exec

/-- The world in which a run ends, however it ends. -/
def finalWorld (x : Exec α) (w : World) : World :=
  match x w with
  | .ok _ w' => w'
  | .error _ w' => w'

/-! ### Sequencing -/

theorem bind_of_ok {x : Exec α} {f : α → Exec β} {w w' : World} {a : α} (h : x w = .ok a w') :
    (x >>= f) w = f a w' := by
  simp only [bind, EStateM.bind, h]

theorem bind_of_error {x : Exec α} {f : α → Exec β} {w w' : World} {e : Error} (h : x w = .error e w') :
    (x >>= f) w = .error e w' := by
  simp only [bind, EStateM.bind, h]

theorem bind_eq_ok {x : Exec α} {f : α → Exec β} {w w'' : World} {b : β} (h : (x >>= f) w = .ok b w'') :
    ∃ a w', x w = .ok a w' ∧ f a w' = .ok b w'' := by
  cases hx : x w with
  | ok a w' => exact ⟨a, w', rfl, by rwa [bind_of_ok hx] at h⟩
  | error e w' =>
    rw [bind_of_error hx] at h
    cases h

theorem bind_eq_error {x : Exec α} {f : α → Exec β} {w w'' : World} {e : Error}
    (h : (x >>= f) w = .error e w'') :
    x w = .error e w'' ∨ ∃ a w', x w = .ok a w' ∧ f a w' = .error e w'' := by
  cases hx : x w with
  | ok a w' => exact Or.inr ⟨a, w', rfl, by rwa [bind_of_ok hx] at h⟩
  | error e' w' =>
    rw [bind_of_error hx] at h
    cases h
    exact Or.inl rfl

/-- Two continuations need to agree only where the first computation leads. -/
theorem bind_congr_of_ok {x : Exec α} {f g : α → Exec β}
    (h : ∀ w a w', x w = .ok a w' → f a w' = g a w') : x >>= f = x >>= g := by
  funext w
  cases hx : x w with
  | ok a w' => rw [bind_of_ok hx, bind_of_ok hx, h w a w' hx]
  | error e w' => rw [bind_of_error hx, bind_of_error hx]

theorem map_eq_ok {x : Exec α} {f : α → β} {w w' : World} {b : β} (h : (f <$> x) w = .ok b w') :
    ∃ a, x w = .ok a w' ∧ b = f a := by
  rw [map_eq_pure_bind] at h
  obtain ⟨a, w₁, hx, hp⟩ := bind_eq_ok h
  cases hp
  exact ⟨a, hx, rfl⟩

theorem map_of_ok {x : Exec α} (f : α → β) {w w' : World} {a : α} (h : x w = .ok a w') :
    (f <$> x) w = .ok (f a) w' := by
  rw [map_eq_pure_bind, bind_of_ok h]
  rfl

theorem map_of_error {x : Exec α} (f : α → β) {w w' : World} {e : Error} (h : x w = .error e w') :
    (f <$> x) w = .error e w' := by
  rw [map_eq_pure_bind, bind_of_error h]

theorem map_eq_error {x : Exec α} {f : α → β} {w w' : World} {e : Error} (h : (f <$> x) w = .error e w') :
    x w = .error e w' := by
  cases hx : x w with
  | ok a w₁ =>
    rw [map_of_ok f hx] at h
    cases h
  | error e₁ w₁ =>
    rw [map_of_error f hx] at h
    cases h
    rfl

theorem get_bind_apply (f : World → Exec α) (w : World) : ((get : Exec World) >>= f) w = f w w := rfl

theorem ofExcept_bind_apply_ok {x : Except Fault α} {a : α} (h : x = .ok a) (f : α → Exec β) :
    Exec.ofExcept x >>= f = f a := by
  rw [h]
  rfl

/-! ### Changing errors -/

theorem locating_eq_adapt (pos : SourcePos) (x : Exec α) : locating pos x = adapt (Error.locate pos) x := rfl

theorem adapt_of_ok {x : Exec α} {w w' : World} {a : α} (f : Error → Error) (h : x w = .ok a w') :
    adapt f x w = .ok a w' := by
  simp only [adapt, EStateM.adaptExcept, h]

theorem adapt_of_error {x : Exec α} {w w' : World} {e : Error} (f : Error → Error) (h : x w = .error e w') :
    adapt f x w = .error (f e) w' := by
  simp only [adapt, EStateM.adaptExcept, h]

theorem adapt_eq_ok {x : Exec α} {w w' : World} {a : α} {f : Error → Error} (h : adapt f x w = .ok a w') :
    x w = .ok a w' := by
  cases hx : x w with
  | ok b w₁ => rwa [adapt_of_ok f hx] at h
  | error e w₁ =>
    rw [adapt_of_error f hx] at h
    cases h

theorem adapt_eq_error {x : Exec α} {w w' : World} {e : Error} {f : Error → Error}
    (h : adapt f x w = .error e w') : ∃ e₀, x w = .error e₀ w' ∧ e = f e₀ := by
  cases hx : x w with
  | ok a w₁ =>
    rw [adapt_of_ok f hx] at h
    cases h
  | error e₀ w₁ =>
    rw [adapt_of_error f hx] at h
    cases h
    exact ⟨e₀, rfl, rfl⟩

@[simp]
theorem adapt_pure (f : Error → Error) (a : α) : adapt f (pure a) = pure a := rfl

@[simp]
theorem adapt_modify (f : Error → Error) (g : World → World) : adapt f (modify g) = modify g := rfl

@[simp]
theorem adapt_bind (f : Error → Error) (x : Exec α) (g : α → Exec β) :
    adapt f (x >>= g) = adapt f x >>= fun a => adapt f (g a) := by
  funext w
  cases hx : x w with
  | ok a w' =>
    rw [bind_of_ok (adapt_of_ok f hx)]
    simp only [adapt, EStateM.adaptExcept, bind_of_ok hx]
  | error e w' => rw [adapt_of_error f (bind_of_error hx), bind_of_error (adapt_of_error f hx)]

@[simp]
theorem adapt_map (f : Error → Error) (g : α → β) (x : Exec α) : adapt f (g <$> x) = g <$> adapt f x := by
  rw [map_eq_pure_bind, map_eq_pure_bind, adapt_bind]
  rfl

@[simp]
theorem adapt_id (x : Exec α) : adapt (fun e => e) x = x := by
  funext w
  cases hx : x w with
  | ok a w' => rw [adapt_of_ok _ hx]
  | error e w' => rw [adapt_of_error _ hx]

theorem adapt_adapt (f g : Error → Error) (x : Exec α) : adapt g (adapt f x) = adapt (g ∘ f) x := by
  funext w
  cases hx : x w with
  | ok a w' => rw [adapt_of_ok g (adapt_of_ok f hx), adapt_of_ok _ hx]
  | error e w' => rw [adapt_of_error g (adapt_of_error f hx), adapt_of_error _ hx, Function.comp_apply]

/-- A position given to an error that has one changes nothing. -/
@[simp]
theorem adapt_locate_locate (p q : SourcePos) (x : Exec α) :
    adapt (Error.locate q) (adapt (Error.locate p) x) = adapt (Error.locate p) x := by
  rw [adapt_adapt]
  congr 1
  funext e
  exact Error.locate_locate p q e

/-! ### Results that can be computed -/

/-- A success that passes a test. -/
def okWith (P : α → World → Bool) : EStateM.Result Error World α → Bool
  | .ok a w => P a w
  | .error _ _ => false

/-- A failure that passes a test. -/
def errorWith (P : Error → World → Bool) : EStateM.Result Error World α → Bool
  | .ok _ _ => false
  | .error e w => P e w

theorem exists_of_errorWith {r : EStateM.Result Error World α} {P : Error → World → Bool}
    (h : errorWith P r = true) : ∃ e w, r = .error e w ∧ P e w = true := by
  cases r with
  | ok a w => cases h
  | error e w => exact ⟨e, w, rfl, h⟩

theorem exists_of_okWith {r : EStateM.Result Error World α} {P : α → World → Bool} (h : okWith P r = true) :
    ∃ a w, r = .ok a w ∧ P a w = true := by
  cases r with
  | ok a w => exact ⟨a, w, rfl, h⟩
  | error e w => cases h

/-! ### Properties of whole computations -/

/-- A relation between computations that sequencing respects. A property of single computations is one that
ignores its second argument. -/
structure Congruence (C : (α : Type) → Exec α → Exec α → Prop) : Prop where
  pure : ∀ {α : Type} (a : α), C α (Pure.pure a) (Pure.pure a)
  bind : ∀ {α β : Type} {x y : Exec α} {f g : α → Exec β},
    C α x y → (∀ a, C β (f a) (g a)) → C β (x >>= f) (y >>= g)

theorem Congruence.map {C : (α : Type) → Exec α → Exec α → Prop} (hC : Congruence C) (f : α → β) {x y : Exec α}
    (h : C α x y) : C β (f <$> x) (f <$> y) := by
  rw [map_eq_pure_bind, map_eq_pure_bind]
  exact hC.bind h fun a => hC.pure (f a)

/-- However the run ends, the world changed only by steps of `S`. -/
def Steps (S : World → World → Prop) (x : Exec α) : Prop :=
  ∀ w, Relation.ReflTransGen S w (finalWorld x w)

theorem finalWorld_of_ok {x : Exec α} {w w' : World} {a : α} (h : x w = .ok a w') : finalWorld x w = w' := by
  simp only [finalWorld, h]

theorem finalWorld_of_error {x : Exec α} {w w' : World} {e : Error} (h : x w = .error e w') :
    finalWorld x w = w' := by
  simp only [finalWorld, h]

theorem finalWorld_congr {x y : Exec α} {w w' : World} (h : x w = y w') : finalWorld x w = finalWorld y w' := by
  simp only [finalWorld, h]

theorem finalWorld_adapt (f : Error → Error) (x : Exec α) (w : World) :
    finalWorld (adapt f x) w = finalWorld x w := by
  cases hx : x w with
  | ok a w' => rw [finalWorld_of_ok hx, finalWorld_of_ok (adapt_of_ok f hx)]
  | error e w' => rw [finalWorld_of_error hx, finalWorld_of_error (adapt_of_error f hx)]

theorem finalWorld_map (f : α → β) (x : Exec α) (w : World) : finalWorld (f <$> x) w = finalWorld x w := by
  cases hx : x w with
  | ok a w' => rw [finalWorld_of_ok hx, finalWorld_of_ok (map_of_ok f hx)]
  | error e w' => rw [finalWorld_of_error hx, finalWorld_of_error (map_of_error f hx)]

theorem Steps.bind {S : World → World → Prop} {x : Exec α} {f : α → Exec β} (hx : Steps S x)
    (hf : ∀ a, Steps S (f a)) : Steps S (x >>= f) := by
  intro w
  have hw := hx w
  cases h : x w with
  | ok a w' =>
    rw [finalWorld_of_ok h] at hw
    have hw' := hf a w'
    unfold finalWorld at hw' ⊢
    rw [bind_of_ok h]
    exact hw.trans hw'
  | error e w' =>
    rw [finalWorld_of_error h] at hw
    rwa [finalWorld_of_error (bind_of_error h)]

theorem steps_congruence (S : World → World → Prop) : Congruence fun _ x _ => Steps S x where
  pure _ _ := .refl
  bind := Steps.bind

theorem steps_modify {S : World → World → Prop} {f : World → World} (h : ∀ w, S w (f w)) :
    Steps S (modify f : Exec Unit) :=
  fun w => .single (h w)

theorem steps_adapt {S : World → World → Prop} {x : Exec α} (f : Error → Error) (h : Steps S x) :
    Steps S (adapt f x) := by
  intro w
  rw [finalWorld_adapt]
  exact h w

theorem Steps.mono {S S' : World → World → Prop} {x : Exec α} (h : Steps S x) (hS : ∀ w w', S w w' → S' w w') :
    Steps S' x :=
  fun w => Relation.ReflTransGen.mono hS _ _ (h w)

/-- Every error that the run ends with satisfies `E`, with the world that is left. -/
def Raises (E : Error → World → Prop) (x : Exec α) : Prop :=
  ∀ w e w', x w = .error e w' → E e w'

theorem Raises.bind {E : Error → World → Prop} {x : Exec α} {f : α → Exec β} (hx : Raises E x)
    (hf : ∀ a, Raises E (f a)) : Raises E (x >>= f) := by
  intro w e w'' h
  rcases bind_eq_error h with h | ⟨a, w', -, h⟩
  · exact hx w e w'' h
  · exact hf a w' e w'' h

theorem raises_congruence (E : Error → World → Prop) : Congruence fun _ x _ => Raises E x where
  pure _ _ _ _ h := by cases h
  bind := Raises.bind

/-- Two results correspond: equal values in worlds related by `Q`, or failures related by `F`. -/
def Corresponds (Q : World → World → Prop) (F : Error → Error → World → World → Prop) :
    EStateM.Result Error World α → EStateM.Result Error World α → Prop
  | .ok a w, .ok b w' => a = b ∧ Q w w'
  | .error e w, .error e' w' => F e e' w w'
  | _, _ => False

/-- From worlds related by `P`, two computations end with corresponding results. -/
def Couples (P Q : World → World → Prop) (F : Error → Error → World → World → Prop) (x y : Exec α) : Prop :=
  ∀ w w', P w w' → Corresponds Q F (x w) (y w')

section Couples
variable {P Q R : World → World → Prop} {F : Error → Error → World → World → Prop}

theorem Corresponds.of_ok {a : α} {w : World} {r : EStateM.Result Error World α}
    (h : Corresponds Q F (.ok a w) r) : ∃ w', r = .ok a w' ∧ Q w w' := by
  cases r with
  | ok b w' =>
    obtain ⟨rfl, hQ⟩ := h
    exact ⟨w', rfl, hQ⟩
  | error e w' => exact h.elim

theorem Corresponds.of_error {e : Error} {w : World} {r : EStateM.Result Error World α}
    (h : Corresponds Q F (.error e w) r) : ∃ e' w', r = .error e' w' ∧ F e e' w w' := by
  cases r with
  | ok b w' => exact h.elim
  | error e' w' => exact ⟨e', w', rfl, h⟩

theorem Corresponds.imp {Q' : World → World → Prop} {F' : Error → Error → World → World → Prop}
    {r r' : EStateM.Result Error World α} (h : Corresponds Q F r r') (hQ : ∀ w w', Q w w' → Q' w w')
    (hF : ∀ e e' w w', F e e' w w' → F' e e' w w') : Corresponds Q' F' r r' := by
  cases r with
  | ok a w =>
    obtain ⟨w', rfl, hw⟩ := h.of_ok
    exact ⟨rfl, hQ w w' hw⟩
  | error e w =>
    obtain ⟨e', w', rfl, he⟩ := h.of_error
    exact hF e e' w w' he

theorem Couples.pure (a : α) (h : ∀ w w', P w w' → Q w w') :
    Couples P Q F (Pure.pure a : Exec α) (Pure.pure a) :=
  fun w w' hP => ⟨rfl, h w w' hP⟩

theorem Couples.bind {x y : Exec α} {f g : α → Exec β} (h : Couples P Q F x y)
    (hf : ∀ a, Couples Q R F (f a) (g a)) : Couples P R F (x >>= f) (y >>= g) := by
  intro w w' hP
  have hxy := h w w' hP
  cases hx : x w with
  | ok a u =>
    rw [hx] at hxy
    obtain ⟨u', hy, hQ⟩ := hxy.of_ok
    rw [bind_of_ok hx, bind_of_ok hy]
    exact hf a u u' hQ
  | error e u =>
    rw [hx] at hxy
    obtain ⟨e', u', hy, hF⟩ := hxy.of_error
    rw [bind_of_error hx, bind_of_error hy]
    exact hF

theorem Couples.update {f g : World → World} (h : ∀ w w', P w w' → Q (f w) (g w')) :
    Couples P Q F (modify f) (modify g) :=
  fun w w' hP => ⟨rfl, h w w' hP⟩

/-- An update made on one side only. -/
theorem Couples.update_left {f : World → World} {x y : Exec α} (h : ∀ w w', P w w' → Q (f w) w')
    (hxy : Couples Q R F x y) : Couples P R F (modify f >>= fun _ => x) y :=
  fun w w' hP => hxy (f w) w' (h w w' hP)

theorem Couples.update_right {g : World → World} {x y : Exec α} (h : ∀ w w', P w w' → Q w (g w'))
    (hxy : Couples Q R F x y) : Couples P R F x (modify g >>= fun _ => y) :=
  fun w w' hP => hxy w (g w') (h w w' hP)

/-- What the second computation keeps can be carried along. -/
theorem Couples.and_right {x y : Exec α} {J : World → Prop} (h : Couples P Q F x y)
    (hJ : ∀ w a w', y w = .ok a w' → J w → J w') :
    Couples (fun w w' => P w w' ∧ J w') (fun w w' => Q w w' ∧ J w') F x y := by
  rintro w w' ⟨hP, hw'⟩
  have hxy := h w w' hP
  cases hx : x w with
  | ok a u =>
    rw [hx] at hxy
    obtain ⟨u', hy, hQ⟩ := hxy.of_ok
    rw [hy]
    exact ⟨rfl, hQ, hJ w' a u' hy hw'⟩
  | error e u =>
    rw [hx] at hxy
    obtain ⟨e', u', hy, hF⟩ := hxy.of_error
    rw [hy]
    exact hF

theorem Couples.congruence (P : World → World → Prop) (F : Error → Error → World → World → Prop) :
    Congruence fun _ x y => Couples P P F x y where
  pure a := Couples.pure a fun _ _ h => h
  bind h hf := h.bind hf

theorem Corresponds.adapt {x y : Exec α} {f g : Error → Error} {F' : Error → Error → World → World → Prop}
    {w w' : World} (h : Corresponds Q F (x w) (y w')) (hF : ∀ e e' w w', F e e' w w' → F' (f e) (g e') w w') :
    Corresponds Q F' (Exec.adapt f x w) (Exec.adapt g y w') := by
  cases hx : x w with
  | ok a u =>
    rw [hx] at h
    obtain ⟨u', hy, hQ⟩ := h.of_ok
    rw [adapt_of_ok f hx, adapt_of_ok g hy]
    exact ⟨rfl, hQ⟩
  | error e u =>
    rw [hx] at h
    obtain ⟨e', u', hy, h⟩ := h.of_error
    rw [adapt_of_error f hx, adapt_of_error g hy]
    exact hF e e' u u' h

theorem Couples.adapt {x y : Exec α} {f g : Error → Error} {F' : Error → Error → World → World → Prop}
    (h : Couples P Q F x y) (hF : ∀ e e' w w', F e e' w w' → F' (f e) (g e') w w') :
    Couples P Q F' (Exec.adapt f x) (Exec.adapt g y) :=
  fun w w' hP => (h w w' hP).adapt hF

/-- A computation ends like itself. -/
theorem Couples.refl (x : Exec α) (hF : ∀ e w, F e e w w) : Couples Eq Eq F x x := by
  rintro w _ rfl
  cases x w with
  | ok a u => exact ⟨rfl, rfl⟩
  | error e u => exact hF e u

theorem Couples.ofExcept (r : Except Fault α) (h : ∀ w w', P w w' → Q w w')
    (hF : ∀ fault w w', P w w' → F (.of fault) (.of fault) w w') :
    Couples P Q F (Exec.ofExcept r) (Exec.ofExcept r) := by
  intro w w' hP
  cases r with
  | ok a => exact ⟨rfl, h w w' hP⟩
  | error fault => exact hF fault w w' hP

end Couples

end Exec

end LispCore
