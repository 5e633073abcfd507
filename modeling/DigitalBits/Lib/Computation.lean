import Mathlib

/-!
# Stateful computations that may fail

A computation of type `EStateM ε σ α` either returns a value or fails with an
error; in both cases the state reached is kept, as it is in a language whose
exceptions do not undo assignments. `After m s Q E` is the weakest precondition
of `m` for the postcondition `Q` on a return and `E` on a failure. The rules
below push it through the constructs of a program, so that a caller only cites
what is known of each call it makes.
-/
namespace DigitalBits.Lib

variable {ε σ α β : Type}

/-- Running `m` from `s` ends in a return that satisfies `Q` or a failure that
satisfies `E`. -/
def After (m : EStateM ε σ α) (s : σ) (Q : α → σ → Prop) (E : ε → σ → Prop) : Prop :=
  match m s with
  | .ok a t => Q a t
  | .error e t => E e t

variable {m : EStateM ε σ α} {s t : σ} {a : α} {Q : α → σ → Prop} {E : ε → σ → Prop}

theorem After.of_ok (h : After m s Q E) (hm : m s = .ok a t) : Q a t := by
  simpa only [After, hm] using h

variable {e : ε}

theorem After.of_error (h : After m s Q E) (hm : m s = .error e t) : E e t := by
  simpa only [After, hm] using h

/-- The rule of consequence. -/
theorem After.mono {Q' : α → σ → Prop} {E' : ε → σ → Prop} (h : After m s Q E)
    (hQ : ∀ a t, Q a t → Q' a t) (hE : ∀ e t, E e t → E' e t) :
    After m s Q' E' := by
  unfold After at h ⊢
  cases hm : m s with
  | ok a t => rw [hm] at h; exact hQ a t h
  | error e t => rw [hm] at h; exact hE e t h

theorem After.imp {Q' : α → σ → Prop} (h : After m s Q E) (hQ : ∀ a t, Q a t → Q' a t) :
    After m s Q' E :=
  h.mono hQ fun _ _ he => he

theorem After.of_forall (hQ : ∀ a t, Q a t) (hE : ∀ e t, E e t) : After m s Q E := by
  unfold After
  cases m s with
  | ok a t => exact hQ a t
  | error e t => exact hE e t

/-- Two facts about one run hold together. -/
theorem After.and {Q' : α → σ → Prop} {E' : ε → σ → Prop} (h : After m s Q E) (h' : After m s Q' E') :
    After m s (fun a t => Q a t ∧ Q' a t) (fun e t => E e t ∧ E' e t) := by
  unfold After at h h' ⊢
  cases hm : m s with
  | ok a t | error e t => rw [hm] at h h'; exact ⟨h, h'⟩

@[simp] theorem after_pure (a : α) (s : σ) (Q : α → σ → Prop) (E : ε → σ → Prop) :
    After (pure a) s Q E ↔ Q a s := Iff.rfl

@[simp] theorem after_throw (e : ε) (s : σ) (Q : α → σ → Prop) (E : ε → σ → Prop) :
    After (throw e) s Q E ↔ E e s := Iff.rfl

@[simp] theorem after_get (s : σ) (Q : σ → σ → Prop) (E : ε → σ → Prop) :
    After get s Q E ↔ Q s s := Iff.rfl

@[simp] theorem after_set (t s : σ) (Q : PUnit → σ → Prop) (E : ε → σ → Prop) :
    After (set t) s Q E ↔ Q ⟨⟩ t := Iff.rfl

@[simp] theorem after_modify (f : σ → σ) (s : σ) (Q : PUnit → σ → Prop) (E : ε → σ → Prop) :
    After (modify f) s Q E ↔ Q ⟨⟩ (f s) := Iff.rfl

@[simp] theorem after_bind (m : EStateM ε σ α) (f : α → EStateM ε σ β) (s : σ)
    (Q : β → σ → Prop) (E : ε → σ → Prop) :
    After (m >>= f) s Q E ↔ After m s (fun a t => After (f a) t Q E) E := by
  unfold After
  change (match EStateM.bind m f s with | .ok a t => Q a t | .error e t => E e t) ↔ _
  unfold EStateM.bind
  cases m s <;> rfl

/-- The rule of a sequence. -/
theorem After.bind {f : α → EStateM ε σ β} {Q' : β → σ → Prop} (h : After m s Q E)
    (hf : ∀ a t, Q a t → After (f a) t Q' E) : After (m >>= f) s Q' E := by
  rw [after_bind]
  exact h.imp hf

theorem bind_of_ok {f : α → EStateM ε σ β} (h : m s = .ok a t) : (m >>= f) s = f a t := by
  change EStateM.bind m f s = _
  rw [EStateM.bind, h]

theorem bind_of_error {f : α → EStateM ε σ β} (h : m s = .error e t) :
    (m >>= f) s = .error e t := by
  change EStateM.bind m f s = _
  rw [EStateM.bind, h]

@[simp] theorem after_map (f : α → β) (m : EStateM ε σ α) (s : σ) (Q : β → σ → Prop)
    (E : ε → σ → Prop) :
    After (f <$> m) s Q E ↔ After m s (fun a t => Q (f a) t) E := by
  unfold After
  change (match EStateM.map f m s with | .ok a t => Q a t | .error e t => E e t) ↔ _
  unfold EStateM.map
  cases m s <;> rfl

@[simp] theorem after_ite (c : Prop) [Decidable c] (m m' : EStateM ε σ α) (s : σ)
    (Q : α → σ → Prop) (E : ε → σ → Prop) :
    After (if c then m else m') s Q E ↔ (c → After m s Q E) ∧ (¬ c → After m' s Q E) := by
  by_cases h : c <;> simp [h]

/-- The rule of a loop over a list. The invariant knows what is done of the list. -/
theorem After.forM {f : α → EStateM ε σ PUnit} {I : List α → σ → Prop} {l : List α}
    (hstep : ∀ done a rest s, done ++ a :: rest = l → I done s →
      After (f a) s (fun _ t => I (done ++ [a]) t) E) (h : I [] s) :
    After (l.forM f) s (fun _ t => I l t) E := by
  suffices hrest : ∀ rest done s, done ++ rest = l → I done s →
      After (rest.forM f) s (fun _ t => I l t) E from hrest l [] s rfl h
  intro rest
  induction rest with
  | nil =>
    rintro done s rfl hdone
    rwa [List.append_nil]
  | cons a rest ih =>
    intro done s hl hdone
    change After (f a >>= fun _ => rest.forM f) s _ E
    exact (hstep done a rest s hl hdone).bind fun _ t ht => ih _ t (by simpa using hl) ht

/-- The rule of a loop with an accumulator. -/
theorem After.foldlM {f : β → α → EStateM ε σ β} {I : β → σ → Prop}
    (hstep : ∀ b a s, I b s → After (f b a) s I E) (l : List α) {b : β} (h : I b s) :
    After (l.foldlM f b) s I E := by
  induction l generalizing b s with
  | nil => exact h
  | cons a l ih =>
    rw [List.foldlM_cons]
    exact (hstep b a s h).bind fun _ _ ht => ih ht

/-- Running `m` from `s` ends in `t`, by a return or a failure. -/
def Ends (m : EStateM ε σ α) (s t : σ) : Prop :=
  (∃ a, m s = .ok a t) ∨ ∃ e, m s = .error e t

/-- Where running `m` from `s` ends. -/
def finalState (m : EStateM ε σ α) (s : σ) : σ :=
  match m s with
  | .ok _ t => t
  | .error _ t => t

theorem ends_finalState (m : EStateM ε σ α) (s : σ) : Ends m s (finalState m s) := by
  cases h : m s with
  | ok a t => exact .inl ⟨a, by rw [finalState, h]⟩
  | error e t => exact .inr ⟨e, by rw [finalState, h]⟩

/-- How running `m` from `s` fails, if it does. -/
def failure (m : EStateM ε σ α) (s : σ) : Option ε :=
  match m s with
  | .ok _ _ => none
  | .error e _ => some e

theorem eq_ok_of_failure {m : EStateM ε σ Unit} (h : failure m s = none) :
    m s = .ok () (finalState m s) := by
  cases hm : m s with
  | ok a t => rw [finalState, hm]
  | error e t => rw [failure, hm] at h; cases h

/-- What running `m` from `s` returns, if it does. -/
def returned (m : EStateM ε σ α) (s : σ) : Option α :=
  match m s with
  | .ok a _ => some a
  | .error _ _ => none

theorem eq_ok_of_returned (h : returned m s = some a) :
    m s = .ok a (finalState m s) := by
  cases hm : m s with
  | ok b t =>
    rw [returned, hm] at h
    rw [finalState, hm, Option.some.inj h]
  | error e t => rw [returned, hm] at h; cases h

theorem After.of_ends {P : σ → Prop} (h : After m s (fun _ t => P t) E) (hE : ∀ e t, E e t → P t)
    (hm : Ends m s t) : P t := by
  rcases hm with ⟨a, hm⟩ | ⟨e, hm⟩
  · exact h.of_ok hm
  · exact hE e t (h.of_error hm)

/-- What every step keeps is kept by any number of steps. -/
theorem keeps_of_steps {R : σ → σ → Prop} {P : σ → Prop} (hR : ∀ s t, R s t → P s → P t)
    (h : Relation.ReflTransGen R s t) (hs : P s) : P t := by
  induction h with
  | refl => exact hs
  | tail _ hstep ih => exact hR _ _ hstep ih

/-! ## Computations without a state -/

/-- The weakest precondition of a computation that only returns or fails. -/
def Yields (x : Except ε α) (Q : α → Prop) (E : ε → Prop) : Prop :=
  match x with
  | .ok a => Q a
  | .error e => E e

variable {x : Except ε α}

theorem Yields.of_ok {Q : α → Prop} {E : ε → Prop} (h : Yields x Q E) (hx : x = .ok a) : Q a := by
  simpa only [Yields, hx] using h

theorem Yields.of_error {Q : α → Prop} {E : ε → Prop} (h : Yields x Q E) (hx : x = .error e) :
    E e := by
  simpa only [Yields, hx] using h

theorem Yields.mono {Q Q' : α → Prop} {E E' : ε → Prop} (h : Yields x Q E) (hQ : ∀ a, Q a → Q' a)
    (hE : ∀ e, E e → E' e) : Yields x Q' E' := by
  cases x with
  | ok a => exact hQ a h
  | error e => exact hE e h

theorem Yields.imp {Q Q' : α → Prop} {E : ε → Prop} (h : Yields x Q E) (hQ : ∀ a, Q a → Q' a) :
    Yields x Q' E :=
  h.mono hQ fun _ he => he

@[simp] theorem yields_pure (a : α) (Q : α → Prop) (E : ε → Prop) :
    Yields (pure a) Q E ↔ Q a := Iff.rfl

@[simp] theorem yields_throw (e : ε) (Q : α → Prop) (E : ε → Prop) :
    Yields (throw e) Q E ↔ E e := Iff.rfl

@[simp] theorem yields_ok (a : α) (Q : α → Prop) (E : ε → Prop) :
    Yields (.ok a) Q E ↔ Q a := Iff.rfl

@[simp] theorem yields_error (e : ε) (Q : α → Prop) (E : ε → Prop) :
    Yields (.error e) Q E ↔ E e := Iff.rfl

@[simp] theorem yields_true (x : Except ε α) :
    Yields x (fun _ => True) (fun _ => True) := by
  cases x <;> trivial

@[simp] theorem yields_bind (x : Except ε α) (f : α → Except ε β) (Q : β → Prop) (E : ε → Prop) :
    Yields (x >>= f) Q E ↔ Yields x (fun a => Yields (f a) Q E) E := by
  cases x <;> rfl

@[simp] theorem after_ofExcept (x : Except ε α) (s : σ) (Q : α → σ → Prop) (E : ε → σ → Prop) :
    After (ofExcept x) s Q E ↔ Yields x (fun a => Q a s) (fun e => E e s) := by
  cases x <;> rfl

@[simp] theorem yields_ite (c : Prop) [Decidable c] (x x' : Except ε α) (Q : α → Prop)
    (E : ε → Prop) :
    Yields (if c then x else x') Q E ↔ (c → Yields x Q E) ∧ (¬ c → Yields x' Q E) := by
  by_cases h : c <;> simp [h]

end DigitalBits.Lib
