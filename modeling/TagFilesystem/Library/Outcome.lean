import Mathlib.Data.List.Basic

/-!
# Programs that may stop with a fault

A program is a value of `Except ε α`. `Sat E m Q` is its specification: `m` returns a value
satisfying `Q`, or stops with a fault that `E` allows. Partial correctness takes
`E = fun _ => True`; excluding one kind of fault takes an `E` that refuses it.
-/

namespace TagFilesystem

universe u v

variable {ε : Type v} {α β σ : Type u} {E : ε → Prop}

def Sat (E : ε → Prop) (m : Except ε α) (Q : α → Prop) : Prop :=
  match m with
  | .ok a => Q a
  | .error e => E e

/-- Partial correctness: any fault is allowed. -/
abbrev Returns (m : Except ε α) (Q : α → Prop) : Prop := Sat (fun _ => True) m Q

@[simp] theorem sat_ok (a : α) (Q : α → Prop) : Sat E (.ok a : Except ε α) Q ↔ Q a := Iff.rfl

@[simp] theorem sat_pure (a : α) (Q : α → Prop) : Sat E (pure a : Except ε α) Q ↔ Q a := Iff.rfl

@[simp] theorem sat_error (e : ε) (Q : α → Prop) : Sat E (.error e : Except ε α) Q ↔ E e := Iff.rfl

@[simp] theorem sat_throw (e : ε) (Q : α → Prop) :
    Sat E (throw e : Except ε α) Q ↔ E e := Iff.rfl

theorem ok_bind (a : α) (f : α → Except ε β) : (Except.ok a >>= f) = f a := rfl

theorem sat_bind {m : Except ε α} {f : α → Except ε β} {Q : β → Prop} :
    Sat E (m >>= f) Q ↔ Sat E m fun a => Sat E (f a) Q := by
  cases m <;> rfl

theorem Sat.mono {m : Except ε α} {Q Q' : α → Prop} (h : Sat E m Q) (hq : ∀ a, Q a → Q' a) :
    Sat E m Q' := by
  cases m with
  | ok a => exact hq a h
  | error e => exact h

theorem Sat.weaken {E' : ε → Prop} {m : Except ε α} {Q : α → Prop} (h : Sat E m Q)
    (he : ∀ e, E e → E' e) : Sat E' m Q := by
  cases m with
  | ok a => exact h
  | error e => exact he e h

/-- The rule of sequencing: what the first part establishes is what the second part may use. -/
theorem Sat.bind {m : Except ε α} {f : α → Except ε β} {P : α → Prop} {Q : β → Prop}
    (h : Sat E m P) (hf : ∀ a, P a → Sat E (f a) Q) : Sat E (m >>= f) Q :=
  sat_bind.mpr (h.mono hf)

/-- What follows may also use which value the first part returned. -/
theorem Sat.bind_eq {m : Except ε α} {f : α → Except ε β} {P : α → Prop} {Q : β → Prop}
    (h : Sat E m P) (hf : ∀ a, m = .ok a → P a → Sat E (f a) Q) : Sat E (m >>= f) Q := by
  cases m with
  | ok a => exact hf a rfl h
  | error e => exact h

theorem sat_map {m : Except ε α} {f : α → β} {Q : β → Prop} :
    Sat E (f <$> m) Q ↔ Sat E m fun a => Q (f a) := by
  cases m <;> rfl

/-- A fault under another name. -/
theorem sat_mapError {ε' : Type v} {F : ε' → Prop} {m : Except ε α} {f : ε → ε'} {Q : α → Prop} :
    Sat F (m.mapError f) Q ↔ Sat (fun e => F (f e)) m Q := by
  cases m <;> rfl

theorem map_eq_ok {m : Except ε α} {f : α → β} {b : β} :
    f <$> m = .ok b ↔ ∃ a, m = .ok a ∧ f a = b := by
  cases m with
  | ok a =>
    constructor
    · exact fun h => ⟨a, rfl, Except.ok.inj h⟩
    · rintro ⟨_, ⟨⟩, rfl⟩
      rfl
  | error e =>
    constructor
    · intro h
      cases h
    · rintro ⟨_, h, _⟩
      cases h

theorem bind_eq_ok {m : Except ε α} {f : α → Except ε β} {b : β} :
    m >>= f = .ok b ↔ ∃ a, m = .ok a ∧ f a = .ok b := by
  cases m with
  | ok a =>
    constructor
    · exact fun h => ⟨a, rfl, h⟩
    · rintro ⟨_, ⟨⟩, h⟩
      exact h
  | error e =>
    constructor
    · intro h
      cases h
    · rintro ⟨_, h, _⟩
      cases h

theorem Sat.of_ok {m : Except ε α} {Q : α → Prop} {a : α} (h : Sat E m Q) (ha : m = .ok a) :
    Q a := by
  subst ha
  exact h

theorem Sat.and {m : Except ε α} {Q Q' : α → Prop} (h : Sat E m Q)
    (h' : Sat (fun _ => True) m Q') : Sat E m fun a => Q a ∧ Q' a := by
  cases m with
  | ok a => exact ⟨h, h'⟩
  | error e => exact h

/-- A program that meets a specification allowing no fault returns. -/
theorem Sat.exists_ok {m : Except ε α} {Q : α → Prop} (h : Sat (fun _ => False) m Q) :
    ∃ a, m = .ok a ∧ Q a := by
  cases m with
  | ok a => exact ⟨a, rfl, h⟩
  | error e => exact h.elim

theorem returns_true (m : Except ε α) : Returns m fun _ => True := by
  cases m <;> trivial

theorem returns_iff {m : Except ε α} {Q : α → Prop} : Returns m Q ↔ ∀ a, m = .ok a → Q a := by
  constructor
  · intro h a ha
    exact h.of_ok ha
  · intro h
    cases m with
    | ok a => exact h a rfl
    | error e => trivial

/-- A fault outside `E` is never the outcome. -/
theorem Sat.ne_error {m : Except ε α} {Q : α → Prop} {e : ε} (h : Sat E m Q) (he : ¬ E e) :
    m ≠ .error e := by
  intro hm
  subst hm
  exact he h

/-- A test for one kind of fault. -/
def faultsWith [DecidableEq ε] (m : Except ε α) (e : ε) : Bool :=
  match m with
  | .ok _ => false
  | .error e' => e' = e

theorem faultsWith_iff [DecidableEq ε] {m : Except ε α} {e : ε} :
    faultsWith m e = true ↔ m = .error e := by
  cases m <;> simp [faultsWith]

/-- A test of the value that is returned. -/
def returnsWith (m : Except ε α) (p : α → Bool) : Bool :=
  match m with
  | .ok a => p a
  | .error _ => false

theorem returnsWith_iff {m : Except ε α} {p : α → Bool} :
    returnsWith m p = true ↔ ∃ a, m = .ok a ∧ p a = true := by
  cases m <;> simp [returnsWith]

/-- Both programs return, with related values, or both stop with the same fault. -/
def Agree {β : Type u} (R : α → β → Prop) : Except ε α → Except ε β → Prop
  | .ok a, .ok b => R a b
  | .error e, .error e' => e = e'
  | _, _ => False

/-- Programs agree if one condition decides for both whether they stop, with the fault `e`, and
the values they return otherwise are related. -/
theorem Agree.of_sat {β : Type u} {R : α → β → Prop} {P : Prop} {e : ε} {m : Except ε α}
    {m' : Except ε β} {Q : α → Prop} {Q' : β → Prop} (h : Sat (fun x => x = e ∧ P) m fun a => ¬ P ∧ Q a)
    (h' : Sat (fun x => x = e ∧ P) m' fun b => ¬ P ∧ Q' b) (hR : ∀ a b, Q a → Q' b → R a b) :
    Agree R m m' := by
  cases m with
  | ok a =>
    cases m' with
    | ok b => exact hR a b h.2 h'.2
    | error x => exact absurd h'.2 h.1
  | error x =>
    cases m' with
    | ok b => exact absurd h.2 h'.1
    | error x' => exact h.1.trans h'.1.symm

/-- Two versions of a program have the same outcome, and a value that is returned satisfies `Q`. -/
def Coincide (m m' : Except ε α) (Q : α → Prop) : Prop := m = m' ∧ Returns m' Q

namespace Coincide

variable {m m' : Except ε α} {Q Q' : α → Prop}

theorem of_returns (h : Returns m Q) : Coincide m m Q := ⟨rfl, h⟩

theorem ok {a : α} (h : Q a) : Coincide (.ok a : Except ε α) (.ok a) Q := ⟨rfl, h⟩

theorem mono (h : Coincide m m' Q) (hq : ∀ a, Q a → Q' a) : Coincide m m' Q' :=
  ⟨h.1, Sat.mono h.2 hq⟩

theorem bind {f f' : α → Except ε β} {P : β → Prop} (h : Coincide m m' Q)
    (hf : ∀ a, Q a → Coincide (f a) (f' a) P) : Coincide (m >>= f) (m' >>= f') P := by
  obtain ⟨rfl, hm⟩ := h
  cases m with
  | ok a => exact hf a hm
  | error e => exact ⟨rfl, trivial⟩

theorem map {f : α → β} {P : β → Prop} (h : Coincide m m' Q) (hf : ∀ a, Q a → P (f a)) :
    Coincide (f <$> m) (f <$> m') P := by
  obtain ⟨rfl, hm⟩ := h
  exact ⟨rfl, sat_map.mpr (Sat.mono hm hf)⟩

theorem of_ok {a : α} (h : Coincide m m' Q) (ha : m = .ok a) : m' = .ok a ∧ Q a := by
  obtain ⟨rfl, hm⟩ := h
  exact ⟨ha, hm.of_ok ha⟩

end Coincide

/-- A loop over a list, the body updating the state: `for a in l do s ← f s a`. -/
def forEach (l : List α) (f : σ → α → Except ε σ) (s : σ) : Except ε σ := l.foldlM f s

@[simp] theorem forEach_nil (f : σ → α → Except ε σ) (s : σ) : forEach [] f s = .ok s := rfl

@[simp] theorem forEach_cons (a : α) (l : List α) (f : σ → α → Except ε σ) (s : σ) :
    forEach (a :: l) f s = f s a >>= forEach l f := rfl

theorem forEach_singleton (a : α) (f : σ → α → Except ε σ) (s : σ) : forEach [a] f s = f s a := by
  rw [forEach_cons]
  cases f s a with
  | error x => rfl
  | ok s' => rfl

/-- The loop rule. The invariant `I` sees what is still to be visited. -/
theorem sat_forEach {f : σ → α → Except ε σ} (I : List α → σ → Prop)
    (hstep : ∀ a l s, I (a :: l) s → Sat E (f s a) (I l)) :
    ∀ (l : List α) (s : σ), I l s → Sat E (forEach l f s) (I []) := by
  intro l
  induction l with
  | nil => intro s hs; exact hs
  | cons a l ih => intro s hs; exact (hstep a l s hs).bind ih

/-- The loop rule for two versions of the body. -/
theorem Coincide.forEach {f f' : σ → α → Except ε σ} (I : List α → σ → Prop)
    (hstep : ∀ a l s, I (a :: l) s → Coincide (f s a) (f' s a) (I l)) :
    ∀ (l : List α) (s : σ), I l s → Coincide (forEach l f s) (forEach l f' s) (I []) := by
  intro l
  induction l with
  | nil => intro s hs; exact .ok hs
  | cons a l ih => intro s hs; exact (hstep a l s hs).bind ih

/-- The loop rule for an invariant that sees what has been visited. -/
theorem sat_forEach_visited {f : σ → α → Except ε σ} {l : List α} (I : List α → σ → Prop)
    (hstep : ∀ l₀ a l₁ s, l₀ ++ a :: l₁ = l → I l₀ s → Sat E (f s a) (I (l₀ ++ [a])))
    {s : σ} (hs : I [] s) : Sat E (forEach l f s) (I l) := by
  refine (sat_forEach (fun l₁ s => ∃ l₀, l₀ ++ l₁ = l ∧ I l₀ s) ?_ l s ⟨[], rfl, hs⟩).mono ?_
  · rintro a l₁ s ⟨l₀, hl, hI⟩
    exact (hstep l₀ a l₁ s hl hI).mono fun s' hs' => ⟨l₀ ++ [a], by simpa using hl, hs'⟩
  · rintro s ⟨l₀, hl, hI⟩
    rw [List.append_nil] at hl
    exact hl ▸ hI

theorem forEach_append (l₁ l₂ : List α) (f : σ → α → Except ε σ) (s : σ) :
    forEach (l₁ ++ l₂) f s = forEach l₁ f s >>= forEach l₂ f := by
  simp only [forEach, List.foldlM_append]
  rfl

theorem forEach_map {β : Type u} (g : β → α) (l : List β) (f : σ → α → Except ε σ) (s : σ) :
    forEach (l.map g) f s = forEach l (fun s b => f s (g b)) s := by
  induction l generalizing s with
  | nil => rfl
  | cons b l ih =>
    simp only [List.map_cons, forEach_cons]
    exact congrArg _ (funext ih)

/-- A counter that runs over the positions of a list reads its elements in order. -/
theorem forEach_range_getElem? {ι τ : Type} (l : List ι) (f : τ → Option ι → Except ε τ) (s : τ) :
    forEach (List.range l.length) (fun s i => f s l[i]?) s = forEach l (fun s a => f s (some a)) s := by
  induction l generalizing s with
  | nil => rfl
  | cons a l ih =>
    rw [List.length_cons, List.range_succ_eq_map, forEach_cons, forEach_cons]
    refine congrArg _ (funext fun s' => ?_)
    rw [forEach_map]
    exact ih s'

/-- The loop rule for a counter: `for i in [0, n) do s ← f s i`. -/
theorem sat_forRange {τ : Type} {f : τ → ℕ → Except ε τ} {n : ℕ} (I : ℕ → τ → Prop)
    (hstep : ∀ i s, i < n → I i s → Sat E (f s i) (I (i + 1))) {s : τ} (hs : I 0 s) :
    Sat E (forEach (List.range n) f s) (I n) := by
  induction n with
  | zero => exact hs
  | succ n ih =>
    rw [List.range_succ, forEach_append]
    refine (ih fun i s hi => hstep i s (Nat.lt_succ_of_lt hi)).bind fun s' hs' => ?_
    exact (hstep n s' (Nat.lt_succ_self n) hs').bind fun s'' hs'' => hs''

/-- The loop rule for an invariant that does not depend on the position. -/
theorem sat_forEach_mem {f : σ → α → Except ε σ} {I : σ → Prop} {l : List α}
    (hstep : ∀ a ∈ l, ∀ s, I s → Sat E (f s a) I) {s : σ} (hs : I s) :
    Sat E (forEach l f s) I := by
  induction l generalizing s with
  | nil => exact hs
  | cons a l ih =>
    exact (hstep a List.mem_cons_self s hs).bind fun s' hs' =>
      ih (fun b hb => hstep b (List.mem_cons_of_mem a hb)) hs'

/-- A loop does not return if its body stops at one of the elements. -/
theorem forEach_stops {f : σ → α → Except ε σ} {l : List α} (bad : α → Prop)
    (hbad : ∀ a s, bad a → Returns (f s a) fun _ => False) (h : ∃ a ∈ l, bad a) (s : σ) :
    Returns (forEach l f s) fun _ => False := by
  obtain ⟨a, ha, hba⟩ := h
  obtain ⟨l₀, l₁, rfl⟩ := List.append_of_mem ha
  rw [forEach_append]
  refine (returns_true _).bind fun s' _ => ?_
  exact (hbad a s' hba).bind fun _ h => h.elim

/-- A loop whose body leaves the state alone at each element. -/
theorem forEach_same {f : σ → α → Except ε σ} {l : List α} {s : σ} (h : ∀ a ∈ l, f s a = .ok s) :
    forEach l f s = .ok s := by
  induction l with
  | nil => rfl
  | cons a l ih =>
    rw [forEach_cons, h a List.mem_cons_self]
    exact ih fun b hb => h b (List.mem_cons_of_mem a hb)

/-- A loop whose body only checks each element. -/
theorem forEach_check {f : σ → α → Except ε σ} {l : List α} {e : ε} {s : σ} (P : α → Prop)
    [DecidablePred P] (hf : ∀ a ∈ l, f s a = if P a then .ok s else .error e) :
    forEach l f s = if ∀ a ∈ l, P a then .ok s else .error e := by
  induction l with
  | nil => simp
  | cons a l ih =>
    rw [forEach_cons, hf a List.mem_cons_self]
    have hrest := ih fun b hb => hf b (List.mem_cons_of_mem a hb)
    by_cases ha : P a
    · simp only [List.forall_mem_cons, ha, true_and]
      exact hrest
    · simp only [List.forall_mem_cons, ha, false_and, if_false]
      rfl

end TagFilesystem
