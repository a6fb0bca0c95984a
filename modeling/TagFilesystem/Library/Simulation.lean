import TagFilesystem.Library.Run

namespace TagFilesystem

universe u v w x

variable {ε : Type v} {σ : Type u} {τ : Type w} {ι : Type x} {ο : Type u}
  {step : σ → ι → Except ε (ο × σ)} {guard : σ → ι → Prop} {s s' : σ} {log : List (ι × ο)}

/-- A run from `s` to `s'`, with the events and their replies in order. -/
inductive Logs (step : σ → ι → Except ε (ο × σ)) (guard : σ → ι → Prop) (s : σ) :
    List (ι × ο) → σ → Prop
  | nil : Logs step guard s [] s
  | snoc {log : List (ι × ο)} {s' s'' : σ} {e : ι} {o : ο} : Logs step guard s log s' → guard s' e →
      step s' e = .ok (o, s'') → Logs step guard s (log ++ [(e, o)]) s''

/-- The replies of a log are possible, and lead from `t` to `t'`. -/
inductive Allows (spec : τ → ι → ο → τ → Prop) (t : τ) : List (ι × ο) → τ → Prop
  | nil : Allows spec t [] t
  | snoc {log : List (ι × ο)} {t' t'' : τ} {e : ι} {o : ο} : Allows spec t log t' → spec t' e o t'' →
      Allows spec t (log ++ [(e, o)]) t''

/-- The rule of simulation. -/
theorem Logs.simulate {spec : τ → ι → ο → τ → Prop} {R : σ → τ → Prop} {E : ι → ε → Prop} {t : τ}
    (h : Logs step guard s log s') (hR : R s t)
    (hstep : ∀ s t e, R s t → guard s e →
      Sat (E e) (step s e) fun r => ∃ t', spec t e r.1 t' ∧ R r.2 t') :
    ∃ t', Allows spec t log t' ∧ R s' t' := by
  induction h with
  | nil => exact ⟨t, .nil, hR⟩
  | snoc _ hg he ih =>
    obtain ⟨t', hlog, hR'⟩ := ih
    obtain ⟨t'', hspec, hR''⟩ := (hstep _ _ _ hR' hg).of_ok he
    exact ⟨t'', hlog.snoc hspec, hR''⟩

theorem Logs.invariant {I : σ → Prop} {E : ι → ε → Prop} (h : Logs step guard s log s') (hs : I s)
    (hstep : ∀ s e, I s → guard s e → Sat (E e) (step s e) fun r => I r.2) : I s' := by
  induction h with
  | nil => exact hs
  | snoc _ hg he ih => exact (hstep _ _ ih hg).of_ok he

/-- `p` at the start or `sets` at some place, and not `clears` since then. -/
def Since {α : Type w} (sets clears : α → Prop) (p : Prop) (log : List α) : Prop :=
  (p ∧ ∀ x ∈ log, ¬ clears x) ∨ ∃ before x after, log = before ++ x :: after ∧ sets x ∧
    ∀ y ∈ after, ¬ clears y

theorem since_concat {α : Type w} {sets clears : α → Prop} {p : Prop} {log : List α} {x : α} :
    Since sets clears p (log ++ [x]) ↔ sets x ∨ Since sets clears p log ∧ ¬ clears x := by
  constructor
  · rintro (⟨hp, hno⟩ | ⟨before, y, after, hlog, hy, hno⟩)
    · exact .inr ⟨.inl ⟨hp, fun z hz => hno z (List.mem_append_left _ hz)⟩, hno x (by simp)⟩
    -- the place is the last one, or before it
    · rcases List.eq_nil_or_concat after with rfl | ⟨after, z, rfl⟩
      · obtain rfl := List.singleton_inj.mp (List.append_inj' hlog rfl).2
        exact .inl hy
      · rw [List.concat_eq_append] at hno hlog
        rw [← List.cons_append, ← List.append_assoc] at hlog
        obtain ⟨rfl, hz⟩ := List.append_inj' hlog rfl
        obtain rfl := List.singleton_inj.mp hz
        exact .inr ⟨.inr ⟨before, y, after, rfl, hy, fun w hw => hno w (by simp [hw])⟩,
          hno x (by simp)⟩
  · rintro (hx | ⟨⟨hp, hno⟩ | ⟨before, y, after, rfl, hy, hno⟩, hx⟩)
    · exact .inr ⟨log, x, [], rfl, hx, by simp⟩
    · exact .inl ⟨hp, by simpa [or_imp, forall_and] using ⟨hno, hx⟩⟩
    · exact .inr ⟨before, y, after ++ [x], by simp, hy, by simpa [or_imp, forall_and] using ⟨hno, hx⟩⟩

section History

variable {spec : τ → ι → ο → τ → Prop} {t t' : τ} {P : τ → Prop} {sets clears : ι × ο → Prop}

/-- What only some events can make true, and others make false. -/
theorem Allows.since (h : Allows spec t log t')
    (hstep : ∀ t e o t', spec t e o t' → P t' → sets (e, o) ∨ P t ∧ ¬ clears (e, o)) :
    P t' → Since sets clears (P t) log := by
  induction h with
  | nil => exact fun hP => .inl ⟨hP, by simp⟩
  | snoc _ hs ih => exact fun hP => since_concat.mpr ((hstep _ _ _ _ hs hP).imp id (.imp ih id))

/-- What some events make true, and only others can make false. -/
theorem Allows.of_since (h : Allows spec t log t')
    (hstep : ∀ t e o t', spec t e o t' → sets (e, o) ∨ P t ∧ ¬ clears (e, o) → P t') :
    Since sets clears (P t) log → P t' := by
  induction h with
  | nil =>
    rintro (⟨hP, -⟩ | ⟨before, x, after, hlog, -⟩)
    · exact hP
    · simp at hlog
  | snoc _ hs ih => exact fun hP => hstep _ _ _ _ hs ((since_concat.mp hP).imp id (.imp ih id))

end History

/-- Executes the events in order and logs the replies. -/
def executeLog (step : σ → ι → Except ε (ο × σ)) (guard : σ → ι → Prop)
    [∀ s e, Decidable (guard s e)] : List ι → List (ι × ο) → σ → Option (List (ι × ο) × σ)
  | [], log, s => some (log, s)
  | e :: es, log, s =>
    if guard s e then
      match step s e with
      | .ok (o, s') => executeLog step guard es (log ++ [(e, o)]) s'
      | .error _ => none
    else none

theorem logs_of_executeLog [∀ s e, Decidable (guard s e)] {es : List ι} {log log' : List (ι × ο)}
    {s₀ : σ} (hs : Logs step guard s₀ log s) (h : executeLog step guard es log s = some (log', s')) :
    Logs step guard s₀ log' s' := by
  induction es generalizing s log with
  | nil =>
    cases h
    exact hs
  | cons e es ih =>
    simp only [executeLog] at h
    split_ifs at h with hg
    split at h
    · next o s₁ he => exact ih (hs.snoc hg he) h
    · cases h

theorem events_of_executeLog [∀ s e, Decidable (guard s e)] {es : List ι} {log log' : List (ι × ο)}
    (h : executeLog step guard es log s = some (log', s')) :
    log'.map Prod.fst = log.map Prod.fst ++ es := by
  induction es generalizing s log with
  | nil =>
    cases h
    simp
  | cons e es ih =>
    simp only [executeLog] at h
    split_ifs at h
    split at h
    · rw [ih h]
      simp
    · cases h

/-- A log is determined by its events and its replies. -/
theorem log_ext {α β : Type*} {l l' : List (α × β)} (hfst : l.map Prod.fst = l'.map Prod.fst)
    (hsnd : l.map Prod.snd = l'.map Prod.snd) : l = l' := by
  rw [← List.zip_unzip l, ← List.zip_unzip l']
  simp only [List.unzip_eq_map, hfst, hsnd]

end TagFilesystem
