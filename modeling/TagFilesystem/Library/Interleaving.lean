import TagFilesystem.Library.Run

namespace TagFilesystem

universe u v w x

/-- The shared state and the threads. -/
structure Interleaved (σ : Type u) (τ : Type w) where
  shared : σ
  threads : List τ
  deriving DecidableEq

inductive Turn (ι : Type x)
  | start (call : ι)
  | act (i : ℕ)
  deriving DecidableEq

variable {ε : Type v} {σ : Type u} {τ : Type w} {ι : Type x} {init : ι → τ}
  {act : σ → τ → Except ε (σ × τ)} {s s' s'' : σ} {T T' T'' U : τ} {m n : ℕ}

namespace Interleaved

def step (init : ι → τ) (act : σ → τ → Except ε (σ × τ)) (S : Interleaved σ τ) :
    Turn ι → Except ε (Interleaved σ τ)
  | .start call => .ok ⟨S.shared, S.threads ++ [init call]⟩
  | .act i =>
    match S.threads[i]? with
    | none => .ok S
    | some T => do
      let (s, T) ← act S.shared T
      .ok ⟨s, S.threads.set i T⟩

/-- The thread whose turn it is stands in the relation `G` to each of the others. -/
def Meets (G : τ → τ → Prop) (S : Interleaved σ τ) : Turn ι → Prop
  | .start _ => True
  | .act i => ∀ T ∈ S.threads[i]?, ∀ j < S.threads.length, j ≠ i → ∀ U ∈ S.threads[j]?, G T U

instance (G : τ → τ → Prop) [∀ T U, Decidable (G T U)] (S : Interleaved σ τ) (e : Turn ι) :
    Decidable (S.Meets G e) :=
  match e with
  | .start _ => inferInstanceAs (Decidable True)
  | .act i => inferInstanceAs
      (Decidable (∀ T ∈ S.threads[i]?, ∀ j < S.threads.length, j ≠ i → ∀ U ∈ S.threads[j]?, G T U))

/-- `I` holds of the shared state, `P` of every thread and `Q` of any two. -/
structure Keeps (I : σ → Prop) (P : σ → τ → Prop) (Q : τ → τ → Prop) (S : Interleaved σ τ) : Prop where
  shared : I S.shared
  each : ∀ {i : ℕ} {T}, S.threads[i]? = some T → P S.shared T
  pairs : ∀ {i j : ℕ} {T U}, i ≠ j → S.threads[i]? = some T → S.threads[j]? = some U → Q T U

variable {I : σ → Prop} {P : σ → τ → Prop} {Q G : τ → τ → Prop} {S S' : Interleaved σ τ}

theorem Keeps.start {T : τ} (h : Keeps I P Q S) (hP : P S.shared T) (hQ : ∀ U, Q T U ∧ Q U T) :
    Keeps I P Q ⟨S.shared, S.threads ++ [T]⟩ where
  shared := h.shared
  each {i U} hU := by
    rw [List.getElem?_append] at hU
    split_ifs at hU with hi
    · exact h.each hU
    · obtain rfl := List.mem_singleton.mp (List.mem_of_getElem? hU)
      exact hP
  pairs {i j U V} hij hU hV := by
    rw [List.getElem?_append] at hU hV
    split_ifs at hU hV with hi hj hj
    · exact h.pairs hij hU hV
    · obtain rfl := List.mem_singleton.mp (List.mem_of_getElem? hV)
      exact (hQ U).2
    · obtain rfl := List.mem_singleton.mp (List.mem_of_getElem? hU)
      exact (hQ V).1
    · -- there is only one new thread
      obtain ⟨hi', -⟩ := List.getElem?_eq_some_iff.mp hU
      obtain ⟨hj', -⟩ := List.getElem?_eq_some_iff.mp hV
      simp only [List.length_singleton] at hi' hj'
      omega

/-- A step of one thread, if it keeps what holds of the others. -/
theorem Keeps.set {i : ℕ} (h : Keeps I P Q S) (hI : I s') (hP : P s' T')
    (hothers : ∀ {j : ℕ} {U}, j ≠ i → S.threads[j]? = some U → P s' U ∧ Q T' U ∧ Q U T') :
    Keeps I P Q ⟨s', S.threads.set i T'⟩ where
  shared := hI
  each {j U} hU := by
    rw [List.getElem?_set] at hU
    split_ifs at hU with hj hlt
    · cases hU
      exact hP
    · exact (hothers (Ne.symm hj) hU).1
  pairs {j k U V} hjk hU hV := by
    rw [List.getElem?_set] at hU hV
    split_ifs at hU hV with hj hj' hk hk' hk'
    · exact absurd (hj.symm.trans hk) hjk
    · cases hU
      exact (hothers (Ne.symm hk) hV).2.1
    · cases hV
      exact (hothers (Ne.symm hj) hU).2.2
    · exact h.pairs hjk hU hV

/-- The rule for runs. A step is shown to keep what holds of the thread that takes it, and what
holds of another one that stands in the relation `G` to it. -/
theorem keeps_of_reaches (run : Reaches (step init act) (Meets G) S S') (h : Keeps I P Q S)
    (hsymm : ∀ {T U}, Q T U → Q U T)
    (hstart : ∀ {s} call, I s → P s (init call) ∧ ∀ U, Q (init call) U)
    (hact : ∀ {s T s' T'}, I s → P s T → act s T = .ok (s', T') → I s' ∧ P s' T' ∧
      ∀ {U}, P s U → Q T U → G T U → P s' U ∧ Q T' U) : Keeps I P Q S' := by
  apply run.invariant h
  rintro S (call | i) S' hS hG hs
  · obtain rfl := Except.ok.inj hs
    obtain ⟨hP, hQ⟩ := hstart call hS.shared
    exact hS.start hP fun U => ⟨hQ U, hsymm (hQ U)⟩
  · rw [step] at hs
    cases hT : S.threads[i]? with
    | none =>
      rw [hT] at hs
      obtain rfl := Except.ok.inj hs
      exact hS
    | some T =>
      rw [hT] at hs
      obtain ⟨⟨s', T'⟩, hsT, heq⟩ := bind_eq_ok.mp hs
      obtain rfl := Except.ok.inj heq
      obtain ⟨hI, hP, hothers⟩ := hact hS.shared (hS.each hT) hsT
      refine hS.set hI hP fun {j U} hj hU => ?_
      have hGU := hG T hT j (List.getElem?_eq_some_iff.mp hU).1 hj U hU
      obtain ⟨hPU, hQU⟩ := hothers (hS.each hU) (hS.pairs hj.symm hT hU) hGU
      exact ⟨hPU, hQU, hsymm hQU⟩

end Interleaved

/-- `n` steps of one thread. -/
def actAlone (act : σ → τ → Except ε (σ × τ)) : ℕ → σ → τ → Except ε (σ × τ)
  | 0, s, T => .ok (s, T)
  | n + 1, s, T => do
    let (s, T) ← act s T
    actAlone act n s T

/-- One thread gets from one state to the other. -/
def RunsTo (act : σ → τ → Except ε (σ × τ)) (s : σ) (T : τ) (s' : σ) (T' : τ) : Prop :=
  ∃ n, actAlone act n s T = .ok (s', T')

theorem RunsTo.refl (s : σ) (T : τ) : RunsTo act s T s T := ⟨0, rfl⟩

theorem RunsTo.head (h : act s T = .ok (s', T')) (hrest : RunsTo act s' T' s'' T'') :
    RunsTo act s T s'' T'' := by
  obtain ⟨n, hn⟩ := hrest
  refine ⟨n + 1, ?_⟩
  rw [actAlone, h]
  exact hn

theorem RunsTo.trans (h : RunsTo act s T s' T') (h' : RunsTo act s' T' s'' T'') :
    RunsTo act s T s'' T'' := by
  obtain ⟨n, hn⟩ := h
  induction n generalizing s T with
  | zero =>
    cases hn
    exact h'
  | succ n ih =>
    obtain ⟨⟨s₁, T₁⟩, hs, hrest⟩ := bind_eq_ok.mp hn
    exact .head hs (ih hrest)

/-- While the other threads wait. -/
theorem RunsTo.reaches {S : Interleaved σ τ} {i : ℕ} (h : RunsTo act S.shared T s' T')
    (hT : S.threads[i]? = some T) :
    Reaches (Interleaved.step init act) (fun _ _ => True) S ⟨s', S.threads.set i T'⟩ := by
  obtain ⟨n, hn⟩ := h
  induction n generalizing S T with
  | zero =>
    cases hn
    obtain ⟨hi, rfl⟩ := List.getElem?_eq_some_iff.mp hT
    rw [List.set_getElem_self]
    exact .refl S
  | succ n ih =>
    obtain ⟨⟨s₁, T₁⟩, hs, hrest⟩ := bind_eq_ok.mp hn
    have hstep : Interleaved.step init act S (.act i) = .ok ⟨s₁, S.threads.set i T₁⟩ := by
      simp only [Interleaved.step, hT, hs, ok_bind]
    obtain ⟨hi, -⟩ := List.getElem?_eq_some_iff.mp hT
    have hrun := ih (S := ⟨s₁, S.threads.set i T₁⟩) (List.getElem?_set_self hi) hrest
    rw [List.set_set] at hrun
    exact .head trivial hstep hrun

end TagFilesystem
