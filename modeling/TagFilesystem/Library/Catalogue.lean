import Mathlib.Tactic.Tauto

namespace TagFilesystem

universe u v

structure Catalogue (ν : Type u) (κ : Type v) where
  carries : ν → κ → Prop
  used : κ → Prop

namespace Catalogue

variable {ν : Type u} {κ : Type v} {C C' : Catalogue ν κ} {n m : ν} {ks ks' : List κ} {k : κ}

def Has (C : Catalogue ν κ) (n : ν) (ks : List κ) : Prop := ∀ k ∈ ks, C.carries n k

/-- The tags to go on with: from nothing selected those in use, otherwise the other tags of what is
selected. -/
def Shows (C : Catalogue ν κ) (ks : List κ) (k : κ) : Prop :=
  if ks = [] then C.used k else k ∉ ks ∧ ∃ n, C.Has n ks ∧ C.carries n k

/-- Nothing is in use. -/
def empty : Catalogue ν κ := ⟨fun _ _ => False, fun _ => False⟩

/-- `k` is put in use. -/
def use (C : Catalogue ν κ) (k : κ) : Catalogue ν κ := ⟨C.carries, fun k' => C.used k' ∨ k' = k⟩

/-- `n` gets the tags `ks`. -/
def tag (C : Catalogue ν κ) (n : ν) (ks : List κ) : Catalogue ν κ where
  carries m k := C.carries m k ∨ m = n ∧ k ∈ ks
  used k := C.used k ∨ k ∈ ks

/-- `n` loses the tags `ks`. -/
def untag (C : Catalogue ν κ) (n : ν) (ks : List κ) : Catalogue ν κ where
  carries m k := C.carries m k ∧ ¬(m = n ∧ k ∈ ks)
  used k := C.used k ∧ (k ∈ ks → ∃ m, C.carries m k ∧ ¬(m = n ∧ k ∈ ks))

/-- `n` loses the tags `ks`, which stay in use. -/
def strip (C : Catalogue ν κ) (n : ν) (ks : List κ) : Catalogue ν κ where
  carries m k := C.carries m k ∧ ¬(m = n ∧ k ∈ ks)
  used := C.used

/-- `k` is taken from all things and out of use. -/
def drop (C : Catalogue ν κ) (k : κ) : Catalogue ν κ where
  carries m k' := C.carries m k' ∧ k' ≠ k
  used k' := C.used k' ∧ k' ≠ k

theorem ext_iff_forall : C = C' ↔
    (∀ n k, C.carries n k ↔ C'.carries n k) ∧ ∀ k, C.used k ↔ C'.used k := by
  constructor
  · rintro rfl
    exact ⟨fun _ _ => Iff.rfl, fun _ => Iff.rfl⟩
  · intro h
    cases C with
    | mk carries used =>
      cases C' with
      | mk carries' used' =>
        congr
        · funext n k
          exact propext (h.1 n k)
        · funext k
          exact propext (h.2 k)

@[simp] theorem tag_nil : C.tag n [] = C := by
  apply ext_iff_forall.mpr
  simp [tag]

theorem use_tag : (C.use k).tag n [k] = C.tag n [k] := by
  apply ext_iff_forall.mpr
  simp only [tag, use, List.mem_singleton]
  exact ⟨fun _ _ => trivial, fun k => by tauto⟩

theorem use_of_used (h : C.used k) : C.use k = C := by
  apply ext_iff_forall.mpr
  refine ⟨fun m k => Iff.rfl, fun k' => ⟨?_, .inl⟩⟩
  rintro (hk | rfl)
  · exact hk
  · exact h

@[simp] theorem strip_nil : C.strip n [] = C := by
  apply ext_iff_forall.mpr
  simp [strip]

theorem tag_tag : (C.tag n ks).tag n ks' = C.tag n (ks ++ ks') := by
  apply ext_iff_forall.mpr
  simp only [tag, List.mem_append]
  exact ⟨fun m k => by tauto, fun k => by tauto⟩

theorem strip_strip : (C.strip n ks).strip n ks' = C.strip n (ks ++ ks') := by
  apply ext_iff_forall.mpr
  simp only [strip, List.mem_append]
  exact ⟨fun m k => by tauto, fun _ => trivial⟩

theorem carries_foldl_tag {bs : List (ν × List κ)} :
    (bs.foldl (fun C b => C.tag b.1 b.2) C).carries n k ↔
      C.carries n k ∨ ∃ b ∈ bs, b.1 = n ∧ k ∈ b.2 := by
  induction bs generalizing C with
  | nil => simp
  | cons b bs ih =>
    rw [List.foldl_cons, ih]
    simp only [tag, List.mem_cons, or_and_right, exists_or, exists_eq_left, or_assoc, eq_comm (a := b.1)]

theorem used_foldl_tag {bs : List (ν × List κ)} :
    (bs.foldl (fun C b => C.tag b.1 b.2) C).used k ↔ C.used k ∨ ∃ b ∈ bs, k ∈ b.2 := by
  induction bs generalizing C with
  | nil => simp
  | cons b bs ih =>
    rw [List.foldl_cons, ih]
    simp only [tag, List.mem_cons, or_and_right, exists_or, exists_eq_left, or_assoc]

theorem strip_of_none (h : ∀ k, ¬ C.carries n k) : C.strip n ks = C := by
  apply ext_iff_forall.mpr
  refine ⟨fun m k => ⟨fun hm => hm.1, fun hm => ⟨hm, ?_⟩⟩, fun k => Iff.rfl⟩
  rintro ⟨rfl, -⟩
  exact h k hm

end Catalogue

end TagFilesystem
