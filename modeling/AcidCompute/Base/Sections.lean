import Mathlib.Logic.Relation

/-!
# Sections on a shared state

A request uses a state that it shares with others in a section of several accesses, between which it has a state of its
own.  As long as the sections do not overlap, what they do is what the requests do one after another, in the order in
which their sections end (`Sequential.concat`).
-/

namespace AcidCompute

/-- What is done in a section: how it begins, its accesses up to the last one, and what comes of it. -/
structure Section (σ ρ α β : Type) where
  enter : α → ρ
  access : σ → ρ → Option (σ × ρ)
  leave : α → ρ → β

namespace Section

variable {σ ρ α β : Type} (S : Section σ ρ α β)

/-- Some accesses one after another. -/
def Accesses : σ × ρ → σ × ρ → Prop := Relation.ReflTransGen fun a b => S.access a.1 a.2 = some b

/-- A whole section. -/
def Does (shared : σ) (x : α × β) (shared' : σ) : Prop :=
  ∃ r, S.Accesses (shared, S.enter x.1) (shared', r) ∧ S.access shared' r = none ∧ S.leave x.1 r = x.2

/-- Whole sections one after another, with what comes of each. -/
inductive Sequential : σ → List (α × β) → σ → Prop
  | nil (shared : σ) : Sequential shared [] shared
  | cons {shared shared₁ shared' : σ} {x : α × β} {xs : List (α × β)} (hx : S.Does shared x shared₁)
    (h : Sequential shared₁ xs shared') : Sequential shared (x :: xs) shared'

variable {S} {shared shared' shared'' : σ} {r : ρ} {x : α × β} {xs : List (α × β)}

/-- A section has only one way to go. -/
theorem Does.unique {a : α} {b b' : β} (h : S.Does shared (a, b) shared') (h' : S.Does shared (a, b') shared'') :
    b' = b ∧ shared'' = shared' := by
  obtain ⟨r, hrun, hend, hleave⟩ := h
  obtain ⟨r', hrun', hend', hleave'⟩ := h'
  have hsame : (shared', r) = (shared'', r') := by
    rcases Relation.ReflTransGen.total_of_right_unique (fun a b c hb hc => Option.some.inj (hb.symm.trans hc)) hrun
      hrun' with hto | hto
    · rcases Relation.ReflTransGen.cases_head hto with heq | ⟨b, hb, -⟩
      · exact heq
      · rw [hend] at hb
        cases hb
    · rcases Relation.ReflTransGen.cases_head hto with heq | ⟨b, hb, -⟩
      · exact heq.symm
      · rw [hend'] at hb
        cases hb
  obtain ⟨rfl, rfl⟩ := Prod.mk.inj hsame
  exact ⟨hleave'.symm.trans hleave, rfl⟩

/-- The requests decide what comes of them. -/
theorem Sequential.unique (h : S.Sequential shared xs shared') {ys : List (α × β)}
    (h' : S.Sequential shared ys shared'') (hsame : ys.map Prod.fst = xs.map Prod.fst) :
    ys = xs ∧ shared'' = shared' := by
  induction h generalizing ys with
  | nil =>
    obtain rfl := List.map_eq_nil_iff.1 hsame
    cases h'
    exact ⟨rfl, rfl⟩
  | @cons _ _ _ x xs hx _ ih =>
    cases h' with
    | nil => cases hsame
    | @cons _ _ _ y ys hy hys =>
      rw [List.map_cons, List.map_cons, List.cons.injEq] at hsame
      obtain ⟨a, b⟩ := x
      obtain ⟨a', b'⟩ := y
      obtain rfl : a' = a := hsame.1
      obtain ⟨rfl, rfl⟩ := hx.unique hy
      obtain ⟨rfl, rfl⟩ := ih hys hsame.2
      exact ⟨rfl, rfl⟩

theorem Sequential.concat (h : S.Sequential shared xs shared') (hx : S.Does shared' x shared'') :
    S.Sequential shared (xs ++ [x]) shared'' := by
  induction h with
  | nil shared => exact .cons hx (.nil shared'')
  | cons hfirst _ ih => exact .cons hfirst (ih hx)

theorem Sequential.does_of_mem (h : S.Sequential shared xs shared') (hx : x ∈ xs) :
    ∃ before after, S.Does before x after := by
  induction h with
  | nil => cases hx
  | cons hfirst _ ih =>
    rcases List.mem_cons.1 hx with rfl | hrest
    · exact ⟨_, _, hfirst⟩
    · exact ih hrest

end Section

end AcidCompute
