import Mathlib.Data.List.Basic

/-!
# Outcomes of C++ calls

A call on an object either returns, throws an exception, or runs into undefined behaviour.  The object's state
is threaded through, and a call that throws leaves the state it had reached.  `Op σ α` is that monad; the two
`bind` rules below are how proofs walk through a sequence of calls.
-/

namespace AcidCompute

/-- The exceptions of the standard library that the modelled code can raise. -/
inductive Exception
  | outOfRange
  | lengthError
  | badAlloc
  deriving DecidableEq, Repr

/-- The kinds of undefined behaviour that the modelled code can run into. -/
inductive Undefined
  | nullDeref
  | outOfBlock
  | danglingIterator
  | noReturn
  deriving DecidableEq, Repr

/-- The ways in which a call can end without returning. -/
inductive Fault
  | throws (e : Exception)
  | undefined (u : Undefined)
  deriving DecidableEq, Repr

/-- A call on an object with state `σ` that returns an `α`. -/
abbrev Op (σ α : Type) := EStateM Fault σ α

/-- Both parts of a sequence that returns have returned. -/
theorem ok_of_bind_ok {ε α β : Type} {x : Except ε α} {f : α → Except ε β} {b : β} (h : (x >>= f) = .ok b) :
    ∃ a, x = .ok a ∧ f a = .ok b := by
  cases x with
  | error e => cases h
  | ok a => exact ⟨a, rfl, h⟩

namespace Op

variable {σ α β : Type}

/-- A step that can only run into undefined behaviour. -/
def liftUndefined (x : Except Undefined α) : Op σ α := fun s =>
  match x with
  | .ok a => .ok a s
  | .error u => .error (.undefined u) s

/-- Run a call on a local object and hand back the object. -/
def exec (m : Op σ α) (s : σ) : Except Fault (α × σ) :=
  match m s with
  | .ok a s' => .ok (a, s')
  | .error e _ => .error e

/-- The object after a call, whether the call returned or threw. -/
def after (m : Op σ α) (s : σ) : σ :=
  match m s with
  | .ok _ s' => s'
  | .error _ s' => s'

theorem bind_of_ok {m : Op σ α} {f : α → Op σ β} {s s' : σ} {a : α} (h : m s = .ok a s') :
    (m >>= f) s = f a s' := by
  show EStateM.bind m f s = _
  simp [EStateM.bind, h]

theorem bind_of_error {m : Op σ α} {f : α → Op σ β} {s s' : σ} {e : Fault} (h : m s = .error e s') :
    (m >>= f) s = .error e s' := by
  show EStateM.bind m f s = _
  simp [EStateM.bind, h]

/-- A sequence returns just if its parts do. -/
theorem bind_eq_ok {m : Op σ α} {f : α → Op σ β} {s s' : σ} {c : β} :
    (m >>= f) s = .ok c s' ↔ ∃ a s₁, m s = .ok a s₁ ∧ f a s₁ = .ok c s' := by
  cases hm : m s with
  | error e s₁ =>
    rw [bind_of_error hm]
    refine iff_of_false (fun h => by cases h) ?_
    rintro ⟨a, s₂, h, -⟩
    cases h
  | ok a s₁ =>
    rw [bind_of_ok hm]
    refine ⟨fun h => ⟨a, s₁, rfl, h⟩, ?_⟩
    rintro ⟨a', s₂, h, hf⟩
    cases h
    exact hf

@[simp] theorem pure_apply (a : α) (s : σ) : (pure a : Op σ α) s = .ok a s := rfl

@[simp] theorem get_bind_apply (f : σ → Op σ α) (s : σ) : ((get : Op σ σ) >>= f) s = f s s := rfl

@[simp] theorem set_apply (s s' : σ) : (set s' : Op σ PUnit) s = .ok ⟨⟩ s' := rfl

@[simp] theorem set_bind_apply (s s' : σ) (f : PUnit → Op σ α) :
    ((set s' : Op σ PUnit) >>= f) s = f ⟨⟩ s' := rfl

@[simp] theorem throw_apply (e : Fault) (s : σ) : (throw e : Op σ α) s = .error e s := rfl

@[simp] theorem throw_bind_apply (e : Fault) (f : α → Op σ β) (s : σ) :
    ((throw e : Op σ α) >>= f) s = .error e s := rfl

@[simp] theorem liftUndefined_ok (a : α) (s : σ) : (liftUndefined (.ok a) : Op σ α) s = .ok a s := rfl

@[simp] theorem liftUndefined_error (u : Undefined) (s : σ) :
    (liftUndefined (.error u) : Op σ α) s = .error (.undefined u) s := rfl

theorem liftUndefined_eq_ok {x : Except Undefined α} {s s' : σ} {a : α} :
    (liftUndefined x : Op σ α) s = .ok a s' ↔ x = .ok a ∧ s = s' := by
  cases x with
  | error u => exact iff_of_false (fun h => by cases h) fun h => by cases h.1
  | ok a' =>
    rw [liftUndefined_ok, EStateM.Result.ok.injEq, Except.ok.injEq]

theorem exec_of_ok {m : Op σ α} {s s' : σ} {a : α} (h : m s = .ok a s') : m.exec s = .ok (a, s') := by
  simp [exec, h]

theorem exec_of_error {m : Op σ α} {s s' : σ} {e : Fault} (h : m s = .error e s') :
    m.exec s = .error e := by
  simp [exec, h]

theorem after_get_bind (f : σ → Op σ α) (s : σ) : ((get : Op σ σ) >>= f).after s = (f s).after s := rfl

theorem after_set_bind (s s' : σ) (f : PUnit → Op σ α) : ((set s' : Op σ PUnit) >>= f).after s = (f ⟨⟩).after s' := rfl

/-- What every step keeps of the object, a sequence keeps. -/
theorem after_bind_keeps {K : σ → σ → Prop} (htrans : ∀ s₁ s₂ s₃, K s₁ s₂ → K s₂ s₃ → K s₁ s₃) {m : Op σ α}
    {f : α → Op σ β} {s : σ} (hm : K s (m.after s)) (hf : ∀ a s', K s' ((f a).after s')) : K s ((m >>= f).after s) := by
  unfold after at hm
  cases hresult : m s with
  | ok a s' =>
    rw [hresult] at hm
    have hbind : (m >>= f).after s = (f a).after s' := by
      unfold after
      rw [bind_of_ok hresult]
    rw [hbind]
    exact htrans _ _ _ hm (hf a s')
  | error e s' =>
    rw [hresult] at hm
    have hbind : (m >>= f).after s = s' := by
      unfold after
      rw [bind_of_error hresult]
    rwa [hbind]

theorem exec_bind_of_ok {m : Op σ α} {f : α → Op σ β} {s s' : σ} {a : α} (h : m s = .ok a s') :
    (m >>= f).exec s = (f a).exec s' := by
  unfold exec
  rw [bind_of_ok h]

end Op

end AcidCompute
