import Mathlib.Data.List.Nodup
import Mathlib.Data.List.Pairwise

/-!
# Bindings in a history

Each call of a history may bind a key to a value, or remove what the key is bound to.  A binding is live if no later
call is about its key (`Live`).  A table that keeps the live bindings in the order of the calls that have made them is a
list that each call changes at its key and at its end (`Listed`).
-/

namespace AcidCompute

namespace History

variable {Call K V : Type} (about : Call → Option (K × Option V))

/-- The call at `i` binds the key, and no later one is about it. -/
structure Live (calls : List Call) (i : Nat) (key : K) (v : V) : Prop where
  binds : calls[i]?.bind about = some (key, some v)
  last : ∀ j, i < j → ∀ w, calls[j]?.bind about ≠ some (key, w)

variable {about} {calls : List Call} {call : Call} {i j : Nat} {key : K} {v v' : V}

theorem Live.lt (h : Live about calls i key v) : i < calls.length := by
  by_contra hge
  have hbinds := h.binds
  rw [List.getElem?_eq_none (Nat.le_of_not_lt hge)] at hbinds
  cases hbinds

theorem Live.unique (h : Live about calls i key v) (h' : Live about calls j key v') : i = j ∧ v = v' := by
  have hij : i = j := by
    rcases Nat.lt_trichotomy i j with hlt | heq | hgt
    · exact absurd h'.binds (h.last j hlt _)
    · exact heq
    · exact absurd h.binds (h'.last i hgt _)
  subst hij
  have hbinds := h.binds.symm.trans h'.binds
  simp only [Option.some.injEq, Prod.mk.injEq, true_and] at hbinds
  exact ⟨rfl, hbinds⟩

theorem not_live_nil : ¬ Live about [] i key v := fun h => Nat.not_lt_zero i h.lt

/-- A call makes a binding of its own, and leaves those of other keys. -/
theorem live_concat : Live about (calls ++ [call]) i key v ↔
    i = calls.length ∧ about call = some (key, some v) ∨
      Live about calls i key v ∧ ∀ w, about call ≠ some (key, w) := by
  have hlast : (calls ++ [call])[calls.length]? = some call := by simp
  constructor
  · intro h
    have hlt : i < calls.length + 1 := by simpa using h.lt
    rcases Nat.lt_succ_iff_lt_or_eq.1 hlt with hold | hnew
    · refine .inr ⟨⟨?_, fun j hj w => ?_⟩, fun w => ?_⟩
      · rw [← h.binds, List.getElem?_append_left hold]
      · by_cases hjlt : j < calls.length
        · have hother := h.last j hj w
          rwa [List.getElem?_append_left hjlt] at hother
        · rw [List.getElem?_eq_none (Nat.le_of_not_lt hjlt)]
          simp
      · have hother := h.last calls.length hold w
        rwa [hlast] at hother
    · subst hnew
      have hbinds := h.binds
      rw [hlast] at hbinds
      exact .inl ⟨rfl, hbinds⟩
  · rintro (⟨rfl, hcall⟩ | ⟨h, hcall⟩)
    · refine ⟨by rw [hlast]; exact hcall, fun j hj w => ?_⟩
      rw [List.getElem?_eq_none (by rw [List.length_append, List.length_singleton]; omega)]
      simp
    · refine ⟨by rw [List.getElem?_append_left h.lt]; exact h.binds, fun j hj w => ?_⟩
      rcases Nat.lt_trichotomy j calls.length with hlt | rfl | hgt
      · rw [List.getElem?_append_left hlt]
        exact h.last j hj w
      · rw [hlast]
        exact hcall w
      · rw [List.getElem?_eq_none (by rw [List.length_append, List.length_singleton]; omega)]
        simp

/-! ### Tables in the order of their bindings -/

/-- The bindings of a table, with the calls that have made them. -/
structure Listed (about : Call → Option (K × Option V)) (calls : List Call) (table : List (Nat × K × V)) : Prop where
  sorted : table.Pairwise fun a b => a.1 < b.1
  complete : ∀ i key v, (i, key, v) ∈ table ↔ Live about calls i key v

variable {table : List (Nat × K × V)}

theorem Listed.nil : Listed about [] [] := ⟨List.Pairwise.nil, fun i key v => by simp [not_live_nil]⟩

/-- A key is bound once. -/
theorem Listed.keys_nodup (h : Listed about calls table) : (table.map fun b => b.2.1).Nodup := by
  rw [List.Nodup, List.pairwise_map]
  refine List.Pairwise.imp_of_mem ?_ h.sorted
  rintro ⟨i, key, v⟩ ⟨j, key', v'⟩ hi hj hlt rfl
  have heq := (((h.complete _ _ _).1 hi).unique ((h.complete _ _ _).1 hj)).1
  exact absurd hlt (heq ▸ Nat.lt_irrefl i)

theorem Listed.other (h : Listed about calls table) (hcall : about call = none) :
    Listed about (calls ++ [call]) table := by
  refine ⟨h.sorted, fun i key v => ?_⟩
  rw [live_concat, h.complete]
  simp [hcall]

variable [DecidableEq K]

theorem Listed.remove (h : Listed about calls table) (hcall : about call = some (key, none)) :
    Listed about (calls ++ [call]) (table.filter fun b => b.2.1 ≠ key) := by
  refine ⟨h.sorted.filter _, fun i key' v => ?_⟩
  rw [live_concat, List.mem_filter, h.complete, decide_eq_true_eq, hcall]
  constructor
  · rintro ⟨hlive, hne⟩
    refine .inr ⟨hlive, fun w hw => hne ?_⟩
    cases hw
    rfl
  · rintro (⟨-, hbinds⟩ | ⟨hlive, hne⟩)
    · cases hbinds
    · exact ⟨hlive, fun heq => hne none (heq ▸ rfl)⟩

theorem Listed.bind (h : Listed about calls table) (hcall : about call = some (key, some v)) :
    Listed about (calls ++ [call]) ((table.filter fun b => b.2.1 ≠ key) ++ [(calls.length, key, v)]) := by
  constructor
  · rw [List.pairwise_append]
    refine ⟨h.sorted.filter _, List.pairwise_singleton _ _, ?_⟩
    rintro ⟨i, key', v'⟩ hmem b hb
    rw [List.mem_singleton.1 hb]
    exact ((h.complete _ _ _).1 (List.mem_filter.1 hmem).1).lt
  · intro i key' v'
    rw [live_concat, List.mem_append, List.mem_filter, h.complete, List.mem_singleton]
    rw [decide_eq_true_eq, hcall]
    constructor
    · rintro (⟨hlive, hne⟩ | hnew)
      · refine .inr ⟨hlive, fun w hw => hne ?_⟩
        cases hw
        rfl
      · cases hnew
        exact .inl ⟨rfl, rfl⟩
    · rintro (⟨rfl, hbinds⟩ | ⟨hlive, hne⟩)
      · cases hbinds
        exact .inr rfl
      · exact .inl ⟨hlive, fun heq => hne (some v) (heq ▸ rfl)⟩

omit [DecidableEq K] in
/-- The first binding that is searched for is the earliest. -/
theorem Listed.find? (h : Listed about calls table) (p : K → Bool) :
    (∀ b, table.find? (fun b => p b.2.1) = some b → Live about calls b.1 b.2.1 b.2.2 ∧ p b.2.1 = true ∧
      ∀ j key v, Live about calls j key v → p key = true → b.1 ≤ j) ∧
    (table.find? (fun b => p b.2.1) = none → ∀ j key v, Live about calls j key v → p key ≠ true) := by
  constructor
  · intro b hfind
    refine ⟨(h.complete _ _ _).1 (List.mem_of_find?_eq_some hfind),
      List.find?_some (p := fun b : Nat × K × V => p b.2.1) hfind, fun j key v hlive hp => ?_⟩
    obtain ⟨-, front, back, htable, hfront⟩ := List.find?_eq_some_iff_append.1 hfind
    have hsorted := h.sorted
    rw [htable, List.pairwise_append, List.pairwise_cons] at hsorted
    have hmem : (j, key, v) ∈ table := (h.complete _ _ _).2 hlive
    rw [htable, List.mem_append, List.mem_cons] at hmem
    rcases hmem with hbefore | hsame | hbehind
    · have hnot := hfront _ hbefore
      simp [hp] at hnot
    · exact Nat.le_of_eq (congrArg Prod.fst hsame).symm
    · exact Nat.le_of_lt (hsorted.2.1.1 _ hbehind)
  · intro hfind j key v hlive hp
    rw [List.find?_eq_none] at hfind
    exact hfind _ ((h.complete _ _ _).2 hlive) hp

end History

end AcidCompute
