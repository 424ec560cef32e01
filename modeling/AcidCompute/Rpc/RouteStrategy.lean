import AcidCompute.Base.Outcome
import Mathlib.Algebra.Group.Nat.Defs
import Mathlib.Data.List.Rotate

/-!
# The polling route strategy (`PollingRouteStrategyImpl` in `acid/rpc/route_strategy.h`)

`select` has one cursor for all lists that it is called with.  It starts anew behind the end of a list, whatever list
has been used before, so that the next calls go round the list from where the cursor is (`turns_replicate`).
-/

namespace AcidCompute

/-! ### Going round -/

/-- Where a cursor stands in a list of `n` elements. -/
def turn (k n : Nat) : Nat := if k < n then k else 0

/-- The places of a cursor in lists of these lengths, one after the other. -/
def turns : Nat → List Nat → List Nat
  | _, [] => []
  | k, n :: ns => turn k n :: turns (turn k n + 1) ns

/-- The cursor after lists of these lengths. -/
def lastTurn (k : Nat) (ns : List Nat) : Nat := ns.foldl (fun k n => turn k n + 1) k

theorem turn_lt {n : Nat} (hn : 0 < n) (k : Nat) : turn k n < n := by
  unfold turn
  split <;> assumption

/-- The next place in the same list. -/
theorem turn_turn {n : Nat} (hn : 0 < n) (k : Nat) : turn (turn k n + 1) n = (turn k n + 1) % n := by
  have hlt := turn_lt hn k
  rw [turn]
  split
  · rename_i hnext
    exact (Nat.mod_eq_of_lt hnext).symm
  · rename_i hend
    have hlast : turn k n + 1 = n := by omega
    rw [hlast, Nat.mod_self]

theorem length_turns (k : Nat) (ns : List Nat) : (turns k ns).length = ns.length := by
  induction ns generalizing k with
  | nil => rfl
  | cons n ns ih => rw [turns, List.length_cons, ih, List.length_cons]

theorem turns_append (k : Nat) (ns ns' : List Nat) : turns k (ns ++ ns') = turns k ns ++ turns (lastTurn k ns) ns' := by
  induction ns generalizing k with
  | nil => rfl
  | cons n ns ih =>
    rw [List.cons_append, turns, turns, ih, List.cons_append]
    rfl

theorem turns_lt {ns : List Nat} (hns : ∀ n ∈ ns, 0 < n) (k : Nat) :
    List.Forall₂ (fun n i => i < n) ns (turns k ns) := by
  induction ns generalizing k with
  | nil => exact .nil
  | cons n ns ih =>
    rw [List.forall_mem_cons] at hns
    exact .cons (turn_lt hns.1 k) (ih hns.2 _)

private theorem turns_replicate_eq {n : Nat} (hn : 0 < n) (k m : Nat) :
    turns k (List.replicate m n) = (List.range m).map fun j => (turn k n + j) % n := by
  induction m generalizing k with
  | zero => rfl
  | succ m ih =>
    have hfirst : (turn k n + 0) % n = turn k n := Nat.mod_eq_of_lt (turn_lt hn k)
    rw [List.replicate_succ, turns, ih, turn_turn hn, List.range_succ_eq_map, List.map_cons, List.map_map, hfirst]
    congr 1
    apply List.map_congr_left
    intro j _
    rw [Nat.mod_add_mod, Function.comp_apply, Nat.add_assoc, Nat.add_comm 1 j]

/-- A cursor that stays in one list for a round comes to each place once. -/
theorem turns_replicate {n : Nat} (hn : 0 < n) (k : Nat) : (turns k (List.replicate n n)).Perm (List.range n) := by
  have hrotate : turns k (List.replicate n n) = (List.range n).rotate (turn k n) := by
    rw [turns_replicate_eq hn]
    apply List.ext_getElem
    · simp
    · intro j hj hj'
      rw [List.getElem_rotate, List.getElem_map, List.getElem_range, List.getElem_range, List.length_range,
        Nat.add_comm j]
  rw [hrotate]
  exact List.rotate_perm _ _

/-! ### The strategy -/

/-- `static_cast<int>` of a `size_t` -/
def staticCastInt (n : Nat) : Int := (BitVec.ofNat 32 n).toInt

/-- A `PollingRouteStrategyImpl<T>`, whose calls come one after the other by its mutex. -/
structure PollingRouteStrategyImpl where
  index : Int

namespace PollingRouteStrategyImpl

def new : PollingRouteStrategyImpl := ⟨0⟩

variable {T : Type}

/-- `select`; a reference to an element is its place in the list. -/
def select (list : List T) : Op PollingRouteStrategyImpl (Fin list.length) := do
  let s ← get
  let index := if s.index ≥ staticCastInt list.length then 0 else s.index
  -- never more than the largest `int`, since the list is longer than the index or the index is 0
  set (⟨index + 1⟩ : PollingRouteStrategyImpl)
  -- `at` takes the index as a `size_t`
  let place := (BitVec.ofInt 64 index).toNat
  if h : place < list.length then pure ⟨place, h⟩ else throw (.throws .outOfRange)

/-- The places that calls with these lists return. -/
def selects (lists : List (List T)) : Op PollingRouteStrategyImpl (List Nat) :=
  lists.mapM fun list => do
    let i ← select list
    pure i.val

theorem staticCastInt_of_lt {n : Nat} (h : n < 2 ^ 31) : staticCastInt n = n := by
  have htoNat : (BitVec.ofNat 32 n).toNat = n := by
    rw [BitVec.toNat_ofNat]
    omega
  rw [staticCastInt, BitVec.toInt_eq_toNat_of_lt (by rw [htoNat]; omega), htoNat]

/-- A call takes the element at the cursor, which moves on. -/
theorem select_eq {list : List T} (hne : list ≠ []) (hint : list.length < 2 ^ 31) (k : Nat) :
    select list ⟨k⟩ =
      .ok ⟨turn k list.length, turn_lt (List.length_pos_iff.2 hne) k⟩ ⟨(turn k list.length + 1 : Nat)⟩ := by
  have hlt := turn_lt (List.length_pos_iff.2 hne) k
  have hindex : (if (k : Int) ≥ staticCastInt list.length then 0 else (k : Int)) = (turn k list.length : Int) := by
    rw [staticCastInt_of_lt hint, turn]
    split <;> split <;> omega
  have hat : (BitVec.ofInt 64 (turn k list.length : Int)).toNat = turn k list.length := by
    rw [BitVec.ofInt_natCast, BitVec.toNat_ofNat]
    omega
  unfold select
  simp only [Op.get_bind_apply, Op.set_bind_apply, hindex, hat, dif_pos hlt]
  rfl

theorem selects_eq {lists : List (List T)} (hne : ∀ list ∈ lists, list ≠ [])
    (hint : ∀ list ∈ lists, list.length < 2 ^ 31) (k : Nat) :
    selects lists ⟨k⟩ = .ok (turns k (lists.map List.length)) ⟨(lastTurn k (lists.map List.length) : Nat)⟩ := by
  induction lists generalizing k with
  | nil => rfl
  | cons list lists ih =>
    rw [List.forall_mem_cons] at hne hint
    have hfirst : (do let i ← select list; pure i.val : Op PollingRouteStrategyImpl Nat) ⟨k⟩ =
        .ok (turn k list.length) ⟨(turn k list.length + 1 : Nat)⟩ := by
      rw [Op.bind_of_ok (select_eq hne.1 hint.1 k)]
      rfl
    have hrest := ih hne.2 hint.2 (turn k list.length + 1)
    rw [selects, List.mapM_cons, Op.bind_of_ok hfirst]
    rw [selects] at hrest
    rw [Op.bind_of_ok hrest]
    rfl

/-- Whatever lists have come before, no call throws, and calls with one list go through all its elements. -/
theorem exists_selects {lists : List (List T)} (hne : ∀ list ∈ lists, list ≠ [])
    (hint : ∀ list ∈ lists, list.length < 2 ^ 31) :
    ∃ places s, selects lists new = .ok places s ∧ List.Forall₂ (fun list i => i < list.length) lists places ∧
      ∀ front list back, lists = front ++ List.replicate list.length list ++ back →
        ((places.drop front.length).take list.length).Perm (List.range list.length) := by
  refine ⟨_, _, selects_eq hne hint 0, ?_, ?_⟩
  · have hpos : ∀ n ∈ lists.map List.length, 0 < n := by
      intro n hn
      obtain ⟨list, hmem, rfl⟩ := List.mem_map.1 hn
      exact List.length_pos_iff.2 (hne list hmem)
    exact List.forall₂_map_left_iff.1 (turns_lt hpos 0)
  · rintro front list back rfl
    have hfront : (turns 0 (front.map List.length)).length = front.length := by
      rw [length_turns, List.length_map]
    rw [List.append_assoc, List.map_append, turns_append, List.drop_left' hfront, List.map_append, List.map_replicate,
      turns_append, List.take_left' (by rw [length_turns, List.length_replicate])]
    rcases Nat.eq_zero_or_pos list.length with hnil | hpos
    · rw [hnil]
      exact .nil
    · exact turns_replicate hpos _

/-- A list grows, is gone round, and shrinks. -/
theorem exists_selects_growing : ∃ places s,
    selects [[1, 2], [1, 2, 3], [1, 2, 3], [1, 2, 3], [4]] new = .ok places s ∧
      ((places.drop 1).take 3).Perm (List.range 3) := by
  obtain ⟨places, s, hselects, -, hround⟩ :=
    exists_selects (show ∀ list ∈ [[1, 2], [1, 2, 3], [1, 2, 3], [1, 2, 3], [4]], list ≠ [] by decide) (by decide)
  exact ⟨places, s, hselects, hround [[1, 2]] [1, 2, 3] [[4]] rfl⟩

end PollingRouteStrategyImpl

end AcidCompute
