import AcidCompute.Base.GroupText
import AcidCompute.Net.Address

/-!
# The text of an IPv6 address (`IPv6Address::insert` in `acid/net/address.cpp`)

One pass over the groups leaves out the zeros at their first place and has `::` for them.  The address can be told from
the text (`insert_expands`).
-/

namespace AcidCompute

/-- An `IPv6Address`, by the members of its `sockaddr_in6` that `insert` reads. -/
structure SockaddrIn6 where
  port : BitVec (8 * 2)
  -- `s6_addr`
  addr : List Byte
  length_addr : addr.length = 16

namespace SockaddrIn6

/-- The bytes of a group. -/
def pair (a : SockaddrIn6) (i : Nat) : List Byte := (a.addr.drop (2 * i)).take 2

/-- The group, which is in network order. -/
def group (a : SockaddrIn6) (i : Nat) : BitVec (8 * 2) := ofMemory .big 2 (a.pair i)

def groups (a : SockaddrIn6) : List Nat := (List.range 8).map fun i => (a.group i).toNat

variable (e : Endian) (a : SockaddrIn6)

/-- `addr[i]`, as the host reads it. -/
def word (i : Nat) : BitVec (8 * 2) := ofMemory e 2 (a.pair i)

/-- The text so far and `used_zeros`. -/
structure Printed where
  out : List Byte
  usedZeros : Bool

/-- The body of the loop. -/
def insertGroup (s : Printed) (i : Nat) : Printed :=
  if a.word e i = 0 ∧ s.usedZeros = false then s
  else
    let s : Printed :=
      if 0 < i ∧ a.word e (i - 1) = 0 ∧ s.usedZeros = false then ⟨s.out ++ [58], true⟩ else s
    let out := if 0 < i then s.out ++ [58] else s.out
    { s with out := out ++ numeral 16 (endianCast e (a.word e i)).toNat }

/-- The loop up to a group. -/
def insertLoop (k : Nat) : Printed := (List.range k).foldl (a.insertGroup e) ⟨[91], false⟩

def insert : List Byte :=
  let s := a.insertLoop e 8
  let out := if s.usedZeros = false ∧ a.word e 7 = 0 then s.out ++ [58, 58] else s.out
  out ++ [93, 58] ++ numeral 10 (endianCast e a.port).toNat

/-! ### Groups -/

/-- The text of a group. -/
private def digits (i : Nat) : List Byte := numeral 16 (a.group i).toNat

private theorem isGroup_digits (i : Nat) : IsGroup (a.digits i) := isGroup_numeral (a.group i).isLt

private theorem valueOf_digits (i : Nat) : valueOf 16 (a.digits i) = (a.group i).toNat :=
  valueOf_numeral (by decide) (by decide) _

private theorem length_pair {i : Nat} (hi : i < 8) : (a.pair i).length = 2 := by
  have hlength := a.length_addr
  rw [pair, List.length_take, List.length_drop]
  omega

/-- `network_to_host` gives the group. -/
theorem endianCast_word {i : Nat} (hi : i < 8) : endianCast e (a.word e i) = a.group i := by
  cases e with
  | big => rfl
  | little =>
    have hmemory := memory_ofMemory .big (a.length_pair hi)
    have hswap := byteSwap_ofMemory (show Endian.little ≠ .big by decide) (a.group i)
    rw [group, hmemory] at hswap
    exact hswap

theorem word_eq_zero_iff {i : Nat} (hi : i < 8) : a.word e i = 0 ↔ a.group i = 0 := by
  rw [← endianCast_word e a hi]
  cases e with
  | big => exact Iff.rfl
  | little =>
    constructor
    · intro hzero
      rw [hzero]
      decide
    · intro hzero
      have hswap := byteSwap_byteSwap (a.word .little i)
      rw [show byteSwap (a.word .little i) = 0 from hzero] at hswap
      rw [← hswap]
      decide

/-! ### The loop -/

variable {e a} {m n k : Nat}

private theorem insertLoop_succ (k : Nat) : a.insertLoop e (k + 1) = a.insertGroup e (a.insertLoop e k) k := by
  rw [insertLoop, List.range_succ, List.foldl_append]
  rfl

/-- The groups from `m` to in front of `n`, with colons. -/
private def part (a : SockaddrIn6) (m n : Nat) : List Byte := joinGroups ((List.range' m (n - m)).map a.digits)

private theorem part_self (m : Nat) : a.part m m = [] := by
  rw [part, Nat.sub_self]
  rfl

private theorem part_succ (hm : m < n) : a.part m (n + 1) = a.part m n ++ 58 :: a.digits n := by
  have hne : (List.range' m (n - m)).map a.digits ≠ [] := by
    intro hnil
    have hlength := congrArg List.length hnil
    rw [List.length_map, List.length_range', List.length_nil] at hlength
    omega
  rw [part, show n + 1 - m = n - m + 1 by omega, List.range'_1_concat, List.map_append, List.map_singleton,
    show m + (n - m) = n by omega, joinGroups_concat hne]
  rfl

private theorem part_single (n : Nat) : a.part n (n + 1) = a.digits n := by
  rw [part, Nat.add_sub_cancel_left]
  exact List.intercalate_singleton

/-- Groups that are not zero are written. -/
private theorem insertLoop_front (hk : k ≤ 8) (h : ∀ i < k, a.word e i ≠ 0) :
    a.insertLoop e k = ⟨91 :: a.part 0 k, false⟩ := by
  induction k with
  | zero => rw [part_self]; rfl
  | succ k ih =>
    have hzero : a.word e k ≠ 0 := h k (Nat.lt_succ_self k)
    rw [insertLoop_succ, ih (by omega) fun i hi => h i (Nat.lt_succ_of_lt hi), insertGroup,
      if_neg fun hskip => hzero hskip.1, endianCast_word e a hk]
    cases k with
    | zero => rw [part_self, part_single]; rfl
    | succ k =>
      have hlast : a.word e k ≠ 0 := h k (by omega)
      have hzeros : ¬ (0 < k + 1 ∧ a.word e (k + 1 - 1) = 0 ∧ (false : Bool) = false) := fun hz => hlast hz.2.1
      dsimp only
      rw [if_neg hzeros, if_pos (Nat.succ_pos k), part_succ (Nat.succ_pos k)]
      simp [digits]

/-- The first zeros are left out. -/
private theorem insertLoop_zeros (hmk : m ≤ k) (hused : (a.insertLoop e m).usedZeros = false)
    (h : ∀ i, m ≤ i → i < k → a.word e i = 0) : a.insertLoop e k = a.insertLoop e m := by
  induction k, hmk using Nat.le_induction with
  | base => rfl
  | succ k hmk ih =>
    have hloop := ih fun i hi hlt => h i hi (Nat.lt_succ_of_lt hlt)
    rw [insertLoop_succ, hloop, insertGroup, if_pos ⟨h k hmk (Nat.lt_succ_self k), hused⟩]

/-- Behind them all groups are written. -/
private theorem insertLoop_back {out : List Byte} (hn : 0 < n) (hloop : a.insertLoop e n = ⟨out, false⟩)
    (hzero : a.word e (n - 1) = 0) (hne : a.word e n ≠ 0) (hnk : n + 1 ≤ k) (hk : k ≤ 8) :
    a.insertLoop e k = ⟨out ++ 58 :: 58 :: a.part n k, true⟩ := by
  induction k, hnk using Nat.le_induction with
  | base =>
    have hzeros : 0 < n ∧ a.word e (n - 1) = 0 ∧ (false : Bool) = false := ⟨hn, hzero, rfl⟩
    rw [insertLoop_succ, hloop, insertGroup, if_neg fun hskip => hne hskip.1, endianCast_word e a hk, part_single]
    dsimp only
    rw [if_pos hzeros, if_pos hn]
    simp [digits]
  | succ k hnk ih =>
    have hused : ¬ (a.word e k = 0 ∧ (true : Bool) = false) := fun hskip => by cases hskip.2
    have hagain : ¬ (0 < k ∧ a.word e (k - 1) = 0 ∧ (true : Bool) = false) := fun hz => by cases hz.2.2
    rw [insertLoop_succ, ih (by omega), insertGroup, if_neg hused, endianCast_word e a hk, part_succ (by omega)]
    dsimp only
    rw [if_neg hagain, if_pos (by omega)]
    simp [digits]

/-! ### The text -/

/-- From a place on, how far a property goes. -/
private theorem exists_run (P : Nat → Prop) [DecidablePred P] (h : m ≤ n) :
    ∃ k, m ≤ k ∧ k ≤ n ∧ (∀ i, m ≤ i → i < k → P i) ∧ (k < n → ¬ P k) := by
  induction n, h using Nat.le_induction with
  | base =>
    exact ⟨m, Nat.le_refl m, Nat.le_refl m, fun i hi hlt => absurd hlt (Nat.not_lt.2 hi),
      fun hlt => absurd hlt (Nat.lt_irrefl m)⟩
  | succ n hmn ih =>
    obtain ⟨k, hmk, hkn, hall, hstop⟩ := ih
    by_cases hend : k = n ∧ P n
    · refine ⟨n + 1, by omega, Nat.le_refl _, fun i hi hlt => ?_, fun hlt => absurd hlt (by omega)⟩
      by_cases hi' : i = n
      · exact hi' ▸ hend.2
      · exact hall i hi (by omega)
    · refine ⟨k, hmk, by omega, hall, fun _ hP => ?_⟩
      by_cases hkn' : k = n
      · exact hend ⟨hkn', hkn' ▸ hP⟩
      · exact hstop (by omega) hP

private theorem valueOf_part (a : SockaddrIn6) (m n : Nat) :
    ((List.range' m (n - m)).map a.digits).map (valueOf 16) =
      (List.range' m (n - m)).map fun i => (a.group i).toNat := by
  rw [List.map_map]
  exact List.map_congr_left fun i _ => a.valueOf_digits i

private theorem isGroup_part (a : SockaddrIn6) (m n : Nat) : ∀ g ∈ (List.range' m (n - m)).map a.digits, IsGroup g := by
  intro g hg
  obtain ⟨i, -, rfl⟩ := List.mem_map.1 hg
  exact a.isGroup_digits i

private theorem expands_part (a : SockaddrIn6) : Expands 8 (a.part 0 8) a.groups := by
  have hfull : Expands 8 (a.part 0 8) _ := .full (isGroup_part a 0 8) (by rw [List.length_map, List.length_range'])
  rwa [valueOf_part] at hfull

private theorem range'_append_range' (hmn : m ≤ n) :
    List.range' 0 m ++ List.range' m (n - m) = List.range' 0 n := by
  have happend := List.range'_append_1 (s := 0) (m := m) (n := n - m)
  rwa [Nat.zero_add, Nat.add_sub_cancel' hmn] at happend

/-- The text with `::` for the groups from `m` to in front of `n`. -/
private theorem expands_compressed (hmn : m < n) (hn : n ≤ 8) (hzero : ∀ i, m ≤ i → i < n → a.group i = 0) :
    Expands 8 (a.part 0 m ++ 58 :: 58 :: a.part n 8) a.groups := by
  have hlength : ((List.range' 0 (m - 0)).map a.digits).length + ((List.range' n (8 - n)).map a.digits).length < 8 := by
    simp only [List.length_map, List.length_range']
    omega
  have hcompressed : Expands 8 (a.part 0 m ++ 58 :: 58 :: a.part n 8) _ :=
    .compressed (isGroup_part a 0 m) (isGroup_part a n 8) hlength
  have hzeros : (List.range' m (n - m)).map (fun i => (a.group i).toNat) = List.replicate (n - m) 0 := by
    rw [List.eq_replicate_iff, List.length_map, List.length_range']
    refine ⟨rfl, fun v hv => ?_⟩
    obtain ⟨i, hi, rfl⟩ := List.mem_map.1 hv
    rw [List.mem_range'_1] at hi
    rw [hzero i hi.1 (by omega)]
    rfl
  have hrange : List.range 8 = List.range' 0 m ++ List.range' m (n - m) ++ List.range' n (8 - n) := by
    rw [range'_append_range' (Nat.le_of_lt hmn), range'_append_range' hn, List.range_eq_range']
  have hcount : 8 - (((List.range' 0 (m - 0)).map a.digits).length + ((List.range' n (8 - n)).map a.digits).length) =
      n - m := by
    simp only [List.length_map, List.length_range']
    omega
  rw [hcount, valueOf_part, valueOf_part, ← hzeros, Nat.sub_zero, ← List.map_append, ← List.map_append, ← hrange]
    at hcompressed
  exact hcompressed

/-- What the loop and the `::` at the end leave between the brackets. -/
private theorem exists_text (e : Endian) (a : SockaddrIn6) :
    ∃ text, a.insert e = 91 :: text ++ 93 :: 58 :: numeral 10 (endianCast e a.port).toNat ∧
      Expands 8 text a.groups := by
  suffices hloop : ∃ text, Expands 8 text a.groups ∧
      (if (a.insertLoop e 8).usedZeros = false ∧ a.word e 7 = 0 then (a.insertLoop e 8).out ++ [58, 58]
        else (a.insertLoop e 8).out) = 91 :: text by
    obtain ⟨text, hexpands, hout⟩ := hloop
    refine ⟨text, ?_, hexpands⟩
    rw [insert, hout, List.append_assoc]
    rfl
  obtain ⟨m, -, hm, hfront, hstop⟩ := exists_run (fun i => a.word e i ≠ 0) (Nat.zero_le 8)
  have hbefore := insertLoop_front hm fun i hi => hfront i (Nat.zero_le i) hi
  rcases Nat.lt_or_eq_of_le hm with hlt | rfl
  · have hfirst : a.word e m = 0 := not_not.1 (hstop hlt)
    obtain ⟨n, hmn, hn, hzeros, hend⟩ := exists_run (fun i => a.word e i = 0) hm
    have hlt' : m < n := by
      rcases Nat.lt_or_eq_of_le hmn with hlt' | rfl
      · exact hlt'
      · exact absurd hfirst (hend hlt)
    have hused : (a.insertLoop e m).usedZeros = false := by rw [hbefore]
    have hskipped : a.insertLoop e n = ⟨91 :: a.part 0 m, false⟩ := (insertLoop_zeros hmn hused hzeros).trans hbefore
    have hexpands : Expands 8 (a.part 0 m ++ 58 :: 58 :: a.part n 8) a.groups :=
      expands_compressed hlt' hn fun i hi hin => (word_eq_zero_iff e a (by omega)).1 (hzeros i hi hin)
    refine ⟨_, hexpands, ?_⟩
    rcases Nat.lt_or_eq_of_le hn with hn' | rfl
    · have hlast : a.word e (n - 1) = 0 := hzeros (n - 1) (by omega) (by omega)
      rw [insertLoop_back (by omega) hskipped hlast (hend hn') hn' (Nat.le_refl 8), if_neg fun hz => by cases hz.1]
      rfl
    · rw [hskipped, if_pos ⟨rfl, hzeros 7 (by omega) (by omega)⟩, part_self]
      rfl
  · refine ⟨_, a.expands_part, ?_⟩
    rw [hbefore, if_neg fun hz => hfront 7 (by omega) (by omega) hz.2]

private theorem bracket_notMem {text : List Byte} {gs : List Nat} (h : Expands 8 text gs) : 93 ∉ text := by
  intro hmem
  rcases h.mem hmem with hcolon | hdigit
  · revert hcolon
    decide
  · revert hdigit
    decide

/-- The text between the brackets stands for the address, and no other address has the same text. -/
theorem insert_expands (e : Endian) (a : SockaddrIn6) :
    (∃ text, 93 ∉ text ∧ a.insert e = 91 :: text ++ 93 :: 58 :: numeral 10 (endianCast e a.port).toNat ∧
      Expands 8 text a.groups) ∧ ∀ b : SockaddrIn6, b.insert e = a.insert e → b.groups = a.groups := by
  obtain ⟨text, hinsert, hexpands⟩ := exists_text e a
  refine ⟨⟨text, bracket_notMem hexpands, hinsert, hexpands⟩, fun b hsame => ?_⟩
  obtain ⟨text', hinsert', hexpands'⟩ := exists_text e b
  rw [hinsert, hinsert', List.cons_append, List.cons_append] at hsame
  have hfront : ∀ {t : List Byte}, 93 ∉ t → ∀ rest, (t ++ 93 :: rest).takeWhile (fun c => c ≠ 93) = t := by
    intro t ht rest
    have hall : ∀ c ∈ t, decide (c ≠ 93) = true := fun c hc => decide_eq_true fun heq => ht (heq ▸ hc)
    rw [List.takeWhile_append_of_pos hall, List.takeWhile_cons_of_neg (by simp), List.append_nil]
  have htext := congrArg (List.takeWhile fun c => c ≠ 93) (List.cons.inj hsame).2
  rw [hfront (bracket_notMem hexpands'), hfront (bracket_notMem hexpands)] at htext
  rw [htext] at hexpands'
  exact hexpands'.unique (by decide) hexpands

end SockaddrIn6

end AcidCompute
