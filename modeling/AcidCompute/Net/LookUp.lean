import AcidCompute.Base.ByteOrder
import Mathlib.Data.List.TakeWhile

/-!
# Hosts and services (`Address::look_up` in `acid/net/address.cpp`)

`look_up` splits its argument for `getaddrinfo`.  The pointer to the service is null, or it leads to a place in the
argument (`hostParts`).  It is not taken back where a second colon shows that there is no service (`lookUp_iff`).
-/

namespace AcidCompute

/-- An `Address`, by what `create` makes of its socket address. -/
inductive Address (S : Type)
  | ipv4 (addr : S)
  | ipv6 (addr : S)
  | unknown (addr : S)

/-- The members of the hints that `look_up` sets. -/
structure Hints where
  family : BitVec 32
  socktype : BitVec 32
  protocol : BitVec 32

/-- `getaddrinfo`, which fails or has a list of socket addresses, and the family of each. -/
structure Resolver (S : Type) where
  getaddrinfo : List Byte → Option (List Byte) → Hints → Option (List (Option S))
  family : S → BitVec 16

/-- `memchr` from a place of a string to its end. -/
def memchr (s : List Byte) (start : Nat) (c : Byte) : Option Nat :=
  if (s.drop start).contains c then some (start + (s.drop start).idxOf c) else none

/-- What a function sees that takes a C string. -/
def cString (s : List Byte) : List Byte := s.takeWhile fun c => c ≠ 0

namespace Address

variable {S : Type}

def create (R : Resolver S) : Option S → Option (Address S)
  | none => none
  | some addr =>
    -- `AF_INET` and `AF_INET6`
    if R.family addr = 2 then some (.ipv4 addr)
    else if R.family addr = 10 then some (.ipv6 addr)
    else some (.unknown addr)

/-- `node` and `service` behind the test for brackets. -/
def bracketParts (host : List Byte) : List Byte × Option Nat :=
  if host.head? = some 91 then
    match memchr host 1 93 with
    | some endIpv6 =>
      ((host.drop 1).take (endIpv6 - 1), if host[endIpv6 + 1]? = some 58 then some (endIpv6 + 2) else none)
    | none => ([], none)
  else ([], none)

/-- `node` and `service` behind the test for a colon. -/
def colonParts (host : List Byte) (parts : List Byte × Option Nat) : List Byte × Option Nat :=
  if parts.1 = [] then
    match memchr host 0 58 with
    | some service =>
      if memchr host (service + 1) 58 = none then (host.take service, some (service + 1)) else (parts.1, some service)
    | none => (parts.1, none)
  else parts

/-- The first two arguments of `getaddrinfo`. -/
def hostParts (host : List Byte) : List Byte × Option (List Byte) :=
  let parts := colonParts host (bracketParts host)
  (cString (if parts.1 = [] then host else parts.1), parts.2.map fun service => cString (host.drop service))

/-- What `look_up` makes of the answer. -/
def takeResults (R : Resolver S) (result : List (Option (Address S))) :
    Option (List (Option S)) → Bool × List (Option (Address S))
  | none => (false, result)
  | some results => (!(result ++ results.map (create R)).isEmpty, result ++ results.map (create R))

def lookUp (R : Resolver S) (result : List (Option (Address S))) (host : List Byte) (hints : Hints) :
    Bool × List (Option (Address S)) :=
  takeResults R result (R.getaddrinfo (hostParts host).1 (hostParts host).2 hints)

/-! ### Arguments -/

/-- `look_up` passes `getaddrinfo` this node and this service. -/
def Passes (host node : List Byte) (service : Option (List Byte)) : Prop :=
  ∀ (S : Type) (R : Resolver S) result hints,
    lookUp R result host hints = takeResults R result (R.getaddrinfo node service hints)

/-- `[x]:p` or `[x]` -/
def Bracketed (host : List Byte) : Prop :=
  ∃ x, x ≠ [] ∧ 93 ∉ x ∧ (host = 91 :: x ++ [93] ∨ ∃ p, host = 91 :: x ++ 93 :: 58 :: p)

/-- What the arguments should be. -/
structure Right (host : List Byte) : Prop where
  bracketService : ∀ x p, x ≠ [] → 93 ∉ x → host = 91 :: x ++ 93 :: 58 :: p → Passes host x (some p)
  bracket : ∀ x, x ≠ [] → 93 ∉ x → host = 91 :: x ++ [93] → Passes host x none
  service : ¬ Bracketed host → ∀ h p, h ≠ [] → 58 ∉ h → 58 ∉ p → host = h ++ 58 :: p → Passes host h (some p)
  other : ¬ Bracketed host → (∀ h p, h ≠ [] → 58 ∉ h → 58 ∉ p → host ≠ h ++ 58 :: p) → host.head? ≠ some 91 →
    host.head? ≠ some 58 → Passes host host none

/-- An answer can tell the arguments apart. -/
theorem passes_iff {host node : List Byte} {service : Option (List Byte)} :
    Passes host node service ↔ hostParts host = (node, service) := by
  constructor
  · intro h
    by_contra hne
    let R : Resolver Unit := ⟨fun n s _ => if (n, s) = (node, service) then none else some [none], fun _ => 0⟩
    have hcall := h Unit R [] ⟨0, 0, 0⟩
    have hasked : R.getaddrinfo node service ⟨0, 0, 0⟩ = none := if_pos rfl
    have hpassed : R.getaddrinfo (hostParts host).1 (hostParts host).2 ⟨0, 0, 0⟩ = some [none] := if_neg hne
    rw [lookUp, hasked, hpassed] at hcall
    cases hcall
  · intro heq S R result hints
    rw [lookUp, heq]

/-! ### Places in the string -/

private theorem cString_eq {s : List Byte} (h : 0 ∉ s) : cString s = s := by
  rw [cString, List.takeWhile_eq_self_iff]
  intro c hc
  rw [decide_eq_true_eq]
  exact fun heq => h (heq ▸ hc)

private theorem memchr_eq_some {s front back : List Byte} {start : Nat} {c : Byte}
    (hdrop : s.drop start = front ++ c :: back) (hfront : c ∉ front) :
    memchr s start c = some (start + front.length) := by
  have hcontains : (front ++ c :: back).contains c = true :=
    List.contains_iff_mem.2 (List.mem_append_right _ List.mem_cons_self)
  rw [memchr, hdrop, if_pos hcontains, List.idxOf_append_of_notMem hfront, List.idxOf_cons_self, Nat.add_zero]

private theorem memchr_eq_none {s : List Byte} {start : Nat} {c : Byte} (h : c ∉ s.drop start) :
    memchr s start c = none := if_neg fun hcontains => h (List.contains_iff_mem.1 hcontains)

private theorem bracketParts_eq {x rest : List Byte} (hx : 93 ∉ x) : bracketParts (91 :: x ++ 93 :: rest) =
    (x, if rest.head? = some 58 then some (x.length + 3) else none) := by
  have hend : memchr (91 :: x ++ 93 :: rest) 1 93 = some (1 + x.length) := memchr_eq_some rfl hx
  have hnext : (91 :: x ++ 93 :: rest)[1 + x.length + 1]? = rest.head? := by
    rw [List.cons_append, Nat.add_comm 1, List.getElem?_cons_succ, List.getElem?_append_right (by omega),
      Nat.add_sub_cancel_left, List.getElem?_cons_succ, List.head?_eq_getElem?]
  have hnode : ((91 :: x ++ 93 :: rest).drop 1).take (1 + x.length - 1) = x := by
    rw [List.cons_append, List.drop_one, List.tail_cons, Nat.add_sub_cancel_left, List.take_left]
  have hopen : (91 :: x ++ 93 :: rest).head? = some 91 := rfl
  rw [bracketParts, if_pos hopen, hend]
  dsimp only
  rw [hnode, hnext, show 1 + x.length + 2 = x.length + 3 by omega]

/-- Without brackets, or with nothing in them, the first test finds no node. -/
private theorem bracketParts_nil {host : List Byte}
    (h : ∀ x rest, x ≠ [] → 93 ∉ x → host ≠ 91 :: x ++ 93 :: rest) : (bracketParts host).1 = [] := by
  by_cases hhead : host.head? = some 91
  · obtain ⟨tail, rfl⟩ : ∃ tail, host = 91 :: tail := ⟨_, List.eq_cons_of_mem_head? hhead⟩
    by_cases hmem : 93 ∈ tail
    · obtain ⟨x, rest, rfl, hx⟩ := List.eq_append_cons_of_mem hmem
      rw [← List.cons_append, bracketParts_eq hx]
      by_contra hne
      exact h x rest hne hx rfl
    · have hend : memchr (91 :: tail) 1 93 = none := memchr_eq_none hmem
      rw [bracketParts, if_pos hhead, hend]
  · rw [bracketParts, if_neg hhead]

/-! ### The arguments of each form -/

variable {host : List Byte}

private theorem hostParts_eq {node : List Byte} {service : Option Nat}
    (h : colonParts host (bracketParts host) = (node, service)) :
    hostParts host = (cString (if node = [] then host else node), service.map fun p => cString (host.drop p)) := by
  simp only [hostParts, h]

theorem hostParts_bracket {x rest : List Byte} (hne : x ≠ []) (hx : 93 ∉ x) (hnul : 0 ∉ 91 :: x ++ 93 :: rest) :
    hostParts (91 :: x ++ 93 :: rest) = (x, if rest.head? = some 58 then some rest.tail else none) := by
  have hnode : 0 ∉ x := fun hmem => hnul (List.mem_append_left _ (List.mem_cons_of_mem _ hmem))
  have hrest : 0 ∉ rest.tail := fun hmem =>
    hnul (List.mem_append_right _ (List.mem_cons_of_mem _ (List.mem_of_mem_tail hmem)))
  have hdrop : (91 :: x ++ 93 :: rest).drop (x.length + 3) = rest.tail := by
    rw [List.cons_append, List.drop_succ_cons, List.drop_append]
    simp
  have hparts : colonParts (91 :: x ++ 93 :: rest) (bracketParts (91 :: x ++ 93 :: rest)) =
      (x, if rest.head? = some 58 then some (x.length + 3) else none) := by
    rw [bracketParts_eq hx, colonParts, if_neg hne]
  rw [hostParts_eq hparts, if_neg hne, cString_eq hnode]
  by_cases hcolon : rest.head? = some 58
  · rw [if_pos hcolon, if_pos hcolon, Option.map_some, hdrop, cString_eq hrest]
  · rw [if_neg hcolon, if_neg hcolon, Option.map_none]

private theorem memchr_colon {h : List Byte} (hh : 58 ∉ h) (p : List Byte) :
    memchr (h ++ 58 :: p) 0 58 = some h.length ∧ (h ++ 58 :: p).drop (h.length + 1) = p := by
  constructor
  · exact (memchr_eq_some List.drop_zero hh).trans (congrArg some (Nat.zero_add _))
  · rw [List.drop_append]
    simp

section

variable (hnode : (bracketParts host).1 = []) (hnul : 0 ∉ host)

include hnode hnul

theorem hostParts_plain (hcolon : 58 ∉ host) : hostParts host = (host, none) := by
  have hfirst : memchr host 0 58 = none := memchr_eq_none hcolon
  have hparts : colonParts host (bracketParts host) = ([], none) := by
    rw [colonParts, if_pos hnode, hfirst]
    dsimp only
    rw [hnode]
  rw [hostParts_eq hparts, if_pos rfl, cString_eq hnul]
  rfl

theorem hostParts_service {h p : List Byte} (hne : h ≠ []) (hh : 58 ∉ h) (hp : 58 ∉ p) (heq : host = h ++ 58 :: p) :
    hostParts host = (h, some p) := by
  subst heq
  obtain ⟨hfirst, hbehind⟩ := memchr_colon hh p
  have hsecond : memchr (h ++ 58 :: p) (h.length + 1) 58 = none := memchr_eq_none (by rw [hbehind]; exact hp)
  have hparts : colonParts (h ++ 58 :: p) (bracketParts (h ++ 58 :: p)) = (h, some (h.length + 1)) := by
    rw [colonParts, if_pos hnode, hfirst]
    dsimp only
    rw [if_pos hsecond, List.take_left]
  rw [hostParts_eq hparts, if_neg hne, Option.map_some, hbehind, cString_eq, cString_eq]
  · exact fun hmem => hnul (List.mem_append_right _ (List.mem_cons_of_mem _ hmem))
  · exact fun hmem => hnul (List.mem_append_left _ hmem)

/-- With two colons the service begins at the first of them. -/
theorem hostParts_colons {h p : List Byte} (hh : 58 ∉ h) (hp : 58 ∈ p) (heq : host = h ++ 58 :: p) :
    hostParts host = (host, some (58 :: p)) := by
  subst heq
  obtain ⟨hfirst, hbehind⟩ := memchr_colon hh p
  have hsecond : memchr (h ++ 58 :: p) (h.length + 1) 58 ≠ none := by
    rw [memchr, hbehind, if_pos (List.contains_iff_mem.2 hp)]
    exact Option.some_ne_none _
  have hparts : colonParts (h ++ 58 :: p) (bracketParts (h ++ 58 :: p)) = ([], some h.length) := by
    rw [colonParts, if_pos hnode, hfirst]
    dsimp only
    rw [if_neg hsecond, hnode]
  rw [hostParts_eq hparts, if_pos rfl, Option.map_some, List.drop_left, cString_eq hnul, cString_eq]
  exact fun hmem => hnul (List.mem_append_right _ hmem)

end

/-! ### All forms -/

/-- What the forms of the brackets have in common. -/
private theorem Bracketed.exists_rest (h : Bracketed host) :
    ∃ x rest, x ≠ [] ∧ 93 ∉ x ∧ host = 91 :: x ++ 93 :: rest ∧ (rest = [] ∨ rest.head? = some 58) := by
  obtain ⟨x, hne, hx, hhost | ⟨p, hhost⟩⟩ := h
  · exact ⟨x, [], hne, hx, hhost, .inl rfl⟩
  · exact ⟨x, 58 :: p, hne, hx, hhost, .inr rfl⟩

private theorem bracketed_of_rest {x rest : List Byte} (hne : x ≠ []) (hx : 93 ∉ x)
    (hrest : rest = [] ∨ rest.head? = some 58) : Bracketed (91 :: x ++ 93 :: rest) := by
  rcases hrest with rfl | hcolon
  · exact ⟨x, hne, hx, .inl rfl⟩
  · refine ⟨x, hne, hx, .inr ⟨rest.tail, ?_⟩⟩
    rw [← List.eq_cons_of_mem_head? hcolon]

/-- The first bracket that closes is where `x` ends. -/
private theorem bracket_inj {x x' rest rest' : List Byte} (hx : 93 ∉ x) (hx' : 93 ∉ x')
    (heq : 91 :: x ++ 93 :: rest = 91 :: x' ++ 93 :: rest') : rest = rest' := by
  have hnode : x = x' := by
    have hparts := congrArg Prod.fst (congrArg bracketParts heq)
    rwa [bracketParts_eq hx, bracketParts_eq hx'] at hparts
  subst hnode
  exact (List.cons.inj (List.append_cancel_left heq)).2

private theorem not_bracketed (hhead : host.head? ≠ some 91) :
    ¬ Bracketed host ∧ (bracketParts host).1 = [] := by
  have hnot : ∀ x rest, host ≠ 91 :: x ++ 93 :: rest := fun x rest heq => hhead (heq ▸ rfl)
  constructor
  · intro hbracketed
    obtain ⟨x, rest, -, -, hhost, -⟩ := hbracketed.exists_rest
    exact hnot x rest hhost
  · exact bracketParts_nil fun x rest _ _ => hnot x rest

private theorem exists_colon (hmem : 58 ∈ host) :
    ∃ h p, host = h ++ 58 :: p ∧ 58 ∉ h ∧ host.count 58 = p.count 58 + 1 := by
  obtain ⟨h, p, rfl, hh⟩ := List.eq_append_cons_of_mem hmem
  refine ⟨h, p, rfl, hh, ?_⟩
  rw [List.count_append, List.count_cons_self, List.count_eq_zero.2 hh, Nat.zero_add]

private theorem count_service {h p : List Byte} (hh : 58 ∉ h) (hp : 58 ∉ p) : (h ++ 58 :: p).count 58 = 1 := by
  rw [List.count_append, List.count_cons_self, List.count_eq_zero.2 hh, List.count_eq_zero.2 hp]

/-- With two colons there is a service, which there should not be. -/
private theorem Right.count_le (h : Right host) (hnul : 0 ∉ host) (hbracket : host.head? ≠ some 91)
    (hcolon : host.head? ≠ some 58) : host.count 58 ≤ 1 := by
  by_contra hcount
  obtain ⟨front, p, hhost, hfront, hsum⟩ := exists_colon (List.count_pos_iff.1 (show 0 < host.count 58 by omega))
  have hp : 58 ∈ p := List.count_pos_iff.1 (by omega)
  obtain ⟨hnot, hnode⟩ := not_bracketed hbracket
  have hpasses : Passes host host none := by
    refine h.other hnot (fun h' p' _ hh' hp' heq => hcount ?_) hbracket hcolon
    rw [heq, count_service hh' hp']
  have hparts := (hostParts_colons hnode hnul hfront hp hhost).symm.trans (passes_iff.1 hpasses)
  cases congrArg Prod.snd hparts

/-- What stands behind the brackets is dropped, and there is no service. -/
private theorem Right.rest (h : Right host) (hnul : 0 ∉ host) {x rest : List Byte} (hne : x ≠ []) (hx : 93 ∉ x)
    (hhost : host = 91 :: x ++ 93 :: rest) : rest = [] ∨ rest.head? = some 58 ∨ host.count 58 ≠ 1 := by
  by_contra hbad
  rw [not_or, not_or, not_not] at hbad
  obtain ⟨hnil, hhead, hcount⟩ := hbad
  have hnot : ¬ Bracketed host := by
    intro hbracketed
    obtain ⟨x', rest', -, hx', hhost', hrest'⟩ := hbracketed.exists_rest
    rw [bracket_inj hx' hx (hhost'.symm.trans hhost)] at hrest'
    exact hrest'.elim hnil hhead
  obtain ⟨front, p, hsplit, hfront, hsum⟩ := exists_colon (List.count_pos_iff.1 (hcount ▸ Nat.one_pos))
  have hp : 58 ∉ p := List.count_eq_zero.1 (by omega)
  have hfirst : front ≠ [] := by
    rintro rfl
    rw [hhost] at hsplit
    cases hsplit
  have hpasses := passes_iff.1 (h.service hnot front p hfirst hfront hp hsplit)
  rw [hhost, hostParts_bracket hne hx (hhost ▸ hnul), if_neg hhead] at hpasses
  cases congrArg Prod.snd hpasses

/-- The arguments are right unless a second colon shows that there is no service, or something else than a service
stands behind the brackets. -/
theorem lookUp_iff (hnul : 0 ∉ host) : Right host ↔
    (host.head? ≠ some 91 → host.head? ≠ some 58 → host.count 58 ≤ 1) ∧
      ∀ x rest, x ≠ [] → 93 ∉ x → host = 91 :: x ++ 93 :: rest →
        rest = [] ∨ rest.head? = some 58 ∨ host.count 58 ≠ 1 := by
  constructor
  · exact fun hright => ⟨hright.count_le hnul, fun x rest hne hx hhost => hright.rest hnul hne hx hhost⟩
  · rintro ⟨hcount, hrest⟩
    constructor
    case bracketService =>
      rintro x p hne hx rfl
      exact passes_iff.2 (hostParts_bracket hne hx hnul)
    case bracket =>
      rintro x hne hx rfl
      exact passes_iff.2 (hostParts_bracket hne hx hnul)
    case service =>
      rintro hnot h p hne hh hp rfl
      have hnode : (bracketParts (h ++ 58 :: p)).1 = [] := by
        refine bracketParts_nil fun x rest hxne hx heq => ?_
        rcases hrest x rest hxne hx heq with hnil | hcolon | hother
        · exact hnot (heq ▸ bracketed_of_rest hxne hx (.inl hnil))
        · exact hnot (heq ▸ bracketed_of_rest hxne hx (.inr hcolon))
        · exact hother (count_service hh hp)
      exact passes_iff.2 (hostParts_service hnode hnul hne hh hp rfl)
    case other =>
      intro _ hnone hbracket hcolon
      refine passes_iff.2 (hostParts_plain (not_bracketed hbracket).2 hnul fun hmem => ?_)
      obtain ⟨h, p, hhost, hh, hsum⟩ := exists_colon hmem
      have hle := hcount hbracket hcolon
      have hp : 58 ∉ p := List.count_eq_zero.1 (by omega)
      refine hnone h p ?_ hh hp hhost
      rintro rfl
      rw [hhost] at hcolon
      exact hcolon rfl

/-- `[::1]:80` -/
theorem lookUp_iff_bracket : Right [91, 58, 58, 49, 93, 58, 56, 48] :=
  (lookUp_iff (by decide)).2 ⟨fun hbracket => absurd rfl hbracket, fun _ _ _ _ _ => .inr (.inr (by decide))⟩

/-- `fe80::1` -/
private def linkLocal : List Byte := [102, 101, 56, 48, 58, 58, 49]

/-- The service of `fe80::1` should be null. -/
theorem not_lookUp_colons : ¬ ∀ host, 0 ∉ host → Right host := by
  intro hall
  have hhead : linkLocal.head? ≠ some 91 := by decide
  have hnone : ∀ h p, h ≠ [] → 58 ∉ h → 58 ∉ p → linkLocal ≠ h ++ 58 :: p := by
    intro h p _ hh hp heq
    have hcount := congrArg (List.count 58) heq
    rw [count_service hh hp] at hcount
    revert hcount
    decide
  have hright : Right linkLocal := hall linkLocal (by decide)
  have hparts := passes_iff.1 (hright.other (not_bracketed hhead).1 hnone hhead (by decide))
  revert hparts
  decide

end Address

end AcidCompute
