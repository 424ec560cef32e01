import AcidCompute.Config.Table

/-!
# Loading a tree (`Config::load_from_yaml` in `acid/common/config.cpp`)

`list_all_members` joins the keys on the way to a node by dots and leaves the node out, with all below it, if there is a
character in its path that no name has.  A capital letter is one, so that the path is in lower case already when
`load_from_yaml` converts it.

So a node sets the variable whose name is its path, letter case apart, just if no such path is empty or has a capital
letter, and if none that begins with an empty key stands for a name (`Config.called_iff`).
-/

namespace AcidCompute

namespace Config

mutual

/-- The nodes of a tree in depth-first order, each with the keys on the way. -/
def places (keys : List (List Byte)) : Node → List (List (List Byte) × Node)
  | .map entries => (keys, .map entries) :: entryPlaces keys entries
  | node => [(keys, node)]

def entryPlaces (keys : List (List Byte)) : Entries → List (List (List Byte) × Node)
  | .nil => []
  | .cons key node rest => places (keys ++ [key]) node ++ entryPlaces keys rest

end

def Entries.append : Entries → Entries → Entries
  | .nil, entries => entries
  | .cons key node rest, entries => .cons key node (rest.append entries)

/-- The path that a node has: its keys, with dots between them. -/
def dotted (keys : List (List Byte)) : List Byte := List.intercalate [46] keys

/-- The prefix of an entry. -/
def join (pre key : List Byte) : List Byte := if pre = [] then key else pre ++ [46] ++ key

/-- The test of `list_all_members`. -/
def prefixInvalid (pre : List Byte) : Bool := hasOther "qazxswedcvfrtgbnhyujmkiolp._0123456789" pre

/-- The path that `list_all_members` gives to a node. -/
def joined (keys : List (List Byte)) : List Byte := keys.foldl join []

-- what `from_string` is called with
def Node.value (emit : Node → List Byte) (node : Node) : List Byte := if node.isScalar then node.text else emit node

namespace Table

variable {Ty : Type} {Value : Ty → Type} (t : Table Value)

/-- The variable for whose name a path stands, letter case apart. -/
def namedVar (keys : List (List Byte)) : Option Nat :=
  if hasOther "abcdefghijklmnopqrstuvwxyzABCDEFGHIJKLMNOPQRSTUVWXYZ._0123456789" (dotted keys) then none
  else t.lookUpBase ((dotted keys).map toLower)

/-- The nodes whose paths are names of variables, in depth-first order. -/
def named (root : Node) : List ((List (List Byte) × Node) × Nat) :=
  (places [] root).filterMap fun m => (t.namedVar m.1).map fun var => (m, var)

/-- The variable of which `load_from_yaml` calls `from_string` at a node. -/
def calledVar (keys : List (List Byte)) : Option Nat :=
  if prefixInvalid (joined keys) = true ∨ joined keys = [] then none
  else t.lookUpBase ((joined keys).map toLower)

/-- The nodes at which `load_from_yaml` calls `from_string`, in this order. -/
def called (root : Node) : List ((List (List Byte) × Node) × Nat) :=
  (places [] root).filterMap fun m => (t.calledVar m.1).map fun var => (m, var)

/-- The call of `from_string` in the body of the loop in `load_from_yaml`, if there is one. -/
def loadCall (emit : Node → List Byte) (node : List Byte × Node) : Option (Nat × List Byte) :=
  if node.1 = [] then none else (t.lookUpBase (node.1.map toLower)).map fun var => (var, node.2.value emit)

def loadCalls (emit : Node → List Byte) (root : Node) : List (Nat × List Byte) :=
  (listAllMembers [] root).filterMap (t.loadCall emit)

/-- A path that is a name is not empty and has no capital letter, and it does not begin with an empty key; what is left
of one that does is not a name either. -/
def Plain (root : Node) : Prop :=
  ∀ m ∈ places [] root,
    (t.namedVar m.1 ≠ none → dotted m.1 ≠ [] ∧ (dotted m.1).map toLower = dotted m.1) ∧
      (m.1.head? = some [] → t.namedVar m.1 = none ∧ (joined m.1 = [] ∨ t.lookUpBase (joined m.1) = none))

end Table

/-! ### Paths -/

theorem joined_append (keys : List (List Byte)) (key : List Byte) :
    joined (keys ++ [key]) = join (joined keys) key := by
  rw [joined, List.foldl_append]
  rfl

private theorem dotted_cons (key : List Byte) (keys : List (List Byte)) :
    dotted (key :: keys) = key ++ keys.flatMap fun k => 46 :: k := by
  induction keys generalizing key with
  | nil => simp [dotted, List.intercalate]
  | cons k keys ih =>
    have hrest : dotted (key :: k :: keys) = key ++ 46 :: dotted (k :: keys) := by
      simp [dotted, List.intercalate, List.intersperse]
    rw [hrest, ih]
    rfl

private theorem foldl_join {pre : List Byte} (h : pre ≠ []) (keys : List (List Byte)) :
    keys.foldl join pre = pre ++ keys.flatMap fun k => 46 :: k := by
  induction keys generalizing pre with
  | nil => simp
  | cons key keys ih =>
    have hjoin : join pre key = pre ++ [46] ++ key := if_neg h
    rw [List.foldl_cons, hjoin, ih (by simp), List.flatMap_cons]
    simp

theorem joined_eq_dotted {keys : List (List Byte)} (h : keys.head? ≠ some []) : joined keys = dotted keys := by
  cases keys with
  | nil => rfl
  | cons key keys =>
    have hkey : key ≠ [] := by
      rintro rfl
      exact h rfl
    rw [dotted_cons]
    exact foldl_join hkey keys

/-- The dots behind empty keys in front are left out. -/
theorem dotted_eq (keys : List (List Byte)) : ∃ k, dotted keys = List.replicate k 46 ++ joined keys := by
  induction keys with
  | nil => exact ⟨0, rfl⟩
  | cons key keys ih =>
    by_cases hkey : key = []
    · subst hkey
      show ∃ k, dotted ([] :: keys) = List.replicate k 46 ++ joined keys
      rw [dotted_cons, List.nil_append]
      cases keys with
      | nil => exact ⟨0, rfl⟩
      | cons key keys =>
        obtain ⟨k, hk⟩ := ih
        refine ⟨k + 1, ?_⟩
        rw [List.replicate_succ, List.cons_append, ← hk, dotted_cons]
        rfl
    · refine ⟨0, ?_⟩
      rw [joined_eq_dotted (by simpa using hkey)]
      rfl

/-- Behind an empty key there is a dot that the joined path has not. -/
theorem length_joined_lt {keys : List (List Byte)} (hhead : keys.head? = some []) (hne : joined keys ≠ []) :
    (joined keys).length < (dotted keys).length := by
  match keys with
  | [] => cases hhead
  | [key] =>
    cases hhead
    exact absurd rfl hne
  | key :: key' :: keys =>
    cases hhead
    obtain ⟨k, hk⟩ := dotted_eq (key' :: keys)
    have hlength := congrArg List.length hk
    have hdotted : dotted ([] :: key' :: keys) = 46 :: dotted (key' :: keys) := by
      rw [dotted_cons, dotted_cons]
      rfl
    have hjoined : joined ([] :: key' :: keys) = joined (key' :: keys) := rfl
    rw [hdotted, hjoined, List.length_cons]
    rw [List.length_append] at hlength
    omega

/-! ### What is listed -/

/-- The characters of a key stay in the paths below. -/
private theorem prefixInvalid_join {pre key : List Byte} (h : prefixInvalid pre = true) :
    prefixInvalid (join pre key) = true := by
  have hne : pre ≠ [] := by
    rintro rfl
    cases h
  have hjoin : join pre key = pre ++ ([46] ++ key) := by
    rw [join, if_neg hne, List.append_assoc]
  rw [hjoin, prefixInvalid, hasOther, List.any_append, Bool.or_eq_true]
  exact .inl h

mutual

private theorem filter_places_nil {keys : List (List Byte)}
    (h : prefixInvalid (joined keys) = true) :
    (node : Node) →
      (places keys node).filter (fun m => !prefixInvalid (joined m.1)) = []
  | .map entries => by simp [places, h, filter_entryPlaces_nil h entries]
  | .null => by simp [places, h]
  | .scalar text => by simp [places, h]
  | .sequence items => by simp [places, h]

private theorem filter_entryPlaces_nil {keys : List (List Byte)}
    (h : prefixInvalid (joined keys) = true) :
    (entries : Entries) →
      (entryPlaces keys entries).filter (fun m => !prefixInvalid (joined m.1)) = []
  | .nil => rfl
  | .cons key node rest => by
    have hkey : prefixInvalid (joined (keys ++ [key])) = true := by
      rw [joined_append]
      exact prefixInvalid_join h
    rw [entryPlaces, List.filter_append, filter_places_nil hkey node, filter_entryPlaces_nil h rest]
    rfl

end

private theorem listAllMembers_map (pre : List Byte) (entries : Entries) : listAllMembers pre (.map entries) =
    if prefixInvalid pre then [] else (pre, .map entries) :: listEntries pre entries := by
  rw [listAllMembers]
  rfl

private theorem listAllMembers_leaf (pre : List Byte) {node : Node} (h : ∀ entries, node ≠ .map entries) :
    listAllMembers pre node = if prefixInvalid pre then [] else [(pre, node)] := by
  cases node with
  | map entries => exact absurd rfl (h entries)
  | null => rfl
  | scalar text => rfl
  | sequence items => rfl

private theorem places_leaf (keys : List (List Byte)) {node : Node} (h : ∀ entries, node ≠ .map entries) :
    places keys node = [(keys, node)] := by
  cases node with
  | map entries => exact absurd rfl (h entries)
  | null => rfl
  | scalar text => rfl
  | sequence items => rfl

private theorem listAllMembers_eq_leaf (keys : List (List Byte)) {node : Node} (h : ∀ entries, node ≠ .map entries) :
    listAllMembers (joined keys) node =
      ((places keys node).filter fun m => !prefixInvalid (joined m.1)).map fun m => (joined m.1, m.2) := by
  rw [listAllMembers_leaf _ h, places_leaf _ h]
  cases hkeys : prefixInvalid (joined keys) <;> simp [hkeys]

mutual

/-- `list_all_members` lists the nodes without other characters in their paths. -/
theorem listAllMembers_eq (keys : List (List Byte)) : (node : Node) →
    listAllMembers (joined keys) node =
      ((places keys node).filter fun m => !prefixInvalid (joined m.1)).map fun m => (joined m.1, m.2)
  | .map entries => by
    rw [listAllMembers_map]
    cases h : prefixInvalid (joined keys) with
    | true =>
      rw [filter_places_nil h]
      rfl
    | false => simp [places, h, listEntries_eq keys entries]
  | .null => listAllMembers_eq_leaf keys fun _ h => by cases h
  | .scalar text => listAllMembers_eq_leaf keys fun _ h => by cases h
  | .sequence items => listAllMembers_eq_leaf keys fun _ h => by cases h

theorem listEntries_eq (keys : List (List Byte)) : (entries : Entries) →
    listEntries (joined keys) entries =
      ((entryPlaces keys entries).filter fun m => !prefixInvalid (joined m.1)).map fun m => (joined m.1, m.2)
  | .nil => rfl
  | .cons key node rest => by
    have hkey := listAllMembers_eq (keys ++ [key]) node
    rw [joined_append] at hkey
    rw [entryPlaces, List.filter_append, List.map_append, ← listEntries_eq keys rest, ← hkey]
    rfl

end

/-- A node with another character in its path is left out with all below it, and nothing else is. -/
theorem listEntries_append_invalid {pre key : List Byte} (h : prefixInvalid (join pre key) = true)
    (before : Entries) (node : Node) (behind : Entries) :
    listEntries pre (before.append (.cons key node behind)) = listEntries pre (before.append behind) := by
  match before with
  | .nil =>
    have hnone : listAllMembers (join pre key) node = [] := by
      cases node with
      | map entries => rw [listAllMembers_map, h, if_pos rfl]
      | null => exact (listAllMembers_leaf _ fun _ h => by cases h).trans (if_pos h)
      | scalar text => exact (listAllMembers_leaf _ fun _ h => by cases h).trans (if_pos h)
      | sequence items => exact (listAllMembers_leaf _ fun _ h => by cases h).trans (if_pos h)
    show listAllMembers (join pre key) node ++ listEntries pre behind = listEntries pre behind
    rw [hnone, List.nil_append]
  | .cons key' node' rest =>
    show _ ++ listEntries pre (rest.append (.cons key node behind)) = _ ++ listEntries pre (rest.append behind)
    rw [listEntries_append_invalid h rest node behind]

/-! ### The calls -/

section

variable {Ty : Type} {Value : Ty → Type} {fromStr : (T : Ty) → List Byte → Option (Value T)} {emit : Node → List Byte}
  {t : Table Value}

private theorem loadNode_eq {t' : Table Value} (hdatas : t'.datas = t.datas) (node : List Byte × Node) :
    t'.loadNode fromStr emit node =
      (t.loadCall emit node).elim t' fun c => t'.fromString fromStr c.1 c.2 := by
  have hbase : t'.lookUpBase (node.1.map toLower) = t.lookUpBase (node.1.map toLower) := congrFun hdatas _
  unfold Table.loadNode Table.loadCall
  by_cases hempty : node.1 = []
  · rw [if_pos hempty, if_pos hempty]
    rfl
  · rw [if_neg hempty, if_neg hempty, hbase]
    cases t.lookUpBase (node.1.map toLower) <;> rfl

/-- The loop calls `from_string` one by one, with the same table of names each time. -/
theorem loadFromYaml_eq (root : Node) : t.loadFromYaml fromStr emit root =
    (t.loadCalls emit root).foldl (fun t c => t.fromString fromStr c.1 c.2) t := by
  unfold Table.loadFromYaml Table.loadCalls
  suffices h : ∀ (nodes : List (List Byte × Node)) (t' : Table Value), t'.datas = t.datas →
      nodes.foldl (Table.loadNode fromStr emit) t' =
        (nodes.filterMap (t.loadCall emit)).foldl (fun t c => t.fromString fromStr c.1 c.2) t' from h _ t rfl
  intro nodes
  induction nodes with
  | nil => exact fun _ _ => rfl
  | cons node nodes ih =>
    intro t' hdatas
    rw [List.foldl_cons, loadNode_eq hdatas]
    cases hcall : t.loadCall emit node with
    | none =>
      rw [List.filterMap_cons_none hcall]
      exact ih t' hdatas
    | some c =>
      rw [List.filterMap_cons_some hcall, List.foldl_cons]
      exact ih _ hdatas

/-- The calls are made at these nodes. -/
theorem loadCalls_eq (root : Node) :
    t.loadCalls emit root = (t.called root).map fun c => (c.2, c.1.2.value emit) := by
  have hlist : listAllMembers [] root = _ := listAllMembers_eq [] root
  rw [Table.loadCalls, Table.called, hlist, List.filterMap_map, List.filterMap_filter, List.map_filterMap]
  apply List.filterMap_congr
  intro m _
  cases hvalid : prefixInvalid (joined m.1) with
  | true => simp [Table.calledVar, hvalid]
  | false =>
    by_cases hempty : joined m.1 = []
    · simp [Table.calledVar, Table.loadCall, hempty]
    · simp [Table.calledVar, Table.loadCall, hvalid, hempty, Function.comp_def]

/-- `from_string` changes no name. -/
private theorem map_name_fromString (p : Nat) (val : List Byte) :
    (t.fromString fromStr p val).vars.map Var.name = t.vars.map Var.name := by
  apply List.ext_getElem?
  intro i
  simp only [Table.fromString, List.getElem?_map, List.getElem?_modify]
  by_cases hi : p = i
  · cases t.vars[i]? <;> simp [hi]
  · cases t.vars[i]? <;> simp [hi]

variable (fromStr emit t) in
private theorem map_name_loadFromYaml (root : Node) :
    (t.loadFromYaml fromStr emit root).vars.map Var.name = t.vars.map Var.name := by
  rw [loadFromYaml_eq]
  generalize t.loadCalls emit root = calls
  induction calls generalizing t with
  | nil => rfl
  | cons c calls ih =>
    rw [List.foldl_cons, ih]
    exact map_name_fromString c.1 c.2

end

/-! ### Names -/

section

variable {Ty : Type} {Value : Ty → Type} [DecidableEq Ty] {fromStr : (T : Ty) → List Byte → Option (Value T)}
  {emit : Node → List Byte} {s : State Value}

/-- The variable under a name has this name. -/
theorem name_of_reaches (h : (machine fromStr emit).Reaches Machine.any initial s) :
    ∀ name p, s.table.datas name = some p → (s.table.vars[p]?.map Var.name) = some name := by
  refine h.invariant_along (I := fun t => ∀ name p, t.table.datas name = some p →
    (t.table.vars[p]?.map Var.name) = some name) (fun t e t' hreach ht _ hstep => ?_) ?_
  · have hwell := WellFormed.of_reaches hreach
    cases hstep
    intro name p hp
    cases e with
    | lookUp T name' value =>
      rcases next_lookUp fromStr emit hwell T name' value with ⟨heq, -⟩ | ⟨-, -, heq⟩
      · rw [heq] at hp ⊢
        exact ht name p hp
      · rw [heq] at hp ⊢
        rw [register_datas] at hp
        rw [register_vars]
        by_cases hname : name = name'
        · subst hname
          rw [Function.update_self, Option.some.injEq] at hp
          simp [← hp]
        · rw [Function.update_of_ne hname] at hp
          rw [List.getElem?_append_left (hwell.stored name p hp)]
          exact ht name p hp
    | loadFromYaml root =>
      have hdatas := (loadFromYaml_frame fromStr emit t.table root).1
      have hnames := congrArg (fun names => names[p]?) (map_name_loadFromYaml fromStr emit t.table root)
      simp only [List.getElem?_map] at hnames
      exact hnames.trans (ht name p (hdatas ▸ hp))
  · intro name p hp
    cases hp

theorem datas_inj (h : (machine fromStr emit).Reaches Machine.any initial s) {name name' : List Byte} {p : Nat}
    (hp : s.table.datas name = some p) (hp' : s.table.datas name' = some p) : name = name' := by
  have hname := (name_of_reaches h name p hp).symm.trans (name_of_reaches h name' p hp')
  exact Option.some.inj hname

private theorem toLower_of_mem_prefix :
    ∀ c ∈ "qazxswedcvfrtgbnhyujmkiolp._0123456789".toList.map (fun a => BitVec.ofNat 8 a.toNat), toLower c = c := by
  decide +kernel

private theorem mem_letters_of_mem :
    ∀ c ∈ "abcdefghijklmnopqrstuvwxyz._0123456789".toList.map (fun a => BitVec.ofNat 8 a.toNat),
    c ∈ "abcdefghijklmnopqrstuvwxyzABCDEFGHIJKLMNOPQRSTUVWXYZ._0123456789".toList.map
      (fun a => BitVec.ofNat 8 a.toNat) := by
  decide +kernel

/-- A path that passes the test has no capital letters. -/
private theorem map_toLower_of_prefix {pre : List Byte} (h : prefixInvalid pre = false) : pre.map toLower = pre := by
  conv => rhs; rw [← List.map_id pre]
  apply List.map_congr_left
  exact fun c hc => toLower_of_mem_prefix c (hasOther_eq_false_iff.1 h c hc)

omit [DecidableEq Ty] in
/-- A name that is registered passes all tests. -/
private theorem valid_of_datas (hwell : WellFormed s) {name : List Byte} {p : Nat} (hp : s.table.datas name = some p) :
    prefixInvalid name = false ∧ name.map toLower = name ∧
      hasOther "abcdefghijklmnopqrstuvwxyzABCDEFGHIJKLMNOPQRSTUVWXYZ._0123456789" name = false := by
  have hvalid := hwell.valid name p hp
  obtain ⟨hkey, hlower⟩ := key_of_valid hvalid
  refine ⟨hkey, hlower, hasOther_eq_false_iff.2 fun c hc => ?_⟩
  exact mem_letters_of_mem c (hasOther_eq_false_iff.1 hvalid c hc)

omit [DecidableEq Ty] in
/-- Apart from the empty path, a path that `list_all_members` makes stands for the variable of just this name. -/
private theorem calledVar_eq (hwell : WellFormed s) (keys : List (List Byte)) :
    s.table.calledVar keys = if joined keys = [] then none else s.table.datas (joined keys) := by
  unfold Table.calledVar
  by_cases hempty : joined keys = []
  · rw [if_pos (.inr hempty), if_pos hempty]
  · rw [if_neg hempty]
    cases hinvalid : prefixInvalid (joined keys) with
    | true =>
      rw [if_pos (.inl rfl)]
      cases hp : s.table.datas (joined keys) with
      | none => rfl
      | some p =>
        rw [(valid_of_datas hwell hp).1] at hinvalid
        cases hinvalid
    | false =>
      rw [if_neg (by simp [hempty]), map_toLower_of_prefix hinvalid]
      rfl

omit [DecidableEq Ty] in
private theorem namedVar_of_datas (hwell : WellFormed s) {keys : List (List Byte)} {p : Nat}
    (hp : s.table.datas (dotted keys) = some p) : s.table.namedVar keys = some p := by
  obtain ⟨-, hlower, hletters⟩ := valid_of_datas hwell hp
  rw [Table.namedVar, hletters, hlower]
  exact hp

omit [DecidableEq Ty] in
private theorem datas_of_namedVar {keys : List (List Byte)} {p : Nat} (hp : s.table.namedVar keys = some p) :
    s.table.datas ((dotted keys).map toLower) = some p := by
  unfold Table.namedVar at hp
  split at hp
  · cases hp
  · exact hp

/-- With an empty first key the two names differ, and so do the variables. -/
private theorem namedVar_ne_of_calledVar (h : (machine fromStr emit).Reaches Machine.any initial s)
    {keys : List (List Byte)} (hhead : keys.head? = some []) {p : Nat} (hp : s.table.calledVar keys = some p) :
    s.table.namedVar keys ≠ some p := by
  intro hnamed
  rw [calledVar_eq (WellFormed.of_reaches h)] at hp
  by_cases hempty : joined keys = []
  · rw [if_pos hempty] at hp
    cases hp
  · rw [if_neg hempty] at hp
    have hlength := length_joined_lt hhead hempty
    rw [datas_inj h hp (datas_of_namedVar hnamed), List.length_map] at hlength
    omega

private theorem calledVar_eq_namedVar_iff_of_head (h : (machine fromStr emit).Reaches Machine.any initial s)
    {keys : List (List Byte)} (hhead : keys.head? = some []) : s.table.calledVar keys = s.table.namedVar keys ↔
      s.table.namedVar keys = none ∧ (joined keys = [] ∨ s.table.lookUpBase (joined keys) = none) := by
  have hcalled := calledVar_eq (WellFormed.of_reaches h) keys
  constructor
  · intro heq
    have hnone : s.table.calledVar keys = none := by
      cases hp : s.table.calledVar keys with
      | none => rfl
      | some p => exact absurd (heq.symm.trans hp) (namedVar_ne_of_calledVar h hhead hp)
    refine ⟨heq.symm.trans hnone, ?_⟩
    rw [hcalled] at hnone
    by_cases hempty : joined keys = []
    · exact .inl hempty
    · exact .inr ((if_neg hempty).symm.trans hnone)
  · rintro ⟨hnamed, hjoined⟩
    rw [hnamed, hcalled]
    by_cases hempty : joined keys = []
    · exact if_pos hempty
    · rw [if_neg hempty]
      exact hjoined.resolve_left hempty

omit [DecidableEq Ty] in
private theorem calledVar_eq_namedVar_iff_of_not_head (hwell : WellFormed s) {keys : List (List Byte)}
    (hhead : keys.head? ≠ some []) : s.table.calledVar keys = s.table.namedVar keys ↔
      (s.table.namedVar keys ≠ none → dotted keys ≠ [] ∧ (dotted keys).map toLower = dotted keys) := by
  have hcalled := calledVar_eq hwell keys
  rw [joined_eq_dotted hhead] at hcalled
  constructor
  · intro heq hne
    obtain ⟨p, hp⟩ := Option.ne_none_iff_exists'.1 hne
    rw [hcalled, hp] at heq
    by_cases hempty : dotted keys = []
    · rw [if_pos hempty] at heq
      cases heq
    · rw [if_neg hempty] at heq
      exact ⟨hempty, (valid_of_datas hwell heq).2.1⟩
  · intro hplain
    rw [hcalled]
    cases hnamed : s.table.namedVar keys with
    | none =>
      by_cases hempty : dotted keys = []
      · exact if_pos hempty
      · rw [if_neg hempty]
        cases hp : s.table.datas (dotted keys) with
        | none => rfl
        | some p =>
          rw [namedVar_of_datas hwell hp] at hnamed
          cases hnamed
    | some p =>
      obtain ⟨hempty, hlower⟩ := hplain (by simp [hnamed])
      rw [if_neg hempty, ← datas_of_namedVar hnamed, hlower]

/-- A node is called for the variable that it names just if the path is as it should be. -/
private theorem calledVar_eq_namedVar_iff (h : (machine fromStr emit).Reaches Machine.any initial s)
    (keys : List (List Byte)) : s.table.calledVar keys = s.table.namedVar keys ↔
      (s.table.namedVar keys ≠ none → dotted keys ≠ [] ∧ (dotted keys).map toLower = dotted keys) ∧
        (keys.head? = some [] →
          s.table.namedVar keys = none ∧ (joined keys = [] ∨ s.table.lookUpBase (joined keys) = none)) := by
  by_cases hhead : keys.head? = some []
  · rw [calledVar_eq_namedVar_iff_of_head h hhead]
    constructor
    · rintro ⟨hnamed, hjoined⟩
      exact ⟨fun hne => absurd hnamed hne, fun _ => ⟨hnamed, hjoined⟩⟩
    · rintro ⟨-, hnone⟩
      exact hnone hhead
  · rw [calledVar_eq_namedVar_iff_of_not_head (WellFormed.of_reaches h) hhead]
    constructor
    · exact fun hplain => ⟨hplain, fun hempty => absurd hempty hhead⟩
    · exact fun hplain => hplain.1

/-- The nodes are chosen by what is called for each of them. -/
private theorem filterMap_eq_iff {α β : Type} {f g : α → Option β} {l : List α} :
    (l.filterMap fun a => (f a).map fun b => (a, b)) = (l.filterMap fun a => (g a).map fun b => (a, b)) ↔
      ∀ a ∈ l, f a = g a := by
  constructor
  · intro heq a ha
    have hmem : ∀ b, (a, b) ∈ (l.filterMap fun a => (f a).map fun b => (a, b)) ↔
        (a, b) ∈ l.filterMap fun a => (g a).map fun b => (a, b) := fun b => by rw [heq]
    have hsome : ∀ b, f a = some b ↔ g a = some b := by
      intro b
      simpa [ha] using hmem b
    exact Option.ext hsome
  · intro h
    exact List.filterMap_congr fun a ha => by rw [h a ha]

/-- The loop calls `from_string` of the variables at the called nodes, one by one, and these are just the nodes that
name a variable, if and only if all such paths are plain.  A node with an invalid path takes nothing else with it than
what is below it. -/
theorem called_iff (h : (machine fromStr emit).Reaches Machine.any initial s) (root : Node) :
    s.table.loadFromYaml fromStr emit root =
        (s.table.loadCalls emit root).foldl (fun t c => t.fromString fromStr c.1 c.2) s.table ∧
      s.table.loadCalls emit root = (s.table.called root).map (fun c => (c.2, c.1.2.value emit)) ∧
      (s.table.called root = s.table.named root ↔ s.table.Plain root) ∧
      ∀ pre key, prefixInvalid (join pre key) = true → ∀ (before : Entries) (node : Node) (behind : Entries),
        listEntries pre (before.append (.cons key node behind)) = listEntries pre (before.append behind) := by
  refine ⟨loadFromYaml_eq root, loadCalls_eq root, ?_, ?_⟩
  · unfold Table.called Table.named Table.Plain
    rw [filterMap_eq_iff]
    exact forall₂_congr fun m _ => calledVar_eq_namedVar_iff h m.1
  · exact fun pre key hinvalid before node behind => listEntries_append_invalid hinvalid before node behind

end

/-! ### Capital letters -/

-- `"port"` and `"Port"`
private def port : List Byte := [112, 111, 114, 116]

private def capitalPort : List Byte := [80, 111, 114, 116]

private def portTable : List (Event fun _ : Unit => List Byte) := [.lookUp () port []]

/-- A tree with one entry. -/
private def entry (key : List Byte) : Node := .map (.cons key (.scalar [55]) .nil)

/-- The key `Port` names the variable `port`, and nothing is called for it. -/
theorem not_called_capitalPort : ∃ s : State fun _ : Unit => List Byte,
    (machine (fun _ => some) Node.text).Reaches Machine.any initial s ∧ s.table.lookUpBase port = some 0 ∧
      s.table.called (entry capitalPort) ≠ s.table.named (entry capitalPort) := by
  obtain ⟨s, hreach, hport, hcalled, hnamed⟩ : ∃ s : State fun _ : Unit => List Byte,
      (machine (fun _ => some) Node.text).Reaches Machine.any initial s ∧ s.table.lookUpBase port = some 0 ∧
        (s.table.called (entry capitalPort)).length = 0 ∧ (s.table.named (entry capitalPort)).length = 1 :=
    Machine.exists_reaches_of_run portTable (fun _ _ _ => trivial) (by decide +kernel)
  refine ⟨s, hreach, hport, fun heq => ?_⟩
  rw [heq, hnamed] at hcalled
  cases hcalled

theorem called_iff_port : ∃ s : State fun _ : Unit => List Byte,
    (machine (fun _ => some) Node.text).Reaches Machine.any initial s ∧ (s.table.called (entry port)).length = 1 ∧
      (s.table.called (entry port) = s.table.named (entry port) ↔ s.table.Plain (entry port)) := by
  obtain ⟨s, hreach, hlength⟩ : ∃ s : State fun _ : Unit => List Byte,
      (machine (fun _ => some) Node.text).Reaches Machine.any initial s ∧
        (s.table.called (entry port)).length = 1 :=
    Machine.exists_reaches_of_run portTable (fun _ _ _ => trivial) (by decide +kernel)
  exact ⟨s, hreach, hlength, (called_iff hreach (entry port)).2.2.1⟩

end Config

end AcidCompute
