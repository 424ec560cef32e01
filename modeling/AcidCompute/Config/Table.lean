import AcidCompute.Base.ByteOrder
import AcidCompute.Base.Machine
import AcidCompute.Base.Text
import Mathlib.Logic.Function.Basic

/-!
# The table of variables (`Config` in `acid/common/config.{h,cpp}`)

Variables of many types are kept in one table by their names.  `look_up<T>(name)` answers with a null pointer if there
is no variable of that name, and also if there is one of another type, so that `look_up` with a default value cannot
tell the two apart.

The variable that was registered first stays in the table as long as every call asks for the type that is there
(`Config.first_iff_of_reaches`).
-/

namespace AcidCompute

namespace Config

mutual

/-- A `YAML::Node`.  The key of an entry is given by its scalar, which is empty for a key that is no scalar. -/
inductive Node
  | null
  | scalar (text : List Byte)
  | sequence (items : Items)
  | map (entries : Entries)

inductive Items
  | nil
  | cons (node : Node) (rest : Items)

inductive Entries
  | nil
  | cons (key : List Byte) (node : Node) (rest : Entries)

end

-- `IsScalar()`
def Node.isScalar : Node → Bool
  | .scalar _ => true
  | _ => false

-- `Scalar()`
def Node.text : Node → List Byte
  | .scalar text => text
  | _ => []

/-- `name.find_first_not_of(chars) != std::string::npos` -/
def hasOther (chars : String) (name : List Byte) : Bool :=
  name.any fun c => c ∉ chars.toList.map fun a => BitVec.ofNat 8 a.toNat

def nameInvalid (name : List Byte) : Bool := hasOther "abcdefghijklmnopqrstuvwxyz._0123456789" name

mutual

/-- `list_all_members(prefix, node, output)` -/
def listAllMembers (pre : List Byte) : Node → List (List Byte × Node)
  | .map entries =>
    if hasOther "qazxswedcvfrtgbnhyujmkiolp._0123456789" pre then []
    else (pre, .map entries) :: listEntries pre entries
  | node => if hasOther "qazxswedcvfrtgbnhyujmkiolp._0123456789" pre then [] else [(pre, node)]

def listEntries (pre : List Byte) : Entries → List (List Byte × Node)
  | .nil => []
  | .cons key node rest =>
    listAllMembers (if pre = [] then key else pre ++ [46] ++ key) node ++ listEntries pre rest

end

variable {Ty : Type} {Value : Ty → Type}

/-- A `ConfigVar<T>`, of which the table has a pointer to its base. -/
structure Var (Value : Ty → Type) where
  type : Ty
  name : List Byte
  val : Value type

/-- The variables that have been created, which pointers number, and the table `s_datas`. -/
structure Table (Value : Ty → Type) where
  vars : List (Var Value)
  datas : List Byte → Option Nat

def Table.empty : Table Value := ⟨[], fun _ => none⟩

namespace Table

-- `look_up<T>(name)`; a pointer to a variable of another type is cast to null
def find [DecidableEq Ty] (t : Table Value) (T : Ty) (name : List Byte) : Option Nat :=
  (t.datas name).filter fun p => (t.vars[p]?.map Var.type) = some T

/-- `look_up<T>(name, value, description)`: the exception carries the name.  The description is dropped by the
constructor of the variable. -/
def lookUp [DecidableEq Ty] (t : Table Value) (T : Ty) (name : List Byte) (value : Value T) :
    Except (List Byte) (Nat × Table Value) :=
  match t.find T name with
  | some p => .ok (p, t)
  | none =>
    if nameInvalid name then .error name
    else .ok (t.vars.length,
      ⟨t.vars ++ [⟨T, name, value⟩], Function.update t.datas name (some t.vars.length)⟩)

def lookUpBase (t : Table Value) (name : List Byte) : Option Nat := t.datas name

variable (fromStr : (T : Ty) → List Byte → Option (Value T))

/-- `from_string(val)` of a variable; `FromStr` throws for `none`.  Storing the value that is there changes nothing. -/
def fromString (t : Table Value) (p : Nat) (val : List Byte) : Table Value :=
  { t with vars := t.vars.modify p fun v => { v with val := (fromStr v.type val).getD v.val } }

variable (emit : Node → List Byte)

/-- The body of the loop in `load_from_yaml`; `emit` is what a node prints as. -/
def loadNode (t : Table Value) (node : List Byte × Node) : Table Value :=
  if node.1 = [] then t
  else match t.lookUpBase (node.1.map toLower) with
    | none => t
    | some var => t.fromString fromStr var (if node.2.isScalar then node.2.text else emit node.2)

def loadFromYaml (t : Table Value) (root : Node) : Table Value :=
  (listAllMembers [] root).foldl (loadNode fromStr emit) t

end Table

/-! ### Runs -/

/-- A table, with the variable that was registered first under each name. -/
structure State (Value : Ty → Type) where
  table : Table Value
  first : List Byte → Option Nat

inductive Event (Value : Ty → Type)
  | lookUp (T : Ty) (name : List Byte) (value : Value T)
  | loadFromYaml (root : Node)

def initial : State Value := ⟨Table.empty, fun _ => none⟩

variable [DecidableEq Ty] (fromStr : (T : Ty) → List Byte → Option (Value T)) (emit : Node → List Byte)

/-- The call of `look_up` throws, or returns a variable, which is the first under its name if there was none. -/
def State.afterLookUp (s : State Value) (name : List Byte) : Except (List Byte) (Nat × Table Value) → State Value
  | .error _ => s
  | .ok (p, table) => ⟨table, Function.update s.first name ((s.first name).or (some p))⟩

def next (s : State Value) : Event Value → State Value
  | .lookUp T name value => s.afterLookUp name (s.table.lookUp T name value)
  | .loadFromYaml root => { s with table := s.table.loadFromYaml fromStr emit root }

def machine : Machine (State Value) (Event Value) where
  start := initial
  step s e := some (next fromStr emit s e)

/-- A call asks for the type of the variable that is in the table. -/
def SameType (s : State Value) : Event Value → Prop
  | .lookUp T name _ => ∀ p, s.table.datas name = some p → (s.table.vars[p]?.map Var.type) = some T
  | .loadFromYaml _ => True

/-- What holds in every state of a run. -/
structure WellFormed (s : State Value) : Prop where
  stored : ∀ name p, s.table.datas name = some p → p < s.table.vars.length
  first_lt : ∀ name p, s.first name = some p → p < s.table.vars.length
  none_iff : ∀ name, s.first name = none ↔ s.table.datas name = none
  valid : ∀ name p, s.table.datas name = some p → nameInvalid name = false

/-- The variable in the table is the first of its name. -/
def Kept (s : State Value) : Prop := ∀ name, s.table.lookUpBase name = s.first name

/-! ### What a file changes -/

section

omit [DecidableEq Ty]

variable {fromStr : (T : Ty) → List Byte → Option (Value T)} {emit : Node → List Byte} {t : Table Value}

@[simp] private theorem fromString_vars (p : Nat) (val : List Byte) :
    (t.fromString fromStr p val).vars =
      t.vars.modify p fun v => { v with val := (fromStr v.type val).getD v.val } := rfl

variable (fromStr emit t) in
/-- A node changes at most the value of the variable with its name. -/
private theorem loadNode_frame (node : List Byte × Node) :
    (t.loadNode fromStr emit node).datas = t.datas ∧
      (t.loadNode fromStr emit node).vars.map Var.type = t.vars.map Var.type ∧
      ∀ p, (∀ name, t.datas name ≠ some p) → (t.loadNode fromStr emit node).vars[p]? = t.vars[p]? := by
  unfold Table.loadNode
  by_cases hempty : node.1 = []
  · simp [hempty]
  · rw [if_neg hempty]
    cases hbase : t.lookUpBase (node.1.map toLower) with
    | none => exact ⟨rfl, rfl, fun _ _ => rfl⟩
    | some q =>
      refine ⟨rfl, ?_, ?_⟩
      · apply List.ext_getElem?
        intro i
        simp only [fromString_vars, List.getElem?_map, List.getElem?_modify]
        by_cases hi : q = i
        · cases t.vars[i]? <;> simp [hi]
        · cases t.vars[i]? <;> simp [hi]
      · intro p hp
        have hne : q ≠ p := by
          rintro rfl
          exact hp _ hbase
        simp [hne]

/-- The characters of a name are written in two orders, and there are no capitals. -/
private theorem mem_characters :
    ∀ c ∈ "abcdefghijklmnopqrstuvwxyz._0123456789".toList.map (fun a => BitVec.ofNat 8 a.toNat),
    c ∈ "qazxswedcvfrtgbnhyujmkiolp._0123456789".toList.map (fun a => BitVec.ofNat 8 a.toNat) ∧ toLower c = c := by
  decide +kernel

theorem hasOther_eq_false_iff {chars : String} {name : List Byte} :
    hasOther chars name = false ↔ ∀ c ∈ name, c ∈ chars.toList.map fun a => BitVec.ofNat 8 a.toNat := by
  simp [hasOther]

/-- A name that `look_up` takes is a key for `load_from_yaml`, as it is. -/
theorem key_of_valid {name : List Byte} (h : nameInvalid name = false) :
    hasOther "qazxswedcvfrtgbnhyujmkiolp._0123456789" name = false ∧ name.map toLower = name := by
  have hchars := hasOther_eq_false_iff.1 h
  constructor
  · exact hasOther_eq_false_iff.2 fun c hc => (mem_characters c (hchars c hc)).1
  · conv => rhs; rw [← List.map_id name]
    apply List.map_congr_left
    exact fun c hc => (mem_characters c (hchars c hc)).2

/-- A file with one entry sets the variable in the table. -/
theorem loadFromYaml_entry {name : List Byte} (hvalid : nameInvalid name = false) (hne : name ≠ []) {p : Nat}
    (hp : t.datas name = some p) (text : List Byte) :
    t.loadFromYaml fromStr emit (.map (.cons name (.scalar text) .nil)) = t.fromString fromStr p text := by
  obtain ⟨hkey, hlower⟩ := key_of_valid hvalid
  have hempty : hasOther "qazxswedcvfrtgbnhyujmkiolp._0123456789" [] = false := rfl
  simp [Table.loadFromYaml, listAllMembers, listEntries, hempty, hkey, Table.loadNode, hne, Table.lookUpBase, hlower,
    hp, Node.isScalar, Node.text]

variable (fromStr emit t) in
/-- A file changes values only, and those of the variables in the table. -/
theorem loadFromYaml_frame (root : Node) :
    (t.loadFromYaml fromStr emit root).datas = t.datas ∧
      (t.loadFromYaml fromStr emit root).vars.map Var.type = t.vars.map Var.type ∧
      ∀ p, (∀ name, t.datas name ≠ some p) → (t.loadFromYaml fromStr emit root).vars[p]? = t.vars[p]? := by
  unfold Table.loadFromYaml
  induction listAllMembers [] root generalizing t with
  | nil => exact ⟨rfl, rfl, fun _ _ => rfl⟩
  | cons node nodes ih =>
    obtain ⟨hdatas, htypes, hothers⟩ := loadNode_frame fromStr emit t node
    obtain ⟨hdatas', htypes', hothers'⟩ := ih (t.loadNode fromStr emit node)
    refine ⟨hdatas'.trans hdatas, htypes'.trans htypes, ?_⟩
    intro p hp
    refine (hothers' p ?_).trans (hothers p hp)
    rwa [hdatas]

end

/-! ### What a call changes -/

variable {fromStr : (T : Ty) → List Byte → Option (Value T)} {emit : Node → List Byte} {s s' : State Value}

/-- A variable is created, and takes the place in the table. -/
def State.register (s : State Value) (v : Var Value) : State Value :=
  ⟨⟨s.table.vars ++ [v], Function.update s.table.datas v.name (some s.table.vars.length)⟩,
    Function.update s.first v.name ((s.first v.name).or (some s.table.vars.length))⟩

section

omit [DecidableEq Ty]

variable {v : Var Value}

@[simp] theorem register_vars : (s.register v).table.vars = s.table.vars ++ [v] := rfl

@[simp] theorem register_datas :
    (s.register v).table.datas = Function.update s.table.datas v.name (some s.table.vars.length) := rfl

@[simp] theorem register_first : (s.register v).first =
    Function.update s.first v.name ((s.first v.name).or (some s.table.vars.length)) := rfl

end

variable (fromStr emit) in
/-- A call leaves everything as it is, or creates a variable when it finds none of its type. -/
theorem next_lookUp (h : WellFormed s) (T : Ty) (name : List Byte) (value : Value T) :
    (next fromStr emit s (.lookUp T name value) = s ∧
        (s.table.find T name ≠ none ∨ nameInvalid name = true)) ∨
      (s.table.find T name = none ∧ nameInvalid name = false ∧
        next fromStr emit s (.lookUp T name value) = s.register ⟨T, name, value⟩) := by
  show (s.afterLookUp name (s.table.lookUp T name value) = s ∧ _) ∨
    (_ ∧ _ ∧ s.afterLookUp name (s.table.lookUp T name value) = _)
  cases hfind : s.table.find T name with
  | some p =>
    have hcall : s.table.lookUp T name value = .ok (p, s.table) := by simp [Table.lookUp, hfind]
    refine .inl ⟨?_, .inl (by simp)⟩
    have hstored : s.table.datas name = some p := (Option.filter_eq_some_iff.1 hfind).1
    have hfirst : s.first name ≠ none := by
      rw [Ne, h.none_iff name, hstored]
      simp
    obtain ⟨q, hq⟩ := Option.ne_none_iff_exists'.1 hfirst
    rw [hcall]
    show (⟨s.table, Function.update s.first name ((s.first name).or (some p))⟩ : State Value) = s
    have hor : (s.first name).or (some p) = s.first name := by rw [hq]; rfl
    rw [hor, Function.update_eq_self]
  | none =>
    cases hvalid : nameInvalid name with
    | true =>
      have hcall : s.table.lookUp T name value = .error name := by simp [Table.lookUp, hfind, hvalid]
      rw [hcall]
      exact .inl ⟨rfl, .inr rfl⟩
    | false =>
      refine .inr ⟨rfl, rfl, ?_⟩
      simp only [Table.lookUp, hfind, hvalid, Bool.false_eq_true, if_false]
      rfl

omit [DecidableEq Ty] in
theorem WellFormed.initial : WellFormed (initial : State Value) where
  stored name p h := by cases h
  first_lt name p h := by cases h
  none_iff name := by simp [Config.initial, Table.empty]
  valid name p h := by cases h

omit [DecidableEq Ty] in
theorem WellFormed.register (h : WellFormed s) {v : Var Value} (hvalid : nameInvalid v.name = false) :
    WellFormed (s.register v) := by
  constructor
  case stored =>
    intro name p hp
    rw [register_vars, List.length_append]
    by_cases hname : name = v.name
    · subst hname
      rw [register_datas, Function.update_self, Option.some.injEq] at hp
      simp [← hp]
    · rw [register_datas, Function.update_of_ne hname] at hp
      exact Nat.lt_add_right _ (h.stored name p hp)
  case first_lt =>
    intro name p hp
    rw [register_vars, List.length_append]
    by_cases hname : name = v.name
    · subst hname
      rw [register_first, Function.update_self, Option.or_eq_some_iff] at hp
      rcases hp with hold | ⟨-, hnew⟩
      · exact Nat.lt_add_right _ (h.first_lt _ p hold)
      · rw [Option.some.injEq] at hnew
        simp [← hnew]
    · rw [register_first, Function.update_of_ne hname] at hp
      exact Nat.lt_add_right _ (h.first_lt name p hp)
  case none_iff =>
    intro name
    by_cases hname : name = v.name
    · subst hname
      simp
    · rw [register_first, register_datas, Function.update_of_ne hname, Function.update_of_ne hname]
      exact h.none_iff name
  case valid =>
    intro name p hp
    by_cases hname : name = v.name
    · rwa [hname]
    · rw [register_datas, Function.update_of_ne hname] at hp
      exact h.valid name p hp

theorem WellFormed.next (h : WellFormed s) (e : Event Value) : WellFormed (next fromStr emit s e) := by
  cases e with
  | lookUp T name value =>
    rcases next_lookUp fromStr emit h T name value with
      ⟨heq, -⟩ | ⟨-, hvalid, heq⟩
    · rwa [heq]
    · rw [heq]
      exact h.register hvalid
  | loadFromYaml root =>
    obtain ⟨hdatas, htypes, -⟩ := loadFromYaml_frame fromStr emit s.table root
    have hlength := congrArg List.length htypes
    rw [List.length_map, List.length_map] at hlength
    unfold Config.next
    constructor
    case stored =>
      intro name p hp
      show p < (s.table.loadFromYaml fromStr emit root).vars.length
      rw [hlength]
      exact h.stored name p (hdatas ▸ hp)
    case first_lt =>
      intro name p hp
      show p < (s.table.loadFromYaml fromStr emit root).vars.length
      rw [hlength]
      exact h.first_lt name p hp
    case none_iff =>
      intro name
      show s.first name = none ↔ (s.table.loadFromYaml fromStr emit root).datas name = none
      rw [hdatas]
      exact h.none_iff name
    case valid => exact fun name p hp => h.valid name p (hdatas ▸ hp)

theorem WellFormed.of_reaches (h : (machine fromStr emit).Reaches Machine.any Config.initial s) : WellFormed s := by
  refine h.invariant ?_ WellFormed.initial
  intro t e t' ht _ hstep
  cases hstep
  exact ht.next e

/-! ### The first variable of a name -/

omit [DecidableEq Ty] in
/-- A new variable replaces one that was there, or is the first of its name. -/
private theorem kept_register_iff (h : WellFormed s) {v : Var Value} :
    Kept (s.register v) ↔ Kept s ∧ s.table.datas v.name = none := by
  constructor
  · intro hkept
    have hfirst : s.first v.name = none := by
      rcases Option.eq_none_or_eq_some (s.first v.name) with hnone | ⟨q, hq⟩
      · exact hnone
      · have heq : some s.table.vars.length = some q := by simpa [Table.lookUpBase, hq] using hkept v.name
        have hlt := h.first_lt _ q hq
        rw [Option.some.injEq] at heq
        omega
    have hnone := (h.none_iff _).1 hfirst
    refine ⟨?_, hnone⟩
    intro name
    by_cases hname : name = v.name
    · subst hname
      exact hnone.trans hfirst.symm
    · simpa [Table.lookUpBase, Function.update_of_ne hname] using hkept name
  · rintro ⟨hkept, hnone⟩ name
    by_cases hname : name = v.name
    · subst hname
      simp [Table.lookUpBase, (h.none_iff _).2 hnone]
    · simpa [Table.lookUpBase, Function.update_of_ne hname] using hkept name

/-- A call of the right type finds the variable that is there. -/
private theorem datas_eq_none_of_find {T : Ty} {name : List Byte} (hfind : s.table.find T name = none)
    (htype : ∀ p, s.table.datas name = some p → (s.table.vars[p]?.map Var.type) = some T) :
    s.table.datas name = none := by
  rcases Option.eq_none_or_eq_some (s.table.datas name) with hnone | ⟨p, hp⟩
  · exact hnone
  · have hfound : s.table.find T name = some p :=
      Option.filter_eq_some_iff.2 ⟨hp, decide_eq_true (htype p hp)⟩
    rw [hfind] at hfound
    cases hfound

/-- A step keeps the first variables in the table if and only if it asks for the type that is there. -/
theorem kept_next_iff (h : WellFormed s) (e : Event Value) :
    Kept (next fromStr emit s e) ↔ Kept s ∧ SameType s e := by
  cases e with
  | lookUp T name value =>
    rcases next_lookUp fromStr emit h T name value with
      ⟨heq, hcase⟩ | ⟨hfind, -, heq⟩
    · rw [heq]
      refine (and_iff_left ?_).symm
      intro p hp
      rcases hcase with hfound | hinvalid
      · obtain ⟨q, hq⟩ := Option.ne_none_iff_exists'.1 hfound
        obtain ⟨hstored, htype⟩ := Option.filter_eq_some_iff.1 hq
        rw [hp, Option.some.injEq] at hstored
        subst hstored
        exact of_decide_eq_true htype
      · rw [h.valid name p hp] at hinvalid
        cases hinvalid
    · rw [heq, kept_register_iff h]
      refine and_congr_right fun _ => ?_
      constructor
      · intro hnone p hp
        exact absurd (hp.symm.trans hnone) (by simp)
      · exact datas_eq_none_of_find hfind
  | loadFromYaml root =>
    obtain ⟨hdatas, -, -⟩ := loadFromYaml_frame fromStr emit s.table root
    show (∀ name, (s.table.loadFromYaml fromStr emit root).datas name = s.first name) ↔ Kept s ∧ True
    rw [hdatas, and_true]
    rfl

/-- The first variables are in the table just after the runs in which every call asks for the type that is there, and
then they are what a file sets. -/
theorem first_iff_of_reaches (h : (machine fromStr emit).Reaches Machine.any initial s) :
    ((∀ name, s.table.lookUpBase name = s.first name) ↔ (machine fromStr emit).Reaches SameType initial s) ∧
      ((machine fromStr emit).Reaches SameType initial s →
        (∀ root p, (∀ name, s.first name ≠ some p) →
          (s.table.loadFromYaml fromStr emit root).vars[p]? = s.table.vars[p]?) ∧
        ∀ name p text, name ≠ [] → s.first name = some p →
          s.table.loadFromYaml fromStr emit (.map (.cons name (.scalar text) .nil)) =
            s.table.fromString fromStr p text) := by
  have hiff : Kept s ↔ (machine fromStr emit).Reaches SameType initial s := by
    constructor
    · induction h with
      | refl => exact fun _ => Machine.Reaches.refl
      | @tail t t' hreach hmove ih =>
        obtain ⟨e, -, hstep⟩ := hmove
        have hnext : next fromStr emit t e = t' := Option.some.inj hstep
        intro hkept
        rw [← hnext, kept_next_iff (WellFormed.of_reaches hreach)] at hkept
        exact (ih hkept.1).trans (Machine.Reaches.single hkept.2 hstep)
    · intro hallowed
      have hinv : WellFormed s ∧ Kept s := by
        refine hallowed.invariant (I := fun t => WellFormed t ∧ Kept t) ?_ ⟨WellFormed.initial, fun _ => rfl⟩
        rintro t e t' ⟨hwell, hkept⟩ htype hstep
        cases hstep
        exact ⟨hwell.next e, (kept_next_iff hwell e).2 ⟨hkept, htype⟩⟩
      exact hinv.2
  refine ⟨hiff, fun hallowed => ⟨?_, ?_⟩⟩
  · intro root p hp
    refine (loadFromYaml_frame fromStr emit s.table root).2.2 p ?_
    intro name hname
    exact hp name ((hiff.2 hallowed name).symm.trans hname)
  · intro name p text hne hp
    have hstored : s.table.datas name = some p := (hiff.2 hallowed name).trans hp
    exact loadFromYaml_entry ((WellFormed.of_reaches h).valid name p hstored) hne hstored text

/-- Two types of numbers, of which the first takes one digit. -/
private def digit (T : Bool) (text : List Byte) : Option Nat :=
  match T, text with
  | false, [c] => if 48 ≤ c ∧ c ≤ 57 then some (c.toNat - 48) else none
  | _, _ => some text.length

private def print (_ : Node) : List Byte := []

/-- `name` is registered with the first type, and then asked for with the second type. -/
private def twoTypes : List (Event fun _ : Bool => Nat) :=
  [.lookUp false [110, 97, 109, 101] 5, .loadFromYaml (.map (.cons [110, 97, 109, 101] (.scalar [55]) .nil)),
    .lookUp true [110, 97, 109, 101] 6]

theorem exists_replaced_twoTypes : ∃ s : State fun _ : Bool => Nat,
    (machine digit print).Reaches Machine.any initial s ∧ s.first [110, 97, 109, 101] = some 0 ∧
      s.table.lookUpBase [110, 97, 109, 101] = some 1 :=
  Machine.exists_reaches_of_run twoTypes (fun _ _ _ => trivial) (by decide +kernel)

/-- Before that the file sets the variable. -/
theorem first_iff_of_reaches_twoTypes : ∃ s : State fun _ : Bool => Nat,
    (machine digit print).Reaches Machine.any initial s ∧ s.first [110, 97, 109, 101] = some 0 ∧
      ((∀ name, s.table.lookUpBase name = s.first name) ↔ (machine digit print).Reaches SameType initial s) := by
  obtain ⟨s, hreach, hfirst⟩ : ∃ s : State fun _ : Bool => Nat,
      (machine digit print).Reaches Machine.any initial s ∧ s.first [110, 97, 109, 101] = some 0 :=
    Machine.exists_reaches_of_run (twoTypes.take 2) (fun _ _ _ => trivial) (by decide +kernel)
  exact ⟨s, hreach, hfirst, (first_iff_of_reaches hreach).1⟩

end Config

end AcidCompute
