import AcidCompute.Base.Collection
import AcidCompute.Base.Text
import AcidCompute.Config.LexicalCast
import AcidCompute.Config.Table

/-!
# Values of variables as text (`LexicalCast` in `acid/common/config.h`)

The text of a container is YAML.  The text of an element is parsed as a node, which is put into the node of the
container, and the element is read from what its node is printed as.

A container comes back from its text if its strings are printed as they were parsed and there is no `bool` in it: a
`bool` is written as a number and read as a word (`LexicalCast.fromString_toStr_iff`).

The conversions of `std::set` and `std::unordered_set` do not compile, and are left out; nor does that of a vector of
`bool` to a text.
-/

namespace AcidCompute

/-- `std::stoi(str)` and `std::stol(str)` for numbers of `w` bits, which throw where nothing is returned:
`std::invalid_argument` without a digit, and `std::out_of_range` for a number that does not fit. -/
def stol (w : Nat) (str : List Byte) : Option (BitVec w) :=
  let number := splitSign (str.dropWhile isSpace)
  let digits := number.2.takeWhile (isDigit 10)
  let value : Int := if number.1 then -(valueOf 10 digits : Int) else valueOf 10 digits
  if digits = [] then none
  else if (BitVec.ofInt w value).toInt = value then some (BitVec.ofInt w value)
  else none

namespace Converter

/-- `Converter<int>::convert` -/
def int (str : List Byte) : Option (BitVec 32) := stol 32 str

/-- `Converter<long>::convert` -/
def long (str : List Byte) : Option (BitVec 64) := stol 64 str

/-- `Converter<bool, std::string>::convert`: `detail::convert` of a C string, which throws where nothing is returned. -/
def bool (str : List Byte) : Option Bool :=
  let text := str.takeWhile fun c => c ≠ 0
  if text = bytes "true" then some true else if text = bytes "false" then some false else none

end Converter

namespace LexicalCast

open Config (Items Entries)

/-- `YAML::Load`, which may throw, and `ss << node`. -/
structure Yaml where
  load : List Byte → Option Config.Node
  emit : Config.Node → List Byte
  -- the text of a `YAML::Node node` that nothing has been put into
  absent : List Byte
  -- that of a node that is not valid, if it is printed at all
  invalid : Option (List Byte)

/-! ### Sequences and maps -/

-- `std::string`
def stringOrder : Comparison (List Byte) := .list (.ofKey fun c : Byte => some c.toNat)

/-- The entries of maps, compared by their keys. -/
def keyOrder (α : Type) : Comparison (List Byte × α) := stringOrder.on Prod.fst

def toItems : List Config.Node → Items
  | [] => .nil
  | node :: nodes => .cons node (toItems nodes)

def ofItems : Items → List Config.Node
  | .nil => []
  | .cons node rest => node :: ofItems rest

def toEntries : List (List Byte × Config.Node) → Entries
  | [] => .nil
  | entry :: entries => .cons entry.1 entry.2 (toEntries entries)

def ofEntries : Entries → List (List Byte × Config.Node)
  | .nil => []
  | .cons key node rest => (key, node) :: ofEntries rest

@[simp] theorem ofItems_toItems (nodes : List Config.Node) : ofItems (toItems nodes) = nodes := by
  induction nodes with
  | nil => rfl
  | cons node nodes ih => rw [toItems, ofItems, ih]

@[simp] theorem ofEntries_toEntries (entries : List (List Byte × Config.Node)) :
    ofEntries (toEntries entries) = entries := by
  induction entries with
  | nil => rfl
  | cons entry entries ih => rw [toEntries, ofEntries, ih]

/-- The node after these calls of `push_back`; it is null before the first one. -/
def sequenceNode : List Config.Node → Config.Node
  | [] => .null
  | node :: nodes => .sequence (toItems (node :: nodes))

/-- The node after these assignments to `node[key]`, with different keys. -/
def mapNode : List (List Byte × Config.Node) → Config.Node
  | [] => .null
  | entry :: entries => .map (toEntries (entry :: entries))

namespace Yaml

variable (y : Yaml) {α : Type}

def printSequence : List Config.Node → List Byte
  | [] => y.absent
  | node :: nodes => y.emit (sequenceNode (node :: nodes))

def printMap : List (List Byte × Config.Node) → List Byte
  | [] => y.absent
  | entry :: entries => y.emit (mapNode (entry :: entries))

/-- What `ss << item` prints for the items of a node; those of a map are no valid nodes. -/
def itemTexts : Config.Node → Option (List (List Byte))
  | .sequence items => some ((ofItems items).map y.emit)
  | .map entries => (ofEntries entries).mapM fun _ => y.invalid
  | _ => some []

/-- `item.first.Scalar()` and what `ss << item.second` prints; the items of a sequence have no valid key. -/
def entryTexts : Config.Node → Option (List (List Byte × List Byte))
  | .map entries => some ((ofEntries entries).map fun entry => (entry.1, y.emit entry.2))
  | .sequence (.cons _ _) => none
  | _ => some []

/-- The loops over the elements of a vector or a list. -/
def writeItems (toStr : α → Option (List Byte)) (val : List α) : Option (List Byte) :=
  (val.mapM fun item => (toStr item).bind y.load).map y.printSequence

def readItems (fromStr : List Byte → Option α) (str : List Byte) : Option (List α) :=
  ((y.load str).bind y.itemTexts).bind fun texts => texts.mapM fromStr

/-- The loops over the entries of a map. -/
def writeEntries (toStr : α → Option (List Byte)) (val : List (List Byte × α)) : Option (List Byte) :=
  (val.mapM fun item => ((toStr item.2).bind y.load).map fun node => (item.1, node)).map y.printMap

def readEntries (fromStr : List Byte → Option α) (str : List Byte) : Option (List (List Byte × α)) :=
  ((y.load str).bind y.entryTexts).bind fun texts =>
    texts.mapM fun item => (fromStr item.2).map fun value => (item.1, value)

def readMap {d : Discipline} (fromStr : List Byte → Option α) (str : List Byte) : Option (Collection d (keyOrder α)) :=
  (y.readEntries fromStr str).bind fun entries => Collection.empty.refill entries

end Yaml

/-! ### The conversions -/

/-- The types of variables. -/
inductive VarType
  | string
  | bool
  | int
  | long
  | unsignedInt
  | unsignedLong
  | vector (elem : VarType)
  | list (elem : VarType)
  | map (elem : VarType)
  | unorderedMap (elem : VarType)
  deriving DecidableEq, Repr

def VarType.Val : VarType → Type
  | .string => List Byte
  | .bool => Bool
  | .int => BitVec 32
  | .long => BitVec 64
  | .unsignedInt => BitVec 32
  | .unsignedLong => BitVec 64
  | .vector elem => List elem.Val
  | .list elem => List elem.Val
  | .map elem => Collection .ordered (keyOrder elem.Val)
  | .unorderedMap elem => Collection .unordered (keyOrder elem.Val)

private def decideItems {α : Type} {d : Discipline} {C : Comparison α} [DecidableEq α] : DecidableEq (Collection d C) :=
  fun a b => decidable_of_iff (a.items = b.items) Collection.ext_iff.symm

def VarType.decideVal : (T : VarType) → DecidableEq T.Val
  | .string => inferInstanceAs (DecidableEq (List Byte))
  | .bool => inferInstanceAs (DecidableEq Bool)
  | .int | .unsignedInt => inferInstanceAs (DecidableEq (BitVec 32))
  | .long | .unsignedLong => inferInstanceAs (DecidableEq (BitVec 64))
  | .vector elem | .list elem =>
    have := decideVal elem
    inferInstanceAs (DecidableEq (List elem.Val))
  | .map elem | .unorderedMap elem =>
    have := decideVal elem
    decideItems

instance (T : VarType) : DecidableEq T.Val := T.decideVal

-- `std::to_string` of a `bool`
def boolText (b : Bool) : List Byte := numeral 10 b.toNat

variable (y : Yaml)

/-- `LexicalCast<T, std::string>` -/
def toStr : (T : VarType) → T.Val → Option (List Byte)
  | .string, val => some val
  | .bool, val => some (boolText val)
  | .int, val => some (intText (BitVec.toInt val))
  | .long, val => some (intText (BitVec.toInt val))
  | .unsignedInt, val => some (numeral 10 (BitVec.toNat val))
  | .unsignedLong, val => some (numeral 10 (BitVec.toNat val))
  | .vector elem, val => y.writeItems (toStr elem) val
  | .list elem, val => y.writeItems (toStr elem) val
  | .map elem, val => y.writeEntries (toStr elem) (Collection.items val)
  | .unorderedMap elem, val => y.writeEntries (toStr elem) (Collection.items val)

/-- `LexicalCast<std::string, T>` -/
def fromStr : (T : VarType) → List Byte → Option T.Val
  | .string, str => some str
  | .bool, str => Converter.bool str
  | .int, str => Converter.int str
  | .long, str => Converter.long str
  | .unsignedInt, str => Converter.unsignedInt str
  | .unsignedLong, str => Converter.unsignedLong str
  | .vector elem, str => y.readItems (fromStr elem) str
  | .list elem, str => y.readItems (fromStr elem) str
  | .map elem, str => y.readMap (fromStr elem) str
  | .unorderedMap elem, str => y.readMap (fromStr elem) str

/-! ### What comes back -/

/-- The strings, flags and numbers that a value consists of. -/
inductive Leaf
  | string (text : List Byte)
  | bool (b : Bool)
  | number (n : Int)
  deriving DecidableEq, Repr

def leaves : (T : VarType) → T.Val → List Leaf
  | .string, v => [.string v]
  | .bool, v => [.bool v]
  | .int, v => [.number (BitVec.toInt v)]
  | .long, v => [.number (BitVec.toInt v)]
  | .unsignedInt, v => [.number (BitVec.toNat v)]
  | .unsignedLong, v => [.number (BitVec.toNat v)]
  | .vector elem, v => List.flatMap (leaves elem) v
  | .list elem, v => List.flatMap (leaves elem) v
  | .map elem, v => (Collection.items v).flatMap fun item => leaves elem item.2
  | .unorderedMap elem, v => (Collection.items v).flatMap fun item => leaves elem item.2

namespace Yaml

/-- A text is printed as it was when it has been parsed. -/
def Keeps (text : List Byte) : Prop := (y.load text).map y.emit = some text

/-- What comes back as an element of a container. -/
def Returns : Leaf → Prop
  | .string text => y.Keeps text
  | .bool _ => False
  | .number _ => True

/-- The text is read as the node, and so is what the node is printed as. -/
def Denotes (text : List Byte) (node : Config.Node) : Prop := y.load text = some node ∧ y.load (y.emit node) = some node

variable {α : Type}

/-- The text of a sequence denotes the sequence, and so do the texts in it. -/
def WritesItems (toStr : α → Option (List Byte)) (writes : α → Prop) (l : List α) : Prop :=
  (∀ nodes, (l.mapM fun item => (toStr item).bind y.load) = some nodes →
    y.Denotes (y.printSequence nodes) (sequenceNode nodes)) ∧ ∀ item ∈ l, writes item

/-- The text of a map denotes the map, and so do the texts in it. -/
def WritesEntries (toStr : α → Option (List Byte)) (writes : α → Prop) (l : List (List Byte × α)) : Prop :=
  (∀ entries, (l.mapM fun item => ((toStr item.2).bind y.load).map fun node => (item.1, node)) = some entries →
    y.Denotes (y.printMap entries) (mapNode entries)) ∧ ∀ item ∈ l, writes item.2

/-- The texts of numbers are kept, and those of containers denote them. -/
def Writes : (T : VarType) → T.Val → Prop
  | .string, _ => True
  | .bool, v => y.Keeps (boolText v)
  | .int, v => y.Keeps (intText (BitVec.toInt v))
  | .long, v => y.Keeps (intText (BitVec.toInt v))
  | .unsignedInt, v => y.Keeps (numeral 10 (BitVec.toNat v))
  | .unsignedLong, v => y.Keeps (numeral 10 (BitVec.toNat v))
  | .vector elem, v => y.WritesItems (toStr y elem) (Writes elem) v
  | .list elem, v => y.WritesItems (toStr y elem) (Writes elem) v
  | .map elem, v => y.WritesEntries (toStr y elem) (Writes elem) (Collection.items v)
  | .unorderedMap elem, v => y.WritesEntries (toStr y elem) (Writes elem) (Collection.items v)

/-- An element comes back from its node. -/
def ComesBack (toStr : α → Option (List Byte)) (fromStr : List Byte → Option α) (v : α) : Prop :=
  ((toStr v).bind y.load).bind (fun node => fromStr (y.emit node)) = some v

end Yaml

/-! ### Element by element -/

section

variable {α β γ κ : Type}

/-- A list comes back from two loops if each element does. -/
private theorem mapM_bind_mapM_iff {f : α → Option β} {g : β → Option α} {l : List α} :
    ((l.mapM f).bind fun l' => l'.mapM g) = some l ↔ ∀ x ∈ l, (f x).bind g = some x := by
  induction l with
  | nil => simp
  | cons x l ih =>
    rw [List.forall_mem_cons, ← ih, List.mapM_cons]
    cases hx : f x with
    | none => simp
    | some b =>
      cases hl : l.mapM f with
      | none => simp
      | some l' =>
        cases hg : g b with
        | none => simp [hg]
        | some x' => cases hrest : l'.mapM g <;> simp [hg, hrest]

/-- A loop that keeps the keys. -/
private theorem map_eq_of_mapM {f : α → Option β} {key : α → κ} {key' : β → κ}
    (h : ∀ x b, f x = some b → key' b = key x) {l : List α} {l' : List β} (hl : l.mapM f = some l') :
    l'.map key' = l.map key := by
  induction l generalizing l' with
  | nil =>
    cases hl
    rfl
  | cons x l ih =>
    rw [List.mapM_cons] at hl
    obtain ⟨b, hb, hl⟩ := Option.bind_eq_some_iff.1 hl
    obtain ⟨l₁, hl₁, hl⟩ := Option.bind_eq_some_iff.1 hl
    cases hl
    rw [List.map_cons, List.map_cons, h x b hb, ih hl₁]

variable {y : Yaml} {toStr : α → Option (List Byte)} {fromStr : List Byte → Option α} {writes : α → Prop}

private theorem readItems_of_load {str : List Byte} {nodes : List Config.Node}
    (h : y.load str = some (sequenceNode nodes)) :
    y.readItems fromStr str = nodes.mapM fun node => fromStr (y.emit node) := by
  rw [Yaml.readItems, h]
  cases nodes with
  | nil => rfl
  | cons node nodes =>
    rw [Option.bind_some, sequenceNode, Yaml.itemTexts, ofItems_toItems, Option.bind_some, List.mapM_map]
    rfl

private theorem readEntries_of_load {str : List Byte} {entries : List (List Byte × Config.Node)}
    (h : y.load str = some (mapNode entries)) :
    y.readEntries fromStr str =
      entries.mapM fun entry => (fromStr (y.emit entry.2)).map fun value => (entry.1, value) := by
  rw [Yaml.readEntries, h]
  cases entries with
  | nil => rfl
  | cons entry entries =>
    rw [Option.bind_some, mapNode, Yaml.entryTexts, ofEntries_toEntries, Option.bind_some, List.mapM_map]
    rfl

/-- The text of a sequence is read element by element, and so is what its node is printed as. -/
private theorem bind_readItems {l : List α} (h : y.WritesItems toStr writes l) :
    ((y.writeItems toStr l).bind (y.readItems fromStr) = some l ↔ ∀ item ∈ l, y.ComesBack toStr fromStr item) ∧
      (y.ComesBack (y.writeItems toStr) (y.readItems fromStr) l ↔ ∀ item ∈ l, y.ComesBack toStr fromStr item) := by
  unfold Yaml.ComesBack
  rw [← mapM_bind_mapM_iff, Yaml.writeItems]
  cases hnodes : l.mapM fun item => (toStr item).bind y.load with
  | none => simp
  | some nodes =>
    obtain ⟨hload, hemit⟩ := h.1 nodes hnodes
    simp only [Option.map_some, Option.bind_some]
    rw [readItems_of_load hload, hload, Option.bind_some, readItems_of_load hemit]
    exact ⟨.rfl, .rfl⟩

/-- A map is built from entries with the keys of another one. -/
private theorem refill_iff {d : Discipline} {c : Collection d (keyOrder α)} {entries : List (List Byte × α)}
    (h : entries.map Prod.fst = c.items.map Prod.fst) :
    Collection.empty.refill entries = some c ↔ entries = c.items := by
  have hkeys : ∀ l : List (List Byte × α),
      l.Pairwise (d.Before (keyOrder α)) ↔ (l.map Prod.fst).Pairwise (d.Before stringOrder) := by
    intro l
    rw [List.pairwise_map]
    cases d <;> rfl
  have hlength : entries.length = c.items.length := by simpa using congrArg List.length h
  have hrefill := Collection.refill_items (d := d) (C := keyOrder α)
    ⟨entries, (hkeys entries).2 (h ▸ (hkeys c.items).1 c.pairwise), hlength ▸ c.bounded⟩
  rw [hrefill, Option.some.injEq, Collection.ext_iff]

private theorem entries_iff {l : List (List Byte × α)} :
    ((l.mapM fun item => ((toStr item.2).bind y.load).map fun node => (item.1, node)).bind fun entries =>
      entries.mapM fun entry => (fromStr (y.emit entry.2)).map fun value => (entry.1, value)) = some l ↔
      ∀ item ∈ l, y.ComesBack toStr fromStr item.2 := by
  rw [mapM_bind_mapM_iff]
  refine forall₂_congr fun item _ => ?_
  obtain ⟨key, v⟩ := item
  unfold Yaml.ComesBack
  cases (toStr v).bind y.load with
  | none => simp
  | some node => cases hread : fromStr (y.emit node) <;> simp [hread]

/-- The text of a map is read entry by entry, and so is what its node is printed as. -/
private theorem bind_readMap {d : Discipline} {c : Collection d (keyOrder α)}
    (h : y.WritesEntries toStr writes c.items) :
    ((y.writeEntries toStr c.items).bind (y.readMap fromStr) = some c ↔
        ∀ item ∈ c.items, y.ComesBack toStr fromStr item.2) ∧
      (y.ComesBack (fun c => y.writeEntries toStr c.items) (y.readMap fromStr) c ↔
        ∀ item ∈ c.items, y.ComesBack toStr fromStr item.2) := by
  rw [← entries_iff]
  simp only [Yaml.ComesBack, Yaml.writeEntries]
  cases hentries : c.items.mapM fun item => ((toStr item.2).bind y.load).map fun node => (item.1, node) with
  | none => simp
  | some entries =>
    obtain ⟨hload, hemit⟩ := h.1 entries hentries
    simp only [Option.map_some, Option.bind_some, Yaml.readMap]
    rw [readEntries_of_load hload, hload, Option.bind_some, readEntries_of_load hemit]
    have hrefill : ((entries.mapM fun entry => (fromStr (y.emit entry.2)).map fun value => (entry.1, value)).bind
        fun entries => Collection.empty.refill entries) = some c ↔
        (entries.mapM fun entry => (fromStr (y.emit entry.2)).map fun value => (entry.1, value)) = some c.items := by
      cases hread : entries.mapM fun entry => (fromStr (y.emit entry.2)).map fun value => (entry.1, value) with
      | none => simp
      | some read =>
        have hkeys : read.map Prod.fst = c.items.map Prod.fst := by
          have hentry : entries.map Prod.fst = c.items.map Prod.fst := by
            refine map_eq_of_mapM (fun item node hnode => ?_) hentries
            obtain ⟨_, -, rfl⟩ := Option.map_eq_some_iff.1 hnode
            rfl
          rw [← hentry]
          refine map_eq_of_mapM (fun entry value hvalue => ?_) hread
          obtain ⟨_, -, rfl⟩ := Option.map_eq_some_iff.1 hvalue
          rfl
        rw [Option.bind_some, refill_iff hkeys, Option.some.injEq]
    exact ⟨hrefill, hrefill⟩

end

/-! ### The texts of variables -/

private theorem stoul_numeral {n : Nat} (h : n < 2 ^ 64) : stoul (numeral 10 n) = some (BitVec.ofNat 64 n) := by
  have hdenotes : Denotes (numeral 10 n) (n : Nat) := by
    have hnumeral : IsNumeral 10 (numeral 10 n) := isNumeral_numeral (by decide) (by decide) n
    have hplain := Denotes.plain hnumeral
    rwa [valueOf_numeral (by decide) (by decide)] at hplain
  rw [stoul_of_denotes hdenotes, if_pos (by simpa using h)]
  simp

private theorem unsignedLong_numeral (n : BitVec 64) : Converter.unsignedLong (numeral 10 n.toNat) = some n := by
  rw [Converter.unsignedLong, stoul_numeral n.isLt, BitVec.ofNat_toNat, BitVec.setWidth_eq]

private theorem unsignedInt_numeral (n : BitVec 32) : Converter.unsignedInt (numeral 10 n.toNat) = some n := by
  have hlt : n.toNat < 2 ^ 64 := by omega
  rw [Converter.unsignedInt, stoul_numeral hlt, Option.map_some, Option.some.injEq]
  apply BitVec.eq_of_toNat_eq
  simp

private theorem stol_intText {w : Nat} (n : BitVec w) : stol w (intText n.toInt) = some n := by
  have hdenotes : Denotes (intText n.toInt) n.toInt := by
    have hnumeral : IsNumeral 10 (numeral 10 n.toInt.natAbs) := isNumeral_numeral (by decide) (by decide) _
    have hvalue : valueOf 10 (numeral 10 n.toInt.natAbs) = n.toInt.natAbs := valueOf_numeral (by decide) (by decide) _
    unfold intText
    split
    case isTrue hneg =>
      have hminus := Denotes.minus hnumeral
      rwa [hvalue, show -(n.toInt.natAbs : Int) = n.toInt by omega] at hminus
    case isFalse hnot =>
      have hplain := Denotes.plain hnumeral
      rwa [hvalue, show (n.toInt.natAbs : Int) = n.toInt by omega] at hplain
  obtain ⟨digits, negative, hsplit, hall, hne, hn⟩ := number_of_denotes hdenotes
  simp only [stol, hsplit, hall, if_neg hne, ← hn, BitVec.ofInt_toInt, if_true]

private theorem bool_boolText (b : Bool) : Converter.bool (boolText b) = none := by
  cases b <;> decide

/-- A text that is kept is what the element is read from. -/
private theorem comesBack_of_keeps {α : Type} {y : Yaml} {toStr : α → Option (List Byte)}
    {fromStr : List Byte → Option α} {v : α} {text : List Byte} (htext : toStr v = some text) (h : y.Keeps text) :
    y.ComesBack toStr fromStr v ↔ fromStr text = some v := by
  obtain ⟨node, hload, hemit⟩ := Option.map_eq_some_iff.1 h
  rw [Yaml.ComesBack, htext, Option.bind_some, hload, Option.bind_some, hemit]

private theorem comesBack_number {α : Type} {y : Yaml} {toStr : α → Option (List Byte)}
    {fromStr : List Byte → Option α} {v : α} {text : List Byte} {n : Int} (htext : toStr v = some text)
    (h : y.Keeps text) (hread : fromStr text = some v) :
    y.ComesBack toStr fromStr v ↔ ∀ leaf ∈ [Leaf.number n], y.Returns leaf := by
  refine iff_of_true ((comesBack_of_keeps htext h).2 hread) ?_
  rw [List.forall_mem_singleton]
  trivial

private theorem forall_leaves_iff {α : Type} {p : α → Prop} {q : Leaf → Prop} {parts : α → List Leaf} {l : List α}
    (h : ∀ item ∈ l, (p item ↔ ∀ leaf ∈ parts item, q leaf)) :
    (∀ item ∈ l, p item) ↔ ∀ leaf ∈ l.flatMap parts, q leaf := by
  constructor
  · intro hall leaf hleaf
    obtain ⟨item, hitem, hpart⟩ := List.mem_flatMap.1 hleaf
    exact (h item hitem).1 (hall item hitem) leaf hpart
  · intro hall item hitem
    exact (h item hitem).2 fun leaf hleaf => hall leaf (List.mem_flatMap.2 ⟨item, hitem, hleaf⟩)

/-- An element comes back if everything that it consists of does. -/
private theorem comesBack_iff (y : Yaml) : (T : VarType) → (v : T.Val) → y.Writes T v →
    (y.ComesBack (toStr y T) (fromStr y T) v ↔ ∀ leaf ∈ leaves T v, y.Returns leaf)
  | .string, v, _ => by
    simp only [leaves, List.mem_singleton, forall_eq, Yaml.Returns, Yaml.Keeps, Option.map_eq_bind]
    rfl
  | .bool, v, h => by
    have htext : toStr y .bool v = some (boolText v) := rfl
    have hnone : fromStr y .bool (boolText v) = none := bool_boolText v
    rw [comesBack_of_keeps htext h, hnone]
    simp [leaves, Yaml.Returns]
  | .int, v, h | .long, v, h => comesBack_number rfl h (stol_intText v)
  | .unsignedInt, v, h => comesBack_number rfl h (unsignedInt_numeral v)
  | .unsignedLong, v, h => comesBack_number rfl h (unsignedLong_numeral v)
  | .vector elem, v, h | .list elem, v, h =>
    (bind_readItems h).2.trans (forall_leaves_iff fun item hitem => comesBack_iff y elem item (h.2 item hitem))
  | .map elem, v, h | .unorderedMap elem, v, h =>
    (bind_readMap h).2.trans (forall_leaves_iff fun item hitem => comesBack_iff y elem item.2 (h.2 item hitem))

/-- A value comes back from its text if it is a string, or if everything that it consists of comes back. -/
private theorem fromStr_toStr_iff (y : Yaml) {T : VarType} {val : T.Val} (h : y.Writes T val) :
    (toStr y T val).bind (fromStr y T) = some val ↔ T = .string ∨ ∀ leaf ∈ leaves T val, y.Returns leaf := by
  cases T with
  | string => exact iff_of_true rfl (.inl rfl)
  | bool =>
    refine iff_of_false (fun hsome => ?_) ?_
    · rw [show (toStr y .bool val).bind (fromStr y .bool) = none from bool_boolText val] at hsome
      cases hsome
    · rintro (heq | hall)
      · cases heq
      · exact hall _ List.mem_cons_self
  | int | long => exact iff_of_true (stol_intText val) (.inr (by simp [leaves, Yaml.Returns]))
  | unsignedInt => exact iff_of_true (unsignedInt_numeral val) (.inr (by simp [leaves, Yaml.Returns]))
  | unsignedLong => exact iff_of_true (unsignedLong_numeral val) (.inr (by simp [leaves, Yaml.Returns]))
  | vector elem | list elem =>
    refine Iff.trans ?_ (or_iff_right (by simp)).symm
    exact (bind_readItems h).1.trans (forall_leaves_iff fun item hitem => comesBack_iff y elem item (h.2 item hitem))
  | map elem | unorderedMap elem =>
    refine Iff.trans ?_ (or_iff_right (by simp)).symm
    exact (bind_readMap h).1.trans (forall_leaves_iff fun item hitem => comesBack_iff y elem item.2 (h.2 item hitem))

/-- Where YAML keeps the texts of numbers and reads what it has printed, a variable stays as it is when it is given its
own text just if it is a string, or if YAML keeps the strings in its value and there is no `bool` in it. -/
theorem fromString_toStr_iff (y : Yaml) {T : VarType} {s : ConfigVar.State T.Val}
    (h : y.Writes T s.val) : (∃ text, toStr y T s.val = some text ∧
      ConfigVar.fromString (fromStr y T) s text = (true, s)) ↔
        T = .string ∨ ∀ leaf ∈ leaves T s.val, y.Returns leaf := by
  rw [← fromStr_toStr_iff y h, Option.bind_eq_some_iff]
  refine exists_congr fun text => and_congr_right fun _ => ?_
  unfold ConfigVar.fromString
  cases hread : fromStr y T text with
  | none => simp
  | some value =>
    rw [Option.some.injEq]
    constructor
    · intro hsame
      have hval : (ConfigVar.setValue s value).val = s.val := congrArg (fun r => r.2.val) hsame
      unfold ConfigVar.setValue at hval
      split at hval
      · assumption
      · exact hval
    · rintro rfl
      simp [ConfigVar.setValue]

/-- A parser and an emitter for a few texts. -/
private def shortYaml : Yaml where
  load text :=
    if text = [] ∨ text = bytes "~" then some .null
    else if text = bytes "x" ∨ text = bytes "7" then some (.scalar text)
    else if text = bytes "- x\n- 7" then some (sequenceNode [.scalar (bytes "x"), .scalar (bytes "7")])
    else if text = bytes "- ~" then some (sequenceNode [.null])
    else none
  emit
    | .null => bytes "~"
    | .scalar text => text
    | .sequence (.cons .null _) => bytes "- ~"
    | _ => bytes "- x\n- 7"
  absent := []
  invalid := some []

private def twoStrings : ConfigVar.State (VarType.Val (.vector .string)) := ConfigVar.new [bytes "x", bytes "7"]

theorem fromString_toStr_iff_twoStrings : ∃ text, toStr shortYaml (.vector .string) twoStrings.val = some text ∧
    ConfigVar.fromString (fromStr shortYaml (.vector .string)) twoStrings text = (true, twoStrings) := by
  have hwrites : shortYaml.Writes (.vector .string) twoStrings.val := by
    refine ⟨fun nodes hnodes => ?_, fun _ _ => trivial⟩
    obtain rfl : nodes = [.scalar (bytes "x"), .scalar (bytes "7")] :=
      Option.some.inj (hnodes.symm.trans rfl)
    exact ⟨rfl, rfl⟩
  refine (fromString_toStr_iff shortYaml hwrites).2 (.inr ?_)
  have hleaves : leaves (.vector .string) twoStrings.val = [.string (bytes "x"), .string (bytes "7")] := rfl
  rw [hleaves, List.forall_mem_cons, List.forall_mem_singleton]
  exact ⟨rfl, rfl⟩

-- an empty string is parsed as null
example : (toStr shortYaml (.vector .string) [[]]).bind (fromStr shortYaml (.vector .string)) = some [bytes "~"] := rfl

end LexicalCast

end AcidCompute
