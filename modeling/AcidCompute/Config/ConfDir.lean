import AcidCompute.Config.Load

/-!
# Loading a directory (`Config::load_from_conf_dir` in `acid/common/config.cpp`)

`load_from_conf_dir` loads the files that `FSUtil::list_all_file` finds, but leaves out, unless it is forced to load
them, those whose time of modification is the one that it has recorded.

What is left out would change nothing: if a time of modification tells what a file contains, files set different
variables, and nobody else sets those or registers them later, then all variables keep the values that the files give
them, and a load that is not forced is as good as one that is (`ConfDir.load_eq_forced_of_reaches`).
-/

namespace AcidCompute

namespace ConfDir

open Config

/-! ### Files -/

/-- A file: `st_mtime`, and what `YAML::LoadFile` returns if it does not throw. -/
structure File where
  modifyTime : BitVec 64
  root : Option Config.Node

mutual

/-- A `dirent`, by its `d_type`. -/
inductive Dirent
  | dir (name : List Byte) (entries : Dirents)
  | reg (name : List Byte) (file : File)
  | other (name : List Byte)

/-- What `readdir` returns, nothing for a directory that cannot be opened. -/
inductive Dirents
  | nil
  | cons (dp : Dirent) (rest : Dirents)

end

-- `d_name`
def Dirent.name : Dirent → List Byte
  | .dir name _ => name
  | .reg name _ => name
  | .other name => name

def Dirents.names : Dirents → List (List Byte)
  | .nil => []
  | .cons dp rest => dp.name :: rest.names

/-- The test of a file name in `list_all_file`. -/
def hasSubfix (subfix filename : List Byte) : Bool :=
  if subfix = [] then true
  else if filename.length < subfix.length then false
  else filename.drop (filename.length - subfix.length) = subfix

mutual

/-- `FSUtil::list_all_file(files, path, subfix)`: the paths of the files, and the files. -/
def listAllFile (path subfix : List Byte) : Dirents → List (List Byte × File)
  | .nil => []
  | .cons dp rest => listDirent path subfix dp ++ listAllFile path subfix rest

def listDirent (path subfix : List Byte) : Dirent → List (List Byte × File)
  | .dir name entries => if name = [46] ∨ name = [46, 46] then [] else listAllFile (path ++ 47 :: name) subfix entries
  | .reg name file => if hasSubfix subfix name then [(path ++ 47 :: name, file)] else []
  | .other _ => []

end

mutual

/-- The entries of a directory have different names, in which there is no slash. -/
def Dirents.Distinct : Dirents → Prop
  | .nil => True
  | .cons dp rest => 47 ∉ dp.name ∧ dp.name ∉ rest.names ∧ dp.Distinct ∧ rest.Distinct

def Dirent.Distinct : Dirent → Prop
  | .dir _ entries => entries.Distinct
  | .reg _ _ => True
  | .other _ => True

end

mutual

private theorem mem_listAllFile {subfix : List Byte} {f : List Byte × File} : (path : List Byte) → (entries : Dirents) →
    f ∈ listAllFile path subfix entries → ∃ name ∈ entries.names, ∃ rest,
      f.1 = path ++ 47 :: (name ++ rest) ∧ (rest = [] ∨ rest.head? = some 47)
  | path, .nil, h => by simp [listAllFile] at h
  | path, .cons dp rest, h => by
    rw [listAllFile, List.mem_append] at h
    rcases h with h | h
    · obtain ⟨below, hpath, hbelow⟩ := mem_listDirent path dp h
      exact ⟨dp.name, List.mem_cons_self, below, hpath, hbelow⟩
    · obtain ⟨name, hname, below, hpath, hbelow⟩ := mem_listAllFile path rest h
      exact ⟨name, List.mem_cons_of_mem _ hname, below, hpath, hbelow⟩

/-- A path that is listed for an entry goes on behind its name only with a slash. -/
private theorem mem_listDirent {subfix : List Byte} {f : List Byte × File} : (path : List Byte) → (dp : Dirent) →
    f ∈ listDirent path subfix dp →
      ∃ rest, f.1 = path ++ 47 :: (dp.name ++ rest) ∧ (rest = [] ∨ rest.head? = some 47)
  | path, .dir name entries, h => by
    rw [listDirent] at h
    split at h
    · cases h
    · obtain ⟨name', -, below, hpath, -⟩ := mem_listAllFile (path ++ 47 :: name) entries h
      exact ⟨47 :: (name' ++ below), by simp [hpath, Dirent.name], .inr rfl⟩
  | path, .reg name file, h => by
    rw [listDirent] at h
    split at h
    · rw [List.mem_singleton] at h
      subst h
      exact ⟨[], by simp [Dirent.name], .inl rfl⟩
    · cases h
  | path, .other _, h => by simp [listDirent] at h

end

/-- The name ends at the first slash. -/
private theorem name_eq {name name' rest rest' : List Byte} (hname : 47 ∉ name) (hname' : 47 ∉ name')
    (hrest : rest = [] ∨ rest.head? = some 47) (hrest' : rest' = [] ∨ rest'.head? = some 47)
    (h : name ++ rest = name' ++ rest') : name = name' := by
  induction name generalizing name' with
  | nil =>
    cases name' with
    | nil => rfl
    | cons c name' =>
      rcases hrest with rfl | hhead
      · cases h
      · rw [List.nil_append] at h
        rw [h, List.cons_append, List.head?_cons, Option.some.injEq] at hhead
        exact absurd (hhead ▸ List.mem_cons_self) hname'
  | cons c name ih =>
    cases name' with
    | nil =>
      rcases hrest' with rfl | hhead
      · cases h
      · rw [List.nil_append] at h
        rw [← h, List.cons_append, List.head?_cons, Option.some.injEq] at hhead
        exact absurd (hhead ▸ List.mem_cons_self) hname
    | cons c' name' =>
      rw [List.cons_append, List.cons_append, List.cons.injEq] at h
      have hmem : 47 ∉ name := fun hmem => hname (List.mem_cons_of_mem _ hmem)
      have hmem' : 47 ∉ name' := fun hmem => hname' (List.mem_cons_of_mem _ hmem)
      rw [h.1, ih hmem hmem' h.2]

private theorem no_slash {entries : Dirents} (h : entries.Distinct) : ∀ name ∈ entries.names, 47 ∉ name := by
  match entries with
  | .nil => exact fun _ hname => by cases hname
  | .cons dp rest =>
    obtain ⟨hslash, -, -, hrest⟩ := h
    intro name hname
    rcases List.mem_cons.1 hname with rfl | hname
    · exact hslash
    · exact no_slash hrest name hname

mutual

/-- No path is listed twice. -/
theorem nodup_listAllFile {subfix : List Byte} : (path : List Byte) → (entries : Dirents) → entries.Distinct →
    ((listAllFile path subfix entries).map Prod.fst).Nodup
  | path, .nil, _ => by simp [listAllFile]
  | path, .cons dp rest, h => by
    obtain ⟨hslash, hname, hdp, hrest⟩ := h
    rw [listAllFile, List.map_append]
    refine List.nodup_append.2 ⟨nodup_listDirent path dp hdp, nodup_listAllFile path rest hrest, ?_⟩
    intro p hp p' hp' heq
    obtain ⟨f, hf, rfl⟩ := List.mem_map.1 hp
    obtain ⟨f', hf', rfl⟩ := List.mem_map.1 hp'
    obtain ⟨below, hpath, hbelow⟩ := mem_listDirent path dp hf
    obtain ⟨name', hname', below', hpath', hbelow'⟩ := mem_listAllFile path rest hf'
    rw [hpath, hpath', List.append_cancel_left_eq, List.cons.injEq] at heq
    rw [name_eq hslash (no_slash hrest name' hname') hbelow hbelow' heq.2] at hname
    exact hname hname'

theorem nodup_listDirent {subfix : List Byte} : (path : List Byte) → (dp : Dirent) → dp.Distinct →
    ((listDirent path subfix dp).map Prod.fst).Nodup
  | path, .dir name entries, h => by
    rw [listDirent]
    split
    · exact List.nodup_nil
    · exact nodup_listAllFile (path ++ 47 :: name) entries h
  | path, .reg name file, _ => by
    rw [listDirent]
    split <;> simp
  | path, .other _, _ => by simp [listDirent]

end

/-! ### What a file sets -/

section

variable {Ty : Type} {Value : Ty → Type} (fromStr : (T : Ty) → List Byte → Option (Value T))
  (emit : Config.Node → List Byte)

/-- The last of the texts that can be converted, if there is one. -/
def lastConverted (T : Ty) : List (List Byte) → Option (Value T)
  | [] => none
  | text :: texts => (lastConverted T texts).or (fromStr T text)

/-- The texts that `from_string` of a variable is called with. -/
def textsFor (p : Nat) (calls : List (Nat × List Byte)) : List (List Byte) :=
  (calls.filter fun c => c.1 = p).map Prod.snd

/-- The value that a file has for a variable of some type. -/
def given (t : Table Value) (root : Config.Node) (p : Nat) (T : Ty) : Option (Value T) :=
  lastConverted fromStr T (textsFor p (t.loadCalls emit root))

/-- Each variable has the value of the file, if the file has one for it. -/
def Agrees (t : Table Value) (root : Config.Node) : Prop :=
  ∀ p v, t.vars[p]? = some v → ∀ value, given fromStr emit t root p v.type = some value → v.val = value

/-- The two files set no variable both. -/
def Apart (t : Table Value) (root root' : Config.Node) : Prop :=
  ∀ c ∈ t.loadCalls emit root, ∀ c' ∈ t.loadCalls emit root', c.1 ≠ c'.1

variable {fromStr emit} {t t' : Table Value} {root root' : Config.Node} {p : Nat}

theorem Apart.symm (h : Apart emit t root root') : Apart emit t root' root := fun c hc c' hc' => (h c' hc' c hc).symm

/-- The calls depend on the names in the table only. -/
theorem loadCalls_congr (h : t'.datas = t.datas) : t'.loadCalls emit root = t.loadCalls emit root := by
  have hcall : t'.loadCall emit = t.loadCall emit := by
    funext node
    simp only [Table.loadCall, Table.lookUpBase, h]
  rw [Table.loadCalls, Table.loadCalls, hcall]

theorem given_congr (h : t'.datas = t.datas) (T : Ty) :
    given fromStr emit t' root p T = given fromStr emit t root p T := by
  rw [given, given, loadCalls_congr h]

theorem Apart.congr (h : Apart emit t root root') (hdatas : t'.datas = t.datas) : Apart emit t' root root' := by
  unfold Apart
  rw [loadCalls_congr hdatas, loadCalls_congr hdatas]
  exact h

variable (fromStr t) in
private theorem getElem?_fold (calls : List (Nat × List Byte)) (p : Nat) :
    (calls.foldl (fun t c => t.fromString fromStr c.1 c.2) t).vars[p]? =
      t.vars[p]?.map fun v => { v with val := (lastConverted fromStr v.type (textsFor p calls)).getD v.val } := by
  induction calls generalizing t with
  | nil => simp [textsFor, lastConverted]
  | cons c calls ih =>
    rw [List.foldl_cons, ih, Table.fromString, List.getElem?_modify]
    by_cases hp : c.1 = p
    · have htexts : textsFor p (c :: calls) = c.2 :: textsFor p calls := by simp [textsFor, hp]
      rw [htexts]
      cases t.vars[p]? <;> simp [hp, lastConverted]
    · have htexts : textsFor p (c :: calls) = textsFor p calls := by simp [textsFor, hp]
      rw [htexts]
      cases t.vars[p]? <;> simp [hp]

variable (fromStr emit t root) in
/-- A file sets a variable to its value for it. -/
theorem getElem?_loadFromYaml (p : Nat) : (t.loadFromYaml fromStr emit root).vars[p]? =
    t.vars[p]?.map fun v => { v with val := (given fromStr emit t root p v.type).getD v.val } := by
  rw [loadFromYaml_eq]
  exact getElem?_fold fromStr t _ p

/-- A file that agrees with the variables changes none of them. -/
theorem loadFromYaml_eq_self (h : Agrees fromStr emit t root) : t.loadFromYaml fromStr emit root = t := by
  have hvars : (t.loadFromYaml fromStr emit root).vars = t.vars := by
    apply List.ext_getElem?
    intro p
    rw [getElem?_loadFromYaml]
    cases hv : t.vars[p]? with
    | none => rfl
    | some v =>
      cases hvalue : given fromStr emit t root p v.type with
      | none => simp [hvalue]
      | some value => simp [hvalue, ← h p v hv value hvalue]
  have hdatas := (loadFromYaml_frame fromStr emit t root).1
  cases ht : t.loadFromYaml fromStr emit root
  rw [ht] at hvars hdatas
  subst hvars hdatas
  rfl

/-- Loading a file makes it agree. -/
theorem agrees_loadFromYaml : Agrees fromStr emit (t.loadFromYaml fromStr emit root) root := by
  intro p v hv value hvalue
  rw [given_congr (loadFromYaml_frame fromStr emit t root).1] at hvalue
  rw [getElem?_loadFromYaml] at hv
  obtain ⟨w, -, rfl⟩ := Option.map_eq_some_iff.1 hv
  rw [show given fromStr emit t root p w.type = some value from hvalue]
  rfl

private theorem given_eq_none (h : ∀ c ∈ t.loadCalls emit root, c.1 ≠ p) (T : Ty) :
    given fromStr emit t root p T = none := by
  have htexts : textsFor p (t.loadCalls emit root) = [] := by
    rw [textsFor, List.map_eq_nil_iff, List.filter_eq_nil_iff]
    intro c hc
    simpa using h c hc
  rw [given, htexts]
  rfl

private theorem exists_of_given {T : Ty} {value : Value T} (h : given fromStr emit t root p T = some value) :
    ∃ c ∈ t.loadCalls emit root, c.1 = p := by
  by_contra hnone
  push Not at hnone
  rw [given_eq_none hnone] at h
  cases h

/-- A file agrees as long as others do not set its variables. -/
theorem Agrees.loadFromYaml (h : Agrees fromStr emit t root) (hapart : Apart emit t root' root) :
    Agrees fromStr emit (t.loadFromYaml fromStr emit root') root := by
  intro p v hv value hvalue
  rw [given_congr (loadFromYaml_frame fromStr emit t root').1] at hvalue
  obtain ⟨c, hc, hp⟩ := exists_of_given hvalue
  have hnone : ∀ T, given fromStr emit t root' p T = none :=
    given_eq_none fun c' hc' => hp ▸ hapart c' hc' c hc
  rw [getElem?_loadFromYaml] at hv
  obtain ⟨w, hw, rfl⟩ := Option.map_eq_some_iff.1 hv
  simp only [hnone, Option.getD_none]
  exact h p w hw value hvalue

end

/-! ### Loads -/

variable {Ty : Type} {Value : Ty → Type}

structure State (Value : Ty → Type) where
  table : Table Value
  -- `s_file_modify_time`
  fileModifyTime : List Byte → BitVec 64
  -- what a file contained when it was loaded last
  loaded : List Byte → Option (Option Config.Node)

def initial : State Value := ⟨Table.empty, fun _ => 0, fun _ => none⟩

-- `".yml"`
def yml : List Byte := [46, 121, 109, 108]

namespace State

variable (s : State Value) (fromStr : (T : Ty) → List Byte → Option (Value T)) (emit : Config.Node → List Byte)

/-- The body of the loop in `load_from_conf_dir`: the time is recorded before the file is read. -/
def loadFile (force : Bool) (file : List Byte × File) : State Value :=
  if force = false ∧ s.fileModifyTime file.1 = file.2.modifyTime then s
  else
    { table := file.2.root.elim s.table (s.table.loadFromYaml fromStr emit)
      fileModifyTime := Function.update s.fileModifyTime file.1 file.2.modifyTime
      loaded := Function.update s.loaded file.1 (some file.2.root) }

/-- `load_from_conf_dir(path, force)`; `path` is absolute. -/
def loadFromConfDir (path : List Byte) (force : Bool) (entries : Dirents) : State Value :=
  (listAllFile path yml entries).foldl (fun s file => s.loadFile fromStr emit force file) s

end State

/-- `set_value(value)` of a `ConfigVar<T>`. -/
def setValue [DecidableEq Ty] (t : Table Value) (p : Nat) (T : Ty) (value : Value T) : Table Value :=
  { t with vars := t.vars.modify p fun v => if h : v.type = T then { v with val := h ▸ value } else v }

inductive Event (Value : Ty → Type)
  | lookUp (T : Ty) (name : List Byte) (value : Value T)
  | setValue (p : Nat) (T : Ty) (value : Value T)
  | loadFromYaml (root : Config.Node)
  | loadFromConfDir (path : List Byte) (force : Bool) (entries : Dirents)

section

variable [DecidableEq Ty] (fromStr : (T : Ty) → List Byte → Option (Value T)) (emit : Config.Node → List Byte)

def next (s : State Value) : Event Value → State Value
  | .lookUp T name value =>
    match s.table.lookUp T name value with
    | .ok (_, table) => { s with table }
    | .error _ => s
  | .setValue p T value => { s with table := setValue s.table p T value }
  | .loadFromYaml root => { s with table := s.table.loadFromYaml fromStr emit root }
  | .loadFromConfDir path force entries => s.loadFromConfDir fromStr emit path force entries

def machine : Machine (State Value) (Event Value) where
  start := initial
  step s e := some (next fromStr emit s e)

end

/-- What has been loaded of each file when these have been loaded as well. -/
def contents (files : List (List Byte × File)) (loaded : List Byte → Option (Option Config.Node)) :
    List Byte → Option (Option Config.Node) :=
  files.foldl (fun loaded file => Function.update loaded file.1 (some file.2.root)) loaded

/-- A time of modification that is recorded tells what the file contains.  A file that has not been loaded has the
time 0 recorded, so that a file of this time must have been loaded. -/
def Known (s : State Value) (files : List (List Byte × File)) : Prop :=
  ∀ f ∈ files, s.fileModifyTime f.1 = f.2.modifyTime → s.loaded f.1 = some f.2.root

/-- A file sets no variable that another file sets. -/
def Separate (emit : Config.Node → List Byte) (t : Table Value) (files : List (List Byte × File))
    (loaded : List Byte → Option (Option Config.Node)) : Prop :=
  ∀ f ∈ files, ∀ root, f.2.root = some root → ∀ path root', path ≠ f.1 →
    contents files loaded path = some (some root') → Apart emit t root root'

/-- There is a node for the variable of this name. -/
def Mentions (root : Config.Node) (name : List Byte) : Prop :=
  ∃ node ∈ listAllMembers [] root, node.1 ≠ [] ∧ node.1.map toLower = name

/-- The variables that a file sets are registered before it is loaded, and nobody else sets them. -/
def Careful [DecidableEq Ty] (emit : Config.Node → List Byte) (s : State Value) : Event Value → Prop
  | .lookUp T name _ =>
    s.table.find T name ≠ none ∨ ∀ path root, s.loaded path = some (some root) → ¬Mentions root name
  | .setValue p _ _ =>
    ∀ path root, s.loaded path = some (some root) → ∀ c ∈ s.table.loadCalls emit root, c.1 ≠ p
  | .loadFromYaml root => ∀ path root', s.loaded path = some (some root') → Apart emit s.table root root'
  | .loadFromConfDir path _ entries =>
    entries.Distinct ∧ Known s (listAllFile path yml entries) ∧
      Separate emit s.table (listAllFile path yml entries) s.loaded

/-- The variables agree with all files, apart from those that will be loaded again because they have changed. -/
structure Fresh (fromStr : (T : Ty) → List Byte → Option (Value T)) (emit : Config.Node → List Byte) (s : State Value)
    (files : List (List Byte × File)) : Prop where
  stored : ∀ name p, s.table.datas name = some p → p < s.table.vars.length
  agrees : ∀ path root, s.loaded path = some (some root) → (∀ f ∈ files, f.1 = path → f.2.root = some root) →
    Agrees fromStr emit s.table root

/-! ### What a load keeps -/

section

variable {fromStr : (T : Ty) → List Byte → Option (Value T)} {emit : Config.Node → List Byte} {s : State Value}
  {f : List Byte × File} {files : List (List Byte × File)}

theorem contents_eq {loaded : List Byte → Option (Option Config.Node)} {path : List Byte} {root : Option Config.Node}
    (hloaded : loaded path = some root) (hfiles : ∀ f ∈ files, f.1 = path → f.2.root = root) :
    contents files loaded path = some root := by
  induction files generalizing loaded with
  | nil => exact hloaded
  | cons f files ih =>
    rw [contents, List.foldl_cons]
    refine ih ?_ fun f' hf' => hfiles f' (List.mem_cons_of_mem _ hf')
    by_cases hpath : path = f.1
    · subst hpath
      rw [Function.update_self, hfiles f List.mem_cons_self rfl]
    · rwa [Function.update_of_ne hpath]

theorem loadFile_datas (force : Bool) : (s.loadFile fromStr emit force f).table.datas = s.table.datas := by
  unfold State.loadFile
  split
  · rfl
  · cases f.2.root with
    | none => rfl
    | some root => exact (loadFromYaml_frame fromStr emit s.table root).1

/-- A file that is left out would change nothing. -/
theorem loadFile_eq_forced (hfresh : Fresh fromStr emit s (f :: files)) (hnodup : f.1 ∉ files.map Prod.fst)
    (hknown : s.fileModifyTime f.1 = f.2.modifyTime → s.loaded f.1 = some f.2.root) :
    s.loadFile fromStr emit false f = s.loadFile fromStr emit true f := by
  by_cases htime : s.fileModifyTime f.1 = f.2.modifyTime
  · have hloaded := hknown htime
    have htable : f.2.root.elim s.table (s.table.loadFromYaml fromStr emit) = s.table := by
      cases hroot : f.2.root with
      | none => rfl
      | some root =>
        rw [hroot] at hloaded
        refine loadFromYaml_eq_self (hfresh.agrees f.1 root hloaded ?_)
        intro f' hf' hpath
        rcases List.mem_cons.1 hf' with rfl | hf'
        · exact hroot
        · exact absurd (hpath ▸ List.mem_map_of_mem hf') hnodup
    rw [State.loadFile, if_pos ⟨rfl, htime⟩, State.loadFile, if_neg (by simp), htable, ← htime, ← hloaded,
      Function.update_eq_self, Function.update_eq_self]
  · rw [State.loadFile, if_neg (fun h => htime h.2), State.loadFile, if_neg (by simp)]

/-- Loading a file keeps the others as they should be. -/
theorem Fresh.loadFile (h : Fresh fromStr emit s (f :: files)) (hsep : Separate emit s.table (f :: files) s.loaded) :
    Fresh fromStr emit (s.loadFile fromStr emit true f) files := by
  have hloaded : (s.loadFile fromStr emit true f).loaded = Function.update s.loaded f.1 (some f.2.root) := by
    rw [State.loadFile, if_neg (by simp)]
  have htable : (s.loadFile fromStr emit true f).table =
      f.2.root.elim s.table (s.table.loadFromYaml fromStr emit) := by
    rw [State.loadFile, if_neg (by simp)]
  constructor
  case stored =>
    intro name p hp
    rw [loadFile_datas] at hp
    have hlt := h.stored name p hp
    rw [htable]
    cases f.2.root with
    | none => exact hlt
    | some root =>
      have hlength := congrArg List.length (loadFromYaml_frame fromStr emit s.table root).2.1
      rw [List.length_map, List.length_map] at hlength
      exact hlength ▸ hlt
  case agrees =>
    intro path root' hpath hrest
    rw [htable]
    rw [hloaded] at hpath
    by_cases heq : path = f.1
    · subst heq
      rw [Function.update_self, Option.some.injEq] at hpath
      rw [hpath]
      exact agrees_loadFromYaml
    · rw [Function.update_of_ne heq] at hpath
      have hfiles : ∀ f' ∈ f :: files, f'.1 = path → f'.2.root = some root' := by
        intro f' hf' hf'path
        rcases List.mem_cons.1 hf' with rfl | hf'
        · exact absurd hf'path.symm heq
        · exact hrest f' hf' hf'path
      have hagrees := h.agrees path root' hpath hfiles
      cases hroot : f.2.root with
      | none => exact hagrees
      | some root =>
        exact hagrees.loadFromYaml (hsep f List.mem_cons_self root hroot path root' heq (contents_eq hpath hfiles))

/-- Loading files one by one, all of them or those that have changed. -/
theorem foldl_loadFile (h : Fresh fromStr emit s files) (hnodup : (files.map Prod.fst).Nodup) (hknown : Known s files)
    (hsep : Separate emit s.table files s.loaded) :
    files.foldl (fun s file => s.loadFile fromStr emit false file) s =
        files.foldl (fun s file => s.loadFile fromStr emit true file) s ∧
      (files.foldl (fun s file => s.loadFile fromStr emit true file) s).loaded = contents files s.loaded ∧
      Fresh fromStr emit (files.foldl (fun s file => s.loadFile fromStr emit true file) s) [] := by
  induction files generalizing s with
  | nil => exact ⟨rfl, rfl, h⟩
  | cons f files ih =>
    rw [List.map_cons, List.nodup_cons] at hnodup
    have hforced := loadFile_eq_forced h hnodup.1 (hknown f List.mem_cons_self)
    rw [List.foldl_cons, List.foldl_cons, hforced]
    have hloaded : (s.loadFile fromStr emit true f).loaded = Function.update s.loaded f.1 (some f.2.root) := by
      rw [State.loadFile, if_neg (by simp)]
    have htime : (s.loadFile fromStr emit true f).fileModifyTime =
        Function.update s.fileModifyTime f.1 f.2.modifyTime := by
      rw [State.loadFile, if_neg (by simp)]
    have hknown' : Known (s.loadFile fromStr emit true f) files := by
      intro f' hf' hf'time
      have hne : f'.1 ≠ f.1 := fun hpath => hnodup.1 (hpath ▸ List.mem_map_of_mem hf')
      rw [htime, Function.update_of_ne hne] at hf'time
      rw [hloaded, Function.update_of_ne hne]
      exact hknown f' (List.mem_cons_of_mem _ hf') hf'time
    have hsep' : Separate emit (s.loadFile fromStr emit true f).table files
        (s.loadFile fromStr emit true f).loaded := by
      intro f' hf' root hroot path root' hpath hcontents
      rw [hloaded] at hcontents
      exact (hsep f' (List.mem_cons_of_mem _ hf') root hroot path root' hpath hcontents).congr (loadFile_datas true)
    obtain ⟨heq, hcontents, hfresh⟩ := ih (h.loadFile hsep) hnodup.2 hknown' hsep'
    rw [hloaded] at hcontents
    exact ⟨heq, hcontents, hfresh⟩

/-- A load that is not forced is as good as one that is. -/
theorem loadFromConfDir_eq_forced (h : Fresh fromStr emit s []) {path : List Byte} {entries : Dirents}
    (hdistinct : entries.Distinct) (hknown : Known s (listAllFile path yml entries))
    (hsep : Separate emit s.table (listAllFile path yml entries) s.loaded) (force : Bool) :
    s.loadFromConfDir fromStr emit path force entries = s.loadFromConfDir fromStr emit path true entries ∧
      (s.loadFromConfDir fromStr emit path force entries).loaded =
        contents (listAllFile path yml entries) s.loaded ∧
      Fresh fromStr emit (s.loadFromConfDir fromStr emit path force entries) [] := by
  have hfresh : Fresh fromStr emit s (listAllFile path yml entries) :=
    ⟨h.stored, fun path root hloaded _ => h.agrees path root hloaded fun _ hf => by cases hf⟩
  obtain ⟨heq, hcontents, hafter⟩ := foldl_loadFile hfresh (nodup_listAllFile path entries hdistinct) hknown hsep
  cases force with
  | false =>
    have hforced : s.loadFromConfDir fromStr emit path false entries =
        s.loadFromConfDir fromStr emit path true entries := heq
    rw [hforced]
    exact ⟨rfl, hcontents, hafter⟩
  | true => exact ⟨rfl, hcontents, hafter⟩

/-- The tree of a file that has been listed is the last that is loaded of it. -/
private theorem contents_of_mem {loaded : List Byte → Option (Option Config.Node)} (hnodup : (files.map Prod.fst).Nodup)
    (hf : f ∈ files) : contents files loaded f.1 = some f.2.root := by
  induction files generalizing loaded with
  | nil => cases hf
  | cons f' files ih =>
    rw [List.map_cons, List.nodup_cons] at hnodup
    rw [contents, List.foldl_cons]
    rcases List.mem_cons.1 hf with rfl | hf
    · refine contents_eq (Function.update_self ..) fun f' hf' hpath => ?_
      exact absurd (hpath ▸ List.mem_map_of_mem hf') hnodup.1
    · exact ih hnodup.2 hf

/-! ### Runs -/

/-- A variable that no file mentions changes nothing for the files. -/
private theorem loadCalls_register (emit : Config.Node → List Byte) (t : Table Value) {root : Config.Node}
    {name : List Byte} (h : ¬Mentions root name) (vars : List (Var Value)) (p : Nat) :
    (⟨vars, Function.update t.datas name (some p)⟩ : Table Value).loadCalls emit root = t.loadCalls emit root := by
  apply List.filterMap_congr
  intro node hnode
  unfold Table.loadCall
  by_cases hempty : node.1 = []
  · rw [if_pos hempty, if_pos hempty]
  · have hne : node.1.map toLower ≠ name := fun heq => h ⟨node, hnode, hempty, heq⟩
    have hbase : Function.update t.datas name (some p) (node.1.map toLower) = t.datas (node.1.map toLower) :=
      Function.update_of_ne hne _ _
    rw [if_neg hempty, if_neg hempty]
    exact congrArg (Option.map _) hbase

private theorem stored_of_mem {t : Table Value} {root : Config.Node} {c : Nat × List Byte}
    (hc : c ∈ t.loadCalls emit root) : ∃ name, t.datas name = some c.1 := by
  obtain ⟨node, -, hcall⟩ := List.mem_filterMap.1 hc
  unfold Table.loadCall at hcall
  split at hcall
  · cases hcall
  · obtain ⟨p, hp, rfl⟩ := Option.map_eq_some_iff.1 hcall
    exact ⟨_, hp⟩

/-- A new variable is not one of those that a file sets. -/
theorem Fresh.register (h : Fresh fromStr emit s []) (v : Var Value)
    (hnone : ∀ path root, s.loaded path = some (some root) → ¬Mentions root v.name) :
    Fresh fromStr emit { s with table :=
      ⟨s.table.vars ++ [v], Function.update s.table.datas v.name (some s.table.vars.length)⟩ } [] := by
  constructor
  case stored =>
    intro name p (hp : Function.update s.table.datas v.name (some s.table.vars.length) name = some p)
    show p < (s.table.vars ++ [v]).length
    rw [List.length_append]
    by_cases hname : name = v.name
    · subst hname
      rw [Function.update_self, Option.some.injEq] at hp
      simp [← hp]
    · rw [Function.update_of_ne hname] at hp
      exact Nat.lt_add_right _ (h.stored name p hp)
  case agrees =>
    intro path root hpath _ p w hw value hvalue
    have hcalls := loadCalls_register emit s.table (hnone path root hpath) (s.table.vars ++ [v])
      s.table.vars.length
    rw [given, hcalls] at hvalue
    obtain ⟨c, hc, hp⟩ := exists_of_given hvalue
    obtain ⟨name, hname⟩ := stored_of_mem hc
    have hlt := h.stored name c.1 hname
    rw [hp] at hlt
    rw [List.getElem?_append_left hlt] at hw
    exact h.agrees path root hpath (fun _ hf => by cases hf) p w hw value hvalue

theorem Fresh.setValue [DecidableEq Ty] (h : Fresh fromStr emit s []) {p : Nat}
    (hnone : ∀ path root, s.loaded path = some (some root) → ∀ c ∈ s.table.loadCalls emit root, c.1 ≠ p) (T : Ty)
    (value : Value T) : Fresh fromStr emit { s with table := setValue s.table p T value } [] := by
  constructor
  case stored =>
    intro name q hq
    show q < (s.table.vars.modify p _).length
    rw [List.length_modify]
    exact h.stored name q hq
  case agrees =>
    intro path root hpath _ q w hw w' hw'
    rw [given_congr rfl] at hw'
    obtain ⟨c, hc, hq⟩ := exists_of_given hw'
    have hne : p ≠ q := fun heq => hnone path root hpath c hc (hq.trans heq.symm)
    have hsame : s.table.vars[q]? = some w := by simpa [ConfDir.setValue, hne] using hw
    exact h.agrees path root hpath (fun _ hf => by cases hf) q w hsame w' hw'

variable [DecidableEq Ty]

theorem Fresh.next (h : Fresh fromStr emit s []) {e : Event Value} (hcareful : Careful emit s e) :
    Fresh fromStr emit (next fromStr emit s e) [] := by
  cases e with
  | lookUp T name value =>
    cases hfind : s.table.find T name with
    | some p =>
      have hcall : s.table.lookUp T name value = .ok (p, s.table) := by simp [Table.lookUp, hfind]
      simpa only [ConfDir.next, hcall] using h
    | none =>
      cases hvalid : nameInvalid name with
      | true =>
        have hcall : s.table.lookUp T name value = .error name := by simp [Table.lookUp, hfind, hvalid]
        simpa only [ConfDir.next, hcall] using h
      | false =>
        have hnone := hcareful.resolve_left fun hne => hne hfind
        have hcall : s.table.lookUp T name value = .ok (s.table.vars.length,
            ⟨s.table.vars ++ [⟨T, name, value⟩],
              Function.update s.table.datas name (some s.table.vars.length)⟩) := by
          simp [Table.lookUp, hfind, hvalid]
        simpa only [ConfDir.next, hcall] using h.register ⟨T, name, value⟩ hnone
  | setValue p T value => exact h.setValue hcareful T value
  | loadFromYaml root =>
    obtain ⟨hdatas, htypes, -⟩ := loadFromYaml_frame fromStr emit s.table root
    have hlength := congrArg List.length htypes
    rw [List.length_map, List.length_map] at hlength
    constructor
    case stored =>
      intro name p hp
      show p < (s.table.loadFromYaml fromStr emit root).vars.length
      rw [hlength]
      exact h.stored name p (hdatas ▸ hp)
    case agrees =>
      intro path root' hpath _
      exact (h.agrees path root' hpath fun _ hf => by cases hf).loadFromYaml (hcareful path root' hpath)
  | loadFromConfDir path force entries =>
    obtain ⟨hdistinct, hknown, hsep⟩ := hcareful
    exact (loadFromConfDir_eq_forced h hdistinct hknown hsep force).2.2

theorem Fresh.of_reaches (h : (machine fromStr emit).Reaches (Careful emit) initial s) : Fresh fromStr emit s [] := by
  refine h.invariant (I := fun s => Fresh fromStr emit s []) ?_ ?_
  · intro t e t' ht hcareful hstep
    cases hstep
    exact ht.next hcareful
  · constructor
    · intro name p hp
      cases hp
    · intro path root hpath
      cases hpath

/-- After any such run, a load that leaves out the files with recorded times has the same effect as one that loads all
files, and each variable that a file of the directory sets has the value of this file then. -/
theorem load_eq_forced_of_reaches (h : (machine fromStr emit).Reaches (Careful emit) initial s) {path : List Byte}
    {entries : Dirents} (hload : Careful emit s (.loadFromConfDir path false entries)) :
    s.loadFromConfDir fromStr emit path false entries = s.loadFromConfDir fromStr emit path true entries ∧
      ∀ f ∈ listAllFile path yml entries, ∀ root, f.2.root = some root →
        Agrees fromStr emit (s.loadFromConfDir fromStr emit path false entries).table root := by
  obtain ⟨hdistinct, hknown, hsep⟩ := hload
  obtain ⟨heq, hcontents, hfresh⟩ := loadFromConfDir_eq_forced (Fresh.of_reaches h) hdistinct hknown hsep false
  refine ⟨heq, fun f hf root hroot => hfresh.agrees f.1 root ?_ fun _ hf => by cases hf⟩
  rw [hcontents, contents_of_mem (nodup_listAllFile path entries hdistinct) hf, hroot]

end

/-! ### Two files -/

-- `"port"`, `"host"`, `"/a.yml"` and `"/sub/b.yml"`
private def port : List Byte := [112, 111, 114, 116]

private def host : List Byte := [104, 111, 115, 116]

private def portFile : List Byte := [47, 97, 46, 121, 109, 108]

private def hostFile : List Byte := [47, 115, 117, 98, 47, 98, 46, 121, 109, 108]

private def setting (name value : List Byte) : Config.Node := .map (.cons name (.scalar value) .nil)

/-- `a.yml` sets the port, and `sub/b.yml` sets the host. -/
private def twoFiles (time : BitVec 64) (value : List Byte) : Dirents :=
  .cons (.reg [97, 46, 121, 109, 108] ⟨time, some (setting port value)⟩)
    (.cons (.dir [115, 117, 98] (.cons (.reg [98, 46, 121, 109, 108] ⟨1, some (setting host [56])⟩) .nil)) .nil)

private theorem distinct_twoFiles (time : BitVec 64) (value : List Byte) : (twoFiles time value).Distinct := by
  simp [twoFiles, Dirents.Distinct, Dirent.Distinct, Dirent.name, Dirents.names]

private theorem listAllFile_twoFiles (time : BitVec 64) (value : List Byte) :
    listAllFile [] yml (twoFiles time value) =
      [(portFile, ⟨time, some (setting port value)⟩), (hostFile, ⟨1, some (setting host [56])⟩)] := rfl

private theorem separate_twoFiles {t : Table fun _ : Unit => List Byte}
    {loaded : List Byte → Option (Option Config.Node)} {value : List Byte}
    (hport : t.loadCalls Config.Node.text (setting port value) = [(0, value)])
    (hhost : t.loadCalls Config.Node.text (setting host [56]) = [(1, [56])])
    (hloaded : ∀ path, path ≠ portFile → path ≠ hostFile → loaded path = none) (time : BitVec 64) :
    Separate Config.Node.text t (listAllFile [] yml (twoFiles time value)) loaded := by
  have happart : Apart Config.Node.text t (setting port value) (setting host [56]) := by
    intro c hc c' hc'
    rw [hport, List.mem_singleton] at hc
    rw [hhost, List.mem_singleton] at hc'
    subst hc hc'
    exact Nat.zero_ne_one
  have hcontents : ∀ path, contents (listAllFile [] yml (twoFiles time value)) loaded path =
      if path = hostFile then some (some (setting host [56]))
      else if path = portFile then some (some (setting port value)) else loaded path := by
    intro path
    rw [listAllFile_twoFiles, contents, List.foldl_cons, List.foldl_cons, List.foldl_nil, Function.update_apply,
      Function.update_apply]
  intro f hf root hroot path root' hpath hafter
  rw [hcontents] at hafter
  rw [listAllFile_twoFiles] at hf
  simp only [List.mem_cons, List.not_mem_nil, or_false] at hf
  rcases hf with rfl | rfl
  · cases hroot
    by_cases hhostFile : path = hostFile
    · rw [if_pos hhostFile] at hafter
      cases hafter
      exact happart
    · rw [if_neg hhostFile, if_neg hpath, hloaded path hpath hhostFile] at hafter
      cases hafter
  · cases hroot
    rw [if_neg hpath] at hafter
    by_cases hportFile : path = portFile
    · rw [if_pos hportFile] at hafter
      cases hafter
      exact happart.symm
    · rw [if_neg hportFile, hloaded path hportFile hpath] at hafter
      cases hafter

private def registered : State fun _ : Unit => List Byte :=
  next (fun _ => some) Config.Node.text (next (fun _ => some) Config.Node.text initial (.lookUp () port []))
    (.lookUp () host [])

private theorem careful_registered :
    Careful Config.Node.text registered (.loadFromConfDir [] false (twoFiles 1 [55])) := by
  refine ⟨distinct_twoFiles _ _, ?_, separate_twoFiles (by decide +kernel) (by decide +kernel) (fun _ _ _ => rfl) _⟩
  intro f hf htime
  rw [listAllFile_twoFiles] at hf
  simp only [List.mem_cons, List.not_mem_nil, or_false] at hf
  rcases hf with rfl | rfl
  · exact absurd htime (by decide +kernel)
  · exact absurd htime (by decide +kernel)

private def loadedOnce : State fun _ : Unit => List Byte :=
  registered.loadFromConfDir (fun _ => some) Config.Node.text [] false (twoFiles 1 [55])

private theorem reaches_loadedOnce :
    (machine (fun _ => some) Config.Node.text).Reaches (Careful Config.Node.text) initial loadedOnce := by
  have hport : Careful Config.Node.text (initial : State fun _ : Unit => List Byte) (.lookUp () port []) :=
    Or.inr fun _ _ hpath => by cases hpath
  have hhost : Careful Config.Node.text
      (next (fun _ => some) Config.Node.text (initial : State fun _ : Unit => List Byte) (.lookUp () port []))
      (.lookUp () host []) := Or.inr fun _ _ hpath => by cases hpath
  exact .head hport rfl (.head hhost rfl (.single careful_registered rfl))

/-- The port changes, and the file with the host is left out. -/
private theorem careful_loadedOnce :
    Careful Config.Node.text loadedOnce (.loadFromConfDir [] false (twoFiles 2 [57])) := by
  refine ⟨distinct_twoFiles _ _, ?_, separate_twoFiles (by decide +kernel) (by decide +kernel) ?_ _⟩
  · intro f hf htime
    rw [listAllFile_twoFiles] at hf
    simp only [List.mem_cons, List.not_mem_nil, or_false] at hf
    rcases hf with rfl | rfl
    · exact absurd htime (by decide +kernel)
    · rfl
  · intro path hport hhost
    have hloaded : loadedOnce.loaded = Function.update (Function.update (fun _ => none) portFile
        (some (some (setting port [55])))) hostFile (some (some (setting host [56]))) := rfl
    rw [hloaded, Function.update_of_ne hhost, Function.update_of_ne hport]

theorem load_eq_forced_of_reaches_twoFiles : ∃ s : State fun _ : Unit => List Byte,
    (machine (fun _ => some) Config.Node.text).Reaches (Careful Config.Node.text) initial s ∧
      s.fileModifyTime hostFile = 1 ∧
      s.loadFromConfDir (fun _ => some) Config.Node.text [] false (twoFiles 2 [57]) =
        s.loadFromConfDir (fun _ => some) Config.Node.text [] true (twoFiles 2 [57]) :=
  ⟨loadedOnce, reaches_loadedOnce, by decide +kernel,
    (load_eq_forced_of_reaches reaches_loadedOnce careful_loadedOnce).1⟩

end ConfDir

end AcidCompute
