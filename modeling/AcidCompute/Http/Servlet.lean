import AcidCompute.Base.History
import AcidCompute.Http.Server

/-!
# Servlets (`ServletDispatch` in `acid/http/servlet.{h,cpp}`)

A servlet is found by the path of a request, by the path itself or else by the first pattern that matches it.  A
pattern that is bound again moves behind the others, so that the patterns are in the order of the calls that have bound
them last (`getMatchedServlet_iff`).

Every call holds the lock, so that the calls of all threads are one sequence.  `fnmatch` is a parameter.
-/

namespace AcidCompute

/-- An `IServletCreator`: a `HoldServletCreator`, or one that makes a servlet. -/
inductive Creator (Servlet Maker : Type)
  | hold (servlet : Servlet)
  | fresh (maker : Maker)

/-- `get()` -/
def Creator.get {Servlet Maker : Type} (make : Maker → Servlet) : Creator Servlet Maker → Servlet
  | .hold servlet => servlet
  | .fresh maker => make maker

structure ServletDispatch (Servlet Maker : Type) where
  datas : List Byte → Option (Creator Servlet Maker)
  globs : List (List Byte × Creator Servlet Maker)
  default : Servlet

namespace ServletDispatch

open History

variable {Servlet Maker Callback : Type}

/-- `ServletDispatch()`; the default is a `NotFoundServlet`. -/
def new (notFoundServlet : Servlet) : ServletDispatch Servlet Maker := ⟨fun _ => none, [], notFoundServlet⟩

section

variable (d : ServletDispatch Servlet Maker) (uri : List Byte)

def addServletCreator (creator : Creator Servlet Maker) : ServletDispatch Servlet Maker :=
  { d with datas := Function.update d.datas uri (some creator) }

def addServlet (servlet : Servlet) : ServletDispatch Servlet Maker :=
  { d with datas := Function.update d.datas uri (some (.hold servlet)) }

def addGlobServletCreator (creator : Creator Servlet Maker) : ServletDispatch Servlet Maker :=
  { d with globs := (d.globs.eraseP fun g => g.1 = uri) ++ [(uri, creator)] }

def addGlobServlet (servlet : Servlet) : ServletDispatch Servlet Maker :=
  { d with globs := (d.globs.eraseP fun g => g.1 = uri) ++ [(uri, .hold servlet)] }

def delServlet : ServletDispatch Servlet Maker := { d with datas := Function.update d.datas uri none }

def delGlobServlet : ServletDispatch Servlet Maker := { d with globs := d.globs.eraseP fun g => g.1 = uri }

def setDefault (servlet : Servlet) : ServletDispatch Servlet Maker := { d with default := servlet }

variable (fnmatch : List Byte → List Byte → Bool) (make : Maker → Servlet)

def getServlet : Option Servlet := (d.datas uri).map (Creator.get make)

def getGlobServlet : Option Servlet := (d.globs.find? fun g => g.1 = uri).map fun g => g.2.get make

def getMatchedServlet : Servlet :=
  match d.datas uri with
  | some creator => creator.get make
  | none =>
    match d.globs.find? fun g => fnmatch g.1 uri with
    | some g => g.2.get make
    | none => d.default

end

/-- A call that changes the tables; a function is made a `FunctionServlet`. -/
inductive Call (Servlet Maker Callback : Type)
  | addServlet (uri : List Byte) (servlet : Servlet)
  | addFunction (uri : List Byte) (cb : Callback)
  | addServletCreator (uri : List Byte) (creator : Creator Servlet Maker)
  | addGlobServlet (uri : List Byte) (servlet : Servlet)
  | addGlobFunction (uri : List Byte) (cb : Callback)
  | addGlobServletCreator (uri : List Byte) (creator : Creator Servlet Maker)
  | delServlet (uri : List Byte)
  | delGlobServlet (uri : List Byte)
  | setDefault (servlet : Servlet)

section

variable (function : Callback → Servlet)

def step (d : ServletDispatch Servlet Maker) : Call Servlet Maker Callback → ServletDispatch Servlet Maker
  | .addServlet uri servlet => d.addServlet uri servlet
  | .addFunction uri cb => d.addServletCreator uri (.hold (function cb))
  | .addServletCreator uri creator => d.addServletCreator uri creator
  | .addGlobServlet uri servlet => d.addGlobServlet uri servlet
  | .addGlobFunction uri cb => d.addGlobServlet uri (function cb)
  | .addGlobServletCreator uri creator => d.addGlobServletCreator uri creator
  | .delServlet uri => d.delServlet uri
  | .delGlobServlet uri => d.delGlobServlet uri
  | .setDefault servlet => d.setDefault servlet

/-- The tables behind some calls. -/
def run (notFoundServlet : Servlet) (calls : List (Call Servlet Maker Callback)) : ServletDispatch Servlet Maker :=
  calls.foldl (step function) (new notFoundServlet)

/-! ### What the calls bind -/

/-- The path that a call is about, and what it is bound to. -/
def Call.exact : Call Servlet Maker Callback → Option (List Byte × Option (Creator Servlet Maker))
  | .addServlet uri servlet => some (uri, some (.hold servlet))
  | .addFunction uri cb => some (uri, some (.hold (function cb)))
  | .addServletCreator uri creator => some (uri, some creator)
  | .delServlet uri => some (uri, none)
  | _ => none

/-- The pattern that a call is about, and what it is bound to. -/
def Call.glob : Call Servlet Maker Callback → Option (List Byte × Option (Creator Servlet Maker))
  | .addGlobServlet uri servlet => some (uri, some (.hold servlet))
  | .addGlobFunction uri cb => some (uri, some (.hold (function cb)))
  | .addGlobServletCreator uri creator => some (uri, some creator)
  | .delGlobServlet uri => some (uri, none)
  | _ => none

def Call.default? : Call Servlet Maker Callback → Option Servlet
  | .setDefault servlet => some servlet
  | _ => none

end

section

variable (function : Callback → Servlet) (make : Maker → Servlet) (fnmatch : List Byte → List Byte → Bool)
  (notFoundServlet : Servlet)

/-- The default that has been set last. -/
def lastDefault (calls : List (Call Servlet Maker Callback)) : Servlet :=
  (calls.filterMap Call.default?).getLast?.getD notFoundServlet

/-- The servlet for a path, by the history of the tables. -/
inductive Matched (calls : List (Call Servlet Maker Callback)) (uri : List Byte) : Servlet → Prop
  | exact {i : Nat} {c : Creator Servlet Maker} (h : Live (Call.exact function) calls i uri c) :
    Matched calls uri (c.get make)
  | glob {i : Nat} {pattern : List Byte} {c : Creator Servlet Maker}
    (hexact : ∀ i c, ¬ Live (Call.exact function) calls i uri c) (h : Live (Call.glob function) calls i pattern c)
    (hmatch : fnmatch pattern uri = true)
    (hfirst : ∀ j pattern' c', Live (Call.glob function) calls j pattern' c' → fnmatch pattern' uri = true → i ≤ j) :
    Matched calls uri (c.get make)
  | default (hexact : ∀ i c, ¬ Live (Call.exact function) calls i uri c)
    (hglob : ∀ i pattern c, Live (Call.glob function) calls i pattern c → fnmatch pattern uri ≠ true) :
    Matched calls uri (lastDefault notFoundServlet calls)

/-! ### The tables -/

variable {function} (d : ServletDispatch Servlet Maker) (call : Call Servlet Maker Callback)

private theorem step_datas : (d.step function call).datas =
    (call.exact function).elim d.datas fun b => Function.update d.datas b.1 b.2 := by
  cases call <;> rfl

private theorem step_globs : (d.step function call).globs =
    (call.glob function).elim d.globs fun b =>
      (d.globs.eraseP fun g => g.1 = b.1) ++ b.2.toList.map fun c => (b.1, c) := by
  cases call with
  | delGlobServlet uri => exact (List.append_nil _).symm
  | _ => rfl

private theorem step_default : (d.step function call).default = call.default?.getD d.default := by
  cases call <;> rfl

variable (function) (calls : List (Call Servlet Maker Callback))

/-- The table has the live bindings. -/
private theorem datas_eq_some_iff (uri : List Byte) (c : Creator Servlet Maker) :
    (run function notFoundServlet calls).datas uri = some c ↔ ∃ i, Live (Call.exact function) calls i uri c := by
  induction calls using List.reverseRecOn with
  | nil => simp [run, new, not_live_nil]
  | append_singleton calls call ih =>
    rw [run, List.foldl_concat, step_datas]
    simp only [live_concat, exists_or, exists_eq_left, exists_and_right, ← ih]
    cases hcall : call.exact function with
    | none =>
      simp only [Option.elim_none]
      simp [run]
    | some b =>
      obtain ⟨uri', v⟩ := b
      by_cases huri : uri = uri'
      · subst huri
        simp
      · have hne : uri' ≠ uri := Ne.symm huri
        simp only [Option.elim_some, Function.update_of_ne huri]
        simp [run, hne]

/-- In a table that binds each pattern once, erasing the first binding of a pattern is erasing all of them. -/
private theorem eraseP_globs {table : List (Nat × List Byte × Creator Servlet Maker)}
    (hnodup : (table.map fun b => b.2.1).Nodup) (pattern : List Byte) :
    (table.map Prod.snd).eraseP (fun g => g.1 = pattern) = (table.filter fun b => b.2.1 ≠ pattern).map Prod.snd := by
  induction table with
  | nil => rfl
  | cons b table ih =>
    rw [List.map_cons, List.nodup_cons] at hnodup
    by_cases hpattern : b.2.1 = pattern
    · have hrest : table.filter (fun b => b.2.1 ≠ pattern) = table := by
        rw [List.filter_eq_self]
        intro b' hmem
        rw [decide_eq_true_eq]
        intro heq
        exact hnodup.1 (hpattern.trans heq.symm ▸ List.mem_map_of_mem hmem)
      rw [List.map_cons, List.eraseP_cons_of_pos (by simpa using hpattern),
        List.filter_cons_of_neg (by simpa using hpattern), hrest]
    · rw [List.map_cons, List.eraseP_cons_of_neg (by simpa using hpattern),
        List.filter_cons_of_pos (by simpa using hpattern), List.map_cons, ih hnodup.2]

/-- The patterns are in the order of the calls that have bound them last. -/
private theorem exists_listed : ∃ table, Listed (Call.glob function) calls table ∧
    (run function notFoundServlet calls).globs = table.map Prod.snd := by
  induction calls using List.reverseRecOn with
  | nil => exact ⟨[], .nil, rfl⟩
  | append_singleton calls call ih =>
    obtain ⟨table, hlisted, hglobs⟩ := ih
    rw [run, List.foldl_concat, step_globs, ← run, hglobs]
    cases hcall : call.glob function with
    | none => exact ⟨table, hlisted.other hcall, rfl⟩
    | some b =>
      obtain ⟨pattern, v⟩ := b
      rw [Option.elim_some, eraseP_globs hlisted.keys_nodup]
      cases v with
      | none => exact ⟨_, hlisted.remove hcall, List.append_nil _⟩
      | some c => exact ⟨_, hlisted.bind hcall, by rw [List.map_append]; rfl⟩

private theorem default_eq : (run function notFoundServlet calls).default = lastDefault notFoundServlet calls := by
  induction calls using List.reverseRecOn with
  | nil => rfl
  | append_singleton calls call ih =>
    rw [run, List.foldl_concat, step_default, ← run, ih, lastDefault, lastDefault, List.filterMap_append]
    cases hcall : call.default? <;> simp [hcall]

/-! ### The servlet that is found -/

variable {function make fnmatch notFoundServlet calls} in
/-- A history decides about the servlet. -/
theorem Matched.unique {uri : List Byte} {s s' : Servlet}
    (h : Matched function make fnmatch notFoundServlet calls uri s)
    (h' : Matched function make fnmatch notFoundServlet calls uri s') : s = s' := by
  cases h with
  | exact hlive =>
    cases h' with
    | exact hlive' => rw [(hlive.unique hlive').2]
    | glob hexact => exact absurd hlive (hexact _ _)
    | default hexact => exact absurd hlive (hexact _ _)
  | @glob i pattern c hexact hlive hmatch hfirst =>
    cases h' with
    | exact hlive' => exact absurd hlive' (hexact _ _)
    | @glob i' pattern' c' _ hlive' hmatch' hfirst' =>
      have hi : i = i' := Nat.le_antisymm (hfirst _ _ _ hlive' hmatch') (hfirst' _ _ _ hlive hmatch)
      subst hi
      have hbinds := hlive.binds.symm.trans hlive'.binds
      cases hbinds
      rfl
    | default _ hglob => exact absurd hmatch (hglob _ _ _ hlive)
  | default hexact hglob =>
    cases h' with
    | exact hlive' => exact absurd hlive' (hexact _ _)
    | glob _ hlive' hmatch' => exact absurd hmatch' (hglob _ _ _ hlive')
    | default => rfl

private theorem matched_getMatchedServlet (uri : List Byte) :
    Matched function make fnmatch notFoundServlet calls uri
      ((run function notFoundServlet calls).getMatchedServlet uri fnmatch make) := by
  obtain ⟨table, hlisted, hglobs⟩ := exists_listed function notFoundServlet calls
  obtain ⟨hfound, hnone⟩ := hlisted.find? fun pattern => fnmatch pattern uri
  have hfind : (run function notFoundServlet calls).globs.find? (fun g => fnmatch g.1 uri) =
      (table.find? fun b => fnmatch b.2.1 uri).map Prod.snd := by
    rw [hglobs, List.find?_map]
    rfl
  rw [getMatchedServlet]
  cases hdatas : (run function notFoundServlet calls).datas uri with
  | some c =>
    obtain ⟨i, hlive⟩ := (datas_eq_some_iff function notFoundServlet calls uri c).1 hdatas
    exact .exact hlive
  | none =>
    have hexact : ∀ i c, ¬ Live (Call.exact function) calls i uri c := by
      intro i c hlive
      have hbound := (datas_eq_some_iff function notFoundServlet calls uri c).2 ⟨i, hlive⟩
      rw [hdatas] at hbound
      cases hbound
    cases hglob : table.find? fun b => fnmatch b.2.1 uri with
    | some b =>
      obtain ⟨hlive, hmatch, hfirst⟩ := hfound b hglob
      simp only [hfind, hglob, Option.map_some]
      exact .glob hexact hlive hmatch hfirst
    | none =>
      simp only [hfind, hglob, Option.map_none, default_eq]
      exact .default hexact (hnone hglob)

/-- `get_servlet` finds what the path itself is bound to. -/
theorem getServlet_eq_some_iff (uri : List Byte) (s : Servlet) :
    (run function notFoundServlet calls).getServlet uri make = some s ↔
      ∃ i c, Live (Call.exact function) calls i uri c ∧ c.get make = s := by
  rw [getServlet, Option.map_eq_some_iff]
  constructor
  · rintro ⟨c, hdatas, rfl⟩
    obtain ⟨i, hlive⟩ := (datas_eq_some_iff function notFoundServlet calls uri c).1 hdatas
    exact ⟨i, c, hlive, rfl⟩
  · rintro ⟨i, c, hlive, rfl⟩
    exact ⟨c, (datas_eq_some_iff function notFoundServlet calls uri c).2 ⟨i, hlive⟩, rfl⟩

/-- `get_glob_servlet` finds what the pattern itself is bound to. -/
theorem getGlobServlet_eq_some_iff (pattern : List Byte) (s : Servlet) :
    (run function notFoundServlet calls).getGlobServlet pattern make = some s ↔
      ∃ i c, Live (Call.glob function) calls i pattern c ∧ c.get make = s := by
  obtain ⟨table, hlisted, hglobs⟩ := exists_listed function notFoundServlet calls
  obtain ⟨hfound, hnone⟩ := hlisted.find? fun pattern' => pattern' = pattern
  rw [getGlobServlet, hglobs, List.find?_map]
  change ((table.find? fun b => b.2.1 = pattern).map Prod.snd).map _ = some s ↔ _
  cases hfind : table.find? fun b => b.2.1 = pattern with
  | none =>
    simp only [Option.map_none]
    constructor
    · intro h
      cases h
    · rintro ⟨i, c, hlive, -⟩
      exact absurd (decide_eq_true rfl) (hnone hfind i pattern c hlive)
  | some b =>
    obtain ⟨hlive, hpattern, -⟩ := hfound b hfind
    rw [decide_eq_true_eq] at hpattern
    simp only [Option.map_some, Option.some.injEq]
    constructor
    · intro h
      exact ⟨b.1, b.2.2, hpattern ▸ hlive, h⟩
    · rintro ⟨i, c, hlive', rfl⟩
      rw [hpattern] at hlive
      rw [(hlive.unique hlive').2]

/-- No pattern is there twice, and the history decides about the servlet that is found. -/
theorem getMatchedServlet_iff (function : Callback → Servlet) (make : Maker → Servlet)
    (fnmatch : List Byte → List Byte → Bool) (notFoundServlet : Servlet)
    (calls : List (Call Servlet Maker Callback)) :
    ((run function notFoundServlet calls).globs.map Prod.fst).Nodup ∧
      ∀ uri s, (run function notFoundServlet calls).getMatchedServlet uri fnmatch make = s ↔
        Matched function make fnmatch notFoundServlet calls uri s := by
  constructor
  · obtain ⟨table, hlisted, hglobs⟩ := exists_listed function notFoundServlet calls
    rw [hglobs, List.map_map]
    exact hlisted.keys_nodup
  · intro uri s
    have hmatched := matched_getMatchedServlet function make fnmatch notFoundServlet calls uri
    constructor
    · rintro rfl
      exact hmatched
    · intro h
      exact hmatched.unique h

end

/-! ### Handling a request -/

/-- `ServletDispatch::handle`; the pointer to the servlet may be null. -/
def handle (d : ServletDispatch (Option Http.Dispatch) Maker) (fnmatch : List Byte → List Byte → Bool)
    (make : Maker → Option Http.Dispatch) : Http.Dispatch := fun request response =>
  match d.getMatchedServlet request.path fnmatch make with
  | some servlet => servlet request response
  | none => (request, response)

/-- The flags are left alone if the servlets that may be found do so. -/
theorem handle_keepsClose {function : Callback → Option Http.Dispatch} {make : Maker → Option Http.Dispatch}
    {fnmatch : List Byte → List Byte → Bool} {notFoundServlet : Option Http.Dispatch}
    {calls : List (Call (Option Http.Dispatch) Maker Callback)}
    (h : ∀ uri servlet, Matched function make fnmatch notFoundServlet calls uri (some servlet) → servlet.KeepsClose) :
    ((run function notFoundServlet calls).handle fnmatch make).KeepsClose := by
  intro request response
  have hmatched := matched_getMatchedServlet function make fnmatch notFoundServlet calls request.path
  unfold handle
  cases hservlet : (run function notFoundServlet calls).getMatchedServlet request.path fnmatch make with
  | none => exact ⟨rfl, rfl⟩
  | some servlet =>
    rw [hservlet] at hmatched
    exact h request.path servlet hmatched request response

end ServletDispatch

end AcidCompute
