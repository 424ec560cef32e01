import AcidCompute.Base.ByteOrder
import Mathlib.Data.List.DropRight
import Mathlib.Logic.Function.Basic

/-!
# The command line (`Env` in `acid/common/env.{h,cpp}`)

`init` goes through the arguments with the key of the last option as long as it may get a value.  Just the sequences of
options are accepted (`scan_flatMap`, `isOptions_of_scan`).  The loop starts with the program name, though, which is a
value without an option (`init_iff`).
-/

namespace AcidCompute

/-- An `Env`, by the members that `init` sets. -/
structure Env where
  args : List Byte → Option (List Byte)
  program : List Byte
  exe : List Byte
  cwd : List Byte

namespace Env

def add (e : Env) (key val : List Byte) : Env := { e with args := Function.update e.args key (some val) }

/-- `if (key) add(key)` -/
def addPending (e : Env) (key : Option (List Byte)) : Env := key.elim e fun key => e.add key []

/-- A string with a `-` in front. -/
def StartsDash (arg : List Byte) : Prop := arg.head? = some 45

instance (arg : List Byte) : Decidable (StartsDash arg) := inferInstanceAs (Decidable (_ = _))

/-- The loop of `init`, with `key` and the arguments from `argv[i]` on. -/
def scan : Option (List Byte) → List (List Byte) → Env → Bool × Env
  | key, [], e => (true, e.addPending key)
  | key, arg :: argv, e =>
    if StartsDash arg then
      if 1 < arg.length then scan (some arg.tail) argv (e.addPending key)
      -- `invalid arg`
      else (false, e)
    else
      match key with
      | some key => scan none argv (e.add key arg)
      | none => (false, e)

/-- `exe_.substr(0, pos) + "/"`, where `pos` may be `npos` -/
def directory (exe : List Byte) : List Byte :=
  (if exe.contains 47 then (exe.rdropWhile fun c => c ≠ 47).dropLast else exe) ++ [47]

/-- `init`; `path` is what `readlink` says of the program.  Without a program name it is undefined. -/
def init (path : List Byte) (argv : List (List Byte)) (e : Env) : Option (Bool × Env) :=
  argv.head?.map fun program =>
    scan none argv { e with exe := path, cwd := directory path, program := program }

/-! ### Options -/

/-- An option with its value, if it has one. -/
structure Opt where
  key : List Byte
  value : Option (List Byte)
  key_ne : key ≠ []
  value_plain : ∀ v ∈ value, ¬ StartsDash v

/-- The arguments for an option. -/
def Opt.text (o : Opt) : List (List Byte) := (45 :: o.key) :: o.value.toList

def Opt.val (o : Opt) : List Byte := o.value.getD []

def IsOptions (argv : List (List Byte)) : Prop := ∃ options : List Opt, argv = options.flatMap Opt.text

/-- The value of the last option with the key. -/
def lastVal (options : List Opt) (key : List Byte) : Option (List Byte) :=
  (options.reverse.find? fun o => o.key = key).map Opt.val

/-- An argument that a value may follow. -/
def IsKey (arg : List Byte) : Prop := StartsDash arg ∧ 1 < arg.length

/-- There is a value that does not follow an option. -/
def HasOrphan (argv : List (List Byte)) : Prop :=
  ∃ front value back, argv = front ++ value :: back ∧ ¬ StartsDash value ∧ ∀ arg ∈ front.getLast?, ¬ IsKey arg

theorem isKey_cons {key : List Byte} (hkey : key ≠ []) : IsKey (45 :: key) := by
  refine ⟨rfl, ?_⟩
  have hpos := List.length_pos_iff.2 hkey
  rw [List.length_cons]
  omega

theorem IsKey.exists_key {arg : List Byte} (h : IsKey arg) : ∃ key, key ≠ [] ∧ arg = 45 :: key := by
  have heq : arg = 45 :: arg.tail := List.eq_cons_of_mem_head? h.1
  refine ⟨arg.tail, fun hnil => ?_, heq⟩
  have hlength := h.2
  rw [heq, hnil] at hlength
  exact Nat.lt_irrefl 1 hlength

theorem IsOptions.nil : IsOptions [] := ⟨[], rfl⟩

theorem IsOptions.cons {argv : List (List Byte)} (h : IsOptions argv) (o : Opt) : IsOptions (o.text ++ argv) := by
  obtain ⟨options, rfl⟩ := h
  exact ⟨o :: options, rfl⟩

theorem IsOptions.head {argv : List (List Byte)} (h : IsOptions argv) : ∀ arg ∈ argv.head?, IsKey arg := by
  obtain ⟨options, rfl⟩ := h
  cases options with
  | nil => exact fun arg harg => by cases harg
  | cons o options =>
    rintro arg harg
    cases harg
    exact isKey_cons o.key_ne

/-- No argument is a single `-`. -/
theorem IsOptions.not_bare {argv : List (List Byte)} (h : IsOptions argv) : [45] ∉ argv := by
  obtain ⟨options, rfl⟩ := h
  intro hmem
  obtain ⟨o, -, ho⟩ := List.mem_flatMap.1 hmem
  rcases List.mem_cons.1 ho with hkey | hvalue
  · exact o.key_ne (List.cons.inj hkey).2.symm
  · exact o.value_plain [45] (Option.mem_toList.1 hvalue) rfl

/-- Every value follows an option. -/
theorem IsOptions.not_orphan {argv : List (List Byte)} (h : IsOptions argv) : ¬ HasOrphan argv := by
  obtain ⟨options, rfl⟩ := h
  rintro ⟨front, value, back, heq, hvalue, hfront⟩
  induction options generalizing front with
  | nil => exact List.cons_ne_nil _ _ (List.append_eq_nil_iff.1 heq.symm).2
  | cons o options ih =>
    cases front with
    | nil =>
      have hhead : 45 :: o.key = value := (List.cons.inj heq).1
      exact hvalue (hhead ▸ rfl)
    | cons arg front =>
      obtain ⟨harg, hrest⟩ := List.cons.inj heq
      -- the value is the one of this option, or of an option behind it
      cases hown : o.value with
      | none =>
        rw [hown] at hrest
        refine ih front hrest fun last hlast => hfront last ?_
        rw [List.getLast?_cons, Option.mem_def.1 hlast]
        rfl
      | some own =>
        rw [hown] at hrest
        cases front with
        | nil =>
          refine hfront arg rfl ?_
          rw [← harg]
          exact isKey_cons o.key_ne
        | cons arg' front =>
          refine ih front (List.cons.inj hrest).2 fun last hlast => hfront last ?_
          rw [List.getLast?_cons_cons, List.getLast?_cons, Option.mem_def.1 hlast]
          rfl

/-- What is behind the value of the first option. -/
theorem IsOptions.of_cons_cons {key value : List Byte} {argv : List (List Byte)} (h : IsOptions (key :: value :: argv))
    (hvalue : ¬ StartsDash value) : IsOptions argv := by
  obtain ⟨options, heq⟩ := h
  cases options with
  | nil => cases heq
  | cons o options =>
    have hrest : value :: argv = o.value.toList ++ options.flatMap Opt.text := (List.cons.inj heq).2
    cases hown : o.value with
    | none =>
      rw [hown] at hrest
      exact absurd (IsOptions.head ⟨options, hrest⟩ value rfl).1 hvalue
    | some own =>
      rw [hown] at hrest
      exact ⟨options, (List.cons.inj hrest).2⟩

/-! ### The loop -/

private theorem scan_key {key : List Byte} (hkey : key ≠ []) (pending : Option (List Byte)) (argv : List (List Byte))
    (e : Env) : scan pending ((45 :: key) :: argv) e = scan (some key) argv (e.addPending pending) := by
  obtain ⟨hdash, hlength⟩ := isKey_cons hkey
  rw [scan.eq_def]
  dsimp only
  rw [if_pos hdash, if_pos hlength, List.tail_cons]

/-- A key that gets no value. -/
private theorem scan_pending {argv : List (List Byte)} (hargv : ∀ arg ∈ argv.head?, IsKey arg) (key : List Byte)
    (e : Env) : scan (some key) argv e = scan none argv (e.add key []) := by
  cases argv with
  | nil => rfl
  | cons arg argv =>
    obtain ⟨hdash, hlength⟩ := hargv arg rfl
    rw [scan.eq_def, scan.eq_def none]
    dsimp only
    rw [if_pos hdash, if_pos hlength, if_pos hdash, if_pos hlength]
    rfl

private theorem scan_text (o : Opt) {argv : List (List Byte)} (hargv : ∀ arg ∈ argv.head?, IsKey arg) (e : Env) :
    scan none (o.text ++ argv) e = scan none argv (e.add o.key o.val) := by
  rw [Opt.text, List.cons_append, scan_key o.key_ne]
  cases hvalue : o.value with
  | none =>
    have hval : o.val = [] := by rw [Opt.val, hvalue]; rfl
    rw [hval]
    exact scan_pending hargv o.key e
  | some value =>
    have hval : o.val = value := by rw [Opt.val, hvalue]; rfl
    have hplain : ¬ StartsDash value := o.value_plain value hvalue
    rw [hval, Option.toList_some, List.singleton_append, scan.eq_def]
    dsimp only
    rw [if_neg hplain]
    rfl

/-- Options are accepted, and their values are added one after the other. -/
theorem scan_flatMap (options : List Opt) (e : Env) :
    scan none (options.flatMap Opt.text) e = (true, options.foldl (fun e o => e.add o.key o.val) e) := by
  induction options generalizing e with
  | nil => rfl
  | cons o options ih =>
    rw [List.flatMap_cons, scan_text o (IsOptions.head ⟨options, rfl⟩), ih]
    rfl

theorem foldl_add (options : List Opt) (e : Env) :
    (options.foldl (fun e o => e.add o.key o.val) e).program = e.program ∧
      ∀ key, (options.foldl (fun e o => e.add o.key o.val) e).args key = (lastVal options key).or (e.args key) := by
  induction options generalizing e with
  | nil => exact ⟨rfl, fun key => rfl⟩
  | cons o options ih =>
    rw [List.foldl_cons]
    obtain ⟨hprogram, hargs⟩ := ih (e.add o.key o.val)
    refine ⟨hprogram, fun key => (hargs key).trans ?_⟩
    unfold lastVal
    rw [List.reverse_cons, List.find?_append]
    cases options.reverse.find? fun o => o.key = key with
    | some last => rfl
    | none =>
      by_cases hkey : o.key = key
      · simp [add, hkey]
      · simp [add, hkey, Function.update_of_ne (Ne.symm hkey)]

/-- Nothing else is accepted. -/
theorem isOptions_of_scan {key : Option (List Byte)} (hkey : ∀ k ∈ key, k ≠ []) {argv : List (List Byte)} {e : Env}
    (h : (scan key argv e).1 = true) : IsOptions ((key.map (45 :: ·)).toList ++ argv) := by
  have hsingle : ∀ {k : List Byte}, k ≠ [] → ∀ {rest}, IsOptions rest → IsOptions ((45 :: k) :: rest) := by
    intro k hk rest hrest
    exact hrest.cons ⟨k, none, hk, fun v hv => by cases hv⟩
  induction argv generalizing key e with
  | nil =>
    cases key with
    | none => exact .nil
    | some k => exact hsingle (hkey k rfl) .nil
  | cons arg argv ih =>
    rw [scan.eq_def] at h
    dsimp only at h
    by_cases hdash : StartsDash arg
    · rw [if_pos hdash] at h
      by_cases hlength : 1 < arg.length
      · rw [if_pos hlength] at h
        obtain ⟨k, hk, rfl⟩ := IsKey.exists_key ⟨hdash, hlength⟩
        have hrest : IsOptions ((45 :: k) :: argv) := ih (fun k' hk' => by cases hk'; exact hk) h
        cases key with
        | none => exact hrest
        | some k' => exact hsingle (hkey k' rfl) hrest
      · rw [if_neg hlength] at h
        cases h
    · rw [if_neg hdash] at h
      cases key with
      | none => cases h
      | some k =>
        have hrest : IsOptions argv := ih (fun k' hk' => by cases hk') h
        exact hrest.cons ⟨k, some arg, hkey k rfl, fun v hv => by cases hv; exact hdash⟩

/-! ### The program name -/

/-- What `init` should do with a program name and the arguments behind it. -/
structure Right (path : List Byte) (e : Env) (program : List Byte) (rest : List (List Byte)) : Prop where
  accepts : ¬ StartsDash program → ∀ options : List Opt, rest = options.flatMap Opt.text →
    ∃ e', init path (program :: rest) e = some (true, e') ∧ e'.program = program ∧
      ∀ key, e'.args key = (lastVal options key).or (e.args key)
  refuses : [45] ∈ rest ∨ HasOrphan rest → ∃ e', init path (program :: rest) e = some (false, e')

private theorem init_cons (path program : List Byte) (rest : List (List Byte)) (e : Env) :
    init path (program :: rest) e =
      some (scan none (program :: rest) { e with exe := path, cwd := directory path, program := program }) := rfl

/-- The loop starts at `argv[0]`, which is a value without an option. -/
private theorem init_of_not_dash {program : List Byte} (hprogram : ¬ StartsDash program) (path : List Byte)
    (rest : List (List Byte)) (e : Env) : ∃ e', init path (program :: rest) e = some (false, e') := by
  refine ⟨{ e with exe := path, cwd := directory path, program := program }, ?_⟩
  rw [init_cons, scan.eq_def]
  dsimp only
  rw [if_neg hprogram]

/-- With the program name in front, `init` takes just the options. -/
private theorem init_eq_false {path program : List Byte} {rest : List (List Byte)} {e : Env}
    (h : ¬ IsOptions (program :: rest)) : ∃ e', init path (program :: rest) e = some (false, e') := by
  have hscan : ∀ r : Bool × Env, r.1 ≠ true → r = (false, r.2) := by
    rintro ⟨b, e'⟩ hb
    cases b with
    | false => rfl
    | true => exact absurd rfl hb
  rw [init_cons]
  refine ⟨_, congrArg some (hscan _ fun htrue => h ?_)⟩
  exact isOptions_of_scan (fun k hk => by cases hk) htrue

/-- No command line of a program and its options is accepted.  What is no such command line is refused, but a program
name with a `-` in front may get the value behind it. -/
theorem init_iff (path : List Byte) (e : Env) (program : List Byte) (rest : List (List Byte)) :
    Right path e program rest ↔ (¬ StartsDash program → ¬ IsOptions rest) ∧
      (IsKey program → ∀ value back, rest = value :: back → ¬ StartsDash value → ¬ IsOptions back) := by
  constructor
  · rintro ⟨haccepts, hrefuses⟩
    constructor
    · rintro hprogram ⟨options, hrest⟩
      obtain ⟨e', htrue, -⟩ := haccepts hprogram options hrest
      obtain ⟨e'', hfalse⟩ := init_of_not_dash hprogram path rest e
      rw [htrue] at hfalse
      cases hfalse
    · rintro hprogram value back rfl hvalue ⟨options, rfl⟩
      obtain ⟨key, hkey, rfl⟩ := hprogram.exists_key
      let o : Opt := ⟨key, some value, hkey, fun v hv => by cases hv; exact hvalue⟩
      have horphan : HasOrphan (value :: options.flatMap Opt.text) :=
        ⟨[], value, _, rfl, hvalue, fun arg harg => by cases harg⟩
      obtain ⟨e', hfalse⟩ := hrefuses (.inr horphan)
      have htrue : ∀ e, (scan none ((45 :: key) :: value :: options.flatMap Opt.text) e).1 = true := fun e =>
        congrArg Prod.fst (scan_flatMap (o :: options) e)
      rw [init_cons, Option.some.injEq] at hfalse
      have hfst := congrArg Prod.fst hfalse
      rw [htrue] at hfst
      cases hfst
  · rintro ⟨hplain, hkey⟩
    constructor
    · exact fun hprogram options hrest => absurd ⟨options, hrest⟩ (hplain hprogram)
    · intro hbad
      apply init_eq_false
      intro hoptions
      rcases hbad with hbare | ⟨front, value, back, rfl, hvalue, hfront⟩
      · exact hoptions.not_bare (List.mem_cons_of_mem _ hbare)
      · cases front with
        | nil => exact hkey (hoptions.head program rfl) value back rfl hvalue (hoptions.of_cons_cons hvalue)
        | cons arg front =>
          refine hoptions.not_orphan ⟨program :: arg :: front, value, back, rfl, hvalue, fun last hlast => ?_⟩
          rw [List.getLast?_cons_cons] at hlast
          exact hfront last hlast

/-- `acid -c conf` is refused. -/
theorem not_right_option : ¬ ∀ path e program rest, Right path e program rest := by
  intro hright
  let options : List Opt := [⟨[99], some [99, 111, 110, 102], by decide, by rintro v ⟨⟩; decide⟩]
  let e : Env := ⟨fun _ => none, [], [], []⟩
  obtain ⟨e', htrue, -⟩ := (hright [] e [97, 99, 105, 100] _).accepts (by decide) options rfl
  have hfalse : (init [] [[97, 99, 105, 100], [45, 99], [99, 111, 110, 102]] e).map Prod.fst = some false := by decide
  have hfst := (congrArg (Option.map Prod.fst) htrue).symm.trans hfalse
  cases hfst

end Env

end AcidCompute
