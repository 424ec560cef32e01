import Mathlib.Data.List.Basic
import Mathlib.Logic.Function.Basic

/-!
# Blocking mode (`fcntl` and `ioctl` in `acid/common/hook.cpp`, `acid/common/fd_manager.{h,cpp}`)

A socket that `FdManager` knows does not block in the kernel, and its `FdCtx` has the mode that the user has asked for.
`fcntl` keeps the two apart (`Known.setfl`, `Known.getfl`).  The hooked `ioctl` calls itself where it should call the
system (`ioctl_eq_none`).
-/

namespace AcidCompute

/-- `O_NONBLOCK` -/
def oNonblock : BitVec 32 := BitVec.twoPow 32 11

/-- `FIONBIO` -/
def fionbio : BitVec 64 := 0x5421

/-- A command of `fcntl`, with what is passed on behind it. -/
inductive FcntlCommand
  | setfl (arg : BitVec 32)
  | getfl
  | other (cmd : BitVec 32) (arg : Option (BitVec 64))

/-- `fcntl_f` and `ioctl_f` on an open file: its flags afterwards and the result, from the flags before. -/
structure SystemCalls where
  fcntl : FcntlCommand → BitVec 32 → BitVec 32 × BitVec 32
  ioctl : BitVec 64 → BitVec 32 → BitVec 32 → BitVec 32 × BitVec 32

/-- What the manual says of `F_GETFL` and `F_SETFL`, which changes the flags in `settable` or fails. -/
structure SystemCalls.Documented (C : SystemCalls) (settable : BitVec 32) : Prop where
  getfl : ∀ flags, C.fcntl .getfl flags = (flags, flags)
  setfl : ∀ arg flags, C.fcntl (.setfl arg) flags = (flags, -1) ∨
    C.fcntl (.setfl arg) flags = (flags &&& ~~~settable ||| arg &&& settable, 0)
  nonblock : settable.getLsbD 11 = true
  addNonblock : ∀ flags, (C.fcntl (.setfl (flags ||| oNonblock)) flags).2 = 0

/-- An `FdCtx`, without its timeouts. -/
structure FdCtx where
  isInit : Bool
  isSocket : Bool
  sysNonblock : Bool
  userNonblock : Bool
  isClosed : Bool
  deriving DecidableEq

/-- `FdCtx::init`, with the flags of the file; `stat` is whether `fstat` finds a socket, or none if it fails. -/
def FdCtx.init (C : SystemCalls) (stat : Option Bool) (flags : BitVec 32) : FdCtx × BitVec 32 :=
  let isSocket := stat.getD false
  let flags :=
    if isSocket then
      let r := C.fcntl .getfl flags
      if r.2 &&& oNonblock = 0 then (C.fcntl (.setfl (r.2 ||| oNonblock)) r.1).1 else r.1
    else flags
  (⟨stat.isSome, isSocket, isSocket, false, false⟩, flags)

/-- `FdManager` -/
structure FdManager where
  fdCtxs : List (Option FdCtx)
  -- the constructor makes room for so many, and there is never less
  le_length : 64 ≤ fdCtxs.length

namespace FdManager

def new : FdManager := ⟨List.replicate 64 none, Nat.le_of_eq List.length_replicate.symm⟩

/-- `get` without `auto_create`; a descriptor -1 is in no table. -/
def get (m : FdManager) (fd : Nat) : Option FdCtx := m.fdCtxs[fd]?.join

/-- `m_fd_ctxs.resize(fd * 1.5)`, if there is no room for the descriptor -/
def reserve (m : FdManager) (fd : Nat) : FdManager :=
  if fd < m.fdCtxs.length then m
  else ⟨m.fdCtxs ++ List.replicate (fd + fd / 2 - m.fdCtxs.length) none,
    Nat.le_trans m.le_length (by rw [List.length_append]; exact Nat.le_add_right _ _)⟩

def set (m : FdManager) (fd : Nat) (ctx : FdCtx) : FdManager :=
  ⟨m.fdCtxs.set fd (some ctx), by rw [List.length_set]; exact m.le_length⟩

theorem get_set {m : FdManager} {fd : Nat} (h : fd < m.fdCtxs.length) (ctx : FdCtx) :
    (m.set fd ctx).get fd = some ctx := by
  rw [get, set, List.getElem?_set_self h]
  rfl

theorem lt_of_get {m : FdManager} {fd : Nat} {ctx : FdCtx} (h : m.get fd = some ctx) : fd < m.fdCtxs.length := by
  by_contra hge
  rw [get, List.getElem?_eq_none (Nat.le_of_not_lt hge)] at h
  cases h

theorem lt_reserve (m : FdManager) (fd : Nat) : fd < (m.reserve fd).fdCtxs.length := by
  unfold reserve
  split
  · assumption
  · have hle := m.le_length
    rw [List.length_append, List.length_replicate]
    omega

end FdManager

/-- The table of the library, and the flags of the files in the kernel. -/
structure Files where
  manager : FdManager
  flags : Nat → BitVec 32

namespace Files

variable (C : SystemCalls)

def fcntlF (s : Files) (fd : Nat) (cmd : FcntlCommand) : Files × BitVec 32 :=
  let r := C.fcntl cmd (s.flags fd)
  ({ s with flags := Function.update s.flags fd r.1 }, r.2)

def ioctlF (s : Files) (fd : Nat) (request : BitVec 64) (arg : BitVec 32) : Files × BitVec 32 :=
  let r := C.ioctl request arg (s.flags fd)
  ({ s with flags := Function.update s.flags fd r.1 }, r.2)

/-- `get` with `auto_create` -/
def create (s : Files) (stat : Option Bool) (fd : Nat) : Files :=
  match s.manager.get fd with
  | some _ => s
  | none =>
    let r := FdCtx.init C stat (s.flags fd)
    ⟨(s.manager.reserve fd).set fd r.1, Function.update s.flags fd r.2⟩

variable (s : Files)

/-- The context, unless `!ctx || ctx->is_close() || !ctx->is_socket()`. -/
def socket (fd : Nat) : Option FdCtx := (s.manager.get fd).filter fun ctx => !ctx.isClosed && ctx.isSocket

/-- `ctx->set_user_nonblock(v)` -/
def setUserNonblock (fd : Nat) (ctx : FdCtx) (v : Bool) : Files :=
  { s with manager := s.manager.set fd { ctx with userNonblock := v } }

/-- The hooked `fcntl`. -/
def fcntl (fd : Nat) : FcntlCommand → Files × BitVec 32
  | .setfl arg =>
    match s.socket fd with
    | none => s.fcntlF C fd (.setfl arg)
    | some ctx =>
      (s.setUserNonblock fd ctx (arg &&& oNonblock ≠ 0)).fcntlF C fd
        (.setfl (if ctx.sysNonblock then arg ||| oNonblock else arg &&& ~~~oNonblock))
  | .getfl =>
    let r := s.fcntlF C fd .getfl
    match r.1.socket fd with
    | none => r
    | some ctx => (r.1, if ctx.userNonblock then r.2 ||| oNonblock else r.2 &&& ~~~oNonblock)
  | .other cmd arg => s.fcntlF C fd (.other cmd arg)

/-- The hooked `ioctl`, as far as `fuel` calls of itself lead; `arg` is what the argument points to. -/
def ioctl : Nat → Files → Nat → BitVec 64 → BitVec 32 → Option (Files × BitVec 32)
  | 0, _, _, _, _ => none
  | fuel + 1, s, fd, request, arg =>
    if request = fionbio then
      match s.socket fd with
      | none => some (s.ioctlF C fd request arg)
      | some ctx => ioctl fuel (s.setUserNonblock fd ctx (arg ≠ 0)) fd request arg
    -- the same for the other requests
    else ioctl fuel s fd request arg

/-! ### Calls for one descriptor -/

/-- `fcntl(fd, F_SETFL, arg)`, `fcntl(fd, F_GETFL)` and `ioctl(fd, FIONBIO, &arg)` -/
inductive Call
  | setfl (arg : BitVec 32)
  | getfl
  | setNonblock (arg : BitVec 32)
  deriving DecidableEq

def call (fuel : Nat) (s : Files) (fd : Nat) : Call → Option (Files × BitVec 32)
  | .setfl arg => some (s.fcntl C fd (.setfl arg))
  | .getfl => some (s.fcntl C fd .getfl)
  | .setNonblock arg => ioctl C fuel s fd fionbio arg

/-- What is left and the results, if all calls return. -/
def run (fuel : Nat) : Files → Nat → List Call → Option (Files × List (BitVec 32))
  | s, _, [] => some (s, [])
  | s, fd, c :: calls => (call C fuel s fd c).bind fun r => (run fuel r.1 fd calls).map fun r' => (r'.1, r.2 :: r'.2)

/-- The mode that a call asks for. -/
def Call.asks : Call → Option Bool
  | .setfl arg => some (arg.getLsbD 11)
  | .getfl => none
  | .setNonblock arg => some (arg ≠ 0)

/-- The mode that the last such call has asked for. -/
def asked (start : Bool) (calls : List Call) : Bool := calls.foldl (fun mode c => c.asks.getD mode) start

/-- The flags that the last call of `F_SETFL` without an error has set. -/
def lastSet (settable : BitVec 32) : BitVec 32 → List Call → List (BitVec 32) → BitVec 32
  | flags, .setfl arg :: calls, r :: rs =>
    lastSet settable (if r = 0 then flags &&& ~~~settable ||| arg &&& settable else flags) calls rs
  | flags, _ :: calls, _ :: rs => lastSet settable flags calls rs
  | flags, _, _ => flags

/-- The calls return, the file does not block, and `F_GETFL` tells what has been asked for. -/
def Right (settable : BitVec 32) (fd : Nat) (calls : List Call) : Prop :=
  ∃ fuel s' results, run C fuel s fd calls = some (s', results) ∧ (s'.flags fd).getLsbD 11 = true ∧
    (s'.fcntl C fd .getfl).2.getLsbD 11 = asked false calls ∧
      ∀ i, i ≠ 11 → (s'.fcntl C fd .getfl).2.getLsbD i = (lastSet settable (s.flags fd) calls results).getLsbD i

/-! ### What the table and the kernel have -/

/-- A socket in the table: `mode` is what the user has asked for, and the other flags are the ones of `flags`. -/
structure Known (s : Files) (fd : Nat) (mode : Bool) (flags : BitVec 32) : Prop where
  ctx : s.socket fd = some ⟨true, true, true, mode, false⟩
  nonblock : (s.flags fd).getLsbD 11 = true
  others : ∀ i, i ≠ 11 → (s.flags fd).getLsbD i = flags.getLsbD i

private theorem getLsbD_oNonblock (i : Nat) : oNonblock.getLsbD i = decide (11 = i) := by
  rw [oNonblock, BitVec.getLsbD_twoPow]
  simp

private theorem and_oNonblock (arg : BitVec 32) : decide (arg &&& oNonblock ≠ 0) = arg.getLsbD 11 := by
  rw [oNonblock, BitVec.and_twoPow]
  cases arg.getLsbD 11 <;> decide

private theorem getLsbD_or (arg : BitVec 32) : (arg ||| oNonblock).getLsbD 11 = true ∧
    ∀ i, i ≠ 11 → (arg ||| oNonblock).getLsbD i = arg.getLsbD i := by
  constructor
  · simp [getLsbD_oNonblock]
  · intro i hi
    simp [getLsbD_oNonblock, Ne.symm hi]

private theorem getLsbD_andNot (arg : BitVec 32) : (arg &&& ~~~oNonblock).getLsbD 11 = false ∧
    ∀ i, i ≠ 11 → (arg &&& ~~~oNonblock).getLsbD i = arg.getLsbD i := by
  constructor
  · simp [getLsbD_oNonblock]
  · intro i hi
    rw [BitVec.getLsbD_and, BitVec.getLsbD_not, getLsbD_oNonblock, decide_eq_false (Ne.symm hi)]
    by_cases hlt : i < 32
    · simp [hlt]
    · simp [BitVec.getLsbD_of_ge arg i (Nat.le_of_not_lt hlt)]

variable {C} {settable : BitVec 32} {s} {fd : Nat} {mode : Bool} {flags : BitVec 32}

/-- The flags after a command that has been documented. -/
private theorem getLsbD_set {i : Nat} (flags arg : BitVec 32) :
    (flags &&& ~~~settable ||| arg &&& settable).getLsbD i =
      if settable.getLsbD i then arg.getLsbD i else flags.getLsbD i := by
  simp only [BitVec.getLsbD_or, BitVec.getLsbD_and, BitVec.getLsbD_not]
  by_cases hlt : i < 32
  · cases settable.getLsbD i <;> simp [hlt]
  · simp [BitVec.getLsbD_of_ge _ i (Nat.le_of_not_lt hlt)]

theorem socket_setUserNonblock {ctx : FdCtx} (h : s.socket fd = some ctx) (v : Bool) :
    (s.setUserNonblock fd ctx v).socket fd = some { ctx with userNonblock := v } := by
  obtain ⟨hget, hopen⟩ := Option.filter_eq_some_iff.1 h
  rw [socket, setUserNonblock, FdManager.get_set (FdManager.lt_of_get hget)]
  exact Option.filter_eq_some_iff.2 ⟨rfl, hopen⟩

private theorem init_nonblock (hC : C.Documented settable) (flags : BitVec 32) :
    (FdCtx.init C (some true) flags).2.getLsbD 11 = true := by
  have hinit : (FdCtx.init C (some true) flags).2 =
      if flags &&& oNonblock = 0 then (C.fcntl (.setfl (flags ||| oNonblock)) flags).1 else flags := by
    simp only [FdCtx.init, Option.getD_some, if_true, hC.getfl]
  rw [hinit]
  split
  · rcases hC.setfl (flags ||| oNonblock) flags with hfail | hset
    · have hzero := hC.addNonblock flags
      rw [hfail] at hzero
      cases hzero
    · rw [hset, getLsbD_set, if_pos hC.nonblock]
      exact (getLsbD_or _).1
  · rename_i hbit
    rw [← and_oNonblock]
    exact decide_eq_true hbit

/-- A socket that has just been found does not block any more. -/
theorem Known.create (hC : C.Documented settable) (hunknown : s.manager.get fd = none) :
    Known (s.create C (some true) fd) fd false ((s.create C (some true) fd).flags fd) := by
  have hcreate : s.create C (some true) fd =
      ⟨(s.manager.reserve fd).set fd (FdCtx.init C (some true) (s.flags fd)).1,
        Function.update s.flags fd (FdCtx.init C (some true) (s.flags fd)).2⟩ := by
    rw [Files.create, hunknown]
  refine ⟨?_, ?_, fun i _ => rfl⟩
  · rw [hcreate, socket, FdManager.get_set (FdManager.lt_reserve _ _)]
    rfl
  · have hflags : (s.create C (some true) fd).flags fd = (FdCtx.init C (some true) (s.flags fd)).2 := by
      rw [hcreate]
      exact Function.update_self _ _ _
    rw [hflags]
    exact init_nonblock hC _

private theorem fcntlF_getfl (hC : C.Documented settable) (s : Files) (fd : Nat) :
    s.fcntlF C fd .getfl = (s, s.flags fd) := by
  rw [fcntlF, hC.getfl]
  dsimp only
  rw [Function.update_eq_self]

private theorem fcntlF_setfl (hC : C.Documented settable) (s : Files) (fd : Nat) (arg : BitVec 32) :
    s.fcntlF C fd (.setfl arg) = (s, -1) ∨ s.fcntlF C fd (.setfl arg) =
      ({ s with flags := Function.update s.flags fd (s.flags fd &&& ~~~settable ||| arg &&& settable) }, 0) := by
  rw [fcntlF]
  rcases hC.setfl arg (s.flags fd) with hfail | hset
  · left
    rw [hfail]
    dsimp only
    rw [Function.update_eq_self]
  · right
    rw [hset]

/-- The kernel keeps `O_NONBLOCK` whatever the user sets. -/
theorem Known.setfl (h : Known s fd mode flags) (hC : C.Documented settable) (arg : BitVec 32) :
    Known (s.fcntl C fd (.setfl arg)).1 fd (arg.getLsbD 11)
      (if (s.fcntl C fd (.setfl arg)).2 = 0 then flags &&& ~~~settable ||| arg &&& settable else flags) := by
  have hcall : s.fcntl C fd (.setfl arg) = (s.setUserNonblock fd ⟨true, true, true, mode, false⟩
      (arg.getLsbD 11)).fcntlF C fd (.setfl (arg ||| oNonblock)) := by
    rw [fcntl, h.ctx]
    dsimp only
    rw [if_pos rfl, and_oNonblock]
  have hsocket := socket_setUserNonblock h.ctx (arg.getLsbD 11)
  rw [hcall]
  rcases fcntlF_setfl hC (s.setUserNonblock fd ⟨true, true, true, mode, false⟩ (arg.getLsbD 11)) fd
    (arg ||| oNonblock) with hfail | hset
  · have herror : (-1 : BitVec 32) ≠ 0 := by decide
    rw [hfail, if_neg herror]
    exact ⟨hsocket, h.nonblock, h.others⟩
  · rw [hset, if_pos rfl]
    constructor
    case ctx => exact hsocket
    case nonblock =>
      dsimp only
      rw [Function.update_self, getLsbD_set, if_pos hC.nonblock]
      exact (getLsbD_or arg).1
    case others =>
      intro i hi
      dsimp only
      rw [Function.update_self, getLsbD_set, getLsbD_set, (getLsbD_or arg).2 i hi]
      split
      · rfl
      · exact h.others i hi

theorem Known.getfl (h : Known s fd mode flags) (hC : C.Documented settable) :
    (s.fcntl C fd .getfl).1 = s ∧ (s.fcntl C fd .getfl).2.getLsbD 11 = mode ∧
      ∀ i, i ≠ 11 → (s.fcntl C fd .getfl).2.getLsbD i = flags.getLsbD i := by
  have hcall : s.fcntl C fd .getfl =
      (s, if mode then s.flags fd ||| oNonblock else s.flags fd &&& ~~~oNonblock) := by
    rw [fcntl, fcntlF_getfl hC]
    dsimp only
    rw [h.ctx]
  rw [hcall]
  refine ⟨rfl, ?_⟩
  cases mode with
  | true => exact ⟨(getLsbD_or _).1, fun i hi => ((getLsbD_or _).2 i hi).trans (h.others i hi)⟩
  | false => exact ⟨(getLsbD_andNot _).1, fun i hi => ((getLsbD_andNot _).2 i hi).trans (h.others i hi)⟩

/-! ### Runs -/

/-- For a socket in the table the call comes to itself again. -/
theorem ioctl_eq_none {ctx : FdCtx} (h : s.socket fd = some ctx) (arg : BitVec 32) (fuel : Nat) :
    ioctl C fuel s fd fionbio arg = none := by
  induction fuel generalizing s ctx with
  | zero => rfl
  | succ fuel ih =>
    rw [ioctl, if_pos rfl, h]
    exact ih (socket_setUserNonblock h _)

/-- A run without `ioctl` returns, and the user sees what he has set. -/
theorem Known.run (h : Known s fd mode flags) (hC : C.Documented settable) {calls : List Call}
    (hcalls : ∀ arg, .setNonblock arg ∉ calls) (fuel : Nat) :
    ∃ s' results, run C fuel s fd calls = some (s', results) ∧
      Known s' fd (asked mode calls) (lastSet settable flags calls results) := by
  induction calls generalizing s mode flags with
  | nil => exact ⟨s, [], rfl, h⟩
  | cons c calls ih =>
    have hrest : ∀ arg, .setNonblock arg ∉ calls := fun arg hmem => hcalls arg (List.mem_cons_of_mem _ hmem)
    cases c with
    | setfl arg =>
      obtain ⟨s', results, hrun, hknown⟩ := ih (h.setfl hC arg) hrest
      refine ⟨s', (s.fcntl C fd (.setfl arg)).2 :: results, ?_, hknown⟩
      rw [Files.run, call, Option.bind_some, hrun]
      rfl
    | getfl =>
      obtain ⟨s', results, hrun, hknown⟩ := ih h hrest
      refine ⟨s', (s.fcntl C fd .getfl).2 :: results, ?_, hknown⟩
      rw [Files.run, call, Option.bind_some, (h.getfl hC).1, hrun]
      rfl
    | setNonblock arg => exact absurd List.mem_cons_self (hcalls arg)

/-- A run with `ioctl` does not return. -/
theorem Known.run_eq_none (h : Known s fd mode flags) (hC : C.Documented settable) {calls : List Call}
    {arg : BitVec 32} (hmem : .setNonblock arg ∈ calls) (fuel : Nat) : Files.run C fuel s fd calls = none := by
  induction calls generalizing s mode flags with
  | nil => cases hmem
  | cons c calls ih =>
    rw [Files.run]
    cases c with
    | setNonblock arg' => rw [call, ioctl_eq_none h.ctx, Option.bind_none]
    | setfl arg' =>
      have hrest : .setNonblock arg ∈ calls := by simpa using hmem
      rw [call, Option.bind_some, ih (h.setfl hC arg') hrest, Option.map_none]
    | getfl =>
      have hrest : .setNonblock arg ∈ calls := by simpa using hmem
      rw [call, Option.bind_some, (h.getfl hC).1, ih h hrest, Option.map_none]

/-- The mode of a socket is kept through the calls just if `FIONBIO` is not among them. -/
theorem calls_iff (hC : C.Documented settable) (hunknown : s.manager.get fd = none) (calls : List Call) :
    (∀ front, front <+: calls → Right C (s.create C (some true) fd) settable fd front) ↔
      ∀ arg, .setNonblock arg ∉ calls := by
  have hknown := Known.create hC hunknown
  constructor
  · intro hright arg hmem
    obtain ⟨fuel, s', results, hrun, -⟩ := hright calls List.prefix_rfl
    rw [hknown.run_eq_none hC hmem] at hrun
    cases hrun
  · intro hcalls front hfront
    obtain ⟨s', results, hrun, hend⟩ := hknown.run hC (fun arg hmem => hcalls arg (hfront.subset hmem)) 0
    obtain ⟨-, hmode, hothers⟩ := hend.getfl hC
    exact ⟨0, s', results, hrun, hend.nonblock, hmode, hothers⟩

/-! ### A socket -/

/-- A socket takes `O_APPEND`, `O_NONBLOCK`, `O_ASYNC` and `O_NOATIME`, and refuses `O_DIRECT`. -/
private def socketCalls : SystemCalls where
  fcntl cmd flags :=
    match cmd with
    | .setfl arg =>
      if arg.getLsbD 14 ∧ ¬ flags.getLsbD 14 then (flags, -1) else (flags &&& ~~~0x42C00 ||| arg &&& 0x42C00, 0)
    | .getfl => (flags, flags)
    | .other _ _ => (flags, 0)
  ioctl _ arg flags := (if arg ≠ 0 then flags ||| oNonblock else flags &&& ~~~oNonblock, 0)

private theorem socketCalls_documented : socketCalls.Documented 0x42C00 where
  getfl flags := rfl
  setfl arg flags := by
    show (if _ then _ else _) = _ ∨ (if _ then _ else _) = _
    split
    · exact .inl rfl
    · exact .inr rfl
  nonblock := by decide
  addNonblock flags := by
    show Prod.snd (if _ then _ else _) = _
    rw [if_neg]
    rw [(getLsbD_or flags).2 14 (by decide)]
    exact fun h => h.2 h.1

/-- The socket 5, with `O_RDWR`. -/
private def opened : Files := Files.create socketCalls ⟨.new, fun _ => 2⟩ (some true) 5

theorem calls_iff_setfl :
    Right socketCalls opened 0x42C00 5 [.setfl 0x802, .getfl, .setfl 0x4002, .setfl 2] :=
  (calls_iff socketCalls_documented rfl _).2 (by simp) _ List.prefix_rfl

/-- `ioctl(5, FIONBIO, &one)` does not return. -/
theorem not_calls_setNonblock : ¬ ∀ calls, Right socketCalls opened 0x42C00 5 calls := by
  intro hright
  obtain ⟨fuel, s', results, hrun, -⟩ := hright [.setNonblock 1]
  have hknown : Known opened 5 false (opened.flags 5) := Known.create socketCalls_documented rfl
  rw [hknown.run_eq_none socketCalls_documented List.mem_cons_self] at hrun
  cases hrun

end Files

end AcidCompute
