/-
  Sylar.Hook.FdManager — `FdCtx` and `FdManager` (sylar/fd_manager.cpp), and the hooked
  calls on them (sylar/hook.cpp): socket, accept, close, fcntl with F_SETFL and F_GETFL,
  ioctl with FIONBIO, setsockopt.

  `World` is the table of contexts and what the kernel keeps of each open descriptor: its
  status flags and whether it is a socket. A call comes with what the underlying calls
  answer: a number not in use for socket and accept, success or failure for the others;
  what a success does to the flags is as fcntl(2) and ioctl(2) say. Descriptors are
  non-negative ints. What accept does before its `accept_f` returns is
  `Sylar.Hook.Call`; cancelAll, which close calls first, is in `Sylar.IOManager.Events`.

  `m_datas.size()` is compared as an int, and a table of 2^31 entries or more, which
  `resize(fd * 1.5)` makes for a descriptor of 1431655766 or more, has a negative size.
  Below that (`Small`) the table is the function `lookup`, and `store`, `del` and `put`
  are updates of it.
-/

import Sylar.Lib.Lts
import Sylar.Hook.Call
import Sylar.IOManager.Contexts
import Mathlib.Logic.Function.Basic

namespace Sylar

namespace FdManager

/-! ## The table -/

section Table

variable {α : Type}

/-- `static_cast<int>(m_datas.size())`. -/
def intSize (m_datas : List (Option α)) : Int := (Int32.ofNat m_datas.length).toInt

/-- `FdManager::FdManager`. -/
def fresh : List (Option α) := resizeFill (fun _ => none) [] 64

/-- What `get(fd)` returns, and `get(fd, true)` finds under the read lock. -/
def lookup (m_datas : List (Option α)) (fd : Nat) : Option α :=
  if intSize m_datas ≤ fd then none else m_datas[fd]?.join

/-- What `get(fd, true)` does with the new context, under the write lock. -/
def store (m_datas : List (Option α)) (fd : Nat) (ctx : α) : List (Option α) :=
  let m_datas :=
    if (fd : Int) ≥ intSize m_datas then resizeFill (fun _ => none) m_datas (Contexts.growSize fd) else m_datas
  m_datas.set fd (some ctx)

/-- `FdManager::del`. -/
def del (m_datas : List (Option α)) (fd : Nat) : List (Option α) :=
  if intSize m_datas ≤ fd then m_datas else m_datas.set fd none

/-- The context in its place has changed. -/
def put (m_datas : List (Option α)) (fd : Nat) (ctx : α) : List (Option α) := m_datas.set fd (some ctx)

/-- The size of the table is what the int says. -/
structure Small (m_datas : List (Option α)) : Prop where
  ge : 64 ≤ m_datas.length
  lt : m_datas.length < 2147483648

variable {m_datas : List (Option α)} {fd : Nat}

theorem fresh_small : Small (fresh : List (Option α)) := by
  have hlen : (fresh : List (Option α)).length = 64 := Contexts.resizeFill_length ..
  constructor
  · omega
  · omega

theorem intSize_bmod (v : List (Option α)) : intSize v = (v.length : Int).bmod 4294967296 := Int32.toInt_ofNat'

theorem Small.intSize_eq (h : Small m_datas) : intSize m_datas = m_datas.length := by
  have := h.lt
  rw [intSize_bmod, Int.bmod_def]
  omega

theorem Small.lookup_eq (h : Small m_datas) (fd : Nat) : lookup m_datas fd = m_datas[fd]?.join := by
  unfold lookup
  rw [h.intSize_eq]
  split
  · rw [List.getElem?_eq_none (by omega)]
    rfl
  · rfl

/-- What is found is in the table. -/
theorem lt_of_lookup {ctx : α} (h : lookup m_datas fd = some ctx) : fd < m_datas.length := by
  unfold lookup at h
  split at h
  · cases h
  · by_contra hge
    rw [List.getElem?_eq_none (Nat.not_lt.mp hge)] at h
    cases h

theorem Small.set (h : Small m_datas) (fd : Nat) (x : Option α) : Small (m_datas.set fd x) :=
  ⟨by rw [List.length_set]; exact h.ge, by rw [List.length_set]; exact h.lt⟩

theorem join_set (v : List (Option α)) (x : Option α) (hfd : fd < v.length) (fd' : Nat) :
    (v.set fd x)[fd']?.join = Function.update (fun i => v[i]?.join) fd x fd' := by
  by_cases e : fd' = fd
  · rw [e, Function.update_self, List.getElem?_set_self hfd]
    rfl
  · rw [Function.update_of_ne e, List.getElem?_set_ne (Ne.symm e)]

theorem Small.lookup_set (h : Small m_datas) (x : Option α) (hfd : fd < m_datas.length) :
    lookup (m_datas.set fd x) = Function.update (lookup m_datas) fd x := by
  have hlookup : (fun i => m_datas[i]?.join) = lookup m_datas := funext fun i => (h.lookup_eq i).symm
  funext fd'
  rw [(h.set fd x).lookup_eq, join_set _ _ hfd, hlookup]

/-- Growing changes no context. -/
theorem join_resize (v : List (Option α)) {size : Nat} (hsize : v.length ≤ size) (i : Nat) :
    (resizeFill (fun _ => none) v size)[i]?.join = v[i]?.join := by
  rw [resizeFill, List.take_of_length_le hsize]
  by_cases hi : i < v.length
  · rw [List.getElem?_append_left hi]
  · rw [List.getElem?_append_right (Nat.not_lt.mp hi), List.getElem?_eq_none (Nat.not_lt.mp hi), List.getElem?_map]
    cases (List.range' v.length (size - v.length))[i - v.length]? <;> rfl

theorem lookup_fresh : lookup (fresh : List (Option α)) = fun _ => none := by
  funext fd
  rw [fresh_small.lookup_eq, fresh, join_resize [] (Nat.zero_le _)]
  rfl

/-- The table `store` writes to. -/
theorem Small.grown (h : Small m_datas) (hfd : m_datas.length ≤ fd → fd < 1431655766) :
    ∃ v, (∀ ctx, store m_datas fd ctx = v.set fd (some ctx)) ∧ Small v ∧ fd < v.length ∧ lookup v = lookup m_datas := by
  have hge := h.ge
  have hlt := h.lt
  by_cases hgrow : m_datas.length ≤ fd
  · have hfd := hfd hgrow
    have hsize : m_datas.length ≤ Contexts.growSize fd := by
      unfold Contexts.growSize
      omega
    have hlen := Contexts.resizeFill_length (fun _ => (none : Option α)) m_datas (Contexts.growSize fd)
    have hsmall : Small (resizeFill (fun _ => (none : Option α)) m_datas (Contexts.growSize fd)) := by
      unfold Contexts.growSize at hlen hsize ⊢
      exact ⟨by omega, by omega⟩
    refine ⟨_, fun ctx => ?_, hsmall, ?_, ?_⟩
    · unfold store
      rw [if_pos (by rw [h.intSize_eq]; omega)]
    · rw [hlen]
      unfold Contexts.growSize
      omega
    · funext i
      rw [hsmall.lookup_eq, h.lookup_eq, join_resize _ hsize]
  · refine ⟨m_datas, fun ctx => ?_, h, Nat.not_le.mp hgrow, rfl⟩
    unfold store
    rw [if_neg (by rw [h.intSize_eq]; omega)]

theorem Small.store (h : Small m_datas) (hfd : m_datas.length ≤ fd → fd < 1431655766) (ctx : α) :
    Small (store m_datas fd ctx) ∧ lookup (store m_datas fd ctx) = Function.update (lookup m_datas) fd (some ctx) := by
  obtain ⟨v, hv, hsmall, hlt, hsame⟩ := h.grown hfd
  rw [hv, hsmall.lookup_set _ hlt, hsame]
  exact ⟨hsmall.set _ _, rfl⟩

theorem Small.del (h : Small m_datas) (fd : Nat) :
    Small (del m_datas fd) ∧ lookup (del m_datas fd) = Function.update (lookup m_datas) fd none := by
  unfold FdManager.del
  rw [h.intSize_eq]
  split
  · refine ⟨h, ?_⟩
    have hnone : lookup m_datas fd = none := by
      rw [h.lookup_eq, List.getElem?_eq_none (by omega)]
      rfl
    rw [← hnone, Function.update_eq_self]
  · exact ⟨h.set _ _, h.lookup_set _ (by omega)⟩

theorem Small.put (h : Small m_datas) {ctx : α} (hin : lookup m_datas fd = some ctx) (ctx' : α) :
    Small (put m_datas fd ctx') ∧ lookup (put m_datas fd ctx') = Function.update (lookup m_datas) fd (some ctx') :=
  ⟨h.set _ _, h.lookup_set _ (lt_of_lookup hin)⟩

theorem intSize_le (v : List (Option α)) : intSize v ≤ v.length := by
  rw [intSize_bmod, Int.bmod_def]
  omega

/-- The table is long enough for `fd`, or does not grow past what an int holds. -/
def HasRoom (m_datas : List (Option α)) (fd : Nat) : Prop :=
  (fd : Int) < intSize m_datas ∨ (fd < Contexts.growSize fd ∧ Contexts.growSize fd < 2147483648)

instance : Decidable (HasRoom m_datas fd) := inferInstanceAs (Decidable (_ ∨ _))

theorem lookup_set_self (v : List (Option α)) (ctx : α) :
    lookup (v.set fd (some ctx)) fd = if (fd : Int) < intSize v then some ctx else none := by
  have hle := intSize_le v
  have hlen : intSize (v.set fd (some ctx)) = intSize v := by
    rw [intSize, List.length_set, intSize]
  unfold lookup
  rw [hlen]
  split
  · rw [if_neg (by omega)]
  · rw [if_pos (by omega), List.getElem?_set_self (by omega)]
    rfl

/-- The new context is found exactly when there is room for it. -/
theorem lookup_store_self {ctx : α} (hfd : fd < 2147483648) :
    lookup (store m_datas fd ctx) fd = if HasRoom m_datas fd then some ctx else none := by
  unfold store
  rw [lookup_set_self]
  apply ite_cond_congr
  unfold HasRoom
  split
  · have hgrow : 2 * Contexts.growSize fd ≤ 3 * fd := by
      unfold Contexts.growSize
      omega
    have hint : intSize (resizeFill (fun _ => (none : Option α)) m_datas (Contexts.growSize fd)) =
        if Contexts.growSize fd < 2147483648 then (Contexts.growSize fd : Int)
        else Contexts.growSize fd - 4294967296 := by
      rw [intSize_bmod, Contexts.resizeFill_length, Int.bmod_def, Int.emod_eq_of_lt (by omega) (by omega)]
      omega
    rw [hint]
    apply propext
    split
    · omega
    · omega
  · rename_i hlt
    exact propext ⟨.inl, fun _ => by omega⟩

theorem Small.hasRoom (h : Small m_datas) (hfd : fd < 2147483648) :
    HasRoom m_datas fd ↔ (m_datas.length ≤ fd → fd < 1431655766) := by
  have hge := h.ge
  unfold HasRoom Contexts.growSize
  rw [h.intSize_eq]
  omega

end Table

/-! ## Status flags and the kernel -/

/-- A C int, as a word of flags. -/
abbrev Flags := BitVec 32

def O_RDWR : Flags := 0x2
def O_NONBLOCK : Flags := 0x800
def SOCK_NONBLOCK : Flags := 0x800

/-- What F_SETFL can change: O_APPEND, O_NONBLOCK, O_ASYNC, O_DIRECT and O_NOATIME. -/
def settable : Flags := 0x46C00

/-- `arg & flag`, as a bool. -/
def isSet (arg flag : Flags) : Bool := arg &&& flag != 0

theorem isSet_nonblock (arg : Flags) : isSet arg O_NONBLOCK = arg.getLsbD 11 := by
  have htwo : O_NONBLOCK = BitVec.twoPow 32 11 := by decide
  unfold isSet
  rw [htwo, BitVec.and_twoPow]
  cases arg.getLsbD 11 with
  | true => decide
  | false => decide

theorem nonblock_bit (i : Nat) : O_NONBLOCK.getLsbD i = decide (i = 11) := by
  have htwo : O_NONBLOCK = BitVec.twoPow 32 11 := by decide
  rw [htwo, BitVec.getLsbD_twoPow]
  by_cases e : i = 11
  · simp [e]
  · simp [e, Ne.symm e]

theorem or_nonblock (arg : Flags) : (arg ||| O_NONBLOCK).getLsbD 11 = true := by
  rw [BitVec.getLsbD_or, nonblock_bit]
  simp

theorem and_not_nonblock (arg : Flags) : (arg &&& ~~~O_NONBLOCK).getLsbD 11 = false := by
  rw [BitVec.getLsbD_and, BitVec.getLsbD_not, nonblock_bit]
  simp

/-- The other flags are left as they are. -/
theorem or_other (arg : Flags) {i : Nat} (h : i ≠ 11) : (arg ||| O_NONBLOCK).getLsbD i = arg.getLsbD i := by
  rw [BitVec.getLsbD_or, nonblock_bit]
  simp [h]

theorem and_not_other (arg : Flags) {i : Nat} (h : i ≠ 11) : (arg &&& ~~~O_NONBLOCK).getLsbD i = arg.getLsbD i := by
  by_cases hi : i < 32
  · rw [BitVec.getLsbD_and, BitVec.getLsbD_not, nonblock_bit]
    simp [h, hi]
  · rw [BitVec.getLsbD_of_ge _ _ (Nat.not_lt.mp hi), BitVec.getLsbD_of_ge _ _ (Nat.not_lt.mp hi)]

/-- F_SETFL, flag by flag. -/
theorem setfl_bit (flags arg : Flags) (i : Nat) : ((flags &&& ~~~settable) ||| (arg &&& settable)).getLsbD i =
    if settable.getLsbD i then arg.getLsbD i else flags.getLsbD i := by
  by_cases hi : i < 32
  · rw [BitVec.getLsbD_or, BitVec.getLsbD_and, BitVec.getLsbD_and, BitVec.getLsbD_not]
    cases settable.getLsbD i with
    | true => simp
    | false => simp [hi]
  · have hge := Nat.not_lt.mp hi
    rw [BitVec.getLsbD_of_ge _ _ hge, BitVec.getLsbD_of_ge arg _ hge, BitVec.getLsbD_of_ge flags _ hge, ite_self]

/-- FIONBIO, flag by flag. -/
theorem fionbio_bit (flags value : Flags) (i : Nat) :
    (if value ≠ 0 then flags ||| O_NONBLOCK else flags &&& ~~~O_NONBLOCK).getLsbD i =
      if i = 11 then value != 0 else flags.getLsbD i := by
  by_cases hv : value = 0
  · rw [if_neg (not_not_intro hv), hv]
    by_cases e : i = 11
    · rw [e, and_not_nonblock, if_pos rfl]
      rfl
    · rw [and_not_other _ e, if_neg e]
  · rw [if_pos hv]
    by_cases e : i = 11
    · rw [e, or_nonblock, if_pos rfl]
      exact (bne_iff_ne.mpr hv).symm
    · rw [or_other _ e, if_neg e]

theorem setfl_nonblock (flags arg : Flags) :
    ((flags &&& ~~~settable) ||| (arg &&& settable)).getLsbD 11 = arg.getLsbD 11 := by
  rw [setfl_bit]
  exact if_pos (by decide)

/-- What the kernel keeps of an open descriptor. -/
structure File where
  flags : Flags
  isSock : Bool
  deriving DecidableEq

/-- `fcntl_f(fd, F_GETFL)`. -/
def fcntl_f.getfl (file : Option File) (ok : Bool) : Flags :=
  match file, ok with
  | some file, true => file.flags
  | _, _ => -1

/-- `fcntl_f(fd, F_SETFL, arg)`. -/
def fcntl_f.setfl (file : Option File) (arg : Flags) (ok : Bool) : Option File × Flags :=
  match file, ok with
  | some file, true => (some { file with flags := (file.flags &&& ~~~settable) ||| (arg &&& settable) }, 0)
  | _, _ => (file, -1)

/-- `ioctl_f(d, FIONBIO, &value)`. -/
def ioctl_f.fionbio (file : Option File) (value : BitVec 32) (ok : Bool) : Option File × Flags :=
  match file, ok with
  | some file, true =>
    (some { file with flags := if value ≠ 0 then file.flags ||| O_NONBLOCK else file.flags &&& ~~~O_NONBLOCK }, 0)
  | _, _ => (file, -1)

/-! ## Contexts -/

/-- `FdCtx`: what do_io reads of it, and the rest. -/
structure FdCtx extends Hook.FdCtx where
  m_isInit : Bool
  m_sysNonBlock : Bool
  m_fd : Nat
  deriving DecidableEq

/-- What the calls in `init` answer. -/
structure InitAns where
  fstat : Bool
  getfl : Bool
  setfl : Bool
  deriving DecidableEq

/-- `FdCtx::FdCtx(fd)`, which is `init()`; and what it makes of the descriptor. -/
def FdCtx.new (fd : Nat) (file : Option File) (ans : InitAns) : FdCtx × Option File :=
  let fdStat := if ans.fstat then file else none
  let m_isSocket := match fdStat with
    | some st => st.isSock
    | none => false
  let flags := fcntl_f.getfl file ans.getfl
  ({ m_isInit := fdStat.isSome, m_isSocket := m_isSocket, m_sysNonBlock := m_isSocket, m_userNonBlock := false,
     m_isClosed := false, m_fd := fd, m_recvTimeout := Hook.noTimeout, m_sendTimeout := Hook.noTimeout },
    if m_isSocket && !isSet flags O_NONBLOCK then (fcntl_f.setfl file (flags ||| O_NONBLOCK) ans.setfl).1 else file)

/-- init changes no flag but O_NONBLOCK, whatever its calls answer. -/
theorem new_file (fd : Nat) (file : File) (ans : InitAns) : ∃ file', (FdCtx.new fd (some file) ans).2 = some file' ∧
    (ans.fstat = false → file' = file) ∧ ∀ i, i ≠ 11 → file'.flags.getLsbD i = file.flags.getLsbD i := by
  obtain ⟨fstat, getfl, setfl⟩ := ans
  obtain ⟨flags, isSock⟩ := file
  cases fstat with
  | false => exact ⟨_, rfl, fun _ => rfl, fun _ _ => rfl⟩
  | true =>
    by_cases hset : (isSock && !isSet (fcntl_f.getfl (some ⟨flags, isSock⟩) getfl) O_NONBLOCK) = true
    · have hgetfl : getfl = true := by
        cases getfl with
        | true => rfl
        | false =>
          rw [Bool.and_eq_true] at hset
          exact absurd hset.2 (show ¬(!isSet (-1) O_NONBLOCK) = true by decide)
      rw [hgetfl] at hset ⊢
      cases setfl with
      | false => exact ⟨_, if_pos hset, nofun, fun _ _ => rfl⟩
      | true =>
        refine ⟨_, if_pos hset, nofun, fun i hi => ?_⟩
        show ((flags &&& ~~~settable) ||| ((flags ||| O_NONBLOCK) &&& settable)).getLsbD i = flags.getLsbD i
        rw [setfl_bit, or_other _ hi, ite_self]
    · exact ⟨_, if_neg hset, nofun, fun _ _ => rfl⟩

def FdCtx.setUserNonblock (ctx : FdCtx) (val : Bool) : FdCtx := { ctx with m_userNonBlock := val }

def FdCtx.setTimeout (ctx : FdCtx) (type : Hook.SockOpt) (val : UInt64) : FdCtx :=
  match type with
  | .SO_RCVTIMEO => { ctx with m_recvTimeout := val }
  | .SO_SNDTIMEO => { ctx with m_sendTimeout := val }

/-- The context fcntl and ioctl act on: `!(!ctx || ctx->isClose() || !ctx->isSocket())`. -/
def managed : Option FdCtx → Option FdCtx
  | some ctx => if ctx.m_isClosed || !ctx.m_isSocket then none else some ctx
  | none => none

theorem ne_none_of_managed {ctx : Option FdCtx} {c : FdCtx} (h : managed ctx = some c) : ctx ≠ none := by
  intro hn
  rw [hn] at h
  cases h

/-! ## Calls -/

structure World where
  m_datas : List (Option FdCtx)
  files : Nat → Option File

namespace World

/-- `FdMgr::GetInstance()->get(fd)`. -/
def get (w : World) (fd : Nat) : Option FdCtx := lookup w.m_datas fd

def setFile (w : World) (fd : Nat) (file : Option File) : World :=
  { w with files := Function.update w.files fd file }

def setCtx (w : World) (fd : Nat) (ctx : FdCtx) : World := { w with m_datas := put w.m_datas fd ctx }

/-- `FdMgr::GetInstance()->get(fd, true)`. -/
def getCreate (w : World) (fd : Nat) (ans : InitAns) : World :=
  match w.get fd with
  | some _ => w
  | none =>
    let r := FdCtx.new fd (w.files fd) ans
    { m_datas := store w.m_datas fd r.1, files := Function.update w.files fd r.2 }

/-- A new socket, with the number the kernel gives it. -/
def opened (w : World) (fd : Nat) (flags : Flags) : World := w.setFile fd (some ⟨flags, true⟩)

def socket (w : World) (t_hook_enable : Bool) (type : Flags) (answer : Option Nat) (ans : InitAns) : World × Flags :=
  match answer with
  | none => (w, -1)
  | some fd =>
    let w := w.opened fd (O_RDWR ||| (type &&& SOCK_NONBLOCK))
    (if t_hook_enable then w.getCreate fd ans else w, BitVec.ofNat 32 fd)

/-- On every thread, once `do_io` has returned. -/
def accept (w : World) (answer : Option Nat) (ans : InitAns) : World × Flags :=
  match answer with
  | none => (w, -1)
  | some fd => ((w.opened fd O_RDWR).getCreate fd ans, BitVec.ofNat 32 fd)

/-- `FdMgr::GetInstance()->del(fd)`, if there is a context. -/
def drop (w : World) (fd : Nat) : World :=
  match w.get fd with
  | some _ => { w with m_datas := del w.m_datas fd }
  | none => w

def close (w : World) (t_hook_enable : Bool) (fd : Nat) (ok : Bool) : World × Flags :=
  let w := if t_hook_enable then w.drop fd else w
  if ok then (w.setFile fd none, 0) else (w, -1)

def fcntl_f_setfl (w : World) (fd : Nat) (arg : Flags) (ok : Bool) : World × Flags :=
  let r := fcntl_f.setfl (w.files fd) arg ok
  (w.setFile fd r.1, r.2)

/-- `fcntl(fd, F_SETFL, arg)`. -/
def setfl (w : World) (fd : Nat) (arg : Flags) (ok : Bool) : World × Flags :=
  match managed (w.get fd) with
  | none => w.fcntl_f_setfl fd arg ok
  | some ctx =>
    let w := w.setCtx fd (ctx.setUserNonblock (isSet arg O_NONBLOCK))
    let arg := if ctx.m_sysNonBlock then arg ||| O_NONBLOCK else arg &&& ~~~O_NONBLOCK
    w.fcntl_f_setfl fd arg ok

/-- `fcntl(fd, F_GETFL)`. -/
def getfl (w : World) (fd : Nat) (ok : Bool) : Flags :=
  let arg := fcntl_f.getfl (w.files fd) ok
  match managed (w.get fd) with
  | none => arg
  | some ctx => if ctx.m_userNonBlock then arg ||| O_NONBLOCK else arg &&& ~~~O_NONBLOCK

def ioctl_f_fionbio (w : World) (d : Nat) (value : BitVec 32) (ok : Bool) : World × Flags :=
  let r := ioctl_f.fionbio (w.files d) value ok
  (w.setFile d r.1, r.2)

/-- `ioctl(d, FIONBIO, &value)`. -/
def fionbio (w : World) (d : Nat) (value : BitVec 32) (ok : Bool) : World × Flags :=
  match managed (w.get d) with
  | none => w.ioctl_f_fionbio d value ok
  | some ctx => (w.setCtx d (ctx.setUserNonblock (value != 0))).ioctl_f_fionbio d value ok

/-- `ctx->setTimeout(type, val)`, if there is a context. -/
def setTimeout (w : World) (fd : Nat) (type : Hook.SockOpt) (val : UInt64) : World :=
  match w.get fd with
  | some ctx => w.setCtx fd (ctx.setTimeout type val)
  | none => w

/-- `optname` is one of the two timeouts of SOL_SOCKET, or `none`. -/
def setsockopt (w : World) (t_hook_enable : Bool) (sockfd : Nat) (optname : Option Hook.SockOpt)
    (tv_sec tv_usec : Int64) (ok : Bool) : World × Flags :=
  let w := match t_hook_enable, optname with
    | true, some type => w.setTimeout sockfd type (tv_sec * 1000 + tv_usec / 1000).toUInt64
    | _, _ => w
  (w, if ok then 0 else -1)

end World

/-- A call, the thread's `t_hook_enable` where the code reads it, and what the underlying
    calls answer. -/
inductive Call where
  | socket (t_hook_enable : Bool) (type : Flags) (answer : Option Nat) (ans : InitAns)
  | accept (answer : Option Nat) (ans : InitAns)
  | close (t_hook_enable : Bool) (fd : Nat) (ok : Bool)
  | setfl (fd : Nat) (arg : Flags) (ok : Bool)
  | getfl (fd : Nat) (ok : Bool)
  | fionbio (d : Nat) (value : BitVec 32) (ok : Bool)
  | setsockopt (t_hook_enable : Bool) (sockfd : Nat) (optname : Option Hook.SockOpt) (tv_sec tv_usec : Int64)
    (ok : Bool)
  deriving DecidableEq

/-- The descriptor it opens. -/
def Call.opens : Call → Option Nat
  | .socket _ _ answer _ => answer
  | .accept answer _ => answer
  | _ => none

/-- Every descriptor it opens is below the number from which the table outgrows an int. -/
def Call.Small (c : Call) : Prop := ∀ fd, c.opens = some fd → fd < 1431655766

namespace World

def exec (w : World) : Call → World × Flags
  | .socket t_hook_enable type answer ans => w.socket t_hook_enable type answer ans
  | .accept answer ans => w.accept answer ans
  | .close t_hook_enable fd ok => w.close t_hook_enable fd ok
  | .setfl fd arg ok => w.setfl fd arg ok
  | .getfl fd ok => (w, w.getfl fd ok)
  | .fionbio d value ok => w.fionbio d value ok
  | .setsockopt t_hook_enable sockfd optname tv_sec tv_usec ok =>
    w.setsockopt t_hook_enable sockfd optname tv_sec tv_usec ok

/-- The kernel gives a number that is not in use. -/
def Legal (w : World) (c : Call) : Prop := ∀ fd, c.opens = some fd → w.files fd = none ∧ fd < 2147483648

/-- A call and what it returns. -/
def Step (w : World) (a : Call × Flags) (w' : World) : Prop := w.Legal a.1 ∧ w.exec a.1 = (w', a.2)

/-- The manager is new; descriptors may be open. -/
def Init (w : World) : Prop := w.m_datas = fresh

end World

/-! ## One descriptor at a time -/

/-- What there is of one descriptor. -/
structure Fd where
  ctx : Option FdCtx
  file : Option File

/-- The descriptor a call acts on. -/
def Call.on : Call → Option Nat
  | .socket _ _ answer _ => answer
  | .accept answer _ => answer
  | .close _ fd _ => some fd
  | .setfl fd _ _ => some fd
  | .getfl fd _ => some fd
  | .fionbio d _ _ => some d
  | .setsockopt _ sockfd _ _ _ _ => some sockfd

namespace Fd

def getCreate (d : Fd) (fd : Nat) (ans : InitAns) : Fd :=
  match d.ctx with
  | some _ => d
  | none => ⟨some (FdCtx.new fd d.file ans).1, (FdCtx.new fd d.file ans).2⟩

/-- What a call makes of the descriptor it acts on. -/
def exec (d : Fd) : Call → Fd
  | .socket t_hook_enable type (some fd) ans =>
    let d : Fd := ⟨d.ctx, some ⟨O_RDWR ||| (type &&& SOCK_NONBLOCK), true⟩⟩
    if t_hook_enable then d.getCreate fd ans else d
  | .accept (some fd) ans => getCreate ⟨d.ctx, some ⟨O_RDWR, true⟩⟩ fd ans
  | .close t_hook_enable _ ok => ⟨if t_hook_enable then none else d.ctx, if ok then none else d.file⟩
  | .setfl _ arg ok =>
    match managed d.ctx with
    | none => ⟨d.ctx, (fcntl_f.setfl d.file arg ok).1⟩
    | some ctx =>
      ⟨some (ctx.setUserNonblock (isSet arg O_NONBLOCK)),
        (fcntl_f.setfl d.file (if ctx.m_sysNonBlock then arg ||| O_NONBLOCK else arg &&& ~~~O_NONBLOCK) ok).1⟩
  | .fionbio _ value ok =>
    match managed d.ctx with
    | none => ⟨d.ctx, (ioctl_f.fionbio d.file value ok).1⟩
    | some ctx => ⟨some (ctx.setUserNonblock (value != 0)), (ioctl_f.fionbio d.file value ok).1⟩
  | .setsockopt true _ (some type) tv_sec tv_usec _ =>
    ⟨d.ctx.map (·.setTimeout type (tv_sec * 1000 + tv_usec / 1000).toUInt64), d.file⟩
  | _ => d

/-- What F_GETFL answers. -/
def getfl (d : Fd) (ok : Bool) : Flags :=
  match managed d.ctx with
  | none => fcntl_f.getfl d.file ok
  | some ctx =>
    if ctx.m_userNonBlock then fcntl_f.getfl d.file ok ||| O_NONBLOCK else fcntl_f.getfl d.file ok &&& ~~~O_NONBLOCK

end Fd

namespace World

def fd (w : World) (i : Nat) : Fd := ⟨w.get i, w.files i⟩

variable {w : World} {i : Nat}

theorem fd_ctx (w : World) (i : Nat) : (w.fd i).ctx = w.get i := rfl

theorem fd_file (w : World) (i : Nat) : (w.fd i).file = w.files i := rfl

/-- The table and the descriptor have changed, at one place. -/
theorem fd_of_both {w' : World} {ctx : Option FdCtx} {file : Option File}
    (hget : w'.get = Function.update w.get i ctx) (hfiles : w'.files = Function.update w.files i file) :
    w'.fd = Function.update w.fd i ⟨ctx, file⟩ := by
  funext j
  by_cases e : j = i
  · rw [e, Function.update_self, fd, hget, hfiles, Function.update_self, Function.update_self]
  · rw [Function.update_of_ne e, fd, hget, hfiles, Function.update_of_ne e, Function.update_of_ne e]
    rfl

theorem fd_setFile (w : World) (i : Nat) (file : Option File) :
    (w.setFile i file).fd = Function.update w.fd i ⟨w.get i, file⟩ :=
  fd_of_both (Function.update_eq_self i w.get).symm rfl

theorem setCtx_fd (h : Small w.m_datas) {ctx : FdCtx} (hin : w.get i = some ctx) (ctx' : FdCtx) :
    Small (w.setCtx i ctx').m_datas ∧ (w.setCtx i ctx').fd = Function.update w.fd i ⟨some ctx', w.files i⟩ := by
  obtain ⟨hsmall, hget⟩ := h.put hin ctx'
  exact ⟨hsmall, fd_of_both hget (Function.update_eq_self i w.files).symm⟩


theorem getCreate_fd (h : Small w.m_datas) (hi : i < 1431655766) (ans : InitAns) :
    Small (w.getCreate i ans).m_datas ∧
      (w.getCreate i ans).fd = Function.update w.fd i ((w.fd i).getCreate i ans) := by
  cases hg : w.get i with
  | some ctx =>
    have hw : w.getCreate i ans = w := by
      unfold getCreate
      rw [hg]
    have hd : (w.fd i).getCreate i ans = w.fd i := by
      unfold Fd.getCreate
      rw [fd_ctx, hg]
    rw [hw, hd, Function.update_eq_self]
    exact ⟨h, rfl⟩
  | none =>
    obtain ⟨hsmall, hget⟩ := h.store (fun _ => hi) (FdCtx.new i (w.files i) ans).1
    have hw : w.getCreate i ans = ⟨store w.m_datas i (FdCtx.new i (w.files i) ans).1,
        Function.update w.files i (FdCtx.new i (w.files i) ans).2⟩ := by
      unfold getCreate
      rw [hg]
    have hd : (w.fd i).getCreate i ans = ⟨some (FdCtx.new i (w.files i) ans).1, (FdCtx.new i (w.files i) ans).2⟩ := by
      unfold Fd.getCreate
      rw [fd_ctx, hg, fd_file]
    rw [hw, hd]
    exact ⟨hsmall, fd_of_both hget rfl⟩

/-- A table changed at `i`, then the descriptor too. -/
theorem fd_setFile_of {w' : World} {d : Fd} (h : w'.fd = Function.update w.fd i d) (file : Option File) :
    (w'.setFile i file).fd = Function.update w.fd i ⟨d.ctx, file⟩ := by
  have hget : w'.get i = d.ctx := by rw [← fd_ctx, h, Function.update_self]
  rw [fd_setFile, h, Function.update_idem, hget]

theorem opened_getCreate (h : Small w.m_datas) (hi : i < 1431655766) (flags : Flags) (ans : InitAns) :
    Small ((w.opened i flags).getCreate i ans).m_datas ∧ ((w.opened i flags).getCreate i ans).fd =
      Function.update w.fd i (Fd.getCreate ⟨w.get i, some ⟨flags, true⟩⟩ i ans) := by
  have hopened : Small (w.opened i flags).m_datas := h
  obtain ⟨hsmall, hfd⟩ := getCreate_fd hopened hi ans
  refine ⟨hsmall, ?_⟩
  rw [hfd, opened, fd_setFile, Function.update_idem, Function.update_self]

theorem drop_fd (h : Small w.m_datas) (i : Nat) :
    Small (w.drop i).m_datas ∧ (w.drop i).fd = Function.update w.fd i ⟨none, w.files i⟩ := by
  have hsame : Function.update w.fd i ⟨w.get i, w.files i⟩ = w.fd := Function.update_eq_self i w.fd
  unfold drop
  cases hg : w.get i with
  | none =>
    rw [hg] at hsame
    exact ⟨h, hsame.symm⟩
  | some ctx =>
    obtain ⟨hsmall, hget⟩ := h.del i
    exact ⟨hsmall, fd_of_both hget (Function.update_eq_self i w.files).symm⟩

theorem close_fd (h : Small w.m_datas) (t_hook_enable : Bool) (i : Nat) (ok : Bool) :
    Small (w.close t_hook_enable i ok).1.m_datas ∧ (w.close t_hook_enable i ok).1.fd =
      Function.update w.fd i ⟨if t_hook_enable then none else w.get i, if ok then none else w.files i⟩ := by
  obtain ⟨hsmall, hdrop⟩ := drop_fd h i
  cases t_hook_enable with
  | true =>
    cases ok with
    | true => exact ⟨hsmall, fd_setFile_of hdrop none⟩
    | false => exact ⟨hsmall, hdrop⟩
  | false =>
    cases ok with
    | true => exact ⟨h, fd_setFile w i none⟩
    | false => exact ⟨h, (Function.update_eq_self i w.fd).symm⟩

theorem setfl_fd (h : Small w.m_datas) (i : Nat) (arg : Flags) (ok : Bool) :
    Small (w.setfl i arg ok).1.m_datas ∧
      (w.setfl i arg ok).1.fd = Function.update w.fd i ((w.fd i).exec (.setfl i arg ok)) := by
  simp only [setfl, Fd.exec, fd_ctx, fd_file]
  cases hm : managed (w.get i) with
  | none => exact ⟨h, fd_setFile w i _⟩
  | some ctx =>
    obtain ⟨ctx', hin⟩ := Option.ne_none_iff_exists'.mp (ne_none_of_managed hm)
    obtain ⟨hsmall, hset⟩ := setCtx_fd h hin (ctx.setUserNonblock (isSet arg O_NONBLOCK))
    exact ⟨hsmall, fd_setFile_of hset _⟩

theorem fionbio_fd (h : Small w.m_datas) (i : Nat) (value : BitVec 32) (ok : Bool) :
    Small (w.fionbio i value ok).1.m_datas ∧
      (w.fionbio i value ok).1.fd = Function.update w.fd i ((w.fd i).exec (.fionbio i value ok)) := by
  simp only [fionbio, Fd.exec, fd_ctx, fd_file]
  cases hm : managed (w.get i) with
  | none => exact ⟨h, fd_setFile w i _⟩
  | some ctx =>
    obtain ⟨ctx', hin⟩ := Option.ne_none_iff_exists'.mp (ne_none_of_managed hm)
    obtain ⟨hsmall, hset⟩ := setCtx_fd h hin (ctx.setUserNonblock (value != 0))
    exact ⟨hsmall, fd_setFile_of hset _⟩

theorem setTimeout_fd (h : Small w.m_datas) (i : Nat) (type : Hook.SockOpt) (val : UInt64) :
    Small (w.setTimeout i type val).m_datas ∧
      (w.setTimeout i type val).fd = Function.update w.fd i ⟨(w.get i).map (·.setTimeout type val), w.files i⟩ := by
  have hsame : Function.update w.fd i ⟨w.get i, w.files i⟩ = w.fd := Function.update_eq_self i w.fd
  unfold setTimeout
  cases hg : w.get i with
  | none =>
    rw [hg] at hsame
    exact ⟨h, hsame.symm⟩
  | some ctx => exact setCtx_fd h hg _

/-- A table of its int size is a function, and a call on descriptor `i` is a step of what
    there is of `i`. -/
theorem exec_on (h : Small w.m_datas) {c : Call} (hsmall : ∀ fd, c.opens = some fd → fd < 1431655766)
    (hon : c.on = some i) :
    Small (w.exec c).1.m_datas ∧ (w.exec c).1.fd = Function.update w.fd i ((w.fd i).exec c) := by
  have hsame : w.fd = Function.update w.fd i (w.fd i) := (Function.update_eq_self i w.fd).symm
  cases c with
  | socket t_hook_enable type answer ans =>
    cases hon
    cases t_hook_enable with
    | true => exact opened_getCreate h (hsmall i rfl) _ ans
    | false => exact ⟨h, fd_setFile w i _⟩
  | accept answer ans =>
    cases hon
    exact opened_getCreate h (hsmall i rfl) _ ans
  | close t_hook_enable fd ok =>
    cases hon
    exact close_fd h t_hook_enable i ok
  | setfl fd arg ok =>
    cases hon
    exact setfl_fd h i arg ok
  | getfl fd ok => exact ⟨h, hsame⟩
  | fionbio d value ok =>
    cases hon
    exact fionbio_fd h i value ok
  | setsockopt t_hook_enable sockfd optname tv_sec tv_usec ok =>
    cases hon
    cases t_hook_enable with
    | false => exact ⟨h, hsame⟩
    | true =>
      cases optname with
      | none => exact ⟨h, hsame⟩
      | some type => exact setTimeout_fd h i type _

/-- A call that opens a descriptor acts on it. -/
theorem opens_on {c : Call} (hon : c.on = some i) {fd : Nat} (h : c.opens = some fd) : fd = i := by
  cases c with
  | socket => exact Option.some_inj.mp (h.symm.trans hon)
  | accept => exact Option.some_inj.mp (h.symm.trans hon)
  | _ => cases h

theorem exec_off {c : Call} (hon : c.on = none) : (w.exec c).1 = w := by
  cases c with
  | socket t_hook_enable type answer ans => cases hon; rfl
  | accept answer ans => cases hon; rfl
  | _ => cases hon

/-- A step on a table of its int size changes what there is of one descriptor, or nothing. -/
theorem step_cases {w' : World} {a : Call × Flags} (h : Small w.m_datas) (hsmall : a.1.Small) (hs : w.Step a w') :
    (a.1.on = none ∧ w' = w) ∨
      ∃ i, a.1.on = some i ∧ Small w'.m_datas ∧ w'.fd = Function.update w.fd i ((w.fd i).exec a.1) := by
  have hw' : w' = (w.exec a.1).1 := by rw [hs.2]
  cases hon : a.1.on with
  | none => exact .inl ⟨rfl, by rw [hw', exec_off hon]⟩
  | some i => exact .inr ⟨i, rfl, hw' ▸ exec_on h hsmall hon⟩

/-- A number the kernel gives is not in use. -/
theorem step_unused {w' : World} {a : Call × Flags} (hs : w.Step a w') (hon : a.1.on = some i) (fd : Nat)
    (hopens : a.1.opens = some fd) : (w.fd i).file = none :=
  opens_on hon hopens ▸ (hs.1 fd hopens).1

theorem Init.get_eq (h : w.Init) (i : Nat) : w.get i = none := by
  show lookup w.m_datas i = none
  rw [h, lookup_fresh]

end World

/-! ## A first socket -/

/-- A process with a new manager and nothing open. -/
def idle : World := ⟨fresh, fun _ => none⟩

/-- It opens a socket on a hook-enabled thread. -/
def openSocket (type : Flags) : Call := .socket true type (some 3) ⟨true, true, true⟩

def withSocket (type : Flags) : World := (idle.exec (openSocket type)).1

theorem openSocket_step (type : Flags) : idle.Step (openSocket type, 3) (withSocket type) := by
  refine ⟨?_, rfl⟩
  intro fd h
  cases h
  exact ⟨rfl, by decide⟩

end FdManager

end Sylar
