/-
  Sylar.Hook.FdContexts — whose context FdManager holds: of a descriptor the kernel has
  given again (`fresh_context_iff`), and of one that several threads ask for at once
  (`contexts_shared_iff`).

  A context is made once per number, by the first `get(fd, true)`, and removed by close on
  a hook-enabled thread only. So after socket or accept the context is that of the new
  descriptor exactly when none was there before, init's calls succeed and the table has
  room; a close on another thread leaves one, which the next descriptor of that number
  inherits (`stale_context`).

  `get(fd, true)` looks under the read lock and creates under the write lock without
  looking again. So a context stays, and is what every get returns, exactly when no call
  creates one for a descriptor that got one since it looked (`second_creation`).
-/

import Sylar.Hook.FdManager

namespace Sylar

namespace FdManager

/-! ## A descriptor given again -/

/-- The descriptor a hooked socket(), without SOCK_NONBLOCK, or accept() returns. -/
def Call.hookedOpens : Call → Option Nat
  | .socket true type answer _ => if isSet type SOCK_NONBLOCK then none else answer
  | .accept answer _ => answer
  | _ => none

/-- What the calls of `init` answer. -/
def Call.initAns : Call → InitAns
  | .socket _ _ _ ans => ans
  | .accept _ ans => ans
  | _ => ⟨true, true, true⟩

/-- The context of `fd` is that of a new blocking socket, whose flag is set. -/
def Describes (w : World) (fd : Nat) : Prop :=
  ∃ ctx file, w.get fd = some ctx ∧ w.files fd = some file ∧ ctx.m_recvTimeout = Hook.noTimeout ∧
    ctx.m_sendTimeout = Hook.noTimeout ∧ ctx.m_userNonBlock = false ∧ ctx.m_isSocket = true ∧
    isSet file.flags O_NONBLOCK = true

/-- What a hooked socket() or accept() returns has the context of a new socket. -/
def OpensFresh (_ : World) (a : Call × Flags) (w' : World) : Prop :=
  ∀ fd, a.1.hookedOpens = some fd → Describes w' fd

/-- No context is left for the number, there is room for one, and init's calls succeed. -/
def NoneLeft (w : World) (c : Call) : Prop :=
  ∀ fd, c.hookedOpens = some fd → w.get fd = none ∧ HasRoom w.m_datas fd ∧ c.initAns = ⟨true, true, true⟩

variable {w w' : World} {fd : Nat} {flags : Flags} {ans : InitAns}

theorem opened_get (w : World) (fd : Nat) (flags : Flags) : (w.opened fd flags).get = w.get := rfl

theorem opened_files (w : World) (fd : Nat) (flags : Flags) : (w.opened fd flags).files fd = some ⟨flags, true⟩ :=
  Function.update_self ..

/-- init of a blocking socket sets its flag exactly when its calls succeed. -/
theorem new_socket (fd : Nat) (hf : flags.getLsbD 11 = false) (ans : InitAns) :
    ∃ file, (FdCtx.new fd (some ⟨flags, true⟩) ans).2 = some file ∧
      ((FdCtx.new fd (some ⟨flags, true⟩) ans).1.m_isSocket = true ∧ isSet file.flags O_NONBLOCK = true ↔
        ans = ⟨true, true, true⟩) := by
  have hclear : isSet flags O_NONBLOCK = false := by rw [isSet_nonblock, hf]
  have hset : isSet ((flags &&& ~~~settable) ||| ((flags ||| O_NONBLOCK) &&& settable)) O_NONBLOCK = true := by
    rw [isSet_nonblock, setfl_nonblock, or_nonblock]
  obtain ⟨fstat, getfl, setfl⟩ := ans
  cases fstat with
  | false => exact ⟨_, rfl, by simp [FdCtx.new]⟩
  | true =>
    cases getfl with
    | false =>
      have hminus : ¬(true && !isSet (-1) O_NONBLOCK) = true := by decide
      exact ⟨⟨flags, true⟩, if_neg hminus, by simp [hclear]⟩
    | true =>
      cases setfl with
      | false => exact ⟨⟨flags, true⟩, by simp [FdCtx.new, fcntl_f.getfl, fcntl_f.setfl], by simp [hclear]⟩
      | true =>
        refine ⟨⟨(flags &&& ~~~settable) ||| ((flags ||| O_NONBLOCK) &&& settable), true⟩, ?_, ?_⟩
        · simp [FdCtx.new, fcntl_f.getfl, fcntl_f.setfl, hclear]
        · simp [FdCtx.new, hset]

/-- A blocking socket that was just opened, after `get(fd, true)`. -/
theorem describes_iff (hfd : fd < 2147483648) (hf : flags.getLsbD 11 = false) (ans : InitAns) :
    Describes ((w.opened fd flags).getCreate fd ans) fd ↔
      w.get fd = none ∧ HasRoom w.m_datas fd ∧ ans = ⟨true, true, true⟩ := by
  cases hg : w.get fd with
  | some ctx =>
    -- the old context is kept, and nothing sets the flag
    have hsame : (w.opened fd flags).getCreate fd ans = w.opened fd flags := by
      unfold World.getCreate
      rw [opened_get, hg]
    rw [hsame]
    constructor
    · intro hd
      obtain ⟨_, file, -, hfile, -, -, -, -, hset⟩ := hd
      rw [opened_files] at hfile
      cases hfile
      rw [isSet_nonblock, hf] at hset
      cases hset
    · intro h
      cases h.1
  | none =>
    obtain ⟨file, hnew, hiff⟩ := new_socket fd hf ans
    have hw : (w.opened fd flags).getCreate fd ans =
        ⟨store w.m_datas fd (FdCtx.new fd (some ⟨flags, true⟩) ans).1,
          Function.update (w.opened fd flags).files fd (some file)⟩ := by
      unfold World.getCreate
      rw [opened_get, hg, opened_files]
      show World.mk _ (Function.update _ fd (FdCtx.new fd (some ⟨flags, true⟩) ans).2) = _
      rw [hnew]
      rfl
    have hget : ((w.opened fd flags).getCreate fd ans).get fd =
        if HasRoom w.m_datas fd then some (FdCtx.new fd (some ⟨flags, true⟩) ans).1 else none := by
      rw [hw]
      exact lookup_store_self hfd
    have hfile : ((w.opened fd flags).getCreate fd ans).files fd = some file := by
      rw [hw]
      exact Function.update_self ..
    unfold Describes
    rw [hget, hfile]
    constructor
    · intro hd
      obtain ⟨ctx, file', hctx, hfile', -, -, -, hsock, hset⟩ := hd
      cases hfile'
      split at hctx
      · rename_i hroom
        cases hctx
        exact ⟨rfl, hroom, hiff.mp ⟨hsock, hset⟩⟩
      · cases hctx
    · intro ⟨_, hroom, hans⟩
      obtain ⟨hsock, hset⟩ := hiff.mpr hans
      exact ⟨_, file, if_pos hroom, rfl, rfl, rfl, rfl, hsock, hset⟩

theorem socket_flags_clear {type : Flags} (h : isSet type SOCK_NONBLOCK = false) :
    (O_RDWR ||| (type &&& SOCK_NONBLOCK)).getLsbD 11 = false := by
  have hzero : type &&& SOCK_NONBLOCK = 0 := by simpa [isSet] using h
  rw [hzero]
  decide

/-- What a hooked socket() or accept() does. -/
theorem hookedOpens_exec {c : Call} (h : c.hookedOpens = some fd) : ∃ flags, flags.getLsbD 11 = false ∧
    c.opens = some fd ∧ ∀ w : World, (w.exec c).1 = (w.opened fd flags).getCreate fd c.initAns := by
  cases c with
  | socket t_hook_enable type answer ans =>
    cases t_hook_enable with
    | false => cases h
    | true =>
      by_cases hnb : isSet type SOCK_NONBLOCK = true
      · rw [Call.hookedOpens, if_pos hnb] at h
        cases h
      · rw [Call.hookedOpens, if_neg hnb] at h
        cases h
        exact ⟨_, socket_flags_clear (by simpa using hnb), rfl, fun _ => rfl⟩
  | accept answer ans =>
    cases h
    exact ⟨O_RDWR, by decide, rfl, fun _ => rfl⟩
  | _ => cases h

theorem opensFresh_iff {a : Call × Flags} (hs : w.Step a w') : OpensFresh w a w' ↔ NoneLeft w a.1 := by
  have hw' : (w.exec a.1).1 = w' := by rw [hs.2]
  have heach : ∀ fd, a.1.hookedOpens = some fd →
      (Describes w' fd ↔ w.get fd = none ∧ HasRoom w.m_datas fd ∧ a.1.initAns = ⟨true, true, true⟩) := by
    intro fd h
    obtain ⟨flags, hf, hopens, hexec⟩ := hookedOpens_exec h
    rw [← hw', hexec]
    exact describes_iff (hs.1 fd hopens).2 hf a.1.initAns
  constructor
  · exact fun h fd hopens => (heach fd hopens).mp (h fd hopens)
  · exact fun h fd hopens => (heach fd hopens).mpr (h fd hopens)

/-- In every run of calls on any threads, hook-enabled or not: each descriptor a hooked
    socket() or accept() returns has the context of a new socket exactly when each time no
    context was left for its number, there was room for one, and init's calls succeeded. -/
theorem fresh_context_iff {tr : List ((Call × Flags) × World)} (hr : Lts.Run World.Step w tr) :
    Lts.Every OpensFresh w tr ↔ Lts.Every (fun w a _ => NoneLeft w a.1) w tr :=
  hr.every_iff (J := fun _ => True) (P := OpensFresh) (G := fun w a => NoneLeft w a.1) (fun _ _ _ _ _ _ => trivial)
    (fun _ _ _ _ hs => opensFresh_iff hs) trivial

theorem fresh_context_first : Lts.Every OpensFresh idle [((openSocket 1, 3), withSocket 1)] := by
  refine (fresh_context_iff (.cons (openSocket_step 1) (.nil _))).mpr ⟨?_, trivial⟩
  intro fd h
  cases h
  exact ⟨rfl, by decide, rfl⟩

/-- The socket, closed on a thread that is not hook-enabled. -/
def closedUnseen : World := ((withSocket 1).exec (.close false 3 true)).1

/-- The next socket gets its number and its context, and no O_NONBLOCK. -/
theorem stale_context : ∃ w tr, World.Init w ∧ Lts.Run World.Step w tr ∧ ¬Lts.Every OpensFresh w tr := by
  have hclose : (withSocket 1).Step (.close false 3 true, 0) closedUnseen := ⟨fun _ h => (nomatch h), rfl⟩
  have hagain : closedUnseen.Step (openSocket 1, 3) (closedUnseen.exec (openSocket 1)).1 := by
    refine ⟨?_, rfl⟩
    intro fd h
    cases h
    exact ⟨rfl, by decide⟩
  refine ⟨idle, _, rfl, .cons (openSocket_step 1) (.cons hclose (.cons hagain (.nil _))), ?_⟩
  intro h
  obtain ⟨-, -, hfresh, -⟩ := h
  have hnone := ((opensFresh_iff hagain).mp hfresh 3 rfl).1
  revert hnone
  decide

/-! ## Closed where the code sees it -/

/-- A close on a thread that is not hook-enabled finds no context. -/
def ClosesSeen (w : World) (c : Call) : Prop := ∀ fd, c = .close false fd true → w.get fd = none

/-- A context is that of an open descriptor. -/
structure Current (w : World) : Prop where
  small : Small w.m_datas
  isOpen : ∀ fd, (w.fd fd).ctx ≠ none → (w.fd fd).file ≠ none

theorem getCreate_file (d : Fd) (fd : Nat) (ans : InitAns) (h : d.file ≠ none) : (d.getCreate fd ans).file ≠ none := by
  obtain ⟨file, hfile⟩ := Option.ne_none_iff_exists'.mp h
  unfold Fd.getCreate
  split
  · exact h
  · obtain ⟨file', hnew, -, -⟩ := new_file fd file ans
    rw [hfile]
    show (FdCtx.new fd (some file) ans).2 ≠ none
    rw [hnew]
    exact Option.some_ne_none _

theorem setfl_file {file : Option File} (h : file ≠ none) (arg : Flags) (ok : Bool) :
    (fcntl_f.setfl file arg ok).1 ≠ none := by
  obtain ⟨f, rfl⟩ := Option.ne_none_iff_exists'.mp h
  cases ok <;> exact Option.some_ne_none _

theorem fionbio_file {file : Option File} (h : file ≠ none) (value : BitVec 32) (ok : Bool) :
    (ioctl_f.fionbio file value ok).1 ≠ none := by
  obtain ⟨f, rfl⟩ := Option.ne_none_iff_exists'.mp h
  cases ok <;> exact Option.some_ne_none _

theorem exec_open {d : Fd} (hd : d.ctx ≠ none → d.file ≠ none) {c : Call}
    (hclose : ∀ i, c = .close false i true → d.ctx = none) (hctx : (d.exec c).ctx ≠ none) :
    (d.exec c).file ≠ none := by
  cases c with
  | socket t_hook_enable type answer ans =>
    cases answer with
    | none => exact hd hctx
    | some fd =>
      cases t_hook_enable with
      | false => exact Option.some_ne_none _
      | true => exact getCreate_file _ fd ans (Option.some_ne_none _)
  | accept answer ans =>
    cases answer with
    | none => exact hd hctx
    | some fd => exact getCreate_file _ fd ans (Option.some_ne_none _)
  | close t_hook_enable fd ok =>
    cases t_hook_enable with
    | true => exact absurd rfl hctx
    | false =>
      cases ok with
      | false => exact hd hctx
      | true => exact absurd (hclose fd rfl) hctx
  | setfl fd arg ok =>
    unfold Fd.exec at hctx ⊢
    cases hm : managed d.ctx with
    | none =>
      rw [hm] at hctx
      exact setfl_file (hd hctx) arg ok
    | some ctx => exact setfl_file (hd (ne_none_of_managed hm)) _ ok
  | getfl fd ok => exact hd hctx
  | fionbio i value ok =>
    unfold Fd.exec at hctx ⊢
    cases hm : managed d.ctx with
    | none =>
      rw [hm] at hctx
      exact fionbio_file (hd hctx) value ok
    | some ctx => exact fionbio_file (hd (ne_none_of_managed hm)) value ok
  | setsockopt t_hook_enable sockfd optname tv_sec tv_usec ok =>
    cases t_hook_enable with
    | false => exact hd hctx
    | true =>
      cases optname with
      | none => exact hd hctx
      | some type =>
        apply hd
        intro hn
        apply hctx
        show d.ctx.map _ = none
        rw [hn]
        rfl

theorem Current.step {a : Call × Flags} (h : Current w) (hsmall : a.1.Small) (hclose : ClosesSeen w a.1)
    (hs : w.Step a w') : Current w' := by
  obtain ⟨-, rfl⟩ | ⟨i, hon, hsm, hfd⟩ := World.step_cases h.small hsmall hs
  · exact h
  · refine ⟨hsm, ?_⟩
    rw [hfd]
    refine (Function.forall_update_iff w.fd fun _ d => d.ctx ≠ none → d.file ≠ none).mpr
      ⟨exec_open (h.isOpen i) fun j hc => ?_, fun j _ => h.isOpen j⟩
    rw [hc] at hon
    cases hon
    exact hclose i hc

/-- While every descriptor with a context is closed on a hook-enabled thread, no context is
    left for a number the kernel gives. -/
theorem none_left (h : Lts.Reach World.Init (Lts.guarded World.Step fun w a => a.1.Small ∧ ClosesSeen w a.1) w)
    {c : Call} (hl : w.Legal c) (hopens : c.opens = some fd) : w.get fd = none := by
  have hcur : Current w := by
    apply h.inv
    · intro s hs
      exact ⟨hs ▸ fresh_small, fun i hctx => absurd (World.Init.get_eq hs i) hctx⟩
    · intro s a s' hcur ⟨⟨hsmall, hclose⟩, hs⟩
      exact hcur.step hsmall hclose hs
  by_contra hne
  exact hcur.isOpen fd hne (hl fd hopens).1

/-! ## A descriptor asked for at once -/

namespace Sharing

/-- Where a thread is in `get(fd, true)`: outside, or past the read lock, to create. -/
inductive Pc where
  | out
  | create (fd : Nat)
  deriving DecidableEq

/-- The objects are known by the order of their creation. -/
structure State where
  m_datas : List (Option Nat)
  ctx : Nat → FdCtx
  created : Nat
  pc : Tid → Pc

inductive Act where
  | look (t : Tid) (fd : Nat) (autoCreate : Bool)
  | create (t : Tid) (fd : Nat) (file : Option File) (ans : InitAns)
  | setTimeout (c : Nat) (type : Hook.SockOpt) (val : UInt64)
  | setUserNonblock (c : Nat) (val : Bool)
  deriving DecidableEq

def Init (s : State) : Prop := s.m_datas = fresh ∧ s.created = 0 ∧ s.pc = fun _ => .out

def State.looked (s : State) (t : Tid) (fd : Nat) : State := { s with pc := Function.update s.pc t (.create fd) }

/-- The new context, in the table. -/
def State.stored (s : State) (t : Tid) (fd : Nat) (file : Option File) (ans : InitAns) : State where
  m_datas := store s.m_datas fd s.created
  ctx := Function.update s.ctx s.created (FdCtx.new fd file ans).1
  created := s.created + 1
  pc := Function.update s.pc t .out

/-- A critical section, and what the call then returns; `none`: it goes on. -/
inductive Step : State → Act × Option (Option Nat) → State → Prop
  | found {s : State} {t : Tid} {fd c : Nat} (autoCreate : Bool) : s.pc t = .out → lookup s.m_datas fd = some c →
      Step s (.look t fd autoCreate, some (some c)) s
  | absent {s : State} {t : Tid} {fd : Nat} : s.pc t = .out → lookup s.m_datas fd = none →
      Step s (.look t fd false, some none) s
  | goesOn {s : State} {t : Tid} {fd : Nat} : s.pc t = .out → fd < 2147483648 → lookup s.m_datas fd = none →
      Step s (.look t fd true, none) (s.looked t fd)
  /-- Under the write lock, where the table is not looked at again. -/
  | create {s : State} {t : Tid} {fd : Nat} (file : Option File) (ans : InitAns) : s.pc t = .create fd →
      Step s (.create t fd file ans, some (some s.created)) (s.stored t fd file ans)
  | setTimeout {s : State} {c : Nat} (type : Hook.SockOpt) (val : UInt64) : c < s.created →
      Step s (.setTimeout c type val, none) { s with ctx := Function.update s.ctx c ((s.ctx c).setTimeout type val) }
  | setUserNonblock {s : State} {c : Nat} (val : Bool) : c < s.created →
      Step s (.setUserNonblock c val, none) { s with ctx := Function.update s.ctx c ((s.ctx c).setUserNonblock val) }

/-- A get on `fd` returns `c`. -/
def Returns (a : Act × Option (Option Nat)) (fd c : Nat) : Prop :=
  a.2 = some (some c) ∧ ((∃ t autoCreate, a.1 = .look t fd autoCreate) ∨ ∃ t file ans, a.1 = .create t fd file ans)

/-- What is set through context `c`. -/
def applied (c : Nat) : Act → FdCtx → FdCtx
  | .setTimeout d type val, ctx => if d = c then ctx.setTimeout type val else ctx
  | .setUserNonblock d val, ctx => if d = c then ctx.setUserNonblock val else ctx
  | _, ctx => ctx

/-- No context is replaced or lost, what a get returns is in the table, and a context
    changes by what is set through it. -/
structure Shares (s : State) (a : Act × Option (Option Nat)) (s' : State) : Prop where
  kept : ∀ fd c, lookup s.m_datas fd = some c → lookup s'.m_datas fd = some c
  returned : ∀ fd c, Returns a fd c → lookup s'.m_datas fd = some c
  settings : ∀ c < s.created, s'.ctx c = applied c a.1 (s.ctx c)

/-- A context is created for a descriptor that has none, and that there is room for. -/
def InTime (s : State) (a : Act × Option (Option Nat)) : Prop :=
  ∀ t fd file ans, a.1 = .create t fd file ans → lookup s.m_datas fd = none ∧ HasRoom s.m_datas fd

structure Inv (s : State) : Prop where
  small : Small s.m_datas
  ids : ∀ fd c, lookup s.m_datas fd = some c → c < s.created
  fd : ∀ t fd, s.pc t = .create fd → fd < 2147483648

variable {s s' : State} {a : Act × Option (Option Nat)} {tr : List ((Act × Option (Option Nat)) × State)}

theorem init_inv (h : Init s) : Inv s := by
  obtain ⟨hm, -, hpc⟩ := h
  refine ⟨hm ▸ fresh_small, ?_, ?_⟩
  · intro fd c hl
    rw [hm, lookup_fresh] at hl
    cases hl
  · intro t fd h
    rw [hpc] at h
    cases h

/-- What the write lock leaves, when it comes in time. -/
theorem Inv.stored (hi : Inv s) {fd : Nat} (hfd : fd < 2147483648) (hroom : HasRoom s.m_datas fd) :
    Small (store s.m_datas fd s.created) ∧
      lookup (store s.m_datas fd s.created) = Function.update (lookup s.m_datas) fd (some s.created) :=
  hi.small.store ((hi.small.hasRoom hfd).mp hroom) s.created

theorem step_inv (hi : Inv s) (hin : InTime s a) (hs : Step s a s') : Inv s' := by
  cases hs with
  | found => exact hi
  | absent => exact hi
  | @goesOn t fd _ hfd _ =>
    refine ⟨hi.small, hi.ids, ?_⟩
    exact (Function.forall_update_iff s.pc fun _ p => ∀ fd, p = .create fd → fd < 2147483648).mpr
      ⟨fun fd' h => by cases h; exact hfd, fun u _ => hi.fd u⟩
  | @create t fd file ans hpc =>
    obtain ⟨hsmall, hget⟩ := hi.stored (hi.fd t fd hpc) (hin t fd file ans rfl).2
    refine ⟨hsmall, ?_, ?_⟩
    · show ∀ fd' c, lookup (store s.m_datas fd s.created) fd' = some c → c < s.created + 1
      rw [hget]
      exact (Function.forall_update_iff (lookup s.m_datas) fun _ o => ∀ c, o = some c → c < s.created + 1).mpr
        ⟨fun c h => by cases h; exact Nat.lt_succ_self _, fun i _ c h => Nat.lt_succ_of_lt (hi.ids i c h)⟩
    · exact (Function.forall_update_iff s.pc fun _ p => ∀ fd, p = .create fd → fd < 2147483648).mpr
        ⟨nofun, fun u _ => hi.fd u⟩
  | setTimeout => exact ⟨hi.small, hi.ids, hi.fd⟩
  | setUserNonblock => exact ⟨hi.small, hi.ids, hi.fd⟩

theorem shares_iff (hi : Inv s) (hs : Step s a s') : Shares s a s' ↔ InTime s a := by
  cases hs with
  | @found t fd c autoCreate _ hl =>
    refine ⟨fun _ _ _ _ _ h => (nomatch h), fun _ => ⟨fun _ _ h => h, ?_, fun _ _ => rfl⟩⟩
    intro fd' c' ⟨hret, hact⟩
    cases hret
    rcases hact with ⟨_, _, h⟩ | ⟨_, _, _, h⟩
    · cases h
      exact hl
    · cases h
  | absent =>
    exact ⟨fun _ _ _ _ _ h => (nomatch h), fun _ => ⟨fun _ _ h => h, fun _ _ h => (nomatch h.1), fun _ _ => rfl⟩⟩
  | goesOn =>
    exact ⟨fun _ _ _ _ _ h => (nomatch h), fun _ => ⟨fun _ _ h => h, fun _ _ h => (nomatch h.1), fun _ _ => rfl⟩⟩
  | @create t fd file ans hpc =>
    have hfd := hi.fd t fd hpc
    have hself : lookup (s.stored t fd file ans).m_datas fd = if HasRoom s.m_datas fd then some s.created else none :=
      lookup_store_self hfd
    constructor
    · intro hsh t' fd' file' ans' h
      cases h
      have hret := hsh.returned fd s.created ⟨rfl, .inr ⟨t, file, ans, rfl⟩⟩
      constructor
      · -- one that was there would have been replaced
        by_contra hne
        obtain ⟨c, hc⟩ := Option.ne_none_iff_exists'.mp hne
        have hkept := hsh.kept fd c hc
        rw [hret] at hkept
        exact Nat.lt_irrefl _ (Option.some_inj.mp hkept ▸ hi.ids fd c hc)
      · by_contra hno
        rw [hself, if_neg hno] at hret
        cases hret
    · intro hin
      obtain ⟨hnone, hroom⟩ := hin t fd file ans rfl
      obtain ⟨-, hget⟩ := hi.stored hfd hroom
      refine ⟨?_, ?_, ?_⟩
      · intro fd' c h
        show lookup (store s.m_datas fd s.created) fd' = some c
        have hne : fd' ≠ fd := by
          intro e
          rw [e, hnone] at h
          cases h
        rw [hget, Function.update_of_ne hne]
        exact h
      · intro fd' c ⟨hret, hact⟩
        cases hret
        rcases hact with ⟨_, _, h⟩ | ⟨_, _, _, h⟩
        · cases h
        · cases h
          show lookup (store s.m_datas fd s.created) fd = some s.created
          rw [hget, Function.update_self]
      · exact fun c hc => Function.update_of_ne (Nat.ne_of_lt hc) ..
  | @setTimeout c type val _ =>
    refine ⟨fun _ _ _ _ _ h => (nomatch h), fun _ => ⟨fun _ _ h => h, fun _ _ h => (nomatch h.1), fun d _ => ?_⟩⟩
    show Function.update s.ctx c _ d = if c = d then _ else _
    by_cases e : c = d
    · rw [e, Function.update_self, if_pos rfl]
    · rw [Function.update_of_ne (Ne.symm e), if_neg e]
  | @setUserNonblock c val _ =>
    refine ⟨fun _ _ _ _ _ h => (nomatch h), fun _ => ⟨fun _ _ h => h, fun _ _ h => (nomatch h.1), fun d _ => ?_⟩⟩
    show Function.update s.ctx c _ d = if c = d then _ else _
    by_cases e : c = d
    · rw [e, Function.update_self, if_pos rfl]
    · rw [Function.update_of_ne (Ne.symm e), if_neg e]

/-! ## Runs of gets -/

theorem created_le (hs : Step s a s') : s.created ≤ s'.created := by
  cases hs with
  | create => exact Nat.le_succ _
  | _ => exact Nat.le_refl _

/-- While contexts are shared, a context in the table stays, is what every get returns,
    and is what the settings made through it have made of it. -/
theorem shared_later {fd c : Nat} (hr : Lts.Run Step s tr) (he : Lts.Every Shares s tr)
    (hl : lookup s.m_datas fd = some c) (hc : c < s.created) :
    lookup (Lts.final s tr).m_datas fd = some c ∧ (∀ y ∈ tr, ∀ c', Returns y.1 fd c' → c' = c) ∧
      (Lts.final s tr).ctx c = tr.foldl (fun ctx y => applied c y.1.1 ctx) (s.ctx c) := by
  induction hr with
  | nil => exact ⟨hl, fun _ h => (nomatch h), rfl⟩
  | @cons s s' a tr hs _ ih =>
    obtain ⟨hsh, he⟩ := he
    have hl' := hsh.kept fd c hl
    obtain ⟨hfinal, hret, hctx⟩ := ih he hl' (Nat.lt_of_lt_of_le hc (created_le hs))
    refine ⟨hfinal, ?_, ?_⟩
    · intro y hy c' hy'
      rcases List.mem_cons.mp hy with rfl | hy
      · have := hsh.returned fd c' hy'
        rw [hl'] at this
        exact (Option.some_inj.mp this).symm
      · exact hret y hy c' hy'
    · rw [List.foldl_cons, ← hsh.settings c hc]
      exact hctx

theorem shared_since {fd c : Nat} {x : (Act × Option (Option Nat)) × State}
    {tr₁ tr₂ : List ((Act × Option (Option Nat)) × State)} (hi : Inv s)
    (hr : Lts.Run Step s (tr₁ ++ x :: tr₂)) (he : Lts.Every Shares s (tr₁ ++ x :: tr₂)) (hret : Returns x.1 fd c) :
    lookup (Lts.final s (tr₁ ++ x :: tr₂)).m_datas fd = some c ∧ (∀ y ∈ tr₂, ∀ c', Returns y.1 fd c' → c' = c) ∧
      (Lts.final s (tr₁ ++ x :: tr₂)).ctx c = tr₂.foldl (fun ctx y => applied c y.1.1 ctx) (x.2.ctx c) := by
  induction tr₁ generalizing s with
  | nil =>
    cases hr with
    | cons hs hr =>
      have hi' := step_inv hi ((shares_iff hi hs).mp he.1) hs
      have hl := he.1.returned fd c hret
      exact shared_later hr he.2 hl (hi'.ids fd c hl)
  | cons y tr₁ ih =>
    cases hr with
    | cons hs hr => exact ih (step_inv hi ((shares_iff hi hs).mp he.1) hs) hr he.2

/-- In every interleaving of gets: contexts are shared at every step exactly when each is
    created for a descriptor that has none and that there is room for. Then a context that
    a get has returned is what every later get of the descriptor returns, with all that
    was set through it. -/
theorem contexts_shared_iff (hi : Init s) (hr : Lts.Run Step s tr) :
    (Lts.Every Shares s tr ↔ Lts.Every (fun s a _ => InTime s a) s tr) ∧
    (Lts.Every Shares s tr → ∀ tr₁ x tr₂ fd c, tr = tr₁ ++ x :: tr₂ → Returns x.1 fd c →
      lookup (Lts.final s tr).m_datas fd = some c ∧ (∀ y ∈ tr₂, ∀ c', Returns y.1 fd c' → c' = c) ∧
      (Lts.final s tr).ctx c = tr₂.foldl (fun ctx y => applied c y.1.1 ctx) (x.2.ctx c)) := by
  constructor
  · exact hr.every_iff (J := Inv) (P := Shares) (G := InTime) (fun _ _ _ hi hin hs => step_inv hi hin hs)
      (fun _ _ _ hi hs => shares_iff hi hs) (init_inv hi)
  · intro he tr₁ x tr₂ fd c heq hret
    subst heq
    exact shared_since (init_inv hi) hr he hret

/-- A new manager. -/
def start : State := ⟨fresh, fun _ => (FdCtx.new 0 none ⟨false, false, false⟩).1, 0, fun _ => .out⟩

/-- A socket without context, and init's calls succeed. -/
def sock : Option File := some ⟨O_RDWR, true⟩

def initOk : InitAns := ⟨true, true, true⟩

/-- Thread 1 has got the context of descriptor 3. -/
def created : State := (start.looked 1 3).stored 1 3 sock initOk

/-- Then a receive timeout was set through it. -/
def timed : State :=
  { created with ctx := Function.update created.ctx 0 ((created.ctx 0).setTimeout .SO_RCVTIMEO 1000) }

/-- Thread 2 gets the context too and sets the timeout; then thread 1 gets it again. -/
def sharedRun : List ((Act × Option (Option Nat)) × State) :=
  [((.look 1 3 true, none), start.looked 1 3), ((.create 1 3 sock initOk, some (some 0)), created),
    ((.look 2 3 true, some (some 0)), created), ((.setTimeout 0 .SO_RCVTIMEO 1000, none), timed),
    ((.look 1 3 false, some (some 0)), timed)]

theorem sharedRun_run : Lts.Run Step start sharedRun :=
  .cons (.goesOn rfl (by decide) rfl) (.cons (.create sock initOk rfl) (.cons (.found true rfl rfl)
    (.cons (.setTimeout .SO_RCVTIMEO 1000 Nat.one_pos) (.cons (.found false rfl rfl) (.nil _)))))

theorem contexts_shared_twoThreads : Lts.Every Shares start sharedRun ∧
    (Lts.final start sharedRun).ctx 0 = (created.ctx 0).setTimeout .SO_RCVTIMEO 1000 := by
  obtain ⟨hiff, hsince⟩ := contexts_shared_iff ⟨rfl, rfl, rfl⟩ sharedRun_run
  have hall : Lts.Every Shares start sharedRun := by
    refine hiff.mpr ⟨fun _ _ _ _ h => (nomatch h), ?_, fun _ _ _ _ h => (nomatch h), fun _ _ _ _ h => (nomatch h),
      fun _ _ _ _ h => (nomatch h), trivial⟩
    intro t fd file ans h
    cases h
    exact ⟨rfl, by decide⟩
  have hlater := hsince hall [_] _ _ 3 0 rfl ⟨rfl, .inr ⟨1, sock, initOk, rfl⟩⟩
  exact ⟨hall, hlater.2.2⟩

/-- Threads 1 and 2 both look for it, and both create it: context 0 is replaced. -/
theorem second_creation : ∃ s tr, Init s ∧ Lts.Run Step s tr ∧ ¬Lts.Every Shares s tr := by
  have hlook1 : Step start (.look 1 3 true, none) (start.looked 1 3) := .goesOn rfl (by decide) rfl
  have hlook2 : Step (start.looked 1 3) (.look 2 3 true, none) ((start.looked 1 3).looked 2 3) :=
    .goesOn rfl (by decide) rfl
  have hcreate1 : Step ((start.looked 1 3).looked 2 3) (.create 1 3 sock initOk, some (some 0)) _ :=
    .create sock initOk rfl
  have hcreate2 : Step (((start.looked 1 3).looked 2 3).stored 1 3 sock initOk)
      (.create 2 3 sock initOk, some (some 1)) _ := .create sock initOk rfl
  refine ⟨start, _, ⟨rfl, rfl, rfl⟩, .cons hlook1 (.cons hlook2 (.cons hcreate1 (.cons hcreate2 (.nil _)))), ?_⟩
  intro h
  obtain ⟨-, -, -, hsh, -⟩ := h
  have hkept := hsh.kept 3 0 rfl
  revert hkept
  decide

end Sharing

end FdManager

end Sylar
