/-
  Sylar.Hook.NonBlock — O_NONBLOCK of a socket: the kernel's flag, which the hooks keep
  set, and the mode the user asked for, which they keep in the context.

  - `nonblocking_iff`: on hook-enabled threads, the kernel's flag of every descriptor with
    a socket context is set after every call exactly when no FIONBIO with value 0 succeeds
    on one: ioctl hands the value to the kernel as it is, where fcntl puts O_NONBLOCK back
    (`fionbio_clears`).
  - `getfl_conforms_iff`: F_GETFL answers what a program without hooks would see exactly
    when the last request, successful or not, asked for the mode that the last successful
    one asked for, socket() counting as a request for blocking mode whatever its type;
    and, where the underlying F_GETFL fails, for non-blocking mode: else -1 loses a bit
    (`sock_nonblock_forgotten`).

  Both are proved descriptor by descriptor (`World.exec_on`), for descriptors below
  1431655766, so that the table's size stays an int.
-/

import Sylar.Hook.FdManager

namespace Sylar

namespace FdManager

/-! ## The kernel's flag -/

/-- A call on a hook-enabled thread, as far as the code asks. -/
def Call.hooked : Call → Bool
  | .socket t_hook_enable _ _ _ => t_hook_enable
  | .close t_hook_enable _ _ => t_hook_enable
  | .setsockopt t_hook_enable _ _ _ _ _ => t_hook_enable
  | _ => true

/-- The calls in `init` succeed. -/
def Call.initOk : Call → Bool
  | .socket _ _ _ ans => ans.fstat && ans.getfl && ans.setfl
  | .accept _ ans => ans.fstat && ans.getfl && ans.setfl
  | _ => true

structure Call.Enabled (c : Call) : Prop where
  hooked : c.hooked = true
  initOk : c.initOk = true
  small : c.Small

/-- The kernel's flag is set on every open descriptor with a socket context. -/
def NonBlocking (w : World) : Prop :=
  ∀ fd ctx file, w.get fd = some ctx → w.files fd = some file → ctx.m_isSocket = true → ctx.m_sysNonBlock = true →
    isSet file.flags O_NONBLOCK = true

/-- No FIONBIO with value 0 succeeds on a descriptor with a socket context. -/
def NoClearing (w : World) (c : Call) : Prop :=
  ∀ d ctx, c = .fionbio d 0 true → w.get d = some ctx → ctx.m_isSocket = false

/-- A context is that of an open descriptor, which is non-blocking if it is a socket. -/
inductive Good : Fd → Prop
  | bare (file : Option File) : Good ⟨none, file⟩
  | other {ctx : FdCtx} (file : File) : ctx.m_isSocket = false → Good ⟨some ctx, some file⟩
  | socket {ctx : FdCtx} {file : File} : ctx.m_isClosed = false → ctx.m_isSocket = true → ctx.m_sysNonBlock = true →
      file.flags.getLsbD 11 = true → Good ⟨some ctx, some file⟩

theorem managed_other {ctx : FdCtx} (h : ctx.m_isSocket = false) : managed (some ctx) = none := by
  simp [managed, h]

theorem managed_socket {ctx : FdCtx} (hc : ctx.m_isClosed = false) (h : ctx.m_isSocket = true) :
    managed (some ctx) = some ctx := by
  simp [managed, h, hc]

/-- What init leaves when its calls succeed. -/
theorem good_new (fd : Nat) (file : File) : Good
    ⟨some (FdCtx.new fd (some file) ⟨true, true, true⟩).1, (FdCtx.new fd (some file) ⟨true, true, true⟩).2⟩ := by
  obtain ⟨flags, isSock⟩ := file
  cases isSock with
  | false => exact .other _ rfl
  | true =>
    have hfile : (FdCtx.new fd (some ⟨flags, true⟩) ⟨true, true, true⟩).2 =
        if (!isSet flags O_NONBLOCK) = true then
          some ⟨(flags &&& ~~~settable) ||| ((flags ||| O_NONBLOCK) &&& settable), true⟩
        else some ⟨flags, true⟩ := rfl
    rw [hfile]
    split
    · refine .socket rfl rfl rfl ?_
      rw [setfl_nonblock, or_nonblock]
    · rename_i hset
      refine .socket rfl rfl rfl ?_
      rw [isSet_nonblock] at hset
      simpa using hset

theorem Good.opened {d : Fd} (hg : Good d) (hfile : d.file = none) (fd : Nat) (flags : Flags) {ans : InitAns}
    (hans : (ans.fstat && ans.getfl && ans.setfl) = true) : Good (Fd.getCreate ⟨d.ctx, some ⟨flags, true⟩⟩ fd ans) := by
  have hall : ans = ⟨true, true, true⟩ := by
    obtain ⟨fstat, getfl, setfl⟩ := ans
    simp only [Bool.and_eq_true] at hans
    rw [hans.1.1, hans.1.2, hans.2]
  cases hg with
  | bare => exact hall ▸ good_new fd _
  | other => cases hfile
  | socket => cases hfile

theorem Good.timeout {ctx : FdCtx} {file : File} (hg : Good ⟨some ctx, some file⟩) (type : Hook.SockOpt)
    (val : UInt64) : Good ⟨some (ctx.setTimeout type val), some file⟩ := by
  cases hg with
  | other _ h => cases type <;> exact .other _ h
  | socket hc hs hsys hf => cases type <;> exact .socket hc hs hsys hf

/-- Every call but a clearing FIONBIO keeps a descriptor good. -/
theorem good_exec {d : Fd} (hg : Good d) {c : Call} (hen : c.Enabled) (hlegal : ∀ fd, c.opens = some fd → d.file = none)
    (hno : ∀ i ctx, c = .fionbio i 0 true → d.ctx = some ctx → ctx.m_isSocket = false) : Good (d.exec c) := by
  cases c with
  | socket t_hook_enable type answer ans =>
    have hhook : t_hook_enable = true := hen.hooked
    cases answer with
    | none => exact hg
    | some fd =>
      rw [hhook]
      exact hg.opened (hlegal fd rfl) fd _ hen.initOk
  | accept answer ans =>
    cases answer with
    | none => exact hg
    | some fd => exact hg.opened (hlegal fd rfl) fd _ hen.initOk
  | close t_hook_enable fd ok =>
    have hhook : t_hook_enable = true := hen.hooked
    rw [hhook]
    exact .bare _
  | setfl fd arg ok =>
    cases hg with
    | bare => exact .bare _
    | other file h =>
      unfold Fd.exec
      rw [managed_other h]
      cases ok <;> exact .other _ h
    | socket hc hs hsys hf =>
      unfold Fd.exec
      rw [managed_socket hc hs]
      cases ok with
      | false => exact .socket hc hs hsys hf
      | true =>
        refine .socket hc hs hsys ?_
        rw [hsys, if_pos rfl, setfl_nonblock, or_nonblock]
  | getfl fd ok => exact hg
  | fionbio i value ok =>
    cases hg with
    | bare => exact .bare _
    | other file h =>
      unfold Fd.exec
      rw [managed_other h]
      cases ok <;> exact .other _ h
    | @socket ctx file hc hs hsys hf =>
      unfold Fd.exec
      rw [managed_socket hc hs]
      cases ok with
      | false => exact .socket hc hs hsys hf
      | true =>
        have hne : value ≠ 0 := by
          intro h0
          rw [hno i ctx (by rw [h0]) rfl] at hs
          cases hs
        refine .socket hc hs hsys ?_
        rw [if_pos hne, or_nonblock]
  | setsockopt t_hook_enable sockfd optname tv_sec tv_usec ok =>
    cases t_hook_enable with
    | false => exact hg
    | true =>
      cases optname with
      | none => exact hg
      | some type =>
        cases hg with
        | bare => exact .bare _
        | other file h => exact Good.timeout (.other file h) type _
        | socket hc hs hsys hf => exact Good.timeout (.socket hc hs hsys hf) type _

/-! ## Runs -/

structure Inv (w : World) : Prop where
  small : Small w.m_datas
  good : ∀ i, Good (w.fd i)

variable {w w' : World} {a : Call × Flags}

theorem init_inv (h : w.Init) : Inv w := by
  refine ⟨h ▸ fresh_small, fun i => ?_⟩
  show Good ⟨w.get i, w.files i⟩
  rw [h.get_eq]
  exact .bare _

theorem Inv.nonBlocking (hi : Inv w) : NonBlocking w := by
  intro fd ctx file hctx hfile hsock _
  have hg := hi.good fd
  unfold World.fd at hg
  rw [hctx, hfile] at hg
  rw [isSet_nonblock]
  cases hg with
  | other _ h =>
    rw [h] at hsock
    cases hsock
  | socket _ _ _ hf => exact hf

theorem step_inv (hi : Inv w) (hen : a.1.Enabled) (hs : w.Step a w') (hno : NoClearing w a.1) : Inv w' := by
  obtain ⟨-, rfl⟩ | ⟨i, hon, hsmall, hfd⟩ := World.step_cases hi.small hen.small hs
  · exact hi
  · refine ⟨hsmall, ?_⟩
    rw [hfd]
    refine (Function.forall_update_iff w.fd fun _ d => Good d).mpr
      ⟨good_exec (hi.good i) hen (World.step_unused hs hon) ?_, fun j _ => hi.good j⟩
    intro j ctx hc hctx
    rw [hc] at hon
    cases hon
    exact hno i ctx hc hctx

theorem nonBlocking_step_iff (hi : Inv w) (hen : a.1.Enabled) (hs : w.Step a w') :
    NonBlocking w' ↔ NoClearing w a.1 := by
  constructor
  · intro hnb d ctx hc hctx
    by_contra hsock
    have hsock : ctx.m_isSocket = true := by simpa using hsock
    have hon : a.1.on = some d := by rw [hc]; rfl
    have hfd : w'.fd = Function.update w.fd d ((w.fd d).exec a.1) := by
      have hexec := (World.exec_on hi.small hen.small hon).2
      rwa [hs.2] at hexec
    have hg := hi.good d
    unfold World.fd at hg
    rw [hctx] at hg
    generalize hfile : w.files d = file at hg
    cases hg with
    | other _ h =>
      rw [h] at hsock
      cases hsock
    | @socket _ file hcl hso hsys _ =>
      have hd : w'.fd d =
          ⟨some (ctx.setUserNonblock false), some { file with flags := file.flags &&& ~~~O_NONBLOCK }⟩ := by
        rw [hfd, Function.update_self, hc]
        unfold Fd.exec
        rw [World.fd_ctx, World.fd_file, hctx, hfile, managed_socket hcl hso]
        rfl
      have hset := hnb d _ _ (congrArg Fd.ctx hd) (congrArg Fd.file hd) hso hsys
      rw [isSet_nonblock, and_not_nonblock] at hset
      cases hset
  · exact fun hno => (step_inv hi hen hs hno).nonBlocking

/-- In every run of calls on hook-enabled threads, with init's own calls succeeding: the
    kernel's flag is set on every descriptor with a socket context after every call
    exactly when no FIONBIO with value 0 succeeds on one. -/
theorem nonblocking_iff {tr : List ((Call × Flags) × World)} (hi : w.Init)
    (hr : Lts.Run (Lts.guarded World.Step fun _ a => a.1.Enabled) w tr) :
    Lts.Every (fun _ _ w' => NonBlocking w') w tr ↔ Lts.Every (fun w a _ => NoClearing w a.1) w tr :=
  hr.every_iff (J := Inv) (P := fun _ _ w' => NonBlocking w') (G := fun w a => NoClearing w a.1)
    (fun _ _ _ hi hno hs => step_inv hi hs.1 hs.2 hno) (fun _ _ _ hi hs => nonBlocking_step_iff hi hs.1 hs.2)
    (init_inv hi)

theorem openSocket_enabled (type : Flags) : (openSocket type).Enabled := by
  refine ⟨rfl, rfl, ?_⟩
  intro fd h
  cases h
  decide

/-- The user clears the flag of the new socket with F_SETFL, and sets it with FIONBIO. -/
theorem nonblocking_setfl : ∃ w, Lts.Every (fun _ (_ : Call × Flags) w' => NonBlocking w') idle
    [((openSocket 1, 3), withSocket 1), ((.setfl 3 0 true, 0), ((withSocket 1).exec (.setfl 3 0 true)).1),
      ((.fionbio 3 1 true, 0), w)] := by
  have hset : (withSocket 1).Step (.setfl 3 0 true, 0) ((withSocket 1).exec (.setfl 3 0 true)).1 := ⟨nofun, rfl⟩
  have hion : ((withSocket 1).exec (.setfl 3 0 true)).1.Step (.fionbio 3 1 true, 0)
      (((withSocket 1).exec (.setfl 3 0 true)).1.exec (.fionbio 3 1 true)).1 := ⟨nofun, rfl⟩
  have hen : (Call.setfl 3 0 true).Enabled := ⟨rfl, rfl, fun _ h => (nomatch h)⟩
  have hen' : (Call.fionbio 3 1 true).Enabled := ⟨rfl, rfl, fun _ h => (nomatch h)⟩
  have hrun : Lts.Run (Lts.guarded World.Step fun _ a => a.1.Enabled) idle [(_, _), (_, _), (_, _)] :=
    .cons ⟨openSocket_enabled 1, openSocket_step 1⟩ (.cons ⟨hen, hset⟩ (.cons ⟨hen', hion⟩ (.nil _)))
  have hinit : World.Init idle := rfl
  refine ⟨_, (nonblocking_iff hinit hrun).mpr ⟨?_, ?_, ?_, trivial⟩⟩
  · intro d ctx h
    cases h
  · intro d ctx h
    cases h
  · intro d ctx h
    cases h

/-- ioctl(fd, FIONBIO, 0) on it clears the kernel's flag. -/
theorem fionbio_clears : ∃ w tr, World.Init w ∧ Lts.Run (Lts.guarded World.Step fun _ a => a.1.Enabled) w tr ∧
    ¬Lts.Every (fun _ _ w' => NonBlocking w') w tr := by
  have hclear : (withSocket 1).Step (.fionbio 3 0 true, 0) ((withSocket 1).exec (.fionbio 3 0 true)).1 := ⟨nofun, rfl⟩
  have hen : (Call.fionbio 3 0 true).Enabled := ⟨rfl, rfl, fun _ h => (nomatch h)⟩
  refine ⟨idle, _, rfl, .cons ⟨openSocket_enabled 1, openSocket_step 1⟩ (.cons ⟨hen, hclear⟩ (.nil _)), ?_⟩
  intro h
  obtain ⟨-, hnb, -⟩ := h
  have hset := hnb 3 _ _ rfl rfl rfl rfl
  revert hset
  decide

/-! ## What F_GETFL answers -/

/-- The calls by which a user asks for a mode of a descriptor and reads its flags. -/
structure Call.Modal (c : Call) : Prop where
  kind : (∃ type answer ans, c = .socket true type answer ans) ∨ (∃ fd arg ok, c = .setfl fd arg ok) ∨
    (∃ fd ok, c = .getfl fd ok) ∨ ∃ d value ok, c = .fionbio d value ok
  small : c.Small

/-- The world of the hooks, and of each descriptor: the file as a program without hooks
    has it, the mode its last successful request asked for, and the mode its last request
    asked for, successful or not, socket() counting as one for blocking mode. -/
structure Modes where
  w : World
  plain : Nat → Option File
  asked : Nat → Bool
  tried : Nat → Bool

/-- The call without hooks. -/
def plainExec (file : Option File) : Call → Option File
  | .socket _ type (some _) _ => some ⟨O_RDWR ||| (type &&& SOCK_NONBLOCK), true⟩
  | .setfl _ arg ok => (fcntl_f.setfl file arg ok).1
  | .fionbio _ value ok => (ioctl_f.fionbio file value ok).1
  | _ => file

def asks (asked : Bool) (file : Option File) : Call → Bool
  | .socket _ type (some _) _ => isSet type SOCK_NONBLOCK
  | .setfl _ arg ok => if ok && file.isSome then isSet arg O_NONBLOCK else asked
  | .fionbio _ value ok => if ok && file.isSome then value != 0 else asked
  | _ => asked

def tries (tried : Bool) : Call → Bool
  | .socket _ _ (some _) _ => false
  | .setfl _ arg _ => isSet arg O_NONBLOCK
  | .fionbio _ value _ => value != 0
  | _ => tried

namespace Modes

structure Step (s : Modes) (a : Call × Flags) (s' : Modes) : Prop where
  step : s.w.Step a s'.w
  plain : ∀ i, s'.plain i = if a.1.on = some i then plainExec (s.plain i) a.1 else s.plain i
  asked : ∀ i, s'.asked i = if a.1.on = some i then asks (s.asked i) (s.plain i) a.1 else s.asked i
  tried : ∀ i, s'.tried i = if a.1.on = some i then tries (s.tried i) a.1 else s.tried i

/-- The manager is new; what is open has the flags a program without hooks sees. -/
structure Init (s : Modes) : Prop where
  w : s.w.Init
  plain : s.plain = s.w.files
  asked : ∀ i file, s.plain i = some file → isSet file.flags O_NONBLOCK = s.asked i ∧ file.flags.getLsbD 31 = false

/-- -1 when the underlying F_GETFL fails, else the flags as a program without hooks sees
    them, with O_NONBLOCK as the last successful request asked. -/
def SeenPlain (plain : Option File) (ok asked : Bool) (ret : Flags) : Prop :=
  match plain, ok with
  | some file, true => ret = file.flags ∧ isSet ret O_NONBLOCK = asked ∧ ret ≠ -1
  | _, _ => ret = -1

def Conforms (s : Modes) (a : Call × Flags) : Prop :=
  ∀ fd ok, a.1 = .getfl fd ok → SeenPlain (s.plain fd) ok (s.asked fd) a.2

/-- F_GETFL is called on a descriptor with a socket context when the last request asked
    for the mode the last successful one asked for; if the underlying call fails, when it
    asked for non-blocking mode. -/
def Agrees (s : Modes) (c : Call) : Prop :=
  ∀ fd ok ctx, c = .getfl fd ok → s.w.get fd = some ctx → ctx.m_isSocket = true →
    if ok then s.tried fd = s.asked fd else s.tried fd = true

/-- A descriptor under the hooks, the file without them, and the modes asked for. -/
inductive Rel : Fd → Option File → Bool → Bool → Prop
  | closed {asked tried : Bool} : Rel ⟨none, none⟩ none asked tried
  /-- No socket context: the calls go through. -/
  | direct {ctx : Option FdCtx} {file : File} {asked tried : Bool} : (∀ c, ctx = some c → c.m_isSocket = false) →
      file.flags.getLsbD 11 = asked → file.flags.getLsbD 31 = false → Rel ⟨ctx, some file⟩ (some file) asked tried
  /-- The flags agree but for O_NONBLOCK, and the context has the mode tried last. -/
  | shadowed {ctx : FdCtx} {file plain : File} {asked tried : Bool} : ctx.m_isClosed = false → ctx.m_isSocket = true →
      (∀ i, i ≠ 11 → file.flags.getLsbD i = plain.flags.getLsbD i) → plain.flags.getLsbD 11 = asked →
      plain.flags.getLsbD 31 = false → ctx.m_userNonBlock = tried →
      Rel ⟨some ctx, some file⟩ (some plain) asked tried

theorem managed_direct {ctx : Option FdCtx} (h : ∀ c, ctx = some c → c.m_isSocket = false) : managed ctx = none := by
  cases ctx with
  | none => rfl
  | some c => exact managed_other (h c rfl)

theorem plain_socket (type : Flags) : (O_RDWR ||| (type &&& SOCK_NONBLOCK)).getLsbD 11 = isSet type SOCK_NONBLOCK ∧
    (O_RDWR ||| (type &&& SOCK_NONBLOCK)).getLsbD 31 = false := by
  have h11 : SOCK_NONBLOCK.getLsbD 11 = true := by decide
  have h31 : SOCK_NONBLOCK.getLsbD 31 = false := by decide
  have hr11 : O_RDWR.getLsbD 11 = false := by decide
  have hr31 : O_RDWR.getLsbD 31 = false := by decide
  have hsock : isSet type SOCK_NONBLOCK = type.getLsbD 11 := isSet_nonblock type
  rw [hsock, BitVec.getLsbD_or, BitVec.getLsbD_or, BitVec.getLsbD_and, BitVec.getLsbD_and, h11, h31, hr11, hr31]
  simp

theorem Rel.opened {d : Fd} {plain : Option File} {asked tried : Bool} (hr : Rel d plain asked tried)
    (hfile : d.file = none) (fd : Nat) (type : Flags) (ans : InitAns) :
    Rel (Fd.getCreate ⟨d.ctx, some ⟨O_RDWR ||| (type &&& SOCK_NONBLOCK), true⟩⟩ fd ans)
      (some ⟨O_RDWR ||| (type &&& SOCK_NONBLOCK), true⟩) (isSet type SOCK_NONBLOCK) false := by
  cases hr with
  | direct => cases hfile
  | shadowed => cases hfile
  | closed =>
    obtain ⟨h11, h31⟩ := plain_socket type
    obtain ⟨file', hfile', hsame, hother⟩ := new_file fd ⟨O_RDWR ||| (type &&& SOCK_NONBLOCK), true⟩ ans
    show Rel ⟨some (FdCtx.new fd _ ans).1, (FdCtx.new fd _ ans).2⟩ _ _ _
    rw [hfile']
    cases hstat : ans.fstat with
    | false =>
      rw [hsame hstat]
      refine .direct (fun c hc => ?_) h11 h31
      cases hc
      simp [FdCtx.new, hstat]
    | true => exact .shadowed rfl (by simp [FdCtx.new, hstat]) hother h11 h31 rfl

theorem Rel.setfl {d : Fd} {plain : Option File} {asked tried : Bool} (hr : Rel d plain asked tried) (i : Nat)
    (arg : Flags) (ok : Bool) : Rel (d.exec (.setfl i arg ok)) (plainExec plain (.setfl i arg ok))
      (asks asked plain (.setfl i arg ok)) (isSet arg O_NONBLOCK) := by
  have h31 : ∀ flags : Flags, ((flags &&& ~~~settable) ||| (arg &&& settable)).getLsbD 31 = flags.getLsbD 31 := by
    intro flags
    rw [setfl_bit]
    exact if_neg (by decide)
  cases hr with
  | closed => exact .closed
  | @direct ctx file _ _ hother hasked hmsb =>
    unfold Fd.exec
    rw [managed_direct hother]
    cases ok with
    | false => exact .direct hother hasked hmsb
    | true =>
      refine .direct hother ?_ ((h31 _).trans hmsb)
      rw [setfl_nonblock, ← isSet_nonblock]
      rfl
  | @shadowed ctx file plain _ _ hclosed hsock hflags hasked hmsb htried =>
    unfold Fd.exec
    rw [managed_socket hclosed hsock]
    cases ok with
    | false => exact .shadowed hclosed hsock hflags hasked hmsb rfl
    | true =>
      refine .shadowed hclosed hsock ?_ ?_ ((h31 _).trans hmsb) rfl
      · intro j hj
        rw [setfl_bit, setfl_bit, hflags j hj]
        cases ctx.m_sysNonBlock with
        | true => rw [if_pos rfl, or_other arg hj]
        | false => rw [if_neg Bool.false_ne_true, and_not_other arg hj]
      · rw [setfl_nonblock, ← isSet_nonblock]
        rfl

theorem Rel.fionbio {d : Fd} {plain : Option File} {asked tried : Bool} (hr : Rel d plain asked tried) (i : Nat)
    (value : BitVec 32) (ok : Bool) : Rel (d.exec (.fionbio i value ok)) (plainExec plain (.fionbio i value ok))
      (asks asked plain (.fionbio i value ok)) (value != 0) := by
  cases hr with
  | closed => exact .closed
  | direct hother hasked hmsb =>
    unfold Fd.exec
    rw [managed_direct hother]
    cases ok with
    | false => exact .direct hother hasked hmsb
    | true => exact .direct hother (fionbio_bit _ value 11) ((fionbio_bit _ value 31).trans hmsb)
  | shadowed hclosed hsock hflags hasked hmsb htried =>
    unfold Fd.exec
    rw [managed_socket hclosed hsock]
    cases ok with
    | false => exact .shadowed hclosed hsock hflags hasked hmsb rfl
    | true =>
      refine .shadowed hclosed hsock ?_ (fionbio_bit _ value 11) ((fionbio_bit _ value 31).trans hmsb) rfl
      intro j hj
      rw [fionbio_bit, fionbio_bit, if_neg hj, if_neg hj]
      exact hflags j hj

theorem Rel.exec {d : Fd} {plain : Option File} {asked tried : Bool} (hr : Rel d plain asked tried) {c : Call}
    (hc : c.Modal) (hlegal : ∀ fd, c.opens = some fd → d.file = none) :
    Rel (d.exec c) (plainExec plain c) (asks asked plain c) (tries tried c) := by
  rcases hc.kind with ⟨type, answer, ans, rfl⟩ | ⟨i, arg, ok, rfl⟩ | ⟨i, ok, rfl⟩ | ⟨i, value, ok, rfl⟩
  · cases answer with
    | none => exact hr
    | some fd => exact hr.opened (hlegal fd rfl) fd type ans
  · exact hr.setfl i arg ok
  · exact hr
  · exact hr.fionbio i value ok

/-! ## One F_GETFL -/

theorem ne_of_msb {flags : Flags} (h : flags.getLsbD 31 = false) : flags ≠ -1 := by
  intro he
  rw [he] at h
  revert h
  decide

/-- With a mode `b` put in, the flags are those of the user exactly when `b` is the mode
    last asked for. -/
theorem masked_eq_iff {flags plain : Flags} (h : ∀ i, i ≠ 11 → flags.getLsbD i = plain.getLsbD i) (b : Bool) :
    (if b then flags ||| O_NONBLOCK else flags &&& ~~~O_NONBLOCK) = plain ↔ b = plain.getLsbD 11 := by
  have hbit : (if b then flags ||| O_NONBLOCK else flags &&& ~~~O_NONBLOCK).getLsbD 11 = b := by
    cases b with
    | true => exact or_nonblock flags
    | false => exact and_not_nonblock flags
  constructor
  · intro he
    rw [← he]
    exact hbit.symm
  · intro he
    apply BitVec.eq_of_getLsbD_eq
    intro i _
    by_cases e : i = 11
    · rw [e, hbit, he]
    · rw [← h i e]
      cases b with
      | true => exact or_other flags e
      | false => exact and_not_other flags e

theorem Rel.getfl {d : Fd} {plain : Option File} {asked tried : Bool} (hr : Rel d plain asked tried) (ok : Bool) :
    SeenPlain plain ok asked (d.getfl ok) ↔
    (∀ ctx, d.ctx = some ctx → ctx.m_isSocket = true → if ok then tried = asked else tried = true) := by
  cases hr with
  | closed => exact ⟨fun _ _ h => (nomatch h), fun _ => rfl⟩
  | @direct ctx file _ _ hother hasked hmsb =>
    have hget : Fd.getfl ⟨ctx, some file⟩ ok = fcntl_f.getfl (some file) ok := by
      unfold Fd.getfl
      rw [managed_direct hother]
    have hvac : ∀ c, ctx = some c → c.m_isSocket = true → if ok then tried = asked else tried = true := by
      intro c hc hs
      rw [hother c hc] at hs
      cases hs
    rw [hget]
    refine ⟨fun _ => hvac, fun _ => ?_⟩
    cases ok with
    | false => rfl
    | true => exact ⟨rfl, by rw [isSet_nonblock]; exact hasked, ne_of_msb hmsb⟩
  | @shadowed ctx file plain _ _ hclosed hsock hflags hasked hmsb htried =>
    have hget : Fd.getfl ⟨some ctx, some file⟩ ok = if tried then fcntl_f.getfl (some file) ok ||| O_NONBLOCK
        else fcntl_f.getfl (some file) ok &&& ~~~O_NONBLOCK := by
      unfold Fd.getfl
      rw [managed_socket hclosed hsock, ← htried]
    have hctx : (∀ c, some ctx = some c → c.m_isSocket = true → if ok then tried = asked else tried = true) ↔
        if ok then tried = asked else tried = true :=
      ⟨fun h => h ctx rfl hsock, fun h _ _ _ => h⟩
    rw [hget, hctx]
    cases ok with
    | false =>
      show (if tried then (-1 : Flags) ||| O_NONBLOCK else (-1 : Flags) &&& ~~~O_NONBLOCK) = -1 ↔ tried = true
      cases tried with
      | true => decide
      | false => decide
    | true =>
      show ((if tried then file.flags ||| O_NONBLOCK else file.flags &&& ~~~O_NONBLOCK) = plain.flags ∧ _ ∧ _) ↔ _
      have hiff := masked_eq_iff hflags tried
      rw [hasked] at hiff
      constructor
      · exact fun h => hiff.mp h.1
      · intro h
        have he := hiff.mpr h
        refine ⟨he, ?_, ?_⟩
        · show isSet (if tried then file.flags ||| O_NONBLOCK else file.flags &&& ~~~O_NONBLOCK) O_NONBLOCK = asked
          rw [he, isSet_nonblock, hasked]
        · show (if tried then file.flags ||| O_NONBLOCK else file.flags &&& ~~~O_NONBLOCK) ≠ -1
          rw [he]
          exact ne_of_msb hmsb

/-! ## Runs -/

structure Inv (s : Modes) : Prop where
  small : Small s.w.m_datas
  rel : ∀ i, Rel (s.w.fd i) (s.plain i) (s.asked i) (s.tried i)

variable {s s' : Modes} {a : Call × Flags}

theorem init_inv (h : Init s) : Inv s := by
  refine ⟨h.w ▸ fresh_small, fun i => ?_⟩
  unfold World.fd
  rw [World.Init.get_eq h.w, h.plain]
  have hasked := h.asked i
  rw [h.plain] at hasked
  cases hf : s.w.files i with
  | none => exact .closed
  | some file =>
    obtain ⟨h11, h31⟩ := hasked file hf
    exact .direct nofun (by rw [← isSet_nonblock]; exact h11) h31

theorem step_inv (hi : Inv s) (hc : a.1.Modal) (hs : Step s a s') : Inv s' := by
  obtain ⟨hon, hw⟩ | ⟨i, hon, hsmall, hfd⟩ := World.step_cases hi.small hc.small hs.step
  · refine ⟨hw ▸ hi.small, fun i => ?_⟩
    rw [hw, hs.plain, hs.asked, hs.tried, hon]
    exact hi.rel i
  · refine ⟨hsmall, fun j => ?_⟩
    rw [hfd, hs.plain, hs.asked, hs.tried, hon]
    by_cases e : i = j
    · subst e
      rw [Function.update_self, if_pos rfl, if_pos rfl, if_pos rfl]
      exact (hi.rel i).exec hc (World.step_unused hs.step hon)
    · have hne : ¬some i = some j := fun h => e (Option.some_inj.mp h)
      rw [Function.update_of_ne (Ne.symm e), if_neg hne, if_neg hne, if_neg hne]
      exact hi.rel j

theorem conforms_iff (hi : Inv s) (hs : Step s a s') : Conforms s a ↔ Agrees s a.1 := by
  have hget : ∀ fd ok, a.1 = .getfl fd ok → a.2 = (s.w.fd fd).getfl ok := by
    intro fd ok hc
    have hexec := hs.step.2
    rw [hc] at hexec
    exact (congrArg Prod.snd hexec).symm
  constructor
  · intro hconf fd ok ctx hc
    have h := hconf fd ok hc
    rw [hget fd ok hc] at h
    exact ((hi.rel fd).getfl ok).mp h ctx
  · intro hag fd ok hc
    rw [hget fd ok hc]
    exact ((hi.rel fd).getfl ok).mpr fun ctx => hag fd ok ctx hc

/-- In every run of hooked socket, F_SETFL, FIONBIO and F_GETFL: every F_GETFL answers what
    a program without hooks would see exactly when each finds the mode last tried to be
    the one last asked for with success, and to be non-blocking if it fails. -/
theorem getfl_conforms_iff {tr : List ((Call × Flags) × Modes)} (hi : Init s)
    (hr : Lts.Run (Lts.guarded Step fun _ a => a.1.Modal) s tr) :
    Lts.Every (fun s a _ => Conforms s a) s tr ↔ Lts.Every (fun s a _ => Agrees s a.1) s tr :=
  hr.every_iff (J := Inv) (P := fun s a _ => Conforms s a) (G := fun s a => Agrees s a.1)
    (fun _ _ _ hi _ hs => step_inv hi hs.1 hs.2) (fun _ _ _ hi hs => conforms_iff hi hs.2) (init_inv hi)

/-- The state after a call. -/
def next (s : Modes) (c : Call) : Modes where
  w := (s.w.exec c).1
  plain i := if c.on = some i then plainExec (s.plain i) c else s.plain i
  asked i := if c.on = some i then asks (s.asked i) (s.plain i) c else s.asked i
  tried i := if c.on = some i then tries (s.tried i) c else s.tried i

theorem next_step {c : Call} (h : s.w.Legal c) : Step s (c, (s.w.exec c).2) (s.next c) :=
  ⟨⟨h, rfl⟩, fun _ => rfl, fun _ => rfl, fun _ => rfl⟩

/-- Nothing is open. -/
def start : Modes := ⟨idle, fun _ => none, fun _ => false, fun _ => false⟩

theorem start_init : Init start := ⟨rfl, rfl, fun _ _ h => (nomatch h)⟩

/-- A socket of this type is opened, and its flags are read. -/
theorem start_run (type : Flags) : Lts.Run (Lts.guarded Step fun _ a => a.1.Modal) start
    [((openSocket type, (idle.exec (openSocket type)).2), start.next (openSocket type)),
      ((.getfl 3 true, ((withSocket type).exec (.getfl 3 true)).2),
        (start.next (openSocket type)).next (.getfl 3 true))] :=
  .cons ⟨⟨.inl ⟨type, some 3, _, rfl⟩, (openSocket_enabled type).small⟩, next_step (openSocket_step type).1⟩
    (.cons ⟨⟨.inr (.inr (.inl ⟨3, true, rfl⟩)), fun _ h => (nomatch h)⟩, next_step fun _ h => (nomatch h)⟩ (.nil _))

theorem getfl_conforms_blocking : Lts.Every (fun s a _ => Conforms s a) start
    [((openSocket 1, (idle.exec (openSocket 1)).2), start.next (openSocket 1)),
      ((.getfl 3 true, ((withSocket 1).exec (.getfl 3 true)).2),
        (start.next (openSocket 1)).next (.getfl 3 true))] := by
  refine (getfl_conforms_iff start_init (start_run 1)).mpr ⟨fun _ _ _ h => (nomatch h), ?_, trivial⟩
  intro fd ok ctx h _ _
  cases h
  decide

/-- After socket(SOCK_STREAM | SOCK_NONBLOCK), F_GETFL says that the socket blocks. -/
theorem sock_nonblock_forgotten : ∃ s tr, Init s ∧ Lts.Run (Lts.guarded Step fun _ a => a.1.Modal) s tr ∧
    ¬Lts.Every (fun s a _ => Conforms s a) s tr := by
  refine ⟨start, _, start_init, start_run 0x801, ?_⟩
  intro h
  obtain ⟨-, hconf, -⟩ := h
  have hasked := (hconf 3 true rfl).2.1
  revert hasked
  decide

end Modes

end FdManager

end Sylar
