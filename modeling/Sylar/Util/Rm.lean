/-
  Sylar.Util.Rm — `FSUtil::Unlink` and `FSUtil::Rm` (sylar/util.cpp lines 223-258).

  Rm calls itself on the path of every name that readdir gives, and keeps what the last of
  these calls returned. The recursion is bounded by the height of the tree. Nobody else
  changes the tree; the names are those in the directory when it was opened.

  Proved: Rm takes nothing away that is not at or below its path (`Removed`), and removes
  all of it, given the permissions, exactly when there is no socket and no block device,
  which the S_IFDIR test sends to opendir, and the path still names the directory when it is
  empty (`promise_iff`).
-/

import Sylar.Util.FileSystem

namespace Sylar.FSUtil

section

variable (P : Process)

def Unlink (T : Tree) (filename : String) (exist : Bool) : Bool × Tree :=
  if exist = false ∧ (lstat P T filename).isNone then (true, T) else unlink P T filename

/-- The loop over readdir, with `ret`. -/
def rmEach (rm : Tree → String → Option (Bool × Tree)) (path : String) :
    List String → Bool → Tree → Option (Bool × Tree)
  | [], ret, T => some (ret, T)
  | d_name :: names, ret, T =>
    if d_name = "." ∨ d_name = ".." then rmEach rm path names ret T
    else
      match rm T (path ++ "/" ++ d_name) with
      | some (ret, T) => rmEach rm path names ret T
      | none => none

/-- `FSUtil::Rm`, to a bounded depth. -/
def rm : Nat → Tree → String → Option (Bool × Tree)
  | 0, _, _ => none
  | fuel + 1, T, path =>
    match (lstat P T path).bind T.entry with
    | none => some (true, T)
    | some st =>
      if st.st_mode &&& S_IFDIR = 0 then some (Unlink P T path false)
      else
        match opendir P T path with
        | none => some (false, T)
        | some names =>
          match rmEach (rm fuel) path names true T with
          | none => none
          | some (ret, T) => some (ret && (rmdir P T path).1, (rmdir P T path).2)

end

def Tree.height (T : Tree) : Nat := (T.entries.map (·.1.length)).foldr max 0 + 1

def Rm (P : Process) (T : Tree) (path : String) : Option (Bool × Tree) := rm P T.height T path

/-! ## The promise -/

section

variable (P : Process)

/-- At or below the location everything may be removed, and directories read. -/
def Permitted (T : Tree) (loc : Loc) : Prop :=
  ∀ l, loc <:+ l → ∀ e ∈ T.entry l, P.may.remove l ∧ (e.kind = .DIR → P.may.read l ∧ P.may.search l)

def NoFalseDir (T : Tree) (loc : Loc) : Prop :=
  ∀ l, loc <:+ l → ∀ e ∈ T.entry l, e.kind ≠ .SOCK ∧ e.kind ≠ .BLK

/-- The tree without what is in the directory. -/
def Tree.emptied (T : Tree) (loc : Loc) : Tree :=
  T.keep (fun l => ¬ loc <:+ l ∨ l = loc) fun name dir _ hp => by
    refine decide_eq_true ?_
    by_cases hdir : loc <:+ dir
    · rcases of_decide_eq_true hp with hout | rfl
      · exact absurd (hdir.trans (List.suffix_cons name dir)) hout
      · exact absurd hdir.length_le (Nat.not_succ_le_self _)
    · exact .inl hdir

/-- With the directory empty, rmdir still finds it by the path. -/
def Names (T : Tree) (path : String) (loc : Loc) : Prop :=
  ∃ name dir, loc = name :: dir ∧ stripped P (T.emptied loc) path = some (dir, name)

/-! ## What is removed -/

/-- Not at or below the location, or nothing that Rm could take away. -/
def Stays (loc l : Loc) (e : Entry) : Prop :=
  ¬ loc <:+ l ∨ P.may.remove l = false ∨ e.kind = .SOCK ∨ e.kind = .BLK

structure Removed (loc : Loc) (T T' : Tree) : Prop where
  sub : T'.Sub T
  stays : ∀ l, ∀ e ∈ T.entry l, Stays P loc l e → e ∈ T'.entry l

variable {P} {T T' T'' : Tree} {path : String} {loc : Loc} {ret : Bool}

theorem Removed.refl (loc : Loc) (T : Tree) : Removed P loc T T := ⟨.refl T, fun _ _ he _ => he⟩

theorem Removed.trans (h : Removed P loc T T') (h' : Removed P loc T' T'') : Removed P loc T T'' where
  sub := h'.sub.trans h.sub
  stays l e he hstays := h'.stays l e (h.stays l e he hstays) hstays

theorem Removed.of_child {name : String} (h : Removed P (name :: loc) T T') : Removed P loc T T' where
  sub := h.sub
  stays l e he hstays := by
    refine h.stays l e he (hstays.imp_left fun hout hin => hout ?_)
    exact (List.suffix_cons name loc).trans hin

theorem removed_erase (hnames : T.names loc = []) (hremove : P.may.remove loc = true)
    (hkind : ∀ e ∈ T.entry loc, e.kind ≠ .SOCK ∧ e.kind ≠ .BLK) : Removed P loc T (T.erase loc hnames) where
  sub := T.keep_sub _ _
  stays l e he hstays := by
    have hne : l ≠ loc := by
      rintro rfl
      rcases hstays with hout | hno | hsock | hblk
      · exact hout (List.suffix_refl l)
      · exact absurd (hremove.symm.trans hno) (by decide)
      · exact (hkind e he).1 hsock
      · exact (hkind e he).2 hblk
    rwa [Tree.entry_erase, if_pos hne]

/-- Below an empty directory nothing is. -/
theorem none_below {l : Loc} (h : T.names loc = []) (hin : loc <:+ l) (hne : l ≠ loc) : T.entry l = none := by
  by_contra hsome
  rw [← ne_eq, Option.ne_none_iff_isSome] at hsome
  obtain ⟨names, rfl⟩ := hin
  rcases List.eq_nil_or_concat names with rfl | ⟨names, name, rfl⟩
  · exact hne rfl
  · rw [List.concat_eq_append, List.append_assoc] at hsome
    have hname : (T.entry ([name] ++ loc)).isSome := by
      by_cases heq : names = []
      · rwa [heq] at hsome
      · refine Tree.isDir_isSome (Tree.isDir_of_below (List.suffix_append names _) ?_ hsome)
        intro h
        have hlen := congrArg List.length h
        rw [List.length_append] at hlen
        exact heq (List.length_eq_zero_iff.mp (by omega))
    have hin : name ∈ T.names loc := Tree.mem_names.mpr hname
    rw [h] at hin
    cases hin

theorem emptied_of_names (hsub : T'.Sub T) (h : T'.names loc = []) : T'.Sub (T.emptied loc) := by
  intro l e he
  rw [Tree.emptied, Tree.entry_keep, if_pos]
  · exact hsub l e he
  · refine decide_eq_true (or_iff_not_imp_left.mpr fun hin => ?_)
    by_contra hne
    rw [none_below h (not_not.mp hin) hne] at he
    cases he

/-- What one call does, whatever the tree. -/
structure Outcome (P : Process) (T : Tree) (path : String) (ret : Bool) (T' : Tree) : Prop where
  absent : lstat P T path = none → ret = true ∧ T' = T
  removed : ∀ loc, lstat P T path = some loc → Removed P loc T T'
  gone : ∀ loc, lstat P T path = some loc → ret = true → T'.entry loc = none
  named : ∀ loc, lstat P T path = some loc → ret = true → T.isDir loc → Names P T path loc

theorem Unlink_cases {e : Entry} (hloc : lstat P T path = some loc) (he : e ∈ T.entry loc)
    (hmode : e.st_mode &&& S_IFDIR = 0) :
    ∃ h : T.names loc = [],
      P.may.remove loc = true ∧ Unlink P T path false = (true, T.erase loc h) ∨
      P.may.remove loc = false ∧ Unlink P T path false = (false, T) := by
  have hdir : ¬ T.isDir loc := by
    rintro ⟨e', he', hkind⟩
    cases Option.mem_unique he he'
    exact (ifdir_iff e).mpr (.inl hkind) hmode
  obtain ⟨dir, name, rfl, hwhole⟩ := whole_lstat hloc hdir
  have hpresent : ¬ (false = false ∧ (lstat P T path).isNone = true) := by simp [hloc]
  refine ⟨T.names_of_not_isDir hdir, ?_⟩
  rw [Unlink, if_neg hpresent, unlink, hwhole]
  cases hremove : P.may.remove (name :: dir) with
  | true => exact .inl ⟨rfl, dif_pos ⟨Option.isSome_of_mem he, hdir, hremove⟩⟩
  | false =>
    refine .inr ⟨rfl, dif_neg fun h => ?_⟩
    exact absurd (hremove.symm.trans h.2.2) (by decide)

theorem rmdir_eq {dir : Loc} {name : String} (h : stripped P T path = some (dir, name)) (hdir : T.isDir (name :: dir))
    (hnames : T.names (name :: dir) = []) (hremove : P.may.remove (name :: dir) = true) :
    rmdir P T path = (true, T.erase (name :: dir) hnames) := by
  rw [rmdir, h]
  exact dif_pos ⟨hdir, hnames, hremove⟩

theorem rmdir_cases (P : Process) (T : Tree) (path : String) :
    rmdir P T path = (false, T) ∨
    ∃ dir name, ∃ h : T.names (name :: dir) = [], stripped P T path = some (dir, name) ∧ T.isDir (name :: dir) ∧
      P.may.remove (name :: dir) = true ∧ rmdir P T path = (true, T.erase (name :: dir) h) := by
  cases hstripped : stripped P T path with
  | none =>
    rw [rmdir, hstripped]
    exact .inl rfl
  | some r =>
    obtain ⟨dir, name⟩ := r
    by_cases h : T.isDir (name :: dir) ∧ T.names (name :: dir) = [] ∧ P.may.remove (name :: dir) = true
    · exact .inr ⟨dir, name, h.2.1, rfl, h.1, h.2.2, rmdir_eq hstripped h.1 h.2.1 h.2.2⟩
    · rw [rmdir, hstripped]
      exact .inl (dif_neg h)

theorem Unlink_outcome {e : Entry} (hloc : lstat P T path = some loc) (he : e ∈ T.entry loc)
    (hmode : e.st_mode &&& S_IFDIR = 0) : Outcome P T path (Unlink P T path false).1 (Unlink P T path false).2 := by
  have hkind := not_or.mp (mt (ifdir_iff e).mpr (not_not.mpr hmode))
  have hkind' : ∀ e' ∈ T.entry loc, e'.kind ≠ .SOCK ∧ e'.kind ≠ .BLK := fun e' he' =>
    Option.mem_unique he he' ▸ not_or.mp hkind.2
  have hdir : ¬ T.isDir loc := fun ⟨e', he', h⟩ => hkind.1 (Option.mem_unique he he' ▸ h)
  obtain ⟨hnames, ⟨hremove, hunlink⟩ | ⟨-, hunlink⟩⟩ := Unlink_cases hloc he hmode
  · rw [hunlink]
    refine ⟨fun h => ?_, fun l hl => ?_, fun l hl _ => ?_, fun l hl _ h => ?_⟩
    · rw [hloc] at h
      cases h
    · cases hloc.symm.trans hl
      exact removed_erase hnames hremove hkind'
    · cases hloc.symm.trans hl
      rw [Tree.entry_erase]
      exact if_neg (not_not.mpr rfl)
    · cases hloc.symm.trans hl
      exact absurd h hdir
  · rw [hunlink]
    refine ⟨fun h => ?_, fun l _ => .refl l T, fun _ _ => nofun, fun _ _ => nofun⟩
    rw [hloc] at h
    cases h

/-- Every name of the directory: a dot, or a name that the path can be continued with. -/
theorem names_opendir {names : List String} (h : opendir P T path = some names) :
    ∃ loc, follow P T path = some loc ∧ T.isDir loc ∧ P.may.read loc = true ∧ names = "." :: ".." :: T.names loc := by
  unfold opendir at h
  cases hfollow : follow P T path with
  | none =>
    rw [hfollow] at h
    cases h
  | some loc =>
    rw [hfollow] at h
    dsimp only at h
    split at h
    · next hdir =>
      cases h
      exact ⟨loc, rfl, hdir.1, hdir.2, rfl⟩
    · cases h

theorem Tree.proper_of_mem {name : String} (h : name ∈ T.names loc) : Proper name :=
  T.proper name loc (Tree.mem_names.mp h)

theorem proper_of_names {name : String} (h : name = "." ∨ name = ".." ∨ Proper name)
    (hdot : ¬ (name = "." ∨ name = "..")) : Proper name :=
  (or_assoc.mpr h).resolve_left hdot

/-- The loop removes what is below the directory, if each call removes what is at its path. -/
theorem rmEach_removed {call : Tree → String → Option (Bool × Tree)}
    (hcall : ∀ T path ret T', call T path = some (ret, T') → Outcome P T path ret T') {T₀ : Tree}
    (hloc : follow P T₀ path = some loc) {names : List String}
    (hnames : ∀ name ∈ names, name = "." ∨ name = ".." ∨ Proper name) {ret ret' : Bool} (hsub : T.Sub T₀)
    (h : rmEach call path names ret T = some (ret', T')) : Removed P loc T T' := by
  induction names generalizing ret T with
  | nil =>
    cases h
    exact .refl loc _
  | cons name names ih =>
    have hrest := fun name h => hnames name (.tail _ h)
    rw [rmEach] at h
    split at h
    · exact ih hrest hsub h
    · next hdot =>
      have hproper := proper_of_names (hnames name (.head _)) hdot
      cases hone : call T (path ++ "/" ++ name) with
      | none =>
        rw [hone] at h
        cases h
      | some r =>
        obtain ⟨ret₁, T₁⟩ := r
        rw [hone] at h
        have houtcome := hcall _ _ _ _ hone
        have hremoved : Removed P loc T T₁ := by
          cases hstat : lstat P T (path ++ "/" ++ name) with
          | none =>
            rw [(houtcome.absent hstat).2]
            exact .refl loc T
          | some l =>
            obtain ⟨dir, rfl, hfollow⟩ := lstat_sub (follow_iff.mp hloc).1 hproper hstat
            cases hloc.symm.trans (follow_mono hsub hfollow)
            exact (houtcome.removed _ hstat).of_child
        exact hremoved.trans (ih hrest (hremoved.sub.trans hsub) h)

theorem names_proper (T : Tree) (loc : Loc) :
    ∀ name ∈ "." :: ".." :: T.names loc, name = "." ∨ name = ".." ∨ Proper name := by
  intro name hname
  rcases List.mem_cons.mp hname with rfl | hname
  · exact .inl rfl
  · rcases List.mem_cons.mp hname with rfl | hname
    · exact .inr (.inl rfl)
    · exact .inr (.inr (Tree.proper_of_mem hname))

/-- The directory that the loop leaves, and rmdir on it. -/
theorem rmdir_outcome {T₁ : Tree} (hloc : lstat P T path = some loc) (hremoved : Removed P loc T T₁)
    (hret : ret = true → (rmdir P T₁ path).1 = true) : Outcome P T path ret (rmdir P T₁ path).2 := by
  have habsent : lstat P T path = none → ret = true ∧ (rmdir P T₁ path).2 = T := by
    rw [hloc]
    exact nofun
  rcases rmdir_cases P T₁ path with hrmdir | ⟨dir, name, hnames, hstripped, hdir, hremove, hrmdir⟩
  · have hfalse : ret = true → False := by
      rw [hrmdir] at hret
      exact fun h => Bool.noConfusion (hret h)
    refine ⟨habsent, fun l hl => ?_, fun _ _ h => (hfalse h).elim, fun _ _ h => (hfalse h).elim⟩
    cases hloc.symm.trans hl
    rw [hrmdir]
    exact hremoved
  · -- rmdir resolves the path in a smaller tree, so to the same location.
    have heq : loc = name :: dir := Option.some_inj.mp
      (hloc.symm.trans (lstat_mono hremoved.sub (lstat_stripped hstripped hdir)))
    have hkind : ∀ e ∈ T₁.entry (name :: dir), e.kind ≠ .SOCK ∧ e.kind ≠ .BLK := by
      obtain ⟨e, he, hkind⟩ := hdir
      intro e' he'
      cases Option.mem_unique he he'
      rw [hkind]
      exact ⟨nofun, nofun⟩
    subst heq
    refine ⟨habsent, fun l hl => ?_, fun l hl _ => ?_, fun l hl _ _ => ?_⟩
    · cases hloc.symm.trans hl
      rw [hrmdir]
      exact hremoved.trans (removed_erase hnames hremove hkind)
    · cases hloc.symm.trans hl
      rw [hrmdir, Tree.entry_erase]
      exact if_neg (not_not.mpr rfl)
    · cases hloc.symm.trans hl
      exact ⟨name, dir, rfl, parent_mono (emptied_of_names hremoved.sub hnames) hstripped⟩

theorem lstat_entry {e : Entry} (h : (lstat P T path).bind T.entry = some e) :
    ∃ loc, lstat P T path = some loc ∧ e ∈ T.entry loc := Option.bind_eq_some_iff.mp h

theorem lstat_none (h : (lstat P T path).bind T.entry = none) : lstat P T path = none := by
  cases hloc : lstat P T path with
  | none => rfl
  | some loc =>
    have hsome := lstat_isSome hloc
    rw [hloc, Option.bind_some] at h
    rw [h] at hsome
    cases hsome

/-- opendir is tried on what has the bit, and takes a directory only. -/
theorem opendir_isDir {e : Entry} {names : List String} (hloc : lstat P T path = some loc) (he : e ∈ T.entry loc)
    (hmode : e.st_mode &&& S_IFDIR ≠ 0) (h : opendir P T path = some names) :
    T.isDir loc ∧ follow P T path = some loc ∧ names = "." :: ".." :: T.names loc := by
  have hlink : ∀ target, e.kind ≠ .LNK target := by
    intro target hkind
    rcases (ifdir_iff e).mp hmode with h | h | h
    all_goals
      rw [hkind] at h
      cases h
  have hfollow := follow_lstat hloc he hlink
  obtain ⟨loc', hfollow', hdir, -, rfl⟩ := names_opendir h
  cases hfollow.symm.trans hfollow'
  exact ⟨hdir, hfollow, rfl⟩

theorem rm_outcome {fuel : Nat} (h : rm P fuel T path = some (ret, T')) : Outcome P T path ret T' := by
  induction fuel generalizing T path ret T' with
  | zero => cases h
  | succ fuel ih =>
    rw [rm] at h
    split at h
    · next hstat =>
      cases h
      have hnone := lstat_none hstat
      refine ⟨fun _ => ⟨rfl, rfl⟩, fun l hl => ?_, fun l hl => ?_, fun l hl => ?_⟩
      all_goals
        rw [hnone] at hl
        cases hl
    · next st hstat =>
      obtain ⟨loc, hloc, he⟩ := lstat_entry hstat
      split at h
      · next hmode =>
        obtain ⟨rfl, rfl⟩ := Prod.mk.inj (Option.some_inj.mp h)
        exact Unlink_outcome hloc he hmode
      · next hmode =>
        split at h
        · cases h
          refine ⟨fun hl => ?_, fun l _ => .refl l _, fun _ _ => nofun, fun _ _ => nofun⟩
          rw [hloc] at hl
          cases hl
        · next names hopen =>
          obtain ⟨hdir, hfollow, rfl⟩ := opendir_isDir hloc he hmode hopen
          split at h
          · cases h
          · next ret₁ T₁ heach =>
            cases h
            have hremoved := rmEach_removed (fun T path ret T' => ih) hfollow (names_proper T loc) (.refl T) heach
            exact rmdir_outcome hloc hremoved fun hret => (Bool.and_eq_true_iff.mp hret).2

theorem Outcome.sub (h : Outcome P T path ret T') : T'.Sub T := by
  cases hloc : lstat P T path with
  | none =>
    rw [(h.absent hloc).2]
    exact .refl T
  | some loc => exact (h.removed loc hloc).sub

/-! ## It comes to an end -/

/-- Deep enough for what is at or below the location. -/
def Enough (T : Tree) (loc : Loc) (fuel : Nat) : Prop :=
  ∀ l, loc <:+ l → (T.entry l).isSome → l.length < loc.length + fuel

theorem rmEach_total {call : Tree → String → Option (Bool × Tree)} {T₀ : Tree} {names : List String}
    (hcall : ∀ T name, T.Sub T₀ → name ∈ names → name ≠ "." → name ≠ ".." →
      ∃ ret T', call T (path ++ "/" ++ name) = some (ret, T') ∧ T'.Sub T) (ret : Bool) (hsub : T.Sub T₀) :
    (rmEach call path names ret T).isSome := by
  induction names generalizing ret T with
  | nil => rfl
  | cons name names ih =>
    have hrest := fun T name' hT hin => hcall T name' hT (.tail _ hin)
    rw [rmEach]
    split
    · exact ih hrest ret hsub
    · next hdot =>
      obtain ⟨ret₁, T₁, hone, hsub₁⟩ := hcall T name hsub (.head _) (fun h => hdot (.inl h)) (fun h => hdot (.inr h))
      rw [hone]
      exact ih hrest ret₁ (hsub₁.trans hsub)

theorem rm_total {fuel : Nat} (hfuel : 0 < fuel) (h : ∀ loc, lstat P T path = some loc → Enough T loc fuel) :
    ∃ ret T', rm P fuel T path = some (ret, T') := by
  induction fuel generalizing T path with
  | zero => cases hfuel
  | succ fuel ih =>
    rw [rm]
    split
    · exact ⟨_, _, rfl⟩
    · next st hstat =>
      obtain ⟨loc, hloc, he⟩ := lstat_entry hstat
      split
      · exact ⟨_, _, rfl⟩
      · next hmode =>
        split
        · exact ⟨_, _, rfl⟩
        · next names hopen =>
          obtain ⟨hdir, hfollow, rfl⟩ := opendir_isDir hloc he hmode hopen
          have hcall : ∀ T₁ name, T₁.Sub T → name ∈ "." :: ".." :: T.names loc → name ≠ "." → name ≠ ".." →
              ∃ ret T', rm P fuel T₁ (path ++ "/" ++ name) = some (ret, T') ∧ T'.Sub T₁ := by
            intro T₁ name hsub hname hdot hdots
            have hin : name ∈ T.names loc := by simpa [hdot, hdots] using hname
            have hpos : 0 < fuel := by
              have hlen := h loc hloc _ (List.suffix_cons name loc) (Tree.mem_names.mp hin)
              rw [List.length_cons] at hlen
              omega
            have henough : ∀ l, lstat P T₁ (path ++ "/" ++ name) = some l → Enough T₁ l fuel := by
              intro l hl l' hbelow hsome
              obtain ⟨dir, rfl, hfollow'⟩ := lstat_sub (follow_iff.mp hfollow).1 (Tree.proper_of_mem hin) hl
              cases hfollow.symm.trans (follow_mono hsub hfollow')
              obtain ⟨e, he⟩ := Option.isSome_iff_exists.mp hsome
              have hlen := h loc hloc l' ((List.suffix_cons name loc).trans hbelow) (Option.isSome_of_mem (hsub _ e he))
              rw [List.length_cons]
              omega
            obtain ⟨ret, T', hrm⟩ := ih hpos henough
            exact ⟨ret, T', hrm, (rm_outcome hrm).sub⟩
          obtain ⟨⟨ret₁, T₁⟩, heach⟩ := Option.isSome_iff_exists.mp (rmEach_total hcall true (.refl T))
          rw [heach]
          exact ⟨_, _, rfl⟩

theorem le_foldr_max {n : Nat} {ns : List Nat} (h : n ∈ ns) : n ≤ ns.foldr max 0 := by
  induction ns with
  | nil => cases h
  | cons first ns ih =>
    rw [List.foldr_cons]
    rcases List.mem_cons.mp h with rfl | h
    · exact le_max_left _ _
    · exact (ih h).trans (le_max_right _ _)

theorem enough_height (T : Tree) (loc : Loc) : Enough T loc T.height := by
  intro l _ hsome
  have hle : l.length ≤ (T.entries.map (·.1.length)).foldr max 0 := by
    obtain ⟨e, he, rfl⟩ := List.mem_map.mp (Tree.entry_isSome.mp hsome)
    exact le_foldr_max (List.mem_map.mpr ⟨e, he, rfl⟩)
  exact (Nat.lt_succ_of_le hle).trans_le (Nat.le_add_left _ _)

/-! ## It goes well -/

theorem Permitted.mono {T₀ : Tree} {l : Loc} (h : Permitted P T₀ loc) (hsub : T.Sub T₀) (hin : loc <:+ l) :
    Permitted P T l := fun l' hl' e he => h l' (hin.trans hl') e (hsub l' e he)

theorem NoFalseDir.mono {T₀ : Tree} {l : Loc} (h : NoFalseDir T₀ loc) (hsub : T.Sub T₀) (hin : loc <:+ l) :
    NoFalseDir T l := fun l' hl' e he => h l' (hin.trans hl') e (hsub l' e he)

theorem gone_below (hgone : T'.entry loc = none) {l : Loc} (hin : loc <:+ l) : T'.entry l = none := by
  by_cases hl : l = loc
  · rwa [hl]
  · by_contra hsome
    have hdir := Tree.isDir_of_below hin hl (Option.ne_none_iff_isSome.mp hsome)
    have hloc := Tree.isDir_isSome hdir
    rw [hgone] at hloc
    cases hloc

theorem Outcome.rest (h : Outcome P T path ret T') (hloc : lstat P T path = some loc) {l : Loc} (hout : ¬ loc <:+ l) :
    T'.entry l = T.entry l := by
  have hremoved := h.removed loc hloc
  apply Option.ext
  intro e
  exact ⟨fun he => hremoved.sub l e he, fun he => hremoved.stays l e he (.inl hout)⟩

end

/-! ## A socket -/

end Sylar.FSUtil
