import Kubeka.Model.Exec

/-!
# The user of a command

A node with RUNAS_USER asks for its command to run as that user. The user goes
from the record of the password database through two variables of
`kbexec_shell` to the child, which calls `setuid` before it starts the command,
and to the temporary directory, which is given to the user. The variables are
both set to the group of the record.
-/

namespace Kubeka

/-- The process starts the command. -/
def Started (sys : Syscalls) (command : CStr) (p : Process) : Prop :=
  .popen command ∈ p.acts ∧ sys.popen = true

/-- Each time the command is started the process has become the user `uid`, and no other. -/
def SwitchedTo (uid : ℕ) (command : CStr) (p : Process) : Prop :=
  ∀ front rest, p.acts = front ++ .popen command :: rest →
    .setuid uid ∈ front ∧ ∀ other, .setuid other ∈ front → other = uid

/-- The user of a node is honoured, or nothing runs. -/
structure RunsAs (sys : Syscalls) (wuser command : CStr) (r : ExecRun) : Prop where
  switched : ∀ p, (p = r.parent ∨ r.child = some p) → Started sys command p →
    ∃ pwrec, sys.getpwnam wuser = some pwrec ∧ sys.setuid = true ∧ SwitchedTo pwrec.uid command p
  given : ∀ dir, r.made = some dir → ∃ pwrec, sys.getpwnam wuser = some pwrec ∧
    .chown dir pwrec.uid pwrec.gid ∈ r.parent.acts
  givenOnly : ∀ p, (p = r.parent ∨ r.child = some p) → ∀ path uid gid,
    .chown path uid gid ∈ p.acts → r.made = some path ∧
      ∃ pwrec, sys.getpwnam wuser = some pwrec ∧ uid = pwrec.uid ∧ gid = pwrec.gid
  stopped : (sys.getpwnam wuser = none ∨ (r.made ≠ none ∧ sys.chown = false) ∨
    sys.chdir = false ∨ sys.setuid = false) →
    ∀ p, (p = r.parent ∨ r.child = some p) → ¬ Started sys command p

/-! ### What the processes do -/

/-- What the child does before it starts the command. -/
def childFront (wdir : CStr) (uid : ℕ) : List Act :=
  (if uid ≠ noId then [.setuid uid] else []) ++ [.chdir wdir]

theorem setuid_mem_childFront {wdir : CStr} {uid other : ℕ} :
    .setuid other ∈ childFront wdir uid ↔ other = uid ∧ uid ≠ noId := by
  by_cases huid : uid = noId <;> simp [childFront, huid]

theorem popen_notMem_childFront {wdir command : CStr} {uid : ℕ} :
    .popen command ∉ childFront wdir uid := by
  by_cases huid : uid = noId <;> simp [childFront, huid]

/-- The child of a call: what it does before the command, when it gets there, and nothing that
gives away a directory. -/
structure ChildActs (sys : Syscalls) (wdir : CStr) (uid : ℕ) (command : CStr) (p : Process) :
    Prop where
  starts : (uid ≠ noId → sys.setuid = true) ∧ sys.chdir = true ∧ sys.popen = true →
    ∃ rest, .popen command ∉ rest ∧ p.acts = childFront wdir uid ++ .popen command :: rest
  stops : Started sys command p → (uid ≠ noId → sys.setuid = true) ∧ sys.chdir = true
  noChown : ∀ path owner gid, .chown path owner gid ∉ p.acts

theorem forkExec_child {sys : Syscalls} {wdir : CStr} {uid : ℕ} {command : CStr} {acts : List Act}
    {made : Option CStr} {p : Process}
    (h : (forkExec sys wdir uid command acts made).child = some p) :
    (sys.pipe = true ∧ sys.fork = true) ∧ ChildActs sys wdir uid command p := by
  unfold forkExec at h
  split_ifs at h with hpipe hfork
  refine ⟨⟨hpipe, hfork⟩, ?_⟩
  obtain rfl := Option.some.inj h
  clear h
  unfold spawnChild
  by_cases huid : uid = noId <;> cases hset : sys.setuid <;> cases hchdir : sys.chdir <;>
    cases hpopen : sys.popen <;> constructor <;>
    simp [huid, hset, hchdir, hpopen, childFront, cleanup, Started]

/-- What the processes of a call do about the user of the node. -/
structure UserActs (sys : Syscalls) (st : Symtab) (command : CStr) (r : ExecRun) : Prop where
  parent : .popen command ∉ r.parent.acts
  chown : ∀ path uid gid, .chown path uid gid ∈ r.parent.acts ↔
    r.made = some path ∧ execIds sys (kbnodeGetvalueFirst st kbnodeKeyWuser) = some (uid, gid)
  child : ∀ p, r.child = some p → Forks sys st ∧ ∃ uid gid,
    execIds sys (kbnodeGetvalueFirst st kbnodeKeyWuser) = some (uid, gid) ∧
      ChildActs sys (execDir sys st) uid command p

theorem forkExec_parent (sys : Syscalls) (wdir : CStr) (uid : ℕ) (command : CStr)
    (acts : List Act) (made : Option CStr) :
    (forkExec sys wdir uid command acts made).parent.acts = acts ++ [.system (rmLine wdir)] ∧
      (forkExec sys wdir uid command acts made).made = made := by
  unfold forkExec
  split_ifs <;> exact ⟨rfl, rfl⟩

theorem kbexecShellRun_userActs (sys : Syscalls) {st : Symtab} (hsrc : kbnodeGetSrcdef st ≠ none)
    (command : CStr) : UserActs sys st command (kbexecShellRun sys st command) := by
  obtain ⟨⟨id, fname, line⟩, hdef⟩ := Option.ne_none_iff_exists'.mp hsrc
  have hid := kbnodeGetSrcdef_id hdef
  cases hids : execIds sys (kbnodeGetvalueFirst st kbnodeKeyWuser) with
  | none =>
    simp only [kbexecShellRun, hdef, hids]
    exact ⟨by simp [cleanup], by simp [cleanup], by simp⟩
  | some ids =>
    obtain ⟨uid, gid⟩ := ids
    by_cases hdir : kbnodeGetvalueFirst st kbnodeKeyWdir = []
    · simp only [kbexecShellRun, hdef, hids, hdir, ne_eq, not_true_eq_false, if_false, hid]
      by_cases hmk : sys.mkdtemp = true
      · by_cases hown : sys.chown = true
        · simp only [hmk, hown, not_true_eq_false, if_false]
          obtain ⟨hparent, hmade⟩ := forkExec_parent sys
            (tempDir sys (kbnodeGetvalueFirst st kbnodeKeyId)) uid command
            [.mkdtemp (tempDir sys (kbnodeGetvalueFirst st kbnodeKeyId)) true,
              .chown (tempDir sys (kbnodeGetvalueFirst st kbnodeKeyId)) uid gid]
            (some (tempDir sys (kbnodeGetvalueFirst st kbnodeKeyId)))
          refine ⟨by simp [hparent], fun path u g => ?_, fun p hp => ?_⟩
          · simp only [hparent, hmade]
            simp [hids, eq_comm]
          · obtain ⟨hforks, hacts⟩ := forkExec_child hp
            refine ⟨⟨hsrc, by simp [hids], fun _ => ⟨hmk, hown⟩, hforks⟩, uid, gid, hids, ?_⟩
            rwa [execDir, if_neg (by simp [hids, hdir])]
        · simp only [hmk, hown, not_true_eq_false, if_false]
          refine ⟨by simp [cleanup], fun path u g => ?_, by simp⟩
          simp [cleanup, hids, eq_comm]
      · simp only [hmk]
        exact ⟨by simp [cleanup], by simp [cleanup], by simp⟩
    · simp only [kbexecShellRun, hdef, hids, hdir, ne_eq, not_false_eq_true, if_true]
      obtain ⟨hparent, hmade⟩ := forkExec_parent sys (kbnodeGetvalueFirst st kbnodeKeyWdir) uid
        command [] none
      refine ⟨by simp [hparent], fun path u g => by simp [hparent, hmade], fun p hp => ?_⟩
      obtain ⟨hforks, hacts⟩ := forkExec_child hp
      refine ⟨⟨hsrc, by simp [hids], fun h => absurd h hdir, hforks⟩, uid, gid, hids, ?_⟩
      rwa [execDir, if_pos (.inr hdir)]

/-! ### When the user is honoured -/

theorem SwitchedTo.of_eq {uid : ℕ} {command : CStr} {p : Process} {front rest : List Act}
    (hacts : p.acts = front ++ .popen command :: rest) (hfront : .popen command ∉ front)
    (hrest : .popen command ∉ rest) :
    SwitchedTo uid command p ↔ .setuid uid ∈ front ∧ ∀ other, .setuid other ∈ front → other = uid := by
  constructor
  · intro h
    exact h front rest hacts
  · intro h front' rest' hacts'
    rw [hacts] at hacts'
    obtain ⟨rfl, -⟩ := (List.append_cons_inj_of_notMem hfront hrest).mp hacts'
    exact h

theorem execIds_of_user {sys : Syscalls} {wuser : CStr} (huser : wuser ≠ []) {uid gid : ℕ} :
    execIds sys wuser = some (uid, gid) ↔
      ∃ pwrec, sys.getpwnam wuser = some pwrec ∧ uid = pwrec.gid ∧ gid = pwrec.gid := by
  rw [execIds, if_neg huser]
  constructor
  · intro h
    obtain ⟨pwrec, hrec, hids⟩ := Option.map_eq_some_iff.mp h
    obtain ⟨rfl, rfl⟩ := Prod.mk.inj hids
    exact ⟨pwrec, hrec, rfl, rfl⟩
  · rintro ⟨pwrec, hrec, rfl, rfl⟩
    rw [hrec]
    rfl

/-- When the record of the user is found, user and group are one number whenever a directory is
made or the command is started, and the command is not started with the number that stands for no
user. -/
def SameIds (sys : Syscalls) (st : Symtab) (pwrec : Passwd) : Prop :=
  (kbnodeGetSrcdef st ≠ none → madeDir sys st ≠ none → pwrec.uid = pwrec.gid) ∧
    (Forks sys st → ChildStarts sys st → pwrec.uid = pwrec.gid ∧ pwrec.gid ≠ noId)

section

variable {sys : Syscalls} {st : Symtab} {command : CStr}

theorem RunsAs.sameIds (huser : kbnodeGetvalueFirst st kbnodeKeyWuser ≠ [])
    (h : RunsAs sys (kbnodeGetvalueFirst st kbnodeKeyWuser) command (kbexecShellRun sys st command))
    {pwrec : Passwd} (hrec : sys.getpwnam (kbnodeGetvalueFirst st kbnodeKeyWuser) = some pwrec) :
    SameIds sys st pwrec := by
  constructor
  · intro hsrc hmade
    have hacts := kbexecShellRun_userActs sys hsrc command
    obtain ⟨dir, hdir⟩ := Option.ne_none_iff_exists'.mp hmade
    obtain ⟨pwrec', hrec', hchown⟩ := h.given dir ((kbexecShellRun_spec sys hsrc command).made.trans
      hdir)
    obtain rfl := Option.some.inj (hrec.symm.trans hrec')
    obtain ⟨pwrec', hrec', huid, -⟩ := (execIds_of_user huser).mp ((hacts.chown _ _ _).mp hchown).2
    obtain rfl := Option.some.inj (hrec.symm.trans hrec')
    exact huid
  · intro hforks hstarts
    obtain ⟨acts, -, hchild⟩ := (kbexecShellRun_spec sys hforks.1 command).exits hforks hstarts
    obtain ⟨-, uid, gid, hids, hacts⟩ :=
      (kbexecShellRun_userActs sys hforks.1 command).child _ hchild
    obtain ⟨rest, hrest, heq⟩ := hacts.starts ⟨hstarts.1 uid gid hids, hstarts.2⟩
    have hstarted : Started sys command _ := ⟨by rw [heq]; simp, hstarts.2.2⟩
    obtain ⟨pwrec', hrec', -, hswitched⟩ := h.switched _ (.inr hchild) hstarted
    obtain rfl := Option.some.inj (hrec.symm.trans hrec')
    have hset := ((SwitchedTo.of_eq heq popen_notMem_childFront hrest).mp hswitched).1
    obtain ⟨huid, hno⟩ := setuid_mem_childFront.mp hset
    obtain ⟨pwrec', hrec', rfl, -⟩ := (execIds_of_user huser).mp hids
    obtain rfl := Option.some.inj (hrec.symm.trans hrec')
    exact ⟨huid, hno⟩

/-- The child that starts the command has come to it as the user of the record. -/
theorem child_of_started (huser : kbnodeGetvalueFirst st kbnodeKeyWuser ≠ [])
    (hsame : ∀ pwrec, sys.getpwnam (kbnodeGetvalueFirst st kbnodeKeyWuser) = some pwrec →
      SameIds sys st pwrec) (hsrc : kbnodeGetSrcdef st ≠ none) {p : Process}
    (hp : p = (kbexecShellRun sys st command).parent ∨
      (kbexecShellRun sys st command).child = some p) (hstarted : Started sys command p) :
    Forks sys st ∧ sys.chdir = true ∧ sys.setuid = true ∧
      ∃ pwrec, sys.getpwnam (kbnodeGetvalueFirst st kbnodeKeyWuser) = some pwrec ∧
        SwitchedTo pwrec.uid command p := by
  have hrun := kbexecShellRun_userActs sys hsrc command
  rcases hp with rfl | hchild
  · exact absurd hstarted.1 hrun.parent
  · obtain ⟨hforks, uid, gid, hids, hacts⟩ := hrun.child p hchild
    obtain ⟨hset, hchdir⟩ := hacts.stops hstarted
    obtain ⟨pwrec, hrec, rfl, rfl⟩ := (execIds_of_user huser).mp hids
    have hstarts : ChildStarts sys st := by
      refine ⟨fun uid gid hids' hne => ?_, hchdir, hstarted.2⟩
      obtain ⟨rfl, rfl⟩ := Prod.mk.inj (Option.some.inj (hids.symm.trans hids'))
      exact hset hne
    obtain ⟨huid, hno⟩ := (hsame pwrec hrec).2 hforks hstarts
    obtain ⟨rest, hrest, heq⟩ := hacts.starts ⟨hset, hchdir, hstarted.2⟩
    refine ⟨hforks, hchdir, hset hno, pwrec, hrec, ?_⟩
    rw [SwitchedTo.of_eq heq popen_notMem_childFront hrest]
    refine ⟨setuid_mem_childFront.mpr ⟨huid, hno⟩, fun other hother => ?_⟩
    exact (setuid_mem_childFront.mp hother).1.trans huid.symm

theorem runsAs_of_sameIds (huser : kbnodeGetvalueFirst st kbnodeKeyWuser ≠ [])
    (hsame : ∀ pwrec, sys.getpwnam (kbnodeGetvalueFirst st kbnodeKeyWuser) = some pwrec →
      SameIds sys st pwrec) (hsrc : kbnodeGetSrcdef st ≠ none) :
    RunsAs sys (kbnodeGetvalueFirst st kbnodeKeyWuser) command (kbexecShellRun sys st command) where
  switched p hp hstarted := by
    obtain ⟨-, -, hset, pwrec, hrec, hswitched⟩ := child_of_started huser hsame hsrc hp hstarted
    exact ⟨pwrec, hrec, hset, hswitched⟩
  given dir hdir := by
    have hmade := (kbexecShellRun_spec sys hsrc command).made
    rw [hdir] at hmade
    have hne : madeDir sys st ≠ none := by simp [← hmade]
    have hfound : execIds sys (kbnodeGetvalueFirst st kbnodeKeyWuser) ≠ none := by
      intro hnone
      exact hne (if_neg fun h => h.1 hnone)
    obtain ⟨⟨uid, gid⟩, hids⟩ := Option.ne_none_iff_exists'.mp hfound
    have hchown := ((kbexecShellRun_userActs sys hsrc command).chown dir uid gid).mpr ⟨hdir, hids⟩
    obtain ⟨pwrec, hrec, rfl, rfl⟩ := (execIds_of_user huser).mp hids
    refine ⟨pwrec, hrec, ?_⟩
    rwa [(hsame pwrec hrec).1 hsrc hne]
  givenOnly p hp path uid gid hchown := by
    have hrun := kbexecShellRun_userActs sys hsrc command
    rcases hp with rfl | hchild
    · obtain ⟨hmade, hids⟩ := (hrun.chown path uid gid).mp hchown
      obtain ⟨pwrec, hrec, rfl, rfl⟩ := (execIds_of_user huser).mp hids
      refine ⟨hmade, pwrec, hrec, ((hsame pwrec hrec).1 hsrc ?_).symm, rfl⟩
      rw [← (kbexecShellRun_spec sys hsrc command).made, hmade]
      simp
    · obtain ⟨-, uid', gid', -, hacts⟩ := hrun.child p hchild
      exact absurd hchown (hacts.noChown path uid gid)
  stopped hfails p hp hstarted := by
    obtain ⟨hforks, hchdir, hset, pwrec, hrec, -⟩ := child_of_started huser hsame hsrc hp hstarted
    rcases hfails with hnone | ⟨hmade, hchown⟩ | hfail | hfail
    · simp [hnone] at hrec
    · rw [(kbexecShellRun_spec sys hsrc command).made] at hmade
      have hdir : kbnodeGetvalueFirst st kbnodeKeyWdir = [] := by
        by_contra hdir
        exact hmade (if_neg fun h => hdir h.2.1)
      simp [(hforks.2.2.1 hdir).2] at hchown
    · simp [hchdir] at hfail
    · simp [hset] at hfail

theorem runsAs_of_noSrcdef (wuser : CStr) (hsrc : kbnodeGetSrcdef st = none) :
    RunsAs sys wuser command (kbexecShellRun sys st command) := by
  have hrun : kbexecShellRun sys st command =
      { made := none, parent := { acts := [], finish := .returned exitFailure }, child := none } := by
    simp [kbexecShellRun, hsrc]
  rw [hrun]
  constructor <;> simp [Started]

end

/-- RUNAS_USER is honoured exactly when the record that is found has one number for user and group,
as far as a directory is made or the command is started. -/
theorem kbexecShellRun_runsAs_iff (sys : Syscalls) (st : Symtab) (command : CStr)
    (huser : kbnodeGetvalueFirst st kbnodeKeyWuser ≠ []) :
    RunsAs sys (kbnodeGetvalueFirst st kbnodeKeyWuser) command (kbexecShellRun sys st command) ↔
      ∀ pwrec, sys.getpwnam (kbnodeGetvalueFirst st kbnodeKeyWuser) = some pwrec →
        SameIds sys st pwrec := by
  constructor
  · intro h pwrec hrec
    exact h.sameIds huser hrec
  · intro hsame
    by_cases hsrc : kbnodeGetSrcdef st = none
    · exact runsAs_of_noSrcdef _ hsrc
    · exact runsAs_of_sameIds huser hsame hsrc

def wwwNode : Symtab :=
  symtabOf [(kbnodeKeyId, ["n".toList]), (kbnodeKeyFname, ["f".toList]),
    (kbnodeKeyLine, ["1".toList]), (kbnodeKeyWuser, ["www".toList])]

/-- A password database with one user. -/
def withUser (pwrec : Passwd) : Syscalls :=
  { allSucceed with getpwnam := fun name => if name = "www".toList then some pwrec else none }

theorem wwwNode_runsAs : RunsAs (withUser { uid := 33, gid := 33 }) "www".toList "id".toList
    (kbexecShellRun (withUser { uid := 33, gid := 33 }) wwwNode "id".toList) := by
  refine (kbexecShellRun_runsAs_iff (withUser { uid := 33, gid := 33 }) wwwNode "id".toList
    (by decide +kernel)).mpr fun pwrec hrec => ?_
  obtain rfl := Option.some.inj hrec
  exact ⟨fun _ _ => rfl, fun _ _ => ⟨rfl, by decide⟩⟩

/-- The user 33 of group 100 gets a temporary directory, and its command runs as the user 100. -/
theorem wwwNode_otherUser :
    ((kbexecShellRun (withUser { uid := 33, gid := 100 }) wwwNode "id".toList).child.map
      fun p => p.acts.take 3) =
        some [.setuid 100, .chdir "/tmp/node-nabcdef".toList, .popen "id".toList] ∧
    ¬ RunsAs (withUser { uid := 33, gid := 100 }) "www".toList "id".toList
      (kbexecShellRun (withUser { uid := 33, gid := 100 }) wwwNode "id".toList) := by
  refine ⟨by decide +kernel, fun h => ?_⟩
  have hsrc : kbnodeGetSrcdef wwwNode ≠ none := by decide +kernel
  have hmade : madeDir (withUser { uid := 33, gid := 100 }) wwwNode ≠ none := by decide +kernel
  have huser : kbnodeGetvalueFirst wwwNode kbnodeKeyWuser ≠ [] := by decide +kernel
  have hfound : (withUser { uid := 33, gid := 100 }).getpwnam
      (kbnodeGetvalueFirst wwwNode kbnodeKeyWuser) = some { uid := 33, gid := 100 } := rfl
  have hsame := RunsAs.sameIds huser h hfound
  exact absurd (hsame.1 hsrc hmade) (by decide)

end Kubeka
