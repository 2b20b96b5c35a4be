import LinuxPrograms.LibLowest
import Mathlib.Data.BitVec
import Mathlib.Logic.Function.Basic

/-! `becomeDaemon` (daemonapi, becomeDaemon.c): the process that goes on after its two `fork`s, and
what is left of its descriptors. -/
namespace LinuxPrograms.BecomeDaemon
open Lib

def BD_NO_CHDIR : BitVec 32 := 0o1
def BD_NO_CLOSE_FILES : BitVec 32 := 0o2
def BD_NO_REOPEN_STD_FDS : BitVec 32 := 0o4
def BD_NO_UMASK0 : BitVec 32 := 0o10

def BD_MAX_CLOSE : ℕ := 8192

/-- What a descriptor stands for. -/
inductive File
  | devNull
  | inherited (n : ℕ)
deriving DecidableEq, Repr

structure Process where
  fds : Finset ℕ
  file : ℕ → File
  umask : ℕ
  cwd : String
  sessionLeader : Bool

/-- Whether each call succeeds; `openMax` is what `sysconf` answers, if it is not -1. -/
structure Calls where
  fork₁ : Bool
  setsid : Bool
  fork₂ : Bool
  chdir : Bool
  openMax : Option ℕ
  openNull : Bool
  dup₁ : Bool
  dup₂ : Bool

def Process.close (p : Process) (fd : ℕ) : Process := { p with fds := p.fds.erase fd }

/-- `open` and `dup2`: `fd` stands for the file from now on. -/
def Process.install (p : Process) (fd : ℕ) (file : File) : Process :=
  { p with fds := insert fd p.fds, file := Function.update p.file fd file }

/-- `dup2(STDIN_FILENO, fd)`. -/
def Process.dup2 (p : Process) (fd : ℕ) : Process := p.install fd (p.file 0)

/-- The loop that closes the descriptors. -/
def Process.closeBelow (p : Process) (maxfd : ℕ) : Process :=
  (List.range maxfd).foldl Process.close p

/-- 0, 1 and 2 for `/dev/null`; `open` takes the lowest free descriptor. -/
def reopen (calls : Calls) (p : Process) : ℤ × Process :=
  let p := p.close 0
  if calls.openNull = false then (-1, p)
  else
    let fd := lowestFree p.fds
    let p := p.install fd .devNull
    if fd ≠ 0 then (-1, p)
    else if calls.dup₁ = false then (-1, p)
    else
      let p := p.dup2 1
      if calls.dup₂ = false then (-1, p) else (0, p.dup2 2)

/-- The mask, the directory and the descriptors, as the flags say. -/
def settle (flags : BitVec 32) (calls : Calls) (p : Process) : Process :=
  let p := if flags &&& BD_NO_UMASK0 = 0 then { p with umask := 0 } else p
  let p := if flags &&& BD_NO_CHDIR = 0 ∧ calls.chdir then { p with cwd := "/" } else p
  if flags &&& BD_NO_CLOSE_FILES = 0 then p.closeBelow (calls.openMax.getD BD_MAX_CLOSE) else p

/-- What is returned, and the process in which it is. -/
def becomeDaemon (flags : BitVec 32) (calls : Calls) (p : Process) : ℤ × Process :=
  if calls.fork₁ = false then (-1, p)
  else if calls.setsid = false then (-1, { p with sessionLeader := false })
  else if calls.fork₂ = false then (-1, { p with sessionLeader := true })
  else
    let p := settle flags calls { p with sessionLeader := false }
    if flags &&& BD_NO_REOPEN_STD_FDS = 0 then reopen calls p else (0, p)

/-! The descriptors. -/

variable {p q : Process} {fd maxfd : ℕ}

theorem closeBelow_eq (p : Process) (maxfd : ℕ) :
    p.closeBelow maxfd = { p with fds := (p.closeBelow maxfd).fds } := by
  unfold Process.closeBelow
  induction maxfd with
  | zero => rfl
  | succ n ih =>
    rw [List.range_succ, List.foldl_append, List.foldl_cons, List.foldl_nil, ih]
    rfl

theorem mem_closeBelow : fd ∈ (p.closeBelow maxfd).fds ↔ fd ∈ p.fds ∧ maxfd ≤ fd := by
  unfold Process.closeBelow
  induction maxfd with
  | zero => exact ⟨fun h => ⟨h, Nat.zero_le _⟩, And.left⟩
  | succ n ih =>
    rw [List.range_succ, List.foldl_append, List.foldl_cons, List.foldl_nil]
    unfold Process.close at ih ⊢
    rw [Finset.mem_erase, ih]
    constructor
    · rintro ⟨hne, hmem, hle⟩
      exact ⟨hmem, Nat.lt_of_le_of_ne hle (Ne.symm hne)⟩
    · rintro ⟨hmem, hle⟩
      exact ⟨Nat.ne_of_gt hle, hmem, Nat.le_of_lt hle⟩

/-- What `becomeDaemon` leaves when 0, 1 and 2 are reopened. -/
structure Reopened (p q : Process) : Prop where
  umask : q.umask = p.umask
  cwd : q.cwd = p.cwd
  sessionLeader : q.sessionLeader = p.sessionLeader
  fds : ∀ fd, fd ∈ q.fds ↔ fd ≤ 2 ∨ fd ∈ p.fds
  file : ∀ fd, q.file fd = if fd ≤ 2 then .devNull else p.file fd

theorem installed_reopened (p : Process) :
    Reopened p ((((p.close 0).install 0 .devNull).dup2 1).dup2 2) := by
  refine ⟨rfl, rfl, rfl, fun fd => ?_, fun fd => ?_⟩
  · change fd ∈ insert 2 (insert 1 (insert 0 (p.fds.erase 0))) ↔ _
    rw [Finset.mem_insert, Finset.mem_insert, Finset.mem_insert, Finset.mem_erase]
    constructor
    · rintro (rfl | rfl | rfl | ⟨-, h⟩)
      · exact .inl (by decide)
      · exact .inl (by decide)
      · exact .inl (by decide)
      · exact .inr h
    · rintro (hle | h)
      · omega
      · by_cases hzero : fd = 0
        · exact .inr (.inr (.inl hzero))
        · exact .inr (.inr (.inr ⟨hzero, h⟩))
  · change Function.update (Function.update (Function.update p.file 0 .devNull) 1 _) 2 _ fd = _
    match fd with
    | 0 | 1 | 2 => rfl
    | fd+3 =>
      rw [Function.update_of_ne (by omega), Function.update_of_ne (by omega),
        Function.update_of_ne (by omega), if_neg (by omega)]

/-- `/dev/null` is opened as 0, so that the check of `fd` never fails. -/
theorem reopen_eq (calls : Calls) (p : Process) :
    ((reopen calls p).1 = 0 ↔
      calls.openNull = true ∧ calls.dup₁ = true ∧ calls.dup₂ = true) ∧
    ((reopen calls p).1 = 0 → Reopened p (reopen calls p).2) := by
  have hlowest : lowestFree (p.close 0).fds = 0 := lowestFree_eq_zero (Finset.notMem_erase 0 _)
  unfold reopen
  dsimp only
  rw [hlowest, if_neg (by decide : ¬(0 : ℕ) ≠ 0)]
  cases calls.openNull with
  | false => exact ⟨⟨nofun, nofun⟩, nofun⟩
  | true =>
    cases calls.dup₁ with
    | false => exact ⟨⟨nofun, nofun⟩, nofun⟩
    | true =>
      cases calls.dup₂ with
      | false => exact ⟨⟨nofun, nofun⟩, nofun⟩
      | true => exact ⟨⟨fun _ => ⟨rfl, rfl, rfl⟩, fun _ => rfl⟩, fun _ => installed_reopened p⟩

/-- The descriptors from this on are left open. -/
def closesBelow (flags : BitVec 32) (calls : Calls) : ℕ :=
  if flags &&& BD_NO_CLOSE_FILES = 0 then calls.openMax.getD BD_MAX_CLOSE else 0

theorem mem_settle {flags : BitVec 32} {calls : Calls} :
    fd ∈ (settle flags calls p).fds ↔ fd ∈ p.fds ∧ closesBelow flags calls ≤ fd := by
  unfold settle closesBelow
  dsimp only
  by_cases hclose : flags &&& BD_NO_CLOSE_FILES = 0
  · rw [if_pos hclose, if_pos hclose, mem_closeBelow]
    split_ifs <;> rfl
  · rw [if_neg hclose, if_neg hclose]
    split_ifs <;> exact (and_iff_left (Nat.zero_le _)).symm

theorem settle_eq (flags : BitVec 32) (calls : Calls) (p : Process) :
    settle flags calls p =
      { p with
        fds := (settle flags calls p).fds
        umask := if flags &&& BD_NO_UMASK0 = 0 then 0 else p.umask
        cwd := if flags &&& BD_NO_CHDIR = 0 ∧ calls.chdir then "/" else p.cwd } := by
  unfold settle
  dsimp only
  by_cases hclose : flags &&& BD_NO_CLOSE_FILES = 0
  · rw [if_pos hclose, closeBelow_eq]
    split_ifs <;> rfl
  · rw [if_neg hclose]
    split_ifs <;> rfl

/-- A daemon with these flags. -/
structure Daemon (flags : BitVec 32) (calls : Calls) (p q : Process) : Prop where
  sessionLeader : q.sessionLeader = false
  umask : q.umask = if flags &&& BD_NO_UMASK0 = 0 then 0 else p.umask
  cwd : q.cwd = if flags &&& BD_NO_CHDIR = 0 ∧ calls.chdir then "/" else p.cwd
  fds : ∀ fd, fd ∈ q.fds ↔
    (flags &&& BD_NO_REOPEN_STD_FDS = 0 ∧ fd ≤ 2) ∨ (fd ∈ p.fds ∧ closesBelow flags calls ≤ fd)
  file : ∀ fd, q.file fd =
    if flags &&& BD_NO_REOPEN_STD_FDS = 0 ∧ fd ≤ 2 then .devNull else p.file fd

/-- `becomeDaemon` returns 0 exactly if no call that it checks fails. The process is then no session
leader; of its descriptors those are left which the flags spare or which are not below the limit,
and 0, 1 and 2 stand for `/dev/null`, unless the flags say otherwise. -/
theorem becomeDaemon_zero (flags : BitVec 32) (calls : Calls) (p : Process) :
    ((becomeDaemon flags calls p).1 = 0 ↔
      calls.fork₁ = true ∧ calls.setsid = true ∧ calls.fork₂ = true ∧
      (flags &&& BD_NO_REOPEN_STD_FDS = 0 →
        calls.openNull = true ∧ calls.dup₁ = true ∧ calls.dup₂ = true)) ∧
    ((becomeDaemon flags calls p).1 = 0 →
      Daemon flags calls p (becomeDaemon flags calls p).2) := by
  unfold becomeDaemon
  cases calls.fork₁ with
  | false => exact ⟨⟨nofun, nofun⟩, nofun⟩
  | true =>
    cases calls.setsid with
    | false => exact ⟨⟨nofun, nofun⟩, nofun⟩
    | true =>
      cases calls.fork₂ with
      | false => exact ⟨⟨nofun, nofun⟩, nofun⟩
      | true =>
        dsimp only
        rw [if_neg Bool.false_ne_true.symm, if_neg Bool.false_ne_true.symm,
          if_neg Bool.false_ne_true.symm]
        generalize hsettle : settle flags calls { p with sessionLeader := false } = q
        have hfds (fd : ℕ) : fd ∈ q.fds ↔ fd ∈ p.fds ∧ closesBelow flags calls ≤ fd := by
          rw [← hsettle]
          exact mem_settle
        have heq := settle_eq flags calls { p with sessionLeader := false }
        rw [hsettle] at heq
        by_cases hreopen : flags &&& BD_NO_REOPEN_STD_FDS = 0
        · rw [if_pos hreopen]
          obtain ⟨hzero, hreopened⟩ := reopen_eq calls q
          refine ⟨?_, fun h => ?_⟩
          · rw [hzero]
            exact ⟨fun h => ⟨rfl, rfl, rfl, fun _ => h⟩, fun h => h.2.2.2 hreopen⟩
          · have hr := hreopened h
            refine ⟨?_, ?_, ?_, fun fd => ?_, fun fd => ?_⟩
            · rw [hr.sessionLeader, heq]
            · rw [hr.umask, heq]
            · rw [hr.cwd, heq]
            · rw [hr.fds, hfds]
              exact or_congr_left (and_iff_right hreopen).symm
            · rw [hr.file, heq]
              exact if_congr (and_iff_right hreopen).symm rfl rfl
        · rw [if_neg hreopen]
          refine ⟨⟨fun _ => ⟨rfl, rfl, rfl, fun h => (hreopen h).elim⟩, fun _ => rfl⟩, fun _ => ?_⟩
          refine ⟨?_, ?_, ?_, fun fd => ?_, fun fd => ?_⟩
          · rw [heq]
          · rw [heq]
          · rw [heq]
          · rw [hfds]
            exact ⟨.inr, fun h => h.resolve_left fun h => hreopen h.1⟩
          · rw [heq]
            exact (if_neg fun h => hreopen h.1).symm

end LinuxPrograms.BecomeDaemon
