import BeEasy.PipeOpen.MyPopen
import BeEasy.CVerif.EventLoop
import Mathlib.Algebra.GroupWithZero.Nat

/-!
# PipeOpen — when `mypopen` hangs

The states a call gets into, by phase (`At`), and among them the deadlocks:
in mode `r` there is one exactly when the command writes more than the pipe
holds, in mode `w` always. What gets a call out of both is only that the
pipe took the place of a standard stream that the caller had closed: the
child then closes it again and has no such stream at all.
-/

namespace BeEasy.PipeOpen

open CVerif

/-- The command never waits for the parent: its output fits the pipe, or
what it would wait on is not the pipe. -/
def Setting.Safe (c : Setting) : Prop :=
  match c.command with
  | .writer writes => c.type = 'r' → c.writeFd ≠ STDOUT_FILENO → writes.sum ≤ c.capacity
  | .reader => c.type = 'w' → c.readFd = STDIN_FILENO

variable {c : Setting} {s t : World}

/-! ## The child's descriptors -/

theorem childFds_read (h : c.type = 'r') :
    c.childFds = if c.writeFd = STDOUT_FILENO then [] else [(STDOUT_FILENO, .write)] := by
  rw [Setting.childFds, Setting.setup, if_pos h]
  apply redirect
  simp [Setting.pipefd, Fds.close, Ne.symm c.distinct]

theorem childFds_write (h : c.type ≠ 'r') :
    c.childFds = if c.readFd = STDIN_FILENO then [] else [(STDIN_FILENO, .read)] := by
  rw [Setting.childFds, Setting.setup, if_neg h]
  apply redirect
  simp [Setting.pipefd, Fds.close, c.distinct]

/-- The child has one end at most, ... -/
theorem not_holds_read (h : c.type = 'r') : ¬ c.childFds.Holds .read := by
  rw [childFds_read h]
  by_cases hfd : c.writeFd = STDOUT_FILENO <;> simp [hfd, Fds.Holds]

theorem not_holds_write (h : c.type ≠ 'r') : ¬ c.childFds.Holds .write := by
  rw [childFds_write h]
  by_cases hfd : c.readFd = STDIN_FILENO <;> simp [hfd, Fds.Holds]

/-- ... on the standard stream of its mode. -/
theorem stdout_iff :
    c.childFds.lookup STDOUT_FILENO = some .write
      ↔ c.type = 'r' ∧ c.writeFd ≠ STDOUT_FILENO := by
  by_cases h : c.type = 'r'
  · rw [childFds_read h]
    by_cases hfd : c.writeFd = STDOUT_FILENO <;> simp [h, hfd]
  · refine iff_of_false ?_ (fun hr => h hr.1)
    intro hlookup
    exact not_holds_write h (Fds.holds_of_lookup hlookup)

theorem stdin_iff :
    c.childFds.lookup STDIN_FILENO = some .read ↔ c.type ≠ 'r' ∧ c.readFd ≠ STDIN_FILENO := by
  by_cases h : c.type = 'r'
  · refine iff_of_false ?_ (fun hw => hw.1 h)
    intro hlookup
    exact not_holds_read h (Fds.holds_of_lookup hlookup)
  · rw [childFds_write h]
    by_cases hfd : c.readFd = STDIN_FILENO <;> simp [h, hfd]

/-- The parent has both while it waits. -/
theorem pipefd_holds (e : PipeEnd) : c.pipefd.Holds e := by
  cases e <;> simp [Setting.pipefd, Fds.Holds]

/-! ## The phases -/

/-- What a command that is running has still to do: a writer puts no more
into the pipe than all its writes. -/
def Setting.Left (c : Setting) (command : Command) (buffered : Nat) : Prop :=
  match command with
  | .writer writes => ∃ all, c.command = .writer all ∧ buffered + writes.sum ≤ all.sum
  | .reader => c.command = .reader

/-- The parent waits for a child that has redirected its stream. -/
def Setting.waiting (c : Setting) (child : Child) (buffered : Nat) : World :=
  ⟨.wait, child, c.pipefd, c.childFds, buffered⟩

theorem childFds_waiting {child : Child} {buffered : Nat} :
    (c.waiting child buffered).childFds = c.childFds := rfl

/-- The states of a call. -/
inductive At (c : Setting) : World → Prop
  | check : At c World.start
  | pipe (htype : c.type = 'r' ∨ c.type = 'w') : At c ⟨.pipe, .unborn, [], [], 0⟩
  | fork (htype : c.type = 'r' ∨ c.type = 'w') : At c ⟨.fork, .unborn, c.pipefd, [], 0⟩
  | setup {calls : List FdCall} {fds : Fds} (htype : c.type = 'r' ∨ c.type = 'w')
      (hfds : calls.foldl FdCall.apply fds = c.childFds) :
      At c ⟨.wait, .setup calls, c.pipefd, fds, 0⟩
  | running {command : Command} {buffered : Nat} (htype : c.type = 'r' ∨ c.type = 'w')
      (hleft : c.Left command buffered) :
      At c (c.waiting (.running command) buffered)
  | writing {left : Nat} {rest : List Nat} {buffered : Nat}
      (hout : c.childFds.lookup STDOUT_FILENO = some .write)
      (hleft : c.Left (.writer (left :: rest)) buffered) :
      At c (c.waiting (.writing left rest) buffered)
  /-- The child is gone, or never was. -/
  | ended {s : World} (hchild : s.child = .exited ∨ s.child = .returned ∨ s.child = .unborn)
      (hparent : s.parent ≠ .check ∧ s.parent ≠ .pipe ∧ s.parent ≠ .fork) : At c s

theorem at_exit (h : s.parent = .wait) : At c s.exit := by
  refine .ended (.inl rfl) ?_
  show s.parent ≠ .check ∧ s.parent ≠ .pipe ∧ s.parent ≠ .fork
  rw [h]
  exact ⟨Parent.noConfusion, Parent.noConfusion, Parent.noConfusion⟩

/-- Once the child is gone the parent only gets on to its return. -/
theorem at_ended_parentTurn {ok : Bool}
    (hchild : s.child = .exited ∨ s.child = .returned ∨ s.child = .unborn)
    (hparent : s.parent ≠ .check ∧ s.parent ≠ .pipe ∧ s.parent ≠ .fork)
    (hstep : s.parentTurn c ok = some t) : At c t := by
  unfold World.parentTurn at hstep
  cases hp : s.parent with
  | check => exact absurd hp hparent.1
  | pipe => exact absurd hp hparent.2.1
  | fork => exact absurd hp hparent.2.2
  | wait =>
      simp only [hp] at hstep
      cases hc : s.child with
      | exited =>
          rw [hc] at hstep
          cases hstep
          exact .ended (.inl rfl) (by simp)
      | _ => simp [hc] at hstep
  | close =>
      simp only [hp] at hstep
      cases hstep
      exact .ended hchild (by simp)
  | fdopen =>
      simp only [hp] at hstep
      cases hstep
      exact .ended hchild (by simp)
  | returned fp => simp [hp] at hstep

theorem at_parentTurn {ok : Bool} (h : At c s) (hstep : s.parentTurn c ok = some t) : At c t := by
  cases h with
  | check =>
      simp only [World.parentTurn, World.start] at hstep
      by_cases hinvalid : c.type ≠ 'r' ∧ c.type ≠ 'w'
      · rw [if_pos hinvalid] at hstep
        cases hstep
        exact .ended (.inr (.inr rfl)) (by simp)
      · rw [if_neg hinvalid] at hstep
        cases hstep
        exact .pipe (by rwa [not_and_or, not_not, not_not] at hinvalid)
  | pipe htype =>
      cases ok with
      | true =>
          cases hstep
          exact .fork htype
      | false =>
          cases hstep
          exact .ended (.inr (.inr rfl)) (by simp)
  | fork htype =>
      cases ok with
      | true =>
          cases hstep
          exact .setup htype rfl
      | false =>
          cases hstep
          exact .ended (.inr (.inr rfl)) (by simp)
  | setup htype hfds => cases hstep
  | running htype hleft => cases hstep
  | writing hout hleft => cases hstep
  | ended hchild hparent => exact at_ended_parentTurn hchild hparent hstep

/-- The command before its first call. -/
theorem left_command : c.Left c.command 0 := by
  cases hcommand : c.command with
  | writer writes => exact ⟨writes, hcommand, Nat.le_of_eq (Nat.zero_add _)⟩
  | reader => exact hcommand

section Running

variable {buffered k : Nat}

theorem at_writeTurn {n : Nat} {rest : List Nat} (htype : c.type = 'r' ∨ c.type = 'w')
    (hleft : c.Left (.writer (n :: rest)) buffered)
    (hstep : World.writeTurn c (c.waiting (.running (.writer (n :: rest))) buffered)
      n rest = some t) : At c t := by
  obtain ⟨all, hcommand, hsum⟩ := hleft
  rw [List.sum_cons] at hsum
  have hwritten : buffered + n + rest.sum ≤ all.sum := by omega
  have hskipped : buffered + rest.sum ≤ all.sum := by omega
  unfold World.writeTurn at hstep
  split at hstep
  next hout =>
    split at hstep
    · cases hstep
      exact at_exit rfl
    · split at hstep
      · split at hstep
        · cases hstep
          exact .running htype ⟨all, hcommand, hwritten⟩
        · cases hstep
      · cases hstep
        exact .writing hout ⟨all, hcommand, by rwa [List.sum_cons]⟩
  next hout =>
    cases hstep
    exact .running htype ⟨all, hcommand, hskipped⟩

theorem at_writeMore {left : Nat} {rest : List Nat}
    (hout : c.childFds.lookup STDOUT_FILENO = some .write)
    (hleft : c.Left (.writer (left :: rest)) buffered)
    (hstep : World.writeMore c (c.waiting (.writing left rest) buffered)
      left rest k = some t) : At c t := by
  obtain ⟨all, hcommand, hsum⟩ := hleft
  rw [List.sum_cons] at hsum
  unfold World.writeMore at hstep
  split at hstep
  · cases hstep
    have hrest : buffered + rest.sum ≤ all.sum := by omega
    exact .running (.inl (stdout_iff.mp hout).1) ⟨all, hcommand, hrest⟩
  · split at hstep
    · cases hstep
      exact at_exit rfl
    · split at hstep
      next hk =>
        cases hstep
        have hmoved : buffered + k + ((left - k) :: rest).sum ≤ all.sum := by
          rw [List.sum_cons]
          omega
        exact .writing hout ⟨all, hcommand, hmoved⟩
      next => cases hstep

theorem at_readTurn (htype : c.type = 'r' ∨ c.type = 'w') (hleft : c.command = .reader)
    (hstep : World.readTurn (c.waiting (.running .reader) buffered) k = some t) :
    At c t := by
  unfold World.readTurn at hstep
  split at hstep
  · split at hstep
    · split at hstep
      · cases hstep
        exact .running htype hleft
      · cases hstep
    · split at hstep
      · cases hstep
        exact at_exit rfl
      · cases hstep
  · cases hstep
    exact at_exit rfl

end Running

theorem at_childTurn {ok : Bool} {k : Nat} (h : At c s) (hstep : s.childTurn c ok k = some t) :
    At c t := by
  cases h with
  | check => cases hstep
  | pipe htype => cases hstep
  | fork htype => cases hstep
  | @setup calls fds htype hfds =>
      cases calls with
      | cons call calls =>
          cases hstep
          exact .setup htype hfds
      | nil =>
          cases ok with
          | true =>
              cases hstep
              cases hfds
              exact .running htype left_command
          | false =>
              cases hstep
              exact .ended (.inr (.inl rfl)) (by simp)
  | @running command buffered htype hleft =>
      cases command with
      | reader => exact at_readTurn htype hleft hstep
      | writer writes =>
          cases writes with
          | nil =>
              cases hstep
              exact at_exit rfl
          | cons n rest => exact at_writeTurn htype hleft hstep
  | writing hout hleft => exact at_writeMore hout hleft hstep
  | ended hchild hparent =>
      unfold World.childTurn at hstep
      rcases hchild with hchild | hchild | hchild <;> rw [hchild] at hstep <;> cases hstep

theorem reachable_at (h : Reachable c s) : At c s := by
  refine invariant_reachable ?_ h .check
  rintro s t hs ⟨a, hstep⟩
  cases a with
  | parent ok => exact at_parentTurn hs hstep
  | child ok k => exact at_childTurn hs hstep

/-! ## No deadlock -/

/-- A safe writer finds room for what it has left. -/
theorem room_of_safe {writes : List Nat} {buffered : Nat} (hsafe : c.Safe)
    (hout : c.childFds.lookup STDOUT_FILENO = some .write)
    (hleft : c.Left (.writer writes) buffered) : buffered + writes.sum ≤ c.capacity := by
  obtain ⟨all, hcommand, hsum⟩ := hleft
  obtain ⟨htype, hfd⟩ := stdout_iff.mp hout
  unfold Setting.Safe at hsafe
  rw [hcommand] at hsafe
  exact Nat.le_trans hsum (hsafe htype hfd)

theorem At.no_deadlock (h : At c s) (hsafe : c.Safe) : ¬ s.Deadlock c := by
  rintro ⟨hparent, hblocked⟩
  cases h with
  | check => cases hparent
  | pipe htype => cases hparent
  | fork htype => cases hparent
  | setup htype hfds => exact hblocked
  | @running command buffered htype hleft =>
      cases command with
      | reader =>
          obtain ⟨hin, -, -⟩ := hblocked
          obtain ⟨hnot, hfd⟩ := stdin_iff.mp hin
          have hcommand : c.command = .reader := hleft
          unfold Setting.Safe at hsafe
          rw [hcommand] at hsafe
          exact hfd (hsafe (htype.resolve_left hnot))
      | writer writes =>
          cases writes with
          | nil => exact hblocked
          | cons n rest =>
              obtain ⟨hout, -, hfull, -⟩ := hblocked
              have hroom := room_of_safe hsafe hout hleft
              rw [List.sum_cons] at hroom
              have hfull' : c.capacity < buffered + n := hfull
              omega
  | @writing left rest buffered hout hleft =>
      obtain ⟨hsome, hfull, -⟩ := hblocked
      have hroom := room_of_safe hsafe hout hleft
      rw [List.sum_cons] at hroom
      have hfull' : c.capacity ≤ buffered := hfull
      omega
  | ended hchild hparent' =>
      unfold World.ChildBlocked at hblocked
      rcases hchild with hchild | hchild | hchild <;> rw [hchild] at hblocked <;> exact hblocked

/-! ## Deadlocks -/

theorem blocked_childTurn {ok : Bool} {k : Nat} (h : s.ChildBlocked c) :
    s.childTurn c ok k = none := by
  unfold World.ChildBlocked at h
  unfold World.childTurn
  cases hchild : s.child with
  | running command =>
      rw [hchild] at h
      cases command with
      | reader =>
          obtain ⟨hin, hempty, hwrite, -⟩ := h
          show s.readTurn k = none
          have hnothing : ¬ 0 < s.buffered := Nat.not_lt_of_le (Nat.le_of_eq hempty)
          rw [World.readTurn, if_pos hin, if_neg hnothing, if_neg (not_not_intro (.inl hwrite))]
      | writer writes =>
          cases writes with
          | nil => exact h.elim
          | cons n rest =>
              obtain ⟨hout, hatomic, hfull, hread, -⟩ := h
              show s.writeTurn c n rest = none
              rw [World.writeTurn, if_pos hout, if_neg (not_not_intro (.inl hread)),
                if_pos hatomic, if_neg (Nat.not_le_of_lt hfull)]
  | writing left rest =>
      rw [hchild] at h
      obtain ⟨hsome, hfull, hread, -⟩ := h
      show s.writeMore c left rest k = none
      have hnone : ¬ (0 < k ∧ k ≤ left ∧ s.buffered + k ≤ c.capacity) := by omega
      rw [World.writeMore, if_neg hsome, if_neg (not_not_intro (.inl hread)), if_neg hnone]
  | _ => simp only [hchild] at h

/-- Nothing ends a deadlock: neither process can take another step. -/
theorem deadlock_stuck (h : s.Deadlock c) (a : Action) : s.step c a = none := by
  obtain ⟨hparent, hblocked⟩ := h
  cases a with
  | child ok k => exact blocked_childTurn hblocked
  | parent ok =>
      show s.parentTurn c ok = none
      unfold World.parentTurn
      rw [hparent]
      unfold World.ChildBlocked at hblocked
      cases hchild : s.child with
      | exited =>
          rw [hchild] at hblocked
          exact hblocked.elim
      | _ => rfl

/-- The calls before `execvp` all succeed. -/
theorem reaches_exec {calls : List FdCall} {fds : Fds} :
    Relation.ReflTransGen (Step c) ⟨.wait, .setup calls, c.pipefd, fds, 0⟩
      ⟨.wait, .running c.command, c.pipefd, calls.foldl FdCall.apply fds, 0⟩ := by
  induction calls generalizing fds with
  | nil => exact .single ⟨.child true 0, rfl⟩
  | cons call calls ih => exact .head ⟨.child true 0, rfl⟩ ih

theorem reaches_running (htype : c.type = 'r' ∨ c.type = 'w') :
    Reachable c (c.waiting (.running c.command) 0) := by
  have hchecked : World.start.step c (.parent true) = some ⟨.pipe, .unborn, [], [], 0⟩ := by
    have hvalid : ¬ (c.type ≠ 'r' ∧ c.type ≠ 'w') := by
      rwa [not_and_or, not_not, not_not]
    exact if_neg hvalid
  refine .head ⟨_, hchecked⟩ ?_
  refine .head (b := ⟨.fork, .unborn, c.pipefd, [], 0⟩) ⟨.parent true, rfl⟩ ?_
  exact .head (b := ⟨.wait, .setup c.setup, c.pipefd, c.pipefd, 0⟩) ⟨.parent true, rfl⟩ reaches_exec

section Writer

variable {n left k buffered : Nat} {rest : List Nat}

theorem held_read {child : Child} : ¬ ¬ (c.waiting child buffered).Held .read :=
  not_not_intro (.inl (pipefd_holds .read))

theorem step_small (hout : c.childFds.lookup STDOUT_FILENO = some .write) (hatomic : n ≤ c.pipeBuf)
    (hfits : buffered + n ≤ c.capacity) :
    Step c (c.waiting (.running (.writer (n :: rest))) buffered)
      (c.waiting (.running (.writer rest)) (buffered + n)) := by
  refine ⟨.child true 0, ?_⟩
  show World.writeTurn c (c.waiting _ buffered) n rest = _
  rw [World.writeTurn, childFds_waiting, if_pos hout, if_neg held_read, if_pos hatomic]
  exact if_pos hfits

theorem step_large (hout : c.childFds.lookup STDOUT_FILENO = some .write)
    (hatomic : ¬ n ≤ c.pipeBuf) :
    Step c (c.waiting (.running (.writer (n :: rest))) buffered)
      (c.waiting (.writing n rest) buffered) := by
  refine ⟨.child true 0, ?_⟩
  show World.writeTurn c (c.waiting _ buffered) n rest = _
  rw [World.writeTurn, childFds_waiting, if_pos hout, if_neg held_read, if_neg hatomic]
  rfl

theorem step_more (hk : 0 < k) (hleft : k ≤ left) (hfits : buffered + k ≤ c.capacity) :
    Step c (c.waiting (.writing left rest) buffered)
      (c.waiting (.writing (left - k) rest) (buffered + k)) := by
  refine ⟨.child true k, ?_⟩
  show World.writeMore c (c.waiting _ buffered) left rest k = _
  rw [World.writeMore, if_neg (by omega), if_neg held_read]
  exact if_pos ⟨hk, hleft, hfits⟩

theorem step_done :
    Step c (c.waiting (.writing 0 rest) buffered) (c.waiting (.running (.writer rest)) buffered) :=
  ⟨.child true 0, rfl⟩

variable (hread : ¬ c.childFds.Holds .read)
include hread

/-- A write that is not atomic fills the pipe up before it blocks. -/
theorem fills_large (hroom : buffered ≤ c.capacity) (hmore : c.capacity < buffered + n) :
    ∃ t, Relation.ReflTransGen (Step c) (c.waiting (.writing n rest) buffered) t
      ∧ t.Deadlock c := by
  have honly : ∀ child b, (c.waiting child b).OnlyParent .read :=
    fun _ _ => ⟨pipefd_holds .read, hread⟩
  by_cases hfull : buffered = c.capacity
  · exact ⟨_, .refl, rfl, by omega, Nat.le_of_eq hfull.symm, honly _ _⟩
  · have hlast : Step c (c.waiting (.writing n rest) buffered)
        (c.waiting (.writing (n - (c.capacity - buffered)) rest)
          (buffered + (c.capacity - buffered))) :=
      step_more (by omega) (by omega) (by omega)
    have hcap : c.capacity ≤ buffered + (c.capacity - buffered) := by omega
    exact ⟨_, .single hlast, rfl, by omega, hcap, honly _ _⟩

/-- A writer with more than the pipe holds gets stuck, whatever its writes
are. -/
theorem fills (hout : c.childFds.lookup STDOUT_FILENO = some .write) {writes : List Nat}
    (hroom : buffered ≤ c.capacity) (hmore : c.capacity < buffered + writes.sum) :
    ∃ t, Relation.ReflTransGen (Step c) (c.waiting (.running (.writer writes)) buffered) t
      ∧ t.Deadlock c := by
  induction writes generalizing buffered with
  | nil =>
      rw [List.sum_nil] at hmore
      omega
  | cons n rest ih =>
      rw [List.sum_cons] at hmore
      by_cases hfits : buffered + n ≤ c.capacity
      · obtain ⟨t, hrun, hdead⟩ := ih hfits (by omega)
        by_cases hatomic : n ≤ c.pipeBuf
        · exact ⟨t, .head (step_small hout hatomic hfits) hrun, hdead⟩
        · have hwhole : Step c (c.waiting (.writing n rest) buffered)
              (c.waiting (.writing 0 rest) (buffered + n)) := by
            rw [← Nat.sub_self n]
            exact step_more (by omega) (Nat.le_refl n) hfits
          exact ⟨t, .head (step_large hout hatomic) (.head hwhole (.head step_done hrun)), hdead⟩
      · by_cases hatomic : n ≤ c.pipeBuf
        · refine ⟨_, .refl, rfl, hout, hatomic, Nat.lt_of_not_le hfits, ?_⟩
          exact ⟨pipefd_holds .read, hread⟩
        · have hlarge : ∃ t, Relation.ReflTransGen (Step c) (c.waiting (.writing n rest) buffered) t
              ∧ t.Deadlock c := fills_large hread hroom (Nat.lt_of_not_le hfits)
          obtain ⟨t, hrun, hdead⟩ := hlarge
          exact ⟨t, .head (step_large hout hatomic) hrun, hdead⟩

end Writer

/-- **When `mypopen` cannot hang**: no state it gets into is a deadlock
exactly when its command is `Safe`. -/
theorem deadlock_free_iff (c : Setting) :
    (∀ s, Reachable c s → ¬ s.Deadlock c) ↔ c.Safe := by
  constructor
  · intro hfree
    unfold Setting.Safe
    cases hcommand : c.command with
    | writer writes =>
        intro htype hfd
        by_contra hover
        have hrun := reaches_running (.inl htype)
        rw [hcommand] at hrun
        obtain ⟨t, hfills, hdead⟩ := fills (not_holds_read htype) (stdout_iff.mpr ⟨htype, hfd⟩)
          (Nat.zero_le _) (by rw [Nat.zero_add]; exact Nat.lt_of_not_le hover)
        exact hfree t (hrun.trans hfills) hdead
    | reader =>
        intro htype
        by_contra hfd
        have hmode : c.type ≠ 'r' := by
          rw [htype]
          decide
        have hrun := reaches_running (.inr htype)
        rw [hcommand] at hrun
        refine hfree _ hrun ⟨rfl, stdin_iff.mpr ⟨hmode, hfd⟩, rfl, pipefd_holds .write, ?_⟩
        exact not_holds_write hmode
  · intro hsafe s hs
    exact (reachable_at hs).no_deadlock hsafe

/-- A call for writing, with the descriptors a process usually gets. -/
def forWriting : Setting := ⟨'w', .reader, 65536, 4096, 3, 4, by decide⟩

/-- The same for reading from a command that writes a byte too many. -/
def forReading : Setting := ⟨'r', .writer [65537], 65536, 4096, 3, 4, by decide⟩

theorem mypopen_deadlocks :
    (∃ s, Reachable forWriting s ∧ s.Deadlock forWriting)
      ∧ ∃ s, Reachable forReading s ∧ s.Deadlock forReading := by
  constructor
  · refine ⟨_, reaches_running (.inr rfl), rfl, ?_⟩
    exact ⟨by decide, rfl, by decide⟩
  · have hfills : ∃ t, Relation.ReflTransGen (Step forReading)
        (forReading.waiting (.running (.writer [65537])) 0) t ∧ t.Deadlock forReading :=
      fills (by decide) (by decide) (by decide) (by decide)
    obtain ⟨t, hrun, hdead⟩ := hfills
    exact ⟨t, (reaches_running (.inl rfl)).trans hrun, hdead⟩

end BeEasy.PipeOpen
