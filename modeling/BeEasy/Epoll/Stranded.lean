import BeEasy.Epoll.Echo

/-!
# Epoll — what is left behind

An event is worth one `accept`, or one `read` of at most `MAXLINE` bytes,
and what arrives while an event is queued already adds none. So the loop can
come to rest with a connection never accepted or bytes never read, although
`listen_fd` was made non-blocking, as for an `accept` that is repeated until
nothing is left. `Covered` says what does not happen as long as every
arrival is `Within` what the events it finds, and the one it makes, are
worth.
-/

namespace BeEasy.Epoll

open CVerif

/-- What arrives is no more than the events for it are worth. A connection
comes when none waits to be accepted, or one whose event the server has taken
and not served yet. Data on an accepted connection is one `read` for the new
event and one more for an event still in `evs`; before the `accept` it is one
`read`, and only if registering a connection queues an event. -/
def World.Within (d : Descriptors) (onAdd : Bool) (s : World) : Action → Prop
  | .connect => s.queue.length ≤ if d.listenFd ∈ s.events.batch then 1 else 0
  | .send c bytes =>
      (∀ e ∈ s.table, e.2 = c → (s.client c).unread.length + bytes.length
        ≤ MAXLINE * (1 + if e.1 ∈ s.events.batch then 1 else 0))
      ∧ (c ∈ s.queue → onAdd = true ∧ (s.client c).unread.length + bytes.length ≤ MAXLINE)
  | _ => True

instance (d : Descriptors) (onAdd : Bool) (s : World) (a : Action) :
    Decidable (s.Within d onAdd a) :=
  match a with
  | .connect => inferInstanceAs (Decidable (_ ≤ _))
  | .send _ _ => inferInstanceAs (Decidable (_ ∧ _))
  | .close _ _ | .wait _ | .waitFails | .serve _ | .write _ => inferInstanceAs (Decidable True)

/-- The pending events are worth all that waits for them. -/
structure Covered (d : Descriptors) (onAdd : Bool) (s : World) : Prop where
  accepts : s.queue.length ≤ s.events.pending d.listenFd
  reads : ∀ fd c, (fd, c) ∈ s.table → (s.client c).unread.length ≤ MAXLINE * s.events.pending fd
  registers : ∀ c ∈ s.queue,
    (s.client c).unread.length ≤ MAXLINE ∧ ((s.client c).unread ≠ [] → onAdd = true)

variable {d : Descriptors} {onAdd : Bool} {s t : World} {c : Nat} {fd : Fd}

theorem Echoes.fdOf_of_mem (h : Echoes s) (hc : (fd, c) ∈ s.table) : s.fdOf c = some fd := by
  cases hfd : s.fdOf c with
  | none =>
      have hnone := List.find?_eq_none.mp (Option.map_eq_none_iff.mp hfd) (fd, c) hc
      simp at hnone
  | some fd' => rw [h.fd_unique (mem_table_of_fdOf hfd) hc]

theorem pending_le_raise : s.events.pending fd ≤ (s.raise c).pending fd := by
  unfold World.raise
  cases s.fdOf c with
  | none => exact Nat.le_refl _
  | some fd' => exact Events.pending_le_notify

theorem pending_le_register {connFd : Fd} :
    s.events.next.pending fd ≤ (s.register onAdd c connFd).pending fd := by
  unfold World.register
  by_cases hadd : onAdd = true ∧ s.Readable c
  · rw [if_pos hadd]
    exact Events.pending_le_notify
  · rw [if_neg hadd]

theorem covered_init (buf : List Byte) : Covered d onAdd (World.init buf) where
  accepts := Nat.zero_le _
  reads := by
    intro fd c h
    cases h
  registers := by
    intro c h
    cases h

theorem Covered.connect (h : Covered d onAdd s) (he : Echoes s)
    (hwithin : s.Within d onAdd .connect) : Covered d onAdd (s.connect d) := by
  constructor
  · show (s.queue ++ [s.connected]).length ≤ (s.events.notify d.listenFd).pending d.listenFd
    rw [Events.pending_notify_self, List.length_append, List.length_singleton, Nat.add_comm]
    exact Nat.add_le_add_left hwithin 1
  · intro fd c hc
    rw [he.client_connect_old (List.mem_append_right _ (mem_clients hc))]
    calc (s.client c).unread.length ≤ MAXLINE * s.events.pending fd := h.reads fd c hc
      _ ≤ MAXLINE * (s.events.notify d.listenFd).pending fd :=
          Nat.mul_le_mul_left _ Events.pending_le_notify
  · intro c hc
    rcases List.mem_append.mp hc with hc | hc
    · rw [he.client_connect_old (List.mem_append_left _ hc)]
      exact h.registers c hc
    · rw [List.mem_singleton.mp hc, s.client_connect_self d]
      exact ⟨Nat.zero_le _, fun hne => absurd rfl hne⟩

theorem Covered.send {bytes : List Byte} (h : Covered d onAdd s) (he : Echoes s)
    (hwithin : s.Within d onAdd (.send c bytes)) : Covered d onAdd (s.send c bytes) := by
  obtain ⟨hopen, hqueued⟩ := hwithin
  constructor
  · exact Nat.le_trans h.accepts pending_le_raise
  · intro fd c' hc'
    show _ ≤ MAXLINE * (s.raise c).pending fd
    by_cases heq : c' = c
    · subst heq
      have hmem : (fd, c') ∈ s.table := hc'
      have hraise : s.raise c' = s.events.notify fd := by
        rw [World.raise, he.fdOf_of_mem hmem]
      rw [s.client_send_self, if_pos (attached_of_mem_table hmem), hraise,
        Events.pending_notify_self, List.length_append]
      exact hopen (fd, c') hmem rfl
    · rw [s.client_send_of_ne heq]
      exact Nat.le_trans (h.reads fd c' hc') (Nat.mul_le_mul_left _ pending_le_raise)
  · intro c' hc'
    by_cases heq : c' = c
    · subst heq
      obtain ⟨hadd, hlen⟩ := hqueued hc'
      have hmem : c' ∈ s.queue := hc'
      rw [s.client_send_self, if_pos (attached_of_mem_queue hmem), List.length_append]
      exact ⟨hlen, fun _ => hadd⟩
    · rw [s.client_send_of_ne heq]
      exact h.registers c' hc'

theorem Covered.close {entirely : Bool} (h : Covered d onAdd s) :
    Covered d onAdd (s.close c entirely) := by
  constructor
  · exact Nat.le_trans h.accepts pending_le_raise
  · intro fd c' hc'
    rw [s.unread_close]
    exact Nat.le_trans (h.reads fd c' hc') (Nat.mul_le_mul_left _ pending_le_raise)
  · intro c' hc'
    rw [s.unread_close]
    exact h.registers c' hc'

theorem Covered.wait {n : Nat} (h : Covered d onAdd s) (hwaits : s.Waits) :
    Covered d onAdd (s.wait n) := by
  have hpending : ∀ fd, (s.wait n).events.pending fd = s.events.pending fd := fun fd =>
    Events.pending_wait hwaits.2
  constructor
  · rw [hpending]
    exact h.accepts
  · intro fd c hc
    rw [hpending]
    exact h.reads fd c hc
  · exact h.registers

theorem Covered.accept {queue : List Nat} {connFd : Fd} {rest : List Fd} (h : Covered d onAdd s)
    (hs : Sound d s) (hbatch : s.events.batch = d.listenFd :: rest) (hqueue : s.queue = c :: queue)
    (hfresh : s.freshFd d = some connFd) : Covered d onAdd (s.accept onAdd c queue connFd) := by
  obtain ⟨-, -, hlisten, hnew⟩ := freshFd_spec hfresh
  constructor
  · have haccepts := h.accepts
    rw [hqueue, List.length_cons, Events.pending_next_self hbatch] at haccepts
    exact Nat.le_trans (Nat.le_of_succ_le_succ haccepts) pending_le_register
  · intro fd c' hc'
    show (s.client c').unread.length ≤ MAXLINE * (s.register onAdd c connFd).pending fd
    rcases List.mem_cons.mp hc' with heq | hold
    · -- what came before the accept has the event of the registration
      cases heq
      obtain ⟨hlen, hadd⟩ := h.registers c (by rw [hqueue]; exact List.mem_cons_self)
      by_cases hunread : (s.client c).unread = []
      · rw [hunread]
        exact Nat.zero_le _
      · have hqueued : s.register onAdd c connFd = s.events.next.notify connFd :=
          if_pos ⟨hadd hunread, .inl hunread⟩
        rw [hqueued, Events.pending_notify_self, Nat.mul_add, Nat.mul_one]
        exact Nat.le_trans hlen (Nat.le_add_right _ _)
    · have hne : fd ≠ d.listenFd := (hs.limited fd (List.mem_map_of_mem (f := Prod.fst) hold)).2.1
      have hreads := h.reads fd c' hold
      rw [← Events.pending_next_ne hbatch hne] at hreads
      exact Nat.le_trans hreads (Nat.mul_le_mul_left _ pending_le_register)
  · intro c' hc'
    refine h.registers c' ?_
    rw [hqueue]
    exact List.mem_cons_of_mem c hc'

theorem Covered.hangUp {rest : List Fd} (h : Covered d onAdd s) (hs : Sound d s)
    (hbatch : s.events.batch = fd :: rest) (hbranch : ¬ s.Accepts d fd) :
    Covered d onAdd (s.hangUp d fd) := by
  have hne := (hs.fd_of_readTurn hbatch hbranch).1
  have hpending : ∀ fd', fd' ≠ fd → (s.hangUp d fd).events.pending fd' = s.events.pending fd' := by
    intro fd' hne'
    calc (s.events.next.forget fd).pending fd' = s.events.next.pending fd' :=
          Events.pending_forget_ne hne'
      _ = s.events.pending fd' := Events.pending_next_ne hbatch hne'
  constructor
  · rw [hpending d.listenFd (Ne.symm hne)]
    exact h.accepts
  · intro fd' c hc
    obtain ⟨hmem, hkept⟩ := List.mem_filter.mp hc
    rw [hpending fd' (of_decide_eq_true hkept)]
    exact h.reads fd' c hmem
  · exact h.registers

theorem Covered.read {rest : List Fd} (h : Covered d onAdd s) (hs : Sound d s) (he : Echoes s)
    (hbatch : s.events.batch = fd :: rest) (hbranch : ¬ s.Accepts d fd)
    (hclient : s.clientOf fd = some c) : Covered d onAdd (s.read fd c) := by
  have hentry := mem_table_of_clientOf hclient
  have hne := (hs.fd_of_readTurn hbatch hbranch).1
  constructor
  · show s.queue.length ≤ s.events.next.pending d.listenFd
    rw [Events.pending_next_ne hbatch (Ne.symm hne)]
    exact h.accepts
  · intro fd' c' hc'
    show _ ≤ MAXLINE * s.events.next.pending fd'
    by_cases heq : c' = c
    · -- one event less, and up to `MAXLINE` bytes less
      subst heq
      have hfd : fd' = fd := he.fd_unique hc' hentry
      subst hfd
      have hreads := h.reads fd' c' hentry
      rw [Events.pending_next_self hbatch, Nat.mul_succ] at hreads
      rw [s.client_read_self, List.length_drop]
      omega
    · have hfd := hs.fd_ne hentry hc' heq
      rw [s.client_read_of_ne heq, Events.pending_next_ne hbatch hfd]
      exact h.reads fd' c' hc'
  · intro c' hc'
    rw [s.client_read_of_ne (he.ne_of_mem_queue hentry hc')]
    exact h.registers c' hc'

theorem Covered.echo {nread : Nat} (h : Covered d onAdd s) : Covered d onAdd (s.echo c nread) := by
  constructor
  · exact h.accepts
  · intro fd c' hc'
    rw [s.unread_echo]
    exact h.reads fd c' hc'
  · intro c' hc'
    rw [s.unread_echo]
    exact h.registers c' hc'

theorem Covered.keeps {a : Action} (h : Covered d onAdd s) (hs : Sound d s) (he : Echoes s)
    (hwithin : s.Within d onAdd a) (hm : Moves d onAdd s a t) : Covered d onAdd t := by
  cases hm with
  | connect hpc => exact h.connect he hwithin
  | send hc hmore hbytes => exact h.send he hwithin
  | close hc hgone => exact h.close
  | wait hwaits hn hready hroom => exact h.wait hwaits
  | exit => exact { h with }
  | accept hpc hbatch hqueue hfresh => exact h.accept hs hbatch hqueue hfresh
  | hangUp hpc hbatch hbranch => exact h.hangUp hs hbatch hbranch
  | read hpc hbatch hbranch hclient hunread => exact h.read hs he hbatch hbranch hclient
  | echo hpc hclient hgone => exact h.echo
  | lose hpc hlost => exact { h with }

/-! ## Runs -/

/-- An action that is possible and brings no more than is covered. -/
def StepWithin (d : Descriptors) (onAdd : Bool) (s t : World) : Prop :=
  ∃ a, s.Within d onAdd a ∧ s.step d onAdd a = some t

def ReachableWithin (d : Descriptors) (onAdd : Bool) (s : World) : Prop :=
  ∃ buf, Relation.ReflTransGen (StepWithin d onAdd) (World.init buf) s

/-- **Where every arrival is within what its events are worth, the server
never sleeps on something it has not done**: when it waits and no event is
queued, every connection is accepted and everything received is read. -/
theorem nothing_stranded (h : ReachableWithin d onAdd s) (hwaits : s.Waits)
    (hready : s.events.ready = []) :
    s.queue = [] ∧ ∀ fd c, (fd, c) ∈ s.table → (s.client c).unread = [] := by
  obtain ⟨buf, run⟩ := h
  have hkeeps : ∀ s t, Sound d s ∧ Echoes s ∧ Covered d onAdd s → StepWithin d onAdd s t →
      Sound d t ∧ Echoes t ∧ Covered d onAdd t := by
    rintro s t ⟨hs, he, hc⟩ ⟨a, hwithin, hstep⟩
    have hm := step_moves hstep
    exact ⟨hs.keeps hm, he.keeps hs hm, hc.keeps hs he hwithin hm⟩
  obtain ⟨-, -, hcovered⟩ := invariant_reachable hkeeps run
    ⟨sound_init buf, echoes_init buf, covered_init buf⟩
  have hnone : ∀ fd, s.events.pending fd = 0 := by
    intro fd
    refine Events.pending_eq_zero ?_ ?_
    · rw [hready]
      exact List.not_mem_nil
    · rw [hwaits.2]
      exact List.not_mem_nil
  constructor
  · have haccepts := hcovered.accepts
    rw [hnone] at haccepts
    exact List.length_eq_zero_iff.mp (Nat.le_zero.mp haccepts)
  · intro fd c hc
    have hreads := hcovered.reads fd c hc
    rw [hnone, Nat.mul_zero] at hreads
    exact List.length_eq_zero_iff.mp (Nat.le_zero.mp hreads)

/-- Every action of the list is within what is covered. -/
def AllWithin (d : Descriptors) (onAdd : Bool) : World → List Action → Prop
  | _, [] => True
  | s, a :: actions =>
      s.Within d onAdd a ∧ AllWithin d onAdd ((s.step d onAdd a).getD s) actions

instance decidableAllWithin (d : Descriptors) (onAdd : Bool) :
    (s : World) → (actions : List Action) → Decidable (AllWithin d onAdd s actions)
  | _, [] => inferInstanceAs (Decidable True)
  | s, a :: actions =>
      have := decidableAllWithin d onAdd ((s.step d onAdd a).getD s) actions
      inferInstanceAs (Decidable (_ ∧ _))

theorem run_reaches_within (s : World) (actions : List Action) (h : AllWithin d onAdd s actions) :
    Relation.ReflTransGen (StepWithin d onAdd) s (run d onAdd s actions) := by
  induction actions generalizing s with
  | nil => exact .refl
  | cons a actions ih =>
      obtain ⟨hwithin, hrest⟩ := h
      cases hstep : s.step d onAdd a with
      | none =>
          rw [hstep] at hrest
          rw [run, hstep]
          exact ih s hrest
      | some t =>
          rw [hstep] at hrest
          rw [run, hstep]
          exact .head ⟨a, hwithin, hstep⟩ (ih t hrest)

/-- Two clients, one after the other. -/
def oneByOne : List Action :=
  [.connect, .wait 1, .serve false, .send 0 [1, 2, 3], .wait 1, .serve false, .write false,
    .connect, .wait 1, .serve false, .send 1 [7], .wait 1, .serve false, .write false]

theorem nothing_stranded_oneByOne :
    let s := run typical false (World.init []) oneByOne
    s.queue = [] ∧ ∀ fd c, (fd, c) ∈ s.table → (s.client c).unread = [] :=
  nothing_stranded ⟨[], run_reaches_within (World.init []) oneByOne (by decide +kernel)⟩
    (by decide +kernel) (by decide +kernel)

/-- Two clients connect at once, and the one that is accepted sends one byte
more than the buffer holds. -/
def tooMuchAtOnce : List Action :=
  [.connect, .connect, .wait 1, .serve false,
    .send 0 (List.replicate 1025 7), .wait 1, .serve false, .write false]

/-- The server waits with no event queued, a connection is not accepted and
a byte of the other is not read. -/
theorem stranded :
    let s := run typical false (World.init []) tooMuchAtOnce
    Reachable typical false s ∧ s.Waits ∧ s.events.ready = []
      ∧ s.queue = [1] ∧ (5, 0) ∈ s.table ∧ (s.client 0).unread = [7] :=
  ⟨⟨[], run_reaches _ _⟩, by decide +kernel⟩

end BeEasy.Epoll
