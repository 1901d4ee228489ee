import BeEasy.Epoll.Descriptors

/-!
# Epoll — what is echoed

Every client gets back a prefix of what it sent. All connections share one
buffer and one batch of events, and descriptors are reused; but between a
`read` and its `write` the table does not change, and an event still to be
taken names the connection it was raised for, since a descriptor is closed
only on its own turn. `Echoes.served` is what that comes to: what was echoed,
what the buffer holds for the connection and what was not read yet are, one
after the other, what the client sent.
-/

namespace BeEasy.Epoll

open CVerif

/-- What was read from `fd` and not written back. -/
def World.inFlight (s : World) (fd : Fd) : List Byte :=
  match s.pc with
  | .write fd' nread => if fd' = fd then s.buf.take nread else []
  | _ => []

/-- The invariant of the connections. -/
structure Echoes (s : World) : Prop where
  owners : (s.queue ++ s.table.map Prod.snd).Nodup
  known : ∀ c ∈ s.queue ++ s.table.map Prod.snd, c < s.connected
  waiting : ∀ c ∈ s.queue,
    (s.client c).echoed = [] ∧ (s.client c).unread = (s.client c).sent
  served : s.pc ≠ .exited → ∀ fd c, (fd, c) ∈ s.table → (s.client c).gone = false →
    (s.client c).echoed ++ s.inFlight fd ++ (s.client c).unread = (s.client c).sent
  got : ∀ c, (s.client c).echoed <+: (s.client c).sent

variable {d : Descriptors} {onAdd : Bool} {s t : World} {c : Nat} {fd : Fd}

theorem inFlight_loop (h : s.pc = .loop) : s.inFlight fd = [] := by
  rw [World.inFlight, h]

theorem inFlight_self {nread : Nat} (h : s.pc = .write fd nread) :
    s.inFlight fd = s.buf.take nread := by
  rw [World.inFlight, h]
  exact if_pos rfl

theorem inFlight_other {nread : Nat} {fd' : Fd} (h : s.pc = .write fd nread) (hne : fd' ≠ fd) :
    s.inFlight fd' = [] := by
  rw [World.inFlight, h]
  exact if_neg (Ne.symm hne)

theorem mem_clients (h : (fd, c) ∈ s.table) : c ∈ s.table.map Prod.snd :=
  List.mem_map_of_mem (f := Prod.snd) h

/-- A connection has one descriptor, ... -/
theorem Echoes.fd_unique (h : Echoes s) {fd' : Fd} (hc : (fd, c) ∈ s.table)
    (hc' : (fd', c) ∈ s.table) : fd = fd' := by
  have hnodup := (List.nodup_append.mp h.owners).2.1
  have := List.inj_on_of_nodup_map hnodup hc hc' rfl
  exact congrArg Prod.fst this

/-- ... and a descriptor one connection. -/
theorem Sound.client_unique (h : Sound d s) {c' : Nat} (hc : (fd, c) ∈ s.table)
    (hc' : (fd, c') ∈ s.table) : c = c' := by
  have := List.inj_on_of_nodup_map h.distinct hc hc' rfl
  exact congrArg Prod.snd this

/-- Connections apart have descriptors apart. -/
theorem Sound.fd_ne (h : Sound d s) {fd' : Fd} {c' : Nat} (hc : (fd, c) ∈ s.table)
    (hc' : (fd', c') ∈ s.table) (hne : c' ≠ c) : fd' ≠ fd := by
  rintro rfl
  exact hne (h.client_unique hc' hc)

/-- A connection that waits to be accepted has no descriptor. -/
theorem Echoes.ne_of_mem_queue (h : Echoes s) {c' : Nat} (hc : (fd, c) ∈ s.table)
    (hc' : c' ∈ s.queue) : c' ≠ c :=
  (List.nodup_append.mp h.owners).2.2 c' hc' c (mem_clients hc)

/-- A client that connects is none of the others. -/
theorem Echoes.client_connect_old (h : Echoes s) (hc : c ∈ s.queue ++ s.table.map Prod.snd) :
    (s.connect d).client c = s.client c :=
  s.client_connect_of_ne d (Nat.ne_of_lt (h.known c hc))

theorem ne_exited_of_loop (h : s.pc = .loop) : s.pc ≠ .exited := by
  rw [h]
  exact Pc.noConfusion

theorem ne_exited_of_write {nread : Nat} (h : s.pc = .write fd nread) : s.pc ≠ .exited := by
  rw [h]
  exact Pc.noConfusion

/-- What the table says of a descriptor is what `read` and `write` find. -/
theorem Sound.clientOf_of_mem (h : Sound d s) (hc : (fd, c) ∈ s.table) :
    s.clientOf fd = some c := by
  obtain ⟨earlier, later, heq⟩ := List.append_of_mem hc
  refine List.lookup_eq_some_iff.mpr ⟨earlier, later, heq, ?_⟩
  intro e he
  have hdistinct := h.distinct
  rw [heq, List.map_append, List.map_cons] at hdistinct
  have hne : e.1 ≠ fd :=
    (List.nodup_append.mp hdistinct).2.2 e.1 (List.mem_map_of_mem he) fd List.mem_cons_self
  simpa using Ne.symm hne

theorem attached_of_mem_table (h : (fd, c) ∈ s.table) : s.attached c = true :=
  decide_eq_true (.inr (mem_clients h))

theorem attached_of_mem_queue (h : c ∈ s.queue) : s.attached c = true :=
  decide_eq_true (.inl h)

/-! ## Every action keeps it -/

theorem echoes_init (buf : List Byte) : Echoes (World.init buf) where
  owners := List.nodup_nil
  known := by
    intro c h
    cases h
  waiting := by
    intro c h
    cases h
  served := by
    intro _ fd c h
    cases h
  got _ := List.prefix_rfl

theorem Echoes.connect (h : Echoes s) : Echoes (s.connect d) := by
  have hnew : s.connected ∉ s.queue ++ s.table.map Prod.snd := by
    intro hmem
    exact Nat.lt_irrefl _ (h.known _ hmem)
  constructor
  · show ((s.queue ++ [s.connected]) ++ s.table.map Prod.snd).Nodup
    have hperm : ((s.queue ++ [s.connected]) ++ s.table.map Prod.snd).Perm
        (s.connected :: (s.queue ++ s.table.map Prod.snd)) := by
      rw [List.append_assoc]
      exact List.perm_middle
    exact hperm.nodup_iff.mpr (List.nodup_cons.mpr ⟨hnew, h.owners⟩)
  · intro c hc
    rw [World.connect, List.append_assoc] at hc
    rcases List.mem_append.mp hc with hc | hc
    · exact Nat.lt_succ_of_lt (h.known c (List.mem_append_left _ hc))
    rcases List.mem_append.mp hc with hc | hc
    · rw [List.mem_singleton.mp hc]
      exact Nat.lt_succ_self _
    · exact Nat.lt_succ_of_lt (h.known c (List.mem_append_right _ hc))
  · intro c hc
    rcases List.mem_append.mp hc with hc | hc
    · rw [h.client_connect_old (List.mem_append_left _ hc)]
      exact h.waiting c hc
    · rw [List.mem_singleton.mp hc, s.client_connect_self d]
      exact ⟨rfl, rfl⟩
  · intro hpc fd c hc hgone
    rw [h.client_connect_old (List.mem_append_right _ (mem_clients hc))] at hgone ⊢
    exact h.served hpc fd c hc hgone
  · intro c
    by_cases hc : c = s.connected
    · simp only [hc, s.client_connect_self d, List.prefix_rfl]
    · rw [s.client_connect_of_ne d hc]
      exact h.got c

theorem Echoes.send (h : Echoes s) {bytes : List Byte} : Echoes (s.send c bytes) := by
  constructor
  · exact h.owners
  · exact h.known
  · intro c' hc'
    obtain ⟨hechoed, hunread⟩ := h.waiting c' hc'
    by_cases heq : c' = c
    · subst heq
      have hattached : s.attached c' = true := attached_of_mem_queue hc'
      rw [s.client_send_self, if_pos hattached, hunread]
      exact ⟨hechoed, rfl⟩
    · rw [s.client_send_of_ne heq]
      exact ⟨hechoed, hunread⟩
  · intro hpc fd c' hc' hgone
    by_cases heq : c' = c
    · subst heq
      have hattached : s.attached c' = true := attached_of_mem_table hc'
      rw [s.client_send_self, if_pos hattached] at hgone ⊢
      show (s.client c').echoed ++ s.inFlight fd ++ ((s.client c').unread ++ bytes)
        = (s.client c').sent ++ bytes
      rw [← h.served hpc fd c' hc' hgone, List.append_assoc]
      rw [List.append_assoc, List.append_assoc]
    · rw [s.client_send_of_ne heq] at hgone ⊢
      exact h.served hpc fd c' hc' hgone
  · intro c'
    by_cases heq : c' = c
    · subst heq
      rw [s.client_send_self]
      exact (h.got c').trans (List.prefix_append _ _)
    · rw [s.client_send_of_ne heq]
      exact h.got c'

theorem Echoes.close (h : Echoes s) {entirely : Bool} : Echoes (s.close c entirely) := by
  have hsame : ∀ c', ((s.close c entirely).client c').sent = (s.client c').sent
      ∧ ((s.close c entirely).client c').echoed = (s.client c').echoed
      ∧ (((s.close c entirely).client c').gone = false → (s.client c').gone = false) := by
    intro c'
    by_cases heq : c' = c
    · subst heq
      rw [s.client_close_self]
      exact ⟨rfl, rfl, fun hgone => (Bool.or_eq_false_iff.mp hgone).1⟩
    · rw [s.client_close_of_ne heq]
      exact ⟨rfl, rfl, id⟩
  constructor
  · exact h.owners
  · exact h.known
  · intro c' hc'
    obtain ⟨hsent, hechoed, -⟩ := hsame c'
    rw [hsent, s.unread_close, hechoed]
    exact h.waiting c' hc'
  · intro hpc fd c' hc' hgone
    obtain ⟨hsent, hechoed, hgone'⟩ := hsame c'
    rw [hsent, s.unread_close, hechoed]
    exact h.served hpc fd c' hc' (hgone' hgone)
  · intro c'
    obtain ⟨hsent, hechoed, -⟩ := hsame c'
    rw [hsent, hechoed]
    exact h.got c'

theorem Echoes.accept {queue : List Nat} {connFd : Fd} (h : Echoes s) (hpc : s.pc = .loop)
    (hqueue : s.queue = c :: queue) : Echoes (s.accept onAdd c queue connFd) := by
  have hperm : (queue ++ c :: s.table.map Prod.snd).Perm (s.queue ++ s.table.map Prod.snd) := by
    rw [hqueue]
    exact List.perm_middle
  constructor
  · exact hperm.nodup_iff.mpr h.owners
  · intro c' hc'
    exact h.known c' (hperm.mem_iff.mp hc')
  · intro c' hc'
    refine h.waiting c' ?_
    rw [hqueue]
    exact List.mem_cons_of_mem c hc'
  · intro _ fd c' hc' hgone
    show (s.client c').echoed ++ s.inFlight fd ++ (s.client c').unread = (s.client c').sent
    rcases List.mem_cons.mp hc' with heq | hold
    · -- nothing was read of a connection that is just accepted
      cases heq
      obtain ⟨hechoed, hunread⟩ := h.waiting c (by rw [hqueue]; exact List.mem_cons_self)
      rw [inFlight_loop hpc, hechoed, hunread]
      rfl
    · exact h.served (ne_exited_of_loop hpc) fd c' hold hgone
  · exact h.got

theorem Echoes.hangUp (h : Echoes s) (hpc : s.pc = .loop) : Echoes (s.hangUp d fd) := by
  have hsub : (s.queue ++ (s.table.filter (·.1 ≠ fd)).map Prod.snd).Sublist
      (s.queue ++ s.table.map Prod.snd) :=
    (List.Sublist.refl _).append (List.filter_sublist.map Prod.snd)
  constructor
  · exact h.owners.sublist hsub
  · intro c hc
    exact h.known c (hsub.subset hc)
  · exact h.waiting
  · intro _ fd' c hc hgone
    exact h.served (ne_exited_of_loop hpc) fd' c (List.mem_of_mem_filter hc) hgone
  · exact h.got

/-- What `read` put into the buffer. -/
theorem inFlight_read :
    (s.read fd c).inFlight fd
      = (s.client c).unread.take (min MAXLINE (s.client c).unread.length) := by
  have hlen : ((s.client c).unread.take (min MAXLINE (s.client c).unread.length)).length
      = min MAXLINE (s.client c).unread.length := by
    rw [List.length_take]
    omega
  rw [inFlight_self (s := s.read fd c) rfl]
  exact List.take_left' hlen

theorem Echoes.read (h : Echoes s) (hs : Sound d s) (hpc : s.pc = .loop)
    (hclient : s.clientOf fd = some c) : Echoes (s.read fd c) := by
  have hentry := mem_table_of_clientOf hclient
  have hold : ∀ c', c' ≠ c → (s.read fd c).client c' = s.client c' := by
    intro c' hne
    exact s.client_read_of_ne hne
  constructor
  · exact h.owners
  · exact h.known
  · intro c' hc'
    rw [hold c' (h.ne_of_mem_queue hentry hc')]
    exact h.waiting c' hc'
  · intro _ fd' c' hc' hgone
    have hloop := ne_exited_of_loop hpc
    by_cases heq : c' = c
    · -- what was unread is in the buffer now, up to its size
      subst heq
      have hfd : fd' = fd := h.fd_unique hc' hentry
      subst hfd
      rw [s.client_read_self] at hgone ⊢
      have hserved := h.served hloop fd' c' hentry hgone
      rw [inFlight_loop hpc, List.append_nil] at hserved
      rw [inFlight_read, List.append_assoc, List.take_append_drop]
      exact hserved
    · have hfd := hs.fd_ne hentry hc' heq
      rw [hold c' heq] at hgone ⊢
      have hserved := h.served hloop fd' c' hc' hgone
      rw [inFlight_loop hpc] at hserved
      rw [inFlight_other (s := s.read fd c) rfl hfd]
      exact hserved
  · intro c'
    by_cases heq : c' = c
    · subst heq
      rw [s.client_read_self]
      exact h.got c'
    · rw [hold c' heq]
      exact h.got c'

theorem Echoes.echo {nread : Nat} (h : Echoes s) (hs : Sound d s) (hpc : s.pc = .write fd nread)
    (hclient : s.clientOf fd = some c) (hgone : (s.client c).gone = false) :
    Echoes (s.echo c nread) := by
  have hentry := mem_table_of_clientOf hclient
  have hloop := ne_exited_of_write hpc
  have hserved := h.served hloop fd c hentry hgone
  rw [inFlight_self hpc] at hserved
  have hold : ∀ c', c' ≠ c → (s.echo c nread).client c' = s.client c' := by
    intro c' hne
    exact s.client_echo_of_ne hne
  constructor
  · exact h.owners
  · exact h.known
  · intro c' hc'
    rw [hold c' (h.ne_of_mem_queue hentry hc')]
    exact h.waiting c' hc'
  · intro _ fd' c' hc' hgone'
    rw [inFlight_loop (s := s.echo c nread) rfl, List.append_nil]
    by_cases heq : c' = c
    · subst heq
      rw [s.client_echo_self]
      exact hserved
    · have hfd := hs.fd_ne hentry hc' heq
      rw [hold c' heq] at hgone' ⊢
      have hother := h.served hloop fd' c' hc' hgone'
      rw [inFlight_other hpc hfd, List.append_nil] at hother
      exact hother
  · intro c'
    by_cases heq : c' = c
    · subst heq
      rw [s.client_echo_self]
      exact ⟨(s.client c').unread, hserved⟩
    · rw [hold c' heq]
      exact h.got c'

theorem Echoes.lose {nread : Nat} (h : Echoes s) (hs : Sound d s) (hpc : s.pc = .write fd nread)
    (hlost : ∀ c, s.clientOf fd = some c → (s.client c).gone = true) : Echoes s.lose := by
  have hloop := ne_exited_of_write hpc
  refine { h with served := ?_ }
  intro _ fd' c hc hgone
  rw [inFlight_loop (s := s.lose) rfl]
  show (s.client c).echoed ++ [] ++ (s.client c).unread = (s.client c).sent
  have hfd : fd' ≠ fd := by
    rintro rfl
    have hlive : (s.client c).gone = false := hgone
    rw [hlost c (hs.clientOf_of_mem hc)] at hlive
    cases hlive
  have hother := h.served hloop fd' c hc hgone
  rw [inFlight_other hpc hfd] at hother
  exact hother

theorem Echoes.keeps {a : Action} (h : Echoes s) (hs : Sound d s) (hm : Moves d onAdd s a t) :
    Echoes t := by
  cases hm with
  | connect hpc => exact h.connect
  | send hc hmore hbytes => exact h.send
  | close hc hgone => exact h.close
  | wait hwaits hn hready hroom => exact { h with }
  | exit => exact { h with served := fun hpc => absurd rfl hpc }
  | accept hpc hbatch hqueue hfresh => exact h.accept hpc hqueue
  | hangUp hpc hbatch hbranch => exact h.hangUp hpc
  | read hpc hbatch hbranch hclient hunread => exact h.read hs hpc hclient
  | echo hpc hclient hgone => exact h.echo hs hpc hclient hgone
  | lose hpc hlost => exact h.lose hs hpc hlost

/-- **Every client gets back a prefix of what it sent**, at every moment of
every run. -/
theorem echo_prefix (h : Reachable d onAdd s) (c : Nat) :
    (s.client c).echoed <+: (s.client c).sent := by
  have hkeeps : ∀ s a t, Sound d s ∧ Echoes s → Moves d onAdd s a t → Sound d t ∧ Echoes t := by
    rintro s a t ⟨hs, he⟩ hm
    exact ⟨hs.keeps hm, he.keeps hs hm⟩
  have hboth : Sound d s ∧ Echoes s :=
    invariant_of_moves (I := fun s => Sound d s ∧ Echoes s)
      (fun buf => ⟨sound_init buf, echoes_init buf⟩) hkeeps h
  exact hboth.2.got c

/-- A client gets its three bytes back and leaves; the next one gets the
number of its descriptor. -/
def secondClient : List Action :=
  [.connect, .wait 1, .serve false, .send 0 [1, 2, 3], .wait 1, .serve false, .write false,
    .close 0 true, .wait 1, .serve false, .connect, .wait 1, .serve false,
    .send 1 [7], .wait 1, .serve false, .write false]

theorem echo_prefix_secondClient :
    let s := run typical true (World.init []) secondClient
    (s.client 1).echoed <+: (s.client 1).sent :=
  echo_prefix ⟨[], run_reaches (World.init []) secondClient⟩ 1

end BeEasy.Epoll
