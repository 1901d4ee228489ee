import BeEasy.Epoll.Server
import Mathlib.Data.List.Perm.Subperm

/-!
# Epoll — descriptors

What the server knows of its descriptors is right: `cur_fds` counts them,
every event still to be taken names an open one, and the limit on open
files keeps `cur_fds` below `MAXEPOLL`. So the condition that picks the
branch of the loop picks by descriptor alone, and what falls into the branch
that reads is a connection (`fd_of_readTurn`).
-/

namespace BeEasy.Epoll

open CVerif

/-- The invariant of the descriptors. -/
structure Sound (d : Descriptors) (s : World) : Prop where
  counted : s.curFds = 1 + s.table.length
  listens : s.listening = true
  distinct : (s.table.map Prod.fst).Nodup
  limited : ∀ fd ∈ s.table.map Prod.fst, fd < MAXEPOLL ∧ fd ≠ d.listenFd ∧ fd ≠ d.epollFd
  raised : ∀ fd, fd ∈ s.events.ready ∨ fd ∈ s.events.batch →
    fd = d.listenFd ∨ fd ∈ s.table.map Prod.fst
  busy : ∀ fd nread, s.pc = .write fd nread → fd ∈ s.table.map Prod.fst

variable {d : Descriptors} {onAdd : Bool} {s t : World} {c : Nat} {fd : Fd}

/-! ## The table -/

theorem mem_table_of_clientOf (h : s.clientOf fd = some c) : (fd, c) ∈ s.table := by
  obtain ⟨l₁, l₂, heq, -⟩ := List.lookup_eq_some_iff.mp h
  rw [heq]
  exact List.mem_append_right l₁ List.mem_cons_self

theorem mem_fds_of_clientOf (h : s.clientOf fd = some c) : fd ∈ s.table.map Prod.fst :=
  List.mem_map_of_mem (f := Prod.fst) (mem_table_of_clientOf h)

theorem mem_table_of_fdOf (h : s.fdOf c = some fd) : (fd, c) ∈ s.table := by
  obtain ⟨e, he, rfl⟩ := Option.map_eq_some_iff.mp h
  have hc := List.find?_some he
  rw [decide_eq_true_eq] at hc
  rw [← hc]
  exact List.mem_of_find?_eq_some he

/-- Something on a connection only raises its descriptor. -/
theorem mem_raise (h : fd ∈ (s.raise c).ready) :
    fd ∈ s.events.ready ∨ fd ∈ s.table.map Prod.fst := by
  unfold World.raise at h
  cases hfd : s.fdOf c with
  | none =>
      rw [hfd] at h
      exact .inl h
  | some fd' =>
      rw [hfd] at h
      rcases Events.mem_notify.mp h with hready | rfl
      · exact .inl hready
      · exact .inr (List.mem_map_of_mem (f := Prod.fst) (mem_table_of_fdOf hfd))

theorem batch_raise : (s.raise c).batch = s.events.batch := by
  unfold World.raise
  cases s.fdOf c <;> rfl

theorem mem_register {connFd : Fd} (h : fd ∈ (s.register onAdd c connFd).ready) :
    fd ∈ s.events.ready ∨ fd = connFd := by
  unfold World.register at h
  by_cases hadd : onAdd = true ∧ s.Readable c
  · rw [if_pos hadd] at h
    exact Events.mem_notify.mp h
  · rw [if_neg hadd] at h
    exact .inl h

theorem batch_register {connFd : Fd} : (s.register onAdd c connFd).batch = s.events.next.batch := by
  unfold World.register
  by_cases hadd : onAdd = true ∧ s.Readable c
  · rw [if_pos hadd]
    rfl
  · rw [if_neg hadd]

theorem freshFd_spec (h : s.freshFd d = some fd) :
    fd < MAXEPOLL ∧ fd ≠ d.epollFd ∧ (s.listening = true → fd ≠ d.listenFd)
      ∧ fd ∉ s.table.map Prod.fst := by
  have hlt := List.mem_range.mp (List.mem_of_find?_eq_some h)
  have hfree := List.find?_some h
  simp only [World.inUse, Bool.not_eq_true', decide_eq_false_iff_not, not_or, not_and] at hfree
  exact ⟨hlt, hfree.2.1, hfree.2.2.1, hfree.2.2.2⟩

/-- Closing a descriptor of the table takes one entry out of it. -/
theorem length_filter_table {table : List (Fd × Nat)} (hnodup : (table.map Prod.fst).Nodup)
    (h : fd ∈ table.map Prod.fst) :
    (table.filter (·.1 ≠ fd)).length + 1 = table.length := by
  induction table with
  | nil => cases h
  | cons e table ih =>
      obtain ⟨hfresh, hrest⟩ := List.nodup_cons.mp hnodup
      by_cases he : e.1 = fd
      · have hkeep : table.filter (·.1 ≠ fd) = table := by
          apply List.filter_eq_self.mpr
          intro e' he'
          apply decide_eq_true
          intro heq
          exact hfresh (he ▸ heq ▸ List.mem_map_of_mem (f := Prod.fst) he')
        rw [List.filter_cons_of_neg (by simp [he]), hkeep, List.length_cons]
      · have hlater := (List.mem_cons.mp h).resolve_left (Ne.symm he)
        rw [List.filter_cons_of_pos (by simp [he]), List.length_cons, List.length_cons,
          ih hrest hlater]

theorem mem_fds_filter {table : List (Fd × Nat)} {fd' : Fd} :
    fd' ∈ (table.filter (·.1 ≠ fd)).map Prod.fst ↔ fd' ∈ table.map Prod.fst ∧ fd' ≠ fd := by
  simp only [List.mem_map, List.mem_filter, decide_eq_true_eq]
  constructor
  · rintro ⟨e, ⟨he, hne⟩, rfl⟩
    exact ⟨⟨e, he, rfl⟩, hne⟩
  · rintro ⟨⟨e, he, rfl⟩, hne⟩
    exact ⟨e, ⟨he, hne⟩, rfl⟩

/-! ## The limit -/

/-- **The limit on open files bounds `cur_fds`**: the connections share the
descriptors below `MAXEPOLL` with `listen_fd` and `epoll_fd`. -/
theorem Sound.room (h : Sound d s) : s.curFds < MAXEPOLL := by
  have hnodup : (d.listenFd :: d.epollFd :: s.table.map Prod.fst).Nodup := by
    refine List.nodup_cons.mpr ⟨?_, List.nodup_cons.mpr ⟨?_, h.distinct⟩⟩
    · intro hmem
      rcases List.mem_cons.mp hmem with heq | hmem
      · exact d.listen_ne_epoll heq
      · exact (h.limited _ hmem).2.1 rfl
    · intro hmem
      exact (h.limited _ hmem).2.2 rfl
  have hsub : (d.listenFd :: d.epollFd :: s.table.map Prod.fst) ⊆ List.range MAXEPOLL := by
    intro fd hmem
    rw [List.mem_range]
    rcases List.mem_cons.mp hmem with rfl | hmem
    · exact d.listen_lt
    rcases List.mem_cons.mp hmem with rfl | hmem
    · exact d.epoll_lt
    · exact (h.limited fd hmem).1
  have hle := (List.subperm_of_subset hnodup hsub).length_le
  rw [List.length_cons, List.length_cons, List.length_map, List.length_range] at hle
  have hcount := h.counted
  omega

/-- **What the branch that reads gets is a connection**, never the listening
descriptor. -/
theorem Sound.fd_of_readTurn {rest : List Fd} (h : Sound d s) (hbatch : s.events.batch = fd :: rest)
    (hbranch : ¬ s.Accepts d fd) : fd ≠ d.listenFd ∧ fd ∈ s.table.map Prod.fst := by
  have hne : fd ≠ d.listenFd := fun heq => hbranch ⟨heq, h.room⟩
  have hmem : fd ∈ s.events.batch := by
    rw [hbatch]
    exact List.mem_cons_self
  exact ⟨hne, (h.raised fd (.inr hmem)).resolve_left hne⟩

/-! ## Every action keeps them -/

theorem sound_init (buf : List Byte) : Sound d (World.init buf) where
  counted := rfl
  listens := rfl
  distinct := List.nodup_nil
  limited := by
    intro fd h
    cases h
  raised := by
    intro fd h
    rcases h with h | h <;> cases h
  busy := by
    intro fd nread h
    cases h

theorem Sound.raised_raise (h : Sound d s) :
    ∀ fd, fd ∈ (s.raise c).ready ∨ fd ∈ (s.raise c).batch →
      fd = d.listenFd ∨ fd ∈ s.table.map Prod.fst := by
  rintro fd (hready | hbatch)
  · rcases mem_raise hready with hready | htable
    · exact h.raised fd (.inl hready)
    · exact .inr htable
  · exact h.raised fd (.inr (batch_raise (s := s) (c := c) ▸ hbatch))

theorem Sound.accept {queue : List Nat} {connFd : Fd} {rest : List Fd} (h : Sound d s)
    (hpc : s.pc = .loop) (hbatch : s.events.batch = d.listenFd :: rest)
    (hfresh : s.freshFd d = some connFd) : Sound d (s.accept onAdd c queue connFd) := by
  obtain ⟨hlt, hepoll, hlisten, hnew⟩ := freshFd_spec hfresh
  refine ⟨?_, h.listens, ?_, ?_, ?_, ?_⟩
  · show s.curFds + 1 = 1 + ((s.table.length + 1 : Nat) : Int)
    have := h.counted
    omega
  · exact List.nodup_cons.mpr ⟨hnew, h.distinct⟩
  · intro fd hfd
    rcases List.mem_cons.mp hfd with rfl | hfd
    · exact ⟨hlt, hlisten h.listens, hepoll⟩
    · exact h.limited fd hfd
  · rintro fd (hready | hb)
    · rcases mem_register hready with hready | rfl
      · exact (h.raised fd (.inl hready)).imp id (List.mem_cons_of_mem connFd)
      · exact .inr List.mem_cons_self
    · rw [World.accept, batch_register] at hb
      have hmem := ((Events.mem_next hbatch).mp hb).1
      exact (h.raised fd (.inr hmem)).imp id (List.mem_cons_of_mem connFd)
  · intro fd nread hw
    exact absurd (hpc.symm.trans hw) (by simp)

theorem Sound.hangUp {rest : List Fd} (h : Sound d s) (hpc : s.pc = .loop)
    (hbatch : s.events.batch = fd :: rest) (hbranch : ¬ s.Accepts d fd) :
    Sound d (s.hangUp d fd) := by
  obtain ⟨hne, hopen⟩ := h.fd_of_readTurn hbatch hbranch
  refine ⟨?_, ?_, ?_, ?_, ?_, ?_⟩
  · show s.curFds - 1 = 1 + ((s.table.filter (·.1 ≠ fd)).length : Int)
    have hlen := length_filter_table h.distinct hopen
    have := h.counted
    omega
  · show (s.listening && decide (fd ≠ d.listenFd)) = true
    rw [h.listens, decide_eq_true hne]
    rfl
  · exact h.distinct.sublist (List.filter_sublist.map Prod.fst)
  · intro fd' hfd'
    exact h.limited fd' (mem_fds_filter.mp hfd').1
  · intro fd' hfd'
    have hkept : (fd' ∈ s.events.ready ∨ fd' ∈ s.events.batch) ∧ fd' ≠ fd := by
      rcases hfd' with hready | hb
      · obtain ⟨hready, hne'⟩ := Events.mem_forget.mp hready
        exact ⟨.inl hready, hne'⟩
      · obtain ⟨hb, hne'⟩ := (Events.mem_next hbatch).mp hb
        exact ⟨.inr hb, hne'⟩
    exact (h.raised fd' hkept.1).imp id fun hmem => mem_fds_filter.mpr ⟨hmem, hkept.2⟩
  · intro fd' nread hw
    exact absurd (hpc.symm.trans hw) (by simp)

theorem Sound.read {rest : List Fd} (h : Sound d s) (hbatch : s.events.batch = fd :: rest)
    (hclient : s.clientOf fd = some c) : Sound d (s.read fd c) := by
  refine { h with raised := ?_, busy := ?_ }
  · intro fd' hfd'
    exact h.raised fd' (hfd'.imp id fun hb => ((Events.mem_next hbatch).mp hb).1)
  · intro fd' nread hw
    cases hw
    exact mem_fds_of_clientOf hclient

theorem Sound.keeps {a : Action} (h : Sound d s) (hm : Moves d onAdd s a t) : Sound d t := by
  cases hm with
  | connect hpc =>
      refine { h with raised := ?_ }
      rintro fd (hready | hbatch)
      · rcases Events.mem_notify.mp hready with hready | rfl
        · exact h.raised fd (.inl hready)
        · exact .inl rfl
      · exact h.raised fd (.inr hbatch)
  | send hc hmore hbytes => exact { h with raised := h.raised_raise }
  | close hc hgone => exact { h with raised := h.raised_raise }
  | wait hwaits hn hready hroom =>
      refine { h with raised := ?_ }
      intro fd hfd
      exact h.raised fd (.inl (Events.mem_of_mem_wait hfd))
  | exit =>
      refine { h with busy := ?_ }
      intro fd nread hpc
      cases hpc
  | accept hpc hbatch hqueue hfresh => exact h.accept hpc hbatch hfresh
  | hangUp hpc hbatch hbranch => exact h.hangUp hpc hbatch hbranch
  | read hpc hbatch hbranch hclient hunread => exact h.read hbatch hclient
  | echo hpc hclient hgone =>
      refine { h with busy := ?_ }
      intro fd nread hw
      cases hw
  | lose hpc =>
      refine { h with busy := ?_ }
      intro fd nread hw
      cases hw

theorem sound_reachable (h : Reachable d onAdd s) : Sound d s :=
  invariant_of_moves sound_init (fun _ _ _ => Sound.keeps) h

/-- **The descriptors, in every world the server can get into**: `cur_fds`
is one more than the open connections and below `MAXEPOLL`, so `epoll_wait`
is asked for at least one event and at most as many as `evs` holds, and the
listening descriptor is open and never what the branch that reads works on. -/
theorem descriptors_sound (h : Reachable d onAdd s) :
    s.curFds = 1 + s.table.length ∧ s.curFds < MAXEPOLL
      ∧ (s.Waits → 0 < s.curFds ∧ s.curFds ≤ MAXEPOLL)
      ∧ s.listening = true
      ∧ ∀ fd rest, s.pc = .loop → s.events.batch = fd :: rest → ¬ s.Accepts d fd →
          fd ≠ d.listenFd := by
  have hs := sound_reachable h
  have hroom := hs.room
  refine ⟨hs.counted, hroom, ?_, hs.listens, ?_⟩
  · intro _
    have := hs.counted
    exact ⟨by omega, Int.le_of_lt hroom⟩
  · intro fd rest _ hbatch hbranch
    exact (hs.fd_of_readTurn hbatch hbranch).1

/-- A process started from a shell. -/
def typical : Descriptors := ⟨3, 4, [0, 1, 2], by decide, by decide, by decide⟩

/-- One client has connected and is accepted. -/
def oneClient : World := run typical true (World.init []) [.connect, .wait 1, .serve false]

theorem descriptors_sound_oneClient :
    oneClient.curFds = 1 + oneClient.table.length ∧ oneClient.curFds < MAXEPOLL
      ∧ (oneClient.Waits → 0 < oneClient.curFds ∧ oneClient.curFds ≤ MAXEPOLL)
      ∧ oneClient.listening = true
      ∧ ∀ fd rest, oneClient.pc = .loop → oneClient.events.batch = fd :: rest →
          ¬ oneClient.Accepts typical fd → fd ≠ typical.listenFd :=
  descriptors_sound ⟨[], run_reaches (World.init []) [.connect, .wait 1, .serve false]⟩

end BeEasy.Epoll
