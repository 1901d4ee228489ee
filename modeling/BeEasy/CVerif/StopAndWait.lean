import Mathlib.Data.List.Basic

/-!
# CVerif — StopAndWait

A client that sends one request at a time and waits for the reply, a
server that answers requests in the order in which they come, and a channel
in each direction that keeps the order and may lose any message.

`Conf` keeps what was issued and what was served as lists, so the
guarantees are about lists: at most one message is on its way, and the
served requests are the issued ones, without the last at most
(`Phase.served_or`). Without a loss a waiting client has exactly one message
on its way (`Lossless`), so it never waits for nothing.
-/

namespace CVerif.StopAndWait

/-- A configuration: requests issued, whether the client waits, requests on
their way, requests served, replies on their way. -/
structure Conf (α β : Type) where
  issued : List α
  waiting : Bool
  requests : List α
  served : List α
  replies : List β

variable {α β : Type}

namespace Conf

def init : Conf α β := ⟨[], false, [], [], []⟩

def issue (c : Conf α β) (a : α) : Conf α β :=
  { c with issued := c.issued ++ [a], waiting := true, requests := c.requests ++ [a] }

def serve (c : Conf α β) (a : α) (rest : List α) (b : β) : Conf α β :=
  { c with requests := rest, served := c.served ++ [a], replies := c.replies ++ [b] }

def accept (c : Conf α β) (rest : List β) : Conf α β :=
  { c with waiting := false, replies := rest }

end Conf

/-- The steps of the two parties. -/
inductive Reliable : Conf α β → Conf α β → Prop
  | issue {c} (a : α) (hidle : c.waiting = false) : Reliable c (c.issue a)
  | serve {c a rest} (b : β) (hq : c.requests = a :: rest) : Reliable c (c.serve a rest b)
  | accept {c b rest} (hwait : c.waiting = true) (hq : c.replies = b :: rest) :
      Reliable c (c.accept rest)

/-- The steps of the two parties and of the channels. -/
inductive Step : Conf α β → Conf α β → Prop
  | party {c d} (h : Reliable c d) : Step c d
  | loseRequest {c rest} (h : rest.Sublist c.requests) : Step c { c with requests := rest }
  | loseReply {c rest} (h : rest.Sublist c.replies) : Step c { c with replies := rest }

/-- Where the exchange about the last request stands. -/
inductive Phase : Conf α β → Prop
  | idle (done : List α) : Phase ⟨done, false, [], done, []⟩
  | asked (done : List α) (a : α) : Phase ⟨done ++ [a], true, [a], done, []⟩
  | answered (done : List α) (a : α) (b : β) :
      Phase ⟨done ++ [a], true, [], done ++ [a], [b]⟩
  | requestLost (done : List α) (a : α) : Phase ⟨done ++ [a], true, [], done, []⟩
  | replyLost (done : List α) (a : α) : Phase ⟨done ++ [a], true, [], done ++ [a], []⟩

section Invariant

variable {c d : Conf α β}

theorem phase_init : Phase (Conf.init : Conf α β) := .idle []

theorem Phase.reliable (h : Phase c) (hstep : Reliable c d) : Phase d := by
  cases hstep with
  | issue a hidle =>
      cases h with
      | idle done => exact .asked done a
      | _ => cases hidle
  | serve b hq =>
      cases h with
      | asked done a =>
          cases hq
          exact .answered done _ b
      | _ => cases hq
  | accept hwait hq =>
      cases h with
      | answered done a b =>
          cases hq
          exact .idle _
      | _ => cases hq

/-- At most one message is on its way in each direction. -/
theorem Phase.short (h : Phase c) : c.requests.length ≤ 1 ∧ c.replies.length ≤ 1 := by
  cases h with
  | asked done a => exact ⟨Nat.le_refl 1, Nat.zero_le 1⟩
  | answered done a b => exact ⟨Nat.zero_le 1, Nat.le_refl 1⟩
  | _ => exact ⟨Nat.zero_le 1, Nat.zero_le 1⟩

theorem Phase.dropRequests (h : Phase c) : Phase ({ c with requests := [] } : Conf α β) := by
  cases h with
  | idle done => exact .idle done
  | asked done a => exact .requestLost done a
  | answered done a b => exact .answered done a b
  | requestLost done a => exact .requestLost done a
  | replyLost done a => exact .replyLost done a

theorem Phase.dropReplies (h : Phase c) : Phase ({ c with replies := [] } : Conf α β) := by
  cases h with
  | idle done => exact .idle done
  | asked done a => exact .asked done a
  | answered done a b => exact .replyLost done a
  | requestLost done a => exact .requestLost done a
  | replyLost done a => exact .replyLost done a

/-- What is left of a short queue: all of it or nothing. -/
theorem sublist_short {γ : Type} {queue rest : List γ} (h : rest.Sublist queue)
    (hshort : queue.length ≤ 1) : rest = queue ∨ rest = [] := by
  cases rest with
  | nil => exact .inr rfl
  | cons a rest =>
      have hlen : queue.length ≤ (a :: rest).length := by
        rw [List.length_cons]
        omega
      exact .inl (h.eq_of_length_le hlen)

theorem Phase.step (h : Phase c) (hstep : Step c d) : Phase d := by
  cases hstep with
  | party hparty => exact h.reliable hparty
  | loseRequest hsub =>
      rcases sublist_short hsub h.short.1 with rfl | rfl
      · exact h
      · exact h.dropRequests
  | loseReply hsub =>
      rcases sublist_short hsub h.short.2 with rfl | rfl
      · exact h
      · exact h.dropReplies

/-- A client that does not wait has been answered in full. -/
theorem Phase.quiet (h : Phase c) (hidle : c.waiting = false) :
    c.requests = [] ∧ c.replies = [] ∧ c.served = c.issued := by
  cases h with
  | idle done => exact ⟨rfl, rfl, rfl⟩
  | _ => cases hidle

/-- A request on its way is the last one issued and the only message. -/
theorem Phase.next {a : α} {rest : List α} (h : Phase c) (hq : c.requests = a :: rest) :
    rest = [] ∧ c.replies = [] ∧ c.waiting = true ∧ c.issued = c.served ++ [a] := by
  cases h with
  | asked done a =>
      cases hq
      exact ⟨rfl, rfl, rfl, rfl⟩
  | _ => cases hq

/-- A reply on its way is the only message, and all requests were served. -/
theorem Phase.answer {b : β} {rest : List β} (h : Phase c) (hq : c.replies = b :: rest) :
    rest = [] ∧ c.requests = [] ∧ c.waiting = true ∧ c.served = c.issued := by
  cases h with
  | answered done a b =>
      cases hq
      exact ⟨rfl, rfl, rfl, rfl⟩
  | _ => cases hq

/-- **Nothing is lost in the middle, repeated or reordered**: all issued
requests were served, or all but the one the client waits for. -/
theorem Phase.served_or (h : Phase c) :
    c.served = c.issued ∨ c.waiting = true ∧ ∃ a, c.issued = c.served ++ [a] := by
  cases h with
  | idle done => exact .inl rfl
  | asked done a => exact .inr ⟨rfl, a, rfl⟩
  | answered done a b => exact .inl rfl
  | requestLost done a => exact .inr ⟨rfl, a, rfl⟩
  | replyLost done a => exact .inl rfl

/-- Exactly one message is on its way while the client waits, and none
otherwise. -/
def Lossless (c : Conf α β) : Prop :=
  c.requests.length + c.replies.length = c.waiting.toNat

theorem lossless_init : Lossless (Conf.init : Conf α β) := rfl

theorem Phase.lossless (hphase : Phase c) (hstep : Reliable c d) : Lossless d := by
  cases hstep with
  | issue a hidle =>
      obtain ⟨hreq, hrep, _⟩ := hphase.quiet hidle
      simp [Lossless, Conf.issue, hreq, hrep]
  | serve b hq =>
      obtain ⟨hrest, hrep, hwait, _⟩ := hphase.next hq
      simp [Lossless, Conf.serve, hrest, hrep, hwait]
  | accept hwait hq =>
      obtain ⟨hrest, hreq, _⟩ := hphase.answer hq
      simp [Lossless, Conf.accept, hrest, hreq]

/-- Without a loss some message is on its way to a waiting client. -/
theorem Lossless.moves (h : Lossless c) (hwait : c.waiting = true) :
    (∃ a rest, c.requests = a :: rest) ∨ ∃ b rest, c.replies = b :: rest := by
  cases hreq : c.requests with
  | cons a rest => exact .inl ⟨a, rest, rfl⟩
  | nil =>
      cases hrep : c.replies with
      | cons b rest => exact .inr ⟨b, rest, rfl⟩
      | nil =>
          rw [Lossless, hreq, hrep, hwait] at h
          cases h

end Invariant

end CVerif.StopAndWait
