import PeerNet.Proofs.Handler.Reordering

/-!
# What a handler still has to hear from a peer of its own kind

A peer of its own kind sends its version, later its acknowledgement, and everyday traffic after
that.  What the handler has not heard yet depends on its state and on whether the peer has
acknowledged already (`HandshakeState.Expects`).  The peer may go on as it does, a message may be
handled before those that it overtakes, and a redundant request may be left out; a handler that has
heard all has either taken part in the whole handshake or waits for the acknowledgement, with good
reason (`Expects.of_nil`).
-/

namespace PeerNet

namespace HandshakeState

open Mailbox (Overtakes)

/-- What follows the version of a peer: nothing until the peer acknowledges ours, then the
acknowledgement and everyday traffic. -/
inductive FollowsVersion : Bool → List Command → Prop
  | nothing : FollowsVersion false []
  | verack {traffic : List Command} (htraffic : ∀ c ∈ traffic, c.isOperational = true) :
    FollowsVersion true (.verack :: traffic)

/-- What a peer may say next: its acknowledgement if that is still to come, everyday traffic if
not. -/
def MaySay (acknowledged : Bool) (c : Command) : Prop :=
  if acknowledged then c.isOperational = true else c = .verack

/-- What a handler still has to hear from a peer that has acknowledged its version, or has not. -/
inductive Expects (acknowledged : Bool) : HandshakeState → List Command → Prop
  | version {cs : List Command} (hrest : FollowsVersion acknowledged cs) :
    Expects acknowledged .awaitingVersion (.version :: cs)
  | verack {cs : List Command} (hrest : FollowsVersion acknowledged cs) :
    Expects acknowledged .awaitingVerack cs
  | traffic {cs : List Command} (hacknowledged : acknowledged = true)
    (htraffic : ∀ c ∈ cs, c.isOperational = true) : Expects acknowledged .ready cs
  | stopped (cs : List Command) : Expects acknowledged .stopped cs

variable {acknowledged : Bool} {s : HandshakeState} {c : Command} {cs before after : List Command}

/-! ## The peer goes on -/

/-- A peer that says what it may say next still says nothing out of turn. -/
lemma FollowsVersion.append (h : FollowsVersion acknowledged cs) (hc : MaySay acknowledged c) :
    FollowsVersion true (cs ++ [c]) := by
  cases h with
  | nothing =>
    rw [show c = .verack from hc]
    exact .verack (List.forall_mem_nil _)
  | verack htraffic => exact .verack (List.forall_mem_append.mpr
    ⟨htraffic, List.forall_mem_singleton.mpr hc⟩)

/-- The peer says what it may say. -/
lemma Expects.append (h : s.Expects acknowledged cs) (hc : MaySay acknowledged c) :
    s.Expects true (cs ++ [c]) := by
  cases h with
  | version hrest => exact .version (hrest.append hc)
  | verack hrest => exact .verack (hrest.append hc)
  | traffic hacknowledged htraffic =>
    subst hacknowledged
    exact .traffic rfl (List.forall_mem_append.mpr
      ⟨htraffic, List.forall_mem_singleton.mpr hc⟩)
  | stopped => exact .stopped _

/-! ## The handler goes on -/

/-- Everyday traffic passes the gate of a handler at work, which stays at work. -/
lemma next_ready_of_isOperational (hc : c.isOperational = true) :
    gate .ready c ≠ .violation ∧ next .ready c = .ready := by
  have hgate : gate .ready c = .dispatch := Handler.gate_eq_dispatch_iff.mpr ⟨rfl, hc⟩
  rw [next, hgate]
  exact ⟨GateDecision.noConfusion, rfl⟩

/-- A command may be handled before those that it overtakes. -/
lemma Expects.take (h : s.Expects acknowledged (before ++ c :: after))
    (hover : Overtakes c before) :
    gate s c ≠ .violation ∧ (s.next c).Expects acknowledged (before ++ after) := by
  generalize hcs : before ++ c :: after = cs at h
  cases h with
  | version hrest =>
    obtain ⟨rfl, rfl, rfl⟩ := eq_nil_of_overtakes hcs.symm (by decide) hover
    exact ⟨by decide, .verack hrest⟩
  | verack hrest =>
    cases hrest with
    | nothing => exact absurd hcs (by simp)
    | verack htraffic =>
      obtain ⟨rfl, rfl, rfl⟩ := eq_nil_of_overtakes hcs.symm (by decide) hover
      exact ⟨by decide, .traffic rfl htraffic⟩
  | traffic hacknowledged htraffic =>
    subst hcs
    obtain ⟨hc, hothers⟩ := forall_mem_append_cons htraffic
    obtain ⟨hgate, hnext⟩ := next_ready_of_isOperational hc
    rw [hnext]
    exact ⟨hgate, .traffic hacknowledged hothers⟩
  | stopped => exact ⟨by simp [gate], .stopped _⟩

/-- What is left is still in order when a command is dropped for which another one stands. -/
lemma FollowsVersion.drop (h : FollowsVersion acknowledged (before ++ c :: after))
    (hc : c ∈ MailboxItem.deduplicatedCommands) :
    FollowsVersion acknowledged (before ++ after) := by
  generalize hcs : before ++ c :: after = cs at h
  cases h with
  | nothing => exact absurd hcs (by simp)
  | verack htraffic =>
    cases before with
    | nil =>
      obtain ⟨rfl, -⟩ := List.cons_eq_cons.mp hcs
      exact absurd hc (by decide)
    | cons d before =>
      obtain ⟨rfl, rfl⟩ := List.cons_eq_cons.mp hcs
      exact .verack (forall_mem_append_cons htraffic).2

/-- A request of which one is enough may be left out. -/
lemma Expects.drop (h : s.Expects acknowledged (before ++ c :: after))
    (hc : c ∈ MailboxItem.deduplicatedCommands) : s.Expects acknowledged (before ++ after) := by
  generalize hcs : before ++ c :: after = cs at h
  cases h with
  | version hrest =>
    cases before with
    | nil =>
      obtain ⟨rfl, -⟩ := List.cons_eq_cons.mp hcs
      exact absurd hc (by decide)
    | cons d before =>
      obtain ⟨rfl, rfl⟩ := List.cons_eq_cons.mp hcs
      exact .version (hrest.drop hc)
  | verack hrest =>
    subst hcs
    exact .verack (hrest.drop hc)
  | traffic hacknowledged htraffic =>
    subst hcs
    exact .traffic hacknowledged (forall_mem_append_cons htraffic).2
  | stopped => exact .stopped _

/-- Who has heard all waits for the acknowledgement of the peer, which has not sent any, or is at
work, or has stopped. -/
lemma Expects.of_nil (h : s.Expects acknowledged []) :
    (s = .awaitingVerack ∧ acknowledged = false) ∨ s = .ready ∨ s = .stopped := by
  cases h with
  | verack hrest =>
    cases hrest
    exact .inl ⟨rfl, rfl⟩
  | traffic => exact .inr (.inl rfl)
  | stopped => exact .inr (.inr rfl)

end HandshakeState

end PeerNet
