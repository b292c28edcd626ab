import PeerNet.Proofs.Session.Hearing
import PeerNet.Proofs.Simulation.Stream

/-!
# The moves of a session at its line

There are three: nothing happens, the write goes on, or the session takes a turn, and the pipe takes
some bytes in the last two (`Line.Run.Moves`).  What is said later about a session at its line goes
through these cases.

All else that happens at the line, short of a change of the pipes by the other end, leaves the
session and what it has written alone, and nothing is lost of what the session is still to hear
(`Line.Run.Quiet`).
-/

namespace PeerNet

/-- A pipe takes bytes, and changes in no other way that its reader could notice. -/
structure Pipe.Takes (p p' : Pipe) (sent : Bytes) : Prop where
  arrived : p'.inlet.arrived = p.inlet.arrived ++ sent
  ending : p'.inlet.ending = p.inlet.ending

lemma Pipe.Takes.refl (p : Pipe) : p.Takes p [] := ⟨(List.append_nil _).symm, rfl⟩

namespace Line

open Session (Turn)

variable {settings : Settings} {ledger : Ledger} {moment : Moment} {l : Line}

/-- A write puts some bytes on the pipe. -/
lemma takes_of_proceed? {w : Writing} {p p' : Pipe} {now : Nat} {status : WriteStatus}
    (h : w.proceed? p now = some (p', status)) : ∃ sent, p.Takes p' sent := by
  rw [Writing.proceed?] at h
  split at h
  · cases h
  · split at h
    · cases h
      exact ⟨[], .refl p⟩
    · cases h
      exact ⟨_, rfl, rfl⟩

/-! ## Effects at the line -/

/-- The connection at the node's end, if there is one. -/
def connection? (l : Line) : Option Connection :=
  match l.localEnd with
  | .connection _ c _ _ => some c
  | .notice _ | .closed => none

lemma connection?_of_localEnd {peer : PeerId} {c : Connection} {writing : Option Writing}
    {nextTimer : Nat} (hend : l.localEnd = .connection peer c writing nextTimer) :
    l.connection? = some c := by
  rw [connection?, hend]

lemma localEnd_ne_closed {c : Connection} (hc : l.connection? = some c) :
    l.localEnd ≠ .closed := by
  intro hclosed
  rw [connection?, hclosed] at hc
  exact Option.noConfusion rfl (heq_of_eq hc)

/-- The effects of a turn leave the connection as it is, or close its end. -/
lemma connection?_foldl_apply (now : Nat) (effects : List SessionEffect) (l : Line) :
    (effects.foldl (apply now) l).connection? = none ∨
      (effects.foldl (apply now) l).connection? = l.connection? := by
  induction effects generalizing l with
  | nil => exact .inr rfl
  | cons effect rest ih =>
    have heffect : (l.apply now effect).connection? = none ∨
        (l.apply now effect).connection? = l.connection? := by
      cases effect with
      | write m =>
        right
        cases hend : l.localEnd <;> simp [apply, connection?, hend]
      | close => exact .inl rfl
      | notify n => exact .inr rfl
      | report r => exact .inr rfl
    rw [List.foldl_cons]
    rcases ih (l.apply now effect) with hnone | hsame
    · exact .inl hnone
    · rwa [hsame]

/-- Nothing is lost of what arrived at either end. -/
lemma inlet_foldl_apply (now : Nat) (effects : List SessionEffect) (l : Line) :
    (effects.foldl (apply now) l).toNode.inlet = l.toNode.inlet := by
  induction effects generalizing l with
  | nil => rfl
  | cons effect rest ih =>
    rw [List.foldl_cons, ih]
    cases effect with
    | write m =>
      rw [apply]
      split <;> rfl
    | close => rfl
    | notify n => rfl
    | report r => rfl

/-- A stream that is closed is not reset. -/
lemma ending_foldl_apply (now : Nat) (effects : List SessionEffect) (l : Line)
    (h : l.toRemote.inlet.ending ≠ some .reset) :
    (effects.foldl (apply now) l).toRemote.inlet.ending ≠ some .reset := by
  induction effects generalizing l with
  | nil => exact h
  | cons effect rest ih =>
    refine ih _ ?_
    cases effect with
    | write m =>
      rw [apply]
      split <;> exact h
    | close =>
      rw [apply, hangUp, Pipe.close, Inlet.finish, if_neg h]
      exact fun hclosed => StreamEnd.noConfusion (Option.some.inj hclosed)
    | notify n => exact h
    | report r => exact h

namespace Run

/-- What the session does at its line, with the bytes that the pipe takes. -/
inductive Moves (settings : Settings) (ledger : Ledger) (moment : Moment) (run : Run) : Run → Prop
  | rests : Moves settings ledger moment run run
  | writes {peer : PeerId} {c : Connection} {w w' : Writing} {nextTimer : Nat} {toRemote : Pipe}
    {sent : Bytes} (hend : run.line.localEnd = .connection peer c (some w) nextTimer)
    (htakes : run.line.toRemote.Takes toRemote sent) :
    Moves settings ledger moment run
      ⟨{ run.line with localEnd := .connection peer c (some w') nextTimer, toRemote },
        run.turns, run.sent ++ sent⟩
  | turn {peer : PeerId} {c c' : Connection} {writing : Option Writing} {nextTimer : Nat}
    {toRemote : Pipe} {sent : Bytes} {input : SessionInput}
    (hend : run.line.localEnd = .connection peer c writing nextTimer)
    (hinput : c.TakesUp moment.now input c') (htakes : run.line.toRemote.Takes toRemote sent)
    (hturn : run.line.turn? ledger moment = some ⟨c'.session, ledger, moment, input⟩) :
    Moves settings ledger moment run
      ⟨(c'.advance settings ledger moment input).2.foldl (apply moment.now)
        { run.line with
          localEnd := .connection peer (c'.advance settings ledger moment input).1 none nextTimer
          toRemote },
        run.turns ++ [⟨c'.session, ledger, moment, input⟩], run.sent ++ sent⟩

/-- Every event of the session is one of its moves. -/
lemma moves (settings : Settings) (ledger : Ledger) (moment : Moment) (run : Run) :
    Moves settings ledger moment run (run.advance settings (.session ledger moment)) := by
  cases hend : run.line.localEnd with
  | connection peer c writing nextTimer =>
    cases writing with
    | some w =>
      rcases hproceed : w.proceed? run.line.toRemote moment.now with _ | ⟨toRemote, status⟩
      · have hadvance : run.advance settings (.session ledger moment) = run := by
          simp [advance, moveSession, hend, hproceed]
        rw [hadvance]
        exact .rests
      · obtain ⟨sent, htakes⟩ := takes_of_proceed? hproceed
        have hsent : toRemote.inlet.arrived.drop run.line.toRemote.inlet.arrived.length = sent := by
          rw [htakes.arrived, List.drop_left]
        rcases status with w' | complete
        · have hadvance : run.advance settings (.session ledger moment) =
              ⟨{ run.line with localEnd := .connection peer c (some w') nextTimer, toRemote },
                run.turns, run.sent ++ sent⟩ := by
            simp [advance, moveSession, turn?, hend, hproceed, hsent]
          rw [hadvance]
          exact .writes hend htakes
        · have hturn : run.line.turn? ledger moment =
              some ⟨c.session, ledger, moment, .written complete⟩ := by
            simp [turn?, hend, hproceed]
          have hadvance : run.advance settings (.session ledger moment) =
              ⟨(c.advance settings ledger moment (.written complete)).2.foldl (apply moment.now)
                { run.line with
                  localEnd := .connection peer
                    (c.advance settings ledger moment (.written complete)).1 none nextTimer
                  toRemote },
                run.turns ++ [⟨c.session, ledger, moment, .written complete⟩],
                run.sent ++ sent⟩ := by
            simp [advance, moveSession, turn?, hend, hproceed, arrived_foldl_apply, hsent]
          rw [hadvance]
          exact .turn hend (.written complete) htakes hturn
    | none =>
      rcases hnext : c.next? moment.now with _ | ⟨input, c'⟩
      · have hadvance : run.advance settings (.session ledger moment) = run := by
          simp [advance, moveSession, hend, hnext]
        rw [hadvance]
        exact .rests
      · have hturn : run.line.turn? ledger moment =
            some ⟨c'.session, ledger, moment, input⟩ := by
          simp [turn?, hend, hnext]
        have hadvance : run.advance settings (.session ledger moment) =
            ⟨(c'.advance settings ledger moment input).2.foldl (apply moment.now)
              { run.line with
                localEnd := .connection peer (c'.advance settings ledger moment input).1 none
                  nextTimer },
              run.turns ++ [⟨c'.session, ledger, moment, input⟩], run.sent ++ []⟩ := by
          simp [advance, moveSession, turn?, hend, hnext, arrived_foldl_apply]
        rw [hadvance]
        exact .turn hend (.next hnext) (.refl _) hturn
  | notice w | closed =>
    have hadvance : run.advance settings (.session ledger moment) = run := by
      simp [advance, moveSession, hend]
    rw [hadvance]
    exact .rests

/-- What happens aside from the session. -/
structure Quiet (run run' : Run) : Prop where
  turns : run'.turns = run.turns
  sent : run'.sent = run.sent
  toRemote : run'.line.toRemote = run.line.toRemote
  ending : run'.line.toNode.inlet.ending = run.line.toNode.inlet.ending
  hears : ∀ c', run'.line.connection? = some c' → ∃ c, run.line.connection? = some c ∧
    ∀ coming acknowledged, c.Hears run.line.toNode.inlet.arrived coming acknowledged →
      c'.Hears run'.line.toNode.inlet.arrived coming acknowledged

lemma Quiet.refl (run : Run) : run.Quiet run :=
  ⟨rfl, rfl, rfl, rfl, fun c hc => ⟨c, hc, fun _ _ => id⟩⟩

/-- What is left at a connection does not concern what its session hears. -/
lemma quiet_deliver (run : Run) {f : Connection → Connection}
    (hsession : ∀ c, (f c).session = c.session) (hmailbox : ∀ c, (f c).mailbox = c.mailbox)
    (hintake : ∀ c, (f c).intake = c.intake) :
    run.Quiet { run with line := run.line.deliver f } := by
  cases hend : run.line.localEnd with
  | connection peer c writing nextTimer =>
    rw [deliver, hend]
    refine ⟨rfl, rfl, rfl, rfl, fun c' hc' => ?_⟩
    cases hc'
    refine ⟨c, connection?_of_localEnd hend, fun coming acknowledged hhears => ?_⟩
    exact hhears.congr (by rw [hsession]) (hmailbox c) (hintake c)
  | notice w | closed =>
    rw [deliver, hend]
    exact .refl run

/-- The timer is nothing that the session does. -/
lemma quiet_ring (run : Run) (settings : Settings) (now : Nat) :
    run.Quiet { run with line := run.line.ring settings now } := by
  rw [ring]
  split
  · next hend =>
    split
    · refine ⟨rfl, rfl, rfl, rfl, fun c' hc' => ?_⟩
      cases hc'
      exact ⟨_, connection?_of_localEnd hend, fun coming acknowledged hhears => hhears.ring⟩
    · exact .refl run
  · exact .refl run
  · exact .refl run

/-- Reading is nothing that the session does, and it does not break a pipe that was intact. -/
lemma quiet_intake (run : Run) (hintact : run.line.toNode.inlet.ending ≠ some .reset) :
    run.Quiet { run with line := (run.line.moveIntake.map Move.line).getD run.line } := by
  rw [moveIntake]
  split
  · next c _ _ hend =>
    split
    · exact .refl run
    · refine ⟨rfl, rfl, rfl, Intake.ending_step c.intake _ c.mailbox, fun c' hc' => ?_⟩
      cases hc'
      exact ⟨c, connection?_of_localEnd hend, fun coming acknowledged hhears =>
        hhears.intake hintact⟩
  · exact .refl run
  · exact .refl run

end Run

end Line

end PeerNet
