import PeerNet.Frame.Reader

/-!
# Pipes

A pipe carries bytes in one direction and holds a limited number of them. A write to a pipe is
refused once either end is closed; a read ends once the writing end is closed and everything written
has been read.
-/

namespace PeerNet

/-- One direction of a stream. -/
structure Pipe where
  /-- How many bytes may be under way. -/
  capacity : Nat
  /-- What the reading end sees. -/
  inlet : Inlet
  /-- Whether the reading end is closed. -/
  abandoned : Bool

namespace Pipe

/-- A pipe with nothing in it. -/
def ofCapacity (capacity : Nat) : Pipe := ⟨capacity, .empty, false⟩

/-- Whether writes are refused. -/
def isBroken (p : Pipe) : Bool := p.abandoned || p.inlet.ending.isSome

/-- How many bytes can be written at once. -/
def room (p : Pipe) : Nat := p.capacity - p.inlet.arrived.length

/-- Writes as many bytes as there is room for, and gives back the others. -/
def put (p : Pipe) (bs : Bytes) : Pipe × Bytes :=
  ({ p with inlet := { p.inlet with arrived := p.inlet.arrived ++ bs.take p.room } },
    bs.drop p.room)

/-- Closes the writing end. What was written can still be read. -/
def close (p : Pipe) : Pipe := { p with inlet := p.inlet.finish .closed }

/-- Closes the reading end. -/
def abandon (p : Pipe) : Pipe := { p with abandoned := true }

end Pipe

/-- A write that is not complete. -/
structure Writing where
  /-- The bytes for which there was no room yet. -/
  rest : Bytes
  /-- When it is given up. -/
  deadline : Nat

/-- How a write stands. -/
inductive WriteStatus
  | underWay (w : Writing)
  | over (complete : Bool)

namespace Writing

/-- Whether a write can only wait: the pipe is whole but full, and there is still time. -/
def mustWait (w : Writing) (p : Pipe) (now : Nat) : Bool :=
  !p.isBroken && p.room == 0 && now < w.deadline

/-- Goes on with a write as far as there is room, or answers `none` if it has to wait. -/
def proceed? (w : Writing) (p : Pipe) (now : Nat) : Option (Pipe × WriteStatus) :=
  if w.mustWait p now then none
  else if p.isBroken || p.room == 0 then some (p, .over false)
  else
    let (p, rest) := p.put w.rest
    some (p, if rest.isEmpty then .over true else .underWay { w with rest })

/-- A write goes on just when it need not wait. -/
theorem isSome_proceed? (w : Writing) (p : Pipe) (now : Nat) :
    (w.proceed? p now).isSome = !w.mustWait p now := by
  unfold proceed?
  split
  · simp [*]
  · split <;> simp_all

end Writing

end PeerNet
