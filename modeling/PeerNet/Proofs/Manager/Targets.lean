import PeerNet.Proofs.Manager.Step

/-!
# Whom the manager turns to

Whatever the manager has sent goes to connections that are ready, and so does every address that it
suggests lead to one (`Manager.Concerns`).  Only the order to leave, when the node stops, goes to
all connections.  The choices of the node come in where addresses are drawn, and it is enough that
they choose from what there is (`Choices.Selects`).
-/

namespace PeerNet

/-- Choices that choose from what there is. -/
structure Choices.Selects (choices : Choices) : Prop where
  order_subset : ∀ entries, choices.order entries ⊆ entries
  drawRecords_subset : ∀ count records, choices.drawRecords count records ⊆ records

/-- Taking what comes first is choosing from what there is. -/
lemma Choices.selects_first : Choices.first.Selects :=
  ⟨fun entries => List.Subset.refl entries, fun count records => List.take_subset count records⟩

/-- Under which record a peer is suggested. -/
lemma PeerEntry.suggestion_eq_some {e : PeerEntry} {record : AddressRecord}
    (h : e.suggestion = some record) :
    ∃ v, e.version = some v ∧ record = .ofIp e.address v.timestamp v.capabilities := by
  obtain ⟨v, hversion, hlistener⟩ := Option.bind_eq_some_iff.mp h
  obtain ⟨port, -, hrecord⟩ := Option.map_eq_some_iff.mp hlistener
  exact ⟨v, hversion, hrecord.symm⟩

namespace Manager

/-- The effects that concern none but connections that are ready, and all others that send nothing
to a peer and suggest nothing. -/
inductive Concerns (m : Manager) (choices : Choices) : ManagerEffect → Prop
  | command {p : PeerId × PeerEntry} (hready : p ∈ m.registry.ready) (c : SessionCommand) :
    Concerns m choices (.command p.1 c)
  | farewell (peer : PeerId) : Concerns m choices (.command peer (.disconnect .shutdown))
  | addresses (peer : PeerId) :
    Concerns m choices (.answer peer (.addresses (m.connectedPeers choices maxSuggestions)))
  | verdict (peer : PeerId) (v : Except DisconnectReason Unit) :
    Concerns m choices (.answer peer (.verdict v))
  | notice {reason : DisconnectReason} {d : Disconnect}
    (hnotice : rejectionNotice reason (m.connectedPeers choices maxSuggestions) = some d) :
    Concerns m choices (.rejected (some d))
  | silence : Concerns m choices (.rejected none)
  | accepted (peer : PeerId) : Concerns m choices (.accepted peer)
  | dial (endpoint : Endpoint) : Concerns m choices (.dial endpoint)
  | report (peer : PeerId) (r : TaskReport) : Concerns m choices (.report peer r)
  | stopped (callers : List Nat) : Concerns m choices (.stopped callers)

variable {m : Manager} {choices : Choices} {moment : Moment}

/-! ## What is suggested -/

/-- The records kept, one for each address, are some of those there are, in their order. -/
lemma onePerAddress_sublist (seen : List Ip) (records : List AddressRecord) :
    (onePerAddress seen records).Sublist records := by
  induction records generalizing seen with
  | nil => exact .slnil
  | cons r rest ih =>
    rw [onePerAddress]
    split
    · exact (ih seen).cons r
    · exact (ih (r.ip :: seen)).cons_cons r

/-- Every suggestion is that of a connection that is ready. -/
lemma exists_ready_of_mem_connectedPeers (hselects : choices.Selects) {count : Nat}
    {record : AddressRecord} (h : record ∈ m.connectedPeers choices count) :
    ∃ p ∈ m.registry.ready, p.2.suggestion = some record := by
  have hdrawn := hselects.drawRecords_subset _ _ h
  obtain ⟨p, hp, hsuggestion⟩ := List.mem_filterMap.mp ((onePerAddress_sublist _ _).subset hdrawn)
  obtain ⟨hordered, hready⟩ := List.mem_filter.mp hp
  exact ⟨p, List.mem_filter.mpr ⟨hselects.order_subset _ hordered, hready⟩, hsuggestion⟩

/-- The records that fit are some of those there are. -/
lemma fitting_subset (records : List AddressRecord) : fitting records ⊆ records := by
  induction records using fitting.induct with
  | case1 records hfits =>
    rw [fitting, if_pos hfits]
    exact List.Subset.refl records
  | case2 hlong =>
    rw [fitting, if_neg hlong, if_pos rfl]
    exact List.Subset.refl []
  | case3 records hlong hnonempty ih =>
    rw [fitting, if_neg hlong, if_neg hnonempty]
    exact List.Subset.trans ih (List.dropLast_sublist records).subset

/-- What a notice carries is the encoding of some of the records that it was made from. -/
lemma data_of_rejectionNotice {reason : DisconnectReason} {records : List AddressRecord}
    {d : Disconnect} (h : rejectionNotice reason records = some d) :
    d.data = AddressRecord.encodeList (fitting records) := by
  rw [rejectionNotice, Disconnect.create] at h
  split_ifs at h <;> simp_all [Except.toOption]
  rw [← h]

/-! ## A command -/

/-- An order to all connections that are ready concerns none but these. -/
lemma forall_concerns_ready {f : PeerId × PeerEntry → SessionCommand} :
    ∀ effect ∈ m.registry.ready.map fun p => ManagerEffect.command p.1 (f p),
      m.Concerns choices effect := by
  intro effect heffect
  obtain ⟨p, hp, rfl⟩ := List.mem_map.mp heffect
  exact .command hp _

/-- An announcement goes to connections that are ready. -/
lemma announce_concerns (m : Manager) (choices : Choices) (inventory : Inventory)
    (source : Option PeerId) :
    ∀ effect ∈ m.announce inventory source, m.Concerns choices effect := by
  intro effect heffect
  obtain ⟨p, hp, rfl⟩ := List.mem_map.mp heffect
  exact .command (List.mem_filter.mp hp).1 _

/-- A stream that asks to become a connection is accepted, or turned away, with a notice of
suggestions if with any. -/
lemma connect_concerns (m : Manager) (choices : Choices) (remote : Endpoint)
    (direction : Direction) :
    ∀ effect ∈ (m.connect choices remote direction).2, m.Concerns choices effect := by
  rw [connect]
  split
  · exact List.forall_mem_singleton.mpr .silence
  · split
    · exact List.forall_mem_singleton.mpr (.accepted _)
    · rw [reject]
      split
      · exact List.forall_mem_singleton.mpr .silence
      · split
        · exact List.forall_mem_singleton.mpr .silence
        · next hnotice => exact List.forall_mem_singleton.mpr (.notice hnotice)

/-- A notice brings an answer to its own session, and announcements to connections that are
ready. -/
lemma onNotice_concerns (m : Manager) (choices : Choices) (moment : Moment) (peer : PeerId)
    (n : PeerNotice) :
    ∀ effect ∈ (m.onNotice choices moment peer n).2, m.Concerns choices effect := by
  cases n with
  | introduced version => exact List.forall_mem_singleton.mpr (.verdict _ _)
  | addressRequest => exact List.forall_mem_singleton.mpr (.addresses _)
  | delivered inventory =>
    exact List.forall_mem_cons.mpr ⟨.report _ _, m.announce_concerns choices inventory _⟩
  | remoteHeight height =>
    rw [onNotice, raiseHeight]
    split
    · exact List.forall_mem_nil _
    · split
      · exact List.forall_mem_singleton.mpr (.report _ _)
      · exact List.forall_mem_nil _
  | ready | filterChanged filter | suggested records | disconnected => exact List.forall_mem_nil _

/-- An attempt that begins sends nothing to a peer. -/
lemma dialSome_concerns (m : Manager) (choices : Choices) (wanted : Nat)
    (candidates : List Endpoint) :
    ∀ effect ∈ (m.dialSome choices wanted candidates).2, m.Concerns choices effect :=
  List.forall_mem_map.mpr fun _ _ => .dial _

/-- Looking for connections has peers asked for addresses only if they are ready. -/
lemma discover_concerns (m : Manager) (choices : Choices) :
    ∀ effect ∈ (m.discover choices).2, m.Concerns choices effect := by
  simp only [discover]
  split
  · exact List.forall_mem_nil _
  · split
    · exact m.dialSome_concerns choices _ _
    · split
      · exact forall_concerns_ready
      · exact m.dialSome_concerns choices _ _

/-- Every command concerns connections that are ready, or sends nothing and suggests nothing. -/
lemma handle_concerns (m : Manager) (choices : Choices) (moment : Moment) (c : ManagerCommand) :
    ∀ effect ∈ (m.handle choices moment c).2, m.Concerns choices effect := by
  cases c with
  | connect remote direction => exact m.connect_concerns choices remote direction
  | notice peer n => exact m.onNotice_concerns choices moment peer n
  | relay inventory => exact m.announce_concerns choices inventory none
  | broadcast message => exact forall_concerns_ready
  | tick =>
    rw [handle]
    split
    · exact m.discover_concerns choices
    · exact List.forall_mem_nil _
  | shutdown caller =>
    rw [handle, beginShutdown]
    split
    · exact List.forall_mem_map.mpr fun _ _ => .farewell _
    · exact List.forall_mem_nil _
    · exact List.forall_mem_nil _
  | addPeers endpoints | inspect | dialFinished endpoint | rejectionFinished =>
    exact List.forall_mem_nil _

/-- This holds of all that taking a command has done, stopping included. -/
lemma step_concerns (m : Manager) (choices : Choices) (moment : Moment) (c : ManagerCommand) :
    ∀ effect ∈ (m.step choices moment c).2, m.Concerns choices effect := by
  cases hlive : m.isStopped with
  | true =>
    rw [step_of_stopped hlive]
    exact List.forall_mem_nil _
  | false =>
    rw [step_of_live hlive]
    refine List.forall_mem_append.mpr ⟨m.handle_concerns choices moment c, ?_⟩
    rw [stopIfDone]
    split
    · split
      · exact List.forall_mem_singleton.mpr (.stopped _)
      · exact List.forall_mem_nil _
    · exact List.forall_mem_nil _
    · exact List.forall_mem_nil _

end Manager

end PeerNet
