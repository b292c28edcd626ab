import PeerNet.Peer.Registry
import PeerNet.Proofs.Codec.Payload

/-!
# The registry and its counts

The registry keeps, beside the live connections, how many of them come from each address.  The count
is a second copy of what the connections say themselves (`Registry.countFrom`), changed apart from
them on two paths, and both paths bring the address to normal form first.  `Registry.Consistent`
says that the copy is exact: every address with a live connection has an entry with their number,
and no other address has one.

A registration either says which cap is met or adds one connection (`Registry.Registration`); all
else that is done to a registry takes connections away or leaves them where they are
(`Registry.Shrinks`).
-/

namespace PeerNet

namespace Registry

/-- How many live connections come from an address in normal form. -/
def countFrom (r : Registry) (ip : Ip) : Nat := r.peers.countP (·.2.address == ip)

/-- The numbers of the live connections, in order of admission. -/
def ids (r : Registry) : List PeerId := r.peers.map Prod.fst

/-- A registry with one more connection. -/
def joinedBy (r : Registry) (remote : Endpoint) (direction : Direction) : Registry where
  peers := r.peers ++ [(⟨r.lastId + 1⟩, .ofRemote remote direction)]
  perAddress := r.perAddress.insert remote.ip.normal (r.countFrom remote.ip.normal + 1)
  lastId := r.lastId + 1

/-- What a registry keeps of its connections agrees with the connections. -/
structure Consistent (r : Registry) : Prop where
  /-- Exactly the addresses with a live connection have an entry, with the number of them. -/
  counted : ∀ ip, r.perAddress[ip]? = if r.countFrom ip = 0 then none else some (r.countFrom ip)
  ordered : r.ids.Pairwise (·.number < ·.number)
  bounded : ∀ id ∈ r.ids, id.number ≤ r.lastId

variable {r r' : Registry} {id : PeerId} {entry : PeerEntry}

/-- A registry without connections has nothing to agree with. -/
lemma consistent_empty : empty.Consistent where
  counted _ := Std.HashMap.getElem?_empty
  ordered := .nil
  bounded := List.forall_mem_nil _

/-- The entry of an address, or zero, is the number of its connections. -/
lemma Consistent.connectionsFrom_eq (h : r.Consistent) (ip : Ip) :
    r.connectionsFrom ip = r.countFrom ip.normal := by
  rw [connectionsFrom, Std.HashMap.getD_eq_getD_getElem?, h.counted]
  split_ifs with hzero
  · exact hzero.symm
  · rfl

/-- No number is given to two connections. -/
lemma Consistent.nodup_ids (h : r.Consistent) : r.ids.Nodup :=
  h.ordered.imp fun hlt heq => absurd (congrArg PeerId.number heq) (Nat.ne_of_lt hlt)

/-- A live connection has its place in the list of connections. -/
lemma exists_append_of_get? (h : r.get? id = some entry) :
    ∃ before behind, r.peers = before ++ (id, entry) :: behind := by
  obtain ⟨before, behind, hpeers, -⟩ := List.lookup_eq_some_iff.mp h
  exact ⟨before, behind, hpeers⟩

/-- A live connection counts for its address. -/
lemma countFrom_pos_of_get? (h : r.get? id = some entry) : 0 < r.countFrom entry.address := by
  obtain ⟨before, behind, hpeers⟩ := exists_append_of_get? h
  refine List.countP_pos_iff.mpr ⟨(id, entry), ?_, beq_self_eq_true _⟩
  rw [hpeers]
  exact List.mem_append_right _ List.mem_cons_self

/-! ## Registration -/

/-- What a registration comes to. -/
inductive Registration (r : Registry) (remote : Endpoint) (direction : Direction)
    (maxConnections maxPerAddress : Nat) : Except DisconnectReason (Registry × PeerId) → Prop
  | full (hfull : maxConnections ≤ r.size) :
    Registration r remote direction maxConnections maxPerAddress (.error .maxConnectionReached)
  | crowded (hroom : r.size < maxConnections)
    (hcrowded : maxPerAddress ≤ r.countFrom remote.ip.normal) :
    Registration r remote direction maxConnections maxPerAddress
      (.error .maxConnectionPerAddressReached)
  | admitted {r' : Registry} (hroom : r.size < maxConnections)
    (hshare : r.countFrom remote.ip.normal < maxPerAddress)
    (hpeers : r'.peers = r.peers ++ [(⟨r.lastId + 1⟩, .ofRemote remote direction)])
    (hlast : r'.lastId = r.lastId + 1) (hconsistent : r'.Consistent) :
    Registration r remote direction maxConnections maxPerAddress (.ok (r', ⟨r.lastId + 1⟩))

/-- One connection more from an address is one more in its count. -/
lemma Consistent.insert (h : r.Consistent) (remote : Endpoint) (direction : Direction) :
    (⟨r.peers ++ [(⟨r.lastId + 1⟩, .ofRemote remote direction)],
      r.perAddress.insert remote.ip.normal (r.countFrom remote.ip.normal + 1),
      r.lastId + 1⟩ : Registry).Consistent := by
  refine ⟨fun ip => ?_, ?_, ?_⟩
  · have hadded : (⟨r.peers ++ [(⟨r.lastId + 1⟩, .ofRemote remote direction)],
        r.perAddress.insert remote.ip.normal (r.countFrom remote.ip.normal + 1),
        r.lastId + 1⟩ : Registry).countFrom ip =
        r.countFrom ip + if remote.ip.normal = ip then 1 else 0 := by
      simp [countFrom, PeerEntry.ofRemote, PeerEntry.address, List.countP_append,
        List.countP_singleton]
    rw [hadded, Std.HashMap.getElem?_insert, h.counted]
    by_cases hip : remote.ip.normal = ip
    · subst hip
      simp
    · simp [hip]
  · rw [ids, List.map_append]
    refine List.pairwise_append.mpr ⟨h.ordered, List.pairwise_singleton _ _, ?_⟩
    intro id hid new hnew
    rw [List.mem_singleton.mp hnew]
    exact Nat.lt_succ_of_le (h.bounded id hid)
  · intro id hid
    rw [ids, List.map_append, List.mem_append] at hid
    rcases hid with hid | hid
    · exact Nat.le_succ_of_le (h.bounded id hid)
    · rw [List.mem_singleton.mp hid]

/-- A stream is registered if there is room for it, and refused by the cap that it meets if not. -/
lemma Consistent.registration (h : r.Consistent) (remote : Endpoint) (direction : Direction)
    (maxConnections maxPerAddress : Nat) :
    r.Registration remote direction maxConnections maxPerAddress
      (r.register remote direction maxConnections maxPerAddress) := by
  have hcount : r.connectionsFrom remote.ip.normal = r.countFrom remote.ip.normal := by
    rw [h.connectionsFrom_eq, Ip.normal_normal]
  rw [register, hcount]
  split_ifs with hfull hcrowded
  · exact .full hfull
  · exact .crowded (Nat.lt_of_not_le hfull) hcrowded
  · exact .admitted (Nat.lt_of_not_le hfull) (Nat.lt_of_not_le hcrowded) rfl rfl
      (h.insert remote direction)

/-! ## Removal and change -/

/-- A registry without some of its connections, and otherwise the same. -/
structure Shrinks (r r' : Registry) : Prop where
  ids_sublist : r'.ids.Sublist r.ids
  countFrom_le : ∀ ip, r'.countFrom ip ≤ r.countFrom ip
  lastId_eq : r'.lastId = r.lastId
  consistent : r.Consistent → r'.Consistent

lemma Shrinks.refl (r : Registry) : r.Shrinks r := ⟨.refl _, fun _ => le_rfl, rfl, id⟩

/-- A registry that has lost connections is no larger. -/
lemma Shrinks.size_le (h : r.Shrinks r') : r'.size ≤ r.size := by
  have hlength := h.ids_sublist.length_le
  rwa [ids, ids, List.length_map, List.length_map] at hlength

/-- Where the numbers are distinct, removing one takes out one connection. -/
lemma filter_ne_eq {before behind : List (PeerId × PeerEntry)}
    (hnodup : ((before ++ (id, entry) :: behind).map Prod.fst).Nodup) :
    (before ++ (id, entry) :: behind).filter (·.1 != id) = before ++ behind := by
  rw [List.map_append, List.map_cons, List.nodup_middle, List.nodup_cons, ← List.map_append]
    at hnodup
  have hother : (before ++ behind).filter (·.1 != id) = before ++ behind := by
    rw [List.filter_eq_self]
    intro p hp
    have hne : p.1 ≠ id := by
      rintro rfl
      exact hnodup.1 (List.mem_map.mpr ⟨p, hp, rfl⟩)
    simpa using hne
  rw [List.filter_append] at hother ⊢
  rw [List.filter_cons_of_neg (by simp), hother]

/-- Without a connection there is one less from its address. -/
lemma Consistent.countFrom_remove (h : r.Consistent) (hlive : r.get? id = some entry) (ip : Ip) :
    (r.remove id).1.countFrom ip + (if entry.address = ip then 1 else 0) = r.countFrom ip := by
  obtain ⟨before, behind, hpeers⟩ := exists_append_of_get? hlive
  have hnodup := h.nodup_ids
  rw [ids, hpeers] at hnodup
  have hleft : (r.remove id).1.peers = before ++ behind := by
    rw [remove, hlive]
    exact (congrArg (List.filter _) hpeers).trans (filter_ne_eq hnodup)
  rw [countFrom, countFrom, hleft, hpeers, List.countP_append, List.countP_append,
    List.countP_cons]
  simp only [beq_iff_eq]
  omega

/-- Taking a connection away takes nothing else. -/
lemma shrinks_remove (r : Registry) (id : PeerId) : r.Shrinks (r.remove id).1 := by
  cases hlive : r.get? id with
  | none =>
    rw [remove, hlive]
    exact .refl r
  | some entry =>
    have hpeers : (r.remove id).1.peers = r.peers.filter (·.1 != id) := by rw [remove, hlive]
    have hsublist : (r.remove id).1.peers.Sublist r.peers := hpeers ▸ List.filter_sublist
    have hlast : (r.remove id).1.lastId = r.lastId := by rw [remove, hlive]
    refine ⟨hsublist.map _, fun ip => hsublist.countP_le, hlast,
      fun h => ⟨fun ip => ?_, h.ordered.sublist (hsublist.map _), fun other hother => ?_⟩⟩
    · have hcount := h.countFrom_remove hlive ip
      have hentry : (r.remove id).1.perAddress[ip]? =
          if r.countFrom entry.address - 1 = 0 then (r.perAddress.erase entry.address)[ip]?
          else (r.perAddress.insert entry.address (r.countFrom entry.address - 1))[ip]? := by
        rw [remove, hlive, apply_ite fun counts : Std.HashMap Ip Nat => counts[ip]?]
        simp only [h.connectionsFrom_eq, PeerEntry.address]
        rfl
      rw [hentry, Std.HashMap.getElem?_erase, Std.HashMap.getElem?_insert, h.counted]
      by_cases hip : entry.address = ip
      · subst hip
        rw [if_pos rfl] at hcount
        rw [← hcount]
        simp
      · simp only [if_neg hip, Nat.add_zero] at hcount
        simp [hip, hcount]
    · rw [hlast]
      exact h.bounded other ((hsublist.map _).subset hother)

/-- All but the connection that is removed stay live. -/
lemma mem_ids_remove {other : PeerId} :
    other ∈ (r.remove id).1.ids ↔ other ∈ r.ids ∧ other ≠ id := by
  cases hlive : r.get? id with
  | none =>
    rw [remove, hlive]
    refine ⟨fun hother => ⟨hother, ?_⟩, And.left⟩
    rintro rfl
    obtain ⟨p, hp, rfl⟩ := List.mem_map.mp hother
    exact bne_iff_ne.mp (List.lookup_eq_none_iff.mp hlive p hp) rfl
  | some entry =>
    have hpeers : (r.remove id).1.peers = r.peers.filter (·.1 != id) := by rw [remove, hlive]
    rw [ids, hpeers, ids, List.mem_map, List.mem_map]
    constructor
    · rintro ⟨p, hp, rfl⟩
      obtain ⟨hmem, hne⟩ := List.mem_filter.mp hp
      exact ⟨⟨p, hmem, rfl⟩, bne_iff_ne.mp hne⟩
    · rintro ⟨⟨p, hp, rfl⟩, hne⟩
      exact ⟨p, List.mem_filter.mpr ⟨hp, bne_iff_ne.mpr hne⟩, rfl⟩

/-- Changing a connection gives no number out and takes none back. -/
lemma ids_modify (r : Registry) (id : PeerId) (f : PeerEntry → PeerEntry) :
    (r.modify id f).ids = r.ids := by
  rw [ids, modify, List.map_map]
  refine List.map_congr_left fun (other, e) _ => ?_
  by_cases hid : other = id <;> simp [hid]

/-- What is kept of a connection may change, as long as its remote stays. -/
lemma shrinks_modify (r : Registry) (id : PeerId) {f : PeerEntry → PeerEntry}
    (hremote : ∀ e, (f e).remote = e.remote) : r.Shrinks (r.modify id f) := by
  have hids := r.ids_modify id f
  have hcount : ∀ ip, (r.modify id f).countFrom ip = r.countFrom ip := by
    intro ip
    rw [countFrom, modify, List.countP_map, countFrom]
    refine List.countP_congr fun (other, e) _ => ?_
    by_cases hid : other = id <;> simp [hid, PeerEntry.address, hremote]
  refine ⟨hids ▸ .refl _, fun ip => (hcount ip).le, rfl, fun h => ⟨fun ip => ?_, ?_, ?_⟩⟩
  · rw [hcount]
    exact h.counted ip
  · rw [hids]
    exact h.ordered
  · rw [hids]
    exact h.bounded

end Registry

end PeerNet
