import PeerNet.Peer.AddressBook
import PeerNet.Proofs.Codec.Payload

/-!
# Filing a record, and the port it is filed under

A list of capabilities is read in two ways.  `Capability.listenerPort` passes over a TCP server with
port zero, `Capability.listenerTcpPort` stops there, and so does the endpoint of a record.  They
agree unless the first TCP server of the list has port zero
(`Capability.listenerTcpPort_eq_some_iff`).  The address book goes by the endpoint: a record either
has no place in it, or finds its endpoint there, or is put at its end while there is room
(`AddressBook.Filing`).
-/

namespace PeerNet

namespace Capability

variable {cs : List Capability} {p : UInt16}

/-- The first TCP server has a real port exactly if no TCP server with port zero is in front of the
first one with a real port. -/
lemma listenerTcpPort_eq_some_iff :
    listenerTcpPort cs = some p ∧ 0 < p ↔
      listenerPort cs = some p ∧ listenerTcpPort cs ≠ some 0 := by
  induction cs with
  | nil => exact ⟨fun h => absurd h.1 nofun, fun h => absurd h.1 nofun⟩
  | cons c cs ih =>
    cases c with
    | wsServer | fullNode => exact ih
    | tcpServer port =>
      have hfirst : listenerTcpPort (.tcpServer port :: cs) = some port := rfl
      by_cases hport : port = 0
      · refine ⟨fun h => ?_, fun h => absurd (hfirst.trans (congrArg some hport)) h.2⟩
        obtain rfl := Option.some.inj (hfirst.symm.trans h.1)
        exact absurd hport (UInt16.pos_iff_ne_zero.mp h.2)
      · have hpos : 0 < port := UInt16.pos_iff_ne_zero.mpr hport
        have hreal : listenerPort (.tcpServer port :: cs) = some port := by
          rw [listenerPort, List.findSome?_cons, tcpPort?, Option.filter_some,
            if_pos (decide_eq_true hpos)]
        rw [hfirst, hreal]
        refine ⟨fun h => ⟨h.1, fun hzero => hport (Option.some.inj hzero)⟩, fun h => ⟨h.1, ?_⟩⟩
        rwa [← Option.some.inj h.1]

end Capability

namespace AddressRecord

variable {cs : List Capability} {ip : Ip} {timestamp : UInt32} {p : UInt16}

/-- A record leads to a real port exactly if that is the port at which connections are accepted and
no TCP server with port zero comes before. -/
lemma endpoint_ofIp_eq_iff :
    (ofIp ip timestamp cs).endpoint = ⟨ip.normal, p⟩ ∧ 0 < p ↔
      Capability.listenerPort cs = some p ∧ Capability.listenerTcpPort cs ≠ some 0 := by
  rw [← Capability.listenerTcpPort_eq_some_iff, and_congr_left_iff]
  intro hp
  change (⟨ip.normal, (Capability.listenerTcpPort cs).getD 0⟩ : Endpoint) = ⟨ip.normal, p⟩ ↔ _
  rw [Endpoint.mk.injEq, Option.getD_eq_iff]
  refine ⟨fun h => h.2.resolve_right fun hzero => ?_, fun h => ⟨rfl, .inl h⟩⟩
  exact UInt16.pos_iff_ne_zero.mp hp hzero.2.symm

/-- A record whose first listener has port zero has an endpoint that cannot be dialed. -/
lemma port_endpoint_of_zero (h : Capability.listenerTcpPort cs = some 0) :
    (ofIp ip timestamp cs).endpoint.port = 0 := by
  change (Capability.listenerTcpPort cs).getD 0 = 0
  rw [h]
  rfl

end AddressRecord

namespace AddressBook

variable {b : AddressBook} {record : AddressRecord} {key : Endpoint} {now : Nat}

/-- What filing a record comes to. -/
inductive Filing (b : AddressBook) (record : AddressRecord) (now : Nat) : AddressBook × Bool → Prop
  | unreachable (hkey : key? record = none) : Filing b record now (b, false)
  | renewed {key : Endpoint} (hkey : key? record = some key) (hknown : key ∈ b.endpoints) :
    Filing b record now
      ({ b with
         entries := b.entries.map fun (k, e) => if k = key then (k, ⟨record, now⟩) else (k, e) },
        false)
  | crowdedOut {key : Endpoint} (hkey : key? record = some key) (hnew : key ∉ b.endpoints)
    (hfull : b.maxSize ≤ b.size) : Filing b record now (b, false)
  | appended {key : Endpoint} (hkey : key? record = some key) (hnew : key ∉ b.endpoints)
    (hroom : b.size < b.maxSize) :
    Filing b record now ({ b with entries := b.entries ++ [(key, ⟨record, now⟩)] }, true)

/-- An endpoint is found among the entries just if it is one of those of the book. -/
lemma any_eq_true_iff : b.entries.any (·.1 == key) = true ↔ key ∈ b.endpoints := by
  rw [List.any_eq_true, endpoints, List.mem_map]
  exact exists_congr fun _ => and_congr_right fun _ => beq_iff_eq

/-- A record is passed over, put in the place of an older one, or added, or finds no room. -/
lemma add_filing (b : AddressBook) (record : AddressRecord) (now : Nat) :
    b.Filing record now (b.add record now) := by
  rw [add]
  split
  · next hkey => exact .unreachable hkey
  · next key hkey =>
    split
    · next hknown => exact .renewed hkey (any_eq_true_iff.mp hknown)
    · next hnew =>
      have hnew : key ∉ b.endpoints := fun hknown => hnew (any_eq_true_iff.mpr hknown)
      split
      · next hfull => exact .crowdedOut hkey hnew hfull
      · next hroom => exact .appended hkey hnew (Nat.lt_of_not_le hroom)

/-- A record that can be reached is in the book afterwards, if there was room for it or its endpoint
was known. -/
lemma mem_add (hkey : key? record = some key) (hroom : b.size < b.maxSize ∨ key ∈ b.endpoints) :
    (key, ⟨record, now⟩) ∈ (b.add record now).1.entries := by
  have hfiling := b.add_filing record now
  generalize b.add record now = r at hfiling
  cases hfiling with
  | unreachable hnone => exact absurd (hkey.symm.trans hnone) nofun
  | renewed hkey' hknown =>
    obtain rfl := Option.some.inj (hkey.symm.trans hkey')
    obtain ⟨p, hp, rfl⟩ := List.mem_map.mp hknown
    exact List.mem_map.mpr ⟨p, hp, if_pos rfl⟩
  | crowdedOut hkey' hnew hfull =>
    obtain rfl := Option.some.inj (hkey.symm.trans hkey')
    exact absurd hroom (not_or.mpr ⟨Nat.not_lt.mpr hfull, hnew⟩)
  | appended hkey' =>
    obtain rfl := Option.some.inj (hkey.symm.trans hkey')
    exact List.mem_append_right _ (List.mem_singleton.mpr rfl)

/-- The endpoint under which the record of an address is filed. -/
lemma key?_ofIp {ip : Ip} {timestamp : UInt32} {cs : List Capability} {p : UInt16}
    (hendpoint : (AddressRecord.ofIp ip timestamp cs).endpoint = ⟨ip.normal, p⟩) (hport : 0 < p)
    (hip : ip.normal.isUnspecified = false) :
    key? (.ofIp ip timestamp cs) = some ⟨ip.normal, p⟩ := by
  have hreal : ¬ (p = 0 ∨ ip.normal.isUnspecified = true) :=
    not_or.mpr ⟨UInt16.pos_iff_ne_zero.mp hport, Bool.eq_false_iff.mp hip⟩
  rw [key?, hendpoint]
  dsimp only
  rw [if_neg hreal, Endpoint.normal, Ip.normal_normal]

/-- A record whose endpoint has port zero is passed over. -/
lemma add_of_port_eq_zero (hport : record.endpoint.port = 0) (b : AddressBook) (now : Nat) :
    b.add record now = (b, false) := by
  rw [add, key?]
  dsimp only
  rw [if_pos (.inl hport)]

end AddressBook

end PeerNet
