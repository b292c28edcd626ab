import PeerNet.Proofs.Peer.AddressBook

/-!
# What an address book has of the records filed

Records are filed one after the other, each at its time.  The endpoints that can be reached, each
where it first comes (`AddressBook.reached`), fill the book from the front until there is no more
room.  From then on the book has the same endpoints for ever, but a record for one of them is still
taken over: with every endpoint stands what was filed for it last (`AddressBook.latest?`), and no
other record can be filed for it, since a record is filed under its own endpoint.

That a step keeps this is `AddressBook.Lists.add`; a run keeps it by induction.
-/

namespace PeerNet

namespace AddressBook

/-- A record and the time at which it is filed. -/
abbrev Sighting := AddressRecord × Nat

/-- The book with records filed one after the other. -/
def addAll (b : AddressBook) (seen : List Sighting) : AddressBook :=
  seen.foldl (fun b s => (b.add s.1 s.2).1) b

/-- Whether an endpoint has a port and an address to connect to. -/
def canReach (e : Endpoint) : Bool := e.port != 0 && !e.ip.isUnspecified

/-- The endpoints that can be reached, each where it first comes. -/
def reached (seen : List Sighting) : List Endpoint :=
  ((seen.map fun s => s.1.endpoint).filter canReach).eraseDups

/-- What was filed last for an endpoint. -/
def latest? (seen : List Sighting) (e : Endpoint) : Option Sighting :=
  (seen.filter fun s => s.1.endpoint = e).getLast?

/-! ## One more record -/

section EraseDups

variable {α : Type} [DecidableEq α]

lemma eraseDups_concat (xs : List α) (x : α) :
    (xs ++ [x]).eraseDups = xs.eraseDups ++ if x ∈ xs then [] else [x] := by
  rw [List.eraseDups_append]
  congr 1
  split_ifs with hmem <;> simp [List.removeAll, List.eraseDups_cons, hmem]

/-- What is kept is there once. -/
lemma nodup_eraseDups (xs : List α) : xs.eraseDups.Nodup := by
  induction xs using List.reverseRecOn with
  | nil => exact List.nodup_nil
  | append_singleton xs x ih =>
    rw [eraseDups_concat]
    split_ifs with hmem
    · rwa [List.append_nil]
    · refine List.nodup_append.mpr ⟨ih, List.nodup_singleton x, ?_⟩
      rintro y hy _ hx rfl
      rw [List.mem_singleton.mp hx, List.mem_eraseDups] at hy
      exact hmem hy

end EraseDups

variable {b : AddressBook} {seen : List Sighting} {record : AddressRecord} {now : Nat}
  {e : Endpoint}

/-- No endpoint is listed twice among those that were reached. -/
lemma nodup_reached (seen : List Sighting) : (reached seen).Nodup := nodup_eraseDups _

/-- What was reached can be reached. -/
lemma canReach_of_mem_reached (h : e ∈ reached seen) : canReach e = true :=
  (List.mem_filter.mp (List.mem_eraseDups.mp h)).2

/-- An endpoint comes in at the end, if it can be reached and is new. -/
lemma reached_concat (seen : List Sighting) (s : Sighting) :
    reached (seen ++ [s]) = reached seen ++
      if canReach s.1.endpoint ∧ s.1.endpoint ∉ reached seen then [s.1.endpoint] else [] := by
  unfold reached
  rw [List.map_append, List.filter_append, List.map_singleton]
  by_cases hreach : canReach s.1.endpoint
  · rw [List.filter_cons_of_pos hreach, List.filter_nil, eraseDups_concat]
    congr 1
    simp only [hreach, true_and, List.mem_eraseDups, ite_not]
  · rw [List.filter_cons_of_neg hreach, List.filter_nil, List.append_nil, if_neg (by simp [hreach]),
      List.append_nil]

/-- What is filed now is the latest for its endpoint. -/
lemma latest?_concat_self (seen : List Sighting) (s : Sighting) :
    latest? (seen ++ [s]) s.1.endpoint = some s := by
  rw [latest?, List.filter_append, List.filter_cons_of_pos (by simp), List.filter_nil,
    List.getLast?_concat]

/-- What is filed for one endpoint is not the latest for any other. -/
lemma latest?_concat_of_ne {s : Sighting} (h : s.1.endpoint ≠ e) :
    latest? (seen ++ [s]) e = latest? seen e := by
  rw [latest?, List.filter_append, List.filter_cons_of_neg (by simpa using h), List.filter_nil,
    List.append_nil, latest?]

/-- A record in normal form is filed under its endpoint, if that can be reached. -/
lemma key?_of_normal (h : record.Normal) :
    key? record = if canReach record.endpoint then some record.endpoint else none := by
  have hip : record.endpoint.ip.normal = record.endpoint.ip := h
  rw [key?, Endpoint.normal, hip]
  by_cases hport : record.endpoint.port = 0 <;>
    cases hhost : record.endpoint.ip.isUnspecified <;> simp [canReach, hport, hhost]

/-- A record is filed under its own endpoint, if that can be reached. -/
lemma canReach_of_key?_eq_some (h : record.Normal) (hkey : key? record = some e) :
    canReach e = true ∧ record.endpoint = e := by
  rw [key?_of_normal h] at hkey
  obtain ⟨hreach, hsame⟩ := Option.ite_none_right_eq_some.mp hkey
  obtain rfl := Option.some.inj hsame
  exact ⟨hreach, rfl⟩

/-- A record that is not filed has an endpoint that cannot be reached. -/
lemma canReach_of_key?_eq_none (h : record.Normal) (hkey : key? record = none) :
    canReach record.endpoint = false := by
  rw [key?_of_normal h] at hkey
  by_contra hreach
  rw [if_pos (Bool.eq_true_of_not_eq_false hreach)] at hkey
  exact absurd hkey nofun

/-! ## The book -/

/-- The book has the endpoints that were reached first, as many as there is room for, and with each
of them what was filed for it last. -/
structure Lists (b : AddressBook) (seen : List Sighting) : Prop where
  endpoints_eq : b.endpoints = (reached seen).take b.maxSize
  latest : ∀ p ∈ b.entries, latest? seen p.1 = some (p.2.record, p.2.lastSeen)

/-- An empty book lists what was filed before anything was. -/
lemma lists_ofSize (maxSize : Nat) : (ofSize maxSize).Lists [] where
  endpoints_eq := List.take_nil.symm
  latest := fun _ hp => absurd hp List.not_mem_nil

/-- A book is as large as what was reached, up to its room. -/
lemma Lists.size_eq (h : b.Lists seen) : b.size = min b.maxSize (reached seen).length := by
  have hlength := congrArg List.length h.endpoints_eq
  rwa [endpoints, List.length_map, List.length_take] at hlength

lemma maxSize_add (b : AddressBook) (record : AddressRecord) (now : Nat) :
    (b.add record now).1.maxSize = b.maxSize := by
  have hfiling := b.add_filing record now
  generalize b.add record now = r at hfiling
  cases hfiling <;> rfl

/-- Every endpoint of a book can be reached. -/
lemma Lists.canReach_of_mem (h : b.Lists seen) (he : e ∈ b.endpoints) : canReach e = true := by
  rw [h.endpoints_eq] at he
  exact canReach_of_mem_reached (List.mem_of_mem_take he)

/-- A record for an endpoint that is not in the book changes nothing about what is. -/
lemma Lists.latest_of_notMem (h : b.Lists seen) (hnew : record.endpoint ∉ b.endpoints)
    {p : Endpoint × AddressEntry} (hp : p ∈ b.entries) :
    latest? (seen ++ [(record, now)]) p.1 = some (p.2.record, p.2.lastSeen) := by
  have hne : record.endpoint ≠ p.1 := fun hsame => hnew (hsame ▸ List.mem_map.mpr ⟨p, hp, rfl⟩)
  exact (latest?_concat_of_ne hne).trans (h.latest p hp)

/-- Taking over a record leaves the endpoints as they are. -/
lemma endpoints_renew (b : AddressBook) (key : Endpoint) (entry : AddressEntry) :
    ({ b with entries := b.entries.map fun (k, e) => if k = key then (k, entry) else (k, e) } :
      AddressBook).endpoints = b.endpoints := by
  rw [endpoints, endpoints, List.map_map]
  refine List.map_congr_left fun p _ => ?_
  dsimp only [Function.comp]
  split <;> rfl

/-- One more record is filed as the book says: its endpoint comes in if it can be reached, is new,
and finds room; and it is taken over in any case if its endpoint is in the book. -/
lemma Lists.add (h : b.Lists seen) (hnormal : record.Normal) (now : Nat) :
    (b.add record now).1.Lists (seen ++ [(record, now)]) := by
  have hsize := h.size_eq
  have hreached := reached_concat seen (record, now)
  dsimp only at hreached
  have hfiling := b.add_filing record now
  generalize b.add record now = r at hfiling
  cases hfiling with
  | unreachable hkey =>
    have hreach := canReach_of_key?_eq_none hnormal hkey
    rw [if_neg (by simp [hreach]), List.append_nil] at hreached
    refine ⟨hreached ▸ h.endpoints_eq, fun p hp => h.latest_of_notMem ?_ hp⟩
    intro hmem
    rw [h.canReach_of_mem hmem] at hreach
    exact absurd hreach nofun
  | renewed hkey hknown =>
    obtain ⟨-, rfl⟩ := canReach_of_key?_eq_some hnormal hkey
    have hold : record.endpoint ∈ reached seen := List.mem_of_mem_take (h.endpoints_eq ▸ hknown)
    rw [if_neg (fun hnew => hnew.2 hold), List.append_nil] at hreached
    refine ⟨(endpoints_renew b _ _).trans (hreached ▸ h.endpoints_eq), fun p hp => ?_⟩
    obtain ⟨⟨key, entry⟩, hentry, rfl⟩ := List.mem_map.mp hp
    dsimp only
    by_cases hsame : key = record.endpoint
    · rw [if_pos hsame, hsame]
      exact latest?_concat_self seen (record, now)
    · rw [if_neg hsame, latest?_concat_of_ne (Ne.symm hsame)]
      exact h.latest (key, entry) hentry
  | crowdedOut hkey hnew hfull =>
    obtain ⟨-, rfl⟩ := canReach_of_key?_eq_some hnormal hkey
    have hmany : b.maxSize ≤ (reached seen).length := by omega
    refine ⟨?_, fun p hp => h.latest_of_notMem hnew hp⟩
    rw [hreached, List.take_append_of_le_length hmany]
    exact h.endpoints_eq
  | appended hkey hnew hroom =>
    obtain ⟨hreach, rfl⟩ := canReach_of_key?_eq_some hnormal hkey
    have hfew : (reached seen).length < b.maxSize := by omega
    have hall : b.endpoints = reached seen := h.endpoints_eq.trans (List.take_of_length_le hfew.le)
    rw [if_pos ⟨hreach, hall ▸ hnew⟩] at hreached
    refine ⟨?_, fun p hp => ?_⟩
    · rw [hreached, List.take_of_length_le (by rwa [List.length_append]), ← hall, endpoints,
        List.map_append]
      rfl
    · rcases List.mem_append.mp hp with hp | hp
      · exact h.latest_of_notMem hnew hp
      · obtain rfl := List.mem_singleton.mp hp
        exact latest?_concat_self seen (record, now)

/-- Filing any number of records. -/
lemma Lists.addAll (h : b.Lists seen) {more : List Sighting} (hnormal : ∀ s ∈ more, s.1.Normal) :
    (b.addAll more).Lists (seen ++ more) := by
  induction more generalizing b seen with
  | nil => rwa [List.append_nil]
  | cons s more ih =>
    rw [List.forall_mem_cons] at hnormal
    have hnext := ih (h.add hnormal.1 s.2) hnormal.2
    rwa [List.append_assoc, List.singleton_append] at hnext

lemma maxSize_addAll (b : AddressBook) (more : List Sighting) :
    (b.addAll more).maxSize = b.maxSize := by
  induction more generalizing b with
  | nil => rfl
  | cons s more ih => exact (ih _).trans (maxSize_add b s.1 s.2)

/-! ## Keys and answers -/

/-- Filing a record puts its endpoint at the end of the book, if the answer says that it is new, and
leaves the endpoints as they are otherwise. -/
lemma endpoints_add (hnormal : record.Normal) (b : AddressBook) (now : Nat) :
    (b.add record now).1.endpoints =
      b.endpoints ++ if (b.add record now).2 then [record.endpoint] else [] := by
  have hfiling := b.add_filing record now
  generalize b.add record now = r at hfiling
  cases hfiling with
  | unreachable | crowdedOut => exact (List.append_nil _).symm
  | renewed => exact (endpoints_renew b _ _).trans (List.append_nil _).symm
  | appended hkey =>
    obtain ⟨-, rfl⟩ := canReach_of_key?_eq_some hnormal hkey
    exact List.map_append

/-- What is new was not in the book. -/
lemma notMem_endpoints_of_add (hnormal : record.Normal) (h : (b.add record now).2 = true) :
    record.endpoint ∉ b.endpoints := by
  have hfiling := b.add_filing record now
  generalize b.add record now = r at hfiling h
  cases hfiling with
  | unreachable | renewed | crowdedOut => exact absurd h nofun
  | appended hkey hnew =>
    obtain ⟨-, rfl⟩ := canReach_of_key?_eq_some hnormal hkey
    exact hnew

/-- A book drops no endpoint for another one, and keeps them in the order in which they came. -/
lemma prefix_endpoints_add (hnormal : record.Normal) (b : AddressBook) (now : Nat) :
    b.endpoints <+: (b.add record now).1.endpoints :=
  ⟨_, (endpoints_add hnormal b now).symm⟩

/-- No endpoint is ever dropped. -/
lemma prefix_endpoints_addAll {more : List Sighting} (hnormal : ∀ s ∈ more, s.1.Normal)
    (b : AddressBook) : b.endpoints <+: (b.addAll more).endpoints := by
  induction more generalizing b with
  | nil => exact List.prefix_rfl
  | cons s more ih =>
    rw [List.forall_mem_cons] at hnormal
    exact (prefix_endpoints_add hnormal.1 b s.2).trans (ih hnormal.2 _)

/-- A record is filed under its own endpoint. -/
lemma Lists.endpoint_eq (h : b.Lists seen) {p : Endpoint × AddressEntry} (hp : p ∈ b.entries) :
    p.2.record.endpoint = p.1 := by
  have hlast := List.mem_of_getLast? (h.latest p hp)
  exact of_decide_eq_true (List.mem_filter.mp hlast).2

/-- No endpoint is in a book twice. -/
lemma Lists.nodup_endpoints (h : b.Lists seen) : b.endpoints.Nodup := by
  rw [h.endpoints_eq]
  exact (nodup_reached seen).sublist (List.take_sublist _ _)

/-- No record is in a book twice, as records of distinct endpoints differ. -/
lemma Lists.nodup_records (h : b.Lists seen) : (b.entries.map fun p => p.2.record).Nodup := by
  refine List.Nodup.of_map AddressRecord.endpoint ?_
  rw [List.map_map]
  have hkeys : b.entries.map (AddressRecord.endpoint ∘ fun p => p.2.record) = b.endpoints :=
    List.map_congr_left fun p hp => h.endpoint_eq hp
  rw [hkeys]
  exact h.nodup_endpoints

/-! ## The order of the records -/

/-- The records stand in the order in which they were last seen, the latest first. -/
lemma exists_sorted_entries (b : AddressBook) : ∃ es : List AddressEntry,
    es.Perm (b.entries.map Prod.snd) ∧ b.addresses = es.map AddressEntry.record ∧
      es.Pairwise fun x y => y.lastSeen ≤ x.lastSeen := by
  let later (x y : AddressEntry) : Bool := decide (y.lastSeen ≤ x.lastSeen)
  have hsorted := @List.pairwise_mergeSort _ later
    (fun x y z hxy hyz => decide_eq_true
      ((of_decide_eq_true hyz).trans (of_decide_eq_true hxy)))
    (fun x y => by
      rw [Bool.or_eq_true, decide_eq_true_eq, decide_eq_true_eq]
      exact Nat.le_total _ _)
    (b.entries.map Prod.snd)
  exact ⟨_, List.mergeSort_perm _ later, rfl, hsorted.imp of_decide_eq_true⟩

/-- Whatever records are filed, in any order and at any times, the book has the first endpoints that
could be reached, as many as there is room for, in the order in which they came; with each of them
stands the record that was filed for it last, also if the book was full by then, and its time.  A
record stands under its own endpoint.  One more record is new exactly if it brings its endpoint into
the book, and no endpoint is ever dropped.  The list of the records has each of them once, the one
seen last in front. -/
theorem contents_of_sightings (maxSize : Nat) (seen : List Sighting)
    (hnormal : ∀ s ∈ seen, s.1.Normal) :
    let b := (ofSize maxSize).addAll seen
    b.endpoints = (reached seen).take maxSize ∧
    (∀ p ∈ b.entries, latest? seen p.1 = some (p.2.record, p.2.lastSeen) ∧
      p.2.record.endpoint = p.1) ∧
    (∀ (record : AddressRecord) (now : Nat), record.Normal →
      (b.add record now).1.endpoints =
        b.endpoints ++ (if (b.add record now).2 then [record.endpoint] else []) ∧
      ((b.add record now).2 = true → record.endpoint ∉ b.endpoints)) ∧
    (∀ before, before <+: seen → ((ofSize maxSize).addAll before).endpoints <+: b.endpoints) ∧
    ∃ es : List AddressEntry, es.Perm (b.entries.map Prod.snd) ∧
      b.addresses = es.map AddressEntry.record ∧ b.addresses.Nodup ∧
      es.Pairwise fun x y => y.lastSeen ≤ x.lastSeen := by
  intro b
  have hlists : b.Lists seen := (lists_ofSize maxSize).addAll hnormal
  have hmax : b.maxSize = maxSize := maxSize_addAll _ seen
  refine ⟨hmax ▸ hlists.endpoints_eq, fun p hp => ⟨hlists.latest p hp, hlists.endpoint_eq hp⟩,
    fun record now h => ⟨endpoints_add h b now, notMem_endpoints_of_add h⟩, ?_, ?_⟩
  · rintro before ⟨after, rfl⟩
    have hsplit : b = ((ofSize maxSize).addAll before).addAll after := List.foldl_append
    rw [hsplit]
    exact prefix_endpoints_addAll (fun s hs => hnormal s (List.mem_append_right _ hs)) _
  · obtain ⟨es, hperm, haddresses, hsorted⟩ := b.exists_sorted_entries
    refine ⟨es, hperm, haddresses, ?_, hsorted⟩
    rw [haddresses, (hperm.map _).nodup_iff, List.map_map]
    exact hlists.nodup_records

/-- A book with room for one endpoint.  The second host finds no place, and the first one is taken
over with its later record. -/
theorem contents_of_sightings_of_full_book :
    let first (capabilities : List Capability) : AddressRecord :=
      ⟨0, .v4 ⟨[10, 0, 0, 1], rfl⟩, .tcpServer 1 :: capabilities⟩
    let second : AddressRecord := ⟨0, .v4 ⟨[10, 0, 0, 2], rfl⟩, [.tcpServer 1]⟩
    let seen : List Sighting := [(first [], 5), (second, 6), (first [.fullNode 7], 9)]
    let b := (ofSize 1).addAll seen
    (∀ s ∈ seen, s.1.Normal) ∧ b.endpoints = [(first []).endpoint] ∧
    (∀ p ∈ b.entries, p.1 = (first []).endpoint → p.2 = ⟨first [.fullNode 7], 9⟩) ∧
    (b.add second 10).1.endpoints =
      b.endpoints ++ (if (b.add second 10).2 then [second.endpoint] else []) ∧
    ((ofSize 1).addAll [(first [], 5)]).endpoints <+: b.endpoints ∧ b.addresses.Nodup := by
  intro first second seen b
  have hnormal : ∀ s ∈ seen, s.1.Normal := by
    simp only [seen, List.forall_mem_cons]
    exact ⟨rfl, rfl, rfl, nofun⟩
  obtain ⟨hendpoints, hentries, hadd, hprefix, es, -, -, hnodup, -⟩ :=
    contents_of_sightings 1 seen hnormal
  refine ⟨hnormal, hendpoints.trans (by decide), ?_, (hadd second 10 rfl).1,
    hprefix _ ⟨[(second, 6), (first [.fullNode 7], 9)], rfl⟩, hnodup⟩
  rintro ⟨key, entry⟩ hp rfl
  have hlatest : latest? seen (first []).endpoint = some (first [.fullNode 7], 9) := by decide
  have hentry := Option.some.inj (hlatest.symm.trans (hentries _ hp).1)
  obtain ⟨hrecord, htime⟩ := Prod.mk.inj hentry
  dsimp only
  rw [hrecord, htime]

end AddressBook

end PeerNet
