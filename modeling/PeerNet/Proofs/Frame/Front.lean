import Mathlib
import PeerNet.Frame.Reader

/-!
# Parsing a stream from its front

What reading messages from a stream ought to give, said without a reader: look at the bytes that
stand at the front, tell what they are, and go on behind them.  Nothing here knows about pieces,
partial frames or reads that are given up.

`Front.of` tells what stands at the front, `firstRead` what reading it comes to, and `nthRead` what
the reads after it come to, each with the number of bytes used up to then.  A front that is not
complete, or whose length is above the cap, is not left behind, and every later read finds it again.
-/

namespace PeerNet

/-! ## The front of a stream -/

/-- What stands at the front of a stream. -/
inductive Front
  /-- A frame of which the named stage has not arrived completely. -/
  | unfinished (stage : FrameStage)
  /-- A header that marks its payload as compressed. -/
  | compressed
  /-- An announced size above the cap, known from the first `used` bytes. -/
  | oversized (used size : Nat)
  /-- A frame of that many bytes. -/
  | frame (size : Nat)

namespace Front

/-- The payload size that a first length byte and the bytes behind it announce. -/
def announced (marker : UInt8) (digits : Bytes) : Nat :=
  if CompactSize.extension marker = 0 then marker.toNat else ofLE digits

/-- What stands there once the size is known from the first `used` bytes. -/
def ofSize (used size available : Nat) : Front :=
  if size > Message.maxPayloadSize then .oversized used size
  else if available < size then .unfinished .payload
  else .frame (used + size)

/-- What stands at the front of a byte string. -/
def of : Bytes → Front
  | flags :: _ :: marker :: tail =>
    let width := CompactSize.extension marker
    if Message.isCompressed flags then .compressed
    else if tail.length < width then .unfinished .length
    else
      ofSize (FrameReader.headerSize + width) (announced marker (tail.take width))
        (tail.length - width)
  | _ => .unfinished .header

/-- How far the next read starts behind a front: it leaves a complete frame behind, and a compressed
header, but nothing else. -/
def skip : Front → Nat
  | unfinished _ | oversized _ _ => 0
  | compressed => FrameReader.headerSize
  | frame size => size

/-- How many bytes a complete front is known from. -/
def known : Front → Nat
  | unfinished _ => 0
  | compressed => FrameReader.headerSize
  | oversized used _ => used
  | frame size => size

/-- Fewer than three bytes are no header. -/
lemma of_of_length_lt {bs : Bytes} (h : bs.length < FrameReader.headerSize) :
    of bs = .unfinished .header := by
  rcases bs with _ | ⟨a, _ | ⟨b, _ | ⟨c, bs⟩⟩⟩
  · rfl
  · rfl
  · rfl
  · simp only [List.length_cons, FrameReader.headerSize] at h
    omega

variable {flags command marker : UInt8} {digits tail body : Bytes}

/-- A compressed header stands for itself, whatever follows. -/
lemma of_cons_of_isCompressed (h : Message.isCompressed flags = true) :
    of (flags :: command :: marker :: tail) = .compressed := by
  simp [of, h]

/-- A header without all of its length. -/
lemma of_cons_of_length_lt (h : Message.isCompressed flags = false)
    (hlen : tail.length < CompactSize.extension marker) :
    of (flags :: command :: marker :: tail) = .unfinished .length := by
  simp [of, h, hlen]

/-- Header and length are there. -/
lemma of_cons_append (h : Message.isCompressed flags = false)
    (hdigits : digits.length = CompactSize.extension marker) :
    of (flags :: command :: marker :: (digits ++ body)) =
      ofSize (FrameReader.headerSize + CompactSize.extension marker) (announced marker digits)
        body.length := by
  have hlen : ¬ (digits ++ body).length < CompactSize.extension marker := by
    rw [List.length_append]
    omega
  have htake : (digits ++ body).take (CompactSize.extension marker) = digits := by
    rw [← hdigits, List.take_left]
  have hrest : (digits ++ body).length - CompactSize.extension marker = body.length := by
    rw [List.length_append]
    omega
  simp only [of, h, Bool.false_eq_true, if_false, if_neg hlen, htake, hrest]

/-- A front is too short for a header, is compressed, is too short for its length, or has header and
length. -/
lemma cases_of (bs : Bytes) :
    bs.length < FrameReader.headerSize ∨ ∃ flags command marker tail,
      bs = flags :: command :: marker :: tail ∧
        (Message.isCompressed flags = true ∨ Message.isCompressed flags = false ∧
          (tail.length < CompactSize.extension marker ∨
            ∃ digits body, tail = digits ++ body ∧
              digits.length = CompactSize.extension marker)) := by
  rcases bs with _ | ⟨flags, _ | ⟨command, _ | ⟨marker, tail⟩⟩⟩
  · exact .inl (by decide)
  · exact .inl (by simp [FrameReader.headerSize])
  · exact .inl (by simp [FrameReader.headerSize])
  · refine .inr ⟨flags, command, marker, tail, rfl, ?_⟩
    cases hflags : Message.isCompressed flags with
    | true => exact .inl rfl
    | false =>
      refine .inr ⟨rfl, ?_⟩
      rcases Nat.lt_or_ge tail.length (CompactSize.extension marker) with hlen | hlen
      · exact .inl hlen
      · exact .inr ⟨_, _, (List.take_append_drop (CompactSize.extension marker) tail).symm,
          List.length_take_of_le hlen⟩

/-- More bytes do not change a size that is too large, nor a payload that is complete. -/
lemma ofSize_add {used size available : Nat} (more : Nat)
    (h : ∀ stage, ofSize used size available ≠ .unfinished stage) :
    ofSize used size (available + more) = ofSize used size available := by
  unfold ofSize at h ⊢
  by_cases hmax : size > Message.maxPayloadSize
  · rw [if_pos hmax, if_pos hmax]
  · rw [if_neg hmax] at h
    have hthere : ¬ available < size := by
      intro hless
      rw [if_pos hless] at h
      exact h .payload rfl
    have hmore : ¬ available + more < size := by omega
    rw [if_neg hmax, if_neg hmax, if_neg hthere, if_neg hmore]

/-- What is complete stays what it is when more bytes arrive behind it. -/
lemma of_append {bs : Bytes} (h : ∀ stage, of bs ≠ .unfinished stage) (more : Bytes) :
    of (bs ++ more) = of bs := by
  rcases cases_of bs with hlen | ⟨flags, command, marker, tail, rfl, hflags | ⟨hflags, hlen | hlen⟩⟩
  · exact absurd (of_of_length_lt hlen) (h .header)
  · rw [of_cons_of_isCompressed hflags]
    exact of_cons_of_isCompressed hflags
  · exact absurd (of_cons_of_length_lt hflags hlen) (h .length)
  · obtain ⟨digits, body, rfl, hdigits⟩ := hlen
    rw [of_cons_append hflags hdigits] at h ⊢
    rw [List.cons_append, List.cons_append, List.cons_append, List.append_assoc,
      of_cons_append hflags hdigits, List.length_append, ofSize_add _ h]

/-- What a front is known from has arrived. -/
lemma known_le_length (bs : Bytes) : (of bs).known ≤ bs.length := by
  rcases cases_of bs with hlen | ⟨flags, command, marker, tail, rfl, hflags | ⟨hflags, hlen | hlen⟩⟩
  · rw [of_of_length_lt hlen]
    exact Nat.zero_le _
  · rw [of_cons_of_isCompressed hflags]
    simp only [known, FrameReader.headerSize, List.length_cons]
    omega
  · rw [of_cons_of_length_lt hflags hlen]
    exact Nat.zero_le _
  · obtain ⟨digits, body, rfl, hdigits⟩ := hlen
    rw [of_cons_append hflags hdigits, ofSize]
    simp only [List.length_cons, List.length_append, hdigits]
    split_ifs with hmax hless
    · simp only [known, FrameReader.headerSize]
      omega
    · exact Nat.zero_le _
    · simp only [known, FrameReader.headerSize]
      omega

/-- What a front leaves behind has arrived. -/
lemma skip_le_length (bs : Bytes) : (of bs).skip ≤ bs.length := by
  have hskip : (of bs).skip ≤ (of bs).known := by
    cases of bs with
    | unfinished stage => exact Nat.le_refl _
    | compressed => exact Nat.le_refl _
    | oversized used size => exact Nat.zero_le _
    | frame size => exact Nat.le_refl _
  exact hskip.trans (known_le_length bs)

end Front

/-! ## One read -/

/-- What reading the front of a stream comes to, with the number of bytes used: the message of a
frame, or why there is none.  There is no answer yet while the front is not complete and the stream
has not ended. -/
def firstRead (ended : Bool) (s : Bytes) : Option (Except TransportError Message × Nat) :=
  match Front.of s with
  | .unfinished stage =>
    if ended then some (.error (.stream (.closedWhileReading stage)), s.length) else none
  | .compressed => some (.error .compressed, FrameReader.headerSize)
  | .oversized used size => some (.error (.oversizedPayload size), used)
  | .frame size =>
    some ((Message.decode (s.take size)).mapError TransportError.undecodable, size)

/-- A read that has an answer finds a complete front, unless the stream has ended. -/
lemma of_ne_unfinished_of_firstRead {s : Bytes} {x : Except TransportError Message × Nat}
    (h : firstRead false s = some x) (stage : FrameStage) : Front.of s ≠ .unfinished stage := by
  intro hfront
  rw [firstRead, hfront] at h
  exact absurd h (by simp)

/-- A read that waits is stuck at the front. -/
lemma skip_eq_zero_of_firstRead_eq_none {ended : Bool} {s : Bytes} (h : firstRead ended s = none) :
    (Front.of s).skip = 0 := by
  unfold firstRead at h
  split at h
  · rename_i stage hfront
    rw [hfront]
    rfl
  all_goals exact absurd h (by simp)

/-- A read uses no more than has arrived. -/
lemma used_le_length_of_firstRead {ended : Bool} {s : Bytes}
    {result : Except TransportError Message} {used : Nat}
    (h : firstRead ended s = some (result, used)) : used ≤ s.length := by
  have hknown := Front.known_le_length s
  unfold firstRead at h
  split at h
  · split_ifs at h
    simp only [Option.some.injEq, Prod.mk.injEq] at h
    exact h.2.ge
  all_goals
    rename_i hfront
    rw [hfront] at hknown
    simp only [Option.some.injEq, Prod.mk.injEq] at h
    rw [← h.2]
    exact hknown

/-- An answer stays the same when more bytes arrive and when the stream ends. -/
lemma firstRead_append {s : Bytes} {x : Except TransportError Message × Nat}
    (h : firstRead false s = some x) (ended : Bool) (more : Bytes) :
    firstRead ended (s ++ more) = some x := by
  have hfront := Front.of_append (of_ne_unfinished_of_firstRead h) more
  have hskip := Front.skip_le_length s
  unfold firstRead at h ⊢
  rw [hfront]
  cases hs : Front.of s with
  | unfinished stage => exact absurd hs (of_ne_unfinished_of_firstRead h stage)
  | compressed | oversized used size =>
    rw [hs] at h
    exact h
  | frame size =>
    rw [hs] at h
    have hsize : size ≤ s.length := by
      rw [hs] at hskip
      exact hskip
    dsimp only
    rw [List.take_append_of_le_length hsize]
    exact h

/-- An answer stays the same when the stream ends. -/
lemma firstRead_true {ended : Bool} {s : Bytes} {x : Except TransportError Message × Nat}
    (h : firstRead ended s = some x) : firstRead true s = some x := by
  cases ended with
  | true => exact h
  | false =>
    have hlater := firstRead_append h true []
    rwa [List.append_nil] at hlater

/-! ## All reads -/

/-- Where in the stream the `n`-th read starts. -/
def readStart (s : Bytes) : (n : Nat) → Nat
  | 0 => 0
  | n + 1 => readStart s n + (Front.of (s.drop (readStart s n))).skip

/-- What the `n`-th read comes to, with the number of bytes used by all reads up to it. -/
def nthRead (ended : Bool) (s : Bytes) (n : Nat) : Option (Except TransportError Message × Nat) :=
  (firstRead ended (s.drop (readStart s n))).map fun x => (x.1, readStart s n + x.2)

/-- Every read starts inside the stream. -/
lemma readStart_le_length (s : Bytes) (n : Nat) : readStart s n ≤ s.length := by
  induction n with
  | zero => exact Nat.zero_le _
  | succ n ih =>
    have hskip := Front.skip_le_length (s.drop (readStart s n))
    rw [List.length_drop] at hskip
    rw [readStart]
    omega

/-- Once a read starts at a front that is not left behind, all later ones do. -/
lemma readStart_of_skip_eq_zero {s : Bytes} {i n : Nat}
    (h : (Front.of (s.drop (readStart s i))).skip = 0) (hin : i ≤ n) :
    readStart s n = readStart s i := by
  induction n, hin using Nat.le_induction with
  | base => rfl
  | succ n _ ih => rw [readStart, ih, h, Nat.add_zero]

/-- While one read has to wait, no later one has an answer. -/
lemma nthRead_eq_none_of_le {ended : Bool} {s : Bytes} {i n : Nat} (h : nthRead ended s i = none)
    (hin : i ≤ n) : nthRead ended s n = none := by
  have hfirst : firstRead ended (s.drop (readStart s i)) = none := by
    simpa [nthRead] using h
  rw [nthRead, readStart_of_skip_eq_zero (skip_eq_zero_of_firstRead_eq_none hfirst) hin, hfirst]
  rfl

/-- A frame is answered once, by its message or by why it is none, and so is a compressed header;
both are left behind.  A length above the cap is found by every later read, and so is the end of the
stream inside a frame, without another byte being used. -/
lemma nthRead_of_front (ended : Bool) (s : Bytes) (n : Nat) :
    match Front.of (s.drop (readStart s n)) with
    | .frame size =>
      nthRead ended s n =
        some ((Message.decode ((s.drop (readStart s n)).take size)).mapError .undecodable,
          readStart s n + size) ∧
      readStart s (n + 1) = readStart s n + size
    | .compressed =>
      nthRead ended s n = some (.error .compressed, readStart s n + 3) ∧
      readStart s (n + 1) = readStart s n + 3
    | .oversized used size =>
      ∀ k ≥ n, nthRead ended s k = some (.error (.oversizedPayload size), readStart s n + used)
    | .unfinished stage =>
      ∀ k ≥ n, nthRead ended s k =
        if ended then some (.error (.stream (.closedWhileReading stage)), s.length) else none := by
  have hstuck : (Front.of (s.drop (readStart s n))).skip = 0 → ∀ k ≥ n,
      nthRead ended s k = nthRead ended s n := by
    intro hskip k hk
    rw [nthRead, nthRead, readStart_of_skip_eq_zero hskip hk]
  split
  · rename_i size hfront
    rw [nthRead, firstRead, readStart, hfront]
    exact ⟨rfl, rfl⟩
  · rename_i hfront
    rw [nthRead, firstRead, readStart, hfront]
    exact ⟨rfl, rfl⟩
  · rename_i used size hfront
    intro k hk
    rw [hstuck (by rw [hfront]; rfl) k hk, nthRead, firstRead, hfront]
    rfl
  · rename_i stage hfront
    intro k hk
    rw [hstuck (by rw [hfront]; rfl) k hk, nthRead, firstRead, hfront]
    cases ended with
    | false => rfl
    | true =>
      have hle := readStart_le_length s n
      have hsum : readStart s n + (s.length - readStart s n) = s.length := by omega
      simp only [if_true, Option.map_some, List.length_drop, hsum]

/-- Reads that have an answer start where they started when more bytes have arrived. -/
lemma readStart_append {s : Bytes} {n : Nat} (h : ∀ i < n, nthRead false s i ≠ none)
    (more : Bytes) : readStart (s ++ more) n = readStart s n := by
  induction n with
  | zero => rfl
  | succ n ih =>
    have hstart := ih fun i hi => h i (Nat.lt_succ_of_lt hi)
    obtain ⟨x, hx⟩ := Option.ne_none_iff_exists'.mp (h n (Nat.lt_succ_self n))
    have hfirst : ∃ y, firstRead false (s.drop (readStart s n)) = some y := by
      cases hy : firstRead false (s.drop (readStart s n)) with
      | none => rw [nthRead, hy] at hx; exact absurd hx (by simp)
      | some y => exact ⟨y, rfl⟩
    obtain ⟨y, hy⟩ := hfirst
    rw [readStart, readStart, hstart, List.drop_append_of_le_length (readStart_le_length s n),
      Front.of_append (of_ne_unfinished_of_firstRead hy)]

/-- An answer stays the same when more bytes arrive and when the stream ends. -/
lemma nthRead_append {s : Bytes} {n : Nat} {x : Except TransportError Message × Nat}
    (h : nthRead false s n = some x) (ended : Bool) (more : Bytes) :
    nthRead ended (s ++ more) n = some x := by
  have hbefore : ∀ i < n, nthRead false s i ≠ none := by
    intro i hi hnone
    rw [nthRead_eq_none_of_le hnone hi.le] at h
    exact absurd h (by simp)
  rw [nthRead] at h ⊢
  rw [readStart_append hbefore, List.drop_append_of_le_length (readStart_le_length s n)]
  cases hfirst : firstRead false (s.drop (readStart s n)) with
  | none => rw [hfirst] at h; exact absurd h (by simp)
  | some y =>
    rw [hfirst] at h
    rw [firstRead_append hfirst]
    exact h

end PeerNet
