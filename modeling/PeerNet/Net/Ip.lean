import PeerNet.Bytes

/-!
# IP addresses

An IPv4 or IPv6 address as its octets. IPv4 addresses have a second spelling inside IPv6, the
mapped form `::ffff:a.b.c.d`; the wire uses it for every IPv4 address, and `Ip.normal` undoes it,
so that two spellings of one address compare equal.

The text form of an IPv6 address writes groups in lower-case hexadecimal without leading zeros and
shortens the first longest run of at least two zero groups to `::`.
-/

namespace PeerNet

/-- An IP address. -/
inductive Ip
  | v4 (octets : FixedBytes 4)
  | v6 (octets : FixedBytes 16)
  deriving DecidableEq

namespace Ip

instance : Hashable Ip where
  hash
    | v4 octets => hash octets
    | v6 octets => mixHash 6 (hash octets)

instance : Inhabited Ip := ⟨v4 default⟩

/-- The twelve octets that mark an IPv4 address inside IPv6. -/
def mappedLead : Bytes := [0, 0, 0, 0, 0, 0, 0, 0, 0, 0, 0xFF, 0xFF]

/-- The IPv4 address that sixteen octets stand for, if they are the mapped form of one. -/
def unmap? (octets : FixedBytes 16) : Option (FixedBytes 4) :=
  if octets.toList.take 12 = mappedLead then
    some ⟨octets.toList.drop 12, by simp [octets.length_toList]⟩
  else none

/-- The one spelling used for comparison: a mapped IPv4 address becomes plain, others stay. -/
def normal : Ip → Ip
  | v4 octets => v4 octets
  | v6 octets =>
    match unmap? octets with
    | some plain => v4 plain
    | none => v6 octets

/-- The sixteen octets by which the wire writes an address. -/
def wireOctets : Ip → FixedBytes 16
  | v4 octets => ⟨mappedLead ++ octets.toList, by simp [mappedLead, octets.length_toList]⟩
  | v6 octets => octets

/-- Whether all octets are zero, so that the address names no host. -/
def isUnspecified : Ip → Bool
  | v4 octets => octets == FixedBytes.zero 4
  | v6 octets => octets == FixedBytes.zero 16

/-- The octets, of either family. -/
def octets : Ip → Bytes
  | v4 octets => octets.toList
  | v6 octets => octets.toList

/-- IPv4 comes before IPv6, and within a family the octets decide. -/
def before (a b : Ip) : Bool :=
  match a, b with
  | v4 _, v6 _ => true
  | v6 _, v4 _ => false
  | _, _ => decide (a.octets < b.octets)

/-! ### Text -/

/-- Octets in decimal, with dots between. -/
def dotted (octets : Bytes) : String :=
  ".".intercalate (octets.map fun b => toString b.toNat)

/-- The 16-bit groups of an octet string. -/
def groups : Bytes → List Nat
  | hi :: lo :: rest => (256 * hi.toNat + lo.toNat) :: groups rest
  | _ => []

/-- Groups in hexadecimal, with colons between. -/
def colonText (gs : List Nat) : String :=
  ":".intercalate (gs.map fun g => String.ofList (Nat.toDigits 16 g))

/-- Where the first longest run of zeros starts, and how long it is. -/
def longestZeroRun (gs : List Nat) : Nat × Nat :=
  (List.range gs.length).foldl (fun best start =>
    let run := ((gs.drop start).takeWhile (· == 0)).length
    if run > best.2 then (start, run) else best) (0, 0)

/-- The text of an IPv6 address that is not a mapped one. -/
def groupsText (gs : List Nat) : String :=
  let (start, run) := longestZeroRun gs
  if run ≥ 2 then
    colonText (gs.take start) ++ "::" ++ colonText (gs.drop (start + run))
  else colonText gs

/-- How an address is written for people. -/
def text : Ip → String
  | v4 octets => dotted octets.toList
  | v6 octets =>
    match unmap? octets with
    | some plain => "::ffff:" ++ dotted plain.toList
    | none => groupsText (groups octets.toList)

/-! ### Reading the text form -/

/-- A decimal number of at most three digits below 256, without a leading zero. -/
def octet? (cs : List Char) : Option UInt8 :=
  let n := cs.foldl (fun n c => 10 * n + (c.toNat - '0'.toNat)) 0
  if cs.all Char.isDigit && 1 ≤ cs.length && cs.length ≤ 3 && n < 256
      && (cs.length == 1 || cs.head? != some '0') then
    some (UInt8.ofNat n)
  else none

/-- Four octets with dots between. -/
def dotted? (cs : List Char) : Option Bytes := do
  let octets ← (cs.splitOn '.').mapM octet?
  if octets.length = 4 then some octets else none

/-- One to four hexadecimal digits. -/
def group? (cs : List Char) : Option Bytes := do
  let digits ← cs.mapM hexDigit?
  let n := digits.foldl (fun n d => 16 * n + d) 0
  if 1 ≤ cs.length ∧ cs.length ≤ 4 then some [UInt8.ofNat (n / 256), UInt8.ofNat n] else none

/-- The octets of groups with colons between; the last may be a dotted IPv4 address. -/
def groupOctets? (cs : List Char) : Option Bytes :=
  if cs.isEmpty then some []
  else
    let parts := cs.splitOn ':'
    match parts.getLast? with
    | none => none
    | some last => do
      let front ← parts.dropLast.mapM group?
      let back ← if last.contains '.' then dotted? last else group? last
      return front.flatten ++ back

/-- The text before and after the first `::`, if there is one. -/
def splitGap : List Char → Option (List Char × List Char)
  | ':' :: ':' :: rest => some ([], rest)
  | c :: rest => (splitGap rest).map fun (front, back) => (c :: front, back)
  | [] => none

/-- The sixteen octets of an IPv6 text. -/
def colonOctets? (cs : List Char) : Option Bytes :=
  match splitGap cs with
  | none => groupOctets? cs
  | some (front, back) => do
    let head ← if front.contains '.' then none else groupOctets? front
    let tail ← groupOctets? back
    if head.length + tail.length ≤ 14 then
      return head ++ List.replicate (16 - head.length - tail.length) 0 ++ tail
    else none

/-- Reads an address from its text. -/
def ofText? (text : String) : Option Ip :=
  let cs := text.toList
  match dotted? cs with
  | some octets => (FixedBytes.ofList? 4 octets).map v4
  | none => do (FixedBytes.ofList? 16 (← colonOctets? cs)).map v6

end Ip

end PeerNet
