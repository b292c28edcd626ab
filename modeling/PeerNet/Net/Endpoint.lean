import PeerNet.Net.Ip

/-!
# Endpoints

An IP address with a TCP port: where a connection comes from or can be made to.
-/

namespace PeerNet

/-- An address and a port. -/
structure Endpoint where
  ip : Ip
  port : UInt16
  deriving DecidableEq

namespace Endpoint

instance : Hashable Endpoint := ⟨fun e => mixHash (hash e.ip) (hash e.port)⟩

instance : Inhabited Endpoint := ⟨⟨default, 0⟩⟩

/-- The endpoint with its address in normal form. -/
def normal (e : Endpoint) : Endpoint := ⟨e.ip.normal, e.port⟩

/-- Addresses decide, then ports. -/
def before (a b : Endpoint) : Bool :=
  a.ip.before b.ip || (a.ip == b.ip && a.port < b.port)

/-- How an endpoint is written: an IPv6 address stands in brackets. -/
def text (e : Endpoint) : String :=
  match e.ip with
  | .v4 _ => e.ip.text ++ ":" ++ toString e.port.toNat
  | .v6 _ => "[" ++ e.ip.text ++ "]:" ++ toString e.port.toNat

/-- A decimal port number. -/
def port? (cs : List Char) : Option UInt16 :=
  let n := cs.foldl (fun n c => 10 * n + (c.toNat - '0'.toNat)) 0
  if cs.all Char.isDigit && !cs.isEmpty && n < 65536 then some (UInt16.ofNat n) else none

/-- Reads an endpoint from its text. -/
def ofText? (text : String) : Option Endpoint :=
  match text.toList with
  | '[' :: rest => do
    let (address, tail) := rest.span (· != ']')
    let octets ← Ip.colonOctets? address
    let ip ← (FixedBytes.ofList? 16 octets).map Ip.v6
    match tail with
    | ']' :: ':' :: digits => return ⟨ip, ← port? digits⟩
    | _ => none
  | cs => do
    let (address, tail) := cs.span (· != ':')
    let ip ← (FixedBytes.ofList? 4 (← Ip.dotted? address)).map Ip.v4
    match tail with
    | ':' :: digits => return ⟨ip, ← port? digits⟩
    | _ => none

end Endpoint

end PeerNet
