import Wires.Framework.Blocks
import Wires.Impl.McpHttp
import Wires.Impl.RateLimit

/-!
# Addresses

`is_public_ip` of `wires/gateway/clients.rs`, and `addr_key` and `client_addr` of
`wires/gateway/mod.rs`: which addresses the gateway connects to for a stranger,
and under which key a request is counted. What text is an address is the
standard library's (`parse`).
-/

namespace Wires

namespace IpAddr

/-- `Ipv6Addr::segments`. -/
def segment (a : BitVec 128) (i : Nat) : BitVec 16 := a.extractLsb' (112 - 16 * i) 16

/-- `Ipv4Addr::is_private`. -/
def isPrivate (a : BitVec 32) : Bool :=
  octet a 0 = 10 || (octet a 0 = 172 && 16 ≤ octet a 1 && octet a 1 ≤ 31) ||
    (octet a 0 = 192 && octet a 1 = 168)

/-- `Ipv4Addr::is_link_local`. -/
def isLinkLocal (a : BitVec 32) : Bool := octet a 0 = 169 && octet a 1 = 254

/-- `Ipv4Addr::is_broadcast`. -/
def isBroadcast (a : BitVec 32) : Bool := a = 0xffffffff

/-- `Ipv4Addr::is_documentation`. -/
def isDocumentation (a : BitVec 32) : Bool :=
  (octet a 0 = 192 && octet a 1 = 0 && octet a 2 = 2) ||
    (octet a 0 = 198 && octet a 1 = 51 && octet a 2 = 100) ||
    (octet a 0 = 203 && octet a 1 = 0 && octet a 2 = 113)

/-- `Ipv4Addr::is_multicast`. -/
def isMulticast (a : BitVec 32) : Bool := 224 ≤ octet a 0 && octet a 0 ≤ 239

/-- `is_public_ip`, of an IPv4 address. -/
def isPublicV4 (a : BitVec 32) : Bool :=
  !(isLoopback a || isPrivate a || isLinkLocal a || isBroadcast a || isDocumentation a ||
    a = 0 || isMulticast a || octet a 0 = 0 || (octet a 0 = 100 && octet a 1 &&& 0xc0 = 64))

/-- `Ipv6Addr::to_ipv4_mapped`. -/
def toIpv4Mapped (a : BitVec 128) : Option (BitVec 32) :=
  if a.extractLsb' 32 96 = 0xffff then some (a.extractLsb' 0 32) else none

/-- `is_public_ip`. -/
def isPublic : IpAddr → Bool
  | .v4 a => isPublicV4 a
  | .v6 a =>
    match toIpv4Mapped a with
    | some a => isPublicV4 a
    | none => !(a = 1 || a = 0 || segment a 0 &&& 0xff00 = 0xff00 ||
        segment a 0 &&& 0xfe00 = 0xfc00 || segment a 0 &&& 0xffc0 = 0xfe80)

/-! ## Whom a request is counted against -/

/-- `Ipv4Addr::to_string`. -/
def dotted (a : BitVec 32) : List Char :=
  let digits := fun i => Nat.toDigits 10 (octet a i).toNat
  digits 0 ++ '.' :: (digits 1 ++ '.' :: (digits 2 ++ '.' :: digits 3))

/-- The `/64` of an IPv6 address. -/
def subnet (a : BitVec 128) : List Char :=
  let digits := fun i => Nat.toDigits 16 (segment a i).toNat
  digits 0 ++ ':' :: (digits 1 ++ ':' :: (digits 2 ++ ':' :: (digits 3 ++ ':' :: ":/64".toList)))

/-- `addr_key`. -/
def key : IpAddr → String
  | .v4 a => String.ofList (dotted a)
  | .v6 a =>
    match toIpv4Mapped a with
    | some a => String.ofList (dotted a)
    | none => String.ofList (subnet a)

end IpAddr

open McpHttp

/-- The address that a proxy's headers give. -/
def headerAddr (parse : List Char → Option IpAddr) (headers : Headers) : Option IpAddr :=
  ((headers.header "cf-connecting-ip").bind fun v => parse (trim v.toList)) <|>
    (headers.header "x-forwarded-for").bind fun v =>
      parse (trim (v.toList.takeWhile fun c => c ≠ ','))

/-- `client_addr`. -/
def clientAddr (parse : List Char → Option IpAddr) (headers : Headers) (peer : Option IpAddr)
    (trustProxy : Bool) : String :=
  let ip := if trustProxy then headerAddr parse headers <|> peer else peer
  (ip.map IpAddr.key).getD "unknown"

/-- A request to an endpoint that is limited, and what its counting leaves open. -/
structure LimitedRequest where
  headers : Headers
  peer : Option IpAddr
  now : Nat
  victims : List String

/-- `limit_oauth`, where it asks. -/
def LimitedRequest.asking (parse : List Char → Option IpAddr) (trustProxy : Bool)
    (r : LimitedRequest) : Asking :=
  ⟨clientAddr parse r.headers r.peer trustProxy, r.now, r.victims⟩

end Wires
