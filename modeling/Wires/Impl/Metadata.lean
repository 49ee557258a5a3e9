import Wires.Framework.Capped
import Wires.Framework.Run
import Wires.Impl.Addr
import Wires.Impl.Clients

/-!
# Fetching clients' metadata documents

`MetadataFetcher` of `wires/gateway/clients.rs`: a client's
document is looked for in the cache, and else fetched from an address that its
URL's host was found at, all of which must be public. `Metadata` is any number
of calls of `MetadataFetcher::client`, step by step: what the lookups answer,
which of the addresses a call connects to and what is sent are the
environment's, as is which of several equally old documents is dropped first,
where the cache is full.
-/

namespace Wires

namespace OAuth

/-- The largest metadata document the gateway reads. -/
def MAX_METADATA_BYTES : Nat := 64 * 1024

/-- How long a fetched metadata document is trusted, in nanoseconds. -/
def METADATA_TTL : Nat := 300 * 10 ^ 9

/-- Most metadata documents cached. -/
def MAX_CACHED_METADATA : Nat := 256

/-- What a fetch that failed is answered. -/
def notFetched : String := "the client metadata document could not be fetched"

section

variable [Web]

/-- Where a call of `MetadataFetcher::client` is. -/
inductive MetadataStage where
  /-- The host of the URL is looked up. -/
  | resolves (id : String) (url : Web.Url)
  /-- The request is sent, to one of these addresses. -/
  | sends (id : String) (url : Web.Url) (addrs : List IpAddr)
  /-- It was, to `at_`, which has answered so much. -/
  | reads (id : String) (url : Web.Url) (addrs : List IpAddr) (at_ : IpAddr) (body : List UInt8)
  | done (id : String) (result : Except String Client)

/-- The cache, each document with when it came; the clock; and the calls. -/
structure Metadata (ι : Type) where
  cache : SortedMap String (Client × Nat)
  clock : Nat
  calls : ι → Option MetadataStage

end

inductive MetadataEvent (ι : Type) where
  /-- A call begins. -/
  | client (i : ι) (id : String) (now : Nat)
  | resolved (i : ι) (addrs : List IpAddr)
  /-- The one of the addresses it connected to answers with a success. -/
  | connected (i : ι) (at_ : IpAddr)
  | chunk (i : ι) (bytes : List UInt8)
  /-- The lookup, the request or the answer fails, or takes too long. -/
  | fails (i : ι)
  | ends (i : ι) (now : Nat) (victims : List String)

namespace Metadata

variable [Web] [Origin] [UrlParts] {ι : Type} [DecidableEq ι]

def start : Metadata ι := ⟨∅, 0, fun _ => none⟩

/-- Call `i` comes to a stage. -/
def goes (s : Metadata ι) (i : ι) (stage : MetadataStage) : Metadata ι :=
  { s with calls := Function.update s.calls i (some stage) }

/-- `MetadataFetcher::client`, until it waits. -/
def begins (s : Metadata ι) (id : String) (now : Nat) : MetadataStage :=
  match (s.cache.get? id).filter fun e => now - e.2 < METADATA_TTL with
  | some (client, _) => .done id (.ok client)
  | none =>
    match fetchableMetadataUrl id with
    | .error why => .done id (.error why)
    | .ok url => .resolves id url

/-- One step. The clock never goes back. -/
def step (s : Metadata ι) : MetadataEvent ι → Option (Metadata ι)
  | .client i id now =>
    if now < s.clock then none
    else
      match s.calls i with
      | none => some ({ s with clock := now }.goes i (s.begins id now))
      | some _ => none
  | .resolved i addrs =>
    match s.calls i with
    | some (.resolves id url) =>
      if addrs = [] ∨ ¬addrs.all IpAddr.isPublic = true then
        some (s.goes i (.done id (.error notFetched)))
      else some (s.goes i (.sends id url addrs))
    | _ => none
  | .connected i at_ =>
    match s.calls i with
    | some (.sends id url addrs) =>
      if at_ ∈ addrs then some (s.goes i (.reads id url addrs at_ [])) else none
    | _ => none
  | .chunk i bytes =>
    match s.calls i with
    | some (.reads id url addrs at_ body) =>
      if (body ++ bytes).length > MAX_METADATA_BYTES then
        some (s.goes i (.done id (.error notFetched)))
      else some (s.goes i (.reads id url addrs at_ (body ++ bytes)))
    | _ => none
  | .fails i =>
    match s.calls i with
    | some (.resolves id _) | some (.sends id _ _) | some (.reads id _ _ _ _) =>
      some (s.goes i (.done id (.error notFetched)))
    | _ => none
  | .ends i now victims =>
    if now < s.clock then none
    else
      match s.calls i with
      | some (.reads id url _ _ body) =>
        match validateMetadata url body with
        | .error why => some ({ s with clock := now }.goes i (.done id (.error why)))
        | .ok client =>
          (s.cache.enter (fun e => now - e.2 < METADATA_TTL) Prod.snd MAX_CACHED_METADATA victims
            id (client, now)).map fun cache =>
              { s with cache, clock := now }.goes i (.done id (.ok client))
      | _ => none

end Metadata

end OAuth

end Wires
