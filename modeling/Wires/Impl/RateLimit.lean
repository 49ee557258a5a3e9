import Wires.Framework.Capped
import Wires.Framework.Run
import Wires.Framework.Windows
import Mathlib.Data.String.Basic

/-!
# The gateway's rate limiter

`RateLimit` of `wires/gateway/mod.rs`: how many requests each client address
made in its window. Which of several oldest windows goes first, where the table
is full, is the order of a hash map: `allow` takes the keys that go
(`victims`). `Limiter` is a limiter with what it was asked.
-/

namespace Wires

/-- Most client addresses tracked. -/
def MAX_TRACKED_ADDRS : Nat := 10000

/-- The window `RateLimit` counts over, in nanoseconds. -/
def WINDOW : Nat := 60 * 10 ^ 9

/-- A fixed-window request counter per client address: when its window began, and how many. -/
structure RateLimit where
  perMinute : UInt32
  seen : SortedMap String (Nat × UInt32)

namespace RateLimit

/-- `RateLimit::new`. -/
def new (perMinute : UInt32) : RateLimit := ⟨perMinute, ∅⟩

/-- `allow`, before it counts: where the table is full, and `addr` not in it, what is out of its
window goes, and then the oldest for as long as the table is full. -/
def room (l : RateLimit) (addr : String) (now : Nat) (victims : List String) :
    Option (SortedMap String (Nat × UInt32)) :=
  if l.seen.length ≥ MAX_TRACKED_ADDRS ∧ ¬l.seen.containsKey addr = true then
    SortedMap.evict Prod.fst MAX_TRACKED_ADDRS victims (l.seen.retain fun e => now - e.1 < WINDOW)
  else if victims = [] then some l.seen
  else none

/-- `allow`'s count: the window of `addr` (another, where it has passed), with one request more. -/
def count (seen : SortedMap String (Nat × UInt32)) (addr : String) (now : Nat) : Nat × UInt32 :=
  let entry := (seen.get? addr).getD (now, 0)
  let entry := if now - entry.1 ≥ WINDOW then (now, 0) else entry
  (entry.1, entry.2 + 1)

/-- `RateLimit::allow`. -/
def allow (l : RateLimit) (addr : String) (now : Nat) (victims : List String) :
    Option (RateLimit × Bool) :=
  (l.room addr now victims).map fun seen =>
    let entry := count seen addr now
    ({ l with seen := seen.insert addr entry }, entry.2 ≤ l.perMinute)

end RateLimit

/-! ## Any number of requests -/

/-- What became of a request, with the opening of the window it was counted in; or that an address
had to go. -/
inductive Limited where
  | asked (addr : String) (at_ opened : Nat) (allowed : Bool)
  | evicted (addr : String)

/-- A limiter, the time of its last request, and what it did, the newest first. -/
structure Limiter where
  limit : RateLimit
  clock : Nat
  log : List Limited

/-- A request from `addr`. -/
structure Asking where
  addr : String
  now : Nat
  victims : List String

namespace Limiter

def start (perMinute : UInt32) : Limiter := ⟨.new perMinute, 0, []⟩

/-- One request. The clock never goes back. -/
def step (s : Limiter) (e : Asking) : Option Limiter :=
  if e.now < s.clock then none
  else (s.limit.allow e.addr e.now e.victims).map fun (limit, allowed) =>
    { limit
      clock := e.now
      log := .asked e.addr e.now ((limit.seen.get? e.addr).getD (e.now, 0)).1 allowed ::
        (e.victims.map .evicted ++ s.log) }

end Limiter

end Wires
