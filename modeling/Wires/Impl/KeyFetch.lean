import Wires.Impl.Jwks

/-!
# The fetcher and its cache on disk

`wires/caller/jwks.rs` as the caller's commands and the gateway use it: the
`KeyFetcher` of a process, and the files under `$WIRES_HOME/jwks` (`read_disk`,
`write_disk`), which other processes of the user write too. `CachedFetcher.step`
is one step of a verification, or of another process. Kept besides are the
clock, when each fetch began, what was fetched, and what each call of `keys`
returned. A fetcher without a cache directory writes nothing, and finds nothing.
-/

namespace Wires

variable [Web]

/-- A key set that a call at `at_` fetched for an issuer: what the `jwks_uri` of a discovery
document answered. -/
structure FetchedSet where
  issuer : Issuer
  at_ : Int64
  doc : Discovery
  response : Response

/-- What stands in a cache file: a key set, and the issuer it belongs to. -/
structure CacheFile where
  issuer : Issuer
  cached : Cached

/-- What a call of `keys` returned. -/
structure KeysAnswer where
  issuer : Issuer
  now : Int64
  result : Except Anyhow Jwks

namespace KeyFetcher

variable {ι : Type}

/-- What `keys` returns by a step, if it does. -/
def returns (f : KeyFetcher ι) : KeyEvent ι → Option KeysAnswer
  | .cached i =>
    match f.calls i with
    | some ⟨_, _, now, .keys issuer kid⟩ =>
      match (f.keys issuer).filter fun k => k.expiresAt > now with
      | some k => if kid.all k.jwks.hasKid then some ⟨issuer, now, .ok k.jwks⟩ else none
      | none => none
    | _ => none
  | .force i =>
    match f.calls i with
    | some ⟨_, _, now, .lacks issuer jwks⟩ =>
      if (f.forced issuer).any fun t => now - t < MIN_TTL then some ⟨issuer, now, .ok jwks⟩ else none
    | _ => none
  | .tries i =>
    match f.calls i with
    | some ⟨_, _, now, .mayFetch issuer⟩ =>
      ((f.failed issuer).filter fun p => now - p.1 < MIN_TTL).map fun p =>
        ⟨issuer, now, .error [p.2 ++ " (not asked again for " ++
          toString (MIN_TTL - (now - p.1)).toInt ++ "s)"]⟩
    | _ => none
  | .settle i =>
    match f.calls i with
    | some ⟨_, _, now, .ends issuer result⟩ => some ⟨issuer, now, result⟩
    | _ => none
  | _ => none

/-- The fetch that a step begins, and the clock of the call that begins it. -/
def begins (f : KeyFetcher ι) : KeyEvent ι → Option (Issuer × Int64)
  | .tries i =>
    match f.calls i with
    | some ⟨_, _, now, .mayFetch issuer⟩ =>
      if (f.failed issuer).any fun p => now - p.1 < MIN_TTL then none else some (issuer, now)
    | _ => none
  | _ => none

variable [DecidableEq ι]

/-- `cached`, where memory has no fresh key set: one from disk. -/
def loaded (f : KeyFetcher ι) (issuer : Issuer) (now : Int64) (file : Option CacheFile) :
    KeyFetcher ι :=
  if (f.keys issuer).any fun k => k.expiresAt > now then f
  else
    match file.filter fun c => ¬(c.issuer ≠ issuer ∨ c.cached.expiresAt ≤ now ∨
      c.cached.expiresAt > now + MAX_TTL) with
    | some c => { f with keys := Function.update f.keys issuer (some c.cached) }
    | none => f

end KeyFetcher

/-- A fetcher with its cache on disk: the files by their paths, the key sets read off the network
by calls that have not put them in memory yet, the clock, and what has been done. -/
structure CachedFetcher (ι : Type) where
  fetcher : KeyFetcher ι
  files : String → Option CacheFile
  received : ι → Option Response
  clock : Int64
  starts : List (Issuer × Int64)
  fetched : List FetchedSet
  answers : List KeysAnswer

/-- A step of a verification, its `keySet` in two, or of another process. -/
inductive CacheEvent (ι : Type) where
  | key (e : KeyEvent ι)
  /-- A call's key set is there, and it writes the cache file, or fails to. -/
  | receives (i : ι) (response : Response) (written : Bool)
  /-- The call goes on with it, in memory. -/
  | stores (i : ι)
  /-- Another process writes what it fetched. -/
  | elsewhere (set : FetchedSet)
  /-- A file goes, or can't be read. -/
  | lost (path : String)

namespace CachedFetcher

variable {ι : Type} [DecidableEq ι] [Jose]

/-- A process has begun, with no cache files. -/
def start : CachedFetcher ι := ⟨.new, fun _ => none, fun _ => none, 0, [], [], []⟩

/-- A step of the fetcher. -/
def goes (s : CachedFetcher ι) (e : KeyEvent ι) : Option (CachedFetcher ι) :=
  (s.fetcher.step e).map fun g => { s with
    fetcher := g
    starts := (s.fetcher.begins e).toList ++ s.starts
    answers := (s.fetcher.returns e).toList ++ s.answers }

variable (path : Issuer → String)

/-- `cached`, before it looks: memory takes what the issuer's file has. -/
def looks (s : CachedFetcher ι) (i : ι) : CachedFetcher ι :=
  match s.fetcher.calls i with
  | some ⟨_, _, now, .keys issuer _⟩ =>
    { s with fetcher := s.fetcher.loaded issuer now (s.files (path issuer)) }
  | _ => s

/-- One step; `path` is `disk_path`. -/
def step (s : CachedFetcher ι) : CacheEvent ι → Option (CachedFetcher ι)
  | .key (.verify i trust claim now) =>
    if s.clock ≤ now then { s with clock := now }.goes (.verify i trust claim now) else none
  | .key (.cached i) => (s.looks path i).goes (.cached i)
  | .key (.keySet _ _) => none
  | .key e => s.goes e
  | .receives i response written =>
    match s.received i, s.fetcher.calls i with
    | none, some ⟨_, _, now, .awaitsKeys issuer doc⟩ =>
      match fetchedKeys doc response with
      | .error _ => some { s with received := Function.update s.received i (some response) }
      | .ok (jwks, ttl) => some { s with
          received := Function.update s.received i (some response)
          files := if written = true then
              Function.update s.files (path issuer) (some ⟨issuer, ⟨now + ttl, jwks⟩⟩)
            else s.files
          fetched := ⟨issuer, now, doc, response⟩ :: s.fetched }
    | _, _ => none
  | .stores i => (s.received i).bind fun response => s.goes (.keySet i response)
  | .elsewhere set =>
    if set.at_ ≤ s.clock ∧ set.doc.issuer = set.issuer then
      match fetchedKeys set.doc set.response with
      | .error _ => none
      | .ok (jwks, ttl) => some { s with
          files := Function.update s.files (path set.issuer) (some ⟨set.issuer, ⟨set.at_ + ttl, jwks⟩⟩)
          fetched := set :: s.fetched }
    else none
  | .lost p => some { s with files := Function.update s.files p none }

end CachedFetcher

end Wires
