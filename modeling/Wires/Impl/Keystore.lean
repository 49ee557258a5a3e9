import Wires.Framework.Bytes
import Wires.Framework.Files
import Wires.Framework.Text

/-!
# Keystore files

How keystore files are written: `write_private` and `write_secret`
(`wires/admin/keystore.rs`) and `save_secret` (`wires/caller/login.rs`), each as
the file it makes (`Write.job`) under which name. `Keystores` is the disk, the
processes that run on it and their calls: any number of them, each a system call
at a time and each stopping wherever its process does, with readers beside them.
-/

namespace Wires

/-- A file's name in a directory. -/
structure FilePath where
  dir : List Char
  name : List Char
deriving DecidableEq

namespace Keystore

/-- `Keystore::save_node` and `Keystore::save_root` write these. -/
def keys : List (List Char) := ["node.seed".toList, "root.seed".toList]

def tmpSuffix : List Char := ".tmp".toList

end Keystore

open Keystore

namespace FilePath

/-- `Path::file_stem`. -/
def fileStem (p : FilePath) : List Char :=
  match rsplitOnce '.' p.name with
  | none | some ([], _) => p.name
  | some (before, _) => before

/-- `Path::with_extension("tmp")`. -/
def withExtensionTmp (p : FilePath) : FilePath := { p with name := p.fileStem ++ tmpSuffix }

/-- `write_private`'s temporary file for its process and call. -/
def privateTmp (p : FilePath) (pid n : Nat) : FilePath :=
  { p with name := '.' :: p.name ++ '.' :: Nat.toDigits 10 pid ++ '.' :: Nat.toDigits 10 n ++ tmpSuffix }

/-- A temporary file's name, or a key's. -/
def made (p : FilePath) : Bool := decide (tmpSuffix <:+ p.name) || keys.contains p.name

end FilePath

/-- A file to write. -/
inductive Write where
  | writePrivate (path : FilePath) (contents : List UInt8)
  | writeSecret (path : FilePath) (contents : List Char)
  | saveSecret (path : FilePath) (contents : List UInt8)

namespace Write

def path : Write → FilePath
  | .writePrivate p _ | .writeSecret p _ | .saveSecret p _ => p

/-- The bytes of the file. -/
def bytes : Write → List UInt8
  | .writePrivate _ contents | .saveSecret _ contents => contents
  | .writeSecret _ contents => utf8 (contents ++ ['\n'])

/-- What it does, as the process's call of that number: a temporary file renamed over the target,
removed again on an error; the file itself; a temporary file that what is there makes way for. -/
def job (pid n : Nat) : Write → Replace.Job FilePath UInt8
  | .writePrivate p contents => ⟨p.privateTmp pid n, some p, contents, false, true⟩
  | .writeSecret p contents => ⟨p, none, utf8 (contents ++ ['\n']), false, false⟩
  | .saveSecret p contents => ⟨p.withExtensionTmp, some p, contents, true, false⟩

/-- `COUNTER.fetch_add(1)`, which `write_private` alone does. -/
def counted (n : Nat) : Write → Nat
  | .writePrivate _ _ => (n + 1) % 2 ^ 64
  | _ => n

/-- What the code passes: `save_seed` writes keys, and what is replaced whole is neither a key nor
a temporary file, nor hidden. -/
def Fits : Write → Prop
  | .writeSecret p _ => p.name ∈ keys
  | .writePrivate p _ | .saveSecret p _ => p.made = false ∧ p.name ≠ [] ∧ p.name.head? ≠ some '.'

end Write

/-- A call: its process, the counter it took, and what it writes. -/
structure WriteCall where
  pid : Nat
  n : Nat
  write : Write

/-- A disk, every call so far (each a job under its place in the list) and the processes that run,
with their counters. -/
structure Keystores (ρ : Type) where
  disk : Replacing FilePath UInt8 Nat ρ
  calls : List WriteCall
  counters : Nat → Option Nat

/-- A process starts, calls or is gone, or a file operation of a call, a reader or whoever removes
files. -/
inductive KeystoresEvent (ρ : Type) where
  | starts (pid : Nat)
  | calls (pid : Nat) (write : Write)
  | stops (pid : Nat)
  | does (e : ReplaceEvent FilePath UInt8 Nat ρ)

namespace Keystores

variable {ρ : Type} [DecidableEq ρ]

/-- A call of the process that has not returned. -/
def busy (s : Keystores ρ) (pid : Nat) : Bool :=
  (List.range s.calls.length).any fun i =>
    match s.calls[i]?, s.disk.jobs i with
    | some _, some (_, .returned _) => false
    | some call, _ => call.pid = pid
    | none, _ => false

/-- One step. -/
def step (s : Keystores ρ) : KeystoresEvent ρ → Option (Keystores ρ)
  | .starts pid =>
    match s.counters pid with
    | none => some { s with counters := Function.update s.counters pid (some 0) }
    | some _ => none
  | .calls pid write =>
    match s.counters pid with
    | none => none
    | some n => (s.disk.step (.begins s.calls.length (write.job pid n))).map fun disk =>
      { disk, calls := s.calls ++ [⟨pid, n, write⟩],
        counters := Function.update s.counters pid (some (write.counted n)) }
  | .stops pid =>
    match s.counters pid with
    | none => none
    | some _ =>
      if s.busy pid then none
      else some { s with counters := Function.update s.counters pid none }
  | .does (.begins _ _) => none
  | .does e => (s.disk.step e).map fun disk => { s with disk }

/-- A disk, with no process yet. -/
def start (files : Files FilePath UInt8) : Keystores ρ := ⟨Replacing.start files, [], fun _ => none⟩

end Keystores

end Wires
