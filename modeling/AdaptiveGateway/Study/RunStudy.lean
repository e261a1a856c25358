/-
How a study is brought to its end.

The manifest is kept in memory and goes to the disk as a whole: it is written to a pending
file, which then takes the place of `manifest.json` at once.  Any other file can be cut off
in the middle.  An exception can come before and after every command, and the program can
be killed there.

The rows of a request are those of `measure_request`.  What the workers do to get them is
the matter of the collection.
-/
import AdaptiveGateway.Concurrent.Solo
import AdaptiveGateway.Study.Collection
import AdaptiveGateway.Study.Streaming

namespace AdaptiveGateway
namespace Study
namespace RunStudy

open Codec Python Numeric Concurrent

/-! ## The state -/

structure Options extends Args where
  prepareOnly : Bool
  requireAllValid : Bool

/-- The manifest, as far as it is read or changed. -/
structure Live extends Manifest where
  completedUtc : Option Text
  abortCategory : Option Text
  invalid2xx : Option Nat
  nonvalidAttempts : Option Nat

/-- A file that is written in one go.  `cut` is one whose text is not complete. -/
inductive File (α : Type) where
  | cut
  | whole (a : α)

/-- `manifest.json`, `requests.jsonl` and `analysis.json` -/
structure Files where
  manifest : Option (File Live)
  raw : Option Bytes
  analysis : Option (File Analysis)

/-- `manifest.pending.json` is there while the manifest is replaced. -/
structure Directory extends Files where
  pending : Option (File Live)

/-- The output directory, the manifest in memory, and the phases whose rows have been
flushed. -/
structure World where
  out : Option Directory
  manifest : Live
  ended : List (Phase × List Row)

/-- An exception, known by itself or by the name of its class. -/
inductive Raised where
  | study (e : Exc)
  | named (name : Text)

/-- The libraries, the order of sets and the names of the exception classes. -/
structure Runtime where
  rng : Shuffle
  lib : Libraries
  decoders : Decoders
  numbers : Numbers
  arith : Arithmetic
  order : SetOrder
  className : Exc → Text

/-! ## Commands -/

inductive Slot where
  | final
  | pending

/-- A command on the files of the output directory. -/
inductive FileCmd where
  | createManifest (slot : Slot)
  | dumpManifest (slot : Slot)
  | replace
  | createAnalysis
  | dumpAnalysis (result : Analysis)
  | createRaw
  | append (b : UInt8)
  | readManifest
  | readRaw

abbrev FileAns : FileCmd → Type
  | .readManifest => Live
  | .readRaw => Bytes
  | _ => Unit

inductive Cmd where
  | file (c : FileCmd)
  | mkdir
  | flush (p : Phase) (rows : List Row)
  | assign (update : Live → Live)
  | measure (p : Phase)
  | utcNow

abbrev Ans : Cmd → Type
  | .file c => FileAns c
  | .measure _ => List Row
  | .utcNow => Text
  | _ => Unit

/-- What comes from outside: the time, and what came of the requests of a phase. -/
structure Outside where
  now : Text
  results : List (Nat × Observed)

def fileExists : Raised := .named "FileExistsError"

def fileNotFound : Raised := .named "FileNotFoundError"

/-- `open("x")`, with what is in a new file. -/
def create {α : Type} (new : α) : Option α → Except Raised (Option α)
  | none => .ok (some new)
  | some _ => .error fileExists

def there {α : Type} : Option α → Except Raised α
  | none => .error fileNotFound
  | some a => .ok a

def File.parsed : File Live → Except Raised Live
  | .cut => .error (.named "JSONDecodeError")
  | .whole m => .ok m

def performFile : (c : FileCmd) → Live → Directory → Except Raised (FileAns c × Directory)
  | .createManifest .final, _, d => do
    let file ← create .cut d.manifest
    return ((), { d with manifest := file })
  | .createManifest .pending, _, d => do
    let file ← create .cut d.pending
    return ((), { d with pending := file })
  | .dumpManifest .final, m, d => return ((), { d with manifest := some (.whole m) })
  | .dumpManifest .pending, m, d => return ((), { d with pending := some (.whole m) })
  | .replace, _, d => do
    let file ← there d.pending
    return ((), { d with manifest := some file, pending := none })
  | .createAnalysis, _, d => do
    let file ← create .cut d.analysis
    return ((), { d with analysis := file })
  | .dumpAnalysis result, _, d => return ((), { d with analysis := some (.whole result) })
  | .createRaw, _, d => do
    let raw ← create [] d.raw
    return ((), { d with raw := raw })
  | .append b, _, d => do
    let raw ← there d.raw
    return ((), { d with raw := some (raw ++ [b]) })
  | .readManifest, _, d => do
    let file ← there d.manifest
    let m ← file.parsed
    return (m, d)
  | .readRaw, _, d => do
    let raw ← there d.raw
    return (raw, d)

section

variable (rt : Runtime) (args : Options)

def perform : Solo.Perform Cmd Ans Raised World Outside
  | .file c, _, w => do
    let d ← there w.out
    let r ← performFile c w.manifest d
    return (r.1, { w with out := some r.2 })
  | .mkdir, _, w =>
    match w.out with
    | none => .ok ((), { w with out := some ⟨⟨none, none, none⟩, none⟩ })
    | some _ => .error fileExists
  | .flush p rows, _, w => .ok ((), { w with ended := w.ended ++ [(p, rows)] })
  | .assign update, _, w => .ok ((), { w with manifest := update w.manifest })
  | .measure p, x, w => .ok (p.rows rt.decoders args.toArgs x.results, w)
  | .utcNow, x, w => .ok (x.now, w)

/-! ## The program -/

abbrev Program (α : Type) : Type := Prog Cmd Ans Raised α

abbrev issue (c : Cmd) : Program (Ans c) := Prog.issue c

abbrev file (c : FileCmd) : Program (FileAns c) := issue (.file c)

def raises {α : Type} : Except Exc α → Program α
  | .ok a => .ret a
  | .error e => .raise (.study e)

def assign (update : Live → Live) : Program Unit := issue (.assign update)

/-- `write_json(path, manifest)` -/
def writeManifest (slot : Slot) : Program Unit := do
  file (.createManifest slot)
  file (.dumpManifest slot)

/-- `write_json(args.out / "analysis.json", analysis)` -/
def writeAnalysis (result : Analysis) : Program Unit := do
  file .createAnalysis
  file (.dumpAnalysis result)

def replaceManifest : Program Unit := do
  writeManifest .pending
  file .replace

/-- `stream.write(...)`, byte by byte as they get to the disk. -/
def writeLine (row : Row) : Program Unit :=
  match writeRow rt.numbers row with
  | none => .raise (.study (.valueError "Out of range float values are not JSON compliant"))
  | some line => Prog.forEach (fun b => file (.append b)) (utf8 line)

def collectPhase (p : Phase) : Program Unit := do
  let rows ← issue (.measure p)
  Prog.forEach (writeLine rt) rows
  issue (.flush p rows)

def collect : Program Unit := do
  file .createRaw
  Prog.forEach (collectPhase rt) (planPhases rt.rng args.toArgs)

/-- `load_study(args.out, stream=True, allow_collected=True)` -/
def loadStream : Program Generator := do
  let m ← file .readManifest
  raises (refuse (decide (m.status ∉ accepted true)) "Study is not finished")
  let raw ← file .readRaw
  let digest ← raises (match m.rawSha256 with
    | none => .error .keyError
    | some digest => .ok digest)
  raises (refuse (decide (rt.lib.sha256 raw ≠ digest)) "Raw artifact hash mismatch")
  let stored ← file .readRaw
  return observationsStream rt.lib m.toManifest digest stored

def failedGate (n : Counters) : Bool :=
  decide (0 < n.invalid) || (args.requireAllValid && decide (0 < n.smokeFailures))

def finalStatus (failed : Bool) : Text := if failed then "invalid_responses" else "complete"

/-- The body of the `try` statement. -/
def finalize : Program Bool := do
  collect rt args
  let raw ← file .readRaw
  assign fun m => { m with rawSha256 := some (rt.lib.sha256 raw) }
  assign fun m => { m with status := "collected" }
  let now ← issue .utcNow
  assign fun m => { m with completedUtc := some now }
  replaceManifest
  let rows ← loadStream rt
  let result ← raises (rows.counted.1.analyze rt.arith rt.order)
  let n := rows.counted.2
  assign fun m => { m with invalid2xx := some n.invalid }
  assign fun m => { m with nonvalidAttempts := some n.smokeFailures }
  let failed := failedGate args n
  assign fun m => { m with status := finalStatus failed }
  writeAnalysis result
  replaceManifest
  return failed

def Raised.category : Raised → Text
  | .study e => rt.className e
  | .named name => name

def abort (e : Raised) : Program Bool := do
  let now ← issue .utcNow
  assign fun m =>
    { m with status := "aborted", completedUtc := some now, abortCategory := some (e.category rt) }
  replaceManifest
  .raise e

/-- `main`, once the arguments have been validated, with its exit code. -/
def main : Program Nat := do
  issue .mkdir
  writeManifest .final
  if args.prepareOnly then return 0
  let failed ← Prog.except (finalize rt args) fun e => some (abort rt e)
  return if failed then 2 else 0

def initialStatus (prepareOnly : Bool) : Text := if prepareOnly then "prepared" else "running"

/-- What `make_manifest` returns. -/
def initial : Live where
  toManifest :=
    { makeManifest rt.rng args.toArgs with status := initialStatus args.prepareOnly }
  completedUtc := none
  abortCategory := none
  invalid2xx := none
  nonvalidAttempts := none

def World.start (out : Option Directory) : World := ⟨out, initial rt args, []⟩

/-! ## The raw file -/

def lineBytes (row : Row) : Bytes := utf8 ((writeRow rt.numbers row).getD [])

/-- What the phases that have ended have written. -/
def written (ended : List (Phase × List Row)) : Bytes :=
  ended.flatMap fun e => e.2.flatMap (lineBytes rt)

end

end RunStudy
end Study
end AdaptiveGateway
