import HaskellStyle.Command.Run
import Std.Time

/-!
This module contains the program: it reads the files that a command concerns into a store, runs the command,
prints its report and writes back the files that it changed.
-/

namespace HaskellStyle.Main

/--
What stands at a place of the file system.
-/
def look (place : String) : IO (Option FileEntry) := do
  try
    let found ← IO.FS.realPath place
    if ← found.isDir then
      return some .directory
    else
      return some (.file (← IO.FS.readBinFile found).toList)
  catch _ =>
    return none

/--
Reads what stands at the end of a path and on the way to it.
-/
def load (s : FileStore) (p : Path) : IO FileStore := do
  let mut s := s
  for n in List.range (p.parts.length + 1) do
    let here := { p with parts := p.parts.take n }
    match s.locate here with
    | .error _ => return s
    | .ok l =>
      match ← look here.text with
      | some entry => s := s.add l entry
      | none => return s
  return s

/--
Whether something that stands in a directory may be a source or hold sources.
-/
def mayConcern (name : String) (isDirectory : Bool) : Bool :=
  if isDirectory then isSource [name, ".hs"] else isSource [name]

/--
Reads the sources at the end of a path and below it. Links to directories are not followed.
-/
partial def loadSources (s : FileStore) (p : Path) : IO FileStore := do
  let s ← load s p
  if s.isDirectory p then
    let here ← IO.FS.realPath p.text
    (← here.readDir).foldlM (fun s entry => do
      let isDirectory ← entry.path.isDir
      let isLink := (← IO.FS.realPath entry.path) != entry.path
      if mayConcern entry.fileName isDirectory && !(isDirectory && isLink) then
        loadSources s (p.child [entry.fileName])
      else
        return s) s
  else
    return s

/--
Reads the files that a request concerns.
-/
def loadRequest (r : Request) : IO FileStore := do
  let here := (Path.ofText (← IO.currentDir).toString).parts
  let s := ({ workingDirectory := here } : FileStore).add here .directory
  let s ← load s (r.settings.getD Settings.defaultPath)
  let s ←
    match r.log with
    | some p => do
      let s ← load s p
      load s (RunLogs.ofEvents "" p).findings
    | none => pure s
  r.paths.foldlM loadSources s

/--
Writes the files and directories that a run made or changed.
-/
def save (old new : FileStore) : IO Unit := do
  for l in new.directories do
    unless old.directories.contains l do
      IO.FS.createDirAll ("/" ++ "/".intercalate l)
  for (l, bytes) in new.files do
    unless old.files.lookup l == some bytes do
      IO.FS.writeBinFile ("/" ++ "/".intercalate l) ⟨bytes.toArray⟩

/--
The stamp of the present time.
-/
def stamp : IO String := do
  let now ← Std.Time.Timestamp.now
  return (Std.Time.DateTime.ofTimestampWithZone now Std.Time.TimeZone.UTC).format "uuuuMMdd'T'HHmmss'Z'"

/--
Prints what a run printed, saves what it changed, and gives its exit code.
-/
def report (old : FileStore) (e : Execution) : IO UInt32 := do
  save old e.store
  IO.print e.output
  IO.eprint e.errors
  if let some crash := e.crash then
    IO.eprintln crash.message
  return e.exitCode.toUInt32

/--
Runs a request and measures the time that its batch takes.
-/
def perform (r : Request) : IO UInt32 := do
  let s ← loadRequest r
  let started ← IO.monoMsNow
  match r.process (← stamp) s with
  | .error e => report s e
  | .ok p => report s (r.conclude ((← IO.monoMsNow) - started) p)

end HaskellStyle.Main

/--
The program.
-/
def main (arguments : List String) : IO UInt32 := do
  match HaskellStyle.Command.ofArguments arguments with
  | .error e =>
    IO.eprintln (HaskellStyle.Command.usage ++ "\n" ++ e.message)
    return HaskellStyle.Execution.misuse.toUInt32
  | .ok (.request r) => HaskellStyle.Main.perform r
  | .ok command => HaskellStyle.Main.report {} (command.run "" 0 {})
