import HaskellStyle.File.Store
import HaskellStyle.Json.Print

/-!
This module contains logs: files to which one JSON value is added on each line.
-/

namespace HaskellStyle

namespace Log

/--
The line of a record.
-/
def line (record : Json) : List UInt8 :=
  Utf8.encode (record.print ++ "\n").toList

/--
Empties a log, or makes it together with the directories on the way.
-/
def startFresh (p : Path) (s : FileStore) : Except AccessError FileStore := do
  let s ← s.ensureDirectories p.parent
  s.edit p fun _ => []

/--
Adds a record to a log, which is made if it is missing.
-/
def write (record : Json) (p : Path) (s : FileStore) : Except AccessError FileStore := do
  let s ← s.ensureDirectories p.parent
  s.edit p (· ++ line record)

/--
Adds a note on a file for each of some texts.
-/
def notes (file : String) (texts : List String) (p : Path) (s : FileStore) : Except AccessError FileStore :=
  texts.foldlM (fun s text => write (.obj [("ev", .str "note"), ("path", .str file), ("note", .str text)]) p s) s

end Log

/--
The logs of a run: one of its events and one of its findings.
-/
structure RunLogs where
  events : Path
  findings : Path
  deriving DecidableEq

namespace RunLogs

/--
The stamp in the name of a log of events, if it has one.
-/
def stamp? (p : Path) : Option String :=
  match p.name.splitOn "_" with
  | "hsfmt" :: stamp :: _ :: _ => some stamp
  | _ => none

/--
The logs of a run with the given log of events. The log of findings stands beside it and has its stamp, or
else the stamp `now`.
-/
def ofEvents (now : String) (events : Path) : RunLogs where
  events := events
  findings :=
    let stamp := (stamp? events).getD now
    events.parent.child [s!"hsfmt_{stamp}_diagnostics.log"]

/--
Empties both logs. What was done before a refused access stays done.
-/
def startFresh (logs : RunLogs) (s : FileStore) : FileStore × Option AccessError :=
  match Log.startFresh logs.events s with
  | .error e => (s, some e)
  | .ok s =>
    match Log.startFresh logs.findings s with
    | .error e => (s, some e)
    | .ok s => (s, none)

end RunLogs

end HaskellStyle
