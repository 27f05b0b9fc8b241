import HaskellStyle.Diagnostic
import HaskellStyle.Json.Basic

/-!
This module contains the tally of a batch: how many files came out how, and how often each kind of finding
was reported. Tallies are added, so the order in which files are counted does not matter.
-/

namespace HaskellStyle

/--
How a file came out. A status of another name counts as a file and as nothing else.
-/
inductive FileStatus where
  | changed
  | unchanged
  | failed
  | other (name : String)
  deriving DecidableEq

namespace FileStatus

/--
The names of statuses in reports.
-/
def name : FileStatus → String
  | .changed => "changed"
  | .unchanged => "unchanged"
  | .failed => "failed"
  | .other name => name

/--
The status with the given name.
-/
def ofName (name : String) : FileStatus :=
  match name with
  | "changed" => .changed
  | "unchanged" => .unchanged
  | "failed" => .failed
  | name => .other name

end FileStatus

/--
The counts of a batch. Every finding that the formatter does not mend counts as advice.
-/
@[ext]
structure Tally where
  files : Nat := 0
  changed : Nat := 0
  unchanged : Nat := 0
  failed : Nat := 0
  mechanical : Nat := 0
  advisory : Nat := 0
  ofKind : DiagnosticKind → Nat := fun _ => 0
  seconds : Rat := 0

namespace Tally

/--
The counts of two batches together.
-/
def add (a b : Tally) : Tally where
  files := a.files + b.files
  changed := a.changed + b.changed
  unchanged := a.unchanged + b.unchanged
  failed := a.failed + b.failed
  mechanical := a.mechanical + b.mechanical
  advisory := a.advisory + b.advisory
  ofKind := fun kind => a.ofKind kind + b.ofKind kind
  seconds := a.seconds + b.seconds

instance : Add Tally := ⟨add⟩

/--
The counts of one file.
-/
def ofFile (status : FileStatus) (found : List Diagnostic) (seconds : Rat) : Tally where
  files := 1
  changed := if status = .changed then 1 else 0
  unchanged := if status = .unchanged then 1 else 0
  failed := if status = .failed then 1 else 0
  mechanical := found.countP (·.isMechanical)
  advisory := found.countP (!·.isMechanical)
  ofKind := fun kind => found.countP (·.kind = kind)
  seconds := seconds

/--
Counts one more file.
-/
def record (t : Tally) (status : FileStatus) (found : List Diagnostic) (seconds : Rat := 0) : Tally :=
  t + ofFile status found seconds

/--
The kinds of findings that were reported, by name, and how often.
-/
def byKind (t : Tally) : List (String × Nat) :=
  let kinds := DiagnosticKind.all.mergeSort fun a b => a.name ≤ b.name
  (kinds.map fun kind => (kind.name, t.ofKind kind)).filter (·.2 ≠ 0)

/--
All counts but the time, as the members of a JSON object.
-/
def counts (t : Tally) : List (String × Json) :=
  [("changed", .int t.changed), ("unchanged", .int t.unchanged), ("failed", .int t.failed),
   ("mechanical", .int t.mechanical), ("advisory", .int t.advisory),
   ("by_kind", .obj (t.byKind.map fun (name, n) => (name, .int n)))]

/--
All counts and the time.
-/
def snapshot (t : Tally) : List (String × Json) :=
  t.counts ++ [("format_time", Json.ofRat t.seconds)]

protected theorem add_comm (a b : Tally) : a + b = b + a := by
  show add a b = add b a
  simp [add, Nat.add_comm, Rat.add_comm]

protected theorem add_assoc (a b c : Tally) : a + b + c = a + (b + c) := by
  show add (add a b) c = add a (add b c)
  simp [add, Nat.add_assoc, Rat.add_assoc]

end Tally

end HaskellStyle
