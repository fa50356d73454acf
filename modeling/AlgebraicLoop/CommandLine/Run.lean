import AlgebraicLoop.Block
import AlgebraicLoop.Catalogue
import AlgebraicLoop.CommandLine.Arguments
import AlgebraicLoop.Message

/-!
# Running the command line

The command line solves loops of the catalogue one after another and writes down how it went. A loop
that does not converge lets the others go on; any other failure ends the run.

* `loopText`: what is written about one loop;
* `run`: all output for given arguments, and the exit status: 0 when all loops converged, 1 when one
  did not, 2 when the arguments were refused or a loop failed.
-/

namespace AlgebraicLoop.CommandLine
set_option autoImplicit false

open NumberText (natural fixed)

/-- The output of a run. -/
structure Transcript where
  status : Nat
  stdout : String
  stderr : String
  deriving Repr, DecidableEq

/-- How solving one loop ended. -/
inductive Ending where
  | converged
  | unconverged (reason : FailureReason)
  | failed (message : String)
  deriving Repr, DecidableEq

/-- Four digits with an exponent. -/
def short (x : Float) : String := NumberText.rounded 4 false x

/-- Spaces up to a width. -/
def spaces (width : Nat) (text : String) : String :=
  String.ofList (List.replicate (width - text.length) ' ')

/-- The lines of the unknowns. -/
def unknownsText {n : Nat} (x : Vector Float n) : String :=
  String.join ((List.finRange n).map fun (i : Fin n) =>
    "\tx[" ++ natural i.val ++ "] = " ++ fixed 12 x[i] ++ "\n")

/-- The line of an iteration. -/
def iterationText (it : IterationRecord Float) : String :=
  let count := natural it.iteration
  "\t" ++ spaces 3 count ++ count ++ "  |F| " ++ short it.residualNorm ++ "  |dx| " ++
    short it.stepNorm ++ "  λ " ++ fixed 3 it.damping ++ "  " ++ it.stepKind.name ++
    (if it.freshJacobian then "" else " (old J)") ++ "\n"

/-- The lines of a successful solve. -/
def reportText {n : Nat} (trace : Bool) (s : Session Float Unit n) (r : Report Float) : String :=
  "\tConverged in " ++ natural r.iterations ++ " iterations (" ++ natural r.attempts ++
    " attempts), residual " ++ short r.residualNorm ++ "\n\t" ++
    natural s.counters.residualEvaluations ++ " residual evaluations, " ++
    natural s.counters.jacobianEvaluations ++ " Jacobians" ++
    (if r.refined then ", refined by Brent" else "") ++ "\n" ++
    (if trace then String.join (r.trace.toList.map iterationText) else "") ++ unknownsText s.x

/-- The lines of a solve that did not converge. -/
def unconvergedText {n : Nat} (s : Session Float Unit n) (u : Unconverged Float) : String :=
  "\tresidual " ++ short u.residualNorm ++ ", step " ++ short u.stepNorm ++ " after " ++
    natural u.iterations ++ " iterations\n" ++ unknownsText s.x

/-- The lines of the notices. -/
def noticesText (notices : List (Notice Float)) : String :=
  String.join (notices.map fun n => "\t[" ++ n.category ++ "] " ++ n.message ++ "\n")

/-- What is written about a loop, and how solving it ended. -/
def loopText (a : Arguments) (l : Loop) : String × Ending :=
  let title := l.name ++ " (" ++ l.description ++ ")\n"
  match Block.create l.name l.model () a.options 0 .continuous with
  | .error fault => (title, .failed fault.message)
  | .ok block =>
    let (result, block) := block.solve
    let s := block.session
    let head := title ++ if a.notices then noticesText s.notices.toList else ""
    match result with
    | .ok report => (head ++ reportText a.trace s report ++ "\n", .converged)
    | .error (.fault (.unconverged u)) =>
      (head ++ unconvergedText s u ++ "\n", .unconverged u.reason)
    | .error (.fault fault) => (head, .failed fault.message)
    | .error .limitsOutOfOrder => (head, .failed "bounds out of order")

/-- Solves loops one after another, adding to what was written before. -/
def solveAll (a : Arguments) : List Loop → Transcript → Transcript
  | [], t => t
  | l :: rest, t =>
    let (text, ending) := loopText a l
    let t := { t with stdout := t.stdout ++ text }
    match ending with
    | .converged => solveAll a rest t
    | .unconverged reason =>
      let line := "\tDid not converge: " ++ reason.message ++ "\n"
      solveAll a rest { t with status := 1, stderr := t.stderr ++ line }
    | .failed message =>
      { t with
        status := 2
        stderr := t.stderr ++ "Error: loop '" ++ l.name ++ "' failed: " ++ message ++ "\n" }

/-- The catalogue, a line for each loop. -/
def listing : String :=
  String.join (catalogue.map fun l =>
    l.name ++ spaces 12 l.name ++ " " ++ l.description ++ " (" ++ natural l.size ++ " unknowns)\n")

/-- The loops of the given names, or the first name that is not known. -/
def findAll (names : List String) : Except String (List Loop) :=
  names.mapM fun name =>
    match Loop.find? name with
    | some l => .ok l
    | none => .error name

/-- The output for the given arguments. Without names all loops are solved. -/
def run (args : List String) : Transcript :=
  match Arguments.read? args with
  | none => ⟨2, "", "usage"⟩
  | some a =>
    if a.list then ⟨0, listing, ""⟩
    else
      match findAll a.loops with
      | .error name => ⟨2, "", "Error: unknown loop '" ++ name ++ "', see --list\n"⟩
      | .ok loops => solveAll a (if loops.isEmpty then catalogue else loops) ⟨0, "", ""⟩

end AlgebraicLoop.CommandLine
