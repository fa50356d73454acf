import AlgebraicLoop.Decimal.Reading
import AlgebraicLoop.Options
import AlgebraicLoop.Scalar.Binary64

/-!
# Arguments of the command line

Arguments are names of loops, switches (`--trace`) and settings with a value (`--exit step` or
`--exit=step`), in any order; after `--` all are names. A switch or setting may be given once.

* `Item.readAll`: the arguments taken apart;
* `Arguments.read?`: what the arguments ask for; `none` when they are not understood.
-/

namespace AlgebraicLoop.CommandLine
set_option autoImplicit false

/-- An argument, with its value if it has one. -/
inductive Item where
  | loop (name : String)
  | switch (name : String)
  | setting (name value : String)
  deriving Repr, DecidableEq

/-- What the arguments ask for. -/
structure Arguments where
  loops : List String := []
  /-- List the catalogue instead of solving. -/
  list : Bool := false
  /-- Show every notice. -/
  notices : Bool := false
  /-- Show every iteration. -/
  trace : Bool := false
  options : Options Float := Options.standard

/-- The values of `--solver`. -/
def methods : List (String × Method) :=
  [("newton", .damped), ("simple-newton", .undamped), ("linear", .direct)]

/-- The values of `--jacobian`. -/
def jacobianSources : List (String × JacobianSource) :=
  [("forward", .oneSided), ("central", .twoSided .all false),
    ("central-at-bound", .twoSided .nearBound false), ("external", .analytic),
    ("compression", .compressed)]

/-- The values of `--update`. -/
def jacobianUpdates : List (String × JacobianUpdate) :=
  [("full", .full), ("reuse", .reuse), ("broyden", .broyden), ("sparse-broyden", .sparseBroyden),
    ("modified-bfgs", .modifiedBfgs)]

/-- The values of `--scaling`. -/
def residualScalings : List (String × ResidualScaling) :=
  [("none", .none), ("manual", .manual), ("auto", .automatic), ("aggressive", .aggressive),
    ("full-jacobian", .freshJacobian), ("hybrid", .hybrid)]

/-- The values of `--exit`. -/
def exitCriteria : List (String × ExitCriterion) :=
  [("step", .step), ("residual", .residual), ("both", .stepAndResidual)]

/-- The arguments that have no value. -/
def switchNames : List String := ["list", "no-bounds", "no-brent", "events", "trace"]

/-- The arguments that have a value. -/
def settingNames : List String :=
  ["solver", "jacobian", "update", "scaling", "exit", "tolerance", "max-iterations"]

namespace Item

/-- The name of a switch or setting. -/
def key? : Item → Option String
  | .loop _ => none
  | .switch name | .setting name _ => some name

/-- Does the text look like a switch or setting? A single hyphen does not. -/
def looksLikeOption (arg : String) : Bool := arg.startsWith "-" && arg != "-"

/-- A switch or setting that is written as one argument. -/
def readOne? (arg : String) : Option Item :=
  match arg.toList with
  | '-' :: '-' :: rest =>
    let name := String.ofList (rest.takeWhile (· ≠ '='))
    match rest.dropWhile (· ≠ '=') with
    | [] => if switchNames.contains name then some (.switch name) else none
    | _ :: value =>
      if settingNames.contains name then some (.setting name (String.ofList value)) else none
  | _ => none

/-- A setting whose value is the next argument. -/
def readTwo? (arg value : String) : Option Item :=
  match arg.toList with
  | '-' :: '-' :: rest =>
    let name := String.ofList rest
    if settingNames.contains name && !looksLikeOption value then some (.setting name value)
    else none
  | _ => none

/-- The arguments taken apart; `none` when one is not known or lacks its value. -/
def readAll : List String → Option (List Item)
  | [] => some []
  | arg :: rest =>
    if arg == "--" then some (rest.map .loop)
    else if !looksLikeOption arg then (readAll rest).map (.loop arg :: ·)
    else
      match readOne? arg with
      | some item => (readAll rest).map (item :: ·)
      | none =>
        match rest with
        | [] => none
        | value :: rest => (readTwo? arg value).bind fun item => (readAll rest).map (item :: ·)

end Item

namespace Arguments

/-- The arguments with one more setting; `none` when its value is not understood. -/
def set? (a : Arguments) (name value : String) : Option Arguments :=
  let change (o : Options Float) : Arguments := { a with options := o }
  match name with
  | "solver" => (methods.lookup value).map fun method => change { a.options with method }
  | "jacobian" =>
    (jacobianSources.lookup value).map fun jacobianSource =>
      change { a.options with jacobianSource }
  | "update" =>
    (jacobianUpdates.lookup value).map fun jacobianUpdate =>
      change { a.options with jacobianUpdate }
  | "scaling" =>
    (residualScalings.lookup value).map fun residualScaling =>
      change { a.options with residualScaling }
  | "exit" =>
    (exitCriteria.lookup value).map fun exitCriterion => change { a.options with exitCriterion }
  | "tolerance" => (readNumber? value).map fun tolerance => change { a.options with tolerance }
  | "max-iterations" =>
    (readNatural? (Nat.pow 2 64) value).map fun maxIterations => change { a.options with maxIterations }
  | _ => none

/-- The arguments with one more switch. -/
def turnOn? (a : Arguments) (name : String) : Option Arguments :=
  match name with
  | "list" => some { a with list := true }
  | "no-bounds" => some { a with options := { a.options with enforceBounds := false } }
  | "no-brent" => some { a with options := { a.options with refineBracket := false } }
  | "events" => some { a with notices := true }
  | "trace" => some { a with trace := true }
  | _ => none

/-- The arguments with one more item. -/
def add? (a : Arguments) : Item → Option Arguments
  | .loop name => some { a with loops := a.loops ++ [name] }
  | .switch name => a.turnOn? name
  | .setting name value => a.set? name value

/-- What the arguments ask for; `none` when they are not understood. -/
def read? (args : List String) : Option Arguments := do
  let items ← Item.readAll args
  if (items.filterMap Item.key?).Nodup then items.foldlM add? {} else none

end Arguments

end AlgebraicLoop.CommandLine
