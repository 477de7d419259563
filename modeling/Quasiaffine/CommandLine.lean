import Quasiaffine.Document
import Quasiaffine.Source.Excerpt

set_option autoImplicit false

namespace Quasiaffine.CommandLine

inductive Origin where
  | expression (text : String)
  | file (path : String)
  deriving DecidableEq, Repr

inductive Form where
  | text
  | json
  | counts
  deriving DecidableEq, Repr

structure Options where
  origin? : Option Origin := none
  kind? : Option DocumentKind := none
  form : Form := .text
  point? : Option Row := none
  config : Config := {}
  verbosity : Nat := 0
  quiet : Bool := false
  deriving DecidableEq, Repr

inductive UsageFault where
  | unknownArgument (argument : String)
  | missingValue (option : String)
  | invalidValue (option value : String)
  | repeatedOrigin
  | missingOrigin
  deriving DecidableEq, Repr

def UsageFault.text : UsageFault → String
  | unknownArgument argument => s!"unexpected argument '{argument}' found"
  | missingValue option => s!"a value is required for '{option}' but none was supplied"
  | invalidValue option value => s!"invalid value '{value}' for '{option}'"
  | repeatedOrigin => "there is more than one input"
  | missingOrigin => "the input is missing"

def natural? (text : String) : Option Nat :=
  let digits :=
    match text.toList with
    | '+' :: cs => cs
    | cs => cs
  if digits.isEmpty || !digits.all Char.isDigit then none else some (Json.naturalOfDigits digits)

def integer? (text : String) : Option Int :=
  match text.toList with
  -- One sign at most.
  | '-' :: '+' :: _ => none
  | '-' :: digits => (natural? (String.ofList digits)).map fun n => -(n : Int)
  | _ => (natural? text).map fun n => (n : Int)

def coordinates? (text : String) : Option Row :=
  (text.splitOn ",").mapM fun coordinate => do
    let value ← integer? coordinate
    -- Coordinates have 64 bits with their sign.
    if -9223372036854775808 ≤ value ∧ value < 9223372036854775808 then some value else none

namespace Options

def setOrigin (o : Options) (origin : Origin) : Except UsageFault Options :=
  if o.origin?.isSome then .error .repeatedOrigin else .ok { o with origin? := some origin }

def addPoint (o : Options) (point : Row) : Options :=
  { o with point? := some (o.point?.getD [] ++ point) }

def switch? (o : Options) : String → Option Options
  | "--no-sort-divs" => some { o with config := { o.config with sortDivs := false } }
  | "-q" | "--quiet" => some { o with quiet := true }
  | "-v" | "--verbose" => some { o with verbosity := o.verbosity + 1 }
  | "-vv" => some { o with verbosity := o.verbosity + 2 }
  | "-vvv" => some { o with verbosity := o.verbosity + 3 }
  | _ => none

def takesValue (option : String) : Bool :=
  ["-e", "--expr", "-k", "--kind", "--emit", "--contains", "--search-radius"].contains option

def set (o : Options) (option value : String) : Except UsageFault Options :=
  let invalid : Except UsageFault Options := .error (.invalidValue option value)
  match option with
  | "-e" | "--expr" => o.setOrigin (.expression value)
  | "-k" | "--kind" =>
    match value with
    | "map" => .ok { o with kind? := some .relation }
    | "set" => .ok { o with kind? := some .set }
    | "union" => .ok { o with kind? := some .union }
    | "pw-aff" => .ok { o with kind? := some .piecewise }
    | _ => invalid
  | "--emit" =>
    match value with
    | "text" => .ok { o with form := .text }
    | "json" => .ok { o with form := .json }
    | "stats" => .ok { o with form := .counts }
    | _ => invalid
  | "--contains" => (coordinates? value).elim invalid (.ok <| o.addPoint ·)
  | "--search-radius" =>
    match natural? value with
    | some radius =>
      if radius < Config.radiusBound then
        .ok { o with config := { o.config with searchRadius := radius } }
      else invalid
    | none => invalid
  | _ => .error (.unknownArgument option)

def assignment? (argument : String) : Option (String × String) :=
  let cs := argument.toList
  match cs.dropWhile (· != '=') with
  | _ :: value =>
    if cs.take 2 = ['-', '-'] then
      some (String.ofList (cs.takeWhile (· != '=')), String.ofList value)
    else none
  | [] => none

/-- Takes in the arguments one by one. `pending?` is an option that still waits for its value, and
`inPoint` says that further coordinates may follow. -/
def addArguments (o : Options) (pending? : Option String) (inPoint : Bool) :
    List String → Except UsageFault Options
  | [] => pending?.elim (.ok o) (.error <| .missingValue ·)
  | argument :: rest =>
    match pending? with
    | some option => do
      (← o.set option argument).addArguments none (option = "--contains") rest
    | none =>
      match if inPoint then coordinates? argument else none with
      | some point => (o.addPoint point).addArguments none true rest
      | none =>
        match o.switch? argument, assignment? argument with
        | some o, _ => o.addArguments none false rest
        | none, some (option, value) => do
          (← o.set option value).addArguments none false rest
        | none, none =>
          if takesValue argument then o.addArguments (some argument) false rest
          else if argument.startsWith "-" && argument != "-" then
            .error (.unknownArgument argument)
          else do
            (← o.setOrigin (.file argument)).addArguments none false rest

def ofArguments (arguments : List String) : Except UsageFault Options := do
  let options ← ({} : Options).addArguments none false arguments
  if options.origin?.isNone then throw .missingOrigin
  return options

end Options

structure Report where
  exitCode : UInt32
  output : String
  diagnostics : String
  deriving DecidableEq, Repr

structure Failure where
  headline : String
  causes : List String := []
  deriving DecidableEq, Repr

def Failure.text (f : Failure) : String :=
  let causes :=
    match f.causes with
    | [] => ""
    -- One cause is indented; several are numbered from zero.
    | [cause] => s!"\n\nCaused by:\n    {cause}"
    | causes =>
      "\n\nCaused by:"
        ++ String.join (causes.zipIdx.map fun (c : String × Nat) => s!"\n    {c.2}: {c.1}")
  s!"Error: {f.headline}{causes}\n"

def quotedPath (path : String) : String :=
  let escaped := path.toList.flatMap fun c =>
    match c with
    | '"' => ['\\', '"']
    | '\\' => ['\\', '\\']
    | '\n' => ['\\', 'n']
    | '\r' => ['\\', 'r']
    | '\t' => ['\\', 't']
    | c => [c]
  String.ofList ('"' :: escaped ++ ['"'])

def Failure.ofUnreadableFile (path reason : String) : Failure :=
  ⟨"Failed to read input file: " ++ quotedPath path, [reason]⟩

/-- An error of the reader, with the line of the text to which it belongs. Errors with a place in
the text are their own cause. -/
def Failure.ofReading (source : String) (e : Error) : Failure :=
  let excerpt := (e.span?.bind (Source.excerpt? source)).elim "" ("\n" ++ ·)
  ⟨"Failed to read input" ++ excerpt,
    if e.span?.isSome then [e.message, e.detail] else [e.message]⟩

def Failure.ofStop (source : String) : Stop → Failure
  | .error e => ofReading source e
  | .exhausted => ⟨"Failed to read input", ["the text is nested too deeply"]⟩

def relationCounts (r : Relation) : List String :=
  s!"space: {r.space.text}" :: s!"basic relations: {r.basics.length}" ::
    r.basics.zipIdx.map fun (b, i) =>
      s!"  basic {i}: {b.equalityCount} equalities, {b.inequalityCount} inequalities, "
        ++ s!"{b.ls.divCount} divisions"

def piecewiseCounts (f : Piecewise) : List String :=
  s!"space: {f.space.text}" :: s!"pieces: {f.pieces.length}" ::
    f.pieces.zipIdx.map fun (p, i) =>
      s!"  piece {i}: {p.domain.basics.length} basic sets, "
        ++ s!"{p.value.ls.divCount} divisions in expression"

def counts : Document → List String
  | .relation r => relationCounts r
  | .union u => u.members.flatMap relationCounts
  | .piecewise f => piecewiseCounts f

def unlines (lines : List String) : String := String.join (lines.map (· ++ "\n"))

def Form.output (document : Document) : Form → String
  | .text => unlines [document.text]
  | .json => unlines [document.json.indented]
  | .counts => unlines (CommandLine.counts document)

/-- Whether some member with as many dimensions as the point has coordinates contains it. Every
such member is asked, so that an error of any of them is reported. -/
def anyMemberContains (point : Row) (radius : Nat) : List Relation → Except Error Bool
  | [] => .ok false
  | r :: rs => do
    let here ← if r.space.total = point.length then r.contains point radius else .ok false
    let there ← anyMemberContains point radius rs
    return here || there

def answer (point : Row) (radius : Nat) (document : Document) : Except Failure String := do
  let checkSize (expected : Nat) : Except Failure Unit :=
    if point.length = expected then .ok ()
    else .error ⟨s!"point has {point.length} coordinates, expected {expected}", []⟩
  let lift {α : Type} : Except Error α → Except Failure α
    | .ok value => .ok value
    | .error e => .error ⟨e.message, []⟩
  match document with
  | .relation r => do
    checkSize r.space.total
    return toString (← lift (r.contains point radius))
  | .union u => do
    return toString (← lift (anyMemberContains point radius u.members))
  | .piecewise f => do
    checkSize f.space.total
    return (← lift (f.eval point)).elim "undefined" rationalText

def logLines (options : Options) (uncheckedChoices : Nat) : List String :=
  if options.quiet then []
  else
    (if options.verbosity = 0 then [] else ["[INFO  polyparse] polyparse v0.1.0"])
      ++ List.replicate uncheckedChoices ("[WARN  polyparse::polyhedral::pw_aff] "
        ++ "conditional expression: branch domains are not checked for coverage")

def run (options : Options) (source : Except String String) : Report :=
  match source with
  | .error reason =>
    let path := match options.origin? with | some (.file path) => path | _ => ""
    ⟨1, "", unlines (logLines options 0) ++ (Failure.ofUnreadableFile path reason).text⟩
  | .ok source =>
    let reading := Document.read options.config source options.kind?
    let log := unlines (logLines options reading.final.uncheckedChoices)
    match reading.result with
    | .error stop => ⟨1, "", log ++ (Failure.ofStop source stop).text⟩
    | .ok document =>
      let output := options.form.output document
      match options.point? with
      | none => ⟨0, output, log⟩
      | some point =>
        match answer point options.config.searchRadius document with
        | .ok text => ⟨0, output ++ unlines [text], log⟩
        | .error failure => ⟨1, output, log ++ failure.text⟩

end Quasiaffine.CommandLine
