import RingLayout.Decimal
import RingLayout.Json
import RingLayout.Options
import RingLayout.Text.Quoted

/-! # Options from JSON

Options are written as an object with named fields or as an array in field order. Fields that are
left out keep their defaults, unknown fields are ignored, and the first fault in the order of
writing is reported. Clusters are read after all other fields, and a refresh of 0 is refused last.
-/

namespace RingLayout

/-- What a field asks for. -/
inductive Expected where
  /-- A nonnegative integer below `2 ^ 64` that is no count. -/
  | word
  /-- A count below `2 ^ 64`. -/
  | count
  | number
  | boolean
  | string
  | sequence
  | variant
  | unit
  | options

def Expected.describe : Expected → String
  | .word => "u64"
  | .count => "usize"
  | .number => "f64"
  | .boolean => "a boolean"
  | .string => "a string"
  | .sequence => "a sequence"
  | .variant => "string or map"
  | .unit => "unit"
  | .options => "struct CiseOptions"

/-- How a JSON value is named in a message. -/
def Json.describe : Json → String
  | .null => "null"
  | .bool b => "boolean `" ++ toString b ++ "`"
  | .integer n => "integer `" ++ toString n ++ "`"
  | .real x => "floating point `" ++ Decimal.render x ++ "`"
  | .text s => "string " ++ Text.quoted s
  | .list _ => "sequence"
  | .object _ => "map"

/-- Why JSON options are refused. -/
inductive OptionError where
  | wrongType (found : Json) (expected : Expected)
  /-- A negative number where only counts and words are meant. -/
  | negative (found : Int) (expected : Expected)
  | unknownVariant (found : String) (known : List String)
  /-- One field under both of its names. -/
  | duplicateField (name : String)
  /-- A variant written as an object that has not exactly one field. -/
  | notSingleField
  /-- An array with more entries than there are fields. -/
  | tooLong (length : Nat)
  | zeroRefresh

namespace OptionError

def choices : List String → String
  | [a, b] => "expected `" ++ a ++ "` or `" ++ b ++ "`"
  | names => "expected one of " ++ ", ".intercalate (names.map fun a => "`" ++ a ++ "`")

def reason : OptionError → String
  | .wrongType found expected =>
    "invalid type: " ++ found.describe ++ ", expected " ++ expected.describe
  | .negative found expected =>
    "invalid value: integer `" ++ toString found ++ "`, expected " ++ expected.describe
  | .unknownVariant found known => "unknown variant `" ++ found ++ "`, " ++ choices known
  | .duplicateField name => "duplicate field `" ++ name ++ "`"
  | .notSingleField => "invalid value: map, expected map with a single key"
  | .tooLong length =>
    "invalid length " ++ toString length ++ ", expected fewer elements in array"
  | .zeroRefresh => "refresh must be at least 1"

def message (e : OptionError) : String := "invalid layout options: " ++ e.reason

end OptionError

namespace Json

def natural (expected : Expected) : Json → Except OptionError Nat
  | .integer n => if 0 ≤ n then .ok n.toNat else .error (.negative n expected)
  | v => .error (.wrongType v expected)

/-- Any number; integers are rounded to the nearest double. -/
def number : Json → Except OptionError Float
  | .integer n => .ok (Float.ofInt n)
  | .real x => .ok x
  | v => .error (.wrongType v .number)

def boolean : Json → Except OptionError Bool
  | .bool b => .ok b
  | v => .error (.wrongType v .boolean)

def string : Json → Except OptionError String
  | .text s => .ok s
  | v => .error (.wrongType v .string)

def variantNamed {α : Type} (variants : List (String × α)) (name : String) :
    Except OptionError α :=
  match variants.find? (·.1 == name) with
  | some (_, a) => .ok a
  | none => .error (.unknownVariant name (variants.map (·.1)))

/-- A variant: its name, or an object with its name as the only field and null in it. -/
def variant {α : Type} (variants : List (String × α)) : Json → Except OptionError α
  | .text name => variantNamed variants name
  | .object [(name, content)] => do
    let a ← variantNamed variants name
    match content with
    | .null => .ok a
    | v => .error (.wrongType v .unit)
  | .object _ => .error .notSingleField
  | v => .error (.wrongType v .variant)

/-- A list whose items are read one by one, in order. -/
def listOf {α : Type} (item : Json → Except OptionError α) : Json → Except OptionError (List α)
  | .list items => items.mapM item
  | v => .error (.wrongType v .sequence)

end Json

namespace Options

/-- A field of the JSON options: its name, other names it goes by, and what a value changes. -/
structure Field where
  name : String
  aliases : List String := []
  set : Json → Options Float → Except OptionError (Options Float)

namespace Field

/-- A field read by `read` and stored by `store`. -/
def reading {α : Type} (name : String) (read : Json → Except OptionError α)
    (store : Options Float → α → Options Float) : Field where
  name := name
  set v o := (read v).map (store o)

def answersTo (f : Field) (name : String) : Bool := f.name == name || f.aliases.contains name

end Field

def qualities : List (String × Quality) :=
  [("draft", .draft), ("default", .standard), ("proof", .proof)]

def samplings : List (String × Sampling) := [("random", .random), ("greedy", .greedy)]

def limit : Json → Except OptionError (Option Nat)
  | .null => .ok none
  | v => (v.natural .word).map some

/-- The fields, in the order in which an array lists them. -/
def fields : List Field :=
  [.reading "randomSeed" (Json.natural .word) fun o n => { o with seed := UInt64.ofNat n },
   .reading "randomize" Json.boolean fun o b => { o with randomize := b },
   .reading "quality" (Json.variant qualities) fun o q => { o with quality := q },
   .reading "nodeSeparation" Json.number fun o x => { o with nodeSeparation := x },
   .reading "idealEdgeLength" Json.number fun o x => { o with idealEdgeLength := x },
   .reading "idealInterClusterEdgeLengthCoefficient" Json.number
     fun o x => { o with interClusterCoefficient := x },
   .reading "nodeRepulsion" Json.number fun o x => { o with nodeRepulsion := x },
   .reading "gravity" Json.number fun o x => { o with gravity := x },
   .reading "gravityRange" Json.number fun o x => { o with gravityRange := x },
   .reading "springCoeff" Json.number fun o x => { o with springCoefficient := x },
   { Field.reading "numIter" (Json.natural .count) fun o n => { o with iterations := n } with
     aliases := ["maxIterations"] },
   .reading "refresh" (Json.natural .count) fun o n => { o with refresh := n },
   .reading "samplingType" (Json.variant samplings) fun o s => { o with sampling := s },
   .reading "sampleSize" (Json.natural .count) fun o n => { o with sampleSize := n },
   .reading "piTol" Json.number fun o x => { o with powerTolerance := x },
   .reading "allowNodesInsideCircle" Json.boolean fun o b => { o with allowInside := b },
   .reading "maxRatioOfNodesInsideCircle" Json.number fun o x => { o with maxInsideRatio := x },
   .reading "packComponents" Json.boolean fun o b => { o with packComponents := b },
   .reading "tile" Json.boolean fun o b => { o with tile := b },
   .reading "tilingPaddingVertical" Json.number fun o x => { o with tilingPaddingVertical := x },
   .reading "tilingPaddingHorizontal" Json.number
     fun o x => { o with tilingPaddingHorizontal := x },
   .reading "animate" Json.boolean fun o b => { o with animate := b },
   .reading "animationDuration" (Json.natural .word)
     fun o n => { o with animationDuration := n },
   .reading "timeBudgetMs" limit fun o n => { o with timeBudget := n }]

/-- Reads the fields of an object in order; `seen` names the fields read before. -/
def readObject (seen : List String) :
    List (String × Json) → Options Float → Except OptionError (Options Float)
  | [], o => .ok o
  | (name, v) :: rest, o =>
    match fields.find? (·.answersTo name) with
    | none => readObject seen rest o
    | some f =>
      if seen.contains f.name then .error (.duplicateField f.name)
      else do readObject (f.name :: seen) rest (← f.set v o)

/-- Reads the entries of an array as the fields of a list, as far as both go. -/
def readEntries : List Field → List Json → Options Float → Except OptionError (Options Float)
  | f :: fs, v :: vs, o => do readEntries fs vs (← f.set v o)
  | _, _, o => .ok o

def readFields : Json → Except OptionError (Options Float)
  | .object entries => readObject [] entries defaults
  | .list items => do
    let o ← readEntries fields items defaults
    if fields.length < items.length then .error (.tooLong items.length) else .ok o
  | v => .error (.wrongType v .options)

def readClusters : Json → Except OptionError (Option (List (List String)))
  | .object entries =>
    match Json.field? "clusters" entries with
    | some v => (v.listOf (Json.listOf Json.string)).map some
    | none => .ok none
  | _ => .ok none

def ofJson (v : Json) : Except OptionError (Options Float) := do
  let o ← readFields v
  let clusters ← readClusters v
  let o := match clusters with
    | some cells => { o with clustering := .cells cells }
    | none => o
  if o.refresh = 0 then .error .zeroRefresh else .ok o

end Options

end RingLayout
