import KernelCore.Text.Hex

/-!
# Structured values as text

A value is shown on one line, or with every field on a line of its own. Sets of flags are shown by
the names of their members.
-/

namespace KernelCore.Text

inductive Display
  | atom (text : String)
  /-- A name and its fields: in braces with labels, or in parentheses without. -/
  | group (name : String) (labelled : Bool) (fields : List (String × Display))

namespace Display

def record (name : String) (fields : List (String × Display)) : Display := .group name true fields

/-- A name around one unlabelled value. -/
def wrap (name : String) (value : Display) : Display := .group name false [("", value)]

def label (labelled : Bool) (name : String) : String := if labelled then name ++ ": " else ""

mutual

def line : Display → String
  | .atom text => text
  | .group name true fields => name ++ " \x7b " ++ lineFields true fields ++ " \x7d"
  | .group name false fields => name ++ "(" ++ lineFields false fields ++ ")"

def lineFields (labelled : Bool) : List (String × Display) → String
  | [] => ""
  | [(name, value)] => label labelled name ++ line value
  | (name, value) :: rest => label labelled name ++ line value ++ ", " ++ lineFields labelled rest

end

mutual

/-- The block form; `margin` stands before every line but the first. -/
def block (margin : String) : Display → String
  | .atom text => text
  | .group name true fields =>
    name ++ " \x7b\n" ++ blockFields (margin ++ "    ") true fields ++ margin ++ "\x7d"
  | .group name false fields =>
    name ++ "(\n" ++ blockFields (margin ++ "    ") false fields ++ margin ++ ")"

def blockFields (margin : String) (labelled : Bool) : List (String × Display) → String
  | [] => ""
  | (name, value) :: rest =>
    margin ++ label labelled name ++ block margin value ++ ",\n" ++
      blockFields margin labelled rest

end

end Display

/-- Members in the order of `names`, then the bits that have no name. -/
def flagSet (names : List (String × Nat)) (bits : Nat) : String :=
  let members := names.filter fun (_, i) => bits.testBit i
  let rest := members.foldl (fun b (_, i) => b - 1 <<< i) bits
  let shown := members.map (·.1) ++ if rest == 0 then [] else [hex rest]
  if shown.isEmpty then hex 0 else String.intercalate " | " shown

/-- The text of a value that may be missing. -/
def optional : Option String → String
  | none => "None"
  | some text => "Some(" ++ text ++ ")"

end KernelCore.Text
