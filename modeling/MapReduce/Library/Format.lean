import Mathlib.Data.List.Basic

namespace Format

/-- An operand of a format, with its type. -/
inductive Operand
  | int (n : Int)
  | string (s : String)

def Operand.type : Operand → String
  | .int _ => "int"
  | .string _ => "string"

/-- The default form of an operand, that of `%v`. -/
def Operand.value : Operand → String
  | .int n => toString n
  | .string s => s

/-- The verbs `%d` and `%s`. -/
inductive Verb
  | decimal | plain

def Verb.letter : Verb → String
  | .decimal => "d"
  | .plain => "s"

/-- An operand that the verb is not for comes out as `%!verb(type=value)`. -/
def Verb.render : Verb → Operand → String
  | .decimal,.int n => toString n
  | .plain,.string s => s
  | verb,operand => "%!" ++ verb.letter ++ "(" ++ operand.type ++ "=" ++ operand.value ++ ")"

/-- A format is text and verbs, the verbs without flags. -/
inductive Piece
  | text (s : String)
  | verb (verb : Verb)

/-- `fmt.Sprintf`, which reports operands too few or too many in its result. -/
def sprintf : List Piece → List Operand → String
  | [],[] => ""
  | [],operands =>
    "%!(EXTRA " ++ ", ".intercalate (operands.map fun o => o.type ++ "=" ++ o.value) ++ ")"
  | .text s :: format,operands => s ++ sprintf format operands
  | .verb verb :: format,operand :: operands => verb.render operand ++ sprintf format operands
  | .verb verb :: format,[] => "%!" ++ verb.letter ++ "(MISSING)" ++ sprintf format []

@[simp] theorem sprintf_nil : sprintf [] [] = "" := rfl

@[simp] theorem sprintf_text (s : String) (format : List Piece) (operands : List Operand) :
    sprintf (.text s :: format) operands = s ++ sprintf format operands := by
  rw [sprintf]

@[simp] theorem sprintf_verb (verb : Verb) (format : List Piece) (operand : Operand)
    (operands : List Operand) :
    sprintf (.verb verb :: format) (operand :: operands) =
      verb.render operand ++ sprintf format operands := by
  rw [sprintf]

@[simp] theorem render_int (n : Int) : Verb.decimal.render (.int n) = toString n := rfl

@[simp] theorem render_string (s : String) : Verb.plain.render (.string s) = s := rfl

/-- A text is no decimal, and `%d` says so. -/
theorem render_mismatch (s : String) :
    Verb.decimal.render (.string s) = "%!d(string=" ++ (s ++ ")") := by
  have hp : "%!" ++ "d" ++ "(" ++ "string" ++ "=" = "%!d(string=" := by decide
  rw [← String.append_assoc,← hp]
  rfl

end Format
