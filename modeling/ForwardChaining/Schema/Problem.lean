import ForwardChaining.Value.Literal

/-!
This module contains the problems that are found in data of the wrong shape: where they are, what they
are, and how they are worded.
-/

namespace ForwardChaining

/-- What is wrong with a piece of data. -/
inductive Problem.Cause where
  /-- A required field is missing. -/
  | missing
  | notText
  | notInteger
  | notIntegerText
  | fraction
  | notFinite
  | integerSize
  | notNumber
  | notNumberText
  | notBoolean
  | notBooleanText
  | notList
  | notTuple
  | notRecord
  /-- Data for a named schema is not a record. -/
  | notInstance (schema : String)
  /-- Data for a choice of schemas is not a record. -/
  | notAttributes
  | notCallable
  /-- The value is none of the literals. -/
  | notLiteral (options : List String)
  /-- The value is no member of an enumeration. -/
  | notMember (options : List String)
  /-- The field that chooses the schema is missing. -/
  | noTag (field : String)
  /-- The field that chooses the schema has an unknown value. -/
  | unknownTag (tag field : String) (options : List String)
  /-- Facts hold records. -/
  | notMapping
deriving DecidableEq, Repr

/-- A problem and its place: the fields and positions that lead to it. -/
structure Problem where
  place : List String
  cause : Problem.Cause
deriving DecidableEq, Repr

namespace Problem

def Cause.code : Cause → String
  | .missing => "missing"
  | .notText => "string_type"
  | .notInteger => "int_type"
  | .notIntegerText => "int_parsing"
  | .fraction => "int_from_float"
  | .notFinite => "finite_number"
  | .integerSize => "int_parsing_size"
  | .notNumber => "float_type"
  | .notNumberText => "float_parsing"
  | .notBoolean => "bool_type"
  | .notBooleanText => "bool_parsing"
  | .notList => "list_type"
  | .notTuple => "tuple_type"
  | .notRecord => "dict_type"
  | .notInstance _ => "model_type"
  | .notAttributes => "model_attributes_type"
  | .notCallable => "callable_type"
  | .notLiteral _ => "literal_error"
  | .notMember _ => "enum"
  | .noTag _ => "union_tag_not_found"
  | .unknownTag .. => "union_tag_invalid"
  | .notMapping => "value_error"

def Cause.message : Cause → String
  | .missing => "Field required"
  | .notText => "Input should be a valid string"
  | .notInteger => "Input should be a valid integer"
  | .notIntegerText => "Input should be a valid integer, unable to parse string as an integer"
  | .fraction => "Input should be a valid integer, got a number with a fractional part"
  | .notFinite => "Input should be a finite number"
  | .integerSize => "Unable to parse input string as an integer, exceeded maximum size"
  | .notNumber => "Input should be a valid number"
  | .notNumberText => "Input should be a valid number, unable to parse string as a number"
  | .notBoolean => "Input should be a valid boolean"
  | .notBooleanText => "Input should be a valid boolean, unable to interpret input"
  | .notList => "Input should be a valid list"
  | .notTuple => "Input should be a valid tuple"
  | .notRecord => "Input should be a valid dictionary"
  | .notInstance schema => "Input should be a valid dictionary or instance of " ++ schema
  | .notAttributes => "Input should be a valid dictionary or object to extract fields from"
  | .notCallable => "Input should be callable"
  | .notLiteral options => "Input should be " ++ Text.alternatives options
  | .notMember options => "Input should be " ++ Text.alternatives options
  | .noTag field => "Unable to extract tag using discriminator '" ++ field ++ "'"
  | .unknownTag tag field options =>
    "Input tag '" ++ tag ++ "' found using '" ++ field
      ++ "' does not match any of the expected tags: "
      ++ Text.joinWith ", " (options.map fun o => "'" ++ o ++ "'")
  | .notMapping => "Value error, fact data must be a mapping"

def message (p : Problem) : String :=
  p.cause.message

def under (step : String) (p : Problem) : Problem :=
  { p with place := step :: p.place }

def summary (p : Problem) : String :=
  Text.joinWith "." p.place ++ ": " ++ p.message

end Problem
end ForwardChaining
