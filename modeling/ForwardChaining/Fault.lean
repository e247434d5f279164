import ForwardChaining.Schema.Problem
import ForwardChaining.Value.Order

/-!
This module contains everything that can go wrong while rules are compiled, facts are changed and
actions run: the causes, the name of the kind of each, and the wording.
-/

namespace ForwardChaining

/-- What is wrong with a template. -/
inductive TemplateError where
  /-- A closing brace stands alone. -/
  | singleClosing
  /-- An opening brace stands at the end. -/
  | singleOpening
  /-- An opening brace stands in the name of a field. -/
  | openingInName
  /-- A field is not closed. -/
  | unclosedField
  /-- A format specification is not closed. -/
  | unclosedSpec
  | noConversion
  | unknownConversion (c : Char)
  | afterConversion
  | emptyAttribute
  | afterBracket
  | unclosedBracket
  | tooDeep
  | tooManyDigits
  | missingPrecision
  | precisionTooBig
  | commaAndUnderscore
  | badSeparator (separator kind : Char)
  | badSpec (spec type : String)
  | badCode (code : Char) (type : String)
  | signInText
  | spaceInText
  | zeroInText
  | alternateInText
  | alignInText
  | precisionInInteger
  | zeroInInteger
  | signInCode
  | alternateInCode
deriving DecidableEq, Repr

def TemplateError.message : TemplateError → String
  | .singleClosing => "Single '\x7d' encountered in format string"
  | .singleOpening => "Single '\x7b' encountered in format string"
  | .openingInName => "unexpected '\x7b' in field name"
  | .unclosedField => "expected '\x7d' before end of string"
  | .unclosedSpec => "unmatched '\x7b' in format spec"
  | .noConversion => "end of string while looking for conversion specifier"
  | .unknownConversion c =>
    "Unknown conversion specifier " ++
      (if 32 < c.toNat && c.toNat < 127 then c.toString
       else "\\x" ++ String.ofList (Text.hex 0 c.toNat))
  | .afterConversion => "expected ':' after conversion specifier"
  | .emptyAttribute => "Empty attribute in format string"
  | .afterBracket => "Only '.' or '[' may follow ']' in format field specifier"
  | .unclosedBracket => "Missing ']' in format string"
  | .tooDeep => "Max string recursion exceeded"
  | .tooManyDigits => "Too many decimal digits in format string"
  | .missingPrecision => "Format specifier missing precision"
  | .precisionTooBig => "precision too big"
  | .commaAndUnderscore => "Cannot specify both ',' and '_'."
  | .badSeparator separator kind =>
    "Cannot specify '" ++ separator.toString ++ "' with " ++
      (if 32 < kind.toNat && kind.toNat < 128 then "'" ++ kind.toString ++ "'."
       else "'\\x" ++ String.ofList (Text.hex 0 kind.toNat) ++ "'.")
  | .badSpec spec type =>
    "Invalid format specifier '" ++ spec ++ "' for object of type '" ++ type ++ "'"
  | .badCode code type =>
    "Unknown format code '" ++
      (if 32 < code.toNat && code.toNat < 128 then code.toString
       else "\\x" ++ String.ofList (Text.hex 0 code.toNat))
      ++ "' for object of type '" ++ type ++ "'"
  | .signInText => "Sign not allowed in string format specifier"
  | .spaceInText => "Space not allowed in string format specifier"
  | .zeroInText => "Negative zero coercion (z) not allowed in string format specifier"
  | .alternateInText => "Alternate form (#) not allowed in string format specifier"
  | .alignInText => "'=' alignment not allowed in string format specifier"
  | .precisionInInteger => "Precision not allowed in integer format specifier"
  | .zeroInInteger => "Negative zero coercion (z) not allowed in integer format specifier"
  | .signInCode => "Sign not allowed with integer format specifier 'c'"
  | .alternateInCode => "Alternate form (#) not allowed with integer format specifier 'c'"

inductive Fault where
  /-- No live fact has this identity. -/
  | noSuchFact (ref : Value)
  /-- The fact was retracted earlier in the cycle. -/
  | staleReference (ref : Value)
  /-- The rule set has structural defects. -/
  | malformedRuleSet (problems : List String)
  /-- The fact type, or with `fields` these fields of it, are not declared. -/
  | unknownFactType (tag : Value) (fields : List String)
  /-- The session is not in a state that allows the operation. -/
  | sessionState (message : String) (state : Option String)
  /-- Data has the wrong shape. -/
  | invalid (problems : List Problem)
  /-- Nothing is stored under the key. -/
  | missingKey (key : Value)
  | unhashable (type : String)
  | unordered (relation : Relation) (types : Unordered)
  | notReal (type : String)
  | integerTooLarge
  | sumOverflow
  | opposedInfinities
  | needsNumbers (operation : String)
  | notIterable (type : String)
  | notMapping (type : String)
  | notContainer (type : String)
  | notUnpackable (type : String)
  | tooFewToUnpack (count : Nat)
  | tooManyToUnpack
  /-- The element of a sequence that should be a record is not a pair. -/
  | notPair (index : Nat)
  | pairLength (index length : Nat)
  /-- An argument is given by position and by name. -/
  | repeatedArgument (callee name : String)
  /-- Arguments that are needed are not given. -/
  | missingArguments (callee : String) (names : List String)
  /-- More arguments are given than are taken. -/
  | tooManyArguments (callee : String) (least most given : Nat)
  /-- An argument is given by name twice. -/
  | repeatedName (callee name : String)
  /-- Only texts can be joined. -/
  | notJoinable (index : Nat) (type : String)
  /-- What should be joined has no items. -/
  | notJoinableAtAll
  | noAttribute (type name : String)
  /-- A type itself has no such attribute. -/
  | noTypeAttribute (type name : String)
  /-- Names with a leading underscore are hidden from templates. -/
  | hiddenAttribute (name : String)
  | notSubscriptable (type : String)
  /-- A type itself has no items. -/
  | typeNotSubscriptable (type : String)
  | badIndex (type : String)
  | indexOutOfRange (type : String)
  | noPositional (index : Nat)
  | noFormat (type : String)
  | template (error : TemplateError)
  /-- The code point of a character is out of range. -/
  | badCodePoint
  /-- The code point of a character does not even fit into 64 bits. -/
  | hugeCodePoint
  /-- Snapshots cannot be changed. -/
  | readOnly
  /-- An integer has too many digits to be written. -/
  | integerTooLong
  /-- Containers are nested too deep to be reported. -/
  | nestedTooDeep
  /-- Values of the type cannot be reported. -/
  | unreportable (type : String)
  | negativeCycleLimit
  | noWorkers
  | unknownLevel (name : String)
  /-- The name of a level stands for a text that is no level. -/
  | unknownLevelText (text : String)
  /-- The name of a level stands for something else, which is shown. -/
  | notLevel (shown : String)
  /-- An error that a predicate, an action or a listener raised on purpose. -/
  | raised (kind message : String)
deriving Repr

namespace Fault

def kind : Fault → String
  | .noSuchFact _ => "NoSuchFact"
  | .staleReference _ => "StaleFactReference"
  | .malformedRuleSet _ => "MalformedRuleSet"
  | .unknownFactType .. => "UnknownFactType"
  | .sessionState .. => "SessionStateError"
  | .invalid _ => "ValidationError"
  | .missingKey _ => "KeyError"
  | .unhashable _ | .unordered .. | .notReal _ | .needsNumbers _ | .notIterable _ | .notMapping _
  | .notContainer _ | .notUnpackable _ | .notPair _ | .repeatedArgument .. | .missingArguments ..
  | .tooManyArguments .. | .repeatedName .. | .notJoinable .. | .notJoinableAtAll | .notSubscriptable _
  | .typeNotSubscriptable _ | .notLevel _ | .badIndex _ | .noFormat _ | .readOnly => "TypeError"
  | .integerTooLarge | .sumOverflow | .badCodePoint | .hugeCodePoint => "OverflowError"
  | .opposedInfinities | .tooFewToUnpack _ | .tooManyToUnpack | .pairLength .. | .template _
  | .integerTooLong | .nestedTooDeep | .negativeCycleLimit | .noWorkers | .unknownLevelText _ =>
    "ValueError"
  | .unreportable _ => "PydanticSerializationError"
  | .noAttribute .. | .noTypeAttribute .. | .hiddenAttribute _ | .unknownLevel _ => "AttributeError"
  | .indexOutOfRange _ | .noPositional _ => "IndexError"
  | .raised kind _ => kind

/-- The first problems, and how many more there are. -/
def summary (problems : List String) (more : Nat) : String :=
  Text.joinWith "; " problems ++ (if more = 0 then "" else " (+" ++ Text.ofNat more ++ " more)")

def argumentNames : List String → String
  | [name] => " required positional argument: '" ++ name ++ "'"
  | names =>
    " required positional arguments: "
      ++ Text.joinWith " and " (names.map fun name => "'" ++ name ++ "'")

def message : Fault → String
  | .noSuchFact ref => "Fact not found: " ++ ref.plain
  | .staleReference ref => "Fact " ++ ref.plain ++ " was retracted earlier in this cycle"
  | .malformedRuleSet problems =>
    "Malformed rule set: " ++ summary (problems.take 3) (problems.length - 3)
  | .unknownFactType tag [] => "Undeclared fact type: " ++ tag.plain
  | .unknownFactType tag fields =>
    "Undeclared fields for fact type '" ++ tag.plain ++ "': " ++ Text.joinWith ", " fields
  | .sessionState message _ => message
  | .invalid problems => Text.joinWith "; " (problems.map Problem.summary)
  | .missingKey key => key.literal
  | .unhashable type => "unhashable type: '" ++ type ++ "'"
  | .unordered relation types =>
    "'" ++ relation.symbol ++ "' not supported between instances of '" ++ types.left ++ "' and '"
      ++ types.right ++ "'"
  | .notReal type => "must be real number, not " ++ type
  | .integerTooLarge => "int too large to convert to float"
  | .sumOverflow => "intermediate overflow in fsum"
  | .opposedInfinities => "-inf + inf in fsum"
  | .needsNumbers operation => operation ++ " needs numbers"
  | .notIterable type => "'" ++ type ++ "' object is not iterable"
  | .notMapping type => "'" ++ type ++ "' object is not a mapping"
  | .notContainer type => "argument of type '" ++ type ++ "' is not iterable"
  | .notUnpackable type => "cannot unpack non-iterable " ++ type ++ " object"
  | .tooFewToUnpack count =>
    "not enough values to unpack (expected 2, got " ++ Text.ofNat count ++ ")"
  | .tooManyToUnpack => "too many values to unpack (expected 2)"
  | .notPair index =>
    "cannot convert dictionary update sequence element #" ++ Text.ofNat index ++ " to a sequence"
  | .pairLength index length =>
    "dictionary update sequence element #" ++ Text.ofNat index ++ " has length "
      ++ Text.ofNat length ++ "; 2 is required"
  | .repeatedArgument callee name =>
    callee ++ "() got multiple values for argument '" ++ name ++ "'"
  | .missingArguments callee names =>
    callee ++ "() missing " ++ Text.ofNat names.length ++ argumentNames names
  | .tooManyArguments callee least most given =>
    callee ++ "() takes " ++
      (if least = most then Text.ofNat most
       else "from " ++ Text.ofNat least ++ " to " ++ Text.ofNat most)
      ++ " positional arguments but " ++ Text.ofNat given ++ " were given"
  | .repeatedName callee name =>
    callee ++ "() got multiple values for keyword argument '" ++ name ++ "'"
  | .notJoinable index type =>
    "sequence item " ++ Text.ofNat index ++ ": expected str instance, " ++ type ++ " found"
  | .notJoinableAtAll => "can only join an iterable"
  | .noAttribute type name => "'" ++ type ++ "' object has no attribute '" ++ name ++ "'"
  | .noTypeAttribute type name =>
    "type object '" ++ type ++ "' has no attribute '" ++ name ++ "'"
  | .hiddenAttribute name => name
  | .notSubscriptable type => "'" ++ type ++ "' object is not subscriptable"
  | .typeNotSubscriptable type => "type '" ++ type ++ "' is not subscriptable"
  | .badIndex type =>
    if type == "str" then "string indices must be integers, not 'str'"
    else type ++ " indices must be integers or slices, not str"
  | .indexOutOfRange type => (if type == "str" then "string" else type) ++ " index out of range"
  | .noPositional index =>
    "Replacement index " ++ Text.ofNat index ++ " out of range for positional args tuple"
  | .noFormat type => "unsupported format string passed to " ++ type ++ ".__format__"
  | .template error => error.message
  | .badCodePoint => "%c arg not in range(0x110000)"
  | .hugeCodePoint => "Python int too large to convert to C long"
  | .readOnly => "'FactData' object does not support item assignment"
  | .integerTooLong =>
    "Exceeds the limit (" ++ Text.ofNat Value.maxDigits ++ " digits) for integer string conversion; "
      ++ "use sys.set_int_max_str_digits() to increase the limit"
  | .nestedTooDeep => "Maximum serialization depth exceeded"
  | .unreportable type => "Unable to serialize unknown type: <class '" ++ type ++ "'>"
  | .negativeCycleLimit => "cycle_limit must be >= 0"
  | .noWorkers => "max_workers must be greater than 0"
  | .unknownLevel name => "module 'logging' has no attribute '" ++ name ++ "'"
  | .unknownLevelText text => "Unknown level: '" ++ text ++ "'"
  | .notLevel shown => "Level not an integer or a valid string: " ++ shown
  | .raised _ message => message

def code? : Fault → Option String
  | .noSuchFact _ => some "NO_SUCH_FACT"
  | .staleReference _ => some "STALE_FACT_REFERENCE"
  | .malformedRuleSet _ => some "MALFORMED_RULE_SET"
  | .unknownFactType .. => some "UNKNOWN_FACT_TYPE"
  | .sessionState .. => some "SESSION_STATE_ERROR"
  | _ => none

def details : Fault → Fields
  | .noSuchFact ref => [("fact_id", ref)]
  | .staleReference ref => [("fact_id", ref)]
  | .malformedRuleSet problems => [("problems", .list (problems.map .text))]
  | .unknownFactType tag fields => [("fact_type", tag), ("fields", .list (fields.map .text))]
  | .sessionState _ state => [("state", (state.map .text).getD .null)]
  | _ => []

/-- The fault that is raised on purpose under the name of a kind. -/
def ofKind (kind message : String) : Fault :=
  if kind == "KeyError" then .missingKey (.text message)
  else if kind == "NoSuchFact" then .noSuchFact (.text message)
  else if kind == "StaleFactReference" then .staleReference (.text message)
  else if kind == "UnknownFactType" then .unknownFactType (.text message) []
  else if kind == "SessionStateError" then .sessionState message none
  else if kind == "MalformedRuleSet" then
    .malformedRuleSet (message.toList.map Char.toString)
  else if kind == "RuleEngineError" then
    .missingArguments "RuleEngineError.__init__" ["message"]
  else .raised kind message

/-- The texts from a position on. Only texts can be joined. -/
def texts (i : Nat) : List Value → Except Fault (List String)
  | [] => .ok []
  | .text s :: xs => (texts (i + 1) xs).map (s :: ·)
  | x :: _ => .error (.notJoinable i x.typeName)

end Fault
end ForwardChaining
