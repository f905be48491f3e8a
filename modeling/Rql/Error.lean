import Rql.Comparison

/-!
# What can go wrong

Errors say what is wrong with a query or a table, in data; `message` is the one place that puts them
into words. A client can mend the first four kinds by asking differently, the last two only by other
tables or another set of compilers.

Each kind has a cause of its own. A cause `stated` carries the words of a caller that has a reason
this library does not know.
-/

namespace Rql

/-- Why a query is no query. -/
inductive Fault where
  /-- There is no term in a text. -/
  | emptyExpression
  | unbalancedClose (text : String)
  | unbalancedOpen (text : String)
  /-- What stands before the parenthesis is no name. -/
  | badCallName (text : String)
  | unterminatedQuote (text : String)
  | emptyArgument (text : String)
  | textBehindQuote (text : String)
  | unclosedQuote (text : String)
  | wordForPredicate (word : Literal)
  | unknownFunction (name : String)
  | noField (op : Operator)
  /-- The first argument is a call. -/
  | callForField (op : Operator)
  /-- A further argument is a call. -/
  | callForValue (op : Operator) (arg : Term)
  | wrongValueCount (op : Operator) (field : String) (count : Nat)
  | noValue (comparison : Comparison)
  | emptyGroup (conjunction : Conjunction)
  /-- A parameter that is a call has a value. -/
  | valueBehindCall (key value : String)
  | parameterWithoutValue (key : String)
  | badCount (what text : String)
  | zeroPageSize
  | pageSizeAbove (size greatest : Nat)
  | zeroPage
  | pageOutOfRange (page : Nat)
  | emptyOrderField (text : String)
  | badPercentEscape (text : String)
  | notUtf8 (text : String)
  /-- A value does not fit the type of its column. -/
  | typeMismatch (text type column : String)
  | stated (reason : String)

/-- Why an operator cannot be had. -/
inductive OperatorLimit where
  | noFullText
  | partitionKeyEquality
  | sortKeyOperators
  | stated (reason : String)

/-- Why an order cannot be had. -/
inductive SortLimit where
  | singleKey
  | scan
  /-- The index sorts on another key, or on none. -/
  | indexOrder (index : String) (sortKey : Option String)
  | stated (reason : String)

/-- Why tables or settings are unfit. -/
inductive Flaw where
  | noName
  | primaryCount (count : Nat)
  | severalPrimaries
  | noPartitionKey (index : String)
  | noPrimaryIndex
  | partitionKeyNotCovered
  | keyColumnCount (count : Nat)
  | definedTwice
  | zeroDefaultPageSize
  | defaultPageSizeAbove (size greatest : Nat)
  | noIdentityField
  | unreadableSettings
  | badSettings
  | unreadableDirectory
  | unreadableFile
  | badDescriptor
  | stated (reason : String)

/-- What a query or a table is refused for. -/
inductive Error where
  | malformed (fault : Fault)
  | unknownField (table field : String)
  | unsupportedOperator (op : Operator) (field : String) (limit : OperatorLimit)
  | unsupportedSort (field : String) (limit : SortLimit)
  | unsupportedBackend (name : String)
  | invalidMetadata (table : String) (flaw : Flaw)

namespace Fault

/-- The fault in words. -/
def reason : Fault → String
  | emptyExpression => "empty expression"
  | unbalancedClose text => "unbalanced ')' in '" ++ text ++ "'"
  | unbalancedOpen text => "unbalanced '(' in '" ++ text ++ "'"
  | badCallName text => "invalid function name in '" ++ text ++ "'"
  | unterminatedQuote text => "unterminated quote in '" ++ text ++ "'"
  | emptyArgument text => "empty argument in '" ++ text ++ "'"
  | textBehindQuote text => "unexpected text after closing quote in " ++ text
  | unclosedQuote text => "cannot dequote " ++ text
  | wordForPredicate word => "expected a predicate, found '" ++ word.render ++ "'"
  | unknownFunction name => "unknown function '" ++ name ++ "'"
  | noField op => "'" ++ op.token ++ "' requires a field"
  | callForField op => "'" ++ op.token ++ "' expects a field name first"
  | callForValue op arg =>
    "'" ++ op.token ++ "' does not accept nested call '" ++ arg.render ++ "'"
  | wrongValueCount op field count =>
    "'" ++ op.token ++ "(" ++ field ++ ")' takes " ++ op.arity.render ++ " value(s), got "
      ++ toString count
  | noValue comparison => "'" ++ comparison.render ++ "' requires a value"
  | emptyGroup conjunction => "'" ++ conjunction.token ++ "' requires at least one predicate"
  | valueBehindCall key value => "unexpected value '" ++ value ++ "' after '" ++ key ++ "'"
  | parameterWithoutValue key => "parameter '" ++ key ++ "' has no value"
  | badCount what text => "invalid " ++ what ++ ": " ++ text
  | zeroPageSize => "page size must be > 0"
  | pageSizeAbove size greatest =>
    "page size " ++ toString size ++ " exceeds maximum " ++ toString greatest
  | zeroPage => "page numbers start at 1"
  | pageOutOfRange page => "page " ++ toString page ++ " is out of range"
  | emptyOrderField text => "empty order field in '" ++ text ++ "'"
  | badPercentEscape text => "bad percent escape in '" ++ text ++ "'"
  | notUtf8 text => "invalid UTF-8 in '" ++ text ++ "'"
  | typeMismatch text type column =>
    "'" ++ text ++ "' is not a valid " ++ type ++ " value for column '" ++ column ++ "'"
  | stated reason => reason

end Fault

namespace OperatorLimit

/-- The limit in words. -/
def reason : OperatorLimit → String
  | noFullText => "full-text search is not available on SQL tables"
  | partitionKeyEquality => "partition keys only support equality"
  | sortKeyOperators => "sort keys support eq, gt, ge, lt, le and a single sw prefix"
  | stated reason => reason

end OperatorLimit

namespace SortLimit

/-- The limit in words. -/
def reason : SortLimit → String
  | singleKey => "partition-key tables sort on a single key"
  | scan => "a full scan cannot be ordered"
  | indexOrder index sortKey =>
    "index '" ++ index ++ "' sorts on '" ++ sortKey.getD "<none>" ++ "'"
  | stated reason => reason

end SortLimit

namespace Flaw

/-- The flaw in words. -/
def reason : Flaw → String
  | noName => "table name is empty"
  | primaryCount count => "expected exactly one primary index, found " ++ toString count
  | severalPrimaries => "more than one primary index"
  | noPartitionKey index => "index '" ++ index ++ "' has no partition key"
  | noPrimaryIndex => "partition tables need a primary index"
  | partitionKeyNotCovered => "chosen index partition key is not covered"
  | keyColumnCount count =>
    "entity keys need exactly one key column, found " ++ toString count
  | definedTwice => "table is defined more than once"
  | zeroDefaultPageSize => "default_page_size must be > 0"
  | defaultPageSizeAbove size greatest =>
    "default_page_size " ++ toString size ++ " exceeds max_page_size " ++ toString greatest
  | noIdentityField => "identity_field cannot be empty"
  | unreadableSettings => "Failed to read config"
  | badSettings => "Invalid config JSON"
  | unreadableDirectory => "Failed to read metadata directory"
  | unreadableFile => "Failed to read file"
  | badDescriptor => "Invalid JSON"
  | stated reason => reason

end Flaw

namespace Error

/-- The name of the kind of error, which never changes. -/
def code : Error → String
  | malformed _ => "RQL_MALFORMED_QUERY"
  | unknownField .. => "RQL_UNKNOWN_FIELD"
  | unsupportedOperator .. => "RQL_UNSUPPORTED_OPERATOR"
  | unsupportedSort .. => "RQL_UNSUPPORTED_SORT"
  | unsupportedBackend _ => "RQL_UNSUPPORTED_BACKEND"
  | invalidMetadata .. => "RQL_INVALID_METADATA"

/-- The error in words. -/
def message : Error → String
  | malformed fault => "Malformed query: " ++ fault.reason
  | unknownField table field => "Unknown field '" ++ field ++ "' on table '" ++ table ++ "'"
  | unsupportedOperator op field limit =>
    "Operator '" ++ op.token ++ "' is not supported on field '" ++ field ++ "': " ++ limit.reason
  | unsupportedSort field limit => "Cannot sort on field '" ++ field ++ "': " ++ limit.reason
  | unsupportedBackend name => "No compiler registered for backend '" ++ name ++ "'"
  | invalidMetadata table flaw =>
    "Invalid metadata for table '" ++ table ++ "': " ++ flaw.reason

/-- The field that the error is about. -/
def field? : Error → Option String
  | unknownField _ field | unsupportedOperator _ field _ | unsupportedSort field _ => some field
  | _ => none

/-- The request is at fault, and not the tables or the compilers. -/
def isClientError : Error → Bool
  | unsupportedBackend _ | invalidMetadata .. => false
  | _ => true

end Error

end Rql
