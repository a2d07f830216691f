import DiagLayout.Grammar

/-!
# The C++ of diagnostics

The types and functions that compilers quote. Groups are taken whole: what is between brackets is
not looked into. `Dialect.type` describes types and `Dialect.function` describes functions.
-/

namespace DiagLayout.Dialect

open Grammar

/-! ### Words -/

/-- The words that may stand before the name of a type. -/
def qualifiers : List Text :=
  ["const".toList, "volatile".toList, "unsigned".toList, "signed".toList, "long".toList,
   "short".toList, "struct".toList, "class".toList, "union".toList, "enum".toList,
   "typename".toList]

/-- The words that may stand before a function. -/
def specifiers : List Text :=
  ["constexpr".toList, "static".toList, "virtual".toList, "inline".toList, "explicit".toList]

/-- What may follow the parameters of a member function. -/
def memberQualifiers : List Text :=
  ["const".toList, "volatile".toList, "&&".toList, "&".toList, "noexcept".toList]

/-- What may follow a type after a space. -/
def referenceMarks : List Text := ["*".toList, "&".toList, "&&".toList]

/-- How a group of substitutions starts. -/
def withOpening : Text := "[with ".toList

/-! ### Rules -/

/-- A word that qualifies access to a type. -/
def constOrVolatile : Grammar := alts [spacedWord "const".toList, spacedWord "volatile".toList]

/-- A word before the name of a type. -/
def qualifier : Grammar := alts (qualifiers.map spacedWord)

/-- The type of an expression. -/
def decltypeOf : Grammar :=
  seqs [opt (spacedWord "constexpr".toList), word "decltype".toList, opt spaces, group '(']

/-- Template arguments, and what may follow each list of them. -/
def templateArguments : Grammar := many (seqs [group '<', opt symbol])

/-- A type. -/
def type : Grammar :=
  alts [decltypeOf,
    seqs [opt (many qualifier), symbol, opt templateArguments,
      opt (seqs [spaces, anyWord referenceMarks])]]

/-- The template parameters of a function. -/
def templateHeader : Grammar :=
  seqs [word "template".toList, opt spaces, group '<', spaces]

/-- The substitutions of a function's template parameters. -/
def withGroup : Grammar := groupWith '[' "with ".toList

/-- A qualifier of a member function. -/
def memberQualifier : Grammar := anyWord memberQualifiers

/-- The return type after an arrow. -/
def arrowReturn : Grammar :=
  seqs [word "->".toList, spaces, type, opt spaces]

/-- The parameters of a function and all that may follow them. -/
def parameters : Grammar :=
  seqs [group '(', opt spaces, opt (many (seqs [memberQualifier, opt spaces])),
    opt arrowReturn, opt withGroup]

/-- A function. Constructors have no return type, and a function template may be named by its
arguments alone. -/
def function : Grammar :=
  seqs [opt templateHeader, opt (many (alts (specifiers.map spacedWord))),
    opt (seqs [type, spaces]),
    alts [seqs [type, parameters], seqs [symbol, group '<']]]

end DiagLayout.Dialect
