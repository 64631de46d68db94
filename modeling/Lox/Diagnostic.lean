import Lox.Token

/-!
# Diagnostics

Everything that can be wrong with a program before it runs, with the place and the wording.
-/

namespace Lox

/-- What is being declared by a name and a parameter list. -/
inductive Routine where
  | function
  | method
deriving DecidableEq, Repr

def Routine.noun : Routine → String
  | function => "function"
  | method => "method"

/-- What the grammar asks for at a place. -/
inductive Expected where
  | className
  | superclassName
  | classBody
  | classEnd
  | routineName (r : Routine)
  | routineParameters (r : Routine)
  | parameterName
  | parametersEnd
  | routineBody (r : Routine)
  | variableName
  | variableEnd
  | forStart
  | forConditionEnd
  | forEnd
  | ifStart
  | ifEnd
  | printEnd
  | returnEnd
  | whileStart
  | whileEnd
  | blockEnd
  | statementEnd
  | propertyName
  | argumentsEnd
  | superDot
  | superMethod
  | groupEnd
  | expression
deriving DecidableEq, Repr

def Expected.message : Expected → String
  | className => "Expect class name."
  | superclassName => "Expect superclass name."
  | classBody => "Expect '\x7b' before class body."
  | classEnd => "Expect '\x7d' after class body."
  | routineName r => "Expect " ++ r.noun ++ " name."
  | routineParameters r => "Expect '(' after " ++ r.noun ++ " name."
  | parameterName => "Expect parameter name."
  | parametersEnd => "Expect ')' after parameters."
  | routineBody r => "Expect '\x7b' before " ++ r.noun ++ " body."
  | variableName => "Expect variable name."
  | variableEnd => "Expect ';' after variable declaration."
  | forStart => "Expect '(' after 'for'."
  | forConditionEnd => "Expect ';' after loop condition."
  | forEnd => "Expect ')' after for clauses."
  | ifStart => "Expect '(' after 'if'."
  | ifEnd => "Expect ')' after if condition."
  | printEnd => "Expect ';' after value."
  | returnEnd => "Expect ';' after return value."
  | whileStart => "Expect '(' after 'while'."
  | whileEnd => "Expect ')' after condition."
  | blockEnd => "Expect '\x7d' after block."
  | statementEnd => "Expect ';' after expression."
  | propertyName => "Expect property name after '.'."
  | argumentsEnd => "Expect ')' after arguments."
  | superDot => "Expect '.' after 'super'."
  | superMethod => "Expect superclass method name."
  | groupEnd => "Expect ')' after expression."
  | expression => "Expect expression."

/-- Why a program is refused. -/
inductive Cause where
  -- lexical
  | strayCharacter
  | openString
  -- grammar
  | expected (e : Expected)
  | tooManyParameters
  | tooManyArguments
  | invalidTarget
  -- scoping
  | alreadyDeclared
  | ownInitializer
  | topLevelReturn
  | initializerValue
  | selfInheritance
  | thisOutsideClass
  | superOutsideClass
  | superWithoutSuperclass
deriving DecidableEq, Repr

def Cause.message : Cause → String
  | strayCharacter => "Unexpected character."
  | openString => "Unterminated string."
  | expected e => e.message
  | tooManyParameters => "Can't have more than 255 parameters."
  | tooManyArguments => "Can't have more than 255 arguments."
  | invalidTarget => "Invalid assignment target."
  | alreadyDeclared => "Already a variable with this name in this scope."
  | ownInitializer => "Can't read local variable in its own initializer."
  | topLevelReturn => "Can't return from top-level code."
  | initializerValue => "Can't return a value from an initializer."
  | selfInheritance => "A class can't inherit from itself."
  | thisOutsideClass => "Can't use 'this' outside of a class."
  | superOutsideClass => "Can't use 'super' outside of a class."
  | superWithoutSuperclass => "Can't use 'super' in a class with no superclass."

/-- Where on its line a fault is: lexical faults have only the line. -/
inductive Place where
  | line
  | atEnd
  | atToken (lexeme : String)
deriving DecidableEq, Repr

def Place.text : Place → String
  | line => ""
  | atEnd => " at end "
  | atToken lexeme => " at '" ++ lexeme ++ "'"

/-- One fault of a program. -/
structure Diagnostic where
  line : Int
  place : Place
  cause : Cause
deriving DecidableEq, Repr

namespace Diagnostic

/-- A fault at a token. -/
def ofToken (t : Token) (cause : Cause) : Diagnostic :=
  ⟨t.line, if t.kind = .eof then .atEnd else .atToken t.lexeme, cause⟩

/-- The fault as one line of text. -/
def text (d : Diagnostic) : String :=
  "[line " ++ toString d.line ++ "] Error" ++ d.place.text ++ ": " ++ d.cause.message

/-- All faults, one a line; no text if there is none. -/
def summary? (ds : List Diagnostic) : Option String :=
  if ds.isEmpty then none else some ("\n".intercalate (ds.map text))

end Diagnostic

end Lox
