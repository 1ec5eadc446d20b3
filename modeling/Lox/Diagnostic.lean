import Lox.Token

/-!
What can be wrong with a program or its run, and how it is told to the user.

Each stage has a type of faults; a diagnostic is a fault at its place. The wording of a fault is
its `message`, and `Diagnostic.text` puts the place in front of it.
-/

namespace Lox

inductive LexicalFault
  | unexpectedCharacter (c : Char)
  | unterminatedString
  deriving DecidableEq, Repr

def LexicalFault.message : LexicalFault → String
  | unexpectedCharacter c => "Unexpected character: " ++ c.toString
  | unterminatedString => "Unterminated string."

/-- What a function declaration declares. -/
inductive Callable
  | function
  | method
  deriving DecidableEq, Repr

def Callable.word : Callable → String
  | function => "function"
  | method => "method"

/-- What a name is missing for. -/
inductive Named
  | class_
  | callable (c : Callable)
  | parameter
  | variable_
  | property
  deriving DecidableEq, Repr

def Named.phrase : Named → String
  | class_ => "class name"
  | callable c => c.word ++ " name"
  | parameter => "parameter name"
  | variable_ => "variable name"
  | property => "property name after '.'"

/-- Where a symbol is missing. -/
inductive Place
  | beforeClassBody
  | afterClassBody
  | afterCallableName (c : Callable)
  | afterParameters
  | beforeCallableBody (c : Callable)
  | afterVariable
  | afterWord (k : Keyword)
  | afterLoopCondition
  | afterForClauses
  | afterIfCondition
  | afterValue
  | afterReturnValue
  | afterCondition
  | afterExpression
  | afterBlock
  | afterArguments
  deriving DecidableEq, Repr

def Place.phrase : Place → String
  | beforeClassBody => "before class body"
  | afterClassBody => "after class body"
  | afterCallableName c => "after " ++ c.word ++ " name"
  | afterParameters => "after parameters"
  | beforeCallableBody c => "before " ++ c.word ++ " body"
  | afterVariable => "after variable declaration"
  | afterWord k => "after '" ++ k.spelling ++ "'"
  | afterLoopCondition => "after loop condition"
  | afterForClauses => "after for clauses"
  | afterIfCondition => "after if condition"
  | afterValue => "after value"
  | afterReturnValue => "after return value"
  | afterCondition => "after condition"
  | afterExpression => "after expression"
  | afterBlock => "after block"
  | afterArguments => "after arguments"

inductive SyntaxFault
  | missingName (named : Named)
  | missing (s : Symbol) (place : Place)
  | missingExpression
  | missingEnd
  | tooManyParameters
  | tooManyArguments
  | invalidTarget
  deriving DecidableEq, Repr

def SyntaxFault.message : SyntaxFault → String
  | missingName named => "Expect " ++ named.phrase ++ "."
  | missing s place => "Expect '" ++ s.spelling ++ "' " ++ place.phrase ++ "."
  | missingExpression => "Expect expression."
  | missingEnd => "Expect end of expression."
  | tooManyParameters => "Can't have more than 255 parameters."
  | tooManyArguments => "Can't have more than 255 arguments."
  | invalidTarget => "Invalid assignment target."

inductive ResolutionFault
  | returnOutsideFunction
  | valueFromInitializer
  | thisOutsideClass
  | alreadyDeclared
  | readInOwnInitializer
  deriving DecidableEq, Repr

def ResolutionFault.message : ResolutionFault → String
  | returnOutsideFunction => "Can't return from top-level code."
  | valueFromInitializer => "Can't return a value from an initializer."
  | thisOutsideClass => "Can't use 'this' outside of a class."
  | alreadyDeclared => "Already a variable with this name in this scope."
  | readInOwnInitializer => "Can't read local variable in its own initializer."

inductive RuntimeFault
  | undefinedVariable (name : String)
  | undefinedProperty (name : String)
  | operandNotNumber
  | operandsNotNumbers
  | operandsNotAddable
  | divisionByZero
  | notUnaryOperator
  | notBinaryOperator
  | notCallable
  | wrongArgumentCount (expected got : Nat)
  | stackOverflow
  | noProperties
  | noFields
  deriving DecidableEq, Repr

def RuntimeFault.message : RuntimeFault → String
  | undefinedVariable name => "Undefined variable '" ++ name ++ "'."
  | undefinedProperty name => "Undefined property '" ++ name ++ "'."
  | operandNotNumber => "Operand must be a number."
  | operandsNotNumbers => "Operands must be numbers."
  | operandsNotAddable => "Operands must be two numbers or two strings."
  | divisionByZero => "Division by zero."
  | notUnaryOperator => "Invalid unary operator."
  | notBinaryOperator => "Invalid binary operator."
  | notCallable => "Can only call functions and classes."
  | wrongArgumentCount expected got =>
      "Expected " ++ toString expected ++ " arguments but got " ++ toString got ++ "."
  | stackOverflow => "Stack overflow."
  | noProperties => "Only instances have properties."
  | noFields => "Only instances have fields."

/-- Why the output of a program could not be delivered. -/
inductive SinkFault
  | full
  | flushFailed
  deriving DecidableEq, Repr

def SinkFault.message : SinkFault → String
  | full => "sink full"
  | flushFailed => "flush failed"

/-- A fault at its place: a line of the text, or a token. -/
inductive Diagnostic
  | lexical (line : Nat) (fault : LexicalFault)
  | syntactic (place : Token) (fault : SyntaxFault)
  | resolution (place : Token) (fault : ResolutionFault)
  | runtime (place : Token) (fault : RuntimeFault)
  | output (fault : SinkFault)
  deriving DecidableEq

namespace Diagnostic

def message : Diagnostic → String
  | lexical _ fault => fault.message
  | syntactic _ fault => fault.message
  | resolution _ fault => fault.message
  | runtime _ fault => fault.message
  | output fault => fault.message

def line? : Diagnostic → Option Nat
  | lexical line _ => some line
  | syntactic place _ => some place.line
  | resolution place _ => some place.line
  | runtime place _ => some place.line
  | output _ => none

/-- The fault of a name that is bound nowhere. -/
def undefined (name : Token) : Diagnostic := .runtime name (.undefinedVariable name.lexeme)

/-- The token is quoted as it stands in the program, and the end of the input is named. -/
def atToken (place : Token) (message : String) : String :=
  let position := if place.isEnd then "at end" else "at '" ++ place.lexeme ++ "'"
  "[line " ++ toString place.line ++ "] Error " ++ position ++ ": " ++ message

def text : Diagnostic → String
  | lexical line fault => "[line " ++ toString line ++ "] Error: " ++ fault.message
  | syntactic place fault => atToken place fault.message
  | resolution place fault => atToken place fault.message
  | runtime place fault => atToken place fault.message
  | output fault => fault.message

end Diagnostic

end Lox
