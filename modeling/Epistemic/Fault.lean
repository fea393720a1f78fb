/-!
# Faults

Why reading or printing stops. A *refusal* is a rule of the language that the input breaks, and has a fixed text.
The other faults are inputs of a shape in which the next step has no meaning.
-/
namespace Epistemic

/-- A rule of the language that an input breaks. -/
inductive Refusal where
  | requirement (name : String)
  | notADomain (file : String)
  | notAProblem (file : String)
  | otherDomain
  | secondSupertype (name : String)
  | hyphen (place : String)
  | secondPredicate (name : String)
  | secondAction (name : String)
  | namelessAction
  | actionKind
  | secondGroup (name : String)
  | undeclaredGroup (name : String)
  | notAList (place : String)
  | negation (place : String)
  | emptyNegation
  | keywordInCondition (place : String)
  | keywordInBody (place : String)
  | keywordInQuantifier (place : String)
  | quantifier
  | difference
  | nesting
  | unknownType (name : String)
  | standsForItself (name : String)
  | severalQuantified
  | severalConditions
  | strangeCondition
  | noObserver
  deriving DecidableEq, Repr

/-- The text of a refusal. -/
def Refusal.message : Refusal → String
  | requirement name => "Requirement " ++ name ++ " not supported"
  | notADomain file => "File " ++ file ++ " does not match domain pattern"
  | notAProblem file => "File " ++ file ++ " does not match problem pattern"
  | otherDomain => "Different domain specified in problem file"
  | secondSupertype name => "Redefined supertype of " ++ name
  | hyphen place => "Unexpected hyphen in " ++ place
  | secondPredicate name => "Predicate " ++ name ++ " redefined"
  | secondAction name => "Action " ++ name ++ " redefined"
  | namelessAction => "Action without name definition"
  | actionKind => "Error with the action type definition. Please select one of the following: " ++
      "'ontic', 'sensing', 'announcement'"
  | secondGroup name => "Observability Group " ++ name ++ " redefined"
  | undeclaredGroup name => "Undeclared observability group: " ++ name ++ "."
  | notAList place => "Error with " ++ place
  | negation place => "Unexpected not in " ++ place
  | emptyNegation => "Expected predicate after a 'not'"
  | keywordInCondition place => "Error with " ++ place ++
      " you cannot embed other keywords, other than 'and', in the 'when' condition"
  | keywordInBody place => "Error with " ++ place ++
      " you cannot embed other keywords, other than 'and', in the 'when' body"
  | keywordInQuantifier place => "Error with " ++ place ++
      " you cannot embed other keywords in the 'forall' condition"
  | quantifier => "'Forall' keyword only implemented for agents"
  | difference => "Bad 'diff' construction"
  | nesting => "To many nested command in the agents' observability"
  | unknownType name => "Unrecognized type " ++ name
  | standsForItself name => "Variable " ++ name ++ " stands for itself"
  | severalQuantified => "PDKB coversion cannot handle mutiple Fully Observants Group, " ++
      "make use of the explicit fields."
  | severalConditions => "PDKB coversion cannot handle mutiple Fully Observants Groups, " ++
      "make use of the explicit fields."
  | strangeCondition => "PDKB coversion cannot handle strange specification for Fully Observants Groups, " ++
      "make use of the explicit fields."
  | noObserver => "Each action needs at least one fully observant agent."

/-- Why a step has no result. -/
inductive Fault where
  /-- A rule of the language is broken. -/
  | refused (why : Refusal)
  /-- An item past the end of a list or word. -/
  | missingItem
  /-- A word where items are to be taken out of a list. -/
  | wordForList
  /-- A list where the letters of a word are to be changed. -/
  | listForWord
  /-- A list where a name is to be joined, written or looked up. -/
  | listForName
  /-- A letter of a word is to be exchanged. -/
  | fixedWord
  /-- A part of the task is asked for before it has been read. -/
  | unread
  /-- No object has the type of agents. -/
  | noAgents
  /-- An action says nothing about a group of observers. -/
  | unknownGroup
  /-- What is to be exchanged is no longer there. -/
  | exchangedBefore
  /-- A parameter is not a variable with a type. -/
  | notAPair
  /-- A word is not a numeral. -/
  | notANumeral
  /-- A replacement template with a wrong escape. -/
  | template
  /-- A type is a subtype of itself. -/
  | circularType
  /-- Observer groups have no shown form. -/
  | noShownForm
  /-- The command line is too short. -/
  | missingArgument
  /-- The problem file names no domain file. -/
  | noDomainFile
  /-- An action is described by too few parts. -/
  | incompleteAction
  deriving DecidableEq, Repr

/-- What a fault says to a user. -/
def Fault.message : Fault → String
  | refused why => why.message
  | missingItem => "an item is missing"
  | wordForList => "a list was expected, and a word was found"
  | listForWord => "a word was expected, and a list was found"
  | listForName => "a name was expected, and a list was found"
  | fixedWord => "a part of a word cannot be exchanged"
  | unread => "the task has not been read as far as that"
  | noAgents => "no agents are declared"
  | unknownGroup => "a group of observers is missing in an action"
  | exchangedBefore => "a term was exchanged before"
  | notAPair => "a parameter is not a variable with a type"
  | notANumeral => "the depth is not a number"
  | template => "a name has a wrong escape"
  | circularType => "a type is a subtype of itself"
  | noShownForm => "actions with observer groups have no shown form"
  | missingArgument => "an argument is missing"
  | noDomainFile => "the problem file names no domain file"
  | incompleteAction => "an action is described by too few parts"

end Epistemic
