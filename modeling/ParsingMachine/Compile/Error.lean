/-!
# Linking errors

Why a list of rules cannot be made into a program.
-/

namespace ParsingMachine

/-- Why a list of rules cannot be made into a program. -/
inductive CompileError where
  /-- There is no rule to compile. -/
  | emptyRuleList
  /-- A compiled or referenced rule has no body. -/
  | undefinedRule (name : String)
  /-- A call goes to a rule that has a body but was not compiled. -/
  | unlinkedCall (name : String)
  deriving DecidableEq

/-- What is reported to the user. -/
def CompileError.message : CompileError → String
  | emptyRuleList => "no rules to compile"
  | undefinedRule name => "rule `" ++ name ++ "` is not defined"
  | unlinkedCall name => "call to rule `" ++ name ++ "` cannot be linked: the rule was not compiled"

end ParsingMachine
