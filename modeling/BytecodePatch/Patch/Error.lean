import BytecodePatch.Code.Rejection

/-!
# Patch errors

Why the patching of a method fails. Every such error is final for the build: what a rule
takes for granted about a method does not hold, or the rules are put to a wrong use.
-/

namespace BytecodePatch

/-- The direction of a search. -/
inductive Direction where
  | forward | backward
deriving DecidableEq

def Direction.text : Direction → String
  | forward => "forward"
  | backward => "backward"

/-- Why an edit does not fit the instruction at which it was to be made. -/
inductive Misfit where
  | notConditionalBranch
  | emptyGuard
  | emptyReplacement
  | nothingToReplace
  | notLiteral
  | unconsumedLiteral
  | startReached (pending : Nat)
  | notArithmetic
  | wrongLiteral (expected : String)
  | wrongVariable (expected found : String)
  | undeclaredVariable
deriving DecidableEq

def Misfit.message : Misfit → String
  | notConditionalBranch => "expected a conditional branch"
  | emptyGuard => "empty guard condition"
  | emptyReplacement => "empty replacement"
  | nothingToReplace => "nothing to replace"
  | notLiteral => "expected a literal push"
  | unconsumedLiteral => "no call consumes the literal in the same block"
  | startReached pending =>
      "reached the start of the body with " ++ toString pending ++ " operand(s) pending"
  | notArithmetic => "only literals, variable loads and binary arithmetic are supported"
  | wrongLiteral expected => "literal is not " ++ expected
  | wrongVariable expected found => "expected a " ++ expected ++ " variable, found " ++ found
  | undeclaredVariable => "variable has no declared type"

/-- Why patching fails. -/
inductive PatchError where
  | symbolNotFound (type member : String)
  | ambiguousSymbol (type member : String) (candidates : List String)
  /-- The position is that of the last match of the searching cursor. -/
  | patternNotFound (pattern : String) (direction : Direction) (lastMatch : Option Nat)
  /-- The instruction is the one at the position, in text. -/
  | unsupportedShape (position : Nat) (instr : String) (misfit : Misfit)
  | duplicateRule (rule : String)
  | unknownRule (rule : String)
  | ruleAlreadyApplied (rule target : String)
  | missingBody (target : String)
  | alreadyCommitted (target : String)
  | notAMethod (name : String)
  | invalidArgument (reason : String)
  /-- A cursor, or the place it is sent to, is not in the code. -/
  | invalidAnchor
  | rejected (rejection : Rejection)

def PatchError.message : PatchError → String
  | symbolNotFound type member => "no loaded module defines `" ++ type ++ "::" ++ member ++ "`"
  | ambiguousSymbol type member candidates =>
      "`" ++ type ++ "::" ++ member ++ "` is ambiguous; candidates: " ++
        String.intercalate ", " candidates
  | patternNotFound pattern direction lastMatch =>
      "pattern [" ++ pattern ++ "] not found searching " ++ direction.text ++
        match lastMatch with
        | some position => " (last match at position " ++ toString position ++ ")"
        | none => ""
  | unsupportedShape position instr misfit =>
      "unsupported operand shape at position " ++ toString position ++ " (`" ++ instr ++
        "`): " ++ misfit.message
  | duplicateRule rule => "rule `" ++ rule ++ "` is already registered"
  | unknownRule rule => "no rule named `" ++ rule ++ "` is registered"
  | ruleAlreadyApplied rule target =>
      "rule `" ++ rule ++ "` was already applied to `" ++ target ++ "`"
  | missingBody target => "`" ++ target ++ "` has no body to patch"
  | alreadyCommitted target => "`" ++ target ++ "` is already committed"
  | notAMethod name => "`" ++ name ++ "` is not a method"
  | invalidArgument reason => "invalid rule argument: " ++ reason
  | invalidAnchor => "cursor does not point into this stream"
  | rejected rejection => rejection.message

def liftRejection {α : Type} : Except Rejection α → Except PatchError α
  | .ok value => .ok value
  | .error rejection => .error (.rejected rejection)

instance : MonadLift (Except Rejection) (Except PatchError) where
  monadLift := liftRejection

end BytecodePatch
