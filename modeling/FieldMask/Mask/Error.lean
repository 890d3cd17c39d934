import FieldMask.Mask.Parser
import FieldMask.Model.Error
import FieldMask.Pointer

/-!
# Errors of applying masks

A mask that selects below a scalar is inconsistent with the value or model that it is applied to;
the error carries the place of that scalar.
-/

namespace FieldMask

/-- The place of a scalar that a mask selects below. -/
structure Inconsistency where
  place : Pointer
  deriving DecidableEq

/-- The wording of an inconsistency. -/
def Inconsistency.message (e : Inconsistency) : String :=
  "mask is inconsistent with model at " ++ e.place.shown

/-- Why a mask cannot be applied. -/
inductive MaskError
  | parse (error : MaskParseError)
  | inconsistent (error : Inconsistency)
  | model (error : ModelError)
  deriving DecidableEq

/-- The wording of the error. -/
def MaskError.message : MaskError → String
  | .parse e => e.message
  | .inconsistent e => e.message
  | .model e => e.message

end FieldMask
