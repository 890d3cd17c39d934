/-!
# Errors of models

What can go wrong when models are registered, flattened or referred to.
-/

namespace FieldMask

/-- Why a model cannot be registered, flattened or referred to. -/
inductive ModelError
  | unknownModel (name : String)
  | duplicateModel (name : String)
  /-- The flattened model has several discriminators. -/
  | duplicateDiscriminator (model : String) (fields : List String)
  /-- The models do not have exactly one ancestor in common. -/
  | ambiguousAncestor (models : List String)
  | inheritanceCycle (model : String)
  deriving DecidableEq

/-- The wording of the error. -/
def ModelError.message : ModelError → String
  | .unknownModel name => "unknown model '" ++ name ++ "'"
  | .duplicateModel name => "model '" ++ name ++ "' is already registered"
  | .duplicateDiscriminator model fields =>
    "only one discriminator allowed per schema: '" ++ model ++ "' resolves "
      ++ ", ".intercalate fields
  | .ambiguousAncestor models =>
    "unable to determine common ancestor for: " ++ ", ".intercalate models
  | .inheritanceCycle model => "inheritance cycle through model '" ++ model ++ "'"

end FieldMask
