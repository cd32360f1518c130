/-! Why an effect cannot be applied to a glyph.  A frame goes on without the effect. -/

namespace KineticText

/-- A reason why an effect leaves a glyph alone. -/
inductive EffectError
  /-- A gradient without stops. -/
  | emptyGradient
  /-- A parameter, or the frame's ticks, is infinite or NaN. -/
  | notFinite (effect parameter : String)
  /-- The track of the effect orders `covered` characters, and the one at `index` is none of
  them. -/
  | trackMismatch (covered index : Nat)
  deriving DecidableEq

/-- The reason in words. -/
def EffectError.message : EffectError → String
  | .emptyGradient => "gradient has no color stops"
  | .notFinite effect parameter => s!"{effect}: parameter {parameter} is not finite"
  | .trackMismatch covered index =>
    s!"track covers {covered} characters but index {index} was requested"

end KineticText
