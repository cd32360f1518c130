import KineticText.Config
import KineticText.Proofs.Random.Mixing

/-! What the fingerprint of a configuration notices.  A digest takes a word in by a sum and a product
with an odd number, and both can be undone, so digests that differ once differ ever after, through
any number of words and texts.  Main statement: with the excluded screens and plugins left alone, a
change of one of the other settings that the fingerprint is taken of always changes it, and no other
setting does. -/

namespace KineticText

namespace Random.Digest

open Function

theorem mul_multiplier_injective : Injective (· * (0xF1357AEA2E62A9C5 : UInt64)) :=
  mul_injective (d := 0x781494A55DAAED0D) (by decide)

/-- Digests that differ still do when the same word is added to them. -/
theorem word_injective_left (w : UInt64) : Injective (word · w) := by
  rintro ⟨x⟩ ⟨x'⟩ h
  have hsum := mul_multiplier_injective (congrArg state h)
  exact congrArg mk ((UInt64.add_left_inj w).mp hsum)

theorem word_injective_right (d : Digest) : Injective d.word := by
  intro w w' h
  have hsum := mul_multiplier_injective (congrArg state h)
  exact (UInt64.add_right_inj d.state).mp hsum

theorem flag_injective_right (d : Digest) : Injective d.flag := by
  have hword : Injective fun b : Bool => if b then (1 : UInt64) else 0 := by
    intro b b'
    cases b <;> cases b' <;> decide
  exact d.word_injective_right.comp hword

theorem text_injective_left (s : String) : Injective (text · s) :=
  (word_injective_left 0xFF).comp (word_injective_left (hashBytes (Text.utf8 s)))

theorem foldl_text_injective (ss : List String) : Injective fun d => ss.foldl text d := by
  induction ss with
  | nil => exact injective_id
  | cons s rest ih => exact ih.comp (text_injective_left s)

theorem texts_injective_left (ss : List String) : Injective (texts · ss) :=
  (foldl_text_injective ss).comp (word_injective_left (UInt64.ofNat ss.length))

theorem value_injective : Injective value := by
  rintro ⟨x⟩ ⟨x'⟩ h
  exact congrArg mk (rotateLeft_injective (by decide) (by decide) h)

end Random.Digest

namespace Config

open Function
open KineticText.Random (Digest)

/-- The fingerprint from what has been taken in before the excluded screens. -/
def fingerprintFrom (c : Config) (d : Digest) : UInt64 :=
  ((d.texts c.excludedScreens).texts c.excludedPlugins).value

theorem fingerprintFrom_injective (c : Config) : Injective c.fingerprintFrom :=
  Digest.value_injective.comp ((Digest.texts_injective_left c.excludedPlugins).comp
    (Digest.texts_injective_left c.excludedScreens))

/-- Whatever screens and plugins a configuration excludes, its fingerprint stays the same when one
of these four settings is set exactly if the setting has that value already.  A configuration that
has the four and both exclusions from another one has its fingerprint. -/
theorem fingerprint_set_iff (c : Config) :
    (∀ enabled, { c with enabled }.fingerprint = c.fingerprint ↔ enabled = c.enabled) ∧
    (∀ effects, { c with maxEffectsPerGlyph := effects }.fingerprint = c.fingerprint ↔
      effects = c.maxEffectsPerGlyph) ∧
    (∀ depth, { c with maxSpanDepth := depth }.fingerprint = c.fingerprint ↔
      depth = c.maxSpanDepth) ∧
    (∀ depth, { c with maxNestingDepth := depth }.fingerprint = c.fingerprint ↔
      depth = c.maxNestingDepth) ∧
    ∀ other : Config, { other with
      enabled := c.enabled
      maxEffectsPerGlyph := c.maxEffectsPerGlyph
      maxSpanDepth := c.maxSpanDepth
      maxNestingDepth := c.maxNestingDepth
      excludedScreens := c.excludedScreens
      excludedPlugins := c.excludedPlugins }.fingerprint = c.fingerprint := by
  -- What follows a setting is taken in by a function that is one-to-one.
  have hdepth := c.fingerprintFrom_injective
  have hspan := hdepth.comp (Digest.word_injective_left c.maxNestingDepth)
  have heffects := hspan.comp (Digest.word_injective_left c.maxSpanDepth)
  have henabled := heffects.comp (Digest.word_injective_left c.maxEffectsPerGlyph)
  refine ⟨fun enabled => ?_, fun effects => ?_, fun depth => ?_, fun depth => ?_, fun other => rfl⟩
  · exact (henabled.comp (Digest.flag_injective_right {})).eq_iff
  · exact (heffects.comp (Digest.word_injective_right _)).eq_iff
  · exact (hspan.comp (Digest.word_injective_right _)).eq_iff
  · exact (hdepth.comp (Digest.word_injective_right _)).eq_iff

end Config

end KineticText
