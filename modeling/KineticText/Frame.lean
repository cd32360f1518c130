import KineticText.Color
import KineticText.Config
import KineticText.Track.Key

/-! Frames: what the host says each time it draws. -/

namespace KineticText

/-- The host's part of one drawing. -/
structure Frame where
  /-- The host's count of ticks, in fractions too. -/
  ticks : Float := 0.0
  /-- The width of a character in pixels. -/
  advance : Float := 6.0
  /-- The color of characters that nothing colors. -/
  base : Color := .white
  /-- The screen on which the text is drawn. -/
  screen : Option String := none
  /-- The plugin from which the text comes. -/
  plugin : Option String := none
  /-- The number by which the host tells this occurrence of the text apart. -/
  occurrence : Option UInt64 := none
  /-- How far the host has got. -/
  progress : Option Nat := none

/-- The key of a text in this frame. -/
def Frame.key (f : Frame) (text : String) : TrackKey :=
  match f.occurrence with
  | none => .ofText text
  | some id => .ofTextAt text id

/-- Whether a configuration turns effects off in a frame. -/
def Config.suppresses (c : Config) (f : Frame) : Bool :=
  !c.enabled || f.screen.any c.excludesScreen || f.plugin.any c.excludesPlugin

end KineticText
