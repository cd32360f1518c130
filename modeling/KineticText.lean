import KineticText.Attribute
import KineticText.AttributedText
import KineticText.AttributedText.Owners
import KineticText.AttributedText.Runs
import KineticText.Clock
import KineticText.Color
import KineticText.Color.Notation
import KineticText.Config
import KineticText.Effect
import KineticText.Effect.Apply
import KineticText.Effect.Choice
import KineticText.Effect.Error
import KineticText.Effect.Offset
import KineticText.Effect.Order
import KineticText.Effect.Reveal
import KineticText.Effect.Shade
import KineticText.Engine
import KineticText.Event
import KineticText.Frame
import KineticText.Glyph
import KineticText.Layout
import KineticText.Layout.Cache
import KineticText.Logged
import KineticText.Markup.Bracket
import KineticText.Markup.Flatten
import KineticText.Markup.Node
import KineticText.Markup.Parse
import KineticText.Markup.Tag
import KineticText.Markup.Token
import KineticText.Number.Decimal
import KineticText.Number.Double
import KineticText.Number.Shortest
import KineticText.Number.Single
import KineticText.Parameter
import KineticText.Params
import KineticText.Proofs.AttributedText.Runs
import KineticText.Proofs.AttributedText.Spans
import KineticText.Proofs.AttributedText.Tiling
import KineticText.Proofs.Color.Blending
import KineticText.Proofs.Color.Notation
import KineticText.Proofs.Config.Fingerprint
import KineticText.Proofs.Effect.Blocks
import KineticText.Proofs.Effect.Building
import KineticText.Proofs.Effect.Orders
import KineticText.Proofs.Effect.Shading
import KineticText.Proofs.Effect.Stops
import KineticText.Proofs.Effect.Written
import KineticText.Proofs.Engine.Freshness
import KineticText.Proofs.Engine.InStep
import KineticText.Proofs.Engine.Runs
import KineticText.Proofs.Layout.Recall
import KineticText.Proofs.Layout.Reentrance
import KineticText.Proofs.Layout.Requests
import KineticText.Proofs.Markup.Brackets
import KineticText.Proofs.Markup.Flattening
import KineticText.Proofs.Markup.Governing
import KineticText.Proofs.Markup.Limits
import KineticText.Proofs.Markup.Nesting
import KineticText.Proofs.Markup.NormalForm
import KineticText.Proofs.Markup.Occurrences
import KineticText.Proofs.Markup.OpenTags
import KineticText.Proofs.Markup.Outline
import KineticText.Proofs.Markup.ParseLimits
import KineticText.Proofs.Markup.Pieces
import KineticText.Proofs.Markup.Pruning
import KineticText.Proofs.Markup.Reading
import KineticText.Proofs.Markup.RoundTrip
import KineticText.Proofs.Markup.Scanning
import KineticText.Proofs.Markup.Spending
import KineticText.Proofs.Markup.TagGrammar
import KineticText.Proofs.Markup.Texts
import KineticText.Proofs.Markup.Written
import KineticText.Proofs.Markup.WrittenTag
import KineticText.Proofs.Number.Fields
import KineticText.Proofs.Number.Signs
import KineticText.Proofs.Parameter
import KineticText.Proofs.Params
import KineticText.Proofs.Params.History
import KineticText.Proofs.Random.Draws
import KineticText.Proofs.Random.Mixing
import KineticText.Proofs.Registry.Aliases
import KineticText.Proofs.Registry.Builtin
import KineticText.Proofs.Registry.Names
import KineticText.Proofs.Registry.NormalForm
import KineticText.Proofs.Registry.Resolvers
import KineticText.Proofs.Registry.Typewriters
import KineticText.Proofs.Render.Actions
import KineticText.Proofs.Render.Again
import KineticText.Proofs.Render.Alterations
import KineticText.Proofs.Render.Apart
import KineticText.Proofs.Render.Container
import KineticText.Proofs.Render.Drawing
import KineticText.Proofs.Render.Errors
import KineticText.Proofs.Render.Figures
import KineticText.Proofs.Render.Fillers
import KineticText.Proofs.Render.Idle
import KineticText.Proofs.Render.InPlace
import KineticText.Proofs.Render.Kept
import KineticText.Proofs.Render.Limits
import KineticText.Proofs.Render.Occurrences
import KineticText.Proofs.Render.Outermost
import KineticText.Proofs.Render.Overflow
import KineticText.Proofs.Render.Quiet
import KineticText.Proofs.Render.Reveal
import KineticText.Proofs.Render.Scrambles
import KineticText.Proofs.Render.Settling
import KineticText.Proofs.Render.SharedKeys
import KineticText.Proofs.Render.Sharing
import KineticText.Proofs.Render.Stages
import KineticText.Proofs.Render.Styled
import KineticText.Proofs.Render.Sweeping
import KineticText.Proofs.Render.Ticks
import KineticText.Proofs.Render.Twice
import KineticText.Proofs.Render.Typewriters
import KineticText.Proofs.Render.Upkeep
import KineticText.Proofs.Render.Visibility
import KineticText.Proofs.Render.Warnings
import KineticText.Proofs.Text.Words
import KineticText.Proofs.Track.Changes
import KineticText.Proofs.Track.Deadlines
import KineticText.Proofs.Track.Elapsed
import KineticText.Proofs.Track.Idle
import KineticText.Proofs.Track.IdleTimes
import KineticText.Proofs.Track.Keys
import KineticText.Proofs.Track.Origins
import KineticText.Proofs.Track.Passes
import KineticText.Proofs.Track.Regular
import KineticText.Proofs.Track.Restarts
import KineticText.Proofs.Track.Reveals
import KineticText.Proofs.Track.Room
import KineticText.Proofs.Track.Scrambles
import KineticText.Proofs.Track.Store
import KineticText.Proofs.Track.Sweeping
import KineticText.Proofs.Track.Uses
import KineticText.Proofs.Wire.Canonical
import KineticText.Proofs.Wire.Framing
import KineticText.Proofs.Wire.Laws
import KineticText.Proofs.Wire.Limits
import KineticText.Proofs.Wire.Mask
import KineticText.Proofs.Wire.Overwriting
import KineticText.Proofs.Wire.RoundTrip
import KineticText.Proofs.Wire.Sizes
import KineticText.Proofs.Wire.Spans
import KineticText.Proofs.Wire.Transport
import KineticText.Random.Digest
import KineticText.Random.Generator
import KineticText.Random.Mixing
import KineticText.Recency
import KineticText.Registry
import KineticText.Registry.Builtin
import KineticText.Render
import KineticText.Style
import KineticText.Text.Blank
import KineticText.Text.Caseless
import KineticText.Text.Graphic
import KineticText.Text.Quoted
import KineticText.Text.Utf8
import KineticText.Text.Words
import KineticText.Track.Key
import KineticText.Track.Scramble
import KineticText.Track.Store
import KineticText.Track.Typewriter
import KineticText.Wire.Error
import KineticText.Wire.Field
import KineticText.Wire.Message
import KineticText.Wire.Span
