import SolidScene.CommandLine.Arguments
import SolidScene.CommandLine.Run
import SolidScene.Geometry.BoundingBox
import SolidScene.Geometry.Matrix
import SolidScene.Geometry.Vector
import SolidScene.Json.Quoted
import SolidScene.Json.Token
import SolidScene.Json.Value
import SolidScene.Main
import SolidScene.Number.Binary64
import SolidScene.Number.Literal
import SolidScene.Number.Text
import SolidScene.Proofs.CommandLine.Printing
import SolidScene.Proofs.Geometry.BoundingBox
import SolidScene.Proofs.Geometry.Direction
import SolidScene.Proofs.Geometry.ExactScalar
import SolidScene.Proofs.Geometry.Length
import SolidScene.Proofs.Geometry.Matrix
import SolidScene.Proofs.Geometry.Overhang
import SolidScene.Proofs.Json.Grammar
import SolidScene.Proofs.Json.Reading
import SolidScene.Proofs.Json.Record
import SolidScene.Proofs.Json.Scanning
import SolidScene.Proofs.Json.Writing
import SolidScene.Proofs.Number.Addition
import SolidScene.Proofs.Number.Arithmetic
import SolidScene.Proofs.Number.Encoding
import SolidScene.Proofs.Number.Extremes
import SolidScene.Proofs.Number.ReadBack
import SolidScene.Proofs.Number.Roots
import SolidScene.Proofs.Number.Rounding
import SolidScene.Proofs.Scene.Acceptance
import SolidScene.Proofs.Scene.Brackets
import SolidScene.Proofs.Scene.Citation
import SolidScene.Proofs.Scene.Concatenation
import SolidScene.Proofs.Scene.Continuation
import SolidScene.Proofs.Scene.DepthLimit
import SolidScene.Proofs.Scene.Descent
import SolidScene.Proofs.Scene.Facing
import SolidScene.Proofs.Scene.Faults
import SolidScene.Proofs.Scene.Footprint
import SolidScene.Proofs.Scene.Grammar
import SolidScene.Proofs.Scene.Layout
import SolidScene.Proofs.Scene.LetterCase
import SolidScene.Proofs.Scene.Lexing
import SolidScene.Proofs.Scene.Likeness
import SolidScene.Proofs.Scene.Lookahead
import SolidScene.Proofs.Scene.OnText
import SolidScene.Proofs.Scene.Parameters
import SolidScene.Proofs.Scene.Planes
import SolidScene.Proofs.Scene.Pulling
import SolidScene.Proofs.Scene.Quotation
import SolidScene.Proofs.Scene.Recognition
import SolidScene.Proofs.Scene.Retry
import SolidScene.Proofs.Scene.RoundTrip
import SolidScene.Proofs.Scene.Session
import SolidScene.Proofs.Scene.Soundness
import SolidScene.Proofs.Scene.Spelling
import SolidScene.Proofs.Scene.Stages
import SolidScene.Proofs.Scene.Steps
import SolidScene.Proofs.Scene.Streaming
import SolidScene.Proofs.Settings
import SolidScene.Proofs.Solid.Blend
import SolidScene.Proofs.Solid.Bounds
import SolidScene.Proofs.Solid.CornerOrder
import SolidScene.Proofs.Solid.DistanceGrowth
import SolidScene.Proofs.Solid.Enclosure
import SolidScene.Proofs.Solid.Outline
import SolidScene.Proofs.Solid.Placement
import SolidScene.Proofs.Solid.Repetition
import SolidScene.Proofs.Solid.Sampling
import SolidScene.Proofs.Solid.Scaling
import SolidScene.Proofs.Solid.SignedDistance
import SolidScene.Proofs.Solid.Tree
import SolidScene.Proofs.Solid.Unions
import SolidScene.Proofs.Solid.WellFormed
import SolidScene.Proofs.Source.Answers
import SolidScene.Proofs.Source.IllFormed
import SolidScene.Proofs.Source.Utf8
import SolidScene.Proofs.Text.Border
import SolidScene.Proofs.Text.Cut
import SolidScene.Proofs.Text.Lexeme
import SolidScene.Proofs.Text.Nesting
import SolidScene.Proofs.Text.Place
import SolidScene.Proofs.Text.Placed
import SolidScene.Scalar
import SolidScene.Scene.Canonical
import SolidScene.Scene.Error
import SolidScene.Scene.Expression
import SolidScene.Scene.Name
import SolidScene.Scene.Parse
import SolidScene.Scene.Progress
import SolidScene.Scene.Reader
import SolidScene.Scene.Stepwise
import SolidScene.Settings
import SolidScene.Solid.Basic
import SolidScene.Solid.Bounds
import SolidScene.Solid.Distance
import SolidScene.Solid.Outline
import SolidScene.Source.Event
import SolidScene.Source.Utf8
import SolidScene.Text.Blank
import SolidScene.Text.Position
