import TourMap.Number.Binary
import TourMap.Number.Arithmetic
import TourMap.Number.Fixed
import TourMap.Geometry.Point
import TourMap.Geometry.Mercator
import TourMap.Geometry.Clipper
import TourMap.Position
import TourMap.Number.Decimal
import TourMap.Style
import TourMap.Config
import TourMap.Track
import TourMap.Buckets
import TourMap.Trace
import TourMap.Builder
import TourMap.Layer.Source
import TourMap.Layer.WorkerState
import TourMap.Layer.Worker
import TourMap.Layer.TourLayer
import TourMap.Layer.Schedule
import TourMap.Text.Utf8
import TourMap.Json.Scan
import TourMap.Config.Json
import TourMap.Json.Value
import TourMap.TrackFile.GeoJson
import TourMap.Text.Digits
import TourMap.Xml.Character
import TourMap.Xml.Encoding
import TourMap.Xml.Token
import TourMap.Xml.Name
import TourMap.Xml.Value
import TourMap.Xml.Declaration
import TourMap.Xml.Entity
import TourMap.Xml.Doctype
import TourMap.Xml.Tag
import TourMap.Xml.Event
import TourMap.Xml.Reader
import TourMap.TrackFile.Gpx
import TourMap.TrackFile.Pool
import TourMap.TrackFile.Load
import TourMap.CommandLine.Argument
import TourMap.CommandLine.Options
import TourMap.Animation
import TourMap.Program
import TourMap.Main
import TourMap.Proofs.History
import TourMap.Proofs.Config
import TourMap.Proofs.Track
import TourMap.Proofs.Buckets
import TourMap.Proofs.Geometry.Clipper
import TourMap.Proofs.Geometry.Segment
import TourMap.Proofs.Geometry.Clipping
import TourMap.Proofs.Trace
import TourMap.Proofs.Trace.Tours
import TourMap.Proofs.Trace.Visible
import TourMap.Proofs.Builder
import TourMap.Proofs.Builder.Tours
import TourMap.Proofs.Builder.InPlace
import TourMap.Proofs.Builder.Visible
import TourMap.Proofs.Layer.WorkerState
import TourMap.Proofs.Layer.Worker
import TourMap.Proofs.Layer.Orders
import TourMap.Proofs.Layer.Polling
import TourMap.Proofs.Layer.Progress
import TourMap.Proofs.Layer.Moves
import TourMap.Proofs.Layer.Calls
import TourMap.Proofs.Layer.Buffers
import TourMap.Proofs.Layer.Attention
import TourMap.Proofs.Layer.PendingWork
import TourMap.Proofs.Layer.Freshness
import TourMap.Proofs.Animation.Turn
import TourMap.Proofs.Animation.Looking
import TourMap.Proofs.Animation.Course
import TourMap.Proofs.Program
import TourMap.Proofs.TrackFile.Pool
import TourMap.Proofs.TrackFile.Load
import TourMap.Proofs.Number.Rational
import TourMap.Proofs.Position
import TourMap.Proofs.Trace.Pixel
import TourMap.Proofs.Number.Interval
import TourMap.Proofs.Layer.Nearness
import TourMap.Proofs.Number.Rounding
import TourMap.Proofs.Number.Value
import TourMap.Proofs.Number.Magnitude
import TourMap.Proofs.Geometry.Crossing
import TourMap.Proofs.World
import TourMap.Proofs.Trace.Points
import TourMap.Proofs.Builder.Extent
import TourMap.Proofs.Json.Reader
import TourMap.Proofs.Config.Json
import TourMap.Proofs.CommandLine.Options
import TourMap.Proofs.Layer.Drawn
import TourMap.Proofs.Animation.Events
import TourMap.Proofs.Program.World
import TourMap.Proofs.Track.Pieces
import TourMap.Proofs.Layer.Counters
import TourMap.Proofs.Trace.Sketch
import TourMap.Proofs.Trace.Order
import TourMap.Proofs.Builder.Order
import TourMap.Proofs.Number.Absorption
import TourMap.Proofs.Trace.Arrows
import TourMap.Proofs.Trace.Decimation
import TourMap.Proofs.Builder.Decimation
import TourMap.Proofs.Geometry.Intersection
import TourMap.Proofs.Builder.Completion
import TourMap.Proofs.Trace.Samples
import TourMap.Proofs.Builder.Samples
import TourMap.Proofs.Number.Integral
import TourMap.Proofs.Builder.Compile
import TourMap.Proofs.Builder.Copies
import TourMap.Proofs.Geometry.Polyline
import TourMap.Proofs.Track.Validation
import TourMap.Proofs.Layer.Replacement
import TourMap.Proofs.Buckets.Edits
import TourMap.Proofs.Builder.Style
import TourMap.Proofs.Layer.Restyling
import TourMap.Proofs.Position.Dateline
import TourMap.Proofs.Position.Tiles
import TourMap.Proofs.Json.Numeral
import TourMap.Proofs.Json.Text
import TourMap.Proofs.TrackFile.GeoJson
import TourMap.Proofs.Text.Utf8
import TourMap.Proofs.Xml.Written
import TourMap.Proofs.Xml.Lexing
import TourMap.Proofs.Xml.Attributes
import TourMap.Proofs.Xml.Runs
import TourMap.Proofs.Xml.Tags
import TourMap.Proofs.Xml.Contents
import TourMap.Proofs.Xml.Documents
import TourMap.Proofs.TrackFile.GpxElements
import TourMap.Proofs.TrackFile.Gpx
import TourMap.Proofs.Number.Exact
import TourMap.Proofs.Geometry.Exact
import TourMap.Proofs.Trace.Buffers
import TourMap.Proofs.Trace.Pace
import TourMap.Proofs.Builder.Pace
