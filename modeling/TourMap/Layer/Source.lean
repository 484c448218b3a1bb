import TourMap.Track

/-!
# Source: the track that a layer shows

Any thread may replace the track. Each replacement gets the next revision number; a flag of its own
says that the track changed since the layer last looked.
-/

namespace TourMap

/-- A track and how often it was replaced. -/
structure TrackSource (W : Type) where
  track : TrackData W
  revision : Nat
  /-- Whether the track changed since the flag was last taken. -/
  dirty : Bool

namespace TrackSource

variable {W : Type}

def new : TrackSource W := ⟨.empty, 0, false⟩

/-- Puts another track in place, under the next revision. -/
def swap (s : TrackSource W) (track : TrackData W) : TrackSource W :=
  { s with track, revision := s.revision + 1 }

def mark (s : TrackSource W) : TrackSource W := { s with dirty := true }

def clear (s : TrackSource W) : TrackSource W := { s with dirty := false }

def replace (s : TrackSource W) (track : TrackData W) : TrackSource W := (s.swap track).mark

end TrackSource

end TourMap
