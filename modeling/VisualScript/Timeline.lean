import VisualScript.Graph.PinType
import VisualScript.Numeric.Decimal

/-!
# Timeline templates

A timeline plays tracks over time.  Each track is a member of the class or a
function that the timeline calls, under a name made from its own and the track's.
-/

namespace VisualScript

open Numeric

structure TimelineTemplate where
  name : String
  length : Binary32 := .zero
  autoPlay : Bool := false
  looping : Bool := false
  replicated : Bool := false
  eventTracks : List String := []
  floatTracks : List String := []
  vectorTracks : List String := []
  linearColorTracks : List String := []
  deriving DecidableEq, Inhabited

namespace TimelineTemplate

/-- A timeline of five seconds without tracks. -/
def new (name : String) : TimelineTemplate := { name, length := .ofInt 5 }

def directionPropertyName (t : TimelineTemplate) : String := t.name ++ "__Direction"

def trackPropertyName (t : TimelineTemplate) (track : String) : String := t.name ++ "_" ++ track

def eventFunctionName (t : TimelineTemplate) (track : String) : String :=
  t.name ++ "__" ++ track ++ "__EventFunc"

def updateFunctionName (t : TimelineTemplate) : String := t.name ++ "__UpdateFunc"

def finishedFunctionName (t : TimelineTemplate) : String := t.name ++ "__FinishedFunc"

/-- The tracks that hold values, with the types of the values. -/
def dataTracks (t : TimelineTemplate) : List (String × PinType) :=
  t.floatTracks.map (·, .float)
    ++ t.vectorTracks.map (·, .struct "Vector")
    ++ t.linearColorTracks.map (·, .struct "LinearColor")

instance : JsonCodec TimelineTemplate where
  toJson t := .obj [
    ("name", toJson t.name),
    ("length", toJson t.length),
    ("auto_play", toJson t.autoPlay),
    ("looping", toJson t.looping),
    ("replicated", toJson t.replicated),
    ("event_tracks", toJson t.eventTracks),
    ("float_tracks", toJson t.floatTracks),
    ("vector_tracks", toJson t.vectorTracks),
    ("linear_color_tracks", toJson t.linearColorTracks)]
  ofJson? j := do
    let m ← j.record? ["name", "length", "auto_play", "looping", "replicated", "event_tracks",
      "float_tracks", "vector_tracks", "linear_color_tracks"]
    return {
      name := ← Json.field m "name"
      length := ← Json.fieldOr m "length" .zero
      autoPlay := ← Json.fieldOr m "auto_play" false
      looping := ← Json.fieldOr m "looping" false
      replicated := ← Json.fieldOr m "replicated" false
      eventTracks := ← Json.fieldOr m "event_tracks" []
      floatTracks := ← Json.fieldOr m "float_tracks" []
      vectorTracks := ← Json.fieldOr m "vector_tracks" []
      linearColorTracks := ← Json.fieldOr m "linear_color_tracks" [] }

end TimelineTemplate

end VisualScript
