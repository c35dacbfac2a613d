/-
  Groq.Value.Geography — points on the globe and the distance between them.

  A point is a GeoJSON point, with the longitude first, or a stored geopoint with `lat` and `lng`.
  Distances are along great circles on a sphere of the mean radius of the Earth.
-/

import Groq.Value

namespace Groq.Value

def geometryTypes : List String :=
  ["Point", "LineString", "Polygon", "MultiPoint", "MultiLineString", "MultiPolygon"]

/-- Latitude and longitude in degrees. -/
structure Position where
  latitude : Float
  longitude : Float

def isGeopoint (v : Value) : Bool := v.stringField? "_type" == some "geopoint"

def position? (v : Value) : Option Position :=
  if v.isGeopoint then do
    let latitude ← (v.field? "lat").bind number?
    let longitude ← (v.field? "lng").bind number?
    return ⟨latitude, longitude⟩
  else if v.stringField? "type" == some "Point" then
    match (v.field? "coordinates").bind items? with
    | some [longitude, latitude] => do return ⟨← latitude.number?, ← longitude.number?⟩
    | _ => none
  else none

def isGeometry (v : Value) : Bool :=
  if v.isGeopoint then v.position?.isSome
  else
    (v.stringField? "type").any geometryTypes.contains &&
      ((v.field? "coordinates").bind items?).isSome

def geometry (v : Value) : Value := if v.isGeometry then v else null

/-- The GeoJSON point at a latitude and longitude in range. -/
def latLng : Value → Value → Value
  | number latitude, number longitude =>
    if -90 ≤ latitude ∧ latitude ≤ 90 ∧ -180 ≤ longitude ∧ longitude ≤ 180 then
      object [("type", string "Point"),
        ("coordinates", array [number longitude, number latitude])]
    else null
  | _, _ => null

/-- In metres. -/
def earthRadius : Float := 6371008.8

def pi : Float := 3.14159265358979323846264338327950288

def radians (degrees : Float) : Float := degrees * (pi / 180)

def squared (x : Float) : Float := x * x

/-- Great-circle distance in metres, by the haversine formula. -/
def greatCircle (a b : Position) : Float :=
  let halfLatitude := radians (b.latitude - a.latitude) / 2
  let halfLongitude := radians (b.longitude - a.longitude) / 2
  let cosines := (radians a.latitude).cos * (radians b.latitude).cos
  let h := squared halfLatitude.sin + cosines * squared halfLongitude.sin
  2 * earthRadius * h.sqrt.asin

def distance (a b : Value) : Value :=
  match a.position?, b.position? with
  | some a, some b => number (greatCircle a b)
  | _, _ => null

end Groq.Value
