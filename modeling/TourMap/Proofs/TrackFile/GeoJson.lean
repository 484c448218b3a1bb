import Mathlib.Data.List.Forall2
import TourMap.Proofs.Json.Text
import TourMap.TrackFile.GeoJson

/-!
# GeoJson: every line of a document is a tour

A document carries lines as line strings and in groups of them, in shapes that may be nested in
collections, in features and in collections of features (`Document`). Whatever else is in it, its
tours are these lines in the order of the document, each once, with the second number of a position
for the latitude and the first one for the longitude.
-/

namespace TourMap.GeoJson

open Json

/-! ## 1. What a document carries -/

/-- The position that a value writes. -/
inductive IsPosition : Value → GeoPosition → Prop
  | numbers (first second : Number) (more : List Number) :
    IsPosition (.array (.number first :: .number second :: more.map .number))
      ⟨first.toBinary double, second.toBinary double, more.map (·.toBinary double)⟩

/-- Whether the elements of a value write so many things. -/
inductive IsListOf {α : Type} (P : Value → α → Prop) : Value → List α → Prop
  | elements {values : List Value} {items : List α} (h : List.Forall₂ P values items) :
    IsListOf P (.array values) items

/-- The lines in the coordinates of a shape: those of points and polygons are none. -/
inductive Coordinates : (type : String) → Value → List (List GeoPosition) → Prop
  | point {v : Value} {p : GeoPosition} (h : IsPosition v p) : Coordinates "Point" v []
  | multiPoint {v : Value} {points : List GeoPosition} (h : IsListOf IsPosition v points) :
    Coordinates "MultiPoint" v []
  | lineString {v : Value} {line : List GeoPosition} (h : IsListOf IsPosition v line) :
    Coordinates "LineString" v [line]
  | multiLineString {v : Value} {lines : List (List GeoPosition)}
    (h : IsListOf (IsListOf IsPosition) v lines) : Coordinates "MultiLineString" v lines
  | polygon {v : Value} {rings : List (List GeoPosition)}
    (h : IsListOf (IsListOf IsPosition) v rings) : Coordinates "Polygon" v []
  | multiPolygon {v : Value} {polygons : List (List (List GeoPosition))}
    (h : IsListOf (IsListOf (IsListOf IsPosition)) v polygons) : Coordinates "MultiPolygon" v []

/-- A box is an array of numbers. -/
inductive IsBox : Option Value → Prop
  | absent : IsBox none
  | null : IsBox (some .null)
  | numbers (bounds : List Number) : IsBox (some (.array (bounds.map .number)))

inductive IsProperties : Option Value → Prop
  | absent : IsProperties none
  | null : IsProperties (some .null)
  | object (properties : Members) : IsProperties (some (.object properties))

inductive IsId : Option Value → Prop
  | absent : IsId none
  | number (n : Number) : IsId (some (.number n))
  | string (s : String) : IsId (some (.string s))

/-- The lines of a shape, which may be a collection of shapes. -/
inductive Shape : Members → List (List GeoPosition) → Prop
  | single {members : Members} {type : String} {v : Value} {lines : List (List GeoPosition)}
    (hbox : IsBox (members.get? "bbox")) (htype : members.get? "type" = some (.string type))
    (hv : members.get? "coordinates" = some v) (hlines : Coordinates type v lines) :
    Shape members lines
  | collection {members : Members} (parts : List (Members × List (List GeoPosition)))
    (hbox : IsBox (members.get? "bbox"))
    (htype : members.get? "type" = some (.string "GeometryCollection"))
    (hvalues : members.get? "geometries" = some (.array (parts.map fun p => .object p.1)))
    (hparts : ∀ p ∈ parts, Shape p.1 p.2) : Shape members (parts.flatMap (·.2))

/-- The lines of a feature, which may have no shape. -/
structure IsFeature (members : Members) (lines : List (List GeoPosition)) : Prop where
  type : members.get? "type" = some (.string "Feature")
  shape : members.get? "geometry" = some .null ∧ lines = [] ∨
    ∃ shape, members.get? "geometry" = some (.object shape) ∧ Shape shape lines
  box : IsBox (members.get? "bbox")
  properties : IsProperties (members.get? "properties")
  id : IsId (members.get? "id")

/-- The lines of a document. -/
inductive Document : Members → List (List GeoPosition) → Prop
  | geometry {members : Members} {lines : List (List GeoPosition)} (h : Shape members lines) :
    Document members lines
  | feature {members : Members} {lines : List (List GeoPosition)} (h : IsFeature members lines) :
    Document members lines
  | featureCollection {members : Members} (parts : List (Members × List (List GeoPosition)))
    (htype : members.get? "type" = some (.string "FeatureCollection"))
    (hbox : IsBox (members.get? "bbox"))
    (hvalues : members.get? "features" = some (.array (parts.map fun p => .object p.1)))
    (hparts : ∀ p ∈ parts, IsFeature p.1 p.2) : Document members (parts.flatMap (·.2))

/-! ## 2. Coordinates -/

theorem mapM_eq {α β : Type} {f : α → Result β} {as : List α} {bs : List β}
    (h : List.Forall₂ (fun a b => f a = .ok b) as bs) : as.mapM f = .ok bs := by
  induction h with
  | nil => rfl
  | cons ha _ ih =>
    rw [List.mapM_cons, ha, ih]
    rfl

theorem mapM_map_eq {α β γ : Type} {f : β → Result γ} {g : α → β} {k : α → γ} (as : List α)
    (h : ∀ a ∈ as, f (g a) = .ok (k a)) : (as.map g).mapM f = .ok (as.map k) := by
  apply mapM_eq
  rw [List.forall₂_map_left_iff, List.forall₂_map_right_iff, List.forall₂_same]
  exact h

theorem position_eq {v : Value} {p : GeoPosition} (h : IsPosition v p) : position v = .ok p := by
  cases h with
  | numbers first second more =>
    have hmore : (more.map Value.number).mapM coordinate =
        .ok (more.map (·.toBinary double)) :=
      mapM_map_eq more fun _ _ => rfl
    show (do
      let rest ← (more.map Value.number).mapM coordinate
      return (⟨first.toBinary double, second.toBinary double, rest⟩ : GeoPosition) :
        Result GeoPosition) = _
    rw [hmore]
    rfl

theorem elements_mapM {α : Type} {P : Value → α → Prop} {f : Value → Result α} {v : Value}
    {items : List α} (hf : ∀ v a, P v a → f v = .ok a) (h : IsListOf P v items) :
    (elements v >>= fun values => values.mapM f) = .ok items := by
  cases h with
  | elements h => exact mapM_eq (h.imp hf)

theorem positions_eq {v : Value} {line : List GeoPosition} (h : IsListOf IsPosition v line) :
    positions v = .ok line :=
  elements_mapM (fun _ _ => position_eq) h

theorem lines_eq {v : Value} {lines : List (List GeoPosition)}
    (h : IsListOf (IsListOf IsPosition) v lines) : GeoJson.lines v = .ok lines :=
  elements_mapM (fun _ _ => positions_eq) h

/-! ## 3. Shapes -/

theorem checkBox_eq {members : Members} (h : IsBox (members.get? "bbox")) :
    checkBox members = .ok () := by
  unfold checkBox
  generalize members.get? "bbox" = value at h ⊢
  cases h with
  | absent => rfl
  | null => rfl
  | numbers bounds =>
    show (if _ then _ else _) = _
    rw [if_pos]
    rw [List.all_map, List.all_eq_true]
    exact fun _ _ => rfl

theorem typeOf_eq {members : Members} {type : String}
    (h : members.get? "type" = some (.string type)) : typeOf members = .ok type := by
  unfold typeOf required
  rw [h]
  rfl

theorem required_eq {name : String} {members : Members} {v : Value}
    (h : members.get? name = some v) : required name members = .ok v := by
  unfold required
  rw [h]

theorem linesOfAll_eq (shapes : List Geometry) : linesOfAll shapes = shapes.flatMap linesOf := by
  induction shapes with
  | nil => rfl
  | cons g rest ih =>
    rw [linesOfAll, ih]
    rfl

theorem geometryOf_coordinates {members : Members} {type : String} {v : Value}
    {lines : List (List GeoPosition)} (hbox : IsBox (members.get? "bbox"))
    (htype : members.get? "type" = some (.string type))
    (hv : members.get? "coordinates" = some v) (hlines : Coordinates type v lines) :
    ∃ g, geometryOf (.object members) = .ok g ∧ linesOf g = lines := by
  rw [geometryOf, checkBox_eq hbox, typeOf_eq htype, required_eq hv]
  cases hlines with
  | @point _ p h =>
    refine ⟨.point p, ?_, rfl⟩
    show (position v >>= fun p => pure (Geometry.point p)) = _
    rw [position_eq h]
    rfl
  | @multiPoint _ points h =>
    refine ⟨.multiPoint points, ?_, rfl⟩
    show (positions v >>= fun points => pure (Geometry.multiPoint points)) = _
    rw [positions_eq h]
    rfl
  | @lineString _ line h =>
    refine ⟨.lineString line, ?_, rfl⟩
    show (positions v >>= fun line => pure (Geometry.lineString line)) = _
    rw [positions_eq h]
    rfl
  | multiLineString h =>
    refine ⟨.multiLineString lines, ?_, rfl⟩
    show (GeoJson.lines v >>= fun lines => pure (Geometry.multiLineString lines)) = _
    rw [lines_eq h]
    rfl
  | @polygon _ rings h =>
    refine ⟨.polygon rings, ?_, rfl⟩
    show (GeoJson.lines v >>= fun rings => pure (Geometry.polygon rings)) = _
    rw [lines_eq h]
    rfl
  | @multiPolygon _ polygons h =>
    refine ⟨.multiPolygon polygons, ?_, rfl⟩
    cases h with
    | @elements values _ h =>
      show (values.mapM GeoJson.lines >>= fun polygons => pure (Geometry.multiPolygon polygons)) = _
      rw [mapM_eq (h.imp fun _ _ => lines_eq)]
      rfl

theorem geometryOf_collection {members : Members} {values : List Value}
    (hbox : IsBox (members.get? "bbox"))
    (htype : members.get? "type" = some (.string "GeometryCollection"))
    (hvalues : members.get? "geometries" = some (.array values)) :
    geometryOf (.object members) = Geometry.collection <$> values.mapM geometryOf := by
  have hattach (values : List Value) :
      (values.attach.mapM fun (v : { v // v ∈ values }) => geometryOf v.1) =
        values.mapM geometryOf := by
    rw [List.mapM_subtype fun _ _ => rfl, List.unattach_attach]
  rw [geometryOf, checkBox_eq hbox, typeOf_eq htype]
  simp only [bind, Except.bind]
  split
  · rename_i hnone
    rw [hvalues] at hnone
    cases hnone
  · rename_i others hothers
    rw [hvalues] at hothers
    obtain rfl : values = others := by injection Option.some.inj hothers
    rw [hattach]
    exact bind_pure_comp (m := Result) Geometry.collection (values.mapM geometryOf)
  · rename_i v hno hv
    rw [hvalues] at hv
    exact absurd (Option.some.inj hv).symm (hno values)

/-- A part of a document, which carries lines, is read as something with these lines. -/
theorem exists_read_parts {α : Type} {f : Value → Result α} {linesOf : α → List (List GeoPosition)}
    {parts : List (Members × List (List GeoPosition))}
    (h : ∀ p ∈ parts, ∃ a, f (.object p.1) = .ok a ∧ linesOf a = p.2) :
    ∃ items, (parts.map fun p => Value.object p.1).mapM f = .ok items ∧
      items.flatMap linesOf = parts.flatMap (·.2) := by
  induction parts with
  | nil => exact ⟨[], rfl, rfl⟩
  | cons p parts ih =>
    obtain ⟨a, hread, hlines⟩ := h p List.mem_cons_self
    obtain ⟨items, hitems, hrest⟩ := ih fun q hq => h q (List.mem_cons_of_mem _ hq)
    refine ⟨a :: items, ?_, ?_⟩
    · rw [List.map_cons, List.mapM_cons, hread, hitems]
      rfl
    · rw [List.flatMap_cons, List.flatMap_cons, hlines, hrest]

/-- A shape has the lines that it carries, however deep they stand in collections. -/
theorem Shape.exists_geometry {members : Members} {lines : List (List GeoPosition)}
    (h : Shape members lines) : ∃ g, geometryOf (.object members) = .ok g ∧ linesOf g = lines := by
  induction h with
  | single hbox htype hv hlines => exact geometryOf_coordinates hbox htype hv hlines
  | collection parts hbox htype hvalues _ ih =>
    obtain ⟨items, hitems, hlines⟩ := exists_read_parts ih
    refine ⟨.collection items, ?_, ?_⟩
    · rw [geometryOf_collection hbox htype hvalues, hitems]
      rfl
    · rw [linesOf, linesOfAll_eq, hlines]

/-! ## 4. Documents -/

theorem checkProperties_eq {members : Members} (h : IsProperties (members.get? "properties")) :
    checkProperties members = .ok () := by
  unfold checkProperties
  generalize members.get? "properties" = value at h ⊢
  cases h <;> rfl

theorem checkId_eq {members : Members} (h : IsId (members.get? "id")) :
    checkId members = .ok () := by
  unfold checkId
  generalize members.get? "id" = value at h ⊢
  cases h <;> rfl

theorem IsFeature.exists_feature {members : Members} {lines : List (List GeoPosition)}
    (h : IsFeature members lines) :
    ∃ f, featureOfMembers members = .ok f ∧ linesOfFeature f = lines := by
  unfold featureOfMembers
  rw [typeOf_eq h.type, checkProperties_eq h.properties, checkId_eq h.id, checkBox_eq h.box]
  rcases h.shape with ⟨hnull, rfl⟩ | ⟨shape, hshape, hlines⟩
  · rw [required_eq hnull]
    exact ⟨⟨none⟩, rfl, rfl⟩
  · obtain ⟨g, hg, hlines⟩ := hlines.exists_geometry
    rw [required_eq hshape]
    refine ⟨⟨some g⟩, ?_, hlines⟩
    show (some <$> geometryOf (.object shape) >>= fun shape => pure ⟨shape⟩ : Result Feature) = _
    rw [hg]
    rfl

theorem Coordinates.mem_geometryTypes {type : String} {v : Value}
    {lines : List (List GeoPosition)} (h : Coordinates type v lines) : type ∈ geometryTypes := by
  cases h <;> decide

theorem ofMembers_geometry {members : Members} {type : String}
    (htype : members.get? "type" = some (.string type)) (hmem : type ∈ geometryTypes) :
    ofMembers members = GeoJson.geometry <$> geometryOf (.object members) := by
  have hfeature : type ≠ "Feature" := by
    rintro rfl
    exact absurd hmem (by decide)
  have hcollection : type ≠ "FeatureCollection" := by
    rintro rfl
    exact absurd hmem (by decide)
  unfold ofMembers
  rw [htype]
  show (if type = "Feature" then _ else if type = "FeatureCollection" then _ else
    if type ∈ geometryTypes then _ else _ : Result GeoJson) = _
  rw [if_neg hfeature, if_neg hcollection, if_pos hmem]
  exact bind_pure_comp GeoJson.geometry _

theorem Shape.ofMembers_eq {members : Members} {lines : List (List GeoPosition)}
    (h : Shape members lines) :
    ofMembers members = GeoJson.geometry <$> geometryOf (.object members) := by
  cases h with
  | single _ htype _ hlines => exact ofMembers_geometry htype hlines.mem_geometryTypes
  | collection _ _ htype => exact ofMembers_geometry htype (by decide)

/-- A document has the lines that it carries. -/
theorem Document.exists_document {members : Members} {lines : List (List GeoPosition)}
    (h : Document members lines) : ∃ d, ofMembers members = .ok d ∧ d.allLines = lines := by
  cases h with
  | geometry h =>
    obtain ⟨g, hg, hlines⟩ := h.exists_geometry
    rw [h.ofMembers_eq, hg]
    exact ⟨.geometry g, rfl, hlines⟩
  | feature h =>
    obtain ⟨f, hf, hlines⟩ := h.exists_feature
    refine ⟨.feature f, ?_, hlines⟩
    unfold ofMembers
    rw [h.type]
    show (featureOfMembers members >>= fun f => pure (.feature f) : Result GeoJson) = _
    rw [hf]
    rfl
  | featureCollection parts htype hbox hvalues hparts =>
    obtain ⟨features, hfeatures, hlines⟩ :=
      exists_read_parts (f := featureOf) fun p hp => (hparts p hp).exists_feature
    refine ⟨.featureCollection features, ?_, hlines⟩
    unfold ofMembers
    rw [htype, checkBox_eq hbox, required_eq hvalues]
    show (_ >>= fun features => pure (.featureCollection features) : Result GeoJson) = _
    rw [hfeatures]
    rfl

theorem ofFile_eq {members : Members} {lines : List (List GeoPosition)}
    (h : Document members lines) {octets : List UInt8} {rest : List Char}
    (hread : takeObject (Json.ofOctets octets) = .ok (members, rest))
    (hend : endText rest = .ok ((), [])) :
    ofFile (some octets) = .ok (lines.map fun line => line.map place) := by
  obtain ⟨d, hd, rfl⟩ := h.exists_document
  show ofOctets octets = _
  unfold ofOctets
  rw [hread]
  dsimp only
  rw [hd]
  dsimp only
  rw [hend]
  rfl

/-- A document that carries lines is read as these lines, one tour for each, in their order: from any
text that is read as the document's members, and from any text that writes them and nests no more
brackets than a reader allows. How the lines are nested and what stands between them makes no
difference. -/
theorem every_line_is_a_tour {members : Members} {lines : List (List GeoPosition)}
    (h : Document members lines) :
    (∀ octets rest, takeObject (Json.ofOctets octets) = .ok (members, rest) →
      endText rest = .ok ((), []) →
        ofFile (some octets) =
          .ok (lines.map fun line => line.map fun p => ⟨p.latitude, p.longitude⟩)) ∧
    (∀ octets, WritesObject members (Json.ofOctets octets) →
      ofFile (some octets) =
        .ok (lines.map fun line => line.map fun p => ⟨p.latitude, p.longitude⟩)) ∧
    ∀ others, Document others lines → ∀ octets otherOctets,
      WritesObject members (Json.ofOctets octets) →
      WritesObject others (Json.ofOctets otherOctets) →
        ofFile (some octets) = ofFile (some otherOctets) := by
  have hwritten {members : Members} (h : Document members lines) {octets : List UInt8}
      (hoctets : WritesObject members (Json.ofOctets octets)) :
      ofFile (some octets) = .ok (lines.map fun line => line.map place) := by
    obtain ⟨rest, hread, hend⟩ := takeObject_of_writes hoctets
    exact ofFile_eq h hread hend
  refine ⟨fun octets rest hread hend => ofFile_eq h hread hend, fun octets => hwritten h, ?_⟩
  intro others hothers octets otherOctets hoctets hotherOctets
  rw [hwritten h hoctets, hwritten hothers hotherOctets]

def pointMembers : Members :=
  [("type", .string "Point"), ("coordinates", .array [.number (.natural 0), .number (.natural 0)])]

def lineMembers : Members :=
  [("type", .string "LineString"),
    ("coordinates", .array
      [.array [.number (.natural 7), .number (.natural 46), .number (.natural 500)],
        .array [.number (.natural 8), .number (.natural 47)]])]

def collectionMembers : Members :=
  [("type", .string "GeometryCollection"),
    ("geometries", .array [.object pointMembers, .object lineMembers])]

/-- A feature with a collection of a point and a line. -/
def featureMembers : Members :=
  [("type", .string "Feature"), ("properties", .null), ("geometry", .object collectionMembers)]

def featureText : List Char :=
  "\x7b\"type\":\"Feature\",\"properties\":null,\"geometry\":".toList ++
    "\x7b\"type\":\"GeometryCollection\",\"geometries\":[".toList ++
    "\x7b\"type\":\"Point\",\"coordinates\":[0,0]\x7d,".toList ++
    "\x7b\"type\":\"LineString\",\"coordinates\":[[7,46,500],[8,47]]\x7d]\x7d\x7d\n".toList

def shortLine : List GeoPosition :=
  [⟨.ofInt 7, .ofInt 46, [.ofInt 500]⟩, ⟨.ofInt 8, .ofInt 47, []⟩]

theorem document_featureMembers : Document featureMembers [shortLine] := by
  have hpoint : Shape pointMembers [] :=
    .single .absent rfl rfl (.point (.numbers (.natural 0) (.natural 0) []))
  have hline : Shape lineMembers [shortLine] :=
    .single .absent rfl rfl (.lineString (.elements
      (.cons (.numbers (.natural 7) (.natural 46) [.natural 500])
        (.cons (.numbers (.natural 8) (.natural 47) []) .nil))))
  have hcollection : Shape collectionMembers [shortLine] := by
    refine @Shape.collection collectionMembers [(pointMembers, []), (lineMembers, [shortLine])]
      .absent rfl rfl ?_
    intro p hp
    rcases List.mem_cons.1 hp with rfl | hp
    · exact hpoint
    · obtain rfl := List.mem_singleton.1 hp
      exact hline
  exact .feature ⟨rfl, .inr ⟨collectionMembers, rfl, hcollection⟩, .absent, .null, .absent⟩

theorem writesObject_featureText : WritesObject featureMembers featureText := by
  have hcomma : Separator false [','] := .comma blanks_nil blanks_nil
  have hfirst : Separator true [] := .first blanks_nil
  have hclose {l : Nat} : WritesElements l false [] [']'] := .close blanks_nil
  have hend {l : Nat} : WritesMembers l false [] ['}'] := .close blanks_nil
  have hnumber {l : Nat} (digits : List Char) {x : Number} (hne : digits ≠ [])
      (hdigits : digits.all Char.isDigit = true)
      (hzero : digits.head? = some '0' → digits = ['0'])
      (hread : (⟨false, digits, [], none⟩ : Numeral).read = .ok x) :
      Writes l (.number x) digits :=
    .number (isNumeral_digits hne (List.all_eq_true.1 hdigits) hzero hread)
  have hmember {l : Nat} {first : Bool} {separator name text rest : List Char} {key : String}
      {value : Value} {members : Members} (hseparator : Separator first separator)
      (hname : IsQuoted name key) (hvalue : Writes l value text)
      (hrest : WritesMembers l false members rest) :
      WritesMembers l first ((key, value) :: members)
        (separator ++ '"' :: (name ++ ':' :: (text ++ rest))) :=
    .member hseparator hname blanks_nil blanks_nil hvalue hrest
  have htype : IsQuoted "type\"".toList "type" := rfl
  have hcoordinates : IsQuoted "coordinates\"".toList "coordinates" := rfl
  have hzero {l : Nat} : Writes l (.number (.natural 0)) ['0'] :=
    hnumber ['0'] (by decide) (by decide) (by decide) rfl
  have hpoint : Writes 3 (.object pointMembers) _ :=
    .object (hmember hfirst htype (.string (show IsQuoted "Point\"".toList "Point" from rfl))
      (hmember hcomma hcoordinates
        (.array (.element hfirst hzero (.element hcomma hzero hclose))) hend))
  have hplaces : Writes 2 (.array
      [.array [.number (.natural 7), .number (.natural 46), .number (.natural 500)],
        .array [.number (.natural 8), .number (.natural 47)]]) _ :=
    .array (.element hfirst (.array
        (.element hfirst (hnumber ['7'] (by decide) (by decide) (by decide) rfl)
          (.element hcomma (hnumber ['4', '6'] (by decide) (by decide) (by decide) rfl)
            (.element hcomma (hnumber ['5', '0', '0'] (by decide) (by decide) (by decide) rfl)
              hclose))))
      (.element hcomma (.array
        (.element hfirst (hnumber ['8'] (by decide) (by decide) (by decide) rfl)
          (.element hcomma (hnumber ['4', '7'] (by decide) (by decide) (by decide) rfl) hclose)))
        hclose))
  have hline : Writes 3 (.object lineMembers) _ :=
    .object (hmember hfirst htype
      (.string (show IsQuoted "LineString\"".toList "LineString" from rfl))
      (hmember hcomma hcoordinates hplaces hend))
  have hcollection : Writes 5 (.object collectionMembers) _ :=
    .object (hmember hfirst htype
      (.string (show IsQuoted "GeometryCollection\"".toList "GeometryCollection" from rfl))
      (hmember hcomma (show IsQuoted "geometries\"".toList "geometries" from rfl)
        (.array (.element hfirst hpoint (.element hcomma hline hclose))) hend))
  have hnewline : Blanks ['\n'] := by
    intro c hc
    obtain rfl := List.mem_singleton.1 hc
    rfl
  refine ⟨[], ['\n'], _, 5, blanks_nil, hnewline, hmember hfirst htype
      (.string (show IsQuoted "Feature\"".toList "Feature" from rfl))
      (hmember hcomma (show IsQuoted "properties\"".toList "properties" from rfl) .null
        (hmember hcomma (show IsQuoted "geometry\"".toList "geometry" from rfl) hcollection hend)),
      by decide, ?_⟩
  decide +kernel

/-- A line in a collection, with a point before it, is the only tour of its document. -/
theorem every_line_is_a_tour_of_feature :
    Document featureMembers [shortLine] ∧ WritesObject featureMembers featureText ∧
      ofFile (some (featureText.map fun c => UInt8.ofNat c.toNat)) =
        .ok [[⟨.ofInt 46, .ofInt 7⟩, ⟨.ofInt 47, .ofInt 8⟩]] := by
  have hoctets : Json.ofOctets (featureText.map fun c => UInt8.ofNat c.toNat) = featureText := by
    decide +kernel
  refine ⟨document_featureMembers, writesObject_featureText, ?_⟩
  have hread := (every_line_is_a_tour document_featureMembers).2.1
    (featureText.map fun c => UInt8.ofNat c.toNat)
  rw [hoctets] at hread
  rw [hread writesObject_featureText]
  simp only [shortLine, List.map_cons, List.map_nil]

end TourMap.GeoJson
