import ConfigAtlas.Diagnostic
import ConfigAtlas.Flat.Context
import ConfigAtlas.Markup.Document
import ConfigAtlas.Outline.Context
import ConfigAtlas.Path.Reader

/-!
# Surveys

A survey of a source answers where a path stands. A path that is not on record may follow from
what is, in the way of its dialect, and otherwise the nearest ancestor answers for it.
-/

namespace ConfigAtlas

/-- What is known of a source: what is on record, and for markup the only children. -/
inductive Survey where
  | outline (atlas : Atlas)
  | flat (atlas : Atlas)
  | markup (atlas : Atlas) (only : Markup.OnlyChildren)

namespace Survey

def findings : Dialect → List Char → List Finding
  | .outline => Outline.findings
  | .flat => Flat.findings
  | .markup => Markup.findings

def build (dialect : Dialect) (content : String) : Survey :=
  let atlas := Atlas.ofFindings (findings dialect content.toList)
  match dialect with
  | .outline => .outline atlas
  | .flat => .flat atlas
  | .markup => .markup atlas (Markup.Document.ofContent content.toList).onlyChildren

def dialect : Survey → Dialect
  | .outline _ => .outline
  | .flat _ => .flat
  | .markup .. => .markup

def atlas : Survey → Atlas
  | .outline atlas => atlas
  | .flat atlas => atlas
  | .markup atlas _ => atlas

theorem atlas_build (d : Dialect) (content : String) :
    (build d content).atlas = .ofFindings (findings d content.toList) := by
  cases d <;> rfl

/-! ## Answers -/

/-- What is on record under the path, or follows from it in the way of the dialect. -/
def resolve? (s : Survey) (p : Path) : Option Place :=
  match s with
  | .outline atlas => atlas.get? p
  | .flat atlas => Flat.resolve? atlas p
  | .markup atlas only => Markup.resolve? atlas only p

/-- The longest ancestor that has a place. -/
def nearest? (s : Survey) (p : Path) : Option (Path × Place) :=
  p.ancestors.findSome? fun ancestor => (s.resolve? ancestor).map fun place => (ancestor, place)

/-- The place of the path, or of its nearest ancestor. -/
def find? (s : Survey) (p : Path) : Option Place :=
  match s.resolve? p with
  | some place => some place
  | none => (s.nearest? p).map Prod.snd

/-- Finds a path that is given as a text. -/
def findText (s : Survey) (text : String) : Except Path.Error (Option Place) :=
  (Path.read text).map s.find?

/-- Points at the place that is found, if there is one. -/
def render? (s : Survey) (p : Path) (source? hint? : Option String)
    (highlight? : Option Highlight) : Except Diagnostic.Fault (Option String) :=
  match s.find? p with
  | none => .ok none
  | some place => (Diagnostic.mk place source? hint? highlight?).render.map some

/-! ## Events -/

/-- In markup an empty row at the end counts as a line. -/
def lineCount (content : List Char) : Dialect → Nat
  | .markup => (LineTable.ofContent content).count
  | _ => (Text.lines content).length

/-- The lines and tags that were passed over, and then the survey as a whole. -/
def buildEvents (dialect : Dialect) (content : String) : List Event :=
  (findings dialect content.toList).filterMap Finding.event? ++
    [.surveyed dialect (lineCount content.toList dialect) (build dialect content).atlas.size]

def findEvents (s : Survey) (p : Path) : List Event :=
  match s.resolve? p with
  | some _ => []
  | none => ((s.nearest? p).map fun (ancestor, _) => Event.fellBack p ancestor).toList

end Survey

end ConfigAtlas
