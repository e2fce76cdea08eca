import Stencil.Compile
import Stencil.Document
import Stencil.FileTree

/-! # Workspaces

Several documents, the files their templates come from, and the cache that spares compiling a
template again.
-/

/-! ## Specifications

All that determines a model: where the text of the template comes from, the flags, the directory of
its subtemplates, and the options.
-/

namespace Stencil

namespace Spec

inductive Source
  | text (content : String)
  | file (path : String)
  deriving DecidableEq

end Spec

structure Spec where
  source : Spec.Source
  flags : FlagSet := .empty
  /-- The directory of the subtemplates. -/
  base : Option String := none
  options : Options := {}

namespace Spec

inductive SourceKey
  | text (content : String)
  | file (path : List Path.Component)
  deriving DecidableEq

@[ext]
structure Key where
  source : SourceKey
  flags : FlagSet
  base : Option (List Path.Component)
  options : Options
  deriving DecidableEq

/-- The key of a specification: paths count by their components. -/
def key (s : Spec) : Key where
  source :=
    match s.source with
    | .text content => .text content
    | .file path => .file (Path.components path)
  flags := s.flags
  base := s.base.map Path.components
  options := s.options

/-- The directory that subtemplates are looked up in: the one given or else, for a file, the
directory of the file. -/
def loaderBase? (s : Spec) : Option String :=
  match s.base, s.source with
  | some base, _ => some base
  | none, .file path => some ((Path.parent? path).getD "")
  | none, .text _ => none

def loader? (s : Spec) (t : FileTree) : Option Loader :=
  s.loaderBase?.map t.loader

def load (s : Spec) (t : FileTree) : Except Error String :=
  match s.source with
  | .text content => .ok content
  | .file path => (t.read path).mapError fun fault => .load ⟨path, fault⟩

def compile (s : Spec) (t : FileTree) : Except Error Model := do
  let text ← s.load t
  Stencil.compile text s.flags s.options (s.loader? t)

end Spec

/-! ## The cache

Keeps one edition for every specification that was compiled. A specification that does not compile
leaves the cache as it is.
-/

structure Cache where
  entries : List (Spec.Key × Edition)

namespace Cache

def empty : Cache :=
  ⟨[]⟩

def size (c : Cache) : Nat :=
  c.entries.length

def isEmpty (c : Cache) : Bool :=
  c.entries.isEmpty

def find? (c : Cache) (key : Spec.Key) : Option Edition :=
  c.entries.lookup key

/-- Keeps an edition for a key that none is kept for. -/
def insert (c : Cache) (key : Spec.Key) (e : Edition) : Cache :=
  ⟨(key, e) :: c.entries⟩

/-- The edition of a specification, and the cache afterwards. If none is kept, the specification is
compiled, and its edition gets the given serial number. -/
def get (c : Cache) (t : FileTree) (serial : Nat) (s : Spec) : Except Error (Edition × Cache) :=
  match c.find? s.key with
  | some e => .ok (e, c)
  | none =>
    match s.compile t with
    | .error e => .error e
    | .ok model => .ok (⟨serial, model⟩, c.insert s.key ⟨serial, model⟩)

end Cache

/-! ## Documents side by side

Documents being filled in side by side, one of them selected, together with the files that templates
are read from and one cache. An operation that fails leaves the workspace as it is.
-/

structure Workspace where
  files : FileTree
  cache : Cache
  documents : Array Document
  selected : Nat
  /-- A serial number above those of all editions, for the next one. -/
  serial : Nat

namespace Workspace

def ofFiles (files : FileTree) : Workspace :=
  ⟨files, .empty, #[], 0, 0⟩

def document? (w : Workspace) : Option Document :=
  w.documents[w.selected]?

def insert (w : Workspace) (d : Document) : Workspace :=
  { w with documents := w.documents.push d, selected := w.documents.size }

/-- Adds a document for a model that has just been compiled, if it has been. The answer is the
number of the document. -/
def publish (w : Workspace) (compiled : Except Error Model) : Except Error Nat × Workspace :=
  match compiled with
  | .error e => (.error e, w)
  | .ok model =>
    (.ok w.documents.size,
      { w.insert (.ofEdition ⟨w.serial, model⟩) with serial := w.serial + 1 })

def parse (w : Workspace) (source : String) (flags : FlagSet) : Except Error Nat × Workspace :=
  w.publish (Stencil.compile source flags {} none)

def compile (w : Workspace) (source : String) (flags : FlagSet) (options : Options)
    (loader : Option Loader) : Except Error Nat × Workspace :=
  w.publish (Stencil.compile source flags options loader)

def openSpec (w : Workspace) (s : Spec) : Except Error Nat × Workspace :=
  w.publish (s.compile w.files)

def get (w : Workspace) (s : Spec) : Except Error Nat × Workspace :=
  match w.cache.get w.files w.serial s with
  | .error e => (.error e, w)
  | .ok (edition, cache) =>
    (.ok w.documents.size,
      { w.insert (.ofEdition edition) with cache, serial := w.serial + 1 })

def clearCache (w : Workspace) : Workspace :=
  { w with cache := .empty }

def select? (w : Workspace) (number : Nat) : Option Workspace :=
  if number < w.documents.size then some { w with selected := number } else none

/-- Adds a document made from the selected one; none if no document is selected. -/
def derive? (w : Workspace) (f : Document → Document) : Option Workspace :=
  w.document?.map fun d => w.insert (f d)

def clone? (w : Workspace) : Option Workspace :=
  w.derive? id

def cloneFresh? (w : Workspace) : Option Workspace :=
  w.derive? Document.fresh

def modify (w : Workspace) (f : Document → Document) : Workspace :=
  { w with documents := w.documents.modify w.selected f }

/-- Changes the selected document by what is found in its model, unless the search fails; no answer
if no document is selected. -/
def change {α : Type} (w : Workspace) (find : Model → Except Error α)
    (f : α → Document → Document) : Option (Except Error Unit) × Workspace :=
  match w.document?.map fun d => find d.model with
  | none => (none, w)
  | some (.error e) => (some (.error e), w)
  | some (.ok found) => (some (.ok ()), w.modify (f found))

def set (w : Workspace) (name value : String) : Option (Except Error Unit) × Workspace :=
  w.change (·.variableNumber name) fun index d => d.setValue index value

def setEscaped (w : Workspace) (name value : String) : Option (Except Error Unit) × Workspace :=
  w.set name (Text.Html.escape value)

def add (w : Workspace) (name : String) : Option (Except Error Unit) × Workspace :=
  w.change (·.blockNumbers name) fun blocks d => d.sealBlocks blocks

/-- Gives a variable of the selected document a value if the template refers to it. The answer says
whether it does; there is none if no document is selected. -/
def set? (w : Workspace) (name value : String) : Option Bool × Workspace :=
  match w.document?.map fun d => d.model.findVariable? name with
  | none => (none, w)
  | some none => (some false, w)
  | some (some index) => (some true, w.modify fun d => d.setValue index value)

/-- Adds an instance of every block of a name if the template has one. The answer says whether it
does; there is none if no document is selected. -/
def add? (w : Workspace) (name : String) : Option Bool × Workspace :=
  let (added, after) := w.add name
  (added.map Except.isOk, after)

def reset (w : Workspace) : Option (Except Error Unit) × Workspace :=
  w.change (fun _ => .ok ()) fun _ d => d.reset

def render (w : Workspace) : Option (Except Error String) :=
  w.document?.map Document.render

def renderTo (w : Workspace) (sink : Sink) : Option (Except Error Unit × Sink) :=
  w.document?.map (·.renderTo sink)

def renderToFile (w : Workspace) (path : String) : Option (Except Error Unit) × Workspace :=
  match w.document? with
  | none => (none, w)
  | some d =>
    match d.render with
    | .error e => (some (.error e), w)
    | .ok text =>
      match w.files.write path text.toUTF8 with
      | .error fault => (some (.error (.storage fault)), w)
      | .ok files => (some (.ok ()), { w with files })

structure Agreement where
  /-- They are of one edition. -/
  shared : Bool
  /-- Their models are equal. -/
  model : Bool
  /-- Their bindings are equal. -/
  bindings : Bool
  deriving DecidableEq

def compare? (w : Workspace) (a b : Nat) : Option Agreement :=
  match w.documents[a]?, w.documents[b]? with
  | some d, some e =>
    some
      { shared := d.edition.serial == e.edition.serial
        model := decide (d.model = e.model)
        bindings := decide (d.bindings = e.bindings) }
  | _, _ => none

end Workspace

end Stencil
