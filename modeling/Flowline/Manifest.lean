import Flowline.Json.Printer
import Flowline.Line

/-!
Manifests, the finished form of a program: its lines in order, and the registries of the services it uses,
the functions it declares and the modules it imports.
-/

namespace Flowline

/-- A finished program. -/
structure Manifest where
  lines : List Line
  version : String
  services : List String
  functions : List (String × Address)
  entrypoint : Option Address
  modules : List (String × String)

namespace Manifest

/-- The line at an address. -/
def line? (m : Manifest) (address : Address) : Option Line :=
  m.lines.find? (·.address == address)

/-- The address at which a function is declared. -/
def function? (m : Manifest) (name : String) : Option Address :=
  m.functions.lookup name

/-- A manifest as JSON. The lines are the fields of one object, in order, under their addresses. -/
def toJson (m : Manifest) : Json :=
  .object
    [("tree", .object (m.lines.map fun l => (l.address.text, l.toJson))),
      ("version", .string m.version),
      ("services", Json.texts m.services),
      ("functions", .object (m.functions.map fun f => (f.1, f.2.toJson))),
      ("entrypoint", Json.orNull Address.toJson m.entrypoint),
      ("modules", .object (m.modules.map fun entry => (entry.1, .string entry.2)))]

/-- The text of a manifest. -/
def render (m : Manifest) : String :=
  m.toJson.render

end Manifest

end Flowline
