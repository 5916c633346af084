import ClusterCatalog.Plan
import ClusterCatalog.Warning
import ClusterCatalog.Tree.Repository
import ClusterCatalog.Json.Codec

/-!
# Access to the repository

An `Access` is a plan that calls the repository and logs warnings. A call can be refused, and a
refused call changes nothing. Everything that is stored is read and written through these five
requests.
-/

namespace ClusterCatalog

/-- A call of the repository, or a warning. -/
inductive StoreRequest where
  | persist (path : Path) (value : String)
  | query (path : Path)
  | children (path : Path)
  | delete (path : Path)
  | warn (warning : Warning)

/-- What is replied to a request. -/
def StoreRequest.Reply : StoreRequest → Type
  | persist .. => Except Error Unit
  | query _ => Except Error (Option String)
  | children _ => Except Error (List String)
  | delete _ => Except Error Unit
  | warn _ => Unit

/-- The repository and the log. -/
abbrev storeInterface : Interface := ⟨StoreRequest, StoreRequest.Reply⟩

/-- **An operation on the repository.** -/
abbrev Access (α : Type) := Plan storeInterface α

namespace Access

/-- Writes the text of a node. -/
def persist (path : Path) (value : String) : Access Unit :=
  .ask (.persist path value) fun reply => .ofExcept reply

/-- The text of a node. -/
def query (path : Path) : Access (Option String) :=
  .ask (.query path) fun reply => .ofExcept reply

/-- The names of the direct children of a node. -/
def children (path : Path) : Access (List String) :=
  .ask (.children path) fun reply => .ofExcept reply

/-- Removes a node and everything below it. -/
def delete (path : Path) : Access Unit :=
  .ask (.delete path) fun reply => .ofExcept reply

/-- Logs a warning. -/
def warn (warning : Warning) : Access Unit := .ask (.warn warning) fun _ => .done ()

/-- The value of a stored text. -/
def parse {α : Type} [Codec α] (text : String) : Access α :=
  .ofExcept ((Codec.read? text).elim (.error .malformedText) .ok)

end Access

/-- How a repository answers when no call is refused. -/
def Repository.answer : (r : StoreRequest) → Repository → r.Reply × Repository
  | .persist path value, s => (.ok (), s.persist path value)
  | .query path, s => (.ok (s.query path), s)
  | .children path, s => (.ok (s.children path), s)
  | .delete path, s => (.ok (), s.delete path)
  | .warn _, s => ((), s)

end ClusterCatalog
