/-
File paths as text: components are separated by slashes.
-/
import SymbolAtlas.Text.Cut

namespace SymbolAtlas
namespace Text

/-- The components that name something: empty ones and single dots do not. -/
def components (path : List Char) : List (List Char) :=
  (pieces '/' path).filter fun p => p ≠ [] ∧ p ≠ ['.']

/-- The last component.  A path that ends in `..` has no name of its own, nor
has one without components. -/
def fileName? (path : List Char) : Option (List Char) :=
  match (components path).getLast? with
  | none => none
  | some name => if name = ['.', '.'] then none else some name

/-- The file `name` inside the directory `dir`.  An absolute name stands for
itself. -/
def joinPath (dir name : String) : String :=
  match name.toList with
  | '/' :: _ => name
  | _ =>
    match dir.toList.getLast? with
    | none => name
    | some '/' => dir ++ name
    | some _ => dir ++ "/" ++ name

end Text
end SymbolAtlas
