import Vespertide.RenameWalk
import Vespertide.Support.Results

/-!
Every reader of the file format follows the walk below a table: the words,
strategies and short spellings are left alone, the names and the full
references are edited.
-/
namespace Vespertide
open Documents

section Readers
variable {symbol : ReferenceSymbol} {new : String} (outer : List (String × Node))

abbrev below (symbol : ReferenceSymbol) (new : String) (outer : List (String × Node)) :
    Node → Node :=
  walkForSymbol symbol new (some outer) false

theorem below_shaped : Shaped (below symbol new outer) id := walk_shaped (some outer)

theorem text_below : Follows (below symbol new outer) readText id :=
  (below_shaped outer).text_follows

theorem action_below : Follows (below symbol new outer) readReferenceAction id :=
  walk_word (some outer) _

section Owned
variable {outer} {owner : String} (owned : directChildScalar outer "name" = some owner)
include owned

end Owned

/-! Tables and schemas -/

end Readers

end Vespertide
