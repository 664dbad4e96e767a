import LuajitTcpServer.Json.Shown
import LuajitTcpServer.Json.Reading

/-!
# Round trip — what is written is read back

`ffi_def_create.lua` keeps its preferences in a file that `encode` writes and `decode` reads.  The
value that is read stands for the tree of the value that was written, and nothing is left of the
text.
-/

namespace LuajitTcpServer
namespace Json

open Lua JsonText

section

variable {doubles : Doubles} {nullval : Val} {metaOf : Kind → Option Meta} {heap : Heap}
  {indent : Bool} {keyorder : Option (List Val)}

/-- A text that stands alone is read as a whole. -/
theorem decode_whole {t : Tree} {txt : List Char} (h : Text t txt) (heap : Heap) :
    ∃ added v, decode doubles nullval metaOf txt heap 1 =
        .ok (heap ++ added, v, txt.length + 1) ∧
      Decoded doubles nullval metaOf (heap ++ added) v t := by
  have hat : At txt 1 (txt ++ []) := by
    rw [List.append_nil]
    exact At.start txt
  have hend : Stops [] := by simp [Stops]
  rcases scanvalue_text h (Nat.le_succ txt.length) hend hat with ⟨added, v, hscan, hdecoded⟩
  exact ⟨added, v, by rw [decode, hscan, Nat.add_comm], hdecoded⟩

end

end Json
end LuajitTcpServer
