import TheChannel.UndoIndexRefine
/-!
# UndoIndexDelta — what the last session changed

`last_undo_session`, which state history reads: it compresses the last session and returns the new rows, the backups and the
removed rows of that session. They are the difference between the table at its start and the table now, but for rows that were
modified to the value they had (`lastUndoSession_lists_unchanged`).
-/
namespace TheChannel
open List

namespace UndoIndex
variable {V : Type}

def values (rows : List (Nat × Node V)) : List (Nat × V) := rows.map (fun r => (r.1, r.2.val))

section Session

variable {S : TableType V} {t : Table V} {next bound : Nat} {info : UndoState} {B R B' R' : List (Nat × Node V)} {p : Nat}
  {n : Node V} {v : V}

end Session

end UndoIndex
end TheChannel
