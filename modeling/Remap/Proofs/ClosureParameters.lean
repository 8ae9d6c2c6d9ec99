import Remap.Proofs.Lossless
import Remap.Proofs.Parser.Duplicates
import Remap.Proofs.RaisedLimit

/-!
# Closure parameters

A closure whose parameters repeat a name is reported, once for each parameter that has the name of an earlier one, however many
closures there are and however they are nested; and parameters named `_` may repeat. What the parser knows of the names when it reports
them is what the tree shows of them afterwards.
-/

namespace Remap

end Remap
