import SymbolicPaths.Script.Datum.Key
import SymbolicPaths.Script.Datum.Text
/-!
# Data as terms

Data answer every question that the library asks of its terms.
-/

namespace SymbolicPaths.Script.Datum

variable {P : Type}

/-- The reference and the field of a location. -/
def location? : Datum P → Option (Location (Datum P))
  | location r f => some ⟨r, f⟩
  | _ => none

/-- The cap in settings; nothing stands for no cap. -/
def cap? : Datum P → Option (Option (Datum P))
  | settings null _ => some none
  | settings cap _ => some (some cap)
  | _ => none

/-- The switch in settings. -/
def debug? : Datum P → Option Bool
  | settings _ debug => some debug.truthy
  | _ => none

instance : Term (Datum P) where
  same := same
  order := order
  unhashable? := unhashable?
  kind := kind
  written? := written?
  shown? := shown?
  location? := location?
  number? := number?
  cap? := cap?
  debug? := debug?

end SymbolicPaths.Script.Datum
